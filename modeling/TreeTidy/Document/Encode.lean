import TreeTidy.Document.Basic
import TreeTidy.Json.Write
/-!
Writing documents as JSON. Fields stand in a fixed order. Empty spans, absent types, empty lists and
empty slots at the end are left out of nodes; all other fields are always written.
-/
namespace TreeTidy

open Json

def Coded.toJson {α : Type} [Coded α] (a : α) : Json := .text (Coded.code a)

def Span.toJson (s : Span) : Json := record [("start", .nat s.start), ("end", .nat s.stop)]

namespace TypeDesc

mutual

def toJson : TypeDesc → Json
  | primitive p => record [("type", .text "primitive"), ("primitive", Coded.toJson p)]
  | classType n [] => record [("type", .text "class"), ("name", .text n)]
  | classType n (a :: as) =>
    record [("type", .text "class"), ("name", .text n), ("args", .arr (toJson a :: toJsons as))]
  | array e => record [("type", .text "array"), ("element", toJson e)]
  | null => record [("type", .text "null")]

def toJsons : List TypeDesc → List Json
  | [] => []
  | a :: as => toJson a :: toJsons as

end

end TypeDesc

namespace NodeKind

/-- The fields beside the tag. -/
def fields : NodeKind → List (String × Json)
  | compilationUnit package => [("package", .ofOption .text package)]
  | importDecl path isStatic wildcard =>
    [("path", .text path), ("is_static", .bool isStatic), ("wildcard", .bool wildcard)]
  | classDecl n flavour => [("name", .text n), ("class_kind", Coded.toJson flavour)]
  | modifier keyword => [("keyword", Coded.toJson keyword)]
  | primitiveType p => [("primitive", Coded.toJson p)]
  | classType n diamond => [("name", .text n), ("diamond", .bool diamond)]
  | constructorCall isSuper => [("is_super", .bool isSuper)]
  | literal sort text => [("literal", Coded.toJson sort), ("text", .text text)]
  | unary op => [("op", Coded.toJson op)]
  | binary op => [("op", Coded.toJson op)]
  | assign op => [("op", Coded.toJson op)]
  | lambda parenthesized => [("parenthesized", .bool parenthesized)]
  | methodDecl n | constructorDecl n | fieldDecl n | param n | localVar n | forEach n | nameExpr n
  | typeName n | methodCall n | fieldAccess n | methodRef n => [("name", .text n)]
  | _ => []

def toJson (k : NodeKind) : Json := record (("node", .text k.tag) :: k.fields)

end NodeKind

namespace Doc

/-- A field that is left out when its list is empty. -/
def unlessEmpty (name : String) (items : List Json) : List (String × Json) :=
  if items.isEmpty then [] else [(name, .arr items)]

def spanField (s : Span) : List (String × Json) :=
  if s.isEmpty then [] else [("span", s.toJson)]

def typeField : Option TypeDesc → List (String × Json)
  | none => []
  | some t => [("ty", t.toJson)]

/-- Drops the nulls at the end. -/
def trimNulls (vs : List Json) : List Json :=
  (vs.reverse.dropWhile fun v => match v with | .null => true | _ => false).reverse

mutual

def toJson : Doc → Json
  | node kind span ty slots list =>
    record (("kind", kind.toJson) :: spanField span ++ typeField ty
      ++ unlessEmpty "slots" (trimNulls (slotsToJson slots))
      ++ unlessEmpty "list" (listToJson list))

def slotsToJson : List (Option Doc) → List Json
  | [] => []
  | none :: ss => .null :: slotsToJson ss
  | some d :: ss => toJson d :: slotsToJson ss

def listToJson : List Doc → List Json
  | [] => []
  | d :: ds => toJson d :: listToJson ds

end

end Doc

def MethodInfo.toJson (m : MethodInfo) : Json :=
  record [("name", .text m.name), ("returns", m.returns.toJson), ("is_static", .bool m.isStatic)]

def ClassInfo.toJson (c : ClassInfo) : Json :=
  record [("name", .text c.name), ("interface", .bool c.interface),
    ("supertypes", .texts c.supertypes), ("methods", .arr (c.methods.map MethodInfo.toJson)),
    ("since", .ofOption .nat c.since)]

namespace UnitDoc

def toJson (u : UnitDoc) : Json :=
  record (("path", .text u.path) :: ("language_level", .nat u.level)
    :: Doc.unlessEmpty "classes" (u.classes.map ClassInfo.toJson) ++ [("root", u.root.toJson)])

/-- The text of the unit, with one item a line. -/
def write (u : UnitDoc) : String := u.toJson.pretty 0

end UnitDoc

end TreeTidy
