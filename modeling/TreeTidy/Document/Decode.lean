import TreeTidy.Document.Basic
import TreeTidy.Json.Decode
/-! Reading documents, and the parts of documents, from JSON. -/
namespace TreeTidy

open Json

def Span.ofJson (room : Nat) (v : Json) : Except Refusal Span := do
  let given ← toRecord .open ["start", "end"] v
  let _ ← enter room
  let start ← given.required "start" toNat64
  let stop ← given.required "end" toNat64
  pure ⟨start, stop⟩

namespace TypeDesc

def variants : List String := ["primitive", "class", "array", "null"]

/-- A type in a value that was read whole before. Each type is at least one level deep, so fuel for
every level there can be is never used up. -/
def ofWhole : (fuel : Nat) → (byPlace : Bool) → Json → Except Refusal TypeDesc
  | 0, _, _ => .error .unsuited
  | fuel + 1, byPlace, v => do
    let (variant, v) ← toTagged "type" variants byPlace v
    match variant with
    | "primitive" =>
      let given ← toRecord .inner ["primitive"] v
      let p ← given.required "primitive" toCoded
      pure (primitive p)
    | "class" =>
      let given ← toRecord .inner ["name", "args"] v
      let name ← given.required "name" toText
      let args ← given.withDefault "args" [] fun
        | .arr vs => vs.mapM (ofWhole fuel true)
        | v => refuse v
      pure (classType name args)
    | "array" =>
      let given ← toRecord .inner ["element"] v
      let element ← given.required "element" (ofWhole fuel true)
      pure (array element)
    | _ =>
      let _ ← toRecord .inner [] v
      pure null

def ofJson (room : Nat) (v : Json) : Except Refusal TypeDesc :=
  match v with
  | .obj _ | .arr _ => toWhole room (ofWhole (roomOfText + 1) false) v
  | v => refuse v

end TypeDesc

namespace NodeKind

def variants : List String :=
  ["compilation_unit", "import_list", "import", "class_decl", "method_decl", "constructor_decl",
    "field_decl", "modifiers", "modifier", "param", "primitive_type", "class_type", "array_type",
    "var_type", "block", "expr_stmt", "local_var", "if", "while", "for_each", "return", "throw",
    "break", "continue", "empty", "explicit_constructor_call", "name", "type_name", "this",
    "literal", "unary", "binary", "conditional", "assign", "paren", "method_call", "field_access",
    "new", "instance_of", "cast", "lambda", "method_ref", "array_access"]

/-- A kind without fields. -/
def bare (k : NodeKind) (v : Json) : Except Refusal NodeKind := do
  let _ ← toRecord .inner [] v
  pure k

/-- A kind whose only field is its name. -/
def named (f : String → NodeKind) (v : Json) : Except Refusal NodeKind := do
  let given ← toRecord .inner ["name"] v
  let name ← given.required "name" toText
  pure (f name)

/-- The kind of a variant, from the fields beside its tag. -/
def ofVariant (variant : String) (v : Json) : Except Refusal NodeKind :=
  match variant with
  | "compilation_unit" => do
    let given ← toRecord .inner ["package"] v
    let package ← given.withDefault "package" none (toOption toText)
    pure (compilationUnit package)
  | "import_list" => bare importList v
  | "import" => do
    let given ← toRecord .inner ["path", "is_static", "wildcard"] v
    let path ← given.required "path" toText
    let isStatic ← given.withDefault "is_static" false toBool
    let wildcard ← given.withDefault "wildcard" false toBool
    pure (importDecl path isStatic wildcard)
  | "class_decl" => do
    let given ← toRecord .inner ["name", "class_kind"] v
    let name ← given.required "name" toText
    let flavour ← given.required "class_kind" toCoded
    pure (classDecl name flavour)
  | "method_decl" => named methodDecl v
  | "constructor_decl" => named constructorDecl v
  | "field_decl" => named fieldDecl v
  | "modifiers" => bare modifiers v
  | "modifier" => do
    let given ← toRecord .inner ["keyword"] v
    let keyword ← given.required "keyword" toCoded
    pure (modifier keyword)
  | "param" => named param v
  | "primitive_type" => do
    let given ← toRecord .inner ["primitive"] v
    let p ← given.required "primitive" toCoded
    pure (primitiveType p)
  | "class_type" => do
    let given ← toRecord .inner ["name", "diamond"] v
    let name ← given.required "name" toText
    let diamond ← given.withDefault "diamond" false toBool
    pure (classType name diamond)
  | "array_type" => bare arrayType v
  | "var_type" => bare varType v
  | "block" => bare block v
  | "expr_stmt" => bare exprStmt v
  | "local_var" => named localVar v
  | "if" => bare ifStmt v
  | "while" => bare whileLoop v
  | "for_each" => named forEach v
  | "return" => bare returnStmt v
  | "throw" => bare throwStmt v
  | "break" => bare breakStmt v
  | "continue" => bare continueStmt v
  | "empty" => bare emptyStmt v
  | "explicit_constructor_call" => do
    let given ← toRecord .inner ["is_super"] v
    let isSuper ← given.required "is_super" toBool
    pure (constructorCall isSuper)
  | "name" => named nameExpr v
  | "type_name" => named typeName v
  | "this" => bare thisExpr v
  | "literal" => do
    let given ← toRecord .inner ["literal", "text"] v
    let sort ← given.required "literal" toCoded
    let text ← given.required "text" toText
    pure (literal sort text)
  | "unary" => do
    let given ← toRecord .inner ["op"] v
    let op ← given.required "op" toCoded
    pure (unary op)
  | "binary" => do
    let given ← toRecord .inner ["op"] v
    let op ← given.required "op" toCoded
    pure (binary op)
  | "conditional" => bare conditional v
  | "assign" => do
    let given ← toRecord .inner ["op"] v
    let op ← given.required "op" toCoded
    pure (assign op)
  | "paren" => bare paren v
  | "method_call" => named methodCall v
  | "field_access" => named fieldAccess v
  | "new" => bare newObject v
  | "instance_of" => bare instanceOf v
  | "cast" => bare castExpr v
  | "lambda" => do
    let given ← toRecord .inner ["parenthesized"] v
    let parenthesized ← given.withDefault "parenthesized" false toBool
    pure (lambda parenthesized)
  | "method_ref" => named methodRef v
  | "array_access" => bare arrayAccess v
  | _ => .error .unsuited

def ofJson (room : Nat) (v : Json) : Except Refusal NodeKind :=
  match v with
  | .obj _ | .arr _ =>
    toWhole room (fun v => do
      let (variant, v) ← toTagged "node" variants false v
      ofVariant variant v) v
  | v => refuse v

end NodeKind

namespace Doc

/-- The node that an object or an array describes; `room` counts the levels left around it. -/
def ofJson : (room : Nat) → Json → Except Refusal Doc
  | 0, v =>
    match v with
    | .obj _ | .arr _ => .error .malformed
    | v => refuse v
  | room + 1, v => do
    let given ← toRecord .open ["kind", "span", "ty", "slots", "list"] v
    let kind ← given.required "kind" (NodeKind.ofJson room)
    let span ← given.withDefault "span" Span.none (Span.ofJson room)
    let ty ← given.withDefault "ty" none (toOption (TypeDesc.ofJson room))
    let slots ← given.withDefault "slots" [] fun
      | .arr vs =>
        match room with
        | 0 => .error .malformed
        | inner + 1 => vs.mapM (toOption (ofJson inner))
      | v => refuse v
    let list ← given.withDefault "list" [] fun
      | .arr vs =>
        match room with
        | 0 => .error .malformed
        | inner + 1 => vs.mapM (ofJson inner)
      | v => refuse v
    pure (node kind span ty slots list)

end Doc

def MethodInfo.ofJson (room : Nat) (v : Json) : Except Refusal MethodInfo := do
  let given ← toRecord .open ["name", "returns", "is_static"] v
  let room ← enter room
  let name ← given.required "name" toText
  let returns ← given.required "returns" (TypeDesc.ofJson room)
  let isStatic ← given.withDefault "is_static" false toBool
  pure ⟨name, returns, isStatic⟩

def ClassInfo.ofJson (room : Nat) (v : Json) : Except Refusal ClassInfo := do
  let given ← toRecord .open ["name", "interface", "supertypes", "methods", "since"] v
  let room ← enter room
  let name ← given.required "name" toText
  let interface ← given.withDefault "interface" false toBool
  let supertypes ← given.withDefault "supertypes" [] (toList room fun _ => toText)
  let methods ← given.withDefault "methods" [] (toList room MethodInfo.ofJson)
  let since ← given.withDefault "since" none (toOption toNat16)
  pure ⟨name, interface, supertypes, methods, since⟩

namespace UnitDoc

def ofJson (room : Nat) (v : Json) : Except Refusal UnitDoc := do
  let given ← toRecord .open ["path", "language_level", "classes", "root"] v
  let room ← enter room
  let path ← given.required "path" toText
  let level ← given.withDefault "language_level" Level.standard toNat16
  let classes ← given.withDefault "classes" [] (toList room ClassInfo.ofJson)
  let root ← given.required "root" (Doc.ofJson room)
  pure ⟨path, level, classes, root⟩

/-- The unit that a JSON text describes. -/
def read (text : String) : Except Refusal UnitDoc := do
  let v ← Json.read text
  ofJson roomOfText v

end UnitDoc

end TreeTidy
