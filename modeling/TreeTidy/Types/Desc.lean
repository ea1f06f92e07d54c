import TreeTidy.Grammar.Keyword
/-! Static types: primitives, classes with type arguments, arrays and the type of `null`. -/
namespace TreeTidy

/-- A language version, as the number of its major release. -/
abbrev Level := Nat

namespace Level

/-- The level of a unit that states none. -/
def standard : Level := 8

/-- The level that every rule is taken to support unless it says otherwise. -/
def baseline : Level := 5

def latest : Level := 21

/-- The highest number that a document may give as a level. -/
def last : Level := 65535

end Level

inductive TypeDesc
  | primitive (p : Primitive)
  | classType (name : String) (args : List TypeDesc)
  | array (element : TypeDesc)
  | null
  deriving Repr, Inhabited

namespace TypeDesc

mutual

def beq : TypeDesc → TypeDesc → Bool
  | primitive p, primitive q => p == q
  | classType n as, classType m bs => n == m && beqList as bs
  | array a, array b => beq a b
  | null, null => true
  | _, _ => false

def beqList : List TypeDesc → List TypeDesc → Bool
  | [], [] => true
  | a :: as, b :: bs => beq a b && beqList as bs
  | _, _ => false

end

mutual

theorem eq_of_beq : {a b : TypeDesc} → beq a b = true → a = b
  | primitive _, b, h => by cases b <;> simp_all [beq]
  | classType n as, b, h => by
    cases b with
    | classType m bs =>
      simp only [beq, Bool.and_eq_true, beq_iff_eq] at h
      rw [h.1, eq_of_beqList h.2]
    | _ => simp [beq] at h
  | array a, b, h => by
    cases b with
    | array b => simp only [beq] at h; rw [eq_of_beq h]
    | _ => simp [beq] at h
  | null, b, h => by cases b <;> simp_all [beq]

theorem eq_of_beqList : {as bs : List TypeDesc} → beqList as bs = true → as = bs
  | [], bs, h => by cases bs <;> simp_all [beqList]
  | a :: as, bs, h => by
    cases bs with
    | nil => simp [beqList] at h
    | cons b bs =>
      simp only [beqList, Bool.and_eq_true] at h
      rw [eq_of_beq h.1, eq_of_beqList h.2]

end

mutual

theorem beq_self : (a : TypeDesc) → beq a a = true
  | primitive _ => by simp [beq]
  | classType _ as => by simp [beq, beqList_self as]
  | array a => by simp [beq, beq_self a]
  | null => rfl

theorem beqList_self : (as : List TypeDesc) → beqList as as = true
  | [] => rfl
  | a :: as => by simp [beqList, beq_self a, beqList_self as]

end

instance : DecidableEq TypeDesc := fun a b =>
  if h : beq a b = true then isTrue (eq_of_beq h)
  else isFalse fun e => h (e ▸ beq_self a)

/-- A class type without type arguments. -/
def ofClass (name : String) : TypeDesc := classType name []

def string : TypeDesc := ofClass "java.lang.String"

def boolean : TypeDesc := primitive .boolean

def int : TypeDesc := primitive .int

def primitive? : TypeDesc → Option Primitive
  | primitive p => some p
  | _ => none

def isPrimitive (p : Primitive) (t : TypeDesc) : Bool := t.primitive? == some p

def className? : TypeDesc → Option String
  | classType n _ => some n
  | _ => none

def args : TypeDesc → List TypeDesc
  | classType _ as => as
  | _ => []

def isClass (qualified : String) (t : TypeDesc) : Bool := t.className? == some qualified

def isString (t : TypeDesc) : Bool := t.isClass "java.lang.String"

/-- The primitive that the type is, or that it wraps. -/
def unboxed? : TypeDesc → Option Primitive
  | primitive p => some p
  | classType n _ => Primitive.ofBoxedClass? n
  | _ => none

/-- The wrapper class of a primitive; any other type stays. -/
def boxed (t : TypeDesc) : TypeDesc :=
  match t.primitive?.bind Primitive.boxedClass? with
  | some c => ofClass c
  | none => t

mutual

def text : TypeDesc → String
  | primitive p => p.keyword
  | classType n [] => n
  | classType n (a :: as) => n ++ "<" ++ text a ++ restText as ++ ">"
  | array e => text e ++ "[]"
  | null => "null"

/-- The arguments after the first, each after a comma. -/
def restText : List TypeDesc → String
  | [] => ""
  | a :: as => ", " ++ text a ++ restText as

end

end TypeDesc

end TreeTidy
