import Mathlib.Tactic.Common
import TreeTidy.Rules.Shape
/-!
Values, and how they are negated and compared. A value is of a primitive type, an object or `null`.
Nothing is said of floating values but that one of them stands in no order, and nothing of objects
but which value of a primitive type is boxed in one.
-/
namespace TreeTidy

namespace BinaryOp

/-- Whether a comparison holds of whole numbers. -/
def holds (op : BinaryOp) (m n : Int) : Bool :=
  match op with
  | eq => m = n
  | ne => m ≠ n
  | lt => m < n
  | gt => n < m
  | le => m ≤ n
  | ge => n ≤ m
  | _ => false

variable {op op' : BinaryOp} {m n : Int}

theorem holds_negated (h : op.negated? = some op') : op'.holds m n = !op.holds m n := by
  cases op <;> cases h <;> simp only [holds] <;> rw [Bool.eq_iff_iff] <;> simp

theorem holds_flipped (h : op.flipped? = some op') : op'.holds m n = op.holds n m := by
  cases op <;> cases h <;> simp [holds, eq_comm]

/-- A count is tested for emptiness by comparing it with 0 or 1. -/
theorem holds_of_emptinessOf {empty : Bool} (h : SyntaxTree.emptinessOf op n = some empty)
    (hm : 0 ≤ m) : op.holds m n = ((m == 0) == empty) := by
  unfold SyntaxTree.emptinessOf at h
  split at h
  next hc =>
    cases h
    rw [Bool.eq_iff_iff]
    rcases hc with ⟨rfl, rfl⟩ | ⟨rfl, rfl⟩ | ⟨rfl, rfl⟩ <;> simp [holds] <;> omega
  next =>
    split at h
    next hc =>
      cases h
      rw [Bool.eq_iff_iff]
      rcases hc with ⟨rfl, rfl⟩ | ⟨rfl, rfl⟩ | ⟨rfl, rfl⟩ <;> simp [holds] <;> omega
    · cases h

theorem bound_of_emptinessOf {empty : Bool} (h : SyntaxTree.emptinessOf op n = some empty) :
    n = 0 ∨ n = 1 := by
  unfold SyntaxTree.emptinessOf at h
  split at h
  next hc => rcases hc with ⟨-, hn⟩ | ⟨-, hn⟩ | ⟨-, hn⟩ <;> simp [hn]
  next =>
    split at h
    next hc => rcases hc with ⟨-, hn⟩ | ⟨-, hn⟩ | ⟨-, hn⟩ <;> simp [hn]
    · cases h

theorem isComparison_of_emptinessOf {empty : Bool}
    (h : SyntaxTree.emptinessOf op n = some empty) :
    op.isEquality = true ∨ op.isRelational = true := by
  cases op <;> simp [SyntaxTree.emptinessOf] at h <;> simp [isEquality, isRelational]

theorem isComparison_of_flipped? (h : op.flipped? = some op') :
    op.isEquality = true ∨ op.isRelational = true := by
  cases op <;> cases h <;> simp [isEquality, isRelational]

theorem isComparison_of_negated? (h : op.negated? = some op') :
    (op.isEquality = true ∨ op.isRelational = true) ∧
      (op'.isEquality = true ∨ op'.isRelational = true) := by
  cases op <;> cases h <;> simp [isEquality, isRelational]

end BinaryOp

namespace Meaning

/-- A value of a primitive type. -/
inductive Scalar (φ : Type)
  | boolean (b : Bool)
  | whole (p : Primitive) (n : Int)
  | floating (x : φ)
  deriving DecidableEq

inductive Value (ρ φ : Type)
  | scalar (s : Scalar φ)
  | object (r : ρ)
  | null
  deriving DecidableEq

/-- Floating values. No comparison holds of the one that is not a number. -/
structure Floats (φ : Type) where
  ofWhole : Int → φ
  equal : φ → φ → Bool
  less : φ → φ → Bool
  atMost : φ → φ → Bool
  nan : φ
  nan_unordered : ∀ x, equal nan x = false ∧ equal x nan = false ∧ less nan x = false ∧
    less x nan = false ∧ atMost nan x = false ∧ atMost x nan = false

def Floats.holds {φ : Type} (f : Floats φ) (op : BinaryOp) (x y : φ) : Bool :=
  match op with
  | .eq => f.equal x y
  | .ne => !f.equal x y
  | .lt => f.less x y
  | .gt => f.less y x
  | .le => f.atMost x y
  | .ge => f.atMost y x
  | _ => false

/-- What an evaluation takes as given: floating values, what is boxed in an object, and the two
exceptions of operators, that on `null` and one for operands that no compiler would let pass. -/
structure World (ε ρ φ : Type) where
  floats : Floats φ
  boxed : ρ → Option (Scalar φ)
  nullPointer : ε
  mistyped : ε

namespace Value

variable {ρ φ : Type}

def bool (b : Bool) : Value ρ φ := .scalar (.boolean b)

def int (n : Int) : Value ρ φ := .scalar (.whole .int n)

/-- The value is of a primitive type. -/
def OfType (p : Primitive) : Value ρ φ → Prop
  | scalar (.boolean _) => p = .boolean
  | scalar (.whole q _) => q = p ∧ p.isIntegral = true
  | scalar (.floating _) => p = .float ∨ p = .double
  | object _ | null => False

/-- The value is the count of something. -/
def IsCount (x : Value ρ φ) : Prop := ∃ n : Int, 0 ≤ n ∧ x = int n

def IsWhole (x : Value ρ φ) : Prop := ∃ p n, x = .scalar (.whole p n)

def isZero : Value ρ φ → Bool
  | scalar (.whole _ n) => n == 0
  | _ => false

variable {x : Value ρ φ} {p : Primitive}

theorem IsCount.isWhole (h : x.IsCount) : x.IsWhole := by
  obtain ⟨n, -, rfl⟩ := h
  exact ⟨_, n, rfl⟩

theorem ofType_boolean (h : x.OfType .boolean) : ∃ b, x = bool b := by
  cases x with
  | scalar s =>
    cases s with
    | boolean b => exact ⟨b, rfl⟩
    | whole q n => cases h.2
    | floating y => rcases h with h | h <;> cases h
  | object r => exact h.elim
  | null => exact h.elim

theorem ofType_integral (h : x.OfType p) (hp : p.isIntegral = true) :
    ∃ n, x = .scalar (.whole p n) := by
  cases x with
  | scalar s =>
    cases s with
    | boolean b =>
      cases h
      cases hp
    | whole q n =>
      obtain ⟨rfl, -⟩ := h
      exact ⟨n, rfl⟩
    | floating y => rcases h with rfl | rfl <;> cases hp
  | object r => exact h.elim
  | null => exact h.elim

end Value

section Literals

/-- The digit that a character stands for. -/
def digit? (base : Nat) (c : Char) : Option Nat :=
  let d := if c.isDigit then c.toNat - '0'.toNat
    else if 'a' ≤ c ∧ c ≤ 'f' then c.toNat - 'a'.toNat + 10
    else if 'A' ≤ c ∧ c ≤ 'F' then c.toNat - 'A'.toNat + 10
    else base
  if d < base then some d else none

/-- The number that digits are read as after some others. -/
def digits? (base : Nat) : (before : Nat) → List Char → Option Nat
  | n, [] => some n
  | n, c :: cs => (digit? base c).bind fun d => digits? base (base * n + d) cs

/-- The number that a numeral without underscores denotes: hexadecimal, binary, octal or decimal. -/
def magnitude? (cs : List Char) : Option Nat :=
  match cs with
  | [] => none
  | '0' :: 'x' :: c :: cs | '0' :: 'X' :: c :: cs => digits? 16 0 (c :: cs)
  | '0' :: 'b' :: c :: cs | '0' :: 'B' :: c :: cs => digits? 2 0 (c :: cs)
  | '0' :: c :: cs => digits? 8 0 (c :: cs)
  | c :: cs => digits? 10 0 (c :: cs)

/-- The sign before a numeral, which may be left out. -/
def sign (cs : List Char) : Bool × List Char :=
  match cs with
  | '-' :: ds => (true, ds)
  | '+' :: ds => (false, ds)
  | ds => (false, ds)

/-- The value of an `int` literal, in 32 bits. -/
def intOf? (text : String) : Option Int :=
  let (negative, ds) := sign (text.toList.filter (· ≠ '_'))
  (magnitude? ds).map fun n : Nat => (if negative then -(n : Int) else n).bmod (Numeral.bound 32)

/-- The value of a literal, where it is one of those that comparisons are simplified by. -/
def literal? {ρ φ : Type} (sort : LiteralSort) (text : String) : Option (Value ρ φ) :=
  match sort with
  | .boolean => some (.bool (text == "true"))
  | .null => some .null
  | .int => (intOf? text).map .int
  | _ => none

variable {base n : Nat} {c : Char} {cs : List Char}

theorem le_foldl_digits (n : Nat) (cs : List Char) :
    n ≤ cs.foldl (fun n c => 10 * n + Numeral.digitValue c) n := by
  induction cs generalizing n with
  | nil => exact Nat.le_refl n
  | cons c cs ih =>
    have h := ih (10 * n + Numeral.digitValue c)
    rw [List.foldl_cons]
    omega

theorem digit?_of_isDigit (hc : c.isDigit = true) (h : Numeral.digitValue c < base) :
    digit? base c = some (Numeral.digitValue c) := by
  rw [digit?, if_pos hc]
  exact if_pos h

/-- Digits that are read as 0 or 1 in decimals are so to any base. -/
theorem digits?_of_le_one (hb : 2 ≤ base) (hd : cs.all Char.isDigit = true)
    (h : cs.foldl (fun n c => 10 * n + Numeral.digitValue c) n ≤ 1) :
    digits? base n cs = some (cs.foldl (fun n c => 10 * n + Numeral.digitValue c) n) := by
  induction cs generalizing n with
  | nil => rfl
  | cons c cs ih =>
    rw [List.all_cons, Bool.and_eq_true] at hd
    rw [List.foldl_cons] at h
    have hle : 10 * n + Numeral.digitValue c ≤ 1 :=
      Nat.le_trans (le_foldl_digits _ cs) h
    obtain rfl : n = 0 := by omega
    rw [digits?, digit?_of_isDigit hd.1 (by omega), Option.bind_some, List.foldl_cons]
    simp only [Nat.mul_zero, Nat.zero_add] at h ⊢
    exact ih hd.2 h

theorem magnitude?_of_le_one (hne : cs ≠ []) (hd : cs.all Char.isDigit = true)
    (h : Numeral.ofDigits cs ≤ 1) : magnitude? cs = some (Numeral.ofDigits cs) := by
  unfold magnitude?
  split
  · exact absurd rfl hne
  · cases hd
  · cases hd
  · cases hd
  · cases hd
  · rw [List.all_cons, Bool.and_eq_true] at hd
    exact digits?_of_le_one (by decide) hd.2 h
  · exact digits?_of_le_one (by decide) hd h

/-- What a rule takes for 0 or 1 is so, whatever the base of the literal. -/
theorem intOf?_of_intValue? {text : String} {k : Int} (h : intValue? text = some k)
    (hk : k = 0 ∨ k = 1) : intOf? text = some k := by
  have hv : (Numeral.read? (sign (text.toList.filter (· ≠ '_'))).2).bind (fun n =>
      let v : Int := if (sign (text.toList.filter (· ≠ '_'))).1 then -n else n
      if -(Numeral.bound 63 : Int) ≤ v ∧ v < Numeral.bound 63 then some v else none) = some k := h
  rw [intOf?]
  generalize sign (text.toList.filter (· ≠ '_')) = signed at hv ⊢
  obtain ⟨negative, ds⟩ := signed
  obtain ⟨n, hr, hv⟩ := Option.bind_eq_some_iff.mp hv
  obtain ⟨hds, hn⟩ := Option.ite_none_right_eq_some.mp hr
  obtain ⟨-, hv⟩ := Option.ite_none_right_eq_some.mp hv
  have hv' : (if negative then -n else n : Int) = k := Option.some.inj hv
  have hle : Numeral.ofDigits ds ≤ 1 := by
    cases negative <;> simp at hv' hn <;> omega
  simp only [magnitude?_of_le_one hds.1 hds.2 hle, hn, Option.map_some, hv']
  rcases hk with rfl | rfl <;> rfl

end Literals

namespace World

variable {ε ρ φ : Type} (w : World ε ρ φ)

/-- The value of a primitive type that a value is or boxes. -/
def unboxed : Value ρ φ → Except ε (Scalar φ)
  | .scalar s => .ok s
  | .object r => (w.boxed r).elim (.error w.mistyped) .ok
  | .null => .error w.nullPointer

/-- The value as a condition. -/
def truth (x : Value ρ φ) : Except ε Bool := do
  match ← w.unboxed x with
  | .boolean b => .ok b
  | _ => .error w.mistyped

/-- `!x` -/
def negation (x : Value ρ φ) : Except ε (Value ρ φ) := (fun b => .bool !b) <$> w.truth x

/-- Equality of values of primitive types; a whole number is made a floating one where it has to be. -/
def same : Scalar φ → Scalar φ → Except ε Bool
  | .boolean a, .boolean b => .ok (a == b)
  | .whole _ m, .whole _ n => .ok (m == n)
  | .whole _ m, .floating y => .ok (w.floats.equal (w.floats.ofWhole m) y)
  | .floating x, .whole _ n => .ok (w.floats.equal x (w.floats.ofWhole n))
  | .floating x, .floating y => .ok (w.floats.equal x y)
  | _, _ => .error w.mistyped

/-- An ordered comparison of numbers. -/
def ordered (op : BinaryOp) : Scalar φ → Scalar φ → Except ε Bool
  | .whole _ m, .whole _ n => .ok (op.holds m n)
  | .whole _ m, .floating y => .ok (w.floats.holds op (w.floats.ofWhole m) y)
  | .floating x, .whole _ n => .ok (w.floats.holds op x (w.floats.ofWhole n))
  | .floating x, .floating y => .ok (w.floats.holds op x y)
  | _, _ => .error w.mistyped

@[simp] theorem truth_bool (b : Bool) : w.truth (.bool b) = .ok b := rfl

@[simp] theorem negation_bool (b : Bool) : w.negation (.bool b) = .ok (.bool !b) := rfl

variable [DecidableEq ρ]

/-- `x == y`. Two references are compared as they are; beside a value of a primitive type a reference
is unboxed. -/
def equals : Value ρ φ → Value ρ φ → Except ε Bool
  | .scalar s, y => do w.same s (← w.unboxed y)
  | x, .scalar s => do w.same (← w.unboxed x) s
  | .object r, .object q => .ok (r == q)
  | .null, .null => .ok true
  | _, _ => .ok false

/-- A comparison by an operator. -/
def compare (op : BinaryOp) (x y : Value ρ φ) : Except ε Bool :=
  match op with
  | .eq => w.equals x y
  | .ne => (!·) <$> w.equals x y
  | .lt | .gt | .le | .ge => do w.ordered op (← w.unboxed x) (← w.unboxed y)
  | _ => .error w.mistyped

variable {x y : Value ρ φ} {op op' : BinaryOp} {p q : Primitive} {m n : Int}

@[simp] theorem compare_bool (b c : Bool) :
    w.compare op (.bool b) (.bool c) =
      if op.isEquality then .ok ((op == .eq) == (b == c)) else .error w.mistyped := by
  cases op <;> cases b <;> cases c <;> rfl

theorem compare_whole (h : op.isEquality = true ∨ op.isRelational = true) :
    w.compare op (.scalar (.whole p m)) (.scalar (.whole q n)) = .ok (op.holds m n) := by
  have hne : (!(m == n)) = BinaryOp.ne.holds m n := by
    rw [Bool.eq_iff_iff]
    simp [BinaryOp.holds]
  cases op <;> rcases h with h | h <;> cases h <;> first | rfl | exact congrArg Except.ok hne

/-- A comparison and its contrary: tests for equality have one for all values, ordered comparisons
for whole numbers. -/
theorem compare_negated (h : op.negated? = some op')
    (hx : op.isRelational = true → x.IsWhole) (hy : op.isRelational = true → y.IsWhole) :
    w.compare op' x y = (!·) <$> w.compare op x y := by
  cases hr : op.isRelational with
  | true =>
    obtain ⟨p, m, rfl⟩ := hx hr
    obtain ⟨q, n, rfl⟩ := hy hr
    have hop := BinaryOp.isComparison_of_negated? h
    rw [compare_whole w hop.1, compare_whole w hop.2, BinaryOp.holds_negated h]
    rfl
  | false =>
    cases op with
    | eq =>
      cases h
      rfl
    | ne =>
      cases h
      show w.equals x y = (!·) <$> (!·) <$> w.equals x y
      cases w.equals x y <;> simp
    | lt | gt | le | ge => cases hr
    | _ => cases h

/-- Where an operand is not a number, an ordered comparison fails, and so does its contrary. -/
theorem compare_nan (h : op.isRelational = true) (z : φ) :
    w.compare op (.scalar (.floating w.floats.nan)) (.scalar (.floating z)) = .ok false := by
  obtain ⟨-, -, hl, hl', ha, ha'⟩ := w.floats.nan_unordered z
  cases op <;> cases h
  · exact congrArg Except.ok hl
  · exact congrArg Except.ok hl'
  · exact congrArg Except.ok ha
  · exact congrArg Except.ok ha'

theorem compare_flipped (h : op.flipped? = some op') (hx : x.IsWhole) (hy : y.IsWhole) :
    w.compare op y x = w.compare op' x y := by
  obtain ⟨p, m, rfl⟩ := hx
  obtain ⟨q, n, rfl⟩ := hy
  have hop : (op.isEquality = true ∨ op.isRelational = true) ∧
      (op'.isEquality = true ∨ op'.isRelational = true) := by
    cases op <;> cases h <;> simp [BinaryOp.isEquality, BinaryOp.isRelational]
  rw [compare_whole w hop.1, compare_whole w hop.2, BinaryOp.holds_flipped h]

theorem equals_null (x : Value ρ φ) : w.equals .null x = w.equals x .null := by
  cases x <;> rfl

/-- A test for equality with `null` has two sides alike. -/
theorem compare_null (h : op.isEquality = true) (x : Value ρ φ) :
    w.compare op .null x = w.compare op x .null := by
  cases op <;> cases h
  · exact w.equals_null x
  · exact congrArg ((!·) <$> ·) (w.equals_null x)

theorem compare_count {bound : Int} {empty : Bool}
    (h : SyntaxTree.emptinessOf op bound = some empty) (hx : x.IsCount) :
    w.compare op x (.int bound) = .ok (x.isZero == empty) := by
  obtain ⟨n, hn, rfl⟩ := hx
  have hop := BinaryOp.isComparison_of_emptinessOf h
  exact (compare_whole w hop).trans (congrArg Except.ok (BinaryOp.holds_of_emptinessOf h hn))

end World

end Meaning

end TreeTidy
