import TreeTidy.Proofs.Meaning.Execution
import TreeTidy.Proofs.Tree.Built
/-!
An interpreter, to see that all that is asked of an execution can be had at once. It knows local variables,
arrays and fields; calls and whatever else it does not know are faults to it.
-/
namespace TreeTidy.Meaning.Interpreter

open SyntaxTree

inductive Fault
  | nullPointer | zeroDivisor | outOfRange | mistyped
  deriving DecidableEq

/-- Whole numbers for floating values, and one that is not a number. -/
abbrev Approx := Option Int

inductive Object
  | boxed (s : Scalar Approx)
  | cell (address : Nat)
  deriving DecidableEq

abbrev Val := Value Object Approx

/-- What is at an address: the elements of an array, or the fields of an object. -/
structure Heap where
  elements : Nat → List Val
  fields : Nat → String → Option Val

abbrev Memory := Store Heap Object Approx

abbrev Exe := Run Memory Fault

def floats : Floats Approx where
  ofWhole := some
  equal x y := x.isSome && x == y
  less x y := (x.bind fun m => y.map fun n => decide (m < n)).getD false
  atMost x y := (x.bind fun m => y.map fun n => decide (m ≤ n)).getD false
  nan := none
  nan_unordered x := by cases x <;> simp

def world : World Fault Object Approx where
  floats := floats
  boxed
    | .boxed s => some s
    | .cell _ => none
  nullPointer := .nullPointer
  mistyped := .mistyped

def fail : Exe Val := .ofExcept (.error .mistyped)

/-- Integer division and its remainder, towards zero. -/
def arithmetic (op : BinaryOp) (x y : Val) : Except Fault Val :=
  match op, x, y with
  | .div, .scalar (.whole p m), .scalar (.whole _ n) =>
    if n = 0 then .error .zeroDivisor else .ok (.scalar (.whole p (m.tdiv n)))
  | .rem, .scalar (.whole p m), .scalar (.whole _ n) =>
    if n = 0 then .error .zeroDivisor else .ok (.scalar (.whole p (m.tmod n)))
  | _, _, _ => .error .mistyped

def elements (h : Heap) : Object → List Val
  | .cell address => h.elements address
  | .boxed _ => []

def element (h : Heap) (x k : Val) : Except Fault Val :=
  match x, k with
  | .object r, .scalar (.whole _ k) =>
    if k < 0 ∨ ((elements h r).length : Int) ≤ k then .error .outOfRange
    else .ok ((elements h r).getD k.toNat .null)
  | .null, _ => .error .nullPointer
  | _, _ => .error .mistyped

def field (h : Heap) (name : String) (x : Val) : Except Fault Val :=
  match x with
  | .object (.cell address) => ((h.fields address name).elim (.error .mistyped) .ok)
  | .null => .error .nullPointer
  | _ => .error .mistyped

/-- A value made one of a primitive type where that is declared. -/
def convert (ty : Doc) (y : Val) : Except Fault Val :=
  match ty.kind with
  | .primitiveType _ => .scalar <$> world.unboxed y
  | _ => .ok y

def localNamed? (x : String) (s : Memory) : Except Fault (Local Object Approx) :=
  (s.locals x).elim (.error .mistyped) .ok

/-- Assigns what a run gives, if the target is a variable. -/
def assignTo (target : NodeKind) (m : Exe Val) : Exe Val :=
  match target with
  | .nameExpr x => do
    let l ← .look (localNamed? x)
    let y ← m
    let y ← .ofExcept (convert l.type y)
    .assign x ⟨l.type, y⟩
    pure y
  | _ => fail

def eval : Doc → Exe Val
  | .node kind _ _ slots _ =>
    match kind, slots with
    | .paren, some a :: _ => eval a
    | .unary .not, some a :: _ => world.negating (eval a)
    | .binary op, some a :: some b :: _ =>
      if op.isEquality = true ∨ op.isRelational = true then world.comparing op (eval a) (eval b)
      else do
        let x ← eval a
        let y ← eval b
        .ofExcept (arithmetic op x y)
    | .literal sort text, _ => .ofExcept ((literal? sort text).elim (.error .mistyped) .ok)
    | .nameExpr x, _ => .look fun s => Local.value <$> localNamed? x s
    | .assign .assign, some target :: some a :: _ => assignTo target.kind (eval a)
    | .conditional, some c :: some yes :: some no :: _ => world.branching (eval c) (eval yes) (eval no)
    | .arrayAccess, some a :: some i :: _ => do
      let x ← eval a
      let k ← eval i
      .look fun s => element s.heap x k
    | .fieldAccess name, some a :: _ => do
      let x ← eval a
      .look fun s => field s.heap name x
    | _, _ => fail

def exec : Doc → Exe Unit
  | .node kind _ _ slots list =>
    match kind, slots, list with
    | .localVar x, some ty :: some a :: _, _ => .storing (convert ty) x ty (eval a)
    | .exprStmt, some a :: _, _ => eval a >>= fun _ => pure ()
    | .ifStmt, some c :: some yes :: some no :: _, _ => world.branching (eval c) (exec yes) (exec no)
    | .ifStmt, some c :: some yes :: _, _ => world.branching (eval c) (exec yes) (pure ())
    | .block, _, [a] => exec a
    | _, _, _ => .ofExcept (.error .mistyped)

section Slots

variable {kind : NodeKind} {span : Span} {ty : Option TypeDesc} {slots : List (Option Doc)}
  {list : List Doc} {a b : Doc}

theorem slots_of_slot (h : (Doc.node kind span ty slots list).slot? 0 = some a) :
    ∃ rest, slots = some a :: rest := by
  cases slots with
  | nil => cases h
  | cons o rest =>
    cases o with
    | none => cases h
    | some c =>
      cases h
      exact ⟨rest, rfl⟩

theorem slots_of_slots (ha : (Doc.node kind span ty slots list).slot? 0 = some a)
    (hb : (Doc.node kind span ty slots list).slot? 1 = some b) :
    ∃ rest, slots = some a :: some b :: rest := by
  obtain ⟨rest, rfl⟩ := slots_of_slot ha
  have hrest : (Doc.node kind span ty rest list).slot? 0 = some b := hb
  obtain ⟨rest', rfl⟩ := slots_of_slot hrest
  exact ⟨rest', rfl⟩

end Slots

theorem eval_of_not_isExpression {d : Doc} (h : d.kind.isExpression = false) : eval d = fail := by
  obtain ⟨kind, span, ty, slots, list⟩ := d
  cases kind <;> first | rfl | cases h

theorem eval_still {d : Doc} (he : hasEffect d.kind = false)
    (hc : ∀ pos c, d.child? pos = some c → (eval c).Still) : (eval d).Still := by
  obtain ⟨kind, span, ty, slots, list⟩ := d
  unfold eval
  split
  · exact hc (.slot 0) _ rfl
  · exact (hc (.slot 0) _ rfl).bind fun x => .ofExcept _
  · have ha := hc (.slot 0) _ rfl
    have hb := hc (.slot 1) _ rfl
    split
    · exact ha.bind fun x => hb.bind fun y => .ofExcept _
    · exact ha.bind fun x => hb.bind fun y => .ofExcept _
  · exact .ofExcept _
  · exact .look _
  · cases he
  · exact .branching (hc (.slot 0) _ rfl) (hc (.slot 1) _ rfl) (hc (.slot 2) _ rfl)
  · exact (hc (.slot 0) _ rfl).bind fun x => (hc (.slot 1) _ rfl).bind fun k => .look _
  · exact (hc (.slot 0) _ rfl).bind fun x => .look _
  · exact .ofExcept _

theorem apart_assignTo {x : String} {target : NodeKind} {m : Exe Val} (ht : target ≠ .nameExpr x)
    (hm : m.Apart x) : (assignTo target m).Apart x := by
  unfold assignTo
  split
  next y =>
    have hne : y ≠ x := fun he => ht (by rw [he])
    have hlook : ∀ (s : Memory) l, localNamed? y (s.set x l) = localNamed? y s := by
      intro s l
      rw [localNamed?, localNamed?, s.locals_set_of_ne x l hne]
    refine (Run.Apart.look hlook).bind fun l => hm.bind fun v => (Run.Apart.ofExcept _ _).bind fun v => ?_
    exact (Run.Apart.assign hne _).bind fun _ => .ofExcept _ (.ok v)
  · exact .ofExcept _ _

theorem eval_apart {d : Doc} {x : String} (h : d.All fun c => c.kind ≠ .nameExpr x)
    (hc : ∀ pos c, d.child? pos = some c → (eval c).Apart x) : (eval d).Apart x := by
  have hk : ∀ pos c, d.child? pos = some c → c.kind ≠ .nameExpr x :=
    fun pos c hpos => (h.child hpos).self
  obtain ⟨kind, span, ty, slots, list⟩ := d
  unfold eval
  split
  · exact hc (.slot 0) _ rfl
  · exact (hc (.slot 0) _ rfl).bind fun x => .ofExcept _ _
  · have ha := hc (.slot 0) _ rfl
    have hb := hc (.slot 1) _ rfl
    split
    · exact ha.bind fun x => hb.bind fun y => .ofExcept _ _
    · exact ha.bind fun x => hb.bind fun y => .ofExcept _ _
  · exact .ofExcept _ _
  next y =>
    have hne : y ≠ x := fun he => h.self (congrArg NodeKind.nameExpr he)
    refine .look fun s l => ?_
    rw [localNamed?, localNamed?, s.locals_set_of_ne x l hne]
  · exact apart_assignTo (hk (.slot 0) _ rfl) (hc (.slot 1) _ rfl)
  · exact .branching (hc (.slot 0) _ rfl) (hc (.slot 1) _ rfl) (hc (.slot 2) _ rfl)
  · exact (hc (.slot 0) _ rfl).bind fun x => (hc (.slot 1) _ rfl).bind fun k => .look fun _ _ => rfl
  · exact (hc (.slot 0) _ rfl).bind fun x => .look fun _ _ => rfl
  · exact .ofExcept _ _

theorem eval_literal {d : Doc} {sort : LiteralSort} {text : String} {x : Val}
    (hk : d.kind = .literal sort text) (hx : literal? sort text = some x) : eval d = pure x := by
  obtain ⟨kind, span, ty, slots, list⟩ := d
  cases hk
  have he : eval (.node (.literal sort text) span ty slots list) =
      .ofExcept ((literal? sort text).elim (.error .mistyped) .ok) := by
    cases slots <;> rfl
  rw [he, hx]
  rfl

theorem exec_block {d a : Doc} (hk : d.kind = .block) (hl : d.list = [a]) : exec d = exec a := by
  obtain ⟨kind, span, ty, slots, list⟩ := d
  cases hk
  cases hl
  cases slots <;> rfl

theorem eval_zeroDivisor {d a b : Doc} {op : BinaryOp} {p q : Primitive} {m : Int}
    {s s₁ s₂ : Memory} (hk : d.kind = .binary op) (hop : op = .div ∨ op = .rem)
    (ha : d.slot? 0 = some a) (hb : d.slot? 1 = some b)
    (hx : (eval a).outcome s = (.ok (.scalar (.whole p m)), s₁))
    (hy : (eval b).outcome s₁ = (.ok (.scalar (.whole q 0)), s₂)) :
    (eval d).outcome s = (.error .zeroDivisor, s₂) := by
  obtain ⟨kind, span, ty, slots, list⟩ := d
  cases hk
  obtain ⟨rest, rfl⟩ := slots_of_slots ha hb
  have he : eval (.node (.binary op) span ty (some a :: some b :: rest) list) =
      eval a >>= fun x => eval b >>= fun y => .ofExcept (arithmetic op x y) := by
    rcases hop with rfl | rfl <;> rfl
  rw [he, Run.outcome_bind_ok hx, Run.outcome_bind_ok hy]
  rcases hop with rfl | rfl <;> rfl

theorem eval_outOfRange {d a i : Doc} {r : Object} {p : Primitive} {k : Int} {s s₁ s₂ : Memory}
    (hk : d.kind = .arrayAccess) (ha : d.slot? 0 = some a) (hi : d.slot? 1 = some i)
    (hx : (eval a).outcome s = (.ok (.object r), s₁))
    (hy : (eval i).outcome s₁ = (.ok (.scalar (.whole p k)), s₂))
    (hr : k < 0 ∨ ((elements s₂.heap r).length : Int) ≤ k) :
    (eval d).outcome s = (.error .outOfRange, s₂) := by
  obtain ⟨kind, span, ty, slots, list⟩ := d
  cases hk
  obtain ⟨rest, rfl⟩ := slots_of_slots ha hi
  have he : eval (.node .arrayAccess span ty (some a :: some i :: rest) list) =
      eval a >>= fun x => eval i >>= fun k => .look fun s => element s.heap x k := rfl
  rw [he, Run.outcome_bind_ok hx, Run.outcome_bind_ok hy]
  exact Prod.ext (if_pos hr) rfl

theorem eval_assign {d target a : Doc} {x : String} {s : Memory} {l : Local Object Approx}
    (hk : d.kind = .assign .assign) (ht : d.slot? 0 = some target)
    (htk : target.kind = .nameExpr x) (ha : d.slot? 1 = some a) (hl : s.locals x = some l) :
    (eval d).outcome s = Run.outcome (do
      let y ← eval a
      let y ← .ofExcept (convert l.type y)
      .assign x ⟨l.type, y⟩
      pure y) s := by
  obtain ⟨kind, span, ty, slots, list⟩ := d
  cases hk
  obtain ⟨rest, rfl⟩ := slots_of_slots ht ha
  have he : eval (.node (.assign .assign) span ty (some target :: some a :: rest) list) =
      assignTo target.kind (eval a) := rfl
  have hlook : (.look (localNamed? x) : Exe _).outcome s = (.ok l, s) := by
    rw [Run.outcome_look, localNamed?, hl]
    rfl
  rw [he, htk]
  exact Run.outcome_bind_ok hlook

theorem still_fail : fail.Still := .ofExcept _

theorem apart_fail (x : String) : fail.Apart x := .ofExcept x _

/-- The interpreter is an execution. -/
def execution : Execution Heap Fault Object Approx where
  world := world
  eval := eval
  objectsEqual x y := pure (.bool (x == y))
  eval_paren {d a} hk hs := by
    obtain ⟨kind, span, ty, slots, list⟩ := d
    cases hk
    obtain ⟨rest, rfl⟩ := slots_of_slot hs
    rfl
  eval_not {d a} hk hs := by
    obtain ⟨kind, span, ty, slots, list⟩ := d
    cases hk
    obtain ⟨rest, rfl⟩ := slots_of_slot hs
    rfl
  eval_compare {d op a b} hk hop ha hb := by
    obtain ⟨kind, span, ty, slots, list⟩ := d
    cases hk
    obtain ⟨rest, rfl⟩ := slots_of_slots ha hb
    exact if_pos hop
  eval_literal := eval_literal
  objectsEqual_bool a b := by cases a <;> cases b <;> rfl
  objectsEqual_whole p m n := by
    have he : ((.scalar (.whole p m) : Val) == .scalar (.whole p n)) = (m == n) := by
      rw [Bool.eq_iff_iff]
      simp
    rw [he]
  exec := exec
  convert := convert
  length h r := (elements h r).length
  zeroDivisor := .zeroDivisor
  outOfRange := .outOfRange
  eval_zeroDivisor := eval_zeroDivisor
  eval_outOfRange := eval_outOfRange
  eval_fieldOfNull {d name a s s₁} hk ha hx := by
    obtain ⟨kind, span, ty, slots, list⟩ := d
    cases hk
    obtain ⟨rest, rfl⟩ := slots_of_slot ha
    exact Run.outcome_bind_ok hx
  eval_name {d x s l} hk hl := by
    obtain ⟨kind, span, ty, slots, list⟩ := d
    cases hk
    have he : eval (.node (.nameExpr x) span ty slots list) =
        .look fun s => Local.value <$> localNamed? x s := by
      cases slots <;> rfl
    rw [he, Run.outcome_look, localNamed?, hl]
    rfl
  eval_assign := eval_assign
  still {d} _ he hc := by
    refine eval_still he fun pos c hpos => ?_
    cases hk : c.kind.isExpression with
    | true => exact hc pos c hpos hk
    | false =>
      rw [eval_of_not_isExpression hk]
      exact still_fail
  apart {d x} _ h hc := by
    refine eval_apart h fun pos c hpos => ?_
    cases hk : c.kind.isExpression with
    | true => exact hc pos c hpos hk
    | false =>
      rw [eval_of_not_isExpression hk]
      exact apart_fail x
  exec_localVar {d x ty a} hk hty ha := by
    obtain ⟨kind, span, type, slots, list⟩ := d
    cases hk
    obtain ⟨rest, rfl⟩ := slots_of_slots hty ha
    rfl
  exec_exprStmt {d a} hk ha := by
    obtain ⟨kind, span, ty, slots, list⟩ := d
    cases hk
    obtain ⟨rest, rfl⟩ := slots_of_slot ha
    rfl
  exec_ifStmt {d c yes} hk hc hy hn := by
    obtain ⟨kind, span, ty, slots, list⟩ := d
    cases hk
    obtain ⟨rest, rfl⟩ := slots_of_slots hc hy
    rcases rest with - | ⟨- | no, rest⟩
    · rfl
    · rfl
    · cases hn
  exec_block hk hl _ := exec_block hk hl

/-- A document without a place in a text. -/
abbrev plain (kind : NodeKind) (parts : List Doc) : Doc := .make kind .none parts []

abbrev number (text : String) : Doc := plain (.literal .int text) []

theorem eval_number {text : String} {k : Int} (h : intOf? text = some k) :
    eval (number text) = pure (.int k) :=
  eval_literal rfl (by rw [literal?, h, Option.map_some])

/-- The tree of a unit that consists of the document, or an empty one. -/
def treeOf (d : Doc) : SyntaxTree :=
  match SourceUnit.ofDoc 1 ⟨"T.java", .standard, [], d⟩ with
  | .ok u => u.tree
  | .error _ => .empty 1

theorem treeOf_sound {d : Doc}
    (h : (SourceUnit.ofDoc 1 ⟨"T.java", .standard, [], d⟩).isOk = true) : (treeOf d).Sound := by
  unfold treeOf
  split
  next u hu => exact (SourceUnit.ofDoc_sound hu).1
  next hu =>
    rw [hu] at h
    cases h

end TreeTidy.Meaning.Interpreter
