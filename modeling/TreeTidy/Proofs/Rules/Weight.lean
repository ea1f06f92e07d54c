import Mathlib.Algebra.Ring.Nat
import TreeTidy.Proofs.Document.Parts
import TreeTidy.Proofs.Rules.Drafts
import TreeTidy.Proofs.Tree.Laid
import TreeTidy.Rules.Literal
/-!
What documents weigh. Each rule makes the document lighter, or keeps its weight and makes it smaller;
so the weights are chosen by what rules take away. Parentheses weigh nothing, since rules add them
where they like; what is spelled in a way that some rule respells weighs more.

A scale gives every kind a base and every place below it a factor; where a part of a document is exchanged,
the total changes with that of the part.
-/
namespace TreeTidy

/-- What nodes count, and how often each child does. -/
structure Scale where
  base : NodeKind → Nat
  slot : NodeKind → Nat → Nat
  list : NodeKind → Nat
  slot_pos : ∀ k i, 0 < slot k i
  list_pos : ∀ k, 0 < list k

/-- How often the child at a position counts. -/
def Scale.factor (s : Scale) (k : NodeKind) : Position → Nat
  | .slot i => s.slot k i
  | .list _ => s.list k

theorem Scale.factor_pos (s : Scale) (k : NodeKind) (pos : Position) : 0 < s.factor k pos := by
  cases pos with
  | slot i => exact s.slot_pos k i
  | list i => exact s.list_pos k

namespace Doc

variable {s : Scale} {k : NodeKind} {c d x y : Doc} {pos : Position} {way : List Position} {i j : Nat}
  {slots : List (Option Doc)} {list : List Doc}

mutual

/-- The base of the node and the totals of its children, each as often as it counts. -/
def total (s : Scale) : Doc → Nat
  | node k _ _ slots list => s.base k + totalSlots s k 0 slots + s.list k * totalList s list

def totalSlots (s : Scale) (k : NodeKind) (i : Nat) : List (Option Doc) → Nat
  | [] => 0
  | none :: slots => totalSlots s k (i + 1) slots
  | some d :: slots => s.slot k i * total s d + totalSlots s k (i + 1) slots

def totalList (s : Scale) : List Doc → Nat
  | [] => 0
  | d :: list => total s d + totalList s list

end

@[simp] theorem totalSlots_nil : totalSlots s k i [] = 0 := by rw [totalSlots]

@[simp] theorem totalSlots_none : totalSlots s k i (none :: slots) = totalSlots s k (i + 1) slots := by
  rw [totalSlots]

@[simp] theorem totalSlots_some : totalSlots s k i (some d :: slots) =
    s.slot k i * d.total s + totalSlots s k (i + 1) slots := by rw [totalSlots]

@[simp] theorem totalList_nil : totalList s [] = 0 := by rw [totalList]

@[simp] theorem totalList_cons : totalList s (d :: list) = d.total s + totalList s list := by
  rw [totalList]

theorem total_node (d : Doc) : d.total s =
    s.base d.kind + totalSlots s d.kind 0 d.slots + s.list d.kind * totalList s d.list := by
  cases d
  rw [total, kind, Doc.slots, Doc.list]

theorem totalList_eq (ds : List Doc) : totalList s ds = (ds.map (total s)).sum := by
  induction ds with
  | nil => exact totalList_nil
  | cons d ds ih => rw [totalList_cons, ih, List.map_cons, List.sum_cons]

/-- The total of the child in a slot, if there is one. -/
def slotTotal (s : Scale) (d : Doc) (i : Nat) : Nat := ((d.slot? i).map (total s)).getD 0

/-- No layout has more than three slots, so their totals can be written out. -/
theorem total_eq (h : d.slots.length ≤ 3) : d.total s = s.base d.kind +
    (s.slot d.kind 0 * d.slotTotal s 0 + s.slot d.kind 1 * d.slotTotal s 1
      + s.slot d.kind 2 * d.slotTotal s 2) + s.list d.kind * totalList s d.list := by
  obtain ⟨k, sp, ty, slots, list⟩ := d
  rw [total_node]
  simp only [Doc.slots, Doc.kind, Doc.list, slotTotal, slot?] at h ⊢
  rcases slots with _ | ⟨o, _ | ⟨o', _ | ⟨o'', _ | ⟨_, _⟩⟩⟩⟩
  · simp
  · cases o <;> simp
  · cases o <;> cases o' <;> simp
  · cases o <;> cases o' <;> cases o'' <;> simp [Nat.add_assoc]
  · simp only [List.length_cons] at h
    omega

theorem totalSlots_set (h : slots[i]? = some (some c)) :
    totalSlots s k j (slots.set i (some x)) + s.slot k (j + i) * c.total s =
      totalSlots s k j slots + s.slot k (j + i) * x.total s := by
  induction slots generalizing i j with
  | nil => simp at h
  | cons o slots ih =>
    cases i with
    | zero =>
      obtain rfl : o = some c := by simpa using h
      simp only [List.set_cons_zero, totalSlots_some, Nat.add_zero]
      omega
    | succ i =>
      have hi := ih (j := j + 1) (by simpa using h)
      rw [Nat.add_right_comm, Nat.add_assoc] at hi
      cases o with
      | none => simpa only [List.set_cons_succ, totalSlots_none] using hi
      | some d =>
        simp only [List.set_cons_succ, totalSlots_some]
        omega

theorem totalList_set (h : list[i]? = some c) :
    totalList s (list.set i x) + c.total s = totalList s list + x.total s := by
  induction list generalizing i with
  | nil => simp at h
  | cons d list ih =>
    cases i with
    | zero =>
      obtain rfl : d = c := by simpa using h
      simp only [List.set_cons_zero, totalList_cons]
      omega
    | succ i =>
      have hi := ih (i := i) (by simpa using h)
      simp only [List.set_cons_succ, totalList_cons]
      omega

theorem total_setChild (h : d.child? pos = some c) :
    (d.setChild x pos).total s + s.factor d.kind pos * c.total s =
      d.total s + s.factor d.kind pos * x.total s := by
  obtain ⟨k, sp, ty, slots, list⟩ := d
  cases pos with
  | slot i =>
    have hs := totalSlots_set (s := s) (k := k) (j := 0) (x := x) (child?_slot.mp h)
    rw [Nat.zero_add] at hs
    simp only [setChild, total_node, kind, Doc.slots, Doc.list, Scale.factor] at hs ⊢
    omega
  | list i =>
    have hl := congrArg (s.list k * ·) (totalList_set (s := s) (x := x) h)
    simp only [Nat.mul_add] at hl
    simp only [setChild, total_node, kind, Doc.slots, Doc.list, Scale.factor] at hl ⊢
    omega

/-- Along a way, the factors of the places multiply. -/
theorem total_put (s : Scale) (h : d.at? way = some y) : ∃ f, 0 < f ∧ ∀ x : Doc,
    (d.put way x).total s + f * y.total s = d.total s + f * x.total s := by
  induction way generalizing d with
  | nil =>
    cases h
    refine ⟨1, Nat.one_pos, ?_⟩
    intro x
    rw [put_nil]
    omega
  | cons pos way ih =>
    obtain ⟨c, hc, hw⟩ := Option.bind_eq_some_iff.mp h
    obtain ⟨f, hf, hx⟩ := ih hw
    refine ⟨s.factor d.kind pos * f, Nat.mul_pos (s.factor_pos _ _) hf, ?_⟩
    intro x
    have h1 := total_setChild (s := s) (x := c.put way x) hc
    have h2 := congrArg (s.factor d.kind pos * ·) (hx x)
    simp only [Nat.mul_add, ← Nat.mul_assoc] at h2
    rw [put_cons hc]
    omega

theorem total_put_lt (h : d.at? way = some y) (hx : x.total s < y.total s) :
    (d.put way x).total s < d.total s := by
  obtain ⟨f, hf, he⟩ := total_put s h
  have hlt := Nat.mul_lt_mul_of_pos_left hx hf
  have := he x
  omega

theorem total_put_eq (h : d.at? way = some y) (hx : x.total s = y.total s) :
    (d.put way x).total s = d.total s := by
  obtain ⟨f, -, he⟩ := total_put s h
  have := he x
  rw [hx] at this
  omega

end Doc

open Rules (withoutSmallSuffix? groupDigits?)

/-- Numerals that are to be respelled weigh more. -/
def numeralWeight (text : String) : Nat :=
  (if (withoutSmallSuffix? text).isSome then 4 else 2) + if (groupDigits? text).isSome then 1 else 0

namespace NodeKind

def weight : NodeKind → Nat
  | paren => 0
  | literal .null _ => 1
  | literal .string _ => 3
  | literal .int text | literal .long text => numeralWeight text
  | literal _ _ => 2
  | methodCall name => if name = "replaceAll" then 5 else 4
  | lambda parenthesized => if parenthesized then 5 else 4
  | typeName name => if Name.isQualified name then 5 else 4
  | classType name _ => if Name.isQualified name then 3 else 2
  | newObject => 20
  | ifStmt => 4
  | k => if k.isExpression then 4 else 1

/-- Operands on the right count twice, so that `null` is better there; calls count their receiver
more than their arguments. -/
def slotFactor : NodeKind → Nat → Nat
  | binary _, 1 => 2
  | methodCall _, _ => 3
  | _, _ => 1

def listFactor : NodeKind → Nat
  | methodCall _ | newObject => 2
  | _ => 1

@[simp] theorem weight_unary (op : UnaryOp) : weight (unary op) = 4 := rfl

@[simp] theorem weight_binary (op : BinaryOp) : weight (binary op) = 4 := rfl

@[simp] theorem weight_conditional : weight conditional = 4 := rfl

theorem slotFactor_pos (k : NodeKind) (i : Nat) : 0 < k.slotFactor i := by
  unfold slotFactor
  split <;> exact Nat.succ_pos _

theorem listFactor_pos (k : NodeKind) : 0 < k.listFactor := by
  unfold listFactor
  split <;> exact Nat.succ_pos _

theorem slots_length_le (k : NodeKind) : k.layout.slots.length ≤ 3 := by
  cases k <;> exact Nat.le_of_ble_eq_true rfl

end NodeKind

namespace Scale

def weights : Scale := ⟨NodeKind.weight, NodeKind.slotFactor, NodeKind.listFactor,
  NodeKind.slotFactor_pos, NodeKind.listFactor_pos⟩

def counting : Scale :=
  ⟨fun _ => 1, fun _ _ => 1, fun _ => 1, fun _ _ => Nat.one_pos, fun _ => Nat.one_pos⟩

end Scale

namespace Doc

variable {A B C D : Doc} {kind : NodeKind} {span : Span} {slots list : List Doc}

def weight (d : Doc) : Nat := d.total .weights

/-- The number of nodes. -/
def count (d : Doc) : Nat := d.total .counting

/-- What slots weigh, from one of them on. -/
def slotsWeight (k : NodeKind) : (i : Nat) → List Doc → Nat
  | _, [] => 0
  | i, d :: ds => k.slotFactor i * d.weight + slotsWeight k (i + 1) ds

theorem weight_make : (make kind span slots list).weight =
    kind.weight + slotsWeight kind 0 slots + kind.listFactor * (list.map weight).sum := by
  have hs : ∀ i, totalSlots .weights kind i (slots.map some) = slotsWeight kind i slots := by
    induction slots with
    | nil => exact fun _ => totalSlots_nil
    | cons d slots ih =>
      intro i
      rw [List.map_cons, totalSlots_some, ih, slotsWeight]
      rfl
  rw [weight, total_node]
  simp only [make, Doc.kind, Doc.slots, Doc.list, hs, totalList_eq]
  rfl

@[simp] theorem weight_paren : (make .paren span [A] []).weight = A.weight := by
  simp [weight_make, slotsWeight, NodeKind.weight, NodeKind.slotFactor]

@[simp] theorem weight_atLevel {l : Nat} : (A.atLevel l).weight = A.weight := by
  unfold atLevel
  split
  · exact weight_paren
  · rfl

@[simp] theorem weight_placedAt {t : SyntaxTree} {n : NodeId} : (A.placedAt t n).weight = A.weight := by
  unfold placedAt
  split
  · exact weight_paren
  · rfl

@[simp] theorem weight_negated : A.negated.weight = 4 + A.weight := by
  simp [negated, weight_make, slotsWeight, NodeKind.slotFactor]

@[simp] theorem weight_joined {op : BinaryOp} : (A.joined op B).weight = 4 + A.weight + 2 * B.weight := by
  simp [joined, weight_make, slotsWeight, NodeKind.slotFactor, Nat.add_assoc]

@[simp] theorem weight_chosen : (A.chosen B C).weight = 4 + A.weight + B.weight + C.weight := by
  simp [chosen, weight_make, slotsWeight, NodeKind.slotFactor, Nat.add_assoc]

@[simp] theorem weight_calledOn {name : String} :
    (A.calledOn name).weight = NodeKind.weight (.methodCall name) + 3 * A.weight := by
  simp [calledOn, weight_make, slotsWeight, NodeKind.slotFactor]

/-- The order in which rules lead downwards: lighter, or of the same weight and smaller. -/
def Less (d e : Doc) : Prop := d.weight < e.weight ∨ d.weight = e.weight ∧ d.count < e.count

theorem less_wf : WellFounded Less := by
  have h := InvImage.wf (fun d : Doc => (d.weight, d.count))
    (WellFounded.prod_lex Nat.lt_wfRel.wf Nat.lt_wfRel.wf)
  refine Subrelation.wf (fun {d e} hl => ?_) h
  exact Prod.lex_def.mpr hl

theorem Less.put {d y : Doc} {way : List Position} (h : D.Less y) (hw : d.at? way = some y) :
    (d.put way D).Less d := by
  rcases h with h | ⟨h, hc⟩
  · exact .inl (total_put_lt hw h)
  · exact .inr ⟨total_put_eq hw h, total_put_lt hw hc⟩

end Doc

end TreeTidy
