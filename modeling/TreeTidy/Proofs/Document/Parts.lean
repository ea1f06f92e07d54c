import Mathlib.Tactic.Common
import TreeTidy.Tree.Basic
/-!
Parts of documents. A way leads from a document down to one of its parts, one position a step; `put`
exchanges the part.
-/
namespace TreeTidy.Doc

variable {d c x : Doc} {pos pos' : Position} {way later : List Position}

/-- The child at a position. -/
def child? (d : Doc) : Position → Option Doc
  | .slot i => d.slots[i]?.join
  | .list i => d.list[i]?

/-- The document with another child at a position. -/
def setChild (d x : Doc) : Position → Doc
  | .slot i => node d.kind d.span d.ty (d.slots.set i (some x)) d.list
  | .list i => node d.kind d.span d.ty d.slots (d.list.set i x)

/-- The part that a way leads to. -/
def at? : Doc → List Position → Option Doc
  | d, [] => some d
  | d, pos :: way => (d.child? pos).bind fun c => at? c way

/-- The document with another part where a way leads. -/
def put : Doc → List Position → Doc → Doc
  | _, [], x => x
  | d, pos :: way, x =>
    match d.child? pos with
    | some c => d.setChild (put c way x) pos
    | none => d

@[simp] theorem put_nil : d.put [] x = x := rfl

@[simp] theorem at?_nil : d.at? [] = some d := rfl

theorem put_cons (h : d.child? pos = some c) : d.put (pos :: way) x = d.setChild (c.put way x) pos := by
  rw [put, h]

theorem at?_cons (h : d.child? pos = some c) : d.at? (pos :: way) = c.at? way := by
  rw [at?, h, Option.bind_some]

theorem at?_append : d.at? (way ++ later) = (d.at? way).bind fun c => c.at? later := by
  induction way generalizing d with
  | nil => rfl
  | cons pos way ih =>
    cases h : d.child? pos with
    | none => rw [List.cons_append, at?, at?, h]; rfl
    | some c => rw [List.cons_append, at?_cons h, at?_cons h, ih]

theorem child?_slot {i : Nat} : d.child? (.slot i) = some c ↔ d.slots[i]? = some (some c) := by
  simp [child?, Option.join_eq_some_iff]

@[simp] theorem kind_setChild : (d.setChild x pos).kind = d.kind := by cases pos <;> rfl

@[simp] theorem span_setChild : (d.setChild x pos).span = d.span := by cases pos <;> rfl

theorem child?_setChild (h : d.child? pos = some c) : (d.setChild x pos).child? pos = some x := by
  cases pos with
  | slot i =>
    have hi := (List.getElem?_eq_some_iff.mp (child?_slot.mp h)).1
    rw [child?_slot]
    exact List.getElem?_set_self hi
  | list i =>
    have hi := (List.getElem?_eq_some_iff.mp h).1
    exact List.getElem?_set_self hi

theorem child?_setChild_of_ne (h : pos' ≠ pos) : (d.setChild x pos).child? pos' = d.child? pos' := by
  cases pos <;> cases pos' <;> try rfl
  case slot.slot i j =>
    have hij : i ≠ j := fun he => h (congrArg _ he.symm)
    exact congrArg Option.join (List.getElem?_set_ne hij)
  case list.list i j =>
    have hij : i ≠ j := fun he => h (congrArg _ he.symm)
    exact List.getElem?_set_ne hij

theorem put_append (h : d.at? way = some c) : d.put (way ++ later) x = d.put way (c.put later x) := by
  induction way generalizing d with
  | nil =>
    cases h
    rfl
  | cons pos way ih =>
    obtain ⟨b, hb, hw⟩ := Option.bind_eq_some_iff.mp h
    rw [List.cons_append, put_cons hb, put_cons hb, ih hw]

theorem at?_put (h : d.at? way = some c) : (d.put way x).at? way = some x := by
  induction way generalizing d with
  | nil => rfl
  | cons pos way ih =>
    obtain ⟨b, hb, hw⟩ := Option.bind_eq_some_iff.mp h
    rw [put_cons hb, at?_cons (child?_setChild hb), ih hw]

end TreeTidy.Doc

/-! What holds throughout a document: of the document and of every part of it. -/
namespace TreeTidy.Doc

variable {P Q : Doc → Prop} {c d x y : Doc} {kind : NodeKind} {span : Span} {ty : Option TypeDesc}
  {slots : List (Option Doc)} {list : List Doc} {pos : Position} {way : List Position}

mutual

/-- What holds of a node if it holds of its children holds of all documents. -/
theorem induction {P : Doc → Prop} (node : ∀ kind span ty slots list, (∀ c, some c ∈ slots → P c) →
    (∀ c ∈ list, P c) → P (.node kind span ty slots list)) : (d : Doc) → P d
  | .node kind span ty slots list =>
    node kind span ty slots list (induction_slots node slots) (induction_list node list)

theorem induction_slots {P : Doc → Prop} (node : ∀ kind span ty slots list, (∀ c, some c ∈ slots → P c) →
    (∀ c ∈ list, P c) → P (.node kind span ty slots list)) :
    (slots : List (Option Doc)) → ∀ c, some c ∈ slots → P c
  | [], _, hc => absurd hc List.not_mem_nil
  | none :: slots, c, hc => induction_slots node slots c (by simpa using hc)
  | some d :: slots, c, hc => by
    rcases List.mem_cons.mp hc with hc | hc
    · exact Option.some.inj hc ▸ induction node d
    · exact induction_slots node slots c hc

theorem induction_list {P : Doc → Prop} (node : ∀ kind span ty slots list, (∀ c, some c ∈ slots → P c) →
    (∀ c ∈ list, P c) → P (.node kind span ty slots list)) : (list : List Doc) → ∀ c ∈ list, P c
  | [], _, hc => absurd hc List.not_mem_nil
  | d :: list, c, hc => by
    rcases List.mem_cons.mp hc with hc | hc
    · exact hc ▸ induction node d
    · exact induction_list node list c hc

end

/-- A function on slots that goes along with one on documents. -/
theorem slots_eq_map {f : Doc → Doc} {g : List (Option Doc) → List (Option Doc)} (hnil : g [] = [])
    (hnone : ∀ ss, g (none :: ss) = none :: g ss) (hsome : ∀ c ss, g (some c :: ss) = some (f c) :: g ss)
    (slots : List (Option Doc)) : g slots = slots.map (Option.map f) := by
  induction slots with
  | nil => rw [hnil, List.map_nil]
  | cons o slots ih =>
    cases o with
    | none => rw [hnone, ih, List.map_cons, Option.map_none]
    | some c => rw [hsome, ih, List.map_cons, Option.map_some]

theorem list_eq_map {f : Doc → Doc} {g : List Doc → List Doc} (hnil : g [] = [])
    (hcons : ∀ c cs, g (c :: cs) = f c :: g cs) (list : List Doc) : g list = list.map f := by
  induction list with
  | nil => rw [hnil, List.map_nil]
  | cons c list ih => rw [hcons, ih, List.map_cons]

/-- The children of a node are those in its slots and those in its list. -/
theorem exists_child? : (∃ pos, d.child? pos = some c) ↔ some c ∈ d.slots ∨ c ∈ d.list := by
  constructor
  · rintro ⟨pos, hc⟩
    cases pos with
    | slot i => exact .inl (List.mem_of_getElem? (child?_slot.mp hc))
    | list i => exact .inr (List.mem_of_getElem? hc)
  · rintro (hc | hc)
    · obtain ⟨i, hi⟩ := List.mem_iff_getElem?.mp hc
      exact ⟨.slot i, child?_slot.mpr hi⟩
    · obtain ⟨i, hi⟩ := List.mem_iff_getElem?.mp hc
      exact ⟨.list i, hi⟩

/-- Every part of the document has the property. -/
def All (P : Doc → Prop) (d : Doc) : Prop := ∀ way x, d.at? way = some x → P x

theorem all_iff : d.All P ↔ P d ∧ ∀ pos c, d.child? pos = some c → c.All P := by
  constructor
  · intro h
    refine ⟨h [] d rfl, fun pos c hc way x hx => h (pos :: way) x ?_⟩
    rw [at?_cons hc, hx]
  · rintro ⟨hd, hc⟩ way x hx
    cases way with
    | nil =>
      cases hx
      exact hd
    | cons pos way =>
      obtain ⟨c, hcp, hx⟩ := Option.bind_eq_some_iff.mp hx
      exact hc pos c hcp way x hx

namespace All

theorem self (h : d.All P) : P d := (all_iff.mp h).1

theorem child (h : d.All P) (hc : d.child? pos = some c) : c.All P := (all_iff.mp h).2 pos c hc

theorem at? (h : d.All P) (hw : d.at? way = some x) : x.All P := fun later y hy =>
  h (way ++ later) y (by rw [at?_append, hw, Option.bind_some, hy])

theorem slot (h : (node kind span ty slots list).All P) (hc : some c ∈ slots) : c.All P := by
  obtain ⟨pos, hpos⟩ := exists_child?.mpr (.inl (show some c ∈ (node kind span ty slots list).slots from hc))
  exact h.child hpos

theorem item (h : (node kind span ty slots list).All P) (hc : c ∈ list) : c.All P := by
  obtain ⟨pos, hpos⟩ := exists_child?.mpr (.inr (show c ∈ (node kind span ty slots list).list from hc))
  exact h.child hpos

/-- A part is exchanged, if what holds of a node does not depend on its children. -/
theorem put (h : d.All P) (hP : ∀ {d x pos}, P d → P (d.setChild x pos)) (hy : y.All P) :
    (d.put way y).All P := by
  induction way generalizing d with
  | nil => exact hy
  | cons pos way ih =>
    cases hc : d.child? pos with
    | none => rwa [Doc.put, hc]
    | some c =>
      rw [put_cons hc]
      refine all_iff.mpr ⟨hP h.self, fun pos' b hb => ?_⟩
      by_cases hp : pos' = pos
      · subst hp
        cases (child?_setChild hc).symm.trans hb
        exact ih (h.child hc)
      · rw [child?_setChild_of_ne hp] at hb
        exact h.child hb

theorem mono (h : d.All P) (hPQ : ∀ x, P x → Q x) : d.All Q := fun way x hx => hPQ x (h way x hx)

end All

/-- A property of a node and of its children throughout is one of the node throughout. -/
theorem all_node (hd : P (node kind span ty slots list)) (hs : ∀ c, some c ∈ slots → c.All P)
    (hl : ∀ c ∈ list, c.All P) : (node kind span ty slots list).All P := by
  refine all_iff.mpr ⟨hd, fun pos c hc => ?_⟩
  rcases exists_child?.mp ⟨pos, hc⟩ with hc | hc
  · exact hs c hc
  · exact hl c hc

end TreeTidy.Doc
