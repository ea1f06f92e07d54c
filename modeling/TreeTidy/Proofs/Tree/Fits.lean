import Mathlib.Data.List.Forall2
import Mathlib.Data.List.Nodup
import TreeTidy.Tree.Create
import TreeTidy.Tree.Validate
/-!
When a node can be made: its children are detached, none is used twice, and they fit the layout of the
kind. The check of a whole tree looks for the same fit.
-/
namespace TreeTidy

/-- Whether a slot may hold a child of a kind, or stay empty. -/
def SlotSpec.takes (s : SlotSpec) : Option NodeKind → Bool
  | some k => s.admits.accepts k
  | none => s.optional

/-- The kinds of children fit the layout of a kind. -/
structure NodeKind.Fits (k : NodeKind) (slots : List (Option NodeKind)) (list : List NodeKind) :
    Prop where
  slots : List.Forall₂ (fun o s => SlotSpec.takes s o = true) slots k.layout.slots
  unlisted : k.layout.list = none → list = []
  listed : ∀ s, k.layout.list = some s →
    s.least ≤ list.length ∧ ∀ c ∈ list, s.admits.accepts c = true

theorem except_bind_eq_ok {ε α β : Type} {x : Except ε α} {f : α → Except ε β} {b : β} :
    x.bind f = .ok b ↔ ∃ a, x = .ok a ∧ f a = .ok b := by
  cases x <;> simp [Except.bind]

namespace SyntaxTree

variable {t : SyntaxTree} {c : NodeId} {kind : NodeKind} {i : Nat} {seen seen' cs : List NodeId}
  {slots : List (Option NodeId)} {places : List SlotSpec}

/-- Detached nodes, each once: what a new node may hold. -/
structure Loose (t : SyntaxTree) (ns : List NodeId) : Prop where
  detached : ∀ c ∈ ns, t.isDetached c = true
  nodup : ns.Nodup

/-- Detached nodes, each once, of which none was seen before. -/
structure Unseen (t : SyntaxTree) (seen ns : List NodeId) : Prop where
  loose : t.Loose ns
  new : ∀ c ∈ ns, c ∉ seen

@[simp] theorem unseen_nil : t.Unseen seen [] :=
  ⟨⟨fun _ hc => absurd hc List.not_mem_nil, List.nodup_nil⟩, fun _ hc => absurd hc List.not_mem_nil⟩

theorem unseen_cons : t.Unseen seen (c :: cs) ↔
    (t.isDetached c = true ∧ c ∉ seen) ∧ t.Unseen (c :: seen) cs := by
  constructor
  · rintro ⟨⟨hd, hn⟩, hs⟩
    rw [List.nodup_cons] at hn
    refine ⟨⟨hd c (.head _), hs c (.head _)⟩, ⟨fun a ha => hd a (.tail _ ha), hn.2⟩, ?_⟩
    intro a ha
    rw [List.mem_cons, not_or]
    exact ⟨fun he => hn.1 (he ▸ ha), hs a (.tail _ ha)⟩
  · rintro ⟨⟨hd, hs⟩, ⟨hds, hn⟩, hnew⟩
    have hc : c ∉ cs := fun hc => hnew c hc (.head _)
    refine ⟨⟨?_, List.nodup_cons.mpr ⟨hc, hn⟩⟩, ?_⟩
    · exact List.forall_mem_cons.mpr ⟨hd, hds⟩
    · exact List.forall_mem_cons.mpr ⟨hs, fun a ha hm => hnew a ha (.tail _ hm)⟩

theorem unseen_append {as bs : List NodeId} : t.Unseen seen (as ++ bs) ↔
    t.Unseen seen as ∧ t.Unseen (as.reverse ++ seen) bs := by
  induction as generalizing seen with
  | nil => simp
  | cons a as ih => simp [unseen_cons, ih, and_assoc]

theorem loose_iff : t.Loose cs ↔ t.Unseen [] cs :=
  ⟨fun h => ⟨h, fun _ _ => List.not_mem_nil⟩, Unseen.loose⟩

theorem checkChild_eq_ok : t.checkChild seen c = .ok seen' ↔
    (t.isDetached c = true ∧ c ∉ seen) ∧ c :: seen = seen' := by
  unfold checkChild
  by_cases hd : t.isDetached c <;> by_cases hs : c ∈ seen <;> simp [hd, hs]

theorem checkClass_eq_ok {pos : Position} {admits : SlotClass} {x : Unit} :
    t.checkClass kind pos admits c = .ok x ↔ admits.accepts (t.kind c) = true := by
  unfold checkClass
  split <;> simp_all

theorem checkSlots_eq_ok (h : slots.length = places.length) :
    t.checkSlots kind i seen slots places = .ok seen' ↔
      t.Unseen seen (slots.filterMap fun o => o) ∧
      List.Forall₂ (fun o s => SlotSpec.takes s o = true) (slots.map (Option.map t.kind)) places ∧
      (slots.filterMap fun o => o).reverse ++ seen = seen' := by
  induction slots generalizing i seen places with
  | nil =>
    obtain rfl : places = [] := List.length_eq_zero_iff.mp h.symm
    simp [checkSlots]
  | cons o slots ih =>
    obtain _ | ⟨s, places⟩ := places
    · simp at h
    have hl : slots.length = places.length := by simpa using h
    cases o with
    | none =>
      rw [checkSlots]
      by_cases hs : s.optional <;> simp [hs, ih hl, SlotSpec.takes]
    | some a =>
      simp only [checkSlots, bind, except_bind_eq_ok, checkChild_eq_ok, ih hl]
      simp only [checkClass_eq_ok, List.filterMap_cons, List.map_cons, Option.map_some,
        List.forall₂_cons, SlotSpec.takes, unseen_cons, List.reverse_cons, List.append_assoc,
        List.singleton_append]
      constructor
      · rintro ⟨_, ⟨hc, rfl⟩, _, ha, hu, hf, he⟩
        exact ⟨⟨hc, hu⟩, ⟨ha, hf⟩, he⟩
      · rintro ⟨⟨hc, hu⟩, ⟨ha, hf⟩, he⟩
        exact ⟨_, ⟨hc, rfl⟩, (), ha, hu, hf, he⟩

theorem checkItems_eq_ok {admits : SlotClass} {x : Unit} :
    t.checkItems kind admits i seen cs = .ok x ↔ t.Unseen seen cs ∧
      ∀ c ∈ cs, admits.accepts (t.kind c) = true := by
  induction cs generalizing i seen with
  | nil => simp [checkItems]
  | cons a cs ih =>
    simp only [checkItems, bind, except_bind_eq_ok, checkChild_eq_ok, ih, checkClass_eq_ok,
      unseen_cons, List.forall_mem_cons]
    constructor
    · rintro ⟨_, ⟨hc, rfl⟩, _, ha, hu, hf⟩
      exact ⟨⟨hc, hu⟩, ha, hf⟩
    · rintro ⟨⟨hc, hu⟩, ha, hf⟩
      exact ⟨_, ⟨hc, rfl⟩, (), ha, hu, hf⟩

theorem checkList_eq_ok {x : Unit} : t.checkList kind seen cs = .ok x ↔
    t.Unseen seen cs ∧ (kind.layout.list = none → cs = []) ∧ ∀ s, kind.layout.list = some s →
      s.least ≤ cs.length ∧ ∀ c ∈ cs, s.admits.accepts (t.kind c) = true := by
  unfold checkList
  split
  next hl =>
    cases cs <;> simp [hl]
  next s hl =>
    rw [hl]
    by_cases hs : cs.length < s.least
    · simp [hs, Nat.not_le.mpr hs]
    · simp [hs, checkItems_eq_ok, Nat.not_lt.mp hs]

theorem padSlots_of_length {count : Nat} {slots : List (Option NodeId)}
    (h : slots.length = count) : padSlots count slots = slots := by
  rw [padSlots, ← h, Nat.sub_self, List.replicate_zero, List.append_nil]

/-- A node is made if and only if its children are loose and fit. -/
theorem create?_eq_ok {s : NodeSpec} {r : NodeId × SyntaxTree} : t.create? s = .ok r ↔
    s.slots.length ≤ s.kind.layout.slots.length ∧
    t.Loose ((padSlots s.kind.layout.slots.length s.slots).filterMap (fun o => o) ++ s.list) ∧
    s.kind.Fits ((padSlots s.kind.layout.slots.length s.slots).map (Option.map t.kind))
      (s.list.map t.kind) ∧
    r = (t.fresh, t.allocate s.kind s.span s.ty
      (padSlots s.kind.layout.slots.length s.slots) s.list) := by
  by_cases hl : s.kind.layout.slots.length < s.slots.length
  · have hl' : ¬ s.slots.length ≤ s.kind.layout.slots.length := Nat.not_le.mpr hl
    simp only [create?, if_pos hl, hl', false_and, iff_false]
    rintro ⟨⟩
  · have hlen : (padSlots s.kind.layout.slots.length s.slots).length =
        s.kind.layout.slots.length := by
      rw [padSlots, List.length_append, List.length_replicate]
      omega
    simp only [create?, if_neg hl, bind, except_bind_eq_ok, checkSlots_eq_ok hlen, checkList_eq_ok,
      pure, Except.pure, Except.ok.injEq, loose_iff, unseen_append]
    constructor
    · rintro ⟨_, ⟨hu, hf, rfl⟩, _, ⟨hv, hn, hs⟩, rfl⟩
      refine ⟨Nat.not_lt.mp hl, ⟨hu, hv⟩, ⟨hf, ?_, ?_⟩, rfl⟩
      · intro h
        rw [hn h, List.map_nil]
      · intro a ha
        simpa using hs a ha
    · rintro ⟨-, ⟨hu, hv⟩, hf, rfl⟩
      refine ⟨_, ⟨hu, hf.slots, rfl⟩, (), ⟨hv, ?_, ?_⟩, rfl⟩
      · intro h
        exact List.map_eq_nil_iff.mp (hf.unlisted h)
      · intro a ha
        simpa using hf.listed a ha

end SyntaxTree

end TreeTidy
