import Mathlib.Data.List.Perm.Basic
import Mathlib.Data.List.Nodup
import Mathlib.Tactic.Common
import TreeTidy.Tree.Edit
/-!
The places of the children in the data of a node, and what filling or emptying a place does to the
children.
-/
namespace TreeTidy.Node

open SyntaxTree (vacate occupy positionIn)

variable {d e : Node} {c n : NodeId} {pos : Position}

/-- The child at a position. -/
def at? (d : Node) : Position → Option NodeId
  | .slot i => d.slots[i]?.join
  | .list i => d.list[i]?

/-- What is stated of a node and of its children; the rest says where it is and what became of it. -/
def data (d : Node) : NodeKind × Span × Option TypeDesc × List (Option NodeId) × List NodeId :=
  (d.kind, d.span, d.ty, d.slots, d.list)

theorem kind_of_data (h : e.data = d.data) : e.kind = d.kind := congrArg Prod.fst h

theorem slots_of_data (h : e.data = d.data) : e.slots = d.slots := congrArg (fun x => x.2.2.2.1) h

theorem list_of_data (h : e.data = d.data) : e.list = d.list := congrArg (fun x => x.2.2.2.2) h

theorem mem_children : c ∈ d.children ↔ some c ∈ d.slots ∨ c ∈ d.list := by
  simp [children]

theorem at?_slot {i : Nat} : d.at? (.slot i) = some c ↔ d.slots[i]? = some (some c) := by
  simp [at?, Option.join_eq_some_iff]

theorem at?_list {i : Nat} : d.at? (.list i) = some c ↔ d.list[i]? = some c := Iff.rfl

theorem mem_children_iff : c ∈ d.children ↔ ∃ pos, d.at? pos = some c := by
  rw [mem_children]
  constructor
  · rintro (h | h)
    · obtain ⟨i, hi⟩ := List.mem_iff_getElem?.mp h
      exact ⟨.slot i, at?_slot.mpr hi⟩
    · obtain ⟨i, hi⟩ := List.mem_iff_getElem?.mp h
      exact ⟨.list i, hi⟩
  · rintro ⟨i | i, h⟩
    · exact .inl (List.mem_iff_getElem?.mpr ⟨i, at?_slot.mp h⟩)
    · exact .inr (List.mem_iff_getElem?.mpr ⟨i, h⟩)

private theorem perm_set {slots : List (Option NodeId)} {i : Nat} (hi : i < slots.length)
    (n : NodeId) :
    ((slots.set i (some n)).filterMap id).Perm (n :: (slots.set i none).filterMap id) := by
  have hn := (List.set_perm_cons_eraseIdx hi (some n)).filterMap id
  have he := (List.set_perm_cons_eraseIdx hi none).filterMap id
  rw [List.filterMap_cons, id] at hn he
  exact hn.trans (he.symm.cons n)

theorem perm_occupy (h : d.at? pos = some c) (n : NodeId) :
    (occupy d n pos).children.Perm (n :: (vacate d pos).children) := by
  cases pos with
  | slot i =>
    have hi := (List.getElem?_eq_some_iff.mp (at?_slot.mp h)).1
    exact (perm_set hi n).append_right _
  | list i =>
    have hi := (List.getElem?_eq_some_iff.mp h).1
    exact ((List.set_perm_cons_eraseIdx hi n).append_left _).trans List.perm_middle

theorem occupy_self (h : d.at? pos = some c) : occupy d c pos = d := by
  cases pos with
  | slot i =>
    obtain ⟨hi, he⟩ := List.getElem?_eq_some_iff.mp (at?_slot.mp h)
    rw [occupy, ← he, List.set_getElem_self]
  | list i =>
    obtain ⟨hi, rfl⟩ := List.getElem?_eq_some_iff.mp h
    rw [occupy, List.set_getElem_self]

/-- A node holds the child at a position, and what it holds when that place is empty. -/
theorem perm_vacate (h : d.at? pos = some c) : d.children.Perm (c :: (vacate d pos).children) := by
  simpa only [occupy_self h] using perm_occupy h c

/-- The position that is looked up for a child is one where it is. -/
theorem at?_of_positionIn (h : positionIn d n = some pos) : d.at? pos = some n := by
  unfold positionIn at h
  split at h
  next i hi =>
    cases h
    obtain ⟨hlt, hb, -⟩ := List.findIdx?_eq_some_iff_getElem.mp hi
    rw [at?_slot, List.getElem?_eq_getElem hlt]
    simpa using hb
  next =>
    obtain ⟨i, hi, rfl⟩ := Option.map_eq_some_iff.mp h
    obtain ⟨hlt, hb, -⟩ := List.findIdx?_eq_some_iff_getElem.mp hi
    simpa [at?, hlt] using hb

theorem positionIn_isSome (h : n ∈ d.children) : ∃ pos, positionIn d n = some pos := by
  unfold positionIn
  split
  · exact ⟨_, rfl⟩
  next hs =>
    rw [List.findIdx?_eq_none_iff] at hs
    rcases mem_children.mp h with h | h
    · simpa using hs _ h
    · cases hl : d.list.findIdx? (· == n) with
      | some i => exact ⟨_, rfl⟩
      | none => simpa using List.findIdx?_eq_none_iff.mp hl n h

/-- If no child is held twice, a child is at one position only. -/
theorem at?_unique {pos' : Position} (hd : d.children.Nodup) (h : d.at? pos = some c)
    (h' : d.at? pos' = some c) : pos = pos' := by
  by_contra hne
  have hn : c ∉ (vacate d pos).children :=
    (List.nodup_cons.mp ((perm_vacate h).nodup_iff.mp hd)).1
  refine hn (mem_children_iff.mpr ?_)
  cases pos <;> cases pos'
  case slot.slot i j =>
    have hij : i ≠ j := fun hij => hne (congrArg _ hij)
    refine ⟨.slot j, ?_⟩
    rw [at?_slot] at h' ⊢
    simpa [vacate, List.getElem?_set, hij] using h'
  case slot.list i j => exact ⟨.list j, h'⟩
  case list.slot i j => exact ⟨.slot j, h'⟩
  case list.list i j =>
    rcases Nat.lt_or_gt_of_ne (fun hij : i = j => hne (congrArg _ hij)) with hij | hij
    · refine ⟨.list (j - 1), ?_⟩
      have hj : ¬ j - 1 < i := by omega
      simpa [vacate, at?, List.getElem?_eraseIdx, hj, Nat.sub_add_cancel (by omega : 1 ≤ j)]
        using h'
    · exact ⟨.list j, by simpa [vacate, at?, List.getElem?_eraseIdx, hij] using h'⟩

theorem positionIn_eq_some (hd : d.children.Nodup) :
    positionIn d n = some pos ↔ d.at? pos = some n := by
  refine ⟨at?_of_positionIn, fun h => ?_⟩
  obtain ⟨pos', hp⟩ := positionIn_isSome (mem_children_iff.mpr ⟨pos, h⟩)
  rw [hp, at?_unique hd h (at?_of_positionIn hp)]

end TreeTidy.Node
