import TreeTidy.Proofs.Document.Parts
import TreeTidy.Proofs.Tree.Fits
/-!
Documents that keep to the layouts. Exchanging a part for one of a kind that the place admits keeps a
document so.
-/
namespace TreeTidy

namespace NodeKind

variable {k : NodeKind}

/-- The class of kinds that a kind admits at a position below it. -/
def admittedAt (k : NodeKind) : Position → Option SlotClass
  | .slot i => (k.layout.slots[i]?).map SlotSpec.admits
  | .list _ => k.layout.list.map ListSpec.admits

/-- Whether a kind admits another one at a position below it. -/
def admits (k : NodeKind) (pos : Position) (c : NodeKind) : Bool :=
  (k.admittedAt pos).any (·.accepts c)

theorem admits_slot {i : Nat} {c : NodeKind} : k.admits (.slot i) c = true ↔
    ∃ s, k.layout.slots[i]? = some s ∧ s.admits.accepts c = true := by
  simp only [admits, admittedAt]
  cases k.layout.slots[i]? <;> simp

theorem admits_list {i : Nat} {c : NodeKind} : k.admits (.list i) c = true ↔
    ∃ s, k.layout.list = some s ∧ s.admits.accepts c = true := by
  simp only [admits, admittedAt]
  cases k.layout.list <;> simp

namespace Fits

variable {slots : List (Option NodeKind)} {list : List NodeKind} {i : Nat} {c : NodeKind}

theorem admits_slot (h : k.Fits slots list) (hc : slots[i]? = some (some c)) :
    k.admits (.slot i) c = true := by
  obtain ⟨hi, hs⟩ := List.getElem?_eq_some_iff.mp hc
  have hlen := h.slots.length_eq
  have ht := (List.forall₂_iff_get.mp h.slots).2 i hi (hlen ▸ hi)
  refine NodeKind.admits_slot.mpr ⟨_, List.getElem?_eq_getElem (hlen ▸ hi), ?_⟩
  simp only [List.get_eq_getElem, hs] at ht
  exact ht

theorem admits_list (h : k.Fits slots list) (hc : list[i]? = some c) :
    k.admits (.list i) c = true := by
  cases hs : k.layout.list with
  | none =>
    rw [h.unlisted hs] at hc
    cases hc
  | some s =>
    exact NodeKind.admits_list.mpr ⟨s, hs, (h.listed s hs).2 c (List.mem_of_getElem? hc)⟩

theorem set_slot (h : k.Fits slots list) (hc : k.admits (.slot i) c = true) :
    k.Fits (slots.set i (some c)) list where
  slots := by
    obtain ⟨s, hs, ha⟩ := NodeKind.admits_slot.mp hc
    have hlen := h.slots.length_eq
    refine List.forall₂_iff_get.mpr ⟨by simpa using hlen, ?_⟩
    intro j hj hj'
    have ht := (List.forall₂_iff_get.mp h.slots).2 j (by simpa using hj) hj'
    simp only [List.get_eq_getElem, List.getElem_set] at ht ⊢
    split
    next he =>
      subst he
      rw [List.getElem?_eq_getElem hj'] at hs
      rw [Option.some.inj hs]
      exact ha
    next => exact ht
  unlisted := h.unlisted
  listed := h.listed

theorem set_list (h : k.Fits slots list) (hc : k.admits (.list i) c = true) :
    k.Fits slots (list.set i c) where
  slots := h.slots
  unlisted hl := by rw [h.unlisted hl]; rfl
  listed s hs := by
    obtain ⟨s', hs', ha⟩ := NodeKind.admits_list.mp hc
    obtain rfl : s = s' := Option.some.inj (hs.symm.trans hs')
    refine ⟨by simpa using (h.listed s hs).1, ?_⟩
    intro b hb
    rcases List.mem_or_eq_of_mem_set hb with hb | rfl
    · exact (h.listed s hs).2 b hb
    · exact ha

end Fits

end NodeKind

namespace Doc

variable {d c x y : Doc} {pos : Position} {way : List Position}

/-- The kinds of the children fit the layout. -/
def Fits (d : Doc) : Prop := d.kind.Fits (d.slots.map (Option.map kind)) (d.list.map kind)

/-- Every part of the document fits its layout. -/
def Conforms (d : Doc) : Prop := ∀ way x, d.at? way = some x → x.Fits

theorem Conforms.fits (h : d.Conforms) : d.Fits := h [] d rfl

theorem Conforms.at? (h : d.Conforms) (hw : d.at? way = some x) : x.Conforms := fun way' y hy =>
  h (way ++ way') y (by rw [at?_append, hw, Option.bind_some, hy])

theorem conforms_iff : d.Conforms ↔ d.Fits ∧ ∀ pos c, d.child? pos = some c → c.Conforms := by
  constructor
  · intro h
    refine ⟨h.fits, ?_⟩
    intro pos c hc
    have hw : d.at? [pos] = some c := by rw [at?_cons hc, at?_nil]
    exact h.at? hw
  · rintro ⟨hf, hc⟩ way x hw
    cases way with
    | nil =>
      cases hw
      exact hf
    | cons pos way =>
      obtain ⟨c, hcp, hw⟩ := Option.bind_eq_some_iff.mp hw
      exact hc pos c hcp way x hw

theorem Fits.admits (h : d.Fits) (hc : d.child? pos = some c) : d.kind.admits pos c.kind = true := by
  cases pos with
  | slot i =>
    rw [child?_slot] at hc
    exact NodeKind.Fits.admits_slot h (by rw [List.getElem?_map, hc]; rfl)
  | list i => exact NodeKind.Fits.admits_list h (List.getElem?_map.trans (congrArg _ hc))

theorem Fits.setChild (h : d.Fits) (hx : d.kind.admits pos x.kind = true) :
    (d.setChild x pos).Fits := by
  unfold Fits at h ⊢
  cases pos with
  | slot i =>
    have hs := h.set_slot hx
    simpa only [Doc.setChild, kind, slots, list, List.map_set, Option.map_some] using hs
  | list i =>
    have hs := h.set_list hx
    simpa only [Doc.setChild, kind, slots, list, List.map_set] using hs

theorem Conforms.setChild (h : d.Conforms) (hc : d.child? pos = some c) (hx : x.Conforms)
    (ha : d.kind.admits pos x.kind = true) : (d.setChild x pos).Conforms := by
  refine conforms_iff.mpr ⟨h.fits.setChild ha, ?_⟩
  intro pos' b hb
  by_cases he : pos' = pos
  · subst he
    rw [child?_setChild hc] at hb
    exact Option.some.inj hb ▸ hx
  · rw [child?_setChild_of_ne he] at hb
    exact (conforms_iff.mp h).2 pos' b hb

theorem kind_put (hw : d.at? way = some y) (hk : x.kind = y.kind) : (d.put way x).kind = d.kind := by
  cases way with
  | nil =>
    cases hw
    exact hk
  | cons pos way =>
    obtain ⟨c, hc, -⟩ := Option.bind_eq_some_iff.mp hw
    rw [put_cons hc, kind_setChild]

/-- A part can be exchanged for one of the same kind. -/
theorem Conforms.put (h : d.Conforms) (hw : d.at? way = some y) (hx : x.Conforms)
    (hk : x.kind = y.kind) : (d.put way x).Conforms := by
  induction way generalizing d with
  | nil => exact hx
  | cons pos way ih =>
    obtain ⟨c, hc, hw⟩ := Option.bind_eq_some_iff.mp hw
    rw [put_cons hc]
    apply h.setChild hc (ih ((conforms_iff.mp h).2 pos c hc) hw)
    rw [kind_put hw hk]
    exact h.fits.admits hc

end Doc

end TreeTidy
