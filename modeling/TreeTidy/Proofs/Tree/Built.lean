import TreeTidy.Proofs.Tree.Laid
import TreeTidy.Proofs.Tree.Clone
import TreeTidy.Proofs.Tree.Effects
import TreeTidy.Proofs.Tree.History
import TreeTidy.Tree.Load
/-!
Trees built of documents. What is built has the document it was built of, with all slots written out;
and what can be built keeps to the layouts.
-/
namespace TreeTidy

namespace Doc

variable {d : Doc} {kind : NodeKind} {span : Span} {ty : Option TypeDesc} {slots : List (Option Doc)}
  {list : List Doc}

mutual

/-- The document with an entry for every slot of the layouts. -/
def padded : Doc → Doc
  | node kind span ty slots list =>
    node kind span ty
      (paddedSlots slots ++ List.replicate (kind.layout.slots.length - slots.length) none)
      (paddedList list)

def paddedSlots : List (Option Doc) → List (Option Doc)
  | [] => []
  | none :: slots => none :: paddedSlots slots
  | some d :: slots => some (padded d) :: paddedSlots slots

def paddedList : List Doc → List Doc
  | [] => []
  | d :: list => padded d :: paddedList list

end

@[simp] theorem kind_padded : d.padded.kind = d.kind := by
  cases d
  rw [padded, Doc.kind, Doc.kind]

@[simp] theorem length_paddedSlots : (paddedSlots slots).length = slots.length := by
  induction slots with
  | nil => rw [paddedSlots]
  | cons o slots ih => cases o <;> simp [paddedSlots, ih]

/-- A node conforms if it fits over children that conform. -/
theorem conforms_node (hf : (node kind span ty slots list).Fits)
    (hs : ∀ c, some c ∈ slots → c.Conforms) (hl : ∀ c ∈ list, c.Conforms) :
    (node kind span ty slots list).Conforms := by
  refine conforms_iff.mpr ⟨hf, ?_⟩
  intro pos c hc
  cases pos with
  | slot i => exact hs c (List.mem_of_getElem? (Option.join_eq_some_iff.mp hc))
  | list i => exact hl c (List.mem_of_getElem? hc)

end Doc

namespace SyntaxTree

open Doc (paddedSlots paddedList)

variable {t u v w : SyntaxTree} {m n : NodeId} {kind : NodeKind} {span : Span} {ty : Option TypeDesc}
  {ds : List (Option Doc)} {docs : List Doc} {slots ms : List (Option NodeId)} {list : List NodeId}

theorem allCopied_replicate (ht : t.Linked) (k : Nat) :
    t.AllCopied (List.replicate k none) (List.replicate k none) t := by
  induction k with
  | zero => exact .nil ht
  | succ k ih => exact (AllCopied.none ht).append ih

/-- The kinds of the copies are those of the documents. -/
theorem AllCopied.kinds (h : t.AllCopied ds ms u) :
    ms.map (Option.map u.kind) = ds.map (Option.map Doc.kind) := by
  rw [← h.docs, List.map_map]
  apply List.map_congr_left
  intro o _
  cases o with
  | none => rfl
  | some m => exact congrArg Option.some (h.linked.kind_doc m).symm

/-- A node over new nodes is as good as the documents that those have. -/
theorem create?_copied (hs : t.AllCopied ds slots u) (hl : u.AllCopied (docs.map some) (list.map some) v)
    (hds : ∀ d, some d ∈ ds → d.Conforms) (hdocs : ∀ d ∈ docs, d.Conforms)
    (h : v.create? ⟨kind, span, ty, slots, list⟩ = .ok (n, w)) :
    t.Copied (.node kind span ty (ds ++ List.replicate (kind.layout.slots.length - ds.length) none) docs)
      n w ∧ (Doc.node kind span ty
        (ds ++ List.replicate (kind.layout.slots.length - ds.length) none) docs).Conforms := by
  have hlen : slots.length = ds.length := by rw [← hs.docs, List.length_map]
  have hpad := hs.append (allCopied_replicate hs.linked (kind.layout.slots.length - ds.length))
  obtain ⟨-, -, hf, he⟩ := create?_eq_ok.mp h
  obtain ⟨rfl, rfl⟩ := Prod.mk.inj he
  simp only [padSlots, hlen] at hf ⊢
  have hall := hpad.append hl
  refine ⟨Copied.allocate hall (by simp [hlen]) kind span ty, Doc.conforms_node ?_ ?_ hdocs⟩
  · have hk := (hpad.later hl.kept hl.linked).kinds
    have hkl : list.map v.kind = docs.map Doc.kind := by
      have := hl.kinds
      rw [List.map_map, List.map_map] at this
      exact List.map_injective_iff.mpr (Option.some_injective _) (by simpa using this)
    rw [hk, hkl] at hf
    exact hf
  · intro d hd
    rcases List.mem_append.mp hd with hd | hd
    · exact hds d hd
    · cases List.eq_of_mem_replicate hd

mutual

theorem build_copied {t u : SyntaxTree} {place : DocPath} {n : NodeId} (d : Doc) (ht : t.Linked)
    (h : t.build place d = (.ok n, u)) :
    t.Copied d.padded n u ∧ d.padded.Conforms := by
  cases d with
  | node kind span ty slots list =>
    rw [build] at h
    split at h
    · cases h
    next ms u₁ hs =>
      obtain ⟨hs, hsc⟩ := buildSlots_copied slots ht hs
      split at h
      · cases h
      next ns u₂ hl =>
        obtain ⟨hl, hlc⟩ := buildList_copied list hs.linked hl
        split at h
        · cases h
        next m u₃ hm =>
          cases h
          have := create?_copied hs hl hsc hlc hm
          rwa [Doc.length_paddedSlots, ← Doc.padded] at this

theorem buildSlots_copied {t u : SyntaxTree} {place : DocPath} {i : Nat} {ms : List (Option NodeId)}
    (slots : List (Option Doc)) (ht : t.Linked)
    (h : t.buildSlots place i slots = (.ok ms, u)) :
    t.AllCopied (paddedSlots slots) ms u ∧ ∀ d, some d ∈ paddedSlots slots → d.Conforms := by
  match slots with
  | [] =>
    rw [buildSlots] at h
    cases h
    rw [paddedSlots]
    exact ⟨.nil ht, nofun⟩
  | none :: slots =>
    rw [buildSlots] at h
    split at h
    · cases h
    next ns v hs =>
      cases h
      obtain ⟨hs, hc⟩ := buildSlots_copied slots ht hs
      rw [paddedSlots]
      exact ⟨(AllCopied.none ht).append hs, fun d hd => hc d (by simpa using hd)⟩
  | some d :: slots =>
    rw [buildSlots] at h
    split at h
    · cases h
    next n v hn =>
      obtain ⟨hn, hd⟩ := build_copied d ht hn
      split at h
      · cases h
      next ns w hs =>
        cases h
        obtain ⟨hs, hc⟩ := buildSlots_copied slots hn.linked hs
        rw [paddedSlots]
        refine ⟨(AllCopied.some hn).append hs, ?_⟩
        intro e he
        rcases List.mem_cons.mp he with he | he
        · exact Option.some.inj he ▸ hd
        · exact hc e he

theorem buildList_copied {t u : SyntaxTree} {place : DocPath} {i : Nat} {ns : List NodeId}
    (list : List Doc) (ht : t.Linked)
    (h : t.buildList place i list = (.ok ns, u)) :
    t.AllCopied ((paddedList list).map some) (ns.map some) u ∧ ∀ d ∈ paddedList list, d.Conforms := by
  match list with
  | [] =>
    rw [buildList] at h
    cases h
    rw [paddedList]
    exact ⟨.nil ht, nofun⟩
  | d :: list =>
    rw [buildList] at h
    split at h
    · cases h
    next n v hn =>
      obtain ⟨hn, hd⟩ := build_copied d ht hn
      split at h
      · cases h
      next ns w hs =>
        cases h
        obtain ⟨hs, hc⟩ := buildList_copied list hn.linked hs
        rw [paddedList]
        exact ⟨(AllCopied.some hn).append hs, List.forall_mem_cons.mpr ⟨hd, hc⟩⟩

end

/-- A detached node that becomes the root of a tree without one. -/
theorem setRoot?_of_rootless (hr : t.root = none) (h : t.setRoot? n = .ok u) : u = (t.withRoot n).bump := by
  unfold setRoot? at h
  split at h
  · cases h
  · rw [hr] at h
    exact (Except.ok.inj h).symm

end SyntaxTree

namespace SourceUnit

open SyntaxTree

/-- A unit that is built is sound, and its document is the one it was built of. -/
theorem ofDoc_sound {id : Nat} {d : UnitDoc} {u : SourceUnit} (h : ofDoc id d = .ok u) :
    u.tree.Sound ∧ u.tree.rootDoc? = some d.root.padded := by
  rw [ofDoc] at h
  split at h
  · cases h
  next n t hb =>
    obtain ⟨hn, hd⟩ := build_copied d.root (linked_empty id) hb
    split at h
    · cases h
    next v hv =>
      cases h
      have hl := hn.linked.setRoot? hv
      have hr : v.rootDoc? = some d.root.padded := by
        rw [setRoot?_of_rootless hn.kept.root hv, ← hn.doc]
        simp only [rootDoc?, root_bump, root_withRoot, Option.map_some, doc_bump, doc_withRoot]
      refine ⟨⟨hl, hl.laid_iff.mpr ?_⟩, hr⟩
      intro e he
      rw [hr] at he
      exact Option.some.inj he ▸ hd

end SourceUnit

end TreeTidy
