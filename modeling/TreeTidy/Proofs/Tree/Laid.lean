import TreeTidy.Proofs.Document.Conforms
import TreeTidy.Proofs.Tree.Ways
/-!
Trees that keep to the layouts: the nodes below the root do, which is to say that the document of the
root does, or that checking the tree finds nothing wrong.
-/
namespace TreeTidy.SyntaxTree

variable {t : SyntaxTree} {c m n p r : NodeId} {pos : Position} {way : List Position}

/-- The children of every attached node fit its layout. -/
def Laid (t : SyntaxTree) : Prop := ∀ n, t.isAttached n = true → (t.doc n).Fits

section

variable (ht : t.Linked)
include ht

theorem Linked.fits_doc_iff : (t.doc n).Fits ↔ (t.kind n).Fits
    ((t.node n).slots.map (Option.map t.kind)) ((t.node n).list.map t.kind) := by
  have hs : (t.doc n).slots.map (Option.map Doc.kind) = (t.node n).slots.map (Option.map t.kind) := by
    rw [ht.doc_eq, Doc.slots, List.map_map]
    apply List.map_congr_left
    intro o _
    cases o with
    | none => rfl
    | some c => exact congrArg some (ht.kind_doc c)
  have hl : (t.doc n).list.map Doc.kind = (t.node n).list.map t.kind := by
    rw [ht.doc_eq, Doc.list, List.map_map]
    exact List.map_congr_left fun c _ => ht.kind_doc c
  rw [Doc.Fits, hs, hl, ht.kind_doc]

/-- The parts of the document of a node are the documents of the nodes in it. -/
theorem Linked.forall_parts {P : Doc → Prop} :
    (∀ way x, (t.doc n).at? way = some x → P x) ↔ ∀ m, t.Within m n → P (t.doc m) := by
  constructor
  · intro h m hm
    obtain ⟨way, hw⟩ := exists_at? hm
    exact h way _ (by rw [ht.at?_doc, hw, Option.map_some])
  · intro h way x hx
    rw [ht.at?_doc] at hx
    obtain ⟨m, hm, rfl⟩ := Option.map_eq_some_iff.mp hx
    exact h m (within_of_at? hm)

theorem Linked.conforms_doc : (t.doc n).Conforms ↔ ∀ m, t.Within m n → (t.doc m).Fits :=
  ht.forall_parts

theorem Linked.laid_iff : t.Laid ↔ ∀ d, t.rootDoc? = some d → d.Conforms := by
  constructor
  · intro h d hd
    obtain ⟨r, hr, rfl⟩ := Option.map_eq_some_iff.mp hd
    exact ht.conforms_doc.mpr fun m hm => h m (ht.isAttached_iff.mpr ⟨r, hr, hm⟩)
  · intro h n hn
    obtain ⟨r, hr, hnr⟩ := ht.isAttached_iff.mp hn
    exact ht.conforms_doc.mp (h _ (by rw [rootDoc?, hr, Option.map_some])) n hnr

theorem Laid.conforms (hl : t.Laid) (hn : t.isAttached n = true) : (t.doc n).Conforms :=
  ht.conforms_doc.mpr fun m hm => hl m (ht.attached_of_within hn hm)

/-- A place holds a node of a kind that the place admits. -/
theorem Laid.admits (hl : t.Laid) (hp : t.isAttached p = true) (hc : (t.node p).at? pos = some c) :
    (t.kind p).admits pos (t.kind c) = true := by
  have hd : (t.doc p).child? pos = some (t.doc c) := by rw [ht.child?_doc, hc, Option.map_some]
  have h := (hl p hp).admits hd
  rwa [ht.kind_doc, ht.kind_doc] at h

theorem Laid.admits_slot {i : Nat} (hl : t.Laid) (hp : t.isAttached p = true)
    (hc : t.slot? p i = some c) : (t.kind p).admits (.slot i) (t.kind c) = true :=
  hl.admits ht hp hc

theorem Laid.admits_list (hl : t.Laid) (hp : t.isAttached p = true) (hc : c ∈ t.list p) :
    (t.kind p).admits (.list 0) (t.kind c) = true := by
  obtain ⟨j, hj⟩ := List.mem_iff_getElem?.mp hc
  have ha : (t.kind p).admits (.list j) (t.kind c) = true := hl.admits ht hp hj
  exact ha

end

theorem admits_eq (t : SyntaxTree) (p : NodeId) (pos : Position) (k : NodeKind) :
    t.admits p pos k = (t.kind p).admits pos k := by
  cases pos <;> rfl

section Validation

/-- As long as the nodes that wait have disjoint subtrees, of which nothing was seen, no link is
found wrong. -/
theorem Linked.validateFrom_linkFaults (ht : t.Linked) (fuel : Nat) (seen work : List NodeId)
    (v : Validation)
    (ha : ∀ n ∈ work, t.isAlive n = true) (hs : ∀ n ∈ work, ∀ m, t.Within m n → m ∉ seen)
    (hw : work.Pairwise fun a b => ∀ m, ¬ (t.Within m a ∧ t.Within m b)) :
    (t.validateFrom fuel seen work v).linkFaults = v.linkFaults := by
  induction fuel generalizing seen work v with
  | zero => rfl
  | succ fuel ih =>
    cases work with
    | nil => rfl
    | cons n work =>
      have hn : ¬ seen.contains n = true := by simpa using hs n (.head _) n .refl
      have halive := ha n (.head _)
      rw [List.pairwise_cons] at hw
      rw [validateFrom, if_neg hn, ih]
      · have hstray : t.strayChildren n = [] := by
          rw [strayChildren, List.map_eq_nil_iff, List.filter_eq_nil_iff]
          intro c hc
          simp [ht.named hc halive]
        simp [halive, hstray]
      · intro c hc
        rcases List.mem_append.mp hc with hc | hc
        · rw [(ht.child (List.mem_reverse.mp hc)).2, halive]
        · exact ha c (.tail _ hc)
      · intro c hc m hm
        rw [List.mem_cons, not_or]
        rcases List.mem_append.mp hc with hc | hc
        · have hb := hm.below (List.mem_reverse.mp hc)
          exact ⟨fun he => ht.below_irrefl n (he ▸ hb), hs n (.head _) m hb.to_reflTransGen⟩
        · exact ⟨fun he => hw.1 c hc n ⟨.refl, he ▸ hm⟩, hs c (.tail _ hc) m hm⟩
      · rw [List.pairwise_append]
        refine ⟨List.pairwise_reverse.mpr ?_, hw.2, ?_⟩
        · refine (ht.nodup n).imp_of_mem ?_
          exact fun hx hy hne m hm => ht.disjoint_children halive hy hx hne.symm hm
        · intro c hc b hb m hm
          exact hw.1 b hb m ⟨hm.1.tail (List.mem_reverse.mp hc), hm.2⟩

theorem Linked.validate_linkFaults (ht : t.Linked) : t.validate.linkFaults = [] := by
  unfold validate
  cases hr : t.root with
  | none => rfl
  | some r =>
    obtain ⟨ha, hp⟩ := ht.root hr
    simp only [hp, Option.isSome_none, Bool.false_eq_true, if_false]
    refine ht.validateFrom_linkFaults _ _ _ _ ?_ (fun _ _ _ _ => List.not_mem_nil)
      (List.pairwise_singleton _ _)
    intro n hn
    rw [List.mem_singleton.mp hn, ha]

theorem slotFaults_eq_nil {slots : List (Option NodeId)} {places : List SlotSpec} {i : Nat}
    (h : slots.length = places.length) : t.slotFaults n i slots places = [] ↔
      List.Forall₂ (fun o s => SlotSpec.takes s o = true) (slots.map (Option.map t.kind)) places := by
  induction slots generalizing i places with
  | nil =>
    obtain rfl : places = [] := List.length_eq_zero_iff.mp h.symm
    simp [slotFaults]
  | cons o slots ih =>
    obtain _ | ⟨s, places⟩ := places
    · simp at h
    have hl : slots.length = places.length := by simpa using h
    cases o with
    | none => by_cases hs : s.optional <;> simp [slotFaults, hs, ih hl, SlotSpec.takes]
    | some c => by_cases hs : s.admits.accepts (t.kind c) <;>
        simp [slotFaults, hs, ih hl, SlotSpec.takes]

theorem itemFaults_eq_nil {admits : SlotClass} {cs : List NodeId} {i : Nat} :
    t.itemFaults n admits i cs = [] ↔ ∀ c ∈ cs, admits.accepts (t.kind c) = true := by
  induction cs generalizing i with
  | nil => simp [itemFaults]
  | cons c cs ih =>
    by_cases hc : admits.accepts (t.kind c) <;> simp [itemFaults, hc, ih]

/-- The faults of the list as a whole. -/
def listFaults (t : SyntaxTree) (n : NodeId) : List Fault :=
  match (t.kind n).layout.list with
  | none => if (t.node n).list.isEmpty then [] else [t.fault n "node kind has no list"]
  | some spec =>
    (if (t.node n).list.length < spec.least
      then [t.fault n ("list below minimum length " ++ toString spec.least)] else [])
      ++ t.itemFaults n spec.admits 0 (t.node n).list

theorem listFaults_eq_nil : t.listFaults n = [] ↔
    ((t.kind n).layout.list = none → (t.node n).list.map t.kind = []) ∧
    ∀ s, (t.kind n).layout.list = some s → s.least ≤ ((t.node n).list.map t.kind).length ∧
      ∀ k ∈ (t.node n).list.map t.kind, s.admits.accepts k = true := by
  unfold listFaults
  split
  next h => cases hl : (t.node n).list <;> simp [h]
  next s h =>
    by_cases hs : (t.node n).list.length < s.least
    · simp [h, hs, Nat.not_le.mpr hs]
    · simp [h, hs, itemFaults_eq_nil, Nat.not_lt.mp hs]

theorem layoutFaults_eq (t : SyntaxTree) (n : NodeId) : t.layoutFaults n =
    (if (t.node n).slots.length = (t.kind n).layout.slots.length then []
      else [t.fault n ("expected " ++ toString (t.kind n).layout.slots.length
        ++ " slot(s), found " ++ toString (t.node n).slots.length)])
    ++ t.slotFaults n 0 (t.node n).slots (t.kind n).layout.slots ++ t.listFaults n := rfl

/-- A node has no layout faults if and only if its children fit. -/
theorem layoutFaults_eq_nil : t.layoutFaults n = [] ↔ (t.kind n).Fits
    ((t.node n).slots.map (Option.map t.kind)) ((t.node n).list.map t.kind) := by
  rw [layoutFaults_eq]
  by_cases hlen : (t.node n).slots.length = (t.kind n).layout.slots.length
  · rw [if_pos hlen, List.nil_append, List.append_eq_nil_iff, slotFaults_eq_nil hlen,
      listFaults_eq_nil]
    exact ⟨fun ⟨hs, hu, hl⟩ => ⟨hs, hu, hl⟩, fun h => ⟨h.slots, h.unlisted, h.listed⟩⟩
  · refine ⟨?_, fun h => absurd (by simpa using h.slots.length_eq) hlen⟩
    intro h
    rw [if_neg hlen] at h
    cases h

theorem validateFrom_layoutFaults (h : ∀ n, t.isAttached n = true → t.layoutFaults n = [])
    (ht : t.Linked) (fuel : Nat) (seen work : List NodeId) (v : Validation)
    (ha : ∀ n ∈ work, t.isAttached n = true) :
    (t.validateFrom fuel seen work v).layoutFaults = v.layoutFaults := by
  induction fuel generalizing seen work v with
  | zero => rfl
  | succ fuel ih =>
    cases work with
    | nil => rfl
    | cons n work =>
      have hn := ha n (.head _)
      have hw : ∀ m ∈ work, t.isAttached m = true := fun m hm => ha m (.tail _ hm)
      rw [validateFrom]
      split
      · exact ih _ _ _ hw
      · rw [ih]
        · simp [h n hn]
        · intro m hm
          rcases List.mem_append.mp hm with hm | hm
          · exact ht.attached_child hn (List.mem_reverse.mp hm)
          · exact hw m hm

/-- Checking finds nothing wrong with a tree that is linked and laid. -/
theorem Linked.validate_passed (ht : t.Linked) (hl : t.Laid) : t.validate.passed = true := by
  have hlink := ht.validate_linkFaults
  have hlay : t.validate.layoutFaults = [] := by
    unfold validate
    cases hr : t.root with
    | none => rfl
    | some r =>
      refine validateFrom_layoutFaults ?_ ht _ _ _ _ ?_
      · intro n hn
        exact layoutFaults_eq_nil.mpr (ht.fits_doc_iff.mp (hl n hn))
      · intro n hn
        rw [List.mem_singleton.mp hn]
        exact ht.attached_root hr
  simp [Validation.passed, hlink, hlay]

end Validation

/-- The tree keeps the rules for links and layouts. -/
structure Sound (t : SyntaxTree) : Prop where
  linked : t.Linked
  laid : t.Laid

end TreeTidy.SyntaxTree
