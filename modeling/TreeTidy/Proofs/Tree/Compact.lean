import TreeTidy.Proofs.Tree.Renamed
import TreeTidy.Proofs.Tree.Settled
/-!
Compact trees: all their nodes are attached. There is one for every document, and every tree that has the
document is that one under a renaming, whatever else it holds.
-/
namespace TreeTidy.SyntaxTree

variable {t u : SyntaxTree} {m n : NodeId} {way : List Position}

section Plant

mutual

/-- There is room for any document in any tree. -/
theorem exists_copied {t : SyntaxTree} (ht : t.Linked) (hs : t.Settled) (d : Doc) :
    ∃ m u, t.Copied d m u ∧ t.Covers [some m] u ∧ u.Settled := by
  cases d with
  | node kind span ty slots list =>
    obtain ⟨ms, u, hms, hmc, hus⟩ := exists_allCopied ht hs slots
    obtain ⟨ns, v, hns, hnc, hvs⟩ := exists_allCopied_list hms.linked hus list
    have hlen : ms.length = slots.length := by rw [← hms.docs, List.length_map]
    have hall := hms.append hns
    exact ⟨v.size, v.allocate kind span ty ms ns, .allocate hall hlen kind span ty,
      covers_allocate hall (covers_append hms hns hmc hnc) kind span ty,
      (Ages.allocate v kind span ty ms ns).settled hvs⟩

theorem exists_allCopied {t : SyntaxTree} (ht : t.Linked) (hs : t.Settled) (slots : List (Option Doc)) :
    ∃ ms u, t.AllCopied slots ms u ∧ t.Covers ms u ∧ u.Settled := by
  match slots with
  | [] => exact ⟨[], t, .nil ht, covers_refl t [], hs⟩
  | none :: slots =>
    obtain ⟨ms, u, hms, hc, hus⟩ := exists_allCopied ht hs slots
    exact ⟨none :: ms, u, (AllCopied.none ht).append hms,
      covers_append (.none ht) hms (covers_refl t _) hc, hus⟩
  | some d :: slots =>
    obtain ⟨m, u, hm, hmc, hus⟩ := exists_copied ht hs d
    obtain ⟨ms, v, hms, hc, hvs⟩ := exists_allCopied hm.linked hus slots
    exact ⟨some m :: ms, v, (AllCopied.some hm).append hms, covers_append (.some hm) hms hmc hc, hvs⟩

theorem exists_allCopied_list {t : SyntaxTree} (ht : t.Linked) (hs : t.Settled) (list : List Doc) :
    ∃ ms u, t.AllCopied (list.map some) (List.map some ms) u ∧ t.Covers (List.map some ms) u ∧
      u.Settled := by
  match list with
  | [] => exact ⟨[], t, .nil ht, covers_refl t [], hs⟩
  | d :: list =>
    obtain ⟨m, u, hm, hmc, hus⟩ := exists_copied ht hs d
    obtain ⟨ms, v, hms, hc, hvs⟩ := exists_allCopied_list hm.linked hus list
    exact ⟨m :: ms, v, (AllCopied.some hm).append hms, covers_append (.some hm) hms hmc hc, hvs⟩

end

end Plant

/-- Every node of the tree is attached, and the tree has not been changed since. -/
structure Compact (t : SyntaxTree) : Prop where
  linked : t.Linked
  settled : t.Settled
  attached : ∀ n < t.size, t.isAttached n = true
  revision : t.revision = 0

theorem exists_compact (d : Option Doc) : ∃ u, Compact u ∧ u.rootDoc? = d := by
  have ho := orderly_empty 0
  cases d with
  | none => exact ⟨empty 0, ⟨ho.linked, ho.settled, fun n hn => absurd hn (Nat.not_lt_zero n), rfl⟩, rfl⟩
  | some d =>
    obtain ⟨m, u, hm, hc, hs⟩ := exists_copied ho.linked ho.settled d
    have hl := hm.linked.withRoot hm.detached
    refine ⟨u.withRoot m, ⟨hl, hs, fun n hn => ?_, hm.kept.revision⟩, ?_⟩
    · obtain ⟨a, ha, hw⟩ := hc n (Nat.zero_le n) hn
      obtain rfl : a = m := by simpa using ha
      exact hl.isAttached_iff.mpr ⟨a, rfl, hw⟩
    · rw [rootDoc?, root_withRoot, Option.map_some, doc_withRoot, hm.doc]

/-- All places of a compact tree are places of the document. -/
theorem Compact.admitted (hu : u.Compact) (ht : t.Linked) (ha : t.Admitted)
    (hd : t.rootDoc? = u.rootDoc?) : u.Admitted := by
  refine hu.linked.admitted_of_lt fun n hn => ?_
  obtain ⟨way, hw⟩ := hu.linked.exists_rootAt? (hu.attached n hn)
  obtain ⟨r, hr, hrw⟩ := Option.bind_eq_some_iff.mp hw
  obtain ⟨r', hr', hdoc⟩ : ∃ r', t.root = some r' ∧ t.doc r' = u.doc r := by
    rw [rootDoc?, rootDoc?, hr] at hd
    exact Option.map_eq_some_iff.mp hd
  have hn : (u.doc r).at? way = some (u.doc n) := by rw [hu.linked.at?_doc, hrw, Option.map_some]
  rw [← hdoc, ht.at?_doc] at hn
  obtain ⟨m, -, hm⟩ := Option.map_eq_some_iff.mp hn
  rw [← hm]
  exact ha m

section Place

/-- The nodes stand at the same place below the roots. -/
def SamePlace (u t : SyntaxTree) (n m : NodeId) : Prop :=
  ∃ way, u.rootAt? way = some n ∧ t.rootAt? way = some m

theorem SamePlace.symm (h : u.SamePlace t n m) : t.SamePlace u m n := by
  obtain ⟨way, hn, hm⟩ := h
  exact ⟨way, hm, hn⟩

theorem Linked.rootAt?_unique (ht : t.Linked) {way way' : List Position} (h : t.rootAt? way = some n)
    (h' : t.rootAt? way' = some n) : way = way' := by
  obtain ⟨r, hr, hw⟩ := Option.bind_eq_some_iff.mp h
  obtain ⟨r', hr', hw'⟩ := Option.bind_eq_some_iff.mp h'
  obtain rfl := Option.some.inj (hr.symm.trans hr')
  exact ht.at?_unique (ht.root hr).1 hw hw'

theorem Linked.attached_of_rootAt? (ht : t.Linked) (h : t.rootAt? way = some n) :
    t.isAttached n = true := by
  obtain ⟨r, hr, hw⟩ := Option.bind_eq_some_iff.mp h
  exact ht.isAttached_iff.mpr ⟨r, hr, within_of_at? hw⟩

theorem rootAt?_snoc (way : List Position) (pos : Position) :
    t.rootAt? (way ++ [pos]) = (t.rootAt? way).bind fun n => (t.node n).at? pos := by
  rw [rootAt?, rootAt?, Option.bind_assoc]
  refine congrArg t.root.bind (funext fun r => ?_)
  rw [at?_append]
  refine congrArg (t.at? r way).bind (funext fun n => ?_)
  rw [at?]
  cases (t.node n).at? pos <;> rfl

theorem SamePlace.right_unique (hu : u.Linked) {m' : NodeId} (h : u.SamePlace t n m)
    (h' : u.SamePlace t n m') : m = m' := by
  obtain ⟨way, hn, hm⟩ := h
  obtain ⟨way', hn', hm'⟩ := h'
  rw [hu.rootAt?_unique hn hn', hm'] at hm
  exact (Option.some.inj hm).symm

/-- The parent of a node stands where the parent of the other one does. -/
theorem SamePlace.parent (hu : u.Linked) (ht : t.Linked) (h : u.SamePlace t n m) {p : NodeId}
    (hp : u.parent? n = some p) : ∃ q, t.parent? m = some q ∧ u.SamePlace t p q := by
  obtain ⟨way, hn, hm⟩ := h
  have hpa := hu.attached_parent (hu.attached_of_rootAt? hn) hp
  obtain ⟨pos, -, hpos⟩ := hu.exists_position hp
  obtain ⟨front, hf⟩ := hu.exists_rootAt? hpa
  have hlast : u.rootAt? (front ++ [pos]) = some n := by
    rw [rootAt?_snoc, hf, Option.bind_some, hpos]
  rw [hu.rootAt?_unique hn hlast, rootAt?_snoc] at hm
  obtain ⟨q, hq, hqm⟩ := Option.bind_eq_some_iff.mp hm
  have hqa := attached_alive (ht.attached_of_rootAt? hq)
  exact ⟨q, ht.named (Node.mem_children_iff.mpr ⟨pos, hqm⟩) hqa, front, hf, hq⟩

variable (hu : u.Linked) (ht : t.Linked) (hd : t.rootDoc? = u.rootDoc?)
include hu ht hd

theorem doc_rootAt? (way : List Position) :
    (t.rootAt? way).map t.doc = (u.rootAt? way).map u.doc := by
  have key : ∀ {v : SyntaxTree}, v.Linked →
      (v.rootAt? way).map v.doc = v.rootDoc?.bind fun d => d.at? way := by
    intro v hv
    rw [rootAt?, rootDoc?]
    cases v.root with
    | none => rfl
    | some r => exact (hv.at?_doc r way).symm
  rw [key ht, key hu, hd]

theorem exists_samePlace (hn : u.isAttached n = true) : ∃ m, u.SamePlace t n m := by
  obtain ⟨way, hw⟩ := hu.exists_rootAt? hn
  have h := doc_rootAt? hu ht hd way
  rw [hw] at h
  obtain ⟨m, hm, -⟩ := Option.map_eq_some_iff.mp h
  exact ⟨m, way, hw, hm⟩

namespace SamePlace

variable (h : u.SamePlace t n m)
include h

theorem doc : t.doc m = u.doc n := by
  obtain ⟨way, hn, hm⟩ := h
  have hdoc := doc_rootAt? hu ht hd way
  rw [hn, hm] at hdoc
  exact Option.some.inj hdoc

theorem child {pos : Position} {c : NodeId} (hc : (u.node n).at? pos = some c) :
    ∃ c', (t.node m).at? pos = some c' ∧ u.SamePlace t c c' := by
  obtain ⟨way, hn, hm⟩ := h
  have hlast : u.rootAt? (way ++ [pos]) = some c := by rw [rootAt?_snoc, hn, Option.bind_some, hc]
  have hdoc := doc_rootAt? hu ht hd (way ++ [pos])
  rw [hlast] at hdoc
  obtain ⟨c', hc', -⟩ := Option.map_eq_some_iff.mp hdoc
  refine ⟨c', ?_, way ++ [pos], hlast, hc'⟩
  rwa [rootAt?_snoc, hm, Option.bind_some] at hc'

end SamePlace

end Place

section Naming

variable {g : NodeId → NodeId} (hg : ∀ n, u.isAttached n = true → u.SamePlace t n (g n))
  (hu : u.Linked) (ht : t.Linked) (hd : t.rootDoc? = u.rootDoc?) (hn : u.isAttached n = true)
include hg hu ht hd hn

theorem at?_of_samePlace (pos : Position) : (t.node (g n)).at? pos = ((u.node n).at? pos).map g := by
  have hs := hg n hn
  cases hc : (u.node n).at? pos with
  | some c =>
    obtain ⟨c', hc', hsame⟩ := hs.child hu ht hd hc
    have hcn : u.Child c n := Node.mem_children_iff.mpr ⟨pos, hc⟩
    rw [hc', Option.map_some, hsame.right_unique hu (hg c (hu.attached_child hn hcn))]
  | none =>
    cases hc' : (t.node (g n)).at? pos with
    | none => rfl
    | some c' =>
      obtain ⟨c, hc₂, -⟩ := hs.symm.child ht hu hd.symm hc'
      rw [hc] at hc₂
      cases hc₂

omit hd in
theorem parent_of_samePlace : t.parent? (g n) = (u.parent? n).map g := by
  have hs := hg n hn
  cases hp : u.parent? n with
  | some p =>
    obtain ⟨q, hq, hsame⟩ := hs.parent hu ht hp
    rw [hq, Option.map_some, hsame.right_unique hu (hg p (hu.attached_parent hn hp))]
  | none =>
    cases hq : t.parent? (g n) with
    | none => rfl
    | some q =>
      obtain ⟨p, hp', -⟩ := hs.symm.parent ht hu hq
      rw [hp] at hp'
      cases hp'

theorem node_of_samePlace (hus : u.Settled) (hts : t.Settled) :
    t.node (g n) = (u.node n).rename g := by
  have hs := hg n hn
  have hdoc := hs.doc hu ht hd
  rw [ht.doc_eq, hu.doc_eq, Doc.node.injEq] at hdoc
  obtain ⟨hkind, hspan, hty, hslots, hlist⟩ := hdoc
  have hat := at?_of_samePlace hg hu ht hd hn
  obtain ⟨way, -, hm⟩ := hs
  have hta := attached_alive (ht.attached_of_rootAt? hm)
  have hua := attached_alive hn
  rw [Node.rename, Node.mk.injEq]
  refine ⟨hkind, hspan, hty, ?_, ?_, parent_of_samePlace hg hu ht hn, hta.trans hua.symm, ?_⟩
  · have hlen := congrArg List.length hslots
    rw [List.length_map, List.length_map] at hlen
    refine List.ext_getElem (by rwa [List.length_map]) fun i hi hi' => ?_
    have h := hat (.slot i)
    rw [List.length_map] at hi'
    rw [Node.at?, Node.at?, List.getElem?_eq_getElem hi, List.getElem?_eq_getElem hi'] at h
    simpa using h
  · have hlen := congrArg List.length hlist
    rw [List.length_map, List.length_map] at hlen
    refine List.ext_getElem (by rwa [List.length_map]) fun i hi hi' => ?_
    have h := hat (.list i)
    rw [List.length_map] at hi'
    rw [Node.at?, Node.at?, List.getElem?_eq_getElem hi, List.getElem?_eq_getElem hi'] at h
    simpa using h
  · rw [hts _ hta, hus _ hua, Option.map_none]

end Naming

/-- A tree that has the document of a compact one is that one under a renaming. -/
theorem Compact.renamed (hu : u.Compact) (ht : t.Linked) (hs : t.Settled)
    (hd : t.rootDoc? = u.rootDoc?) : ∃ g, Renamed g t.revision u t := by
  classical
  have hall : ∀ n, ∃ m, u.isAttached n = true → u.SamePlace t n m := by
    intro n
    by_cases hn : u.isAttached n = true
    · exact (exists_samePlace hu.linked ht hd hn).imp fun m hm _ => hm
    · exact ⟨0, fun h => absurd h hn⟩
  choose place hplace using hall
  have hlt : ∀ n, n < u.size → place n < t.size := by
    intro n hn
    obtain ⟨way, -, hm⟩ := hplace n (hu.attached n hn)
    exact lt_of_alive (attached_alive (ht.attached_of_rootAt? hm))
  -- the nodes that either tree makes next are paired in the order in which they are made
  let g : NodeId → NodeId := fun n => if n < u.size then place n else t.size + (n - u.size)
  have hold : ∀ {n}, n < u.size → g n = place n := fun hn => if_pos hn
  have hnew : ∀ i, g (u.size + i) = t.size + i := by
    intro i
    have hge : ¬ u.size + i < u.size := Nat.not_lt.mpr (Nat.le_add_right _ _)
    rw [show g (u.size + i) = t.size + (u.size + i - u.size) from if_neg hge, Nat.add_sub_cancel_left]
  have hg : ∀ n, u.isAttached n = true → u.SamePlace t n (g n) := fun n hn => by
    rw [hold (lt_of_alive (attached_alive hn))]
    exact hplace n hn
  refine ⟨g, ?_, hnew, fun n => ?_, ?_, by rw [hu.revision, Nat.zero_add]⟩
  · intro a b hab
    rcases Nat.lt_or_ge a u.size with ha | ha <;> rcases Nat.lt_or_ge b u.size with hb | hb
    · have hsa := hg a (hu.attached a ha)
      rw [hab] at hsa
      exact hsa.symm.right_unique ht (hg b (hu.attached b hb)).symm
    · obtain ⟨i, rfl⟩ := Nat.exists_eq_add_of_le hb
      rw [hold ha, hnew] at hab
      exact absurd (hab ▸ hlt a ha) (Nat.not_lt.mpr (Nat.le_add_right _ _))
    · obtain ⟨i, rfl⟩ := Nat.exists_eq_add_of_le ha
      rw [hold hb, hnew] at hab
      exact absurd (hab ▸ hlt b hb) (Nat.not_lt.mpr (Nat.le_add_right _ _))
    · obtain ⟨i, rfl⟩ := Nat.exists_eq_add_of_le ha
      obtain ⟨j, rfl⟩ := Nat.exists_eq_add_of_le hb
      rw [hnew, hnew] at hab
      rw [Nat.add_left_cancel hab]
  · rcases Nat.lt_or_ge n u.size with hn | hn
    · exact node_of_samePlace hg hu.linked ht hd (hu.attached n hn) hu.settled hs
    · obtain ⟨i, rfl⟩ := Nat.exists_eq_add_of_le hn
      rw [hnew, node_of_size_le (Nat.le_add_right _ _), node_of_size_le hn]
      rfl
  · have hroot : ∀ {v : SyntaxTree}, v.rootAt? [] = v.root := by
      intro v
      rw [rootAt?]
      cases v.root <;> rfl
    cases hr : u.root with
    | some r =>
      obtain ⟨way, hw, hm⟩ := hg r (hu.linked.attached_root hr)
      obtain rfl : way = [] := hu.linked.rootAt?_unique hw (hroot.trans hr)
      rw [← hroot, hm, Option.map_some]
    | none =>
      rw [rootDoc?, rootDoc?, hr, Option.map_none, Option.map_eq_none_iff] at hd
      rw [hd, Option.map_none]

end TreeTidy.SyntaxTree
