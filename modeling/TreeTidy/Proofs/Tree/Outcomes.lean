import TreeTidy.Proofs.Tree.Effects
import TreeTidy.Proofs.Tree.Growth
import TreeTidy.Proofs.Tree.Laid
/-!
Edits that apply, and what becomes of the document of the root: it is exchanged at one place, and the
tree counts one change more.
-/
namespace TreeTidy

/-- The document with other list children. -/
def Doc.withList (d : Doc) (list : List Doc) : Doc := .node d.kind d.span d.ty d.slots list

/-- Every list may be empty. -/
theorem least_eq_zero (k : NodeKind) : (k.layout.list.map ListSpec.least).getD 0 = 0 := by
  cases k <;> rfl

/-- As every list may be empty, it is enough that each list child is admitted. -/
theorem NodeKind.listed_iff {k : NodeKind} {list : List NodeKind} :
    ((k.layout.list = none → list = []) ∧ ∀ s, k.layout.list = some s →
      s.least ≤ list.length ∧ ∀ c ∈ list, s.admits.accepts c = true) ↔
    ∀ c ∈ list, k.admits (.list 0) c = true := by
  constructor
  · rintro ⟨hn, hs⟩ c hc
    cases hl : k.layout.list with
    | none =>
      rw [hn hl] at hc
      cases hc
    | some s => exact NodeKind.admits_list.mpr ⟨s, hl, (hs s hl).2 c hc⟩
  · intro h
    refine ⟨fun hn => ?_, fun s hs => ⟨?_, fun c hc => ?_⟩⟩
    · cases list with
      | nil => rfl
      | cons c list =>
        obtain ⟨s, hs, -⟩ := NodeKind.admits_list.mp (h c (.head _))
        cases hn.symm.trans hs
    · have hz := least_eq_zero k
      rw [hs, Option.map_some, Option.getD_some] at hz
      exact hz ▸ Nat.zero_le _
    · obtain ⟨s', hs', ha⟩ := NodeKind.admits_list.mp (h c hc)
      exact Option.some.inj (hs'.symm.trans hs) ▸ ha

/-- The kinds of children fit a layout if each fits in its place. -/
theorem NodeKind.fits_iff {k : NodeKind} {slots : List (Option NodeKind)} {list : List NodeKind} :
    k.Fits slots list ↔ slots.length = k.layout.slots.length ∧
      (∀ (i : Nat) (s : SlotSpec), k.layout.slots[i]? = some s → s.takes slots[i]?.join = true) ∧
      ∀ c ∈ list, k.admits (.list 0) c = true := by
  rw [← NodeKind.listed_iff]
  constructor
  · intro h
    have hlen := h.slots.length_eq
    refine ⟨hlen, fun i s hs => ?_, h.unlisted, h.listed⟩
    obtain ⟨hi, rfl⟩ := List.getElem?_eq_some_iff.mp hs
    have ht := (List.forall₂_iff_get.mp h.slots).2 i (hlen ▸ hi) hi
    rwa [List.getElem?_eq_getElem (hlen ▸ hi), Option.join_some]
  · rintro ⟨hlen, hs, hn, hl⟩
    refine ⟨List.forall₂_iff_get.mpr ⟨hlen, fun i hi hi' => ?_⟩, hn, hl⟩
    have ht := hs i _ (List.getElem?_eq_getElem hi')
    rwa [List.getElem?_eq_getElem hi, Option.join_some] at ht

/-- The list children can be exchanged for any that the place admits. -/
theorem Doc.Conforms.withList {d : Doc} {list : List Doc} (h : d.Conforms)
    (hl : ∀ x ∈ list, x.Conforms ∧ d.kind.admits (.list 0) x.kind = true) :
    (d.withList list).Conforms := by
  obtain ⟨hlen, hs, -⟩ := NodeKind.fits_iff.mp h.fits
  refine conforms_iff.mpr ⟨NodeKind.fits_iff.mpr ⟨hlen, hs, ?_⟩, ?_⟩
  · intro k hk
    obtain ⟨x, hx, rfl⟩ := List.mem_map.mp hk
    exact (hl x hx).2
  · intro pos c hc
    cases pos with
    | slot i => exact (conforms_iff.mp h).2 (.slot i) c hc
    | list i => exact (hl c (List.mem_of_getElem? hc)).1

namespace SyntaxTree

variable {t u v : SyntaxTree} {n p r : NodeId} {old new first : NodeId} {i count : Nat}
  {way : List Position} {pos : Position} {D : Doc}

/-- The document changes at the place of a node only, by one change. -/
structure Becomes (t : SyntaxTree) (p : NodeId) (D : Doc) (u : SyntaxTree) : Prop where
  linked : u.Linked
  revision : u.revision = t.revision + 1
  rootDoc : ∀ {r way}, t.root = some r → t.at? r way = some p →
    u.rootDoc? = some ((t.doc r).put way D)

/-- One node holds another list of children, and all other attached nodes hold what they held. -/
structure Relisted (t : SyntaxTree) (p : NodeId) (list : List NodeId) (u : SyntaxTree) : Prop where
  linked : u.Linked
  root : u.root = t.root
  data : ∀ {m}, t.isAttached m = true → m ≠ p → (u.node m).data = (t.node m).data
  place : (u.node p).data = ({ t.node p with list := list } : Node).data

/-- A document takes the place of list children. -/
structure Spliced (t : SyntaxTree) (p : NodeId) (i count : Nat) (D : Doc) (u : SyntaxTree) :
    Prop where
  becomes : t.Becomes p ((t.doc p).withList (((t.list p).take i).map t.doc ++ [D] ++
    ((t.list p).drop (i + count)).map t.doc)) u
  relisted : ∃ new, u.doc new = D ∧
    t.Relisted p ((t.list p).take i ++ [new] ++ (t.list p).drop (i + count)) u

theorem Relisted.of_extends {list : List NodeId} (hv : u.Relisted p list v) (h : t.Extends u)
    (ht : t.Linked) (hu : u.Linked) (hp : p < t.size) : t.Relisted p list v where
  linked := hv.linked
  root := hv.root.trans h.root
  data hm hne := by
    rw [hv.data ((h.grown.attached_iff ht hu).mpr hm) hne, h.node (lt_of_alive (attached_alive hm))]
  place := by rw [hv.place, h.node hp]

theorem Grown.at? (h : t.Grown u) (ht : t.Linked) (hn : n < t.size) (way : List Position) :
    u.at? n way = t.at? n way := by
  induction way generalizing n with
  | nil => rfl
  | cons pos way ih =>
    have hp : (u.node n).at? pos = (t.node n).at? pos := by
      rw [h.node hn]
      cases pos <;> rfl
    rw [SyntaxTree.at?, SyntaxTree.at?, hp]
    cases hc : (t.node n).at? pos with
    | none => rfl
    | some c => exact ih (ht.child (Node.mem_children_iff.mpr ⟨pos, hc⟩)).1

/-- A change that is made after the tree has grown is a change of the tree before, too. -/
theorem Becomes.of_extends (hb : u.Becomes p D v) (h : t.Extends u) (ht : t.Linked) :
    t.Becomes p D v where
  linked := hb.linked
  revision := by rw [hb.revision, h.revision]
  rootDoc {r way} hr hw := by
    have hlt := lt_of_alive (ht.root hr).1
    rw [← h.grown.doc ht hlt]
    exact hb.rootDoc (h.root.trans hr) ((h.grown.at? ht hlt way).trans hw)

theorem doc_retire (ht : t.Linked) {s : Option NodeId} : (t.retire old s).doc n = t.doc n := by
  have hd := doc_foldl_destroy (n := n) ht [old]
  rw [SyntaxTree.retire, doc_update]
  · exact hd
  · exact fun _ => rfl

theorem rootDoc?_congr (hr : u.root = t.root) (hd : ∀ n, u.doc n = t.doc n) :
    u.rootDoc? = t.rootDoc? := by
  rw [rootDoc?, hr, rootDoc?, funext hd]

theorem rootDoc?_bump : t.bump.rootDoc? = t.rootDoc? := rootDoc?_congr rfl fun _ => doc_bump

theorem rootDoc?_update {f : Node → Node} (hf : ∀ d, (f d).data = d.data) :
    (t.update n f).rootDoc? = t.rootDoc? := rootDoc?_congr rfl fun _ => doc_update hf

theorem Reusable.ne (ht : t.Linked) (h : t.Reusable [old] new) (ho : t.isAttached old = true) :
    old ≠ new := by
  rintro rfl
  rcases h with h | ⟨r, hr, -, hb⟩
  · rw [ht.not_attached_of_detached h] at ho
    cases ho
  · rw [List.mem_singleton.mp hr] at hb
    exact ht.below_irrefl _ hb

section

variable (ht : t.Linked)
include ht

/-- The way to a child leads over its parent. -/
theorem Linked.way_parent (hr : t.root = some r) (hp : t.isAttached p = true)
    (hc : (t.node p).at? pos = some n) (hw : t.at? r way = some n) :
    ∃ front, t.at? r front = some p ∧ way = front ++ [pos] := by
  obtain ⟨r', hr', hpr⟩ := ht.isAttached_iff.mp hp
  obtain rfl : r = r' := Option.some.inj (hr.symm.trans hr')
  obtain ⟨front, hf⟩ := exists_at? hpr
  refine ⟨front, hf, ht.at?_unique (ht.root hr).1 hw ?_⟩
  rw [at?_append, hf, Option.bind_some, at?_cons hc, at?]

theorem Linked.exists_position (h : t.parent? n = some p) : ∃ pos, t.position? n = some pos ∧
    (t.node p).at? pos = some n := by
  obtain ⟨pos, hc⟩ := Node.mem_children_iff.mp (ht.held h).1
  exact ⟨pos, (ht.position?_eq_some h).mpr hc, hc⟩

/-- A node alone is not below itself. -/
theorem Linked.not_below_singleton (n : NodeId) : ∀ a ∈ [n], ∀ b ∈ [n], ¬ t.Below a b := by
  intro a ha b hb
  rw [List.mem_singleton.mp ha, List.mem_singleton.mp hb]
  exact ht.below_irrefl n

theorem Linked.not_below_of_not_isAncestor {ns : List NodeId} (ha : ∀ n ∈ ns, t.isAlive n = true)
    (hn : ∀ a ∈ ns, ∀ b ∈ ns, t.isAncestor a b = false) : ∀ a ∈ ns, ∀ b ∈ ns, ¬ t.Below a b := by
  intro a hma b hmb hab
  have hba := ht.isAncestor_iff.mpr ⟨ha a hma, hab⟩
  rw [hn b hmb a hma] at hba
  cases hba

/-- Where a child is replaced, the document of its parent has another part there. -/
theorem Linked.doc_replace {kept : List NodeId} (hx : t.Exchange p (occupy (t.node p) new pos).slots
    (occupy (t.node p) new pos).list [new] [old] [new] kept) :
    (t.exchange p (occupy (t.node p) new pos).slots (occupy (t.node p) new pos).list [new] [old]
      [new]).doc p = (t.doc p).setChild (t.doc new) pos := by
  rw [hx.doc_parts ht (ht.not_below_singleton new), ht.doc_eq p]
  cases pos with
  | slot i => simp [occupy, Doc.setChild, Doc.kind, Doc.span, Doc.ty, Doc.slots, Doc.list, List.map_set]
  | list i => simp [occupy, Doc.setChild, Doc.kind, Doc.span, Doc.ty, Doc.slots, Doc.list, List.map_set]

section Replace

variable (ho : t.isAttached old = true) (hn : t.Reusable [old] new)
  (ha : ∀ p pos, t.parent? old = some p → (t.node p).at? pos = some old →
    (t.kind p).admits pos (t.kind new) = true)
include ho hn ha

theorem Linked.replace?_isSome : ∃ u, t.replace? old new = some u := by
  have hc : (decide (old = new) || !t.isAttached old || !t.isAlive new) = false := by
    simp [hn.ne ht ho, ho, hn.alive]
  have hd : (!t.isDetached new && !t.isAncestor old new) = false := by
    rcases hn with hd | ⟨r, hr, halive, hb⟩
    · simp [hd]
    · rw [List.mem_singleton.mp hr] at hb
      simp [ht.isAncestor_iff.mpr ⟨halive, hb⟩]
  unfold SyntaxTree.replace?
  rw [hc, hd]
  cases hp : t.parent? old with
  | none => exact ⟨_, rfl⟩
  | some p =>
    obtain ⟨pos, hpos, hat⟩ := ht.exists_position hp
    simp only [hpos, admits_eq, ha p pos hp hat]
    exact ⟨_, rfl⟩

theorem Linked.replace_becomes : ∃ u, t.replace? old new = some u ∧ t.Becomes old (t.doc new) u := by
  obtain ⟨u, hu⟩ := ht.replace?_isSome ho hn ha
  refine ⟨u, hu, ht.replace? hu, ?_, fun {r way} hr hw => ?_⟩
  all_goals
    obtain ⟨hne, -, -, ⟨hroot, hp, rfl⟩ | ⟨p, pos, hp, hat, -, rfl⟩⟩ := ht.replace?_cases hu
  · simp [SyntaxTree.retire, (marks_unlink t new).2.2.2]
  · simp [((ht.exchange_replace ho hp hat hn).marks).2.2.2]
  · -- the new node is the root
    obtain rfl : old = r := Option.some.inj (hroot.symm.trans hr)
    obtain rfl : way = [] := ht.at?_unique (ht.root hr).1 hw rfl
    have hd := detached_unlink ht hn.alive (hn.not_root ht)
    have hl := (ht.unlink new).withRoot hd
    have hroot : (((t.unlink new).withRoot new).retire old (some new)).root = some new := by
      simp [SyntaxTree.retire]
    rw [SyntaxTree.rootDoc?, root_bump, hroot, Option.map_some, doc_bump, doc_retire hl, doc_withRoot,
      doc_unlink_self ht, Doc.put_nil]
  · -- the parent of the old node has the new one in its place
    have hx := ht.exchange_replace ho hp hat hn
    obtain ⟨front, hf, rfl⟩ := ht.way_parent hr (ht.attached_parent ho hp) hat hw
    have hcd : (t.doc p).child? pos = some (t.doc old) := by rw [ht.child?_doc, hat, Option.map_some]
    have hpd : (t.doc r).at? front = some (t.doc p) := by rw [ht.at?_doc, hf, Option.map_some]
    rw [rootDoc?_bump, rootDoc?_update, hx.rootDoc? ht hr hf, Doc.put_append hpd, Doc.put_cons hcd,
      Doc.put_nil, ht.doc_replace hx]
    exact fun _ => rfl

end Replace

theorem Linked.remove?_isSome (hn : t.isAttached n = true) (hp : t.parent? n = some p)
    (hi : (t.list p)[i]? = some n) : ∃ u, t.remove? n = some u := by
  have hpos : t.position? n = some (.list i) := (ht.position?_eq_some hp).mpr hi
  have hlen : 0 < (t.list p).length := Nat.zero_lt_of_lt (List.getElem?_eq_some_iff.mp hi).1
  unfold SyntaxTree.remove?
  simp [hn, hp, hpos, least_eq_zero, hlen]

/-- A list child can always be removed. -/
theorem Linked.remove_becomes (hn : t.isAttached n = true) (hp : t.parent? n = some p)
    (hi : (t.list p)[i]? = some n) : ∃ u, t.remove? n = some u ∧
      t.Becomes p ((t.doc p).withList (((t.list p).eraseIdx i).map t.doc)) u := by
  obtain ⟨u, hu⟩ := ht.remove?_isSome hn hp hi
  obtain ⟨-, q, pos, hq, hat, -, rfl⟩ := ht.remove?_cases hu
  obtain rfl : p = q := Option.some.inj (hp.symm.trans hq)
  obtain rfl : pos = .list i := Node.at?_unique (ht.nodup p) hat hi
  have hx := ht.exchange_remove hn hp hat
  refine ⟨_, hu, ht.remove? hu, ?_, fun {r way} hr hw => ?_⟩
  · rw [revision_bump, hx.marks.2.2.2]
  · rw [rootDoc?_bump, hx.rootDoc? ht hr hw, hx.doc_parts ht nofun, ht.doc_eq p]
    rfl

theorem Linked.splice?_isSome (hf : t.isAttached first = true) (hp : t.parent? first = some p)
    (hi : (t.list p)[i]? = some first) (hl : i + count ≤ (t.list p).length) (hc : 0 < count)
    (hd : t.isDetached new = true) (ha : (t.kind p).admits (.list i) (t.kind new) = true) :
    ∃ u, t.splice? first count [new] = some u := by
  obtain ⟨spec, hs, hk⟩ := NodeKind.admits_list.mp ha
  have hli := ht.listIndex?_eq_some.mpr ⟨hp, hi⟩
  have hw := ht.window?_eq_some.mpr ⟨p, i, hp, hi, hl, rfl⟩
  have hleast := least_eq_zero (t.kind p)
  rw [hs, Option.map_some, Option.getD_some] at hleast
  have hnone := (isDetached_iff.mp hd).2.1
  have hnew : new ∉ ((t.list p).drop i).take count := by
    intro hm
    have hb : t.Child new p := List.mem_append_right _ (List.mem_of_mem_drop (List.mem_of_mem_take hm))
    rw [ht.named hb (ht.parent_alive hp)] at hnone
    cases hnone
  have hcan : t.canSplice (((t.list p).drop i).take count) spec.admits new = true :=
    ht.canSplice_iff.mpr ⟨hnew, .inl hd, hk⟩
  unfold SyntaxTree.splice?
  simp [hf, hc.ne', hli, hw, hs, hleast, hcan]

/-- A detached node can always take the place of list children. -/
theorem Linked.splice_becomes (hf : t.isAttached first = true) (hp : t.parent? first = some p)
    (hi : (t.list p)[i]? = some first) (hl : i + count ≤ (t.list p).length) (hc : 0 < count)
    (hd : t.isDetached new = true) (ha : (t.kind p).admits (.list i) (t.kind new) = true) :
    ∃ u, t.splice? first count [new] = some u ∧ t.Becomes p ((t.doc p).withList
      (((t.list p).take i ++ [new] ++ (t.list p).drop (i + count)).map t.doc)) u := by
  obtain ⟨u, hu⟩ := ht.splice?_isSome hf hp hi hl hc hd ha
  obtain ⟨-, -, q, j, spec, hq, hj, -, -, -, hn, hr, rfl⟩ := ht.splice?_cases hu
  obtain rfl : p = q := Option.some.inj (hp.symm.trans hq)
  obtain rfl : i = j := by
    have hat : (t.node p).at? (.list i) = some first := hi
    have hat' : (t.node p).at? (.list j) = some first := hj
    simpa using Node.at?_unique (ht.nodup p) hat hat'
  have hx := ht.exchange_splice hf hp hn fun n hm => (hr n hm).2.1
  refine ⟨_, hu, ht.splice? hu, ?_, fun {r way} hr hw => ?_⟩
  · rw [revision_bump, revision_update, hx.marks.2.2.2]
  · rw [rootDoc?_bump, rootDoc?_update, hx.rootDoc? ht hr hw,
      hx.doc_parts ht (ht.not_below_singleton new), ht.doc_eq p]
    · rfl
    · exact fun _ => rfl

theorem Linked.splice_relisted (hp : t.parent? first = some p) (hi : (t.list p)[i]? = some first)
    (hd : t.isDetached new = true) (h : t.splice? first count [new] = some u) : u.doc new = t.doc new ∧
      t.Relisted p ((t.list p).take i ++ [new] ++ (t.list p).drop (i + count)) u := by
  obtain ⟨-, hf, q, j, spec, hq, hj, -, -, -, hn, hr, rfl⟩ := ht.splice?_cases h
  obtain rfl : p = q := Option.some.inj (hp.symm.trans hq)
  obtain rfl : i = j := by
    have hat : (t.node p).at? (.list i) = some first := hi
    have hat' : (t.node p).at? (.list j) = some first := hj
    simpa using Node.at?_unique (ht.nodup p) hat hat'
  have hx := ht.exchange_splice hf hp hn fun n hm => (hr n hm).2.1
  -- as the new node is detached, it is not taken from any other
  have hmoved : [new].filter (fun n => !t.isDetached n) = [] := by simp [hd]
  have hdata : ∀ {s : SyntaxTree} {m}, ((s.update first fun d =>
      { d with successor := [new].head?.or d.successor }).bump.node m).data = (s.node m).data := by
    intro s m
    rw [node_bump, node_update]
    split <;> rfl
  refine ⟨?_, ht.splice? h, ?_, fun {m} _ hne => ?_, ?_⟩
  · rw [doc_bump, doc_update, hx.doc_taken ht (ht.not_below_singleton new) (.head _)]
    exact fun _ => rfl
  · exact hx.marks.2.1
  · rw [hdata, hx.data hne]
    intro n hm
    rw [hmoved] at hm
    cases hm
  · rw [hdata]
    exact hx.node_self

end

end SyntaxTree

end TreeTidy
