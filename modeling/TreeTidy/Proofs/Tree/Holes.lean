import TreeTidy.Proofs.Tree.Admitted
/-!
Slots that are left empty. The operations check the place that takes a node in, and not the one that a
node is taken from, as the node there is to die. There are two ways in which a slot that has to be filled
is found empty then: a node was taken out of another one that is taken in as well, or a dead node is
copied that lost a child before it died.
-/
namespace TreeTidy

open SyntaxTree (vacate occupy)

namespace Node

variable {d e : Node} {kind : NodeId → NodeKind} {c n : NodeId} {pos : Position} {ns : List NodeId}

theorem Filled.congr (h : d.Filled) (hk : e.kind = d.kind) (hs : e.slots = d.slots) : e.Filled := by
  intro i s hi hn
  rw [at?, hs] at hn
  exact h i s (hk ▸ hi) hn

/-- What is given up leaves a hole unless its slot may be empty. -/
theorem Thinned.filled_iff (h : d.Thinned e ns) (hd : d.Admits kind) (hf : d.Filled) : e.Filled ↔
    ∀ i, ∀ c ∈ ns, d.at? (.slot i) = some c → (d.kind.layout.slots[i]?).any SlotSpec.optional = true := by
  constructor
  · intro he i c hc hat
    have hi := (List.getElem?_eq_some_iff.mp (at?_slot.mp hat)).1
    have hs := List.getElem?_eq_getElem (hd.length ▸ hi)
    have ho := he i _ (by rw [h.kind, hs]) (by simp [h.slot, hat, Option.filter, hc])
    rw [hs]
    exact ho
  · intro hopt i s hs hn
    rw [h.kind] at hs
    cases hat : d.at? (.slot i) with
    | none => exact hf i s hs hat
    | some c =>
      have hc : c ∈ ns := by
        by_contra hc
        simp [h.slot, hat, Option.filter, hc] at hn
      have ho := hopt i c hc hat
      rw [hs] at ho
      exact ho

theorem Filled.occupy (h : d.Filled) (hc : d.at? pos = some c) : (occupy d n pos).Filled := by
  cases pos with
  | list j => exact h.congr rfl rfl
  | slot j =>
    intro i s hi hn
    rw [at?, SyntaxTree.occupy, List.getElem?_set] at hn
    split at hn
    next hij =>
      have hlt := (List.getElem?_eq_some_iff.mp (at?_slot.mp hc)).1
      rw [if_pos hlt] at hn
      cases hn
    next => exact h i s hi hn

end Node

/-- The slots that are empty may be. -/
def Doc.Filled (d : Doc) : Prop :=
  ∀ (i : Nat) (s : SlotSpec), d.kind.layout.slots[i]? = some s → d.child? (.slot i) = none →
    s.optional = true

namespace SyntaxTree

variable {t u : SyntaxTree} {c m n p : NodeId} {old new : NodeId} {ns : List NodeId}

theorem Linked.filled_doc (ht : t.Linked) : (t.doc n).Filled ↔ (t.node n).Filled := by
  simp only [Doc.Filled, ht.kind_doc, ht.child?_doc, Option.map_eq_none_iff]
  rfl

/-- Every living node, attached or not, has the children that its layout asks for. -/
def Filled (t : SyntaxTree) : Prop := ∀ n, t.isAlive n = true → (t.node n).Filled

theorem filled_empty (id : Nat) : (empty id).Filled := by
  intro n hn
  cases Nat.not_lt_zero n (lt_of_alive hn)

/-- Checking finds nothing wrong with the layouts then. -/
theorem Filled.no_layoutFaults (h : t.Filled) (ht : t.Linked) (ha : t.Admitted) :
    (∀ n, t.isAttached n = true → t.layoutFaults n = []) ∧ t.validate.layoutFaults = [] := by
  have hl : t.Laid := fun n hn =>
    ht.fits_doc.mpr ⟨ha.node ht n, h n (attached_alive hn)⟩
  refine ⟨fun n hn => layoutFaults_eq_nil.mpr (ht.fits_doc_iff.mp (hl n hn)), ?_⟩
  have hv := ht.validate_passed hl
  rw [Validation.passed, Bool.and_eq_true] at hv
  exact List.isEmpty_iff.mp hv.2

/-- Where no node that lives on has other slots, none is found empty. -/
theorem Filled.of_nodes (h : t.Filled) (hn : ∀ m, u.isAlive m = true → t.isAlive m = true ∧
    (u.node m).kind = (t.node m).kind ∧ (u.node m).slots = (t.node m).slots) : u.Filled := by
  intro m hm
  obtain ⟨ha, hk, hs⟩ := hn m hm
  exact (h m ha).congr hk hs

theorem filled_bump : t.bump.Filled ↔ t.Filled := Iff.rfl

theorem filled_succeed (s : Option NodeId → Option NodeId) :
    (t.update n fun d => { d with successor := s d.successor }).Filled ↔ t.Filled := by
  have hn : ∀ m, (t.update n fun d => { d with successor := s d.successor }).node m =
      { t.node m with successor :=
        if m = n ∧ m < t.size then s (t.node m).successor else (t.node m).successor } := by
    intro m
    rw [node_update]
    split <;> rfl
  constructor
  · intro h
    refine h.of_nodes fun m hm => ?_
    rw [isAlive, hn]
    exact ⟨hm, rfl, rfl⟩
  · intro h
    refine h.of_nodes fun m hm => ?_
    rw [isAlive, hn] at hm
    rw [hn]
    exact ⟨hm, rfl, rfl⟩

/-- No node of some is in or below another one of them in a slot that has to be filled. -/
def NoHole (t : SyntaxTree) (ns : List NodeId) : Prop :=
  ∀ a ∈ ns, ∀ c ∈ ns, ∀ q i, t.Within q a → t.slot? q i = some c →
    ((t.kind q).layout.slots[i]?).any SlotSpec.optional = true

theorem noHole_of_not_below (h : ∀ a ∈ ns, ∀ b ∈ ns, ¬ t.Below a b) : t.NoHole ns := by
  intro a ha c hc q i hq hs
  exact absurd (Relation.TransGen.head' (Node.mem_children_iff.mpr ⟨.slot i, hs⟩) hq) (h c hc a ha)

section Exchange

variable {outs ins moved kept : List NodeId} {slots : List (Option NodeId)} {list : List NodeId}
  (h : t.Exchange p slots list moved outs ins kept)
include h

theorem Exchange.alive_before (hm : (t.exchange p slots list moved outs ins).isAlive m = true) :
    t.isAlive m = true := by
  have hl := h.freed.linked
  rw [isAlive, exchange, node_foldl_destroy (h.graft.linked hl)] at hm
  split at hm
  · cases hm
  · rw [← h.freed.isAlive, ← h.graft.isAlive hl]
    exact hm

/-- What is taken in and has a parent is taken from it. -/
theorem Exchange.moved_of_parent {q : NodeId} (hc : c ∈ ins) (hq : t.parent? c = some q) :
    c ∈ moved := by
  by_contra hm
  have hd := (isDetached_iff.mp (h.graft.detached c hc)).2.1
  rw [h.freed.parent, if_neg hm, hq] at hd
  cases hd

/-- If the place itself is filled afterwards, then the only holes are those between the nodes that are
taken in: all else that a node is taken from dies. -/
theorem Exchange.filled_iff (ht : t.Linked) (ha : t.Admitted) (hf : t.Filled)
    (hp : ({ t.node p with slots := slots, list := list } : Node).Filled) :
    (t.exchange p slots list moved outs ins).Filled ↔ t.NoHole ins := by
  constructor
  · intro hv a hain c hc q i hq hat
    have hqa : t.isAlive q = true := (Within.alive ht hq).trans (h.reusable a hain).alive
    have hcq := ht.named (Node.mem_children_iff.mpr ⟨.slot i, hat⟩) hqa
    have hcm := h.moved_of_parent hc hcq
    obtain ⟨r, hr, hqr⟩ := h.moved_parent ht hcm hcq
    have hqp : q ≠ p := by
      rintro rfl
      exact ((h.reusable a hain).apart ht h.attached fun r hr => h.out_child hr).1 hq
    have hqf := hv q ((h.isAlive_iff ht hr hqr).mpr ⟨a, hain, hq⟩)
    exact ((h.thinned ht hqp hqa).filled_iff (ha.node ht q) (hf q hqa)).mp hqf i c hcm hat
  · intro hn m hm
    by_cases hmp : m = p
    · subst hmp
      exact hp.congr (Node.kind_of_data h.node_self) (Node.slots_of_data h.node_self)
    · have hma := h.alive_before hm
      refine ((h.thinned ht hmp hma).filled_iff (ha.node ht m) (hf m hma)).mpr fun i c hc hat => ?_
      have hcm := ht.named (Node.mem_children_iff.mpr ⟨.slot i, hat⟩) hma
      obtain ⟨r, hr, hmr⟩ := h.moved_parent ht hc hcm
      obtain ⟨a, hain, hw⟩ := (h.isAlive_iff ht hr hmr).mp hm
      exact hn a hain c (h.taken c hc) m i hw hat

end Exchange

section Changes

variable (ht : t.Linked) (ha : t.Admitted) (hf : t.Filled)

include ht hf in
/-- A node that becomes the root loses its parent, but that dies. -/
theorem Filled.root_replaced (hr : t.Reusable [old] new) :
    (((t.unlink new).withRoot new).retire old (some new)).Filled := by
  have hl := (ht.unlink new).withRoot (detached_unlink ht hr.alive (hr.not_root ht))
  have hnode := node_foldl_destroy hl [old]
  rw [SyntaxTree.retire, filled_succeed fun _ => some new]
  refine hf.of_nodes fun m hm => ?_
  have hu : ¬ ((t.unlink new).withRoot new).Under [old] m := by
    intro hu
    have hdead := congrArg Node.alive ((hnode m).trans (if_pos hu))
    exact Bool.false_ne_true (hdead.symm.trans hm)
  have hkept : (((t.unlink new).withRoot new).destroy old).node m = (t.unlink new).node m :=
    (hnode m).trans (if_neg hu)
  have hdata : ((t.unlink new).node m).data = (t.node m).data := by
    refine data_unlink ht fun hq => hu ?_
    obtain ⟨r, hmem, hmr⟩ := hr.parent_within ht hq
    obtain rfl := List.mem_singleton.mp hmem
    have hmn : ¬ t.Within m new := fun hw => ht.below_irrefl m (hw.below (ht.held hq).1)
    exact ⟨r, .head _, within_unlink ht hmr hmn⟩
  rw [isAlive, hkept] at hm
  rw [hkept]
  exact ⟨(isAlive_unlink ht m).symm.trans hm, Node.kind_of_data hdata, Node.slots_of_data hdata⟩

include ht ha hf

theorem Filled.replace? (h : t.replace? old new = some u) : u.Filled := by
  obtain ⟨-, ho, hr, ⟨-, -, rfl⟩ | ⟨p, pos, hp, hat, -, rfl⟩⟩ := ht.replace?_cases h
  · rw [filled_bump]
    exact hf.root_replaced ht hr
  · have hx := ht.exchange_replace ho hp hat hr
    have hocc : (occupy (t.node p) new pos).Filled := (hf p (attached_alive hx.attached)).occupy hat
    rw [filled_bump, filled_succeed fun _ => some new, hx.filled_iff ht ha hf]
    · exact noHole_of_not_below (ht.not_below_singleton new)
    · cases pos <;> exact hocc

theorem Filled.remove? (h : t.remove? n = some u) : u.Filled := by
  obtain ⟨ho, p, pos, hp, hat, hspare, rfl⟩ := ht.remove?_cases h
  have hx := ht.exchange_remove ho hp hat
  have hvac : (vacate (t.node p) pos).Filled := by
    have hthin := Node.thinned_vacate (ht.nodup p) hat
    refine (hthin.filled_iff (ha.node ht p) (hf p (attached_alive hx.attached))).mpr fun i c hc hi => ?_
    obtain rfl := List.mem_singleton.mp hc
    obtain rfl := Node.at?_unique (ht.nodup p) hat hi
    exact hspare
  rw [filled_bump, hx.filled_iff ht ha hf]
  · exact noHole_of_not_below nofun
  · cases pos <;> exact hvac

theorem Filled.insertAt? {anchor : NodeId} {offset : Nat} (hoff : offset ≤ 1)
    (h : t.insertAt? anchor new offset = some u) : u.Filled := by
  obtain ⟨han, hd, p, i, hp, hi, -, rfl⟩ := ht.insertAt?_cases h hoff
  have hx := ht.exchange_insert han hd hp hi hoff
  rw [filled_bump, hx.filled_iff ht ha hf]
  · exact noHole_of_not_below (ht.not_below_singleton new)
  · exact (hf p (attached_alive hx.attached)).congr rfl rfl

/-- Nodes that are put in the place of others may leave holes in each other. -/
theorem Filled.splice?_iff {first : NodeId} {count : Nat} {news : List NodeId}
    (h : t.splice? first count news = some u) : u.Filled ↔ t.NoHole news := by
  obtain ⟨-, han, p, i, spec, hp, -, -, -, -, hd, hr, rfl⟩ := ht.splice?_cases h
  have hx := ht.exchange_splice han hp hd fun n hn => (hr n hn).2.1
  rw [filled_bump, filled_succeed fun s => news.head?.or s, hx.filled_iff ht ha hf]
  exact (hf p (attached_alive hx.attached)).congr rfl rfl

end Changes

section Operations

variable (ht : t.Linked) (hf : t.Filled)
include ht hf

theorem Filled.setRoot? (h : t.setRoot? n = .ok u) : u.Filled := by
  obtain ⟨-, rfl⟩ := setRoot?_cases h
  refine hf.of_nodes fun m hm => ?_
  rw [isAlive, node_bump, node_withRoot, node_foldl_destroy ht] at hm
  rw [node_bump, node_withRoot, node_foldl_destroy ht]
  split at hm
  · cases hm
  next hu =>
    rw [if_neg hu]
    exact ⟨hm, rfl, rfl⟩

omit ht in
theorem Filled.setType (n : NodeId) (ty : Option TypeDesc) : (t.setType n ty).Filled := by
  refine hf.of_nodes fun m hm => ?_
  rw [isAlive, node_setType] at hm
  rw [node_setType]
  exact ⟨hm, rfl, rfl⟩

theorem Filled.create? {s : NodeSpec} (h : t.create? s = .ok (n, u)) : u.Filled := by
  have hm := ht.create? h
  obtain ⟨-, -, hfits, -⟩ := create?_eq_ok.mp h
  intro m ha
  by_cases hmn : m = n
  · rw [hmn, hm.node]
    exact (Node.fits_iff.mp hfits).2
  · have hlt := lt_of_alive ha
    rw [hm.size] at hlt
    have hlt := Nat.lt_of_le_of_ne (Nat.le_of_lt_succ hlt) fun he => hmn (he.trans hm.fresh.symm)
    rw [hm.grown.node hlt]
    exact hf m ((hm.grown.isAlive hlt).symm.trans ha)

/-- A copy is as good as what it is a copy of, which may be dead and have lost a part. -/
theorem Filled.clone_iff (n : NodeId) :
    (t.clone n).2.Filled ↔ ∀ m, t.Within m n → (t.node m).Filled := by
  have hc := ht.clone n
  have hcopy := ht.forall_copied (P := Doc.Filled) n
  simp only [hc.linked.filled_doc, ht.filled_doc] at hcopy
  rw [← hcopy]
  constructor
  · intro h m hm
    exact h m ((Within.alive hc.linked hm).trans (isDetached_iff.mp hc.detached).1)
  · intro h m ha
    rcases Nat.lt_or_ge m t.size with hlt | hge
    · rw [hc.kept.node hlt]
      exact hf m ((hc.kept.grown.isAlive hlt).symm.trans ha)
    · exact h m (ht.within_clone hge (lt_of_alive ha))

end Operations

/-- An operation that leaves no hole: no node that is put in the place of others is taken out of another
one where it has to be, and what is copied is complete. -/
def Operation.LeavesNoHole (t : SyntaxTree) : Operation → Prop
  | clone n => ∀ m, t.Within m n → (t.node m).Filled
  | change (.splice first count news) => (t.splice? first count news).isSome = true → t.NoHole news
  | setRoot _ | create _ | setType _ _ | change (.replace _ _) | change (.remove _)
  | change (.insertBefore _ _) | change (.insertAfter _ _) => True

/-- After an operation, all slots are filled that have to be if and only if it leaves no hole. -/
theorem Operation.filled_perform_iff (ht : t.Linked) (ha : t.Admitted) (hf : t.Filled)
    (op : Operation) : (op.perform t).Filled ↔ op.LeavesNoHole t := by
  cases op with
  | setRoot n =>
    refine iff_of_true ?_ trivial
    rw [perform]
    cases h : t.setRoot? n with
    | error e => exact hf
    | ok u => exact hf.setRoot? ht h
  | create s =>
    refine iff_of_true ?_ trivial
    rw [perform]
    cases h : t.create? s with
    | error e => exact hf
    | ok r => exact hf.create? ht h
  | clone n => exact hf.clone_iff ht n
  | setType n ty => exact iff_of_true (hf.setType n ty) trivial
  | change c =>
    rw [perform]
    cases h : c.appliedTo? t with
    | none => cases c with
      | splice first count news =>
        have h : t.splice? first count news = none := h
        refine iff_of_true hf fun hsome => ?_
        rw [h] at hsome
        cases hsome
      | _ => exact iff_of_true hf trivial
    | some u => cases c with
      | replace old new => exact iff_of_true (hf.replace? ht ha h) trivial
      | remove n => exact iff_of_true (hf.remove? ht ha h) trivial
      | insertBefore anchor new => exact iff_of_true (hf.insertAt? ht ha (Nat.zero_le 1) h) trivial
      | insertAfter anchor new => exact iff_of_true (hf.insertAt? ht ha (le_refl 1) h) trivial
      | splice first count news =>
        have h : t.splice? first count news = some u := h
        exact (hf.splice?_iff ht ha h).trans ⟨fun hn _ => hn, fun hn => hn (by rw [h]; rfl)⟩

section Histories

theorem history_filled_succ {ops : List Operation} {op : Operation} {k : Nat} (id : Nat)
    (h : ops[k]? = some op) (hf : (history id (ops.take k)).Filled) :
    (history id (ops.take (k + 1))).Filled ↔ op.LeavesNoHole (history id (ops.take k)) := by
  rw [history_succ id h]
  exact op.filled_perform_iff (linked_history id _) (admitted_history id _) hf

/-- All that can be found wrong with the layouts is an empty slot. At no time is there one in a living
node, attached or not, if and only if no operation leaves a hole; and then nothing is found wrong. -/
theorem history_layouts (id : Nat) (ops : List Operation) :
    (∀ f ∈ (history id ops).validate.layoutFaults, ∃ n i, f = (history id ops).emptySlot n i) ∧
    ((∀ k, (history id (ops.take k)).Filled) ↔
      ∀ k (op : Operation), ops[k]? = some op → op.LeavesNoHole (history id (ops.take k))) ∧
    ((history id ops).Filled →
      (∀ n, (history id ops).isAttached n = true → (history id ops).layoutFaults n = []) ∧
      (history id ops).validate.layoutFaults = []) := by
  have ht := linked_history id ops
  have ha := admitted_history id ops
  refine ⟨fun f hf => ?_, ⟨fun h k op hop => ?_, fun h => ?_⟩, fun h => h.no_layoutFaults ht ha⟩
  · obtain ⟨n, hn⟩ := mem_validate_layoutFaults hf
    exact ⟨n, ha.mem_layoutFaults ht hn⟩
  · exact (history_filled_succ id hop (h k)).mp (h (k + 1))
  · refine forall_history (filled_empty id) fun k op hop hf => ?_
    rw [← history_succ id hop]
    exact (history_filled_succ id hop hf).mpr (h k op hop)

/-- A loop takes the place of the block that it is in, and its body comes right after it: the loop lives
on without a body. -/
theorem nestedSplice_leaves_hole : ∃ t, t = history 1
      [.create ⟨.nameExpr "x", Span.none, none, [], []⟩, .create ⟨.emptyStmt, Span.none, none, [], []⟩,
        .create ⟨.whileLoop, Span.none, none, [some 0, some 1], []⟩,
        .create ⟨.block, Span.none, none, [], [2]⟩, .create ⟨.block, Span.none, none, [], [3]⟩,
        .setRoot 4, .change (.splice 3 1 [2, 1])] ∧
    t.isAttached 2 = true ∧ t.layoutFaults 2 = [t.emptySlot 2 1] ∧
    t.validate.layoutFaults = [t.emptySlot 2 1] :=
  ⟨_, rfl, rfl, rfl, rfl⟩

/-- A copy of a node that died when its part took its place lacks that part. -/
example : (history 1
      [.create ⟨.nameExpr "x", Span.none, none, [], []⟩, .create ⟨.paren, Span.none, none, [some 0], []⟩,
        .setRoot 1, .change (.replace 1 0), .clone 1, .setRoot 2]).validate.passed = false := rfl

/-- A copy of a living node, or nodes in the place of others of which none is below another one; or any
other operation. -/
def Operation.Plain (t : SyntaxTree) : Operation → Prop
  | clone n => t.isAlive n = true
  | change (.splice _ _ news) => ∀ a ∈ news, ∀ b ∈ news, t.isAncestor a b = false
  | setRoot _ | create _ | setType _ _ | change (.replace _ _) | change (.remove _)
  | change (.insertBefore _ _) | change (.insertAfter _ _) => True

theorem Operation.Plain.leavesNoHole {op : Operation} (h : op.Plain t) (ht : t.Linked)
    (hf : t.Filled) : op.LeavesNoHole t := by
  cases op with
  | clone n => exact fun m hm => hf m ((Within.alive ht hm).trans h)
  | setRoot n => trivial
  | create s => trivial
  | setType n ty => trivial
  | change c =>
    cases c with
    | splice first count news =>
      intro hsome
      obtain ⟨u, hu⟩ := Option.isSome_iff_exists.mp hsome
      obtain ⟨-, -, p, i, spec, -, -, -, -, -, -, hr, -⟩ := ht.splice?_cases hu
      have halive : ∀ n ∈ news, t.isAlive n = true := fun n hm => (hr n hm).2.1.alive
      exact noHole_of_not_below (ht.not_below_of_not_isAncestor halive h)
    | _ => trivial

/-- With plain operations only, no slot is ever empty that has to be filled. -/
theorem filled_history_of_plain {id : Nat} {ops : List Operation}
    (h : ∀ k (op : Operation), ops[k]? = some op → op.Plain (history id (ops.take k))) (k : Nat) :
    (history id (ops.take k)).Filled := by
  refine forall_history (filled_empty id) (fun k op hop hf => ?_) k
  have hn := (h k op hop).leavesNoHole (linked_history id _) hf
  exact (op.filled_perform_iff (linked_history id _) (admitted_history id _) hf).mpr hn

end Histories

end SyntaxTree

end TreeTidy
