import TreeTidy.Proofs.Tree.History
import TreeTidy.Proofs.Tree.Outcomes
import TreeTidy.Proofs.Tree.Survivors
/-!
Children are only ever at places that admit them: of dead nodes and detached ones as well, and whatever
operations there were. So all that checking can find wrong with a layout is an empty slot.
-/
namespace TreeTidy

open SyntaxTree (vacate occupy)

/-- Every child is at a place that admits it, and there are as many slots as in the layout. -/
structure Node.Admits (d : Node) (kind : NodeId → NodeKind) : Prop where
  length : d.slots.length = d.kind.layout.slots.length
  child : ∀ {pos c}, d.at? pos = some c → d.kind.admits pos (kind c) = true

/-- The slots that are empty may be. -/
def Node.Filled (d : Node) : Prop :=
  ∀ (i : Nat) (s : SlotSpec), d.kind.layout.slots[i]? = some s → d.at? (.slot i) = none →
    s.optional = true

/-- Every child is at a place that admits it, and there are as many slots as in the layout. -/
structure Doc.Admits (d : Doc) : Prop where
  length : d.slots.length = d.kind.layout.slots.length
  child : ∀ {pos c}, d.child? pos = some c → d.kind.admits pos c.kind = true

namespace Node

variable {d e : Node} {kind : NodeId → NodeKind} {c n : NodeId} {pos pos' : Position}
  {ns : List NodeId}

theorem Admits.list (h : d.Admits kind) (hc : c ∈ d.list) :
    d.kind.admits (.list 0) (kind c) = true := by
  obtain ⟨j, hj⟩ := List.mem_iff_getElem?.mp hc
  have hk := h.child (at?_list.mpr hj)
  exact hk

/-- A node fits its layout if its children are admitted and no slot is empty that must not be. -/
theorem fits_iff : d.kind.Fits (d.slots.map (Option.map kind)) (d.list.map kind) ↔
    d.Admits kind ∧ d.Filled := by
  have hat : ∀ i, (d.slots.map (Option.map kind))[i]?.join = (d.at? (.slot i)).map kind := by
    intro i
    rw [at?, List.getElem?_map]
    rcases d.slots[i]? with _ | _ | c <;> rfl
  rw [NodeKind.fits_iff, List.length_map]
  simp only [hat, List.forall_mem_map]
  constructor
  · rintro ⟨hlen, hs, hl⟩
    refine ⟨⟨hlen, fun {pos c} hc => ?_⟩, fun i s hi hn => ?_⟩
    · cases pos with
      | slot i =>
        have hi := (List.getElem?_eq_some_iff.mp (at?_slot.mp hc)).1
        have ht := hs i _ (List.getElem?_eq_getElem (hlen ▸ hi))
        rw [hc] at ht
        exact NodeKind.admits_slot.mpr ⟨_, List.getElem?_eq_getElem (hlen ▸ hi), ht⟩
      | list i => exact hl c (List.mem_of_getElem? hc)
    · have ht := hs i s hi
      rwa [hn] at ht
  · rintro ⟨ha, hf⟩
    refine ⟨ha.length, fun i s hi => ?_, fun c hc => ?_⟩
    · cases hc : d.at? (.slot i) with
      | none => exact hf i s hi hc
      | some c =>
        obtain ⟨s', hs', hk⟩ := NodeKind.admits_slot.mp (ha.child hc)
        obtain rfl : s = s' := Option.some.inj (hi.symm.trans hs')
        exact hk
    · exact ha.list hc

theorem at?_congr (hs : e.slots = d.slots) (hl : e.list = d.list) : e.at? pos = d.at? pos := by
  cases pos with
  | slot i => rw [at?, at?, hs]
  | list i => rw [at?, at?, hl]

theorem Admits.congr (h : d.Admits kind) (hk : e.kind = d.kind) (hs : e.slots = d.slots)
    (hl : e.list = d.list) : e.Admits kind where
  length := by rw [hs, hk, h.length]
  child hc := hk ▸ h.child ((at?_congr hs hl).symm.trans hc)

theorem Admits.of_data (h : d.Admits kind) (he : e.data = d.data) : e.Admits kind :=
  h.congr (kind_of_data he) (slots_of_data he) (list_of_data he)

theorem Thinned.admits (h : d.Thinned e ns) (hd : d.Admits kind) : e.Admits kind where
  length := by rw [h.length, h.kind, hd.length]
  child {pos c} hc := by
    rw [h.kind]
    cases pos with
    | slot i =>
      rw [h.slot, Option.filter_eq_some_iff] at hc
      exact hd.child hc.1
    | list i =>
      exact hd.list ((h.list c).mp (List.mem_of_getElem? hc)).1

theorem at?_occupy (hc : (occupy d n pos).at? pos' = some c) :
    c = n ∧ pos' = pos ∨ d.at? pos' = some c := by
  cases pos <;> cases pos'
  case slot.slot j i =>
    rw [at?_slot, occupy, List.getElem?_set] at hc
    split at hc
    next hij =>
      split at hc
      · exact .inl ⟨by simpa using hc.symm, congrArg _ hij.symm⟩
      · cases hc
    next => exact .inr (at?_slot.mpr hc)
  case list.list j i =>
    rw [at?, occupy, List.getElem?_set] at hc
    split at hc
    next hij =>
      split at hc
      · exact .inl ⟨(Option.some.inj hc).symm, congrArg _ hij.symm⟩
      · cases hc
    next => exact .inr hc
  case slot.list => exact .inr hc
  case list.slot => exact .inr hc

theorem Admits.occupy (h : d.Admits kind) (ha : d.kind.admits pos (kind n) = true) :
    (occupy d n pos).Admits kind := by
  have hk : (SyntaxTree.occupy d n pos).kind = d.kind := by cases pos <;> rfl
  refine ⟨?_, fun {pos' c} hc => ?_⟩
  · rw [hk, ← h.length]
    cases pos with
    | slot i => exact List.length_set
    | list i => rfl
  · rw [hk]
    rcases at?_occupy hc with ⟨rfl, rfl⟩ | hc
    · exact ha
    · exact h.child hc

theorem Admits.withList (h : d.Admits kind) {list : List NodeId}
    (hl : ∀ c ∈ list, d.kind.admits (.list 0) (kind c) = true) :
    ({ d with list := list } : Node).Admits kind where
  length := h.length
  child {pos c} hc := by
    cases pos with
    | slot i => exact h.child (at?_slot.mpr (at?_slot.mp hc))
    | list i => exact hl c (List.mem_of_getElem? hc)

theorem Admits.kinds {kind' : NodeId → NodeKind} (h : d.Admits kind)
    (hk : ∀ c ∈ d.children, kind' c = kind c) : d.Admits kind' where
  length := h.length
  child hc := hk _ (mem_children_iff.mpr ⟨_, hc⟩) ▸ h.child hc

theorem admits_absent : absent.Admits kind :=
  ⟨rfl, fun {pos c} hc => by cases pos <;> cases hc⟩

end Node

namespace SyntaxTree

variable {t u : SyntaxTree} {m n p : NodeId} {old new : NodeId}

theorem Linked.fits_doc (ht : t.Linked) :
    (t.doc n).Fits ↔ (t.node n).Admits t.kind ∧ (t.node n).Filled :=
  ht.fits_doc_iff.trans Node.fits_iff

theorem Linked.admits_doc (ht : t.Linked) : (t.doc n).Admits ↔ (t.node n).Admits t.kind := by
  have hlen : (t.doc n).slots.length = (t.node n).slots.length := by
    rw [ht.doc_eq, Doc.slots, List.length_map]
  constructor
  · intro h
    refine ⟨?_, fun {pos c} hc => ?_⟩
    · rw [← hlen, h.length, ht.kind_doc, kind]
    · have hcd : (t.doc n).child? pos = some (t.doc c) := by rw [ht.child?_doc, hc, Option.map_some]
      have ha := h.child hcd
      rwa [ht.kind_doc, ht.kind_doc] at ha
  · intro h
    refine ⟨?_, fun {pos x} hx => ?_⟩
    · rw [hlen, h.length, ht.kind_doc, kind]
    · rw [ht.child?_doc] at hx
      obtain ⟨c, hc, rfl⟩ := Option.map_eq_some_iff.mp hx
      rw [ht.kind_doc, ht.kind_doc]
      exact h.child hc

/-- The children of every node, dead or alive, are at places that admit them. -/
def Admitted (t : SyntaxTree) : Prop := ∀ n, (t.doc n).Admits

theorem Linked.admitted_iff (ht : t.Linked) : t.Admitted ↔ ∀ n, (t.node n).Admits t.kind :=
  forall_congr' fun _ => ht.admits_doc

theorem admitted_congr (h : ∀ n, u.doc n = t.doc n) : u.Admitted ↔ t.Admitted := by
  simp only [Admitted, h]

/-- It suffices to look at the nodes that there are. -/
theorem Linked.admitted_of_lt (ht : t.Linked) (h : ∀ n, n < t.size → (t.doc n).Admits) :
    t.Admitted := by
  intro n
  rcases Nat.lt_or_ge n t.size with hn | hn
  · exact h n hn
  · rw [ht.admits_doc, node_of_size_le hn]
    exact Node.admits_absent

theorem admitted_empty (id : Nat) : (empty id).Admitted :=
  (linked_empty id).admitted_of_lt fun n hn => absurd hn (Nat.not_lt_zero n)

/-- What is true of all that is copied is true of the copy and all below it. -/
theorem Linked.forall_copied (ht : t.Linked) {P : Doc → Prop} (n : NodeId) :
    (∀ m, (t.clone n).2.Within m (t.clone n).1 → P ((t.clone n).2.doc m)) ↔
      ∀ m, t.Within m n → P (t.doc m) := by
  have hc := ht.clone n
  rw [← hc.linked.forall_parts, hc.doc, ht.forall_parts]

section Edits

variable (ht : t.Linked) (ha : t.Admitted)
include ht ha

theorem Admitted.node (n : NodeId) : (t.node n).Admits t.kind := ht.admits_doc.mp (ha n)

theorem Admitted.unlink (n : NodeId) : (t.unlink n).Admitted := by
  refine (ht.unlink n).admitted_iff.mpr fun m => ?_
  rw [funext (kind_unlink ht)]
  by_cases hp : t.parent? n = some m
  · exact (ht.thinned_unlink (ht.parent_alive hp)).admits (ha.node ht m)
  · exact (ha.node ht m).of_data (data_unlink ht hp)

theorem Admitted.foldl_unlink (ns : List NodeId) : (ns.foldl SyntaxTree.unlink t).Admitted := by
  induction ns generalizing t with
  | nil => exact ha
  | cons n ns ih => exact ih (ht.unlink n) (ha.unlink ht n)

theorem Exchange.admitted {outs ins moved kept : List NodeId} {slots : List (Option NodeId)}
    {list : List NodeId} (h : t.Exchange p slots list moved outs ins kept)
    (hp : ({ t.node p with slots := slots, list := list } : Node).Admits t.kind) :
    (t.exchange p slots list moved outs ins).Admitted := by
  refine h.linked.admitted_iff.mpr fun m => ?_
  rw [funext h.kind]
  by_cases hm : m = p
  · rw [hm]
    exact hp.of_data h.node_self
  · have hf := (ha.foldl_unlink ht moved).node h.freed.linked m
    rw [funext h.freed.kind] at hf
    exact hf.of_data (h.data_of_ne hm)

theorem Admitted.replace? (h : t.replace? old new = some u) : u.Admitted := by
  obtain ⟨hne, ho, hr, ⟨-, hp, rfl⟩ | ⟨p, pos, hp, hat, hadm, rfl⟩⟩ := ht.replace?_cases h
  · have hl := (ht.unlink new).withRoot (detached_unlink ht hr.alive (hr.not_root ht))
    refine (admitted_congr fun n => ?_).mpr (ha.unlink ht new)
    rw [doc_bump, doc_retire hl, doc_withRoot]
  · have hx := ht.exchange_replace ho hp hat hr
    rw [admits_eq] at hadm
    have hocc := (ha.node ht p).occupy hadm
    refine (admitted_congr fun n => ?_).mpr (hx.admitted ht ha ?_)
    · rw [doc_bump, doc_update]
      exact fun _ => rfl
    · cases pos <;> exact hocc

theorem Admitted.remove? (h : t.remove? n = some u) : u.Admitted := by
  obtain ⟨ho, p, pos, hp, hat, -, rfl⟩ := ht.remove?_cases h
  have hvac := (Node.thinned_vacate (ht.nodup p) hat).admits (ha.node ht p)
  refine (admitted_congr fun n => doc_bump).mpr ((ht.exchange_remove ho hp hat).admitted ht ha ?_)
  cases pos <;> exact hvac

theorem Admitted.insertAt? {anchor : NodeId} {offset : Nat} (hoff : offset ≤ 1)
    (h : t.insertAt? anchor new offset = some u) : u.Admitted := by
  obtain ⟨han, hd, p, i, hp, hi, hadm, rfl⟩ := ht.insertAt?_cases h hoff
  have hx := ht.exchange_insert han hd hp hi hoff
  rw [admits_eq] at hadm
  refine (admitted_congr fun n => doc_bump).mpr (hx.admitted ht ha ?_)
  refine (ha.node ht p).withList fun c hc => ?_
  rcases List.eq_or_mem_of_mem_insertIdx hc with rfl | hc
  · exact hadm
  · exact (ha.node ht p).list hc

theorem Admitted.splice? {first : NodeId} {count : Nat} {news : List NodeId}
    (h : t.splice? first count news = some u) : u.Admitted := by
  obtain ⟨-, hf, p, i, spec, hp, -, -, hspec, -, hd, hr, rfl⟩ := ht.splice?_cases h
  have hx := ht.exchange_splice hf hp hd fun n hn => (hr n hn).2.1
  refine (admitted_congr fun n => ?_).mpr (hx.admitted ht ha ?_)
  · rw [doc_bump, doc_update]
    exact fun _ => rfl
  · refine (ha.node ht p).withList fun c hc => ?_
    rw [List.mem_append, List.mem_append] at hc
    rcases hc with (hc | hc) | hc
    · exact (ha.node ht p).list (List.mem_of_mem_take hc)
    · exact NodeKind.admits_list.mpr ⟨spec, hspec, (hr c hc).2.2⟩
    · exact (ha.node ht p).list (List.mem_of_mem_drop hc)

theorem Admitted.appliedTo? {c : Change} (h : c.appliedTo? t = some u) : u.Admitted := by
  cases c with
  | replace old new => exact ha.replace? ht h
  | remove n => exact ha.remove? ht h
  | insertBefore anchor new => exact ha.insertAt? ht (Nat.zero_le 1) h
  | insertAfter anchor new => exact ha.insertAt? ht (le_refl 1) h
  | splice first count news => exact ha.splice? ht h

theorem Admitted.setRoot? (h : t.setRoot? n = .ok u) : u.Admitted := by
  obtain ⟨-, rfl⟩ := setRoot?_cases h
  refine (admitted_congr fun n => ?_).mpr ha
  rw [doc_bump, doc_withRoot, doc_foldl_destroy ht]

theorem Admitted.setType (n : NodeId) (ty : Option TypeDesc) : (t.setType n ty).Admitted := by
  refine (ht.setType n ty).admitted_iff.mpr fun m => ?_
  have hk : (t.setType n ty).kind = t.kind := by
    funext m
    rw [kind, node_setType, kind]
  rw [hk, node_setType]
  exact (ha.node ht m).congr rfl rfl rfl

theorem Admitted.create? {s : NodeSpec} (h : t.create? s = .ok (n, u)) : u.Admitted := by
  have hm := ht.create? h
  obtain ⟨-, hl, hf, -⟩ := create?_eq_ok.mp h
  refine hm.linked.admitted_of_lt fun m hlt => ?_
  by_cases hmn : m = n
  · rw [hm.linked.admits_doc, hmn, hm.node]
    refine (Node.fits_iff.mp hf).1.kinds fun c hc => ?_
    have hc := lt_of_alive (isDetached_iff.mp (hl.detached c hc)).1
    exact congrArg Prod.fst (hm.grown.data hc)
  · rw [hm.size] at hlt
    rw [hm.grown.doc ht (Nat.lt_of_le_of_ne (Nat.le_of_lt_succ hlt) fun he => hmn (he.trans hm.fresh.symm))]
    exact ha m

theorem Admitted.clone (n : NodeId) : (t.clone n).2.Admitted := by
  have hc := ht.clone n
  refine hc.linked.admitted_of_lt fun m hlt => ?_
  rcases Nat.lt_or_ge m t.size with hm | hm
  · rw [hc.kept.grown.doc ht hm]
    exact ha m
  · exact (ht.forall_copied n).mpr (fun k _ => ha k) m (ht.within_clone hm hlt)

theorem Admitted.perform (op : Operation) : (op.perform t).Admitted := by
  cases op with
  | setRoot n =>
    rw [Operation.perform]
    cases h : t.setRoot? n with
    | ok u => exact ha.setRoot? ht h
    | error e => exact ha
  | create s =>
    rw [Operation.perform]
    cases h : t.create? s with
    | ok r => exact ha.create? ht h
    | error e => exact ha
  | clone n => exact ha.clone ht n
  | setType n ty => exact ha.setType ht n ty
  | change c =>
    rw [Operation.perform]
    cases h : c.appliedTo? t with
    | some u => exact ha.appliedTo? ht h
    | none => exact ha

end Edits

theorem admitted_history (id : Nat) (ops : List Operation) : (history id ops).Admitted := by
  have h : (history id (ops.take ops.length)).Linked ∧ (history id (ops.take ops.length)).Admitted :=
    forall_history (P := fun t => t.Linked ∧ t.Admitted) ⟨linked_empty id, admitted_empty id⟩
      (fun _ op _ h => ⟨h.1.perform op, h.2.perform h.1 op⟩) ops.length
  rw [List.take_length] at h
  exact h.2

section Faults

/-- The fault of a slot that is empty and must not be. -/
def emptySlot (t : SyntaxTree) (n : NodeId) (i : Nat) : Fault :=
  t.fault n ("required slot #" ++ toString i ++ " is empty")

theorem mem_slotFaults {f : Fault} {slots : List (Option NodeId)} {places : List SlotSpec} {k : Nat}
    (h : ∀ (i : Nat) (c : NodeId) (s : SlotSpec), slots[i]? = some (some c) → places[i]? = some s →
      s.admits.accepts (t.kind c) = true)
    (hf : f ∈ t.slotFaults n k slots places) : ∃ i, f = t.emptySlot n i := by
  induction slots generalizing places k with
  | nil => cases hf
  | cons o slots ih =>
    cases places with
    | nil => cases o <;> cases hf
    | cons s places =>
      have hrest : f ∈ t.slotFaults n (k + 1) slots places → ∃ i, f = t.emptySlot n i :=
        ih fun i c s hc hs => h (i + 1) c s hc hs
      cases o with
      | none =>
        rw [slotFaults] at hf
        split at hf
        · exact hrest hf
        · rcases List.mem_cons.mp hf with rfl | hf
          · exact ⟨k, rfl⟩
          · exact hrest hf
      | some c =>
        rw [slotFaults] at hf
        rw [if_pos (h 0 c s rfl rfl)] at hf
        exact hrest hf

/-- Empty slots are all that can be wrong with a layout. -/
theorem Admitted.mem_layoutFaults (ht : t.Linked) (ha : t.Admitted) {f : Fault}
    (hf : f ∈ t.layoutFaults n) : ∃ i, f = t.emptySlot n i := by
  have h := ha.node ht n
  have hlen : (t.node n).slots.length = (t.kind n).layout.slots.length := h.length
  have hlist : t.listFaults n = [] := by
    refine listFaults_eq_nil.mpr (NodeKind.listed_iff.mpr fun k hk => ?_)
    obtain ⟨c, hc, rfl⟩ := List.mem_map.mp hk
    exact h.list hc
  rw [layoutFaults_eq, hlist, if_pos hlen, List.nil_append, List.append_nil] at hf
  refine mem_slotFaults (fun i c s hc hs => ?_) hf
  obtain ⟨s', hs', hk⟩ := NodeKind.admits_slot.mp (h.child (Node.at?_slot.mpr hc))
  exact Option.some.inj (hs'.symm.trans hs) ▸ hk

theorem mem_validateFrom_layoutFaults {f : Fault} {fuel : Nat} {seen work : List NodeId}
    {v : Validation} (hf : f ∈ (t.validateFrom fuel seen work v).layoutFaults) :
    f ∈ v.layoutFaults ∨ ∃ n, f ∈ t.layoutFaults n := by
  induction fuel generalizing seen work v with
  | zero => exact .inl hf
  | succ fuel ih =>
    cases work with
    | nil => exact .inl hf
    | cons n work =>
      rw [validateFrom] at hf
      split at hf
      · have h := ih hf
        exact h
      · rcases ih hf with hf | hf
        · rcases List.mem_append.mp hf with hf | hf
          · exact .inl hf
          · exact .inr ⟨n, hf⟩
        · exact .inr hf

theorem mem_validate_layoutFaults {f : Fault} (hf : f ∈ t.validate.layoutFaults) :
    ∃ n, f ∈ t.layoutFaults n := by
  unfold validate at hf
  split at hf
  · cases hf
  · rcases mem_validateFrom_layoutFaults hf with hf | hf
    · cases hf
    · exact hf

end Faults

end SyntaxTree

end TreeTidy
