import TreeTidy.Proofs.Tree.History
import TreeTidy.Proofs.Tree.Outcomes
import TreeTidy.Proofs.Tree.Revision
/-!
What the operations are on documents. A node stands for its document, and each operation, on whatever
tree it is carried out, does to the document of the root what it says, at one place and nowhere else. A
detached node stands aside: an operation that does not take it in leaves it detached, with its document.
-/
namespace TreeTidy

/-- The nodes that a change puts into the tree. -/
def Change.taken : Change → List NodeId
  | replace _ new | insertBefore _ new | insertAfter _ new => [new]
  | remove _ => []
  | splice _ _ news => news

namespace SyntaxTree

variable {t u : SyntaxTree} {m n p : NodeId} {ns : List NodeId}

/-- A node is detached in the later tree, with the document that it had. -/
structure LeavesAside (t u : SyntaxTree) (m : NodeId) : Prop where
  detached : u.isDetached m = true
  doc : u.doc m = t.doc m

theorem LeavesAside.refl (h : t.isDetached m = true) : t.LeavesAside t m := ⟨h, rfl⟩

theorem LeavesAside.bump (h : t.LeavesAside u m) : t.LeavesAside u.bump m :=
  ⟨h.detached, doc_bump.trans h.doc⟩

theorem isDetached_update {f : Node → Node} (ha : ∀ d, (f d).alive = d.alive)
    (hp : ∀ d, (f d).parent = d.parent) : (t.update n f).isDetached m = t.isDetached m := by
  have h : (t.update n f).isAlive m = t.isAlive m ∧ (t.update n f).parent? m = t.parent? m := by
    rw [isAlive, parent?, node_update]
    split
    · exact ⟨ha _, hp _⟩
    · exact ⟨rfl, rfl⟩
  rw [isDetached, h.1, h.2, root_update, isDetached]

/-- Who took the place of another node is no matter. -/
theorem LeavesAside.succeed (h : t.LeavesAside u m) (s : Option NodeId → Option NodeId) :
    t.LeavesAside (u.update n fun d => { d with successor := s d.successor }) m := by
  refine ⟨(isDetached_update ?_ ?_).trans h.detached, (doc_update ?_).trans h.doc⟩ <;>
    exact fun _ => rfl

theorem isDetached_withRoot (hm : t.isDetached m = true) (hn : m ≠ n) :
    (t.withRoot n).isDetached m = true := by
  obtain ⟨ha, hp, -⟩ := isDetached_iff.mp hm
  exact isDetached_iff.mpr ⟨ha, hp, fun he => hn (Option.some.inj he).symm⟩

section Linked

variable (ht : t.Linked)
include ht

/-- A detached node is below no other one. -/
theorem Linked.within_of_detached (hm : t.isDetached m = true) (h : t.Within m n) : m = n := by
  obtain ⟨ha, hp, -⟩ := isDetached_iff.mp hm
  rcases Relation.ReflTransGen.cases_head h with he | ⟨q, hq, -⟩
  · exact he
  · rw [ht.parent_iff.mpr ⟨hq, ha⟩] at hp
    cases hp

theorem Linked.isDetached_foldl_destroy (hm : t.isDetached m = true) (hn : m ∉ ns) :
    (ns.foldl SyntaxTree.destroy t).isDetached m = true := by
  have hu : ¬ t.Under ns m := fun ⟨n, hmem, hw⟩ => hn (ht.within_of_detached hm hw ▸ hmem)
  rw [isDetached, isAlive, parent?, node_foldl_destroy ht, if_neg hu, (marks_foldl_destroy _ _).2.1]
  exact hm

theorem isDetached_unlink (hm : t.isDetached m = true) : (t.unlink n).isDetached m = true := by
  obtain ⟨ha, hp, hr⟩ := isDetached_iff.mp hm
  refine isDetached_iff.mpr ⟨(isAlive_unlink ht m).trans ha, ?_, (marks_unlink t n).2.1 ▸ hr⟩
  rw [parent_unlink ht, hp, ite_self]

/-- Nothing attached is below a detached node, so its document is that of other nodes. -/
theorem Linked.doc_of_detached (hm : t.isDetached m = true) (hs : t.size ≤ u.size)
    (h : ∀ k, t.isAttached k = false → (u.node k).data = (t.node k).data) : u.doc m = t.doc m := by
  refine ht.doc_congr hs fun k hk => h k ?_
  by_contra ha
  exact ht.not_within_detached (by simpa using ha) hm hk

theorem Exchange.leavesAside {outs ins moved kept : List NodeId} {slots : List (Option NodeId)}
    {list : List NodeId} (h : t.Exchange p slots list moved outs ins kept)
    (hm : t.isDetached m = true) (hi : m ∉ ins) :
    t.LeavesAside (t.exchange p slots list moved outs ins) m where
  detached := by
    have hl := h.freed.linked
    have ho : m ∉ outs := by
      intro ho
      have hp := ht.named (h.out_child ho) (attached_alive h.attached)
      rw [(isDetached_iff.mp hm).2.1] at hp
      cases hp
    obtain ⟨ha, hp, hr⟩ := isDetached_iff.mp hm
    refine (h.graft.linked hl).isDetached_foldl_destroy (isDetached_iff.mpr ⟨?_, ?_, ?_⟩) ho
    · rw [h.graft.isAlive hl, h.freed.isAlive, ha]
    · rw [h.graft.parent? hl, if_neg hi, h.freed.parent, hp, ite_self, ite_self]
    · rwa [root_regraft, h.freed.marks.2.1]
  doc := by
    refine ht.doc_of_detached hm (h.marks).1.ge fun k hk => h.data ?_ ?_
    · rintro rfl
      rw [h.attached] at hk
      cases hk
    · intro n hn hp
      obtain ⟨r, hr, hkr⟩ := h.moved_parent ht hn hp
      rw [ht.attached_of_within (ht.attached_child h.attached (h.out_child hr)) hkr] at hk
      cases hk

theorem Linked.leavesAside_root {old new : NodeId} (hr : t.Reusable [old] new)
    (ho : t.isAttached old = true) (hm : t.isDetached m = true) (hn : m ≠ new) :
    t.LeavesAside (((t.unlink new).withRoot new).retire old (some new)) m := by
  have hl := (ht.unlink new).withRoot (detached_unlink ht hr.alive (hr.not_root ht))
  have hmo : m ∉ [old] := by
    intro he
    rw [List.mem_singleton.mp he] at hm
    rw [ht.not_attached_of_detached hm] at ho
    cases ho
  have hd := hl.isDetached_foldl_destroy (isDetached_withRoot (isDetached_unlink ht hm) hn) hmo
  refine ⟨(isDetached_update ?_ ?_).trans hd, ?_⟩
  · exact fun _ => rfl
  · exact fun _ => rfl
  · rw [doc_retire hl, doc_withRoot]
    refine ht.doc_of_detached hm (marks_unlink t new).1.ge fun k hk => data_unlink ht fun hq => ?_
    obtain ⟨r, hmem, hkr⟩ := hr.parent_within ht hq
    rw [List.mem_singleton.mp hmem] at hkr
    rw [ht.attached_of_within ho hkr] at hk
    cases hk

theorem Linked.leavesAside_appliedTo? {c : Change} (h : c.appliedTo? t = some u)
    (hm : t.isDetached m = true) (hn : m ∉ c.taken) : t.LeavesAside u m := by
  cases c with
  | replace old new =>
    obtain ⟨-, ho, hr, ⟨-, -, rfl⟩ | ⟨p, pos, hp, hat, -, rfl⟩⟩ := ht.replace?_cases h
    · exact (ht.leavesAside_root hr ho hm fun he => hn (List.mem_singleton.mpr he)).bump
    · have hx := (ht.exchange_replace ho hp hat hr).leavesAside ht hm hn
      exact (hx.succeed fun _ => some new).bump
  | remove n =>
    obtain ⟨ho, p, pos, hp, hat, -, rfl⟩ := ht.remove?_cases h
    exact ((ht.exchange_remove ho hp hat).leavesAside ht hm hn).bump
  | insertBefore anchor new =>
    obtain ⟨ha, hd, p, i, hp, hi, -, rfl⟩ := ht.insertAt?_cases h (Nat.zero_le 1)
    exact ((ht.exchange_insert ha hd hp hi (Nat.zero_le 1)).leavesAside ht hm hn).bump
  | insertAfter anchor new =>
    obtain ⟨ha, hd, p, i, hp, hi, -, rfl⟩ := ht.insertAt?_cases h (le_refl 1)
    exact ((ht.exchange_insert ha hd hp hi (le_refl 1)).leavesAside ht hm hn).bump
  | splice first count news =>
    obtain ⟨-, ha, p, i, spec, hp, -, -, -, -, hd, hr, rfl⟩ := ht.splice?_cases h
    have hx := ht.exchange_splice ha hp hd fun n hn => (hr n hn).2.1
    exact ((hx.leavesAside ht hm hn).succeed fun s => news.head?.or s).bump

end Linked

/-- What an operation takes of a detached tree, or changes in it. -/
def Operation.Consumes (t : SyntaxTree) (m : NodeId) : Operation → Prop
  | setRoot n => n = m
  | create s => some m ∈ s.slots ∨ m ∈ s.list
  | clone _ => False
  | setType n _ => t.Within n m
  | change c => m ∈ c.taken

theorem Linked.leavesAside (ht : t.Linked) (op : Operation) (hm : t.isDetached m = true)
    (hn : ¬ op.Consumes t m) : t.LeavesAside (op.perform t) m := by
  cases op with
  | setRoot n =>
    rw [Operation.perform]
    cases h : t.setRoot? n with
    | error e => exact .refl hm
    | ok v =>
      obtain ⟨-, rfl⟩ := setRoot?_cases h
      have hr : m ∉ t.root.toList := by
        rw [Option.mem_toList]
        exact (isDetached_iff.mp hm).2.2
      refine LeavesAside.bump ⟨isDetached_withRoot (ht.isDetached_foldl_destroy hm hr) ?_, ?_⟩
      · exact fun he => hn he.symm
      · rw [doc_withRoot, doc_foldl_destroy ht]
  | create s =>
    rw [Operation.perform]
    cases h : t.create? s with
    | error e => exact .refl hm
    | ok r =>
      have hc := ht.create? h
      refine ⟨hc.isDetached_of_detached hm ?_, hc.grown.doc ht (lt_of_alive (isDetached_iff.mp hm).1)⟩
      rw [hc.node, Node.mem_children]
      simpa [padSlots, Operation.Consumes] using hn
  | clone n =>
    have hc := ht.clone n
    have hlt := lt_of_alive (isDetached_iff.mp hm).1
    exact ⟨(hc.kept.isDetached hlt).trans hm, hc.kept.grown.doc ht hlt⟩
  | setType n ty =>
    refine LeavesAside.bump ⟨(isDetached_update ?_ ?_).trans hm, ?_⟩
    · exact fun _ => rfl
    · exact fun _ => rfl
    · refine ht.doc_congr size_update.ge fun k hk => ?_
      rw [node_update_of_ne]
      rintro rfl
      exact hn hk
  | change c =>
    rw [Operation.perform]
    cases h : c.appliedTo? t with
    | none => exact .refl hm
    | some u => exact ht.leavesAside_appliedTo? h hm hn

end SyntaxTree

namespace Doc

variable {d x : Doc} {way : List Position} {f : Doc → Doc}

/-- The document with nothing at the position: an empty slot, or a list without that child. -/
def vacate (d : Doc) : Position → Doc
  | .slot i => .node d.kind d.span d.ty (d.slots.set i none) d.list
  | .list i => .node d.kind d.span d.ty d.slots (d.list.eraseIdx i)

/-- The document with one more list child. -/
def insert (d : Doc) (i : Nat) (x : Doc) : Doc := d.withList (d.list.insertIdx i x)

/-- The document with others in the place of consecutive list children. -/
def splice (d : Doc) (i count : Nat) (xs : List Doc) : Doc :=
  d.withList (d.list.take i ++ xs ++ d.list.drop (i + count))

/-- Changes the part where a way leads. -/
def modify (d : Doc) (way : List Position) (f : Doc → Doc) : Doc :=
  match d.at? way with
  | some x => d.put way (f x)
  | none => d

theorem modify_of_at? (h : d.at? way = some x) : d.modify way f = d.put way (f x) := by
  rw [modify, h]

end Doc

namespace SyntaxTree

variable {t u v : SyntaxTree} {m n p : NodeId} {way : List Position} {pos : Position} {f : Doc → Doc}

theorem rootAt?_append (h : t.rootAt? way = some p) (hc : (t.node p).at? pos = some n) :
    t.rootAt? (way ++ [pos]) = some n := by
  obtain ⟨r, hr, hw⟩ := Option.bind_eq_some_iff.mp h
  rw [rootAt?, hr, Option.bind_some, at?_append, hw, Option.bind_some, at?_cons hc, at?]

theorem rootDoc?_of_root {r : NodeId} (h : t.root = some r) : t.rootDoc? = some (t.doc r) := by
  rw [rootDoc?, h, Option.map_some]

/-- All below a living new node is new. -/
theorem Extends.new_of_within (h : t.Extends u) (ht : t.Linked) (hu : u.Linked) (hn : t.size ≤ n)
    (ha : u.isAlive n = true) (hm : u.Within m n) : t.size ≤ m := by
  induction hm using Relation.ReflTransGen.head_induction_on with
  | refl => exact hn
  | @head c q hc hq ih =>
    by_contra hlt
    -- an old node has the parent that it had, which is an old one
    have hp := hu.named hc ((Within.alive hu hq).trans ha)
    rw [parent?, h.node (Nat.not_le.mp hlt)] at hp
    exact Nat.not_le.mpr (lt_of_alive (ht.parent_alive hp)) ih

namespace Exchange

variable {outs ins moved kept : List NodeId} {slots : List (Option NodeId)} {list : List NodeId}
  (h : t.Exchange p slots list moved outs ins kept) (ht : t.Linked)
include h ht

/-- An exchange is a change of the document of the root at one place. -/
theorem rootDoc?_modify (hf : (t.exchange p slots list moved outs ins).doc p = f (t.doc p)) :
    ∃ way, t.rootAt? way = some p ∧
      (t.exchange p slots list moved outs ins).rootDoc? = t.rootDoc?.map fun d => d.modify way f := by
  obtain ⟨way, hw⟩ := ht.exists_rootAt? h.attached
  obtain ⟨r, hr, hway⟩ := Option.bind_eq_some_iff.mp hw
  have hat : (t.doc r).at? way = some (t.doc p) := by rw [ht.at?_doc, hway, Option.map_some]
  refine ⟨way, hw, ?_⟩
  rw [h.rootDoc? ht hr hway, hf, rootDoc?_of_root hr, Option.map_some, Doc.modify_of_at? hat]

end Exchange

section Changes

variable (ht : t.Linked)
include ht

theorem Linked.rootDoc?_replace {old new : NodeId} (h : t.replace? old new = some u) :
    ∃ way, t.rootAt? way = some old ∧ u.rootDoc? = t.rootDoc?.map fun d => d.put way (t.doc new) := by
  obtain ⟨-, ho, hr, hc⟩ := ht.replace?_cases h
  have ha : ∀ p pos, t.parent? old = some p → (t.node p).at? pos = some old →
      (t.kind p).admits pos (t.kind new) = true := by
    intro p pos hp hat
    rcases hc with ⟨-, hn, -⟩ | ⟨q, pos', hq, hat', ha, -⟩
    · rw [hn] at hp
      cases hp
    · obtain rfl : p = q := Option.some.inj (hp.symm.trans hq)
      obtain rfl := Node.at?_unique (ht.nodup p) hat hat'
      rwa [admits_eq] at ha
  obtain ⟨v, hv, hb⟩ := ht.replace_becomes ho hr ha
  obtain rfl : u = v := Option.some.inj (h.symm.trans hv)
  obtain ⟨way, hw⟩ := ht.exists_rootAt? ho
  obtain ⟨r, hroot, hway⟩ := Option.bind_eq_some_iff.mp hw
  exact ⟨way, hw, by rw [hb.rootDoc hroot hway, rootDoc?_of_root hroot, Option.map_some]⟩

theorem Linked.rootDoc?_remove (h : t.remove? n = some u) : ∃ way pos,
    t.rootAt? (way ++ [pos]) = some n ∧
    u.rootDoc? = t.rootDoc?.map fun d => d.modify way fun x => x.vacate pos := by
  obtain ⟨ho, p, pos, hp, hat, -, rfl⟩ := ht.remove?_cases h
  have hx := ht.exchange_remove ho hp hat
  obtain ⟨way, hw, hd⟩ := hx.rootDoc?_modify (f := fun x => x.vacate pos) ht <| by
    rw [hx.doc_parts ht nofun, ht.doc_eq p]
    cases pos <;> simp [vacate, Doc.vacate, Doc.kind, Doc.span, Doc.ty, Doc.slots, Doc.list,
      List.map_set, List.eraseIdx_map]
  exact ⟨way, pos, rootAt?_append hw hat, by rw [rootDoc?_bump, hd]⟩

theorem Linked.rootDoc?_insert {anchor new : NodeId} {offset : Nat} (hoff : offset ≤ 1)
    (h : t.insertAt? anchor new offset = some u) : ∃ way i,
    t.rootAt? (way ++ [.list i]) = some anchor ∧
    u.rootDoc? = t.rootDoc?.map fun d => d.modify way fun x => x.insert (i + offset) (t.doc new) := by
  obtain ⟨ha, hd, p, i, hp, hi, -, rfl⟩ := ht.insertAt?_cases h hoff
  have hx := ht.exchange_insert ha hd hp hi hoff
  obtain ⟨way, hw, hroot⟩ := hx.rootDoc?_modify (f := fun x => x.insert (i + offset) (t.doc new)) ht <| by
    rw [hx.doc_parts ht (ht.not_below_singleton new), ht.doc_eq p]
    simp [Doc.insert, Doc.withList, Doc.kind, Doc.span, Doc.ty, Doc.slots, Doc.list, list,
      List.map_insertIdx]
  exact ⟨way, i, rootAt?_append hw hi, by rw [rootDoc?_bump, hroot]⟩

theorem Linked.rootDoc?_splice {first : NodeId} {count : Nat} {news : List NodeId}
    (h : t.splice? first count news = some u)
    (hn : ∀ a ∈ news, ∀ b ∈ news, t.isAncestor a b = false) : ∃ way p i,
    t.rootAt? way = some p ∧ (t.list p)[i]? = some first ∧ i + count ≤ (t.list p).length ∧
    u.rootDoc? = t.rootDoc?.map fun d => d.modify way fun x => x.splice i count (news.map t.doc) := by
  obtain ⟨-, ha, p, i, spec, hp, hi, hl, -, -, hd, hr, rfl⟩ := ht.splice?_cases h
  have hx := ht.exchange_splice ha hp hd fun n hn => (hr n hn).2.1
  have hb := ht.not_below_of_not_isAncestor (fun n hm => (hr n hm).2.1.alive) hn
  obtain ⟨way, hw, hroot⟩ := hx.rootDoc?_modify (f := fun x => x.splice i count (news.map t.doc)) ht <| by
    rw [hx.doc_parts ht hb, ht.doc_eq p]
    simp [Doc.splice, Doc.withList, Doc.kind, Doc.span, Doc.ty, Doc.slots, Doc.list, list,
      List.map_take, List.map_drop]
  refine ⟨way, p, i, hw, hi, hl, ?_⟩
  rw [rootDoc?_bump, rootDoc?_update, hroot]
  exact fun _ => rfl

end Changes

/-- What the operations do to a tree is what they are said to do to documents. -/
structure EditsDocuments (t : SyntaxTree) : Prop where
  replace : ∀ {old new u}, t.replace? old new = some u → ∃ way, t.rootAt? way = some old ∧
    u.rootDoc? = t.rootDoc?.map fun d => d.put way (t.doc new)
  /-- Exactly the slot of the node is emptied, or its place in the list is taken out. -/
  remove : ∀ {n u}, t.remove? n = some u → ∃ way pos, t.rootAt? (way ++ [pos]) = some n ∧
    u.rootDoc? = t.rootDoc?.map fun d => d.modify way fun x => x.vacate pos
  insertBefore : ∀ {anchor new u}, t.insertBefore? anchor new = some u → ∃ way i,
    t.rootAt? (way ++ [.list i]) = some anchor ∧
    u.rootDoc? = t.rootDoc?.map fun d => d.modify way fun x => x.insert i (t.doc new)
  insertAfter : ∀ {anchor new u}, t.insertAfter? anchor new = some u → ∃ way i,
    t.rootAt? (way ++ [.list i]) = some anchor ∧
    u.rootDoc? = t.rootDoc?.map fun d => d.modify way fun x => x.insert (i + 1) (t.doc new)
  splice : ∀ {first count news u}, t.splice? first count news = some u →
    (∀ a ∈ news, ∀ b ∈ news, t.isAncestor a b = false) → ∃ way p i,
    t.rootAt? way = some p ∧ (t.list p)[i]? = some first ∧ i + count ≤ (t.list p).length ∧
    u.rootDoc? = t.rootDoc?.map fun d => d.modify way fun x => x.splice i count (news.map t.doc)
  /-- A copy is detached and consists of new nodes, and all documents that there were stay. -/
  clone : ∀ n, (t.clone n).2.isDetached (t.clone n).1 = true ∧
    (t.clone n).2.doc (t.clone n).1 = t.doc n ∧
    (∀ m, (t.clone n).2.Within m (t.clone n).1 → t.size ≤ m) ∧
    (∀ m, m < t.size → (t.clone n).2.doc m = t.doc m) ∧ (t.clone n).2.rootDoc? = t.rootDoc?
  /-- A detached node that is not taken in stays so, with its document. -/
  aside : ∀ (op : Operation) {m}, t.isDetached m = true → ¬ op.Consumes t m →
    t.LeavesAside (op.perform t) m

/-- Whatever operations made a tree, the next one does to its documents what it is said to do. -/
theorem history_edits_documents (id : Nat) (ops : List Operation) :
    (history id ops).EditsDocuments := by
  have ht := linked_history id ops
  refine ⟨ht.rootDoc?_replace, ht.rootDoc?_remove, ht.rootDoc?_insert (Nat.zero_le 1),
    ht.rootDoc?_insert (le_refl 1), ht.rootDoc?_splice, ?_, fun op _ => ht.leavesAside op⟩
  intro n
  have hc := ht.clone n
  refine ⟨hc.detached, hc.doc, ?_, fun m hm => hc.kept.grown.doc ht hm, hc.kept.grown.rootDoc? ht⟩
  intro m hm
  exact hc.kept.new_of_within ht hc.linked hc.new (isDetached_iff.mp hc.detached).1 hm

/-- A block with two statements, in a block. -/
def blockInBlock : SyntaxTree :=
  history 1 [.create ⟨.emptyStmt, Span.none, none, [], []⟩, .create ⟨.breakStmt, Span.none, none, [], []⟩,
    .create ⟨.block, Span.none, none, [], [0, 1]⟩, .create ⟨.block, Span.none, none, [], [2]⟩, .setRoot 3]

/-- The inner block gives way to the statements in it. -/
theorem inlinedBlock_document : ∃ u, blockInBlock.splice? 2 1 [0, 1] = some u ∧
    (∀ a ∈ [0, 1], ∀ b ∈ [0, 1], blockInBlock.isAncestor a b = false) ∧
    ∃ way p i, blockInBlock.rootAt? way = some p ∧ (blockInBlock.list p)[i]? = some 2 ∧
      i + 1 ≤ (blockInBlock.list p).length ∧
      u.rootDoc? = blockInBlock.rootDoc?.map fun d =>
        d.modify way fun x => x.splice i 1 ([0, 1].map blockInBlock.doc) := by
  obtain ⟨u, hu⟩ : ∃ u, blockInBlock.splice? 2 1 [0, 1] = some u := ⟨_, rfl⟩
  have hn : ∀ a ∈ [0, 1], ∀ b ∈ [0, 1], blockInBlock.isAncestor a b = false := by decide
  exact ⟨u, hu, hn, (history_edits_documents 1 _).splice hu hn⟩

end SyntaxTree

end TreeTidy
