import TreeTidy.Proofs.Tree.Lives
import TreeTidy.Proofs.Tree.Settled
/-!
Succession. A node that was attached is attached until it dies, and what is dead stays as it was. The
node that takes its place is attached when it does; so the way from one successor to the next leads from a
node that was attached to one that is, or ends at a dead node without a successor.
-/
namespace TreeTidy

/-- A node that holds what it held and is followed by the node it was followed by. -/
structure Node.Kept (d e : Node) : Prop where
  slots : e.slots = d.slots
  list : e.list = d.list
  successor : e.successor = d.successor

namespace Node.Kept

variable {d e f : Node}

theorem refl (d : Node) : d.Kept d := ⟨rfl, rfl, rfl⟩

theorem trans (h : d.Kept e) (h' : e.Kept f) : d.Kept f :=
  ⟨h'.slots.trans h.slots, h'.list.trans h.list, h'.successor.trans h.successor⟩

theorem of_data (h : e.data = d.data) (hs : e.successor = d.successor) : d.Kept e :=
  ⟨slots_of_data h, list_of_data h, hs⟩

end Node.Kept

namespace SyntaxTree

variable {t u v : SyntaxTree} {c m n p : NodeId} {old new : NodeId}

/-- The second node took the place of the first one. -/
def PassesTo (t : SyntaxTree) (n m : NodeId) : Prop := (t.node n).successor = some m

/-- The node was made once and has died. -/
def Dead (t : SyntaxTree) (n : NodeId) : Prop := n < t.size ∧ t.isAlive n = false

theorem Dead.ne (h : t.Dead n) (hm : t.isAlive m = true) : n ≠ m := by
  rintro rfl
  rw [h.2] at hm
  cases hm

/-- A later state of a tree: nodes live and die as they may, and the dead are left alone. -/
structure Later (t u : SyntaxTree) : Prop where
  lives : t.Lives u
  kept : ∀ {n}, t.Dead n → (t.node n).Kept (u.node n)

namespace Later

theorem refl (t : SyntaxTree) : t.Later t := ⟨.refl t, fun _ => .refl _⟩

theorem dead (h : t.Later u) (hn : t.Dead n) : u.Dead n :=
  ⟨lt_of_lt_of_le hn.1 h.lives.size, h.lives.dead hn.1 hn.2⟩

theorem trans (h : t.Later u) (h' : u.Later v) : t.Later v :=
  ⟨h.lives.trans h'.lives, fun hn => (h.kept hn).trans (h'.kept (h.dead hn))⟩

theorem attached_or_dead (h : t.Later u) (hn : t.isAttached n = true) : u.isAttached n = true ∨ u.Dead n :=
  (h.lives.attached hn).imp_right fun hd =>
    ⟨lt_of_lt_of_le (lt_of_alive (attached_alive hn)) h.lives.size, hd⟩

theorem of_grown (h : t.Grown u) (ht : t.Linked) (hu : u.Linked) : t.Later u where
  lives := .of_grown h ht hu
  kept hn := by
    rw [h.node hn.1]
    exact ⟨rfl, rfl, rfl⟩

end Later

/-- One step of a tree: whoever comes to take a place is attached. -/
structure Handed (t u : SyntaxTree) : Prop where
  later : t.Later u
  passes : ∀ {n m}, u.PassesTo n m → t.PassesTo n m ∨ u.isAttached m = true

namespace Handed

theorem refl (t : SyntaxTree) : t.Handed t := ⟨.refl t, .inl⟩

theorem bump (h : t.Handed u) (hu : u.Linked) : t.Handed u.bump where
  later := ⟨h.later.lives.bump hu, h.later.kept⟩
  passes hk := (h.passes hk).imp_right (hu.attached_congr hu.bump rfl fun _ => rfl).mpr

/-- A node that was alive is given an attached successor, if it is given one. -/
theorem succeed (h : t.Handed u) (hu : u.Linked) (ha : t.isAlive n = true)
    (s : Option NodeId → Option NodeId)
    (hs : ∀ {m}, s (u.node n).successor = some m → (u.node n).successor = some m ∨ u.isAttached m = true) :
    t.Handed (u.update n fun d => { d with successor := s d.successor }).bump := by
  have hatt : ∀ {m}, u.isAttached m = true →
      (u.update n fun d => { d with successor := s d.successor }).bump.isAttached m = true :=
    (hu.attached_congr (hu.succeed n s).bump rfl children_succeed).mpr
  have hpass : ∀ {k m}, u.PassesTo k m → t.PassesTo k m ∨
      (u.update n fun d => { d with successor := s d.successor }).bump.isAttached m = true :=
    fun hk => (h.passes hk).imp_right hatt
  refine ⟨⟨h.later.lives.succeed hu s, fun hd => ?_⟩, fun {k m} hk => ?_⟩
  · rw [node_bump, node_update_of_ne (hd.ne ha)]
    exact h.later.kept hd
  · rw [PassesTo, node_bump, node_update] at hk
    split at hk
    next he =>
      rw [he.1] at hk ⊢
      obtain hk | hk := hs hk
      · exact hpass hk
      · exact .inr (hatt hk)
    next => exact hpass hk

end Handed

section Parts

variable (ht : t.Linked)
include ht

theorem Linked.kept_foldl_destroy (ns : List NodeId) (m : NodeId) :
    (t.node m).Kept ((ns.foldl SyntaxTree.destroy t).node m) := by
  rw [node_foldl_destroy ht]
  split <;> exact ⟨rfl, rfl, rfl⟩

section Exchange

variable {outs ins moved kept : List NodeId} {slots : List (Option NodeId)} {list : List NodeId}
  (h : t.Exchange p slots list moved outs ins kept)
include h

/-- The place is alive, and so is whatever a node is taken from. -/
theorem Exchange.handed : t.Handed (t.exchange p slots list moved outs ins) := by
  refine ⟨⟨ht.lives_exchange h, fun {n} hn => ?_⟩, fun hk => ?_⟩
  · have hp : n ≠ p := hn.ne (attached_alive h.attached)
    have hq : ∀ c ∈ moved, t.parent? c ≠ some n := fun c _ hc => hn.ne (ht.parent_alive hc) rfl
    exact .of_data (h.data hp hq) (h.successor ht n)
  · rw [PassesTo, h.successor ht] at hk
    exact .inl hk

theorem Exchange.in_attached (hm : m ∈ ins) :
    (t.exchange p slots list moved outs ins).isAttached m = true :=
  h.linked.attached_child (h.attached_above ht h.attached .refl) (h.child_place.mpr (.inl hm))

end Exchange

/-- A new root: the node comes from where it was, and the old root dies. -/
theorem Linked.handed_root (hroot : t.root = some old) (hr : t.Reusable [old] new) :
    t.Handed (((t.unlink new).withRoot new).destroy old) := by
  have hd : (t.unlink new).withRoot new |>.Linked :=
    (ht.unlink new).withRoot (detached_unlink ht hr.alive (hr.not_root ht))
  have hkept : ∀ m, ((t.unlink new).node m).Kept ((((t.unlink new).withRoot new).destroy old).node m) :=
    hd.kept_foldl_destroy [old]
  refine ⟨⟨(ht.lives_root hroot hr).1, fun {n} hn => ?_⟩, fun {n m} hk => ?_⟩
  · have hq : t.parent? new ≠ some n := fun hc => hn.ne (ht.parent_alive hc) rfl
    exact (Node.Kept.of_data (data_unlink ht hq) (successor_unlink ht n)).trans (hkept n)
  · rw [PassesTo, (hkept n).successor, successor_unlink ht] at hk
    exact .inl hk

theorem Linked.handed_setRoot? (h : t.setRoot? n = .ok u) : t.Handed u := by
  obtain ⟨-, rfl⟩ := setRoot?_cases h
  have hm := marks_foldl_destroy t.root.toList t
  have hkept := ht.kept_foldl_destroy t.root.toList
  refine ⟨⟨?_, fun {m} _ => hkept m⟩, fun {k m} hk => .inl ?_⟩
  · refine ⟨hm.1.ge, fun {m} _ ha => ?_, fun {m} ha => .inr ?_⟩
    · rw [isAlive, node_bump, node_withRoot, node_foldl_destroy ht] at ha
      split at ha
      · cases ha
      · exact ha
    · -- what was attached was in the root that is destroyed
      obtain ⟨r, hr, hw⟩ := ht.isAttached_iff.mp ha
      rw [isAlive, node_bump, node_withRoot, node_foldl_destroy ht, if_pos ⟨r, by simp [hr], hw⟩]
  · rwa [PassesTo, node_bump, node_withRoot, (hkept k).successor] at hk

theorem Linked.handed_appliedTo? {c : Change} (h : c.appliedTo? t = some u) : t.Handed u := by
  cases c with
  | replace old new =>
    obtain ⟨-, ho, hr, ⟨hroot, -, rfl⟩ | ⟨p, pos, hp, hat, -, rfl⟩⟩ := ht.replace?_cases h
    · have hl := (ht.lives_root hroot hr).2
      refine (ht.handed_root hroot hr).succeed hl (attached_alive ho) (fun _ => some new) fun hs => ?_
      cases hs
      exact .inr (hl.attached_root root_destroy)
    · have hx := ht.exchange_replace ho hp hat hr
      refine (hx.handed ht).succeed hx.linked (attached_alive ho) (fun _ => some new) fun hs => ?_
      cases hs
      exact .inr (hx.in_attached ht (.head _))
  | remove n =>
    obtain ⟨ho, p, pos, hp, hat, -, rfl⟩ := ht.remove?_cases h
    have hx := ht.exchange_remove ho hp hat
    exact (hx.handed ht).bump hx.linked
  | insertBefore anchor new =>
    obtain ⟨ha, hd, p, i, hp, hi, -, rfl⟩ := ht.insertAt?_cases h (Nat.zero_le 1)
    have hx := ht.exchange_insert ha hd hp hi (Nat.zero_le 1)
    exact (hx.handed ht).bump hx.linked
  | insertAfter anchor new =>
    obtain ⟨ha, hd, p, i, hp, hi, -, rfl⟩ := ht.insertAt?_cases h (le_refl 1)
    have hx := ht.exchange_insert ha hd hp hi (le_refl 1)
    exact (hx.handed ht).bump hx.linked
  | splice first count news =>
    obtain ⟨-, ha, p, i, spec, hp, -, -, -, -, hn, hr, rfl⟩ := ht.splice?_cases h
    have hx := ht.exchange_splice ha hp hn fun n hn => (hr n hn).2.1
    refine (hx.handed ht).succeed hx.linked (attached_alive ha) (fun s => news.head?.or s) fun hs => ?_
    cases news with
    | nil => exact .inl hs
    | cons a as =>
      cases hs
      exact .inr (hx.in_attached ht (.head _))

end Parts

/-- Nodes that are made anew are alive, so nothing has taken their place. -/
theorem Grown.passesTo (h : t.Grown u) (hu : u.Settled)
    (hnew : ∀ m, t.size ≤ m → m < u.size → u.isAlive m = true) (hk : u.PassesTo n m) : t.PassesTo n m := by
  have hn : n < t.size := by
    by_contra hn
    have hs := hu n (hnew n (Nat.not_lt.mp hn) (lt_of_successor hk))
    rw [PassesTo, hs] at hk
    cases hk
  rwa [PassesTo, h.node hn] at hk

theorem Handed.of_grown (h : t.Grown u) (ht : t.Linked) (hu : u.Orderly)
    (hnew : ∀ m, t.size ≤ m → m < u.size → u.isAlive m = true) : t.Handed u :=
  ⟨.of_grown h ht hu.linked, fun hk => .inl (h.passesTo hu.settled hnew hk)⟩

theorem Linked.alive_create? (ht : t.Linked) {s : NodeSpec} (h : t.create? s = .ok (n, u)) :
    ∀ m, t.size ≤ m → m < u.size → u.isAlive m = true := by
  intro m hle hlt
  have hm := ht.create? h
  rw [hm.size] at hlt
  obtain rfl : m = n := by
    rw [hm.fresh]
    exact Nat.le_antisymm (Nat.le_of_lt_succ hlt) hle
  rw [isAlive, hm.node]

theorem Linked.alive_clone (ht : t.Linked) (n : NodeId) :
    ∀ m, t.size ≤ m → m < (t.clone n).2.size → (t.clone n).2.isAlive m = true := by
  intro m hle hlt
  have hc := ht.clone n
  exact (Within.alive hc.linked (ht.within_clone hle hlt)).trans (isDetached_iff.mp hc.detached).1

theorem Linked.handed_setType (ht : t.Linked) (n : NodeId) (ty : Option TypeDesc) :
    t.Handed (t.setType n ty) := by
  have hnode := node_setType (t := t) n ty
  refine ⟨⟨?_, fun {m} _ => ?_⟩, fun {k m} hk => .inl ?_⟩
  · refine (Lives.refl t).congr ht (ht.setType n ty) size_update rfl ?_ ?_
    · intro m
      rw [isAlive, hnode, isAlive]
    · intro m
      rw [children, hnode, children]
      rfl
  · rw [hnode]
    exact ⟨rfl, rfl, rfl⟩
  · rwa [PassesTo, hnode] at hk

/-- Every operation hands places on to attached nodes. -/
theorem Orderly.handed_perform (ht : t.Orderly) (op : Operation) : t.Handed (op.perform t) := by
  have hl := ht.linked
  have hu := ht.perform op
  cases op with
  | setRoot n =>
    rw [Operation.perform]
    cases h : t.setRoot? n with
    | error e => exact .refl t
    | ok u => exact hl.handed_setRoot? h
  | create s =>
    cases h : t.create? s with
    | error e =>
      rw [Operation.perform, h]
      exact .refl t
    | ok r =>
      have he : (Operation.create s).perform t = r.2 := by rw [Operation.perform, h]; rfl
      rw [he] at hu ⊢
      exact .of_grown (hl.create? h).grown hl hu (hl.alive_create? h)
  | clone n => exact .of_grown (hl.clone n).kept.grown hl hu (hl.alive_clone n)
  | setType n ty => exact hl.handed_setType n ty
  | change c =>
    rw [Operation.perform]
    cases h : c.appliedTo? t with
    | none => exact .refl t
    | some u => exact hl.handed_appliedTo? h

/-- The way from one successor to the next ends, and is among nodes that were attached. -/
structure Succession (t : SyntaxTree) : Prop where
  ends : WellFounded fun m n => t.PassesTo n m
  attached_or_dead : ∀ {n m}, t.PassesTo n m → t.isAttached m = true ∨ t.Dead m

theorem Settled.dead (ht : t.Settled) (h : t.PassesTo n m) : t.Dead n := by
  refine ⟨lt_of_successor h, ?_⟩
  by_contra ha
  have hs := ht n (by simpa using ha)
  rw [PassesTo, hs] at h
  cases h

/-- A new successor is alive and has none, so a step makes ways longer at their end only. -/
theorem Succession.step (ht : t.Succession) (h : t.Handed u) (hu : u.Settled) : u.Succession := by
  constructor
  · refine ⟨fun n => ?_⟩
    induction n using ht.ends.induction with
    | _ n ih =>
      refine ⟨n, fun m hm => ?_⟩
      obtain hold | hnew := h.passes hm
      · exact ih m hold
      · refine ⟨m, fun k hk => ?_⟩
        have hd := hu.dead hk
        exact absurd rfl (hd.ne (attached_alive hnew))
  · intro n m hm
    obtain hold | hnew := h.passes hm
    · obtain ha | hd := ht.attached_or_dead hold
      · exact h.later.attached_or_dead ha
      · exact .inr (h.later.dead hd)
    · exact .inl hnew

theorem succession_empty (id : Nat) : (empty id).Succession := by
  have hnone : ∀ n m, ¬ (empty id).PassesTo n m := fun n m h => Nat.not_lt_zero n (lt_of_successor h)
  exact ⟨⟨fun n => ⟨n, fun m hm => absurd hm (hnone n m)⟩⟩, fun hm => absurd hm (hnone _ _)⟩

theorem succession_history (id : Nat) (ops : List Operation) (k : Nat) :
    (history id (ops.take k)).Orderly ∧ (history id (ops.take k)).Succession :=
  forall_history (P := fun t => t.Orderly ∧ t.Succession) ⟨orderly_empty id, succession_empty id⟩
    (fun _ op _ h => ⟨h.1.perform op, h.2.step (h.1.handed_perform op) (h.1.perform op).settled⟩) k

/-- Trees that come about are settled. -/
theorem settled_history (id : Nat) (ops : List Operation) : (history id ops).Settled := by
  have h := (succession_history id ops ops.length).1.settled
  rwa [List.take_length] at h

theorem later_history (id : Nat) (ops : List Operation) {i j : Nat} (hij : i ≤ j) :
    (history id (ops.take i)).Later (history id (ops.take j)) := by
  induction j, hij using Nat.le_induction with
  | base => exact .refl _
  | succ j _ ih =>
    refine ih.trans ?_
    cases h : ops[j]? with
    | some op =>
      rw [history_succ id h]
      exact ((succession_history id ops j).1.handed_perform op).later
    | none =>
      have hlen := List.getElem?_eq_none_iff.mp h
      rw [List.take_of_length_le hlen, List.take_of_length_le (hlen.trans (Nat.le_succ j))]
      exact .refl _

section Ends

theorem successor?_alive (h : t.isAlive n = true) : t.successor? n = some n := successorWithin_alive h

theorem successor?_dead (h : t.isAlive n = false) :
    t.successor? n = (t.node n).successor.bind t.successor? := by
  rw [← successorWithin_eq (Nat.lt_add_of_pos_right Nat.two_pos), successorWithin_dead h]
  rfl

/-- The way of successors ends at the same node whichever part of it is looked at. -/
theorem PassesTo.end_unique (hm : Relation.ReflTransGen t.PassesTo n m)
    (hc : Relation.ReflTransGen t.PassesTo n c) (hms : (t.node m).successor = none)
    (hcs : (t.node c).successor = none) : m = c := by
  have hfun : Relator.RightUnique t.PassesTo := fun a b c hb hc => Option.some.inj (hb.symm.trans hc)
  have hstay : ∀ {a b}, (t.node a).successor = none → Relation.ReflTransGen t.PassesTo a b → a = b := by
    intro a b ha hab
    obtain rfl | ⟨d, hd, -⟩ := Relation.ReflTransGen.cases_head hab
    · rfl
    · rw [PassesTo, ha] at hd
      cases hd
  obtain h | h := Relation.ReflTransGen.total_of_right_unique hfun hm hc
  · exact hstay hms h
  · exact (hstay hcs h).symm

/-- What is found for a node that was attached is the attached node at the end of the way, or nothing if a
dead one is there. -/
theorem Succession.exists_end (ht : t.Succession) (hs : t.Settled) (hn : t.isAttached n = true ∨ t.Dead n) :
    ∃ m, Relation.ReflTransGen t.PassesTo n m ∧ (t.node m).successor = none ∧
      (t.isAttached m = true ∧ t.successor? n = some m ∨ t.Dead m ∧ t.successor? n = none) := by
  induction n using ht.ends.induction with
  | _ n ih =>
    obtain ha | hd := hn
    · have hal := attached_alive ha
      exact ⟨n, .refl, hs n hal, .inl ⟨ha, successor?_alive hal⟩⟩
    · have hstep := successor?_dead hd.2
      cases hc : (t.node n).successor with
      | none =>
        rw [hc] at hstep
        exact ⟨n, .refl, hc, .inr ⟨hd, hstep⟩⟩
      | some c =>
        rw [hc, Option.bind_some] at hstep
        obtain ⟨m, hm, hend⟩ := ih c hc (ht.attached_or_dead hc)
        exact ⟨m, .head hc hm, by rwa [hstep]⟩

end Ends

/-- What holds of two states of a tree, of which the second one is later. -/
structure Successive (t u : SyntaxTree) : Prop where
  attached : ∀ {n}, t.isAttached n = true → u.isAttached n = true ∨ u.Dead n
  /-- What is dead stays dead, with its slots, its list and its successor. -/
  dead : ∀ {n}, t.Dead n → u.Dead n ∧ (t.node n).Kept (u.node n)
  acyclic : ∀ n, ¬ Relation.TransGen u.PassesTo n n
  /-- Nothing is found for a node that was attached if and only if the way from it ends at a dead node
  without a successor. -/
  none_found : ∀ {n}, t.isAttached n = true → (u.successor? n = none ↔
    ∃ m, Relation.ReflTransGen u.PassesTo n m ∧ u.Dead m ∧ (u.node m).successor = none)
  found : ∀ {n m}, t.isAttached n = true → u.successor? n = some m →
    Relation.ReflTransGen u.PassesTo n m ∧ u.isAttached m = true

/-- Whatever operations make a tree, its nodes give way to one another in this manner. -/
theorem history_successive (id : Nat) (ops : List Operation) {i j : Nat} (hij : i ≤ j) :
    (history id (ops.take i)).Successive (history id (ops.take j)) := by
  have hlater := later_history id ops hij
  obtain ⟨ho, hsuc⟩ := succession_history id ops j
  refine ⟨hlater.attached_or_dead, fun hd => ⟨hlater.dead hd, hlater.kept hd⟩, ?_, ?_, ?_⟩
  · intro n hcycle
    exact hsuc.ends.transGen.irrefl.irrefl n (Relation.transGen_swap.mpr hcycle)
  · intro n ha
    obtain ⟨m, hm, hnone, hend⟩ := hsuc.exists_end ho.settled (hlater.attached_or_dead ha)
    obtain ⟨hatt, hfound⟩ | ⟨hdead, hfound⟩ := hend
    · constructor
      · intro h
        rw [hfound] at h
        cases h
      · rintro ⟨c, hc, hcd, hcn⟩
        exact absurd (PassesTo.end_unique hc hm hcn hnone) (hcd.ne (attached_alive hatt))
    · exact ⟨fun _ => ⟨m, hm, hdead, hnone⟩, fun _ => hfound⟩
  · intro n c ha hc
    obtain ⟨m, hm, -, ⟨hatt, hfound⟩ | ⟨-, hfound⟩⟩ :=
      hsuc.exists_end ho.settled (hlater.attached_or_dead ha)
    · obtain rfl : m = c := Option.some.inj (hfound.symm.trans hc)
      exact ⟨hm, hatt⟩
    · rw [hfound] at hc
      cases hc

/-- An empty statement becomes the root, another one takes its place, and a third one is made the root. -/
def threeRoots : List Operation :=
  [.create ⟨.emptyStmt, Span.none, none, [], []⟩, .setRoot 0, .create ⟨.emptyStmt, Span.none, none, [], []⟩,
    .change (.replace 0 1), .create ⟨.emptyStmt, Span.none, none, [], []⟩, .setRoot 2]

/-- The second one is found for the first until it is dead as well. -/
theorem threeRoots_successive : (history 1 (threeRoots.take 2)).isAttached 0 = true ∧
    (history 1 (threeRoots.take 2)).Successive (history 1 (threeRoots.take 4)) ∧
    (history 1 (threeRoots.take 4)).successor? 0 = some 1 ∧
    (history 1 (threeRoots.take 4)).isAttached 1 = true ∧
    (history 1 (threeRoots.take 4)).Successive (history 1 (threeRoots.take 6)) ∧
    (history 1 (threeRoots.take 6)).successor? 0 = none :=
  ⟨rfl, history_successive 1 threeRoots (by decide), rfl, rfl,
    history_successive 1 threeRoots (by decide), rfl⟩

end SyntaxTree

end TreeTidy

/-!
Who comes to be where an edit is made. Replacing a node and splicing nodes in name the first of the new
nodes for the place, and no edit names a successor for any other node; what is replaced, spliced away or
removed is dead.
-/
namespace TreeTidy

namespace Change

/-- The node that takes the place where the change is made. -/
def heir? : Change → Option NodeId
  | replace _ new => some new
  | splice _ _ news => news.head?
  | remove _ | insertBefore _ _ | insertAfter _ _ => none

/-- Whether the change does away with the node at which it is made. -/
def ousts : Change → Bool
  | replace _ _ | remove _ | splice _ _ _ => true
  | insertBefore _ _ | insertAfter _ _ => false

end Change

namespace SyntaxTree

variable {t u v : SyntaxTree} {c : Change} {m n old new : NodeId}

theorem successor_succeed (hn : n < u.size) (s : Option NodeId → Option NodeId) (m : NodeId) :
    ((u.update n fun d => { d with successor := s d.successor }).bump.node m).successor =
      if m = n then s (u.node m).successor else (u.node m).successor := by
  rw [node_bump, node_update]
  by_cases hm : m = n
  · subst hm
    rw [if_pos ⟨rfl, hn⟩, if_pos rfl]
  · rw [if_neg fun h => hm h.1, if_neg hm]

theorem isAlive_succeed (s : Option NodeId → Option NodeId) (m : NodeId) :
    (u.update n fun d => { d with successor := s d.successor }).bump.isAlive m = u.isAlive m := by
  rw [isAlive, node_bump, node_update]
  split <;> rfl

theorem attached_succeed (hu : u.Linked) (hm : u.isAttached m = true) (s : Option NodeId → Option NodeId) :
    (u.update n fun d => { d with successor := s d.successor }).bump.isAttached m = true :=
  (hu.attached_congr (hu.succeed n s).bump rfl children_succeed).mpr hm

theorem Exchange.lt_size {p : NodeId} {outs ins moved kept list : List NodeId} {slots : List (Option NodeId)}
    (h : t.Exchange p slots list moved outs ins kept) (hm : t.isAttached m = true) :
    m < (t.exchange p slots list moved outs ins).size := by
  rw [h.marks.1]
  exact lt_of_alive (attached_alive hm)

section Root

variable (ht : t.Linked)
include ht

theorem successor_root (m : NodeId) : ((((t.unlink new).withRoot new).destroy old).node m).successor =
    (t.node m).successor := by
  rw [node_destroy, ← successor_unlink ht m]
  split <;> rfl

theorem isAlive_root (hr : t.Reusable [old] new) : (((t.unlink new).withRoot new).destroy old).isAlive old =
    false := by
  have hl := (ht.unlink new).withRoot (detached_unlink ht hr.alive (hr.not_root ht))
  rw [isAlive, node_destroy, if_pos (hl.mem_descendants.mpr .refl)]

theorem Linked.successor_appliedTo? (h : c.appliedTo? t = some u) (m : NodeId) :
    (u.node m).successor = if m = c.site then c.heir?.or (t.node m).successor else (t.node m).successor := by
  cases c with
  | replace old new =>
    obtain ⟨-, ho, hr, ⟨-, -, rfl⟩ | ⟨p, pos, hp, hat, -, rfl⟩⟩ := ht.replace?_cases h
    · have hlt : old < (((t.unlink new).withRoot new).destroy old).size := by
        rw [size_destroy, size_withRoot, (marks_unlink t new).1]
        exact lt_of_alive (attached_alive ho)
      exact (successor_succeed hlt (fun _ => some new) m).trans (by rw [successor_root ht]; rfl)
    · have hx := ht.exchange_replace ho hp hat hr
      exact (successor_succeed (hx.lt_size ho) (fun _ => some new) m).trans (by rw [hx.successor ht]; rfl)
  | remove n =>
    obtain ⟨ho, p, pos, hp, hat, -, rfl⟩ := ht.remove?_cases h
    rw [node_bump, (ht.exchange_remove ho hp hat).successor ht]
    exact (ite_self _).symm
  | insertBefore anchor new =>
    obtain ⟨ha, hd, p, i, hp, hi, -, rfl⟩ := ht.insertAt?_cases h (Nat.zero_le 1)
    rw [node_bump, (ht.exchange_insert ha hd hp hi (Nat.zero_le 1)).successor ht]
    exact (ite_self _).symm
  | insertAfter anchor new =>
    obtain ⟨ha, hd, p, i, hp, hi, -, rfl⟩ := ht.insertAt?_cases h (le_refl 1)
    rw [node_bump, (ht.exchange_insert ha hd hp hi (le_refl 1)).successor ht]
    exact (ite_self _).symm
  | splice first count news =>
    obtain ⟨-, ha, p, i, spec, hp, -, -, -, -, hn, hr, rfl⟩ := ht.splice?_cases h
    have hx := ht.exchange_splice ha hp hn fun n hn => (hr n hn).2.1
    exact (successor_succeed (hx.lt_size ha) (fun s => news.head?.or s) m).trans (by rw [hx.successor ht]; rfl)

/-- Whatever takes a place is attached. -/
theorem Linked.attached_heir (h : c.appliedTo? t = some u) (hm : c.heir? = some m) :
    u.isAttached m = true := by
  cases c with
  | replace old new =>
    obtain rfl : new = m := Option.some.inj hm
    obtain ⟨-, ho, hr, ⟨hroot, -, rfl⟩ | ⟨p, pos, hp, hat, -, rfl⟩⟩ := ht.replace?_cases h
    · have hl := (ht.lives_root hroot hr).2
      exact attached_succeed hl (hl.attached_root root_destroy) fun _ => some new
    · have hx := ht.exchange_replace ho hp hat hr
      exact attached_succeed hx.linked (hx.in_attached ht (.head _)) fun _ => some new
  | remove n => cases hm
  | insertBefore anchor new => cases hm
  | insertAfter anchor new => cases hm
  | splice first count news =>
    obtain ⟨-, ha, p, i, spec, hp, -, -, -, -, hn, hr, rfl⟩ := ht.splice?_cases h
    have hx := ht.exchange_splice ha hp hn fun n hn => (hr n hn).2.1
    exact attached_succeed hx.linked (hx.in_attached ht (List.mem_of_head? hm)) fun s => news.head?.or s

/-- Changes are made at attached nodes. -/
theorem Linked.attached_site (h : c.appliedTo? t = some u) : t.isAttached c.site = true := by
  cases c with
  | replace old new => exact (ht.replace?_cases h).2.1
  | remove n => exact (ht.remove?_cases h).1
  | insertBefore anchor new => exact (ht.insertAt?_cases h (Nat.zero_le 1)).1
  | insertAfter anchor new => exact (ht.insertAt?_cases h (le_refl 1)).1
  | splice first count news => exact (ht.splice?_cases h).2.1

theorem Linked.ousted (h : c.appliedTo? t = some u) (hc : c.ousts = true) : u.isAlive c.site = false := by
  cases c with
  | replace old new =>
    obtain ⟨-, ho, hr, ⟨-, -, rfl⟩ | ⟨p, pos, hp, hat, -, rfl⟩⟩ := ht.replace?_cases h
    · exact (isAlive_succeed (fun _ => some new) old).trans (isAlive_root ht hr)
    · have hx := ht.exchange_replace ho hp hat hr
      exact (isAlive_succeed (fun _ => some new) old).trans (hx.out_dead (.head _))
  | remove n =>
    obtain ⟨ho, p, pos, hp, hat, -, rfl⟩ := ht.remove?_cases h
    have hx := ht.exchange_remove ho hp hat
    rw [Change.site, isAlive, node_bump, ← isAlive, hx.out_dead (.head _)]
  | insertBefore anchor new => cases hc
  | insertAfter anchor new => cases hc
  | splice first count news =>
    obtain ⟨hcount, ha, p, i, spec, hp, hi, -, -, -, hn, hr, rfl⟩ := ht.splice?_cases h
    have hx := ht.exchange_splice ha hp hn fun n hn => (hr n hn).2.1
    have hout : first ∈ ((t.list p).drop i).take count := by
      obtain ⟨k, rfl⟩ := Nat.exists_eq_succ_of_ne_zero (Nat.ne_of_gt hcount)
      obtain ⟨hlt, rfl⟩ := List.getElem?_eq_some_iff.mp hi
      rw [List.drop_eq_getElem_cons hlt, List.take_succ_cons]
      exact .head _
    exact (isAlive_succeed (fun s => news.head?.or s) first).trans (hx.out_dead hout)

/-- The node that is now where the change was made, if it did away with the one there and named another. -/
theorem Linked.successor?_site (h : c.appliedTo? t = some u) (hc : c.ousts = true) (hm : c.heir? = some m) :
    u.successor? c.site = some m ∧ u.isAttached m = true := by
  have hs := ht.successor_appliedTo? h c.site
  rw [if_pos rfl, hm, Option.some_or] at hs
  have hatt := ht.attached_heir h hm
  rw [successor?_dead (ht.ousted h hc), hs, Option.bind_some, successor?_alive (attached_alive hatt)]
  exact ⟨rfl, hatt⟩

end Root

end SyntaxTree
end TreeTidy
