import TreeTidy.Proofs.Engine.Endings
/-!
The stops of a visit: where it begins with an attached node of the worklist, and the node whose children it
puts there in the end. If the splices that are made leave the nodes of the tree in their order, no node is
twice the first or twice the last of a stop.
-/
namespace TreeTidy

open SyntaxTree

variable {t u : SyntaxTree} {opened seen work : List NodeId} {start k : NodeId}

/-- Whatever the program splices, it leaves the nodes of the tree in their order. -/
def Edit.InOrder {α : Type} (x : Setting) : Edit α → SyntaxTree → Prop
  | done _, _ | broken _, _ => True
  | look next, t => (next ⟨t, x.resolver, x.rule, x.pass⟩).InOrder x t
  | create spec next, t =>
    match t.create? spec with
    | .ok (n, u) => (next (.ok n)).InOrder x u
    | .error e => (next (.error e)).InOrder x t
  | clone n next, t => (next (t.clone n).1).InOrder x (t.clone n).2
  | change c next, t =>
    match c.appliedTo? t with
    | some u => c.InOrder t ∧ (next true).InOrder x u
    | none => (next false).InOrder x t

/-- The place that a visit has come to remains one, broken off or not. -/
theorem Edit.runFrom_placed {α : Type} {x : Setting} {e : Edit α} (es : List Event)
    (ho : ∀ a ∈ opened, a ∈ seen) (he : e.InOrder x t) (h : t.Placed opened seen work start k) :
    (e.runFrom x t es).tree.Placed opened seen work start k := by
  induction e generalizing t es with
  | done a => exact h
  | broken m => exact h
  | look next ih => exact ih _ es he h
  | create spec next ih =>
    simp only [InOrder] at he
    simp only [runFrom]
    cases hc : t.create? spec with
    | ok made =>
      rw [hc] at he
      exact ih _ es he (h.moved ho (h.steady.moved_create? hc))
    | error e =>
      rw [hc] at he
      exact ih _ es he h
  | clone n next ih => exact ih _ es he (h.moved ho (h.steady.moved_clone n))
  | change c next ih =>
    simp only [InOrder] at he
    simp only [runFrom]
    cases hc : c.appliedTo? t with
    | some u =>
      rw [hc] at he
      exact ih _ es he.2 (h.moved ho (h.steady.moved_appliedTo? hc he.1))
    | none =>
      rw [hc] at he
      exact ih _ _ he h

namespace Session

variable {c : Setting} {r : Rule} {n m : NodeId} {s s' : State}

def Call.InOrder (x : Call) : Prop :=
  (x.rule.act x.node).InOrder ⟨x.setting.resolver, x.rule.id, x.setting.pass⟩ x.before.tree

/-- What is known when a place was offered: a visit has come to another place, or the place is gone. -/
structure Passed (opened seen work : List NodeId) (start : NodeId) (place : Option NodeId) (t : SyntaxTree) :
    Prop where
  steady : t.Steady
  due : t.Due opened seen work
  known : t.Known (seen ++ work)
  placed : ∀ m, place = some m → t.Placed opened seen work start m
  gone : place = none → t.Dead start

theorem Passed.stay (h : t.Placed opened seen work start k) : Passed opened seen work start (some k) t :=
  ⟨h.steady, h.due, h.known, fun _ hm => Option.some.inj hm ▸ h, nofun⟩

variable (ho : ∀ a ∈ opened, a ∈ seen)
include ho

theorem Passed.follow (h : t.Placed opened seen work start k) :
    Passed opened seen work start (Session.follow t k) t :=
  ⟨h.steady, h.due, h.known, fun _ hm => h.follow ho hm, h.gone⟩

theorem offerAll_passed (i : Nat) {rules : List Rule} (hc : ∀ x ∈ offerAllCalls c i rules n s, x.InOrder)
    (h : s.tree.Placed opened seen work start n) :
    Passed opened seen work start (offerAll c i rules n s).1 (offerAll c i rules n s).2.tree :=
  offerAll_kept (fun _ _ hp => .follow ho (hp.placed _ rfl)) i
    (fun x hx hp => .stay (Edit.runFrom_placed x.before.events ho (hc x hx) (hp.placed _ rfl))) (.stay h)

omit ho

/-- A node of the worklist that is attached when its turn comes, and the node that is opened in its place, if
one is there. -/
structure Stop where
  start : NodeId
  opened : Option NodeId
  deriving DecidableEq, Repr

/-- The visit, with its stops. -/
def visitStops (c : Setting) : (fuel : Nat) → (work : List NodeId) → State → List Stop × Option State
  | _, [], s => ([], some s)
  | 0, _ :: _, _ => ([], none)
  | fuel + 1, n :: work, s =>
    if !s.tree.isAttached n then visitStops c fuel work s
    else match offerAll c 0 c.rules n s with
      | (none, s) => (visitStops c fuel work s).map (⟨n, none⟩ :: ·) id
      | (some m, s) => (visitStops c fuel (s.tree.children m ++ work) s).map (⟨n, some m⟩ :: ·) id

def passStops (c : Setting) (fuel : Nat) (s : State) : List Stop × Option State :=
  match s.tree.root with
  | none => ([], some { s with applied := 0 })
  | some root => visitStops c fuel [root] { s with applied := 0 }

theorem visitStops_snd (c : Setting) (fuel : Nat) (work : List NodeId) (s : State) :
    (visitStops c fuel work s).2 = visit c fuel work s := by
  induction fuel generalizing work s with
  | zero => cases work <;> rfl
  | succ fuel ih =>
    cases work with
    | nil => rfl
    | cons n work =>
      rw [visitStops, visit]
      split
      · exact ih work s
      · cases offerAll c 0 c.rules n s with
        | mk place s₁ => cases place <;> exact ih _ s₁

theorem passStops_snd (c : Setting) (fuel : Nat) (s : State) : (passStops c fuel s).2 = pass c fuel s := by
  rw [passStops, pass]
  cases s.tree.root with
  | none => rfl
  | some root => exact visitStops_snd c fuel _ _

/-- Stops that begin at nodes and open nodes of which none were met before. -/
structure Once (starts opened : List NodeId) (stops : List Stop) : Prop where
  starts : (starts ++ stops.map Stop.start).Nodup
  opened : (opened ++ stops.filterMap Stop.opened).Nodup

theorem nodup_snoc {as : List NodeId} {a : NodeId} (h : as.Nodup) (ha : a ∉ as) : (as ++ [a]).Nodup := by
  rw [← List.concat_eq_append]
  exact h.concat ha

variable {starts : List NodeId} {stops : List Stop}

theorem Once.nil (hs : starts.Nodup) (ho : opened.Nodup) : Once starts opened [] :=
  ⟨by rwa [List.map_nil, List.append_nil], by rwa [List.filterMap_nil, List.append_nil]⟩

theorem Once.cons_none (h : Once (starts ++ [n]) opened stops) : Once starts opened (⟨n, none⟩ :: stops) where
  starts := by
    rw [List.map_cons, List.append_cons]
    exact h.starts
  opened := h.opened

theorem Once.cons_some (h : Once (starts ++ [n]) (opened ++ [m]) stops) :
    Once starts opened (⟨n, some m⟩ :: stops) where
  starts := by
    rw [List.map_cons, List.append_cons]
    exact h.starts
  opened := by
    have hfm : (⟨n, some m⟩ :: stops : List Stop).filterMap Stop.opened = m :: stops.filterMap Stop.opened := rfl
    rw [hfm, List.append_cons]
    exact h.opened

theorem visitStops_once {fuel : Nat} (hc : ∀ x ∈ visitCalls c fuel work s, x.InOrder) (hs : s.tree.Steady)
    (hd : s.tree.Due opened seen work) (hk : s.tree.Known (seen ++ work)) (ho : ∀ a ∈ opened, a ∈ seen)
    (hst : ∀ a ∈ starts, a ∈ seen) (hso : starts.Nodup) (hoo : opened.Nodup) :
    Once starts opened (visitStops c fuel work s).1 := by
  induction fuel generalizing starts opened seen work s with
  | zero => cases work <;> exact .nil hso hoo
  | succ fuel ih =>
    cases work with
    | nil => exact .nil hso hoo
    | cons n work =>
      rw [visitCalls] at hc
      rw [visitStops]
      have hk' : s.tree.Known (seen ++ work) := fun a ha =>
        hk a ((List.sublist_cons_self n work).append_left seen |>.subset ha)
      split
      next hn =>
        rw [if_pos hn] at hc
        exact ih hc hs hd.tail hk' ho hst hso hoo
      next hn =>
        rw [if_neg hn] at hc
        obtain ⟨hcalls, hrest⟩ := List.forall_mem_append.mp hc
        have hn : s.tree.isAttached n = true := by simpa using hn
        have hnew := hd.not_seen hs.linked hn
        have hplaced : s.tree.Placed opened seen work n n :=
          ⟨hs, hd.tail, hk', .attached hn, fun ha => hnew (ho n ha), .inl rfl, fun m hm => by
            rw [follow_attached hn] at hm
            cases hm
            exact hd⟩
        have hp := offerAll_passed ho 0 hcalls hplaced
        have hso' := nodup_snoc hso fun ha => hnew (hst n ha)
        cases he : offerAll c 0 c.rules n s with
        | mk place s₁ =>
          rw [he] at hp hrest
          cases place with
          | none =>
            have hdead := List.forall_mem_singleton.mpr (hp.gone rfl)
            refine .cons_none (ih hrest hp.steady (hp.due.dead_seen hdead) ?_ ?_ ?_ hso' hoo)
            · exact List.forall_mem_cons.mpr ⟨.inr (hp.gone rfl), hp.known⟩
            · exact fun a ha => .tail _ (ho a ha)
            · exact List.forall_mem_append.mpr ⟨fun a ha => .tail _ (hst a ha),
                List.forall_mem_singleton.mpr (.head _)⟩
          | some m =>
            have hm := hp.placed m rfl
            refine .cons_some (ih hrest hp.steady hm.expanded ?_ ?_ ?_ hso' (nodup_snoc hoo hm.fresh))
            · exact hm.known_expanded
            · exact List.forall_mem_append.mpr ⟨fun a ha => .tail _ (.tail _ (ho a ha)),
                List.forall_mem_singleton.mpr (.tail _ (.head _))⟩
            · exact List.forall_mem_append.mpr ⟨fun a ha => .tail _ (.tail _ (hst a ha)),
                List.forall_mem_singleton.mpr (.head _)⟩

/-- A pass begins with nothing but the root, which is above everything. -/
theorem passStops_once (hs : s.tree.Steady) (fuel : Nat) (hc : ∀ x ∈ passCalls c fuel s, x.InOrder) :
    Once [] [] (passStops c fuel s).1 := by
  rw [passCalls] at hc
  rw [passStops]
  cases hr : s.tree.root with
  | none => exact .nil List.nodup_nil List.nodup_nil
  | some root =>
    rw [hr] at hc
    have hl := hs.linked
    have hdue : s.tree.Due [] [] [root] := by
      refine ⟨List.pairwise_singleton _ _, List.forall_mem_nil _,
        List.forall_mem_singleton.mpr fun _ a hb => ?_⟩
      exact absurd hr (hl.not_root_of_below hb)
    have hknown : s.tree.Known ([] ++ [root]) := List.forall_mem_singleton.mpr (.inl (hl.attached_root hr))
    exact visitStops_once (s := { s with applied := 0 }) hc hs hdue hknown (List.forall_mem_nil _)
      (List.forall_mem_nil _) List.nodup_nil List.nodup_nil

/-- What a pass opens in a tree whose links agree. If only what is dead has a successor, and the splices that are
made leave the nodes of the tree in their order, no node is the first of two stops, and none is opened in two of
them. And whatever the splices are, the pass comes to its end if and only if there is a bound on the nodes that
are made in it. -/
theorem pass_opens_once (hs : s.tree.Linked) :
    (s.tree.Settled → ∀ fuel, (∀ x ∈ passCalls c fuel s, x.InOrder) → (passStops c fuel s).2 = pass c fuel s ∧
      ((passStops c fuel s).1.map Stop.start).Nodup ∧ ((passStops c fuel s).1.filterMap Stop.opened).Nodup) ∧
    ((∃ bound, ∀ fuel, ∀ x ∈ passCalls c fuel s, x.outcome.tree.size ≤ bound) ↔
      ∃ least s', ∀ fuel, least ≤ fuel → pass c fuel s = some s') := by
  refine ⟨fun hset fuel hc => ?_, ?_, ?_⟩
  · have h := passStops_once ⟨hs, hset⟩ fuel hc
    exact ⟨passStops_snd c fuel s, h.starts, h.opened⟩
  · rintro ⟨bound, hb⟩
    exact pass_ends_of_bounded hs hb
  · rintro ⟨least, s', h⟩
    exact bounded_of_pass_ends (h least (le_refl _))

section Example

/-- Blocks in blocks: the root has one member, which has a block in a block and an empty statement. -/
def nestedBlocks : SyntaxTree :=
  let block (members : List NodeId) := Operation.create ⟨.block, Span.none, none, [], members⟩
  let empty := Operation.create ⟨.emptyStmt, Span.none, none, [], []⟩
  history 1 [empty, block [0], block [1], empty, block [2, 3], block [4], .setRoot 5]

/-- Puts the members of a block in its place. -/
def unwrapping : Rule where
  info := .ofId "Unwrapping"
  granularity := .statement
  act n := .look fun v =>
    if v.tree.kind n = .block then Edit.splice n 1 (v.tree.children n) else .done false

theorem unwrapping_inOrder (x : Call) (h : x.rule = unwrapping) : x.InOrder := by
  simp only [Call.InOrder, h, unwrapping, Edit.InOrder]
  split
  · simp only [Edit.splice, Edit.InOrder]
    split
    · exact ⟨Change.inOrder_unwrap x.before.tree x.node x.node 1, trivial⟩
    · trivial
  · trivial

/-- The member of the root is unwrapped, and the block in it is opened. -/
theorem unwrapped_opens_once : ∃ c s, s.tree = nestedBlocks ∧ c.rules = [unwrapping] ∧
    (passStops c 9 s).1 = [⟨5, some 5⟩, ⟨4, some 2⟩, ⟨1, some 0⟩] ∧
    ((passStops c 9 s).1.map Stop.start).Nodup ∧ ((passStops c 9 s).1.filterMap Stop.opened).Nodup ∧
    ∃ least s', ∀ fuel, least ≤ fuel → pass c fuel s = some s' := by
  let c : Setting := ⟨[unwrapping], .unresolved, ⟨1, 1⟩, 1⟩
  let s : State := ⟨nestedBlocks, [], [], 0⟩
  have hs : s.tree.Linked := linked_history 1 _
  have h := pass_opens_once (c := c) hs
  have hc : ∀ x ∈ passCalls c 9 s, x.InOrder := fun x hx =>
    unwrapping_inOrder x (List.mem_singleton.mp (rule_mem_of_passCalls hs 9 x hx))
  have hsizes : ∀ x ∈ passCalls c 9 s, x.outcome.tree.size ≤ 6 := by decide +kernel
  obtain ⟨s', hends⟩ : ∃ s', pass c 9 s = some s' := Option.isSome_iff_exists.mp (by decide +kernel)
  have honce := h.1 (settled_history 1 _) 9 hc
  have hbound := h.2.mp ⟨6, fun fuel x hx => hsizes x (passCalls_subset hends fuel hx)⟩
  exact ⟨c, s, rfl, rfl, by decide +kernel, honce.2.1, honce.2.2, hbound⟩

/-- Acts at one node only. -/
def actingAt (n : NodeId) (e : Edit Bool) : Rule where
  info := .ofId "ActingAt"
  granularity := .statement
  act m := if m = n then e else .done false

/-- Two statements, of which the second names the first as its successor although it is alive. -/
def livingSuccessor : SyntaxTree :=
  let empty := Operation.create ⟨.emptyStmt, Span.none, none, [], []⟩
  let block := Operation.create ⟨.block, Span.none, none, [], [0, 1]⟩
  ((history 1 [empty, empty, block, .setRoot 2]).update 1 fun d => { d with successor := some 0 }).bump

/-- Both assumptions are needed. Splices that put nodes back in another order lead the visit to a node that it
has opened before: in the end the block in the block takes the place of the empty statement, which waits to be
visited. And the same comes of removing a node that names a successor while it is alive. -/
theorem reordered_opens_twice :
    (∃ c s, s.tree = nestedBlocks ∧ s.tree.Linked ∧ s.tree.Settled ∧
      c.rules = [actingAt 3 ((Edit.splice 4 1 [3, 2]).andThen fun _ => Edit.splice 3 2 [1])] ∧
      (passStops c 9 s).1 = [⟨5, some 5⟩, ⟨4, some 4⟩, ⟨2, some 2⟩, ⟨1, some 1⟩, ⟨0, some 0⟩, ⟨3, some 1⟩,
        ⟨0, some 0⟩] ∧ (pass c 9 s).isSome ∧ ¬ ((passStops c 9 s).1.map Stop.start).Nodup ∧
      ¬ ((passStops c 9 s).1.filterMap Stop.opened).Nodup) ∧
    ∃ c s, s.tree = livingSuccessor ∧ s.tree.Linked ∧ c.rules = [actingAt 1 (Edit.remove 1)] ∧
      (passStops c 9 s).1 = [⟨2, some 2⟩, ⟨0, some 0⟩, ⟨1, some 0⟩] ∧ (pass c 9 s).isSome ∧
      ¬ ((passStops c 9 s).1.filterMap Stop.opened).Nodup := by
  constructor
  · let c : Setting := ⟨[actingAt 3 ((Edit.splice 4 1 [3, 2]).andThen fun _ => Edit.splice 3 2 [1])],
      .unresolved, ⟨1, 1⟩, 1⟩
    let s : State := ⟨nestedBlocks, [], [], 0⟩
    have hstops : (passStops c 9 s).1 = [⟨5, some 5⟩, ⟨4, some 4⟩, ⟨2, some 2⟩, ⟨1, some 1⟩, ⟨0, some 0⟩,
        ⟨3, some 1⟩, ⟨0, some 0⟩] := by decide +kernel
    refine ⟨c, s, rfl, linked_history 1 _, settled_history 1 _, rfl, hstops, by decide +kernel, ?_, ?_⟩
    · rw [hstops]
      decide
    · rw [hstops]
      decide
  · let c : Setting := ⟨[actingAt 1 (Edit.remove 1)], .unresolved, ⟨1, 1⟩, 1⟩
    let s : State := ⟨livingSuccessor, [], [], 0⟩
    have hstops : (passStops c 9 s).1 = [⟨2, some 2⟩, ⟨0, some 0⟩, ⟨1, some 0⟩] := by decide +kernel
    have hlinked : s.tree.Linked := ((linked_history 1 _).succeed 1 fun _ => some 0).bump
    refine ⟨c, s, rfl, hlinked, rfl, hstops, by decide +kernel, ?_⟩
    rw [hstops]
    decide

end Example

end Session

end TreeTidy
