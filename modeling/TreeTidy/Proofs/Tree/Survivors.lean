import TreeTidy.Proofs.Tree.Effects
/-!
What is left of the nodes around an exchange. Those that gave up nodes hold the others still, at the
same places; and of what is below the nodes that are destroyed, that lives on which goes with a node
that is taken in.
-/
namespace TreeTidy

open SyntaxTree (vacate)

/-- A node that holds what it held, but for some nodes. -/
structure Node.Thinned (d e : Node) (ns : List NodeId) : Prop where
  kind : e.kind = d.kind
  length : e.slots.length = d.slots.length
  slot : ∀ i, e.at? (.slot i) = (d.at? (.slot i)).filter fun c => decide (c ∉ ns)
  list : ∀ c, c ∈ e.list ↔ c ∈ d.list ∧ c ∉ ns

namespace Node

variable {d e f : Node} {c n : NodeId} {pos : Position} {ms ns : List NodeId}

private theorem filter_kept {o : Option NodeId} (h : ∀ c, o = some c → c ∉ ns) :
    (o.filter fun c => decide (c ∉ ns)) = o := by
  cases o with
  | none => rfl
  | some c => rw [Option.filter_some, if_pos (decide_eq_true (h c rfl))]

/-- Nodes that are not held cannot be given up. -/
theorem thinned_of_data (h : e.data = d.data) (hn : ∀ n ∈ ns, n ∉ d.children) :
    d.Thinned e ns := by
  refine ⟨kind_of_data h, by rw [slots_of_data h], ?_, ?_⟩
  · intro i
    have he : e.at? (.slot i) = d.at? (.slot i) := by rw [at?, at?, slots_of_data h]
    rw [he, filter_kept fun c hc hm => hn c hm (mem_children_iff.mpr ⟨_, hc⟩)]
  · intro c
    rw [list_of_data h, iff_self_and]
    exact fun hc hm => hn c hm (mem_children.mpr (.inr hc))

theorem thinned_vacate (hd : d.children.Nodup) (h : d.at? pos = some n) :
    d.Thinned (vacate d pos) [n] := by
  have hother : ∀ q, q ≠ pos → ∀ c, d.at? q = some c → c ∉ [n] := by
    intro q hq c hc hm
    obtain rfl := List.mem_singleton.mp hm
    exact hq (at?_unique hd hc h)
  cases pos with
  | slot j =>
    refine ⟨rfl, by simp [vacate], ?_, ?_⟩
    · intro i
      have hset : (vacate d (.slot j)).at? (.slot i) = if j = i then none else d.at? (.slot i) := by
        simp only [vacate, at?, List.getElem?_set]
        split
        · split <;> rfl
        · rfl
      rw [hset]
      split
      next hij => rw [← hij, h]; simp [Option.filter]
      next hij => rw [filter_kept (hother _ fun he => hij (Position.slot.inj he).symm)]
    · intro c
      refine iff_self_and.mpr fun hc => ?_
      obtain ⟨i, hi⟩ := List.mem_iff_getElem?.mp hc
      exact hother (.list i) (by simp) c hi
  | list j =>
    have hl : d.list.Nodup := (List.nodup_append.mp hd).2.1
    refine ⟨rfl, rfl, ?_, ?_⟩
    · intro i
      have hv : (vacate d (.list j)).at? (.slot i) = d.at? (.slot i) := rfl
      rw [hv, filter_kept (hother (.slot i) (by simp))]
    · intro c
      obtain ⟨hj, rfl⟩ := List.getElem?_eq_some_iff.mp h
      have he : (vacate d (.list j)).list = d.list.erase d.list[j] := (hl.erase_getElem j hj).symm
      rw [he, hl.mem_erase_iff, List.mem_singleton, and_comm]

namespace Thinned

theorem trans (h : d.Thinned e ns) (h' : e.Thinned f ms) : d.Thinned f (ns ++ ms) where
  kind := h'.kind.trans h.kind
  length := h'.length.trans h.length
  slot i := by
    rw [h'.slot, h.slot]
    cases d.at? (.slot i) with
    | none => rfl
    | some c => by_cases hn : c ∈ ns <;> simp [Option.filter, hn]
  list c := by rw [h'.list, h.list, List.mem_append, not_or, and_assoc]

theorem mem_children (h : d.Thinned e ns) : c ∈ e.children ↔ c ∈ d.children ∧ c ∉ ns := by
  have hs : ∀ i, e.at? (.slot i) = some c ↔ d.at? (.slot i) = some c ∧ c ∉ ns := by
    intro i
    rw [h.slot, Option.filter_eq_some_iff, decide_eq_true_iff]
  have hm : ∀ d : Node, c ∈ d.children ↔ (∃ i, d.at? (.slot i) = some c) ∨ c ∈ d.list := by
    intro d
    simp only [Node.mem_children, List.mem_iff_getElem? (a := some c), at?_slot]
  rw [hm, hm, h.list]
  simp only [hs, exists_and_right, or_and_right]

end Thinned

end Node

namespace SyntaxTree

variable {t : SyntaxTree} {a c m n p q r : NodeId} {ns : List NodeId}

theorem Linked.thinned_unlink (ht : t.Linked) (hq : t.isAlive q = true) :
    (t.node q).Thinned ((t.unlink n).node q) [n] := by
  by_cases hp : t.parent? n = some q
  · obtain ⟨pos, hat, he⟩ := ht.unlink_eq hp
    have hv := Node.thinned_vacate (ht.nodup q) hat
    have hn := (graft_vacate hq hat).node ht q
    rw [← he] at hn
    have hd : ((t.unlink n).node q).data = (vacate (t.node q) pos).data := by
      rw [hn]
      cases pos <;> simp [Node.data, vacate]
    have hsame : (vacate (t.node q) pos).Thinned ((t.unlink n).node q) [] :=
      Node.thinned_of_data hd (List.forall_mem_nil _)
    exact hv.trans hsame
  · refine Node.thinned_of_data (data_unlink ht hp) fun a ha hc => hp ?_
    exact List.mem_singleton.mp ha ▸ ht.named hc hq

theorem Linked.thinned_foldl_unlink (ht : t.Linked) (hq : t.isAlive q = true) :
    (t.node q).Thinned ((ns.foldl SyntaxTree.unlink t).node q) ns := by
  induction ns generalizing t with
  | nil => exact Node.thinned_of_data rfl nofun
  | cons n ns ih =>
    exact (ht.thinned_unlink hq).trans (ih (ht.unlink n) ((isAlive_unlink ht q).trans hq))

namespace Exchange

variable {outs ins moved kept : List NodeId} {slots : List (Option NodeId)} {list : List NodeId}
  (h : t.Exchange p slots list moved outs ins kept)
include h

theorem kind (m : NodeId) : (t.exchange p slots list moved outs ins).kind m = t.kind m := by
  have hl := h.freed.linked
  rw [← h.freed.kind m, ← h.graft.kind hl m, SyntaxTree.kind, exchange,
    node_foldl_destroy (h.graft.linked hl)]
  split <;> rfl

theorem out_dead (hr : r ∈ outs) : (t.exchange p slots list moved outs ins).isAlive r = false := by
  rw [isAlive, exchange, node_foldl_destroy (h.graft.linked h.freed.linked), if_pos ⟨r, hr, .refl⟩]

/-- The children at the place afterwards. -/
theorem child_place : (t.exchange p slots list moved outs ins).Child c p ↔ c ∈ ins ∨ c ∈ kept := by
  rw [Child, children, Node.children, Node.slots_of_data h.node_self, Node.list_of_data h.node_self,
    ← List.mem_append]
  exact h.graft.after.mem_iff

variable (ht : t.Linked)
include ht

theorem thinned (hq : q ≠ p) (ha : t.isAlive q = true) :
    (t.node q).Thinned ((t.exchange p slots list moved outs ins).node q) moved := by
  have hd : ((moved.foldl SyntaxTree.unlink t).node q).Thinned
      ((t.exchange p slots list moved outs ins).node q) [] :=
    Node.thinned_of_data (h.data_of_ne hq) (List.forall_mem_nil _)
  have hall := (ht.thinned_foldl_unlink ha).trans hd
  rwa [List.append_nil] at hall

theorem child_of_ne (hq : q ≠ p) (ha : t.isAlive q = true) (hc : t.Child c q) (hm : c ∉ ins) :
    (t.exchange p slots list moved outs ins).Child c q :=
  (h.thinned ht hq ha).mem_children.mpr ⟨hc, fun hx => hm (h.taken c hx)⟩

/-- A child that is not taken away stays with its parent, in life and in death. -/
theorem isAlive_child (hq : q ≠ p) (ha : t.isAlive q = true) (hc : t.Child c q) (hm : c ∉ ins) :
    (t.exchange p slots list moved outs ins).isAlive c =
      (t.exchange p slots list moved outs ins).isAlive q :=
  (h.linked.child (h.child_of_ne ht hq ha hc hm)).2

/-- What is above the place is not touched. -/
theorem place_alive : (t.exchange p slots list moved outs ins).isAlive p = true := by
  obtain ⟨r, hr, hw⟩ := ht.isAttached_iff.mp h.attached
  have key : ∀ m, t.Within m r → t.Within p m →
      (t.exchange p slots list moved outs ins).isAlive m = true := by
    intro m hm
    induction hm using Relation.ReflTransGen.head_induction_on with
    | refl => exact fun _ => (h.linked.root ((h.marks).2.1.trans hr)).1
    | @head c q hc hq ih =>
      intro hp
      have hqp : q ≠ p := fun he => ht.below_irrefl q (Within.below (he ▸ hp) hc)
      have hi : c ∉ ins := fun hx =>
        ((h.reusable c hx).apart ht h.attached fun r hr => h.out_child hr).1 hp
      have hqa : t.isAlive q = true := (Within.alive ht hq).trans (ht.root hr).1
      rw [h.isAlive_child ht hqp hqa hc hi]
      exact ih (hp.tail hc)
  exact key p hw .refl

theorem in_alive (ha : a ∈ ins) : (t.exchange p slots list moved outs ins).isAlive a = true :=
  (h.linked.child (h.child_place.mpr (.inl ha))).2.trans (h.place_alive ht)

/-- Below a node that is given up, that lives on which is in or below a node that is taken in. -/
theorem isAlive_iff (hr : r ∈ outs) (hm : t.Within m r) :
    (t.exchange p slots list moved outs ins).isAlive m = true ↔ ∃ a ∈ ins, t.Within m a := by
  have hpr := h.out_child hr
  have hra : t.isAlive r = true := (ht.child hpr).2.trans (attached_alive h.attached)
  constructor
  · intro ha
    induction hm using Relation.ReflTransGen.head_induction_on with
    | refl =>
      rw [h.out_dead hr] at ha
      cases ha
    | @head c q hc hq ih =>
      by_cases hi : c ∈ ins
      · exact ⟨c, hi, .refl⟩
      · have hqp : q ≠ p := fun he => ht.below_irrefl p (Within.below (he ▸ hq) hpr)
        rw [h.isAlive_child ht hqp ((Within.alive ht hq).trans hra) hc hi] at ha
        obtain ⟨a, hain, hqa⟩ := ih ha
        exact ⟨a, hain, hqa.head hc⟩
  · rintro ⟨a, ha, hma⟩
    clear hm
    induction hma using Relation.ReflTransGen.head_induction_on with
    | refl => exact h.in_alive ht ha
    | @head c q hc hq ih =>
      by_cases hi : c ∈ ins
      · exact h.in_alive ht hi
      · have hqp : q ≠ p := by
          rintro rfl
          exact ((h.reusable a ha).apart ht h.attached fun r hr => h.out_child hr).1 hq
        rw [h.isAlive_child ht hqp ((Within.alive ht hq).trans (h.reusable a ha).alive) hc hi, ih]

end Exchange

end SyntaxTree

end TreeTidy
