import TreeTidy.Proofs.Tree.Order
import TreeTidy.Proofs.Tree.Succession
/-!
Edits and the order of a tree. Attached nodes that stay attached keep their order, and nothing new comes to
be above them, as long as a splice that puts nodes of the tree back keeps these in their order. What takes
the place of a node comes after what came before the node, and before what came after it.
-/
namespace TreeTidy

/-- A splice puts nodes of the tree back in the order in which they were, none of them in another one. -/
def Change.InOrder (t : SyntaxTree) : Change → Prop
  | splice _ _ news => (news.filter fun n => !t.isDetached n).Pairwise t.LeftOf
  | replace _ _ | remove _ | insertBefore _ _ | insertAfter _ _ => True

/-- The children of a node can take its place. -/
theorem Change.inOrder_unwrap (t : SyntaxTree) (n p : NodeId) (count : Nat) :
    (splice n count (t.children p)).InOrder t :=
  (t.pairwise_children p).filter _

open SyntaxTree (vacate occupy) in
/-- The children around the one at a position, which are the same if another one or none is there. -/
theorem Node.exists_around {d : Node} {pos : Position} {c : NodeId} (h : d.at? pos = some c) :
    ∃ front back, d.children = front ++ c :: back ∧ (vacate d pos).children = front ++ back ∧
      ∀ n, (occupy d n pos).children = front ++ n :: back := by
  cases pos with
  | slot i =>
    obtain ⟨hi, hc⟩ := List.getElem?_eq_some_iff.mp (at?_slot.mp h)
    have hset : ∀ o, (d.slots.set i o).filterMap id =
        (d.slots.take i).filterMap id ++ (o.toList ++ (d.slots.drop (i + 1)).filterMap id) := by
      intro o
      rw [List.set_eq_take_append_cons_drop, if_pos hi, List.filterMap_append, List.filterMap_cons]
      cases o <;> rfl
    refine ⟨(d.slots.take i).filterMap id, (d.slots.drop (i + 1)).filterMap id ++ d.list, ?_, ?_, ?_⟩
    · have hd := hset (some c)
      rw [← hc, List.set_getElem_self, hc] at hd
      rw [children, hd]
      simp
    · rw [children, vacate, hset]
      simp
    · intro n
      rw [children, occupy, hset]
      simp
  | list i =>
    obtain ⟨hi, rfl⟩ := List.getElem?_eq_some_iff.mp h
    refine ⟨d.slots.filterMap id ++ d.list.take i, d.list.drop (i + 1), ?_, ?_, ?_⟩
    · rw [children, List.append_assoc, ← List.drop_eq_getElem_cons hi, List.take_append_drop]
    · rw [children, vacate, List.eraseIdx_eq_take_drop_succ, List.append_assoc]
    · intro n
      rw [children, occupy, List.set_eq_take_append_cons_drop, if_pos hi, List.append_assoc]

namespace SyntaxTree

variable {t u v : SyntaxTree} {a b c m n p q r w x y : NodeId}

theorem pair_sublist_append {as bs : List NodeId} : [x, y].Sublist (as ++ bs) ↔
    [x, y].Sublist as ∨ (x ∈ as ∧ y ∈ bs) ∨ [x, y].Sublist bs := by
  constructor
  · intro h
    obtain ⟨fs, gs, he, hf, hg⟩ := List.sublist_append_iff.mp h
    match fs, he with
    | [], he => exact .inr (.inr (he ▸ hg))
    | [f], he =>
      cases he
      exact .inr (.inl ⟨List.singleton_sublist.mp hf, List.singleton_sublist.mp hg⟩)
    | [f, g], he =>
      cases he
      exact .inl hf
    | f :: g :: k :: fs, he => simp at he
  · rintro (h | ⟨hx, hy⟩ | h)
    · exact h.trans (List.sublist_append_left _ _)
    · exact (List.singleton_sublist.mpr hx).append (List.singleton_sublist.mpr hy)
    · exact h.trans (List.sublist_append_right _ _)

theorem Linked.attached_above (ht : t.Linked) (hn : t.isAttached n = true) (h : t.Within n a) :
    t.isAttached a = true := by
  induction h with
  | refl => exact hn
  | tail _ hc ih => exact ht.attached_parent ih (ht.parent_iff.mpr ⟨hc, attached_alive ih⟩)

/-- Only attached nodes that come earlier or stood above are above an attached node, and before it. -/
structure Rearranged (t u : SyntaxTree) : Prop where
  linked : u.Linked
  child : ∀ {c q}, u.Child c q → t.isAttached c = true → t.Below c q
  order : ∀ {q x y}, [x, y].Sublist (u.children q) → t.isAttached x = true → t.isAttached y = true →
    t.LeftOf x y

namespace Rearranged

variable (h : t.Rearranged u) (ht : t.Linked)
include h ht

theorem within (ha : t.isAttached a = true) (hw : u.Within a b) : t.Within a b := by
  induction hw with
  | refl => exact .refl
  | tail _ hc ih => exact ih.trans (h.child hc (ht.attached_above ha ih)).to_reflTransGen

theorem below (ha : t.isAttached a = true) (hb : u.Below a b) : t.Below a b := by
  obtain ⟨c, hc, hw⟩ := Relation.TransGen.head'_iff.mp hb
  have hac := h.child hc ha
  exact hac.trans_left (h.within ht (ht.attached_above ha hac.to_reflTransGen) hw)

theorem leftOf (ha : t.isAttached a = true) (hb : t.isAttached b = true) (hl : u.LeftOf a b) :
    t.LeftOf a b := by
  obtain ⟨p, x, y, hxy, hax, hby⟩ := hl
  have hax := h.within ht ha hax
  have hby := h.within ht hb hby
  exact (h.order hxy (ht.attached_above ha hax) (ht.attached_above hb hby)).within hax hby

theorem before_of (ha : t.isAttached a = true) (hb : t.isAttached b = true) (hu : u.Before a b) :
    t.Before a b := hu.imp (h.below ht hb) (h.leftOf ht ha hb)

/-- What stays attached keeps its order. -/
theorem before (ha : t.isAttached a = true) (hb : t.isAttached b = true) (hua : u.isAttached a = true)
    (hub : u.isAttached b = true) (hab : t.Before a b) : u.Before a b := by
  obtain rfl | hu | hu := h.linked.order_attached hua hub
  · exact absurd hab (ht.order_irrefl (attached_alive ha))
  · exact hu
  · exact absurd (h.before_of ht hb ha hu) (ht.order_asymm (attached_alive ha) hab)

end Rearranged

theorem rearranged_of_sublist (hu : u.Linked) (h : ∀ q, (u.children q).Sublist (t.children q)) :
    t.Rearranged u where
  linked := hu
  child hc _ := .single ((h _).subset hc)
  order hxy _ _ := .of_children (hxy.trans (h _))

/-- New nodes do not hold any that were attached. -/
theorem Grown.rearranged (h : t.Grown u) (ht : t.Linked) (hu : u.Linked) : t.Rearranged u := by
  have hchild : ∀ {c q}, u.Child c q → t.isAttached c = true → t.Child c q := by
    intro c q hc ha
    have halive := attached_alive ((h.attached_iff ht hu).mpr ha)
    have hp : u.parent? c = some q := hu.parent_iff.mpr ⟨hc, halive⟩
    rw [parent?, h.node_of_attached ht ha] at hp
    exact (ht.held hp).1
  refine ⟨hu, fun hc ha => .single (hchild hc ha), fun {q x y} hxy hx hy => ?_⟩
  have hq := ht.attached_above hx (.single (hchild (hxy.subset (.head _)) hx))
  rw [h.children (lt_of_alive (attached_alive hq))] at hxy
  exact .of_children hxy

/-- The second node is where the first one was: in the same nodes, and with the same before and after it. -/
structure Supplants (t u : SyntaxTree) (m n : NodeId) : Prop where
  attached : t.isAttached m = true
  attached' : u.isAttached n = true
  below : ∀ {a}, u.Below n a → t.Below m a
  after : ∀ {a}, t.isAttached a = true → u.isAttached a = true → t.Before a m → u.Before a n
  /-- Nothing that was in another node than those before the first one comes from there. -/
  before : ∀ {b}, t.isAttached b = true → u.isAttached b = true → t.Before m b →
    (∀ a, t.Below b a → t.Before a m) → u.Before n b

/-- Some consecutive children of a node are exchanged for others, and what is taken in comes from below the
ones given up or was detached. -/
structure Swap (t u : SyntaxTree) (p : NodeId) (front outs ins back : List NodeId) : Prop where
  linked : u.Linked
  attached : t.isAttached p = true
  children : t.children p = front ++ (outs ++ back)
  children' : u.children p = front ++ (ins ++ back)
  others : ∀ {q}, q ≠ p → (u.children q).Sublist (t.children q)
  reusable : ∀ n ∈ ins, t.Reusable outs n
  dead : ∀ r ∈ outs, u.isAlive r = false
  order : ∀ {x y}, [x, y].Sublist ins → t.isAttached x = true → t.isAttached y = true → t.LeftOf x y

namespace Swap

variable {front outs ins back : List NodeId} (h : t.Swap u p front outs ins back) (ht : t.Linked)
include h

theorem out_child (hr : r ∈ outs) : t.Child r p := by
  rw [Child, h.children]
  exact List.mem_append_right _ (List.mem_append_left _ hr)

theorem child_in (hn : n ∈ ins) : u.Child n p := by
  rw [Child, h.children']
  exact List.mem_append_right _ (List.mem_append_left _ hn)

include ht

/-- What is taken in and was attached comes from below a child that is given up. -/
theorem below_out (hc : c ∈ ins) (ha : t.isAttached c = true) : ∃ r ∈ outs, t.Below c r := by
  obtain hd | ⟨r, hr, -, hb⟩ := h.reusable c hc
  · rw [ht.not_attached_of_detached hd] at ha
    cases ha
  · exact ⟨r, hr, hb⟩

theorem rearranged : t.Rearranged u where
  linked := h.linked
  child {c q} hc ha := by
    by_cases hq : q = p
    · subst hq
      rw [Child, h.children', List.mem_append, List.mem_append] at hc
      rcases hc with hc | hc | hc
      · refine .single ?_
        rw [Child, h.children]
        exact List.mem_append_left _ hc
      · obtain ⟨r, hr, hb⟩ := h.below_out ht hc ha
        exact hb.tail (h.out_child hr)
      · refine .single ?_
        rw [Child, h.children]
        exact List.mem_append_right _ (List.mem_append_right _ hc)
    · exact .single ((h.others hq).subset hc)
  order {q x y} hxy hx hy := by
    by_cases hq : q = p
    · subst hq
      have hpair : ∀ {x y}, [x, y].Sublist (front ++ (outs ++ back)) → t.LeftOf x y :=
        fun hs => .of_children (h.children ▸ hs)
      rw [h.children'] at hxy
      simp only [pair_sublist_append, List.mem_append] at hxy hpair
      rcases hxy with hxy | ⟨hxf, hyi | hyb⟩ | hxy | ⟨hxi, hyb⟩ | hxy
      · exact hpair (.inl hxy)
      · obtain ⟨r, hr, hb⟩ := h.below_out ht hyi hy
        exact (hpair (.inr (.inl ⟨hxf, .inl hr⟩))).within .refl hb.to_reflTransGen
      · exact hpair (.inr (.inl ⟨hxf, .inr hyb⟩))
      · exact h.order hxy hx hy
      · obtain ⟨r, hr, hb⟩ := h.below_out ht hxi hx
        exact (hpair (.inr (.inr (.inr (.inl ⟨hr, hyb⟩))))).within hb.to_reflTransGen .refl
      · exact hpair (.inr (.inr (.inr (.inr hxy))))
    · exact .of_children (hxy.trans (h.others hq))

/-- What was not in the children that are given up is in none of those taken in. -/
theorem not_within_in (ha : t.isAttached a = true) (hout : ∀ r ∈ outs, ¬ t.Within a r) (hc : c ∈ ins) :
    ¬ u.Within a c := by
  intro hw
  have hw := (h.rearranged ht).within ht ha hw
  obtain ⟨r, hr, hb⟩ := h.below_out ht hc (ht.attached_above ha hw)
  exact hout r hr (hw.trans hb.to_reflTransGen)

section Place

variable (hm : m ∈ outs) (hn : n ∈ ins) (hu : u.isAttached n = true)
include hm hn hu

/-- What is above the new node was above the place. -/
theorem below_place (hb : u.Below n a) : t.Below m a := by
  obtain ⟨q, hq, hw⟩ := Relation.TransGen.head'_iff.mp hb
  obtain rfl := h.linked.child_unique hq (h.child_in hn) (attached_alive hu)
  exact Relation.TransGen.head' (h.out_child hm) ((h.rearranged ht).within ht h.attached hw)

variable (ha : t.isAttached a = true) (hout : ∀ r ∈ outs, ¬ t.Within a r)
include ha hout

/-- The new node is a child of `p`, or all of `p` is in the child in which the new node is. -/
theorem leftOf_of_place (hl : u.LeftOf n a) : t.LeftOf m a := by
  obtain ⟨q, x, y, hxy, hnx, hay⟩ := hl
  have hy : u.Child y q := hxy.subset (.tail _ (.head _))
  obtain rfl | ⟨q', hq', hpx⟩ := Relation.ReflTransGen.cases_head hnx
  · obtain rfl := h.linked.child_unique (hxy.subset (.head _)) (h.child_in hn) (attached_alive hu)
    rw [Child, h.children', List.mem_append, List.mem_append] at hy
    rcases hy with hy | hy | hy
    · have hyn : [y, n].Sublist (u.children q) := by
        rw [h.children', pair_sublist_append]
        exact .inr (.inl ⟨hy, List.mem_append_left _ hn⟩)
      exact absurd hxy (not_pair_sublist (h.linked.nodup q) hyn)
    · exact absurd hay (h.not_within_in ht ha hout hy)
    · have hmy : t.LeftOf m y := .of_children (by
        rw [h.children, pair_sublist_append, pair_sublist_append]
        exact .inr (.inr (.inr (.inl ⟨hm, hy⟩))))
      exact hmy.within .refl ((h.rearranged ht).within ht ha hay)
  · obtain rfl := h.linked.child_unique hq' (h.child_in hn) (attached_alive hu)
    have hpa : u.LeftOf q' a := ⟨q, x, y, hxy, hpx, hay⟩
    exact ((h.rearranged ht).leftOf ht h.attached ha hpa).within (.single (h.out_child hm)) .refl

theorem leftOf_to_place (hl : u.LeftOf a n) : t.LeftOf a m := by
  obtain ⟨q, x, y, hxy, hax, hny⟩ := hl
  have hx : u.Child x q := hxy.subset (.head _)
  obtain rfl | ⟨q', hq', hpy⟩ := Relation.ReflTransGen.cases_head hny
  · obtain rfl := h.linked.child_unique (hxy.subset (.tail _ (.head _))) (h.child_in hn)
      (attached_alive hu)
    rw [Child, h.children', List.mem_append, List.mem_append] at hx
    rcases hx with hx | hx | hx
    · have hxm : t.LeftOf x m := .of_children (by
        rw [h.children, pair_sublist_append]
        exact .inr (.inl ⟨hx, List.mem_append_left _ hm⟩))
      exact hxm.within ((h.rearranged ht).within ht ha hax) .refl
    · exact absurd hax (h.not_within_in ht ha hout hx)
    · have hnx : [n, x].Sublist (u.children q) := by
        rw [h.children', pair_sublist_append, pair_sublist_append]
        exact .inr (.inr (.inr (.inl ⟨hn, hx⟩)))
      exact absurd hxy (not_pair_sublist (h.linked.nodup q) hnx)
  · obtain rfl := h.linked.child_unique hq' (h.child_in hn) (attached_alive hu)
    have hap : u.LeftOf a q' := ⟨q, x, y, hxy, hax, hpy⟩
    exact ((h.rearranged ht).leftOf ht ha h.attached hap).within .refl (.single (h.out_child hm))

variable (hau : u.isAttached a = true)
include hau

/-- A node elsewhere that stays attached is on the same side of the new node as it was of the place. -/
theorem before_place (hb : t.Before m a) : u.Before n a := by
  have hma : t.isAlive m = true := (ht.child (h.out_child hm)).2.trans (attached_alive h.attached)
  obtain rfl | hu' | hu' := h.linked.order_attached hu hau
  · exact absurd .refl (h.not_within_in ht ha hout hn)
  · exact hu'
  · have hback : t.Before a m := hu'.imp (h.below_place ht hm hn hu) (h.leftOf_to_place ht hm hn hu ha hout)
    exact absurd hback (ht.order_asymm hma hb)

theorem after_place (hb : t.Before a m) : u.Before a n := by
  obtain rfl | hu' | hu' := h.linked.order_attached hau hu
  · exact absurd .refl (h.not_within_in ht ha hout hn)
  · exact hu'
  · obtain hbelow | hl := hu'
    · exact absurd hbelow.to_reflTransGen (h.not_within_in ht ha hout hn)
    · exact absurd (Or.inr (h.leftOf_of_place ht hm hn hu ha hout hl)) (ht.order_asymm (attached_alive ha) hb)

end Place

/-- The first of the new nodes takes the place of the first of the old ones. -/
theorem supplants {outs' ins' : List NodeId} (ho : outs = m :: outs') (hi : ins = n :: ins')
    (hu : u.isAttached n = true) : t.Supplants u m n := by
  have hm : m ∈ outs := ho ▸ .head _
  have hn : n ∈ ins := hi ▸ .head _
  have hmatt : t.isAttached m = true := ht.attached_child h.attached (h.out_child hm)
  have hmalive := attached_alive hmatt
  have hfirst : ∀ r ∈ outs, m = r ∨ t.LeftOf m r := by
    intro r hr
    rw [ho] at hr
    obtain rfl | hr := List.mem_cons.mp hr
    · exact .inl rfl
    · refine .inr (.of_children (p := p) ?_)
      rw [h.children, ho, pair_sublist_append, pair_sublist_append]
      exact .inr (.inr (.inl (List.cons_sublist_cons.mpr (List.singleton_sublist.mpr hr))))
  refine ⟨hmatt, hu, h.below_place ht hm hn hu, ?_, ?_⟩
  · intro a ha hau hb
    refine h.after_place ht hm hn hu ha (fun r hr hw => ?_) hau hb
    -- what is in one of the old nodes does not come before the first of them
    obtain rfl | hl := hfirst r hr
    · obtain rfl | hbelow := within_iff.mp hw
      · exact ht.order_irrefl hmalive hb
      · exact ht.order_asymm (attached_alive ha) hb (.inl hbelow)
    · exact ht.order_asymm (attached_alive ha) hb (.inr (hl.within .refl hw))
  · intro b hb hbu hmb habove
    refine h.before_place ht hm hn hu hb (fun r hr hw => ?_) hbu hmb
    obtain rfl | hbelow := within_iff.mp hw
    · have hdead := h.dead b hr
      rw [attached_alive hbu] at hdead
      cases hdead
    · have hrm := habove r hbelow
      obtain rfl | hl := hfirst r hr
      · exact ht.order_irrefl hmalive hrm
      · exact ht.order_asymm hmalive (.inr hl) hrm

end Swap

section Edits

variable {pos : Position} {outs ins moved kept list : List NodeId} {slots : List (Option NodeId)}
  {front back : List NodeId}

theorem children_unlink_sublist (ht : t.Linked) (n q : NodeId) :
    ((t.unlink n).children q).Sublist (t.children q) := by
  cases hp : t.parent? n with
  | none => rw [unlink_of_parent_none hp]
  | some p =>
    obtain ⟨pos, hat, he⟩ := ht.unlink_eq hp
    have hg := graft_vacate (ht.parent_alive hp) hat
    rw [he]
    by_cases hq : q = p
    · subst hq
      obtain ⟨front, back, hc, hv, -⟩ := Node.exists_around hat
      rw [hg.children_self ht, children, hc]
      have hs : (front ++ back).Sublist (front ++ n :: back) :=
        (List.sublist_cons_self n back).append_left front
      rw [← hv] at hs
      exact hs
    · rw [hg.children_of_ne ht hq]

theorem children_foldl_unlink_sublist (ht : t.Linked) (ns : List NodeId) (q : NodeId) :
    ((ns.foldl SyntaxTree.unlink t).children q).Sublist (t.children q) := by
  induction ns generalizing t with
  | nil => exact .refl _
  | cons n ns ih => exact (ih (ht.unlink n)).trans (children_unlink_sublist ht n q)

theorem children_retire (q : NodeId) (o : Option NodeId) :
    ((t.withRoot m).retire n o).bump.children q = t.children q := by
  have hs : ((t.withRoot m).retire n o).bump.children q = ((t.withRoot m).destroy n).children q :=
    children_succeed (s := fun _ => o) q
  exact hs.trans (children_destroy q)

/-- An exchange of consecutive children is a swap. -/
theorem Exchange.swap (h : t.Exchange p slots list moved outs ins kept) (ht : t.Linked)
    (front back : List NodeId) (hc : t.children p = front ++ (outs ++ back))
    (hc' : ({ t.node p with slots := slots, list := list } : Node).children = front ++ (ins ++ back))
    (ho : ∀ {x y}, [x, y].Sublist ins → t.isAttached x = true → t.isAttached y = true → t.LeftOf x y) :
    t.Swap (t.exchange p slots list moved outs ins) p front outs ins back where
  linked := h.linked
  attached := h.attached
  children := hc
  children' := by
    rw [SyntaxTree.children, Node.children, Node.slots_of_data h.node_self, Node.list_of_data h.node_self]
    exact hc'
  others {q} hq := by
    have hd := h.data_of_ne hq
    rw [SyntaxTree.children, Node.children, Node.slots_of_data hd, Node.list_of_data hd]
    exact children_foldl_unlink_sublist ht moved q
  reusable := h.reusable
  dead _ hr := h.out_dead hr
  order := ho

theorem Swap.succeed (h : t.Swap u p front outs ins back) (s : Option NodeId → Option NodeId) :
    t.Swap (u.update n fun d => { d with successor := s d.successor }).bump p front outs ins back where
  linked := (h.linked.succeed n s).bump
  attached := h.attached
  children := h.children
  children' := (children_succeed p).trans h.children'
  others {q} hq := by
    have hs : (u.update n fun d => { d with successor := s d.successor }).bump.children q = u.children q :=
      children_succeed q
    rw [hs]
    exact h.others hq
  reusable := h.reusable
  dead r hr := (isAlive_succeed s r).trans (h.dead r hr)
  order := h.order

theorem Swap.bump (h : t.Swap u p front outs ins back) : t.Swap u.bump p front outs ins back :=
  ⟨h.linked.bump, h.attached, h.children, h.children', h.others, h.reusable, h.dead, h.order⟩

theorem insertIdx_eq_take_append_drop {as : List NodeId} {i : Nat} (hi : i ≤ as.length) :
    as.insertIdx i a = as.take i ++ a :: as.drop i := by
  induction as generalizing i with
  | nil => obtain rfl := Nat.le_zero.mp hi; rfl
  | cons b as ih =>
    cases i with
    | zero => rfl
    | succ i =>
      rw [List.insertIdx_succ_cons, ih (Nat.le_of_succ_le_succ hi)]
      rfl

theorem Linked.swap_insertAt? (ht : t.Linked) {i offset : Nat} (ha : t.isAttached m = true)
    (hd : t.isDetached n = true) (hp : t.parent? m = some p) (hi : (t.list p)[i]? = some m)
    (ho : offset ≤ 1) (hone : ∀ {x y}, [x, y].Sublist [n] → t.isAttached x = true → t.isAttached y = true →
      t.LeftOf x y) :
    ∃ front back, t.Swap (t.exchange p (t.node p).slots ((t.list p).insertIdx (i + offset) n) [] [] [n])
      p front [] [n] back := by
  have hle : i + offset ≤ (t.list p).length := by
    have hlt := (List.getElem?_eq_some_iff.mp hi).1
    omega
  refine ⟨(t.node p).slots.filterMap (fun o => o) ++ (t.list p).take (i + offset), (t.list p).drop (i + offset),
    (ht.exchange_insert ha hd hp hi ho).swap ht _ _ ?_ ?_ hone⟩
  · rw [List.nil_append, List.append_assoc, List.take_append_drop]
    rfl
  · rw [Node.children, insertIdx_eq_take_append_drop hle, List.append_assoc]
    rfl

variable {e : Change}

/-- An edit replaces the root by a node from below it or a detached one, or it is a swap; where it names an
heir, that is the first of the new nodes, and the edit is made at the first of the old ones. -/
theorem Linked.swap_appliedTo? (ht : t.Linked) (h : e.appliedTo? t = some u) (ho : e.InOrder t) :
    (t.root = some e.site ∧ u.root = e.heir? ∧ ∀ q, (u.children q).Sublist (t.children q)) ∨
    ∃ p front outs ins back, t.Swap u p front outs ins back ∧
      ∀ n, e.heir? = some n → ∃ outs' ins', outs = e.site :: outs' ∧ ins = n :: ins' := by
  have hone : ∀ {n x y}, [x, y].Sublist [n] → t.isAttached x = true → t.isAttached y = true → t.LeftOf x y :=
    fun hs => absurd hs.length_le (by simp)
  cases e with
  | replace old new =>
    obtain ⟨-, ha, hr, ⟨hroot, -, rfl⟩ | ⟨p, pos, hp, hat, -, rfl⟩⟩ := ht.replace?_cases h
    · refine .inl ⟨hroot, ?_, fun q => ?_⟩
      · rw [root_bump, SyntaxTree.retire, root_update, root_destroy]
        rfl
      · rw [children_retire]
        exact children_unlink_sublist ht new q
    · obtain ⟨front, back, hc, -, hocc⟩ := Node.exists_around hat
      have hx := ht.exchange_replace ha hp hat hr
      have hs := hx.swap ht front back hc (hocc new) hone
      refine .inr ⟨p, front, [old], [new], back, hs.succeed fun _ => some new, fun n hn => ?_⟩
      cases hn
      exact ⟨[], [], rfl, rfl⟩
  | remove n =>
    obtain ⟨ha, p, pos, hp, hat, -, rfl⟩ := ht.remove?_cases h
    obtain ⟨front, back, hc, hv, -⟩ := Node.exists_around hat
    have hs := (ht.exchange_remove ha hp hat).swap ht front back hc hv fun hs => absurd hs.length_le (by simp)
    exact .inr ⟨p, front, [n], [], back, hs.bump, fun _ hn => by cases hn⟩
  | insertBefore anchor new =>
    obtain ⟨ha, hd, p, i, hp, hi, -, rfl⟩ := ht.insertAt?_cases h (Nat.zero_le 1)
    obtain ⟨front, back, hs⟩ := ht.swap_insertAt? ha hd hp hi (Nat.zero_le 1) hone
    exact .inr ⟨p, front, [], [new], back, hs.bump, fun _ hn => by cases hn⟩
  | insertAfter anchor new =>
    obtain ⟨ha, hd, p, i, hp, hi, -, rfl⟩ := ht.insertAt?_cases h (le_refl 1)
    obtain ⟨front, back, hs⟩ := ht.swap_insertAt? ha hd hp hi (le_refl 1) hone
    exact .inr ⟨p, front, [], [new], back, hs.bump, fun _ hn => by cases hn⟩
  | splice first count news =>
    obtain ⟨hcount, ha, p, i, spec, hp, hi, -, -, -, hn, hr, rfl⟩ := ht.splice?_cases h
    have hx := ht.exchange_splice ha hp hn fun n hn => (hr n hn).2.1
    have hs := hx.swap ht ((t.node p).slots.filterMap (fun o => o) ++ (t.list p).take i)
      ((t.list p).drop (i + count)) ?_ ?_ ?_
    · refine .inr ⟨p, _, _, news, _, hs.succeed fun s => news.head?.or s, fun n hn => ?_⟩
      have hfirst : ∃ outs', ((t.list p).drop i).take count = first :: outs' := by
        obtain ⟨k, rfl⟩ := Nat.exists_eq_succ_of_ne_zero (Nat.ne_of_gt hcount)
        obtain ⟨hlt, rfl⟩ := List.getElem?_eq_some_iff.mp hi
        exact ⟨_, by rw [List.drop_eq_getElem_cons hlt, List.take_succ_cons]⟩
      obtain ⟨outs', hfirst⟩ := hfirst
      obtain ⟨ins', rfl⟩ := List.head?_eq_some_iff.mp hn
      exact ⟨outs', ins', hfirst, rfl⟩
    · rw [List.append_assoc, ← List.drop_drop, List.take_append_drop, List.take_append_drop]
      rfl
    · rw [Node.children, List.append_assoc, List.append_assoc]
      rfl
    · intro x y hxy hx hy
      have hmem : ∀ {z}, t.isAttached z = true → (!t.isDetached z) = true := by
        intro z hz
        rw [Bool.not_eq_true', ← Bool.not_eq_true]
        intro hd
        rw [ht.not_attached_of_detached hd] at hz
        cases hz
      have hkept : [x, y].Sublist (news.filter fun n => !t.isDetached n) := by
        have hf := hxy.filter fun n => !t.isDetached n
        rwa [List.filter_cons, if_pos (hmem hx), List.filter_cons, if_pos (hmem hy), List.filter_nil] at hf
      exact List.pairwise_iff_forall_sublist.mp ho hkept

theorem Linked.rearranged_appliedTo? (ht : t.Linked) (h : e.appliedTo? t = some u) (ho : e.InOrder t) :
    t.Rearranged u := by
  obtain ⟨-, -, hsub⟩ | ⟨p, front, outs, ins, back, hs, -⟩ := ht.swap_appliedTo? h ho
  · exact rearranged_of_sublist (ht.appliedTo? h) hsub
  · exact hs.rearranged ht

/-- Nothing is above the root, and nothing is before it. -/
theorem Linked.supplants_root (ht : t.Linked) (hu : u.Linked) (hr : t.root = some m)
    (hr' : u.root = some n) : t.Supplants u m n := by
  have hbeside : ∀ {a b}, t.LeftOf a b → a ≠ m ∧ b ≠ m := by
    rintro a b ⟨p, x, y, hxy, hax, hby⟩
    refine ⟨?_, ?_⟩ <;> rintro rfl
    · exact ht.not_root_of_below (hax.below (hxy.subset (.head _))) hr
    · exact ht.not_root_of_below (hby.below (hxy.subset (.tail _ (.head _)))) hr
  refine ⟨ht.attached_root hr, hu.attached_root hr', fun h => ?_, fun _ _ h => ?_, fun _ _ h habove => ?_⟩
  · exact absurd hr' (hu.not_root_of_below h)
  · obtain h | h := h
    · exact absurd hr (ht.not_root_of_below h)
    · exact absurd rfl (hbeside h).2
  · obtain h | h := h
    · exact absurd (habove m h) (ht.order_irrefl (ht.root hr).1)
    · exact absurd rfl (hbeside h).1

/-- The heir that an edit names for the place where it is made takes that place. -/
theorem Linked.supplants_appliedTo? (ht : t.Linked) (h : e.appliedTo? t = some u) (ho : e.InOrder t)
    (hn : e.heir? = some n) : t.Supplants u e.site n := by
  obtain ⟨hr, hr', -⟩ | ⟨p, front, outs, ins, back, hs, hheir⟩ := ht.swap_appliedTo? h ho
  · exact ht.supplants_root (ht.appliedTo? h) hr (hr'.trans hn)
  · obtain ⟨outs', ins', houts, hins⟩ := hheir n hn
    exact hs.supplants ht houts hins (ht.attached_heir h hn)

end Edits

end SyntaxTree

end TreeTidy
