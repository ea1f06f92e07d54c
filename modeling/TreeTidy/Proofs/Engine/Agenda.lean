import TreeTidy.Engine.Session
import TreeTidy.Proofs.Tree.Rearranged
/-!
The agenda of a visit: the nodes that wait to be visited, and the place that is visited now. What waits is in
the order of the tree and after all that was visited, and the nodes that are above it have been opened. This
remains so through every edit that leaves attached nodes in their order; and when a place is passed on to
another node, that node may take its turn in the agenda.
-/
namespace TreeTidy

open SyntaxTree

namespace SyntaxTree

variable {t u v : SyntaxTree} {k m n start : NodeId} {place : Option (NodeId × NodeId)}
  {opened seen work ns : List NodeId}

/-- The links of a tree agree, and only what is dead has a successor. -/
structure Steady (t : SyntaxTree) : Prop where
  linked : t.Linked
  settled : t.Settled

theorem Steady.perform (h : t.Steady) (op : Operation) : (op.perform t).Steady :=
  ⟨h.linked.perform op, (h.linked.ages_perform op).settled h.settled⟩

/-- A step that leaves attached nodes in their order and passes on one place at most. -/
structure Moved (t u : SyntaxTree) (place : Option (NodeId × NodeId)) : Prop where
  steady : u.Steady
  later : t.Later u
  rearranged : t.Rearranged u
  passes : ∀ {n m}, u.PassesTo n m → t.PassesTo n m ∨ place = some (n, m)
  supplants : ∀ {n m}, place = some (n, m) → t.Supplants u n m

section Steps

variable (h : t.Steady)
include h

theorem Steady.moved_create? {s : NodeSpec} (hc : t.create? s = .ok (n, u)) : t.Moved u none := by
  have hm := h.linked.create? hc
  have hu : (Operation.create s).perform t = u := by rw [Operation.perform, hc]; rfl
  have hs := hu ▸ h.perform (.create s)
  exact ⟨hs, .of_grown hm.grown h.linked hm.linked, hm.grown.rearranged h.linked hm.linked,
    fun hk => .inl (hm.grown.passesTo hs.settled (h.linked.alive_create? hc) hk),
    fun hp => by cases hp⟩

theorem Steady.moved_clone (n : NodeId) : t.Moved (t.clone n).2 none := by
  have hc := h.linked.clone n
  have hs := h.perform (.clone n)
  exact ⟨hs, .of_grown hc.kept.grown h.linked hc.linked, hc.kept.grown.rearranged h.linked hc.linked,
    fun hk => .inl (hc.kept.grown.passesTo hs.settled (h.linked.alive_clone n) hk),
    fun hp => by cases hp⟩

theorem Steady.moved_appliedTo? {e : Change} (he : e.appliedTo? t = some u) (ho : e.InOrder t) :
    t.Moved u (e.heir?.map fun m => (e.site, m)) := by
  have hu : (Operation.change e).perform t = u := by rw [Operation.perform, he]; rfl
  refine ⟨hu ▸ h.perform (.change e), (h.linked.handed_appliedTo? he).later,
    h.linked.rearranged_appliedTo? he ho, fun {n m} hk => ?_, fun {n m} hp => ?_⟩
  · rw [PassesTo, h.linked.successor_appliedTo? he] at hk
    split at hk
    next hn =>
      cases hheir : e.heir? with
      | none =>
        rw [hheir, Option.none_or] at hk
        exact .inl hk
      | some a =>
        rw [hheir, Option.some_or] at hk
        cases hk
        exact .inr (by rw [hn]; rfl)
    next => exact .inl hk
  · obtain ⟨a, ha, hpair⟩ := Option.map_eq_some_iff.mp hp
    cases hpair
    exact h.linked.supplants_appliedTo? he ho ha

end Steps

/-- Nodes that were attached at some time. -/
def Known (t : SyntaxTree) (ns : List NodeId) : Prop := ∀ n ∈ ns, t.isAttached n = true ∨ t.Dead n

theorem Known.later (h : t.Known ns) (hl : t.Later u) : u.Known ns := fun n hn =>
  (h n hn).elim hl.attached_or_dead fun hd => .inr (hl.dead hd)

/-- What is attached later was attached before, if it was at any time. -/
theorem Known.before (h : t.Known ns) (hl : t.Later u) (hn : n ∈ ns) (ha : u.isAttached n = true) :
    t.isAttached n = true :=
  (h n hn).resolve_right fun hd => (hl.dead hd).ne (attached_alive ha) rfl

theorem Known.children (ht : t.Linked) (hn : t.isAttached n = true ∨ t.Dead n) : t.Known (t.children n) := by
  intro c hc
  obtain ha | hd := hn
  · exact .inl (ht.attached_child ha hc)
  · exact .inr ⟨(ht.child hc).1, (ht.child hc).2.trans hd.2⟩

theorem Known.append {ms : List NodeId} (h : t.Known ns) (h' : t.Known ms) : t.Known (ns ++ ms) :=
  List.forall_mem_append.mpr ⟨h, h'⟩

theorem follow_attached (hn : t.isAttached n = true) : Session.follow t n = some n := by
  rw [Session.follow, successor?_alive (attached_alive hn)]
  exact Option.filter_eq_some_iff.mpr ⟨rfl, hn⟩

theorem follow_dead (hd : t.Dead n) : Session.follow t n = (t.node n).successor.bind (Session.follow t) := by
  rw [Session.follow, successor?_dead hd.2]
  cases (t.node n).successor <;> rfl

/-- A node that is attached, or is dead as all are that its place was passed on to before the last one. -/
inductive Traced (t : SyntaxTree) : NodeId → Prop
  | attached {n : NodeId} (h : t.isAttached n = true) : Traced t n
  | dead {n : NodeId} (h : t.Dead n) (next : ∀ m, t.PassesTo n m → Traced t m) : Traced t n

theorem Traced.attached_or_dead (h : t.Traced n) : t.isAttached n = true ∨ t.Dead n := by
  cases h with
  | attached ha => exact .inl ha
  | dead hd _ => exact .inr hd

theorem Moved.traced (h : t.Moved u place) (ht : t.Steady) (hk : t.Traced k) : u.Traced k := by
  induction hk with
  | @attached k ha =>
    obtain hau | hdu := h.later.attached_or_dead ha
    · exact .attached hau
    · refine .dead hdu fun m hm => ?_
      obtain hp | hp := h.passes hm
      · rw [PassesTo, ht.settled k (attached_alive ha)] at hp
        cases hp
      · exact .attached (h.supplants hp).attached'
  | dead hd _ ih =>
    refine .dead (h.later.dead hd) fun m hm => ?_
    obtain hp | hp := h.passes hm
    · exact ih m hp
    · exact .attached (h.supplants hp).attached'

/-- Where a step leads to from a place: to the node that was there before, or to the one that it was passed
on to. -/
theorem Moved.follow (h : t.Moved u place) (ht : t.Steady) (hk : t.Traced k)
    (hm : Session.follow u k = some m) :
    Session.follow t k = some m ∨ ∃ n, place = some (n, m) ∧ Session.follow t k = some n := by
  induction hk with
  | @attached k ha =>
    obtain hau | hdu := h.later.attached_or_dead ha
    · rw [follow_attached hau] at hm
      cases hm
      exact .inl (follow_attached ha)
    · rw [follow_dead hdu] at hm
      obtain ⟨c, hc, hcm⟩ := Option.bind_eq_some_iff.mp hm
      obtain hp | hp := h.passes hc
      · rw [PassesTo, ht.settled k (attached_alive ha)] at hp
        cases hp
      · rw [follow_attached (h.supplants hp).attached'] at hcm
        cases hcm
        exact .inr ⟨k, hp, follow_attached ha⟩
  | dead hd _ ih =>
    rw [follow_dead (h.later.dead hd)] at hm
    obtain ⟨c, hc, hcm⟩ := Option.bind_eq_some_iff.mp hm
    obtain hp | hp := h.passes hc
    · rw [follow_dead hd, show (t.node _).successor = some c from hp, Option.bind_some]
      exact ih c hp hcm
    · exact absurd rfl (hd.ne (attached_alive (h.supplants hp).attached))

/-- What waits is in the order of the tree, after all that was seen, and below opened nodes only. -/
structure Due (t : SyntaxTree) (opened seen work : List NodeId) : Prop where
  sorted : work.Pairwise fun a b => t.isAttached a = true → t.isAttached b = true → t.Before a b
  after : ∀ v ∈ seen, ∀ w ∈ work, t.isAttached v = true → t.isAttached w = true → t.Before v w
  opened : ∀ w ∈ work, t.isAttached w = true → ∀ a, t.Below w a → a ∈ opened

namespace Due

theorem tail (h : t.Due opened seen (n :: work)) : t.Due opened seen work :=
  ⟨(List.pairwise_cons.mp h.sorted).2, fun v hv w hw => h.after v hv w (.tail _ hw),
    fun w hw => h.opened w (.tail _ hw)⟩

/-- Nothing that waits and is attached was seen. -/
theorem not_seen (h : t.Due opened seen (n :: work)) (ht : t.Linked) (hn : t.isAttached n = true) :
    n ∉ seen := fun hs => ht.order_irrefl (attached_alive hn) (h.after n hs n (.head _) hn hn)

theorem moved (h : t.Due opened seen work) (ht : t.Linked) (hm : t.Moved u place)
    (hk : t.Known (seen ++ work)) : u.Due opened seen work := by
  have hback : ∀ {n}, n ∈ seen ++ work → u.isAttached n = true → t.isAttached n = true :=
    fun hn => hk.before hm.later hn
  refine ⟨h.sorted.imp_of_mem ?_, fun v hv w hw hva hwa => ?_, fun w hw hwa a hb => ?_⟩
  · intro a b ha hb hab haa hba
    have haa' := hback (List.mem_append_right _ ha) haa
    have hba' := hback (List.mem_append_right _ hb) hba
    exact hm.rearranged.before ht haa' hba' haa hba (hab haa' hba')
  · have hva' := hback (List.mem_append_left _ hv) hva
    have hwa' := hback (List.mem_append_right _ hw) hwa
    exact hm.rearranged.before ht hva' hwa' hva hwa (h.after v hv w hw hva' hwa')
  · have hwa' := hback (List.mem_append_right _ hw) hwa
    exact h.opened w hw hwa' a (hm.rearranged.below ht hwa' hb)

/-- The node that takes the place of the first one that waits may wait in its place. -/
theorem supplanted (h : t.Due opened seen (n :: work)) (ht : t.Linked) (hm : t.Moved u place)
    (hk : t.Known (seen ++ work)) (hs : t.Supplants u n m) (ho : ∀ a ∈ opened, a ∈ seen) :
    u.Due opened seen (m :: work) := by
  have hback : ∀ {n}, n ∈ seen ++ work → u.isAttached n = true → t.isAttached n = true :=
    fun hn => hk.before hm.later hn
  have hrest := h.tail.moved ht hm hk
  obtain ⟨hfirst, -⟩ := List.pairwise_cons.mp h.sorted
  refine ⟨List.pairwise_cons.mpr ⟨fun w hw _ hwa => ?_, hrest.sorted⟩, fun v hv => ?_, ?_⟩
  · have hwa' := hback (List.mem_append_right _ hw) hwa
    -- what is above a node that waits was opened, and so comes before the place
    refine hs.before hwa' hwa (hfirst w hw hs.attached hwa') fun a hb => ?_
    have haa := ht.attached_above hwa' hb.to_reflTransGen
    exact h.after a (ho a (h.opened w (.tail _ hw) hwa' a hb)) n (.head _) haa hs.attached
  · refine List.forall_mem_cons.mpr ⟨fun hva _ => ?_, hrest.after v hv⟩
    have hva' := hback (List.mem_append_left _ hv) hva
    exact hs.after hva' hva (h.after v hv n (.head _) hva' hs.attached)
  · refine List.forall_mem_cons.mpr ⟨fun _ a hb => ?_, hrest.opened⟩
    exact h.opened n (.head _) hs.attached a (hs.below hb)

/-- When a node is opened, its children wait in its place. -/
theorem expanded (h : t.Due opened seen (n :: work)) (ht : t.Linked) (hn : t.isAttached n = true)
    (hnew : n ∉ opened) (hns : ∀ v ∈ ns, v = n ∨ t.Dead v) :
    t.Due (opened ++ [n]) (ns ++ seen) (t.children n ++ work) := by
  obtain ⟨hfirst, hrest⟩ := List.pairwise_cons.mp h.sorted
  have hleft : ∀ w ∈ work, t.isAttached w = true → t.LeftOf n w := by
    intro w hw hwa
    refine (hfirst w hw hn hwa).resolve_left fun hb => ?_
    exact hnew (h.opened w (.tail _ hw) hwa n hb)
  refine ⟨List.pairwise_append.mpr ⟨?_, hrest, ?_⟩, ?_, ?_⟩
  · refine List.pairwise_iff_forall_sublist.mpr fun {a b} hab _ _ => .inr (.of_children hab)
  · intro c hc w hw _ hwa
    exact .inr ((hleft w hw hwa).within (.single hc) .refl)
  · intro v hv w hw hva hwa
    have hseen : v = n ∨ v ∈ seen := by
      obtain hv | hv := List.mem_append.mp hv
      · exact .inl ((hns v hv).resolve_right fun hd => hd.ne (attached_alive hva) rfl)
      · exact .inr hv
    obtain rfl | hv := hseen
    · obtain hw | hw := List.mem_append.mp hw
      · exact .inl (.single hw)
      · exact hfirst w hw hn hwa
    · obtain hw | hw := List.mem_append.mp hw
      · exact (h.after v hv n (.head _) hva hn).below (.single hw)
      · exact h.after v hv w (.tail _ hw) hva hwa
  · intro w hw hwa a hb
    obtain hw | hw := List.mem_append.mp hw
    · obtain ⟨q, hq, hqa⟩ := Relation.TransGen.head'_iff.mp hb
      obtain rfl := ht.child_unique hq hw (attached_alive hwa)
      obtain rfl | hqb := within_iff.mp hqa
      · exact List.mem_append_right _ (.head _)
      · exact List.mem_append_left _ (h.opened q (.head _) hn a hqb)
    · exact List.mem_append_left _ (h.opened w (.tail _ hw) hwa a hb)

/-- A dead node has dead children only, which make no difference. -/
theorem expanded_dead (h : t.Due opened seen work) (ht : t.Linked) (hn : t.Dead n) :
    t.Due (opened ++ [n]) seen (t.children n ++ work) := by
  have hdead : ∀ c ∈ t.children n, t.isAttached c ≠ true := by
    intro c hc ha
    have hc := (ht.child hc).2
    rw [attached_alive ha, hn.2] at hc
    cases hc
  refine ⟨List.pairwise_append.mpr ⟨?_, h.sorted, ?_⟩, ?_, ?_⟩
  · exact List.pairwise_iff_forall_sublist.mpr fun {a b} hab ha _ => absurd ha (hdead a (hab.subset (.head _)))
  · exact fun c hc w _ hca _ => absurd hca (hdead c hc)
  · intro v hv w hw hva hwa
    obtain hw | hw := List.mem_append.mp hw
    · exact absurd hwa (hdead w hw)
    · exact h.after v hv w hw hva hwa
  · intro w hw hwa a hb
    obtain hw | hw := List.mem_append.mp hw
    · exact absurd hwa (hdead w hw)
    · exact List.mem_append_left _ (h.opened w hw hwa a hb)

/-- Nodes that are dead may count as seen. -/
theorem dead_seen (h : t.Due opened seen work) (hns : ∀ v ∈ ns, t.Dead v) :
    t.Due opened (ns ++ seen) work := by
  refine ⟨h.sorted, fun v hv w hw hva hwa => ?_, h.opened⟩
  obtain hv | hv := List.mem_append.mp hv
  · exact absurd rfl ((hns v hv).ne (attached_alive hva))
  · exact h.after v hv w hw hva hwa

end Due

/-- The place that a visit has come to, which began at `start`. -/
structure Placed (t : SyntaxTree) (opened seen work : List NodeId) (start k : NodeId) : Prop where
  steady : t.Steady
  due : t.Due opened seen work
  known : t.Known (seen ++ work)
  placed : t.Traced k
  fresh : k ∉ opened
  start : start = k ∨ t.Dead start
  here : ∀ m, Session.follow t k = some m → t.Due opened seen (m :: work)

namespace Placed

variable (h : t.Placed opened seen work start k) (ho : ∀ a ∈ opened, a ∈ seen)
include h ho

theorem moved (hm : t.Moved u place) : u.Placed opened seen work start k where
  steady := hm.steady
  due := h.due.moved h.steady.linked hm h.known
  known := h.known.later hm.later
  placed := hm.traced h.steady h.placed
  fresh := h.fresh
  start := h.start.imp_right hm.later.dead
  here m hf := by
    have hl := h.steady.linked
    obtain hf' | ⟨n, hp, hf'⟩ := hm.follow h.steady h.placed hf
    · have hatt := (Option.filter_eq_some_iff.mp hf').2
      refine (h.here m hf').moved hl hm fun a ha => ?_
      obtain ha | ha := List.mem_append.mp ha
      · exact h.known a (List.mem_append_left _ ha)
      · obtain rfl | ha := List.mem_cons.mp ha
        · exact .inl hatt
        · exact h.known a (List.mem_append_right _ ha)
    · exact (h.here n hf').supplanted hl hm h.known (hm.supplants hp) ho

/-- The visit goes on at the node to which the place was passed on. -/
theorem follow (hf : Session.follow t k = some m) : t.Placed opened seen work start m where
  steady := h.steady
  due := h.due
  known := h.known
  placed := .attached (Option.filter_eq_some_iff.mp hf).2
  fresh hm := (h.here m hf).not_seen h.steady.linked (Option.filter_eq_some_iff.mp hf).2 (ho m hm)
  start := by
    obtain rfl | hd := h.start
    · obtain ha | hd := h.placed.attached_or_dead
      · rw [follow_attached ha] at hf
        exact .inl (Option.some.inj hf)
      · exact .inr hd
    · exact .inr hd
  here a ha := by
    rw [follow_attached (Option.filter_eq_some_iff.mp hf).2] at ha
    cases ha
    exact h.here m hf

omit ho

/-- If the place is gone, the node at which the visit began is dead. -/
theorem gone (hf : Session.follow t k = none) : t.Dead start := by
  have hd : t.Dead k := by
    refine h.placed.attached_or_dead.resolve_left fun ha => ?_
    rw [follow_attached ha] at hf
    cases hf
  exact h.start.elim (fun he => he ▸ hd) fun hs => hs

/-- The visit ends with opening the node at the place. -/
theorem expanded : t.Due (opened ++ [k]) ([start, k] ++ seen) (t.children k ++ work) := by
  have hl := h.steady.linked
  obtain ha | hd := h.placed.attached_or_dead
  · refine (h.here k (follow_attached ha)).expanded hl ha h.fresh fun v hv => ?_
    obtain rfl | hv := List.mem_cons.mp hv
    · exact h.start
    · exact .inl (List.mem_singleton.mp hv)
  · refine (h.due.expanded_dead hl hd).dead_seen fun v hv => ?_
    obtain rfl | hv := List.mem_cons.mp hv
    · exact h.start.elim (fun he => he ▸ hd) fun hs => hs
    · exact List.mem_singleton.mp hv ▸ hd

theorem known_expanded : t.Known (([start, k] ++ seen) ++ (t.children k ++ work)) := by
  have hplaced := h.placed.attached_or_dead
  have hstart : t.isAttached start = true ∨ t.Dead start := h.start.elim (fun he => he ▸ hplaced) .inr
  obtain ⟨hseen, hwork⟩ := List.forall_mem_append.mp h.known
  refine ((Known.append ?_ hseen).append ((Known.children h.steady.linked hplaced).append hwork))
  exact List.forall_mem_cons.mpr ⟨hstart, List.forall_mem_singleton.mpr hplaced⟩

end Placed

end SyntaxTree

end TreeTidy
