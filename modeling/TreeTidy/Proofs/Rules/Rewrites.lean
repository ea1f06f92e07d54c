import TreeTidy.Proofs.Rules.Weight
import TreeTidy.Proofs.Tree.Outcomes
/-!
Plans that can be carried out, and leave a better tree: one whose document is less than it was, is as
clear, and makes up no span. A plan is judged by the document that it puts in a place, and by that alone.
-/
namespace TreeTidy

open SyntaxTree

namespace SyntaxTree

variable {t u : SyntaxTree} {n p : NodeId} {k : NodeKind} {D : Doc}

/-- A node of the kind can stand where the node is. -/
structure Takes (t : SyntaxTree) (n : NodeId) (k : NodeKind) : Prop where
  admits : ∀ p pos, t.parent? n = some p → (t.node p).at? pos = some n →
    (t.kind p).admits pos k = true
  root : t.root = some n → k.category = (t.kind n).category

/-- A better tree, one change later. -/
structure Rewritten (t u : SyntaxTree) : Prop where
  linked : u.Linked
  laid : u.Laid
  revision : u.revision = t.revision + 1
  less : ∃ d e, t.rootDoc? = some d ∧ u.rootDoc? = some e ∧ e.Less d ∧
    e.kind.category = d.kind.category
  clear : t.Clear → u.Clear
  spanned : ∀ s, u.Spanned s → t.Spanned s

section

variable (ht : t.Linked) (hl : t.Laid) (hn : t.isAttached n = true)
include ht hl hn

theorem Laid.takes_self : t.Takes n (t.kind n) where
  admits _ _ hp hat := hl.admits ht (ht.attached_parent hn hp) hat
  root _ := rfl

/-- Places do not tell kinds of one category apart, but for blocks. -/
theorem Laid.takes (hk : k.category = (t.kind n).category) (hb : t.kind n ≠ .block) : t.Takes n k where
  admits p pos hp hat := by
    have h := (hl.takes_self ht hn).admits p pos hp hat
    rw [NodeKind.admits, Option.any_eq_true_iff_get] at h ⊢
    obtain ⟨hc, ha⟩ := h
    refine ⟨hc, ?_⟩
    cases hs : ((t.kind p).admittedAt pos).get hc <;> rw [hs] at ha <;>
      simp_all [SlotClass.accepts]
  root _ := hk

theorem Becomes.rewritten (hb : t.Becomes n D u) (hD : D.Conforms) (hk : t.Takes n D.kind)
    (hs : t.Suits n D) (hless : D.Less (t.doc n)) : t.Rewritten u := by
  obtain ⟨r, hr, hnr⟩ := ht.isAttached_iff.mp hn
  obtain ⟨way, hw⟩ := exists_at? hnr
  have hroot : t.rootDoc? = some (t.doc r) := congrArg (Option.map t.doc) hr
  have hu := hb.rootDoc hr hw
  have hat : (t.doc r).at? way = some (t.doc n) := by rw [ht.at?_doc, hw, Option.map_some]
  have hconf : ((t.doc r).put way D).Conforms ∧
      ((t.doc r).put way D).kind.category = (t.doc r).kind.category := by
    have hrc := ht.laid_iff.mp hl _ hroot
    rcases ht.attached_cases hn with ⟨hrn, -⟩ | ⟨p, hp, -, hpa⟩
    · obtain rfl : r = n := Option.some.inj (hr.symm.trans hrn)
      obtain rfl := ht.at?_unique (ht.root hr).1 hw (show t.at? r [] = some r from rfl)
      exact ⟨hD, by rw [Doc.put_nil, hk.root hr, ht.kind_doc]⟩
    · obtain ⟨pos, -, hpos⟩ := ht.exists_position hp
      obtain ⟨front, hf, rfl⟩ := ht.way_parent hr hpa hpos hw
      have hpd : (t.doc r).at? front = some (t.doc p) := by rw [ht.at?_doc, hf, Option.map_some]
      have hc : (t.doc p).child? pos = some (t.doc n) := by rw [ht.child?_doc, hpos, Option.map_some]
      rw [Doc.put_append hpd, Doc.put_cons hc, Doc.put_nil]
      refine ⟨hrc.put hpd ((hrc.at? hpd).setChild hc hD ?_) Doc.kind_setChild, ?_⟩
      · rw [ht.kind_doc]
        exact hk.admits p pos hp hpos
      · rw [Doc.kind_put hpd Doc.kind_setChild]
  refine ⟨hb.linked, hb.linked.laid_iff.mpr ?_, hb.revision, ⟨t.doc r, _, hroot, hu,
    hless.put hat, hconf.2⟩, hb.clear ht hn hs, fun s => hb.spanned ht hn hs⟩
  intro d hd
  rw [hu, Option.some.injEq] at hd
  exact hd ▸ hconf.1

/-- Some list children give way to others that weigh less. -/
theorem Becomes.rewritten_list {news : List Doc} (i count : Nat)
    (hb : t.Becomes n ((t.doc n).withList (((t.list n).take i).map t.doc ++ news ++
      ((t.list n).drop (i + count)).map t.doc)) u)
    (hnews : ∀ x ∈ news, x.Proper t ∧ (t.kind n).admits (.list 0) x.kind = true)
    (hw : (news.map Doc.weight).sum <
      ((((t.list n).drop i).take count).map fun c => (t.doc c).weight).sum) : t.Rewritten u := by
  have hd := hl.proper ht hn
  have hall : ∀ x ∈ ((t.list n).take i).map t.doc ++ news ++ ((t.list n).drop (i + count)).map t.doc,
      x.Proper t ∧ (t.kind n).admits (.list 0) x.kind = true := by
    intro x hx
    have hold : ∀ c ∈ t.list n, (t.doc c).Proper t ∧
        (t.kind n).admits (.list 0) (t.doc c).kind = true :=
      fun c hc => by
        rw [ht.kind_doc]
        have hca := ht.attached_child hn (List.mem_append_right _ hc)
        exact ⟨hl.proper ht hca, hl.admits_list ht hn hc⟩
    rcases List.mem_append.mp hx with hx | hx
    · rcases List.mem_append.mp hx with hx | hx
      · obtain ⟨c, hc, rfl⟩ := List.mem_map.mp hx
        exact hold c (List.mem_of_mem_take hc)
      · exact hnews x hx
    · obtain ⟨c, hc, rfl⟩ := List.mem_map.mp hx
      exact hold c (List.mem_of_mem_drop hc)
  refine hb.rewritten ht hl hn (hd.conforms.withList ?_) ?_
    (ht.suits_withList hn (fun h x hx => (hall x hx).1.clear h) fun x hx => (hall x hx).1.spans) (.inl ?_)
  · intro x hx
    rw [ht.kind_doc]
    exact ⟨(hall x hx).1.conforms, (hall x hx).2⟩
  · have hk := hl.takes_self ht hn
    rwa [← ht.kind_doc n] at hk
  · have hsplit : (t.list n).map t.doc = ((t.list n).take i).map t.doc ++
        ((((t.list n).drop i).take count).map t.doc ++ ((t.list n).drop (i + count)).map t.doc) := by
      rw [← List.map_append, ← List.map_append, ← List.drop_drop, List.take_append_drop,
        List.take_append_drop]
    have hlist : (t.doc n).list = (t.list n).map t.doc := by
      rw [ht.doc_eq]
      rfl
    rw [Doc.weight, Doc.weight, Doc.total_node, Doc.total_node (t.doc n), hlist, hsplit]
    simp only [Doc.withList, Doc.kind, Doc.slots, Doc.list, Doc.totalList_eq, List.map_append,
      List.sum_append, List.map_map]
    refine Nat.add_lt_add_left (Nat.mul_lt_mul_of_pos_left ?_ (Scale.weights.list_pos _)) _
    have hw' : (news.map (Doc.total .weights)).sum <
      ((((t.list n).drop i).take count).map (Doc.total .weights ∘ t.doc)).sum := hw
    omega

end

end SyntaxTree

/-- The plan can be carried out, whoever does it, and leaves a better tree. -/
def Plan.Rewrites (p : Plan) (t : SyntaxTree) : Prop :=
  ∃ u, t.Rewritten u ∧ ∀ (x : Edit.Setting) es, p.perform.runFrom x t es = ⟨.ok true, u, es⟩

/-- Carried out, whoever does it, the plan puts the document in the place of the node. -/
def Plan.Puts (p : Plan) (t : SyntaxTree) (n : NodeId) (D : Doc) : Prop :=
  ∃ u, t.Becomes n D u ∧ ∀ (x : Edit.Setting) es, p.perform.runFrom x t es = ⟨.ok true, u, es⟩

section

variable {t u : SyntaxTree} {n p a : NodeId} {D : Doc} {d : Draft Commit}
  {made : List NodeId} {i count : Nat}

/-- Once its steps are made, a plan does what its commit does. -/
theorem Plan.runFrom_perform (plan : Plan) (h : Performed t [] plan.steps made u) {v : SyntaxTree}
    (hc : (plan.commit.change made).appliedTo? u = some v) (x : Edit.Setting) (es : List Event) :
    plan.perform.runFrom x t es = ⟨.ok true, v, es⟩ := by
  rw [Plan.perform, Edit.runFrom_andThen, h.runFrom x es]
  simp only [Edit.runFrom, hc]

variable (ht : t.Linked) (hl : t.Laid) (hn : t.isAttached n = true)
include ht hl hn

omit hl in
/-- Carried out, a draft that ends with a replacement puts its document in the place of the node. -/
theorem Draft.Ends.replace_puts (h : d.Ends t [] (.replace n) D) (hk : t.Takes n D.kind) :
    (Draft.plan d).Puts t n D := by
  obtain ⟨q, hc, made, u, hp⟩ := h [] (Ready.nil ht)
  have hg := hp.kept.grown
  have hnode : ∀ {m}, t.isAttached m = true → u.node m = t.node m := hg.node_of_attached ht
  have hloose := hp.loose.detached (q.ref.resolve made) (.head _)
  have hdoc : u.doc (q.ref.resolve made) = D := hp.doc (q, D) (.head _)
  have hkind : u.kind (q.ref.resolve made) = D.kind := by rw [← hdoc, hp.linked.kind_doc]
  obtain ⟨v, hv, hb⟩ := hp.linked.replace_becomes ((hg.attached_iff ht hp.linked).mpr hn)
    (.inl hloose) fun p pos hpn hat => by
      rw [parent?, hnode hn] at hpn
      have hpa := ht.attached_parent hn hpn
      rw [hnode hpa] at hat
      rw [kind, hnode hpa, hkind]
      exact hk.admits p pos hpn hat
  rw [hdoc] at hb
  refine ⟨v, hb.of_extends hp.kept ht, ?_⟩
  apply Plan.runFrom_perform (Draft.plan d) hp.performed
  rw [show (Draft.plan d).commit = _ from hc]
  exact hv

theorem Plan.Puts.rewrites {q : Plan} (h : q.Puts t n D) (hD : D.Conforms) (hk : t.Takes n D.kind)
    (hs : t.Suits n D) (hless : D.Less (t.doc n)) : q.Rewrites t := by
  obtain ⟨u, hb, hrun⟩ := h
  exact ⟨u, hb.rewritten ht hl hn hD hk hs hless, hrun⟩

theorem Draft.Ends.replace_rewrites (h : d.Ends t [] (.replace n) D) (hD : D.Conforms)
    (hk : t.Takes n D.kind) (hs : t.Suits n D) (hless : D.Less (t.doc n)) : (Draft.plan d).Rewrites t :=
  (h.replace_puts ht hn hk).rewrites ht hl hn hD hk hs hless

omit hl in
/-- Carried out, a draft that ends with a splice puts a document in the place of list children. -/
theorem Draft.Ends.spliced (h : d.Ends t [] (.splice n count) D) (hp : t.parent? n = some p)
    (hi : (t.list p)[i]? = some n) (hcount : i + count ≤ (t.list p).length) (hpos : 0 < count)
    (hk : (t.kind p).admits (.list 0) D.kind = true) : ∃ u, t.Spliced p i count D u ∧
      ∀ (x : Edit.Setting) es, (Draft.plan d).perform.runFrom x t es = ⟨.ok true, u, es⟩ := by
  obtain ⟨q, hc, made, u, hr⟩ := h [] (Ready.nil ht)
  have hg := hr.kept.grown
  have hnode : ∀ {m}, t.isAttached m = true → u.node m = t.node m := hg.node_of_attached ht
  have hpa := ht.attached_parent hn hp
  have hloose := hr.loose.detached (q.ref.resolve made) (.head _)
  have hdoc : u.doc (q.ref.resolve made) = D := hr.doc (q, D) (.head _)
  have hkind : u.kind (q.ref.resolve made) = D.kind := by rw [← hdoc, hr.linked.kind_doc]
  have hlist : u.list p = t.list p := congrArg Node.list (hnode hpa)
  have hpu : u.parent? n = some p := by rwa [parent?, hnode hn]
  have hiu : (u.list p)[i]? = some n := by rwa [hlist]
  have hold : ∀ ns : List NodeId, (∀ c ∈ ns, c ∈ t.list p) → ns.map u.doc = ns.map t.doc :=
    fun ns hns => List.map_congr_left fun c hc =>
      hg.doc ht (ht.child (p := p) (List.mem_append_right _ (hns c hc))).1
  obtain ⟨v, hv, hb⟩ := hr.linked.splice_becomes ((hg.attached_iff ht hr.linked).mpr hn) hpu hiu
    (by rwa [hlist]) hpos hloose (by rw [kind, hnode hpa, hkind]; exact hk)
  obtain ⟨hnew, hrel⟩ := hr.linked.splice_relisted hpu hiu hloose hv
  have hlt := lt_of_alive (attached_alive hpa)
  rw [hg.doc ht hlt, hlist, List.map_append, List.map_append, List.map_singleton, hdoc,
    hold _ fun _ => List.mem_of_mem_take, hold _ fun _ => List.mem_of_mem_drop] at hb
  rw [hlist] at hrel
  refine ⟨v, ⟨hb.of_extends hr.kept ht, _, hnew.trans hdoc,
    hrel.of_extends hr.kept ht hr.linked hlt⟩, ?_⟩
  apply Plan.runFrom_perform (Draft.plan d) hr.performed
  rw [show (Draft.plan d).commit = _ from hc]
  exact hv

theorem Draft.Ends.splice_rewrites (h : d.Ends t [] (.splice n count) D) (hD : D.Proper t)
    (hp : t.parent? n = some p) (hi : (t.list p)[i]? = some n)
    (hcount : i + count ≤ (t.list p).length) (hpos : 0 < count)
    (hk : (t.kind p).admits (.list 0) D.kind = true)
    (hless : D.weight < ((((t.list p).drop i).take count).map fun c => (t.doc c).weight).sum) :
    (Draft.plan d).Rewrites t := by
  obtain ⟨u, hu, hrun⟩ := h.spliced ht hn hp hi hcount hpos hk
  refine ⟨u, hu.becomes.rewritten_list ht hl (ht.attached_parent hn hp) i count ?_ ?_, hrun⟩
  · intro x hx
    rw [List.mem_singleton.mp hx]
    exact ⟨hD, hk⟩
  · simpa using hless

/-- A list child can be taken away. -/
theorem remove_rewrites (hp : t.parent? n = some p) (hi : (t.list p)[i]? = some n)
    (hw : 0 < (t.doc n).weight) : (Plan.mk [] (.remove n)).Rewrites t := by
  obtain ⟨u, hu, hb⟩ := ht.remove_becomes hn hp hi
  have hlt := (List.getElem?_eq_some_iff.mp hi).1
  rw [List.eraseIdx_eq_take_drop_succ, List.map_append,
    ← List.append_nil (((t.list p).take i).map _)] at hb
  refine ⟨u, hb.rewritten_list ht hl (ht.attached_parent hn hp) i 1 nofun ?_, ?_⟩
  · have hone : ((t.list p).drop i).take 1 = [n] := by
      rw [List.drop_eq_getElem_cons hlt, List.take_succ_cons, List.take_zero]
      exact congrArg (fun c => [c]) (List.getElem?_eq_some_iff.mp hi).2
    simpa [hone] using hw
  · exact Plan.runFrom_perform _ .nil hu

omit hl in
/-- A node gives way to one below it. -/
theorem lift_puts (ha : t.Below a n) (hk : t.Takes n (t.kind a)) :
    (Plan.mk [] (.replace n (.old a))).Puts t n (t.doc a) := by
  have haa := ht.attached_of_within hn ha.to_reflTransGen
  obtain ⟨u, hu, hb⟩ := ht.replace_becomes hn (.inr ⟨n, .head _, attached_alive haa, ha⟩) hk.admits
  exact ⟨u, hb, Plan.runFrom_perform _ .nil hu⟩

theorem lift_rewrites (ha : t.Below a n) (hk : t.Takes n (t.kind a)) (hs : t.Suits n (t.doc a))
    (hless : (t.doc a).Less (t.doc n)) : (Plan.mk [] (.replace n (.old a))).Rewrites t := by
  have haa := ht.attached_of_within hn ha.to_reflTransGen
  have hkd : t.Takes n (t.doc a).kind := by rwa [ht.kind_doc]
  exact (lift_puts ht hn ha hk).rewrites ht hl hn (hl.conforms ht haa) hkd hs hless

end

/-- Where a rule that plans changes the tree, it does as its plan. -/
theorem Rule.becomes_of_puts {info : RuleInfo} {granularity : Granularity}
    {planAt : View → NodeId → Option Plan} {t : SyntaxTree} {n m : NodeId} {x : Edit.Setting}
    {es : List Event} {P : Doc → Prop}
    (hrev : (((Rule.ofPlan info granularity planAt).act n).runFrom x t es).tree.revision ≠ t.revision)
    (h : ∀ p, planAt ⟨t, x.resolver, x.rule, x.pass⟩ n = some p → ∃ D, P D ∧ p.Puts t m D) :
    ∃ D, P D ∧ t.Becomes m D (((Rule.ofPlan info granularity planAt).act n).runFrom x t es).tree := by
  simp only [Rule.ofPlan, Edit.runFrom] at hrev ⊢
  cases hp : planAt ⟨t, x.resolver, x.rule, x.pass⟩ n with
  | none =>
    rw [hp] at hrev
    exact absurd rfl hrev
  | some p =>
    obtain ⟨D, hD, u, hu, hrun⟩ := h p hp
    exact ⟨D, hD, by rwa [hrun]⟩

end TreeTidy
