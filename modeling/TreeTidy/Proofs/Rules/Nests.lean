import TreeTidy.Proofs.Rules.Rewrites
import TreeTidy.Proofs.Tree.Nested
import TreeTidy.Rules.Binding
/-!
Plans that keep spans nested. Whether one does can be told from the spans of its steps: each new
node has to cover the nodes that it is made over, and the last one must not reach beyond the place
it is put in.
-/
namespace TreeTidy

open SyntaxTree

/-- The span of the node that a step makes. -/
def Step.span (t : SyntaxTree) : Step → Span
  | copy n => t.span n
  | make _ span _ _ => span

variable {t u v : SyntaxTree} {n : NodeId} {steps later : List Step} {made : List NodeId}
  {s : Step} {r : Ref} {span : Span}

/-- The node meant is one of the tree, or made by one of the steps, and has the span. -/
inductive Ref.Spans (t : SyntaxTree) (steps : List Step) : Ref → Span → Prop
  | old {n : NodeId} (hn : t.isAttached n = true) : Spans t steps (.old n) (t.span n)
  | new {i : Nat} {s : Step} (hs : steps[i]? = some s) : Spans t steps (.new i) (s.span t)

theorem Ref.Spans.mono (h : r.Spans t steps span) (hs : steps <+: later) : r.Spans t later span := by
  cases h with
  | old hn => exact .old hn
  | @new i s hi =>
    obtain ⟨more, rfl⟩ := hs
    refine .new ?_
    rwa [List.getElem?_append_left (List.getElem?_eq_some_iff.mp hi).1]

/-- The step makes a node of nested spans, after the ones before. -/
inductive Step.Nests (t : SyntaxTree) (before : List Step) : Step → Prop
  | copy {n : NodeId} (hn : t.isAttached n = true) : Nests t before (.copy n)
  | make {kind : NodeKind} {span : Span} {slots : List (Option Ref)} {list : List Ref}
      (hs : span.start < span.stop)
      (hc : ∀ r, some r ∈ slots ∨ r ∈ list → ∃ s, r.Spans t before s ∧ s.Within span) :
      Nests t before (.make kind span slots list)

/-- Every step makes a node of nested spans. -/
def Step.AllNest (t : SyntaxTree) (steps : List Step) : Prop :=
  ∀ before s, before ++ [s] <+: steps → s.Nests t before

theorem Step.AllNest.nil : Step.AllNest t [] := by
  intro before s h
  simp at h

theorem Step.AllNest.push (h : Step.AllNest t steps) (hs : s.Nests t steps) :
    Step.AllNest t (steps ++ [s]) := by
  intro before s' hb
  rcases List.prefix_concat_iff.mp hb with he | hb
  · obtain ⟨rfl, he⟩ := List.append_inj' he rfl
    obtain rfl : s' = s := by simpa using he
    exact hs
  · exact h before s' hb

/-- What is put in the place does not reach beyond it. -/
inductive Commit.Nests (t : SyntaxTree) (steps : List Step) : Commit → Prop
  | replace {site : NodeId} {r : Ref} {span : Span} (hr : r.Spans t steps span)
      (hw : span.Within (t.span site)) : Nests t steps (.replace site r)
  | remove {site : NodeId} : Nests t steps (.remove site)
  | splice {first : NodeId} {count : Nat} {r : Ref} {span : Span} (hr : r.Spans t steps span)
      (hw : ∀ p, t.parent? first = some p → span.Within (t.span p)) :
      Nests t steps (.splice first count r)

/-- The plan keeps spans nested. -/
structure Plan.Nests (t : SyntaxTree) (p : Plan) : Prop where
  steps : Step.AllNest t p.steps
  commit : p.commit.Nests t p.steps

section Run

/-- The node has nested spans, and its own is the one given. -/
structure SyntaxTree.Bears (t : SyntaxTree) (n : NodeId) (span : Span) : Prop where
  lt : n < t.size
  nested : (t.doc n).Nested
  span : t.span n = span

theorem SyntaxTree.Bears.grown (h : t.Bears n span) (ht : t.Linked) (hg : t.Grown u) :
    u.Bears n span where
  lt := lt_of_lt_of_le h.lt hg.size
  nested := by
    rw [hg.doc ht h.lt]
    exact h.nested
  span := by rw [SyntaxTree.span, hg.node h.lt, ← h.span, SyntaxTree.span]

variable (ht : t.Linked) (hs : t.Nested) (hg : t.Grown u) (hu : u.Linked)
  (hm : List.Forall₂ (fun s m => u.Bears m (s.span t)) steps made)
include ht hs hg hm

theorem bears_of_spans (hr : r.Spans t steps span) : u.Bears (r.resolve made) span := by
  cases hr with
  | @old n hn =>
    have hlt := lt_of_alive (attached_alive hn)
    exact SyntaxTree.Bears.grown ⟨hlt, hs.doc ht hn, rfl⟩ ht hg
  | @new i s hi =>
    obtain ⟨hlt, rfl⟩ := List.getElem?_eq_some_iff.mp hi
    have hlt' : i < made.length := hm.length_eq ▸ hlt
    have hb := List.forall₂_iff_get.mp hm |>.2 i hlt hlt'
    simpa [Ref.resolve, List.getD, List.getElem?_eq_getElem hlt'] using hb

include hu

theorem bears_of_step {x : Edit.Setting} {es es' : List Event} {m : NodeId} (hn : s.Nests t steps)
    (h : (s.perform made).runFrom x u es = ⟨.ok m, v, es'⟩) :
    v.Linked ∧ u.Grown v ∧ v.Bears m (s.span t) := by
  cases hn with
  | @copy n hn =>
    have hc := hu.clone n
    obtain ⟨rfl, rfl, -⟩ : (u.clone n).1 = m ∧ (u.clone n).2 = v ∧ es = es' := by
      simpa [Step.perform, Edit.copy, Edit.runFrom] using h
    have hlt := lt_of_alive (attached_alive hn)
    have hd := hg.doc ht hlt
    refine ⟨hc.linked, hc.kept.grown, lt_of_alive (isDetached_iff.mp hc.detached).1, ?_, ?_⟩
    · rw [hc.doc, hd]
      exact hs.doc ht hn
    · rw [← hc.linked.span_doc, hc.doc, hd, ht.span_doc]
      rfl
  | @make kind span slots list hspan hc =>
    rw [Step.perform, Edit.make, Edit.runFrom] at h
    split at h
    next m' w hcreate =>
      obtain ⟨rfl, rfl, -⟩ : m' = m ∧ w = v ∧ es = es' := by simpa [Edit.runFrom] using h
      have hmade := hu.create? hcreate
      obtain ⟨-, hloose, -, -⟩ := create?_eq_ok.mp hcreate
      have hlt : ∀ c ∈ (⟨kind, span, none, padSlots kind.layout.slots.length
          (slots.map (Option.map (Ref.resolve made))), list.map (Ref.resolve made), none, true,
          none⟩ : Node).children, c < u.size :=
        fun c hc => lt_of_alive (isDetached_iff.mp (hloose.detached c hc)).1
      have hdoc := hmade.doc hu hlt
      refine ⟨hmade.linked, hmade.grown, ?_, ?_, ?_⟩
      · rw [hmade.size, hmade.fresh]
        exact Nat.lt_succ_self _
      · rw [hdoc]
        refine .node hspan fun d hd => ?_
        obtain ⟨r, hr, rfl⟩ : ∃ r, (some r ∈ slots ∨ r ∈ list) ∧ u.doc (r.resolve made) = d := by
          simp only [padSlots, List.map_append, List.map_map, List.mem_append, List.mem_map,
            List.mem_replicate, List.map_replicate] at hd
          rcases hd with (⟨o, ho, he⟩ | ⟨-, he⟩) | ⟨r, hr, he⟩
          · cases o with
            | none => cases he
            | some r => exact ⟨r, .inl ho, Option.some.inj he⟩
          · cases he
          · exact ⟨r, .inr hr, he⟩
        obtain ⟨s, hrs, hw⟩ := hc r hr
        have hb := bears_of_spans ht hs hg hm hrs
        rw [hu.span_doc, hb.span]
        exact ⟨hb.nested, hw⟩
      · rw [SyntaxTree.span, hmade.node]
        rfl
    · cases h

theorem bears_of_steps {x : Edit.Setting} {rest : List Step} {made' : List NodeId}
    {es es' : List Event} (hall : Step.AllNest t (steps ++ rest))
    (h : (Step.performAll made rest).runFrom x u es = ⟨.ok made', v, es'⟩) :
    v.Linked ∧ t.Grown v ∧ List.Forall₂ (fun s m => v.Bears m (s.span t)) (steps ++ rest) made' := by
  induction rest generalizing steps made u es with
  | nil =>
    obtain ⟨rfl, rfl, -⟩ : made = made' ∧ u = v ∧ es = es' := by
      simpa [Step.performAll, Edit.runFrom] using h
    rw [List.append_nil]
    exact ⟨hu, hg, hm⟩
  | cons s rest ih =>
    rw [Step.performAll, Edit.runFrom_andThen] at h
    generalize ho : (s.perform made).runFrom x u es = o at h
    obtain ⟨value, w, ws⟩ := o
    cases value with
    | error message => simp at h
    | ok m =>
      obtain ⟨hw, hgw, hb⟩ := bears_of_step ht hs hg hu hm (hall steps s (by simp)) ho
      have hm' : List.Forall₂ (fun s m => w.Bears m (s.span t)) (steps ++ [s]) (made ++ [m]) :=
        List.rel_append (hm.imp fun _ _ hb => hb.grown hu hgw) (.cons hb .nil)
      rw [List.append_cons] at hall ⊢
      exact ih (hg.trans hgw) hw hm' hall h

/-- The change that the plan ends with keeps spans nested. -/
theorem Commit.Nests.nested {c : Commit} (hc : c.Nests t steps)
    (h : (c.change made).appliedTo? u = some v) : v.Nested := by
  have hus : u.Nested := by
    rw [hu.nested_iff, hg.rootDoc? ht]
    exact ht.nested_iff.mp hs
  have hnode : ∀ {m}, u.isAttached m = true → u.node m = t.node m := fun hm =>
    hg.node_of_attached ht ((hg.attached_iff ht hu).mp hm)
  cases hc with
  | @replace site r span hr hw =>
    have hb := bears_of_spans ht hs hg hm hr
    have ho := (hu.replace?_cases h).2.1
    refine hu.nested_replace hus h hb.nested ?_
    rwa [hb.span, SyntaxTree.span, hnode ho]
  | remove => exact hu.nested_remove hus h
  | @splice first count r span hr hw =>
    have hb := bears_of_spans ht hs hg hm hr
    have ha := (hu.splice?_cases h).2.1
    refine hu.nested_splice hus h hb.nested fun p hp => ?_
    rw [hb.span, SyntaxTree.span, hnode (hu.attached_parent ha hp)]
    rw [parent?, hnode ha] at hp
    exact hw p hp

omit hg hu hm in
/-- A plan that nests, carried out on a tree with nested spans, leaves one. -/
theorem Plan.Nests.nested {p : Plan} (hp : p.Nests t) {x : Edit.Setting} {es es' : List Event}
    (h : p.perform.runFrom x t es = ⟨.ok true, u, es'⟩) : u.Nested := by
  rw [Plan.perform, Edit.runFrom_andThen] at h
  generalize ho : (Step.performAll [] p.steps).runFrom x t es = o at h
  obtain ⟨value, w, ws⟩ := o
  cases value with
  | error message => simp at h
  | ok made =>
    obtain ⟨hw, hg, hm⟩ := bears_of_steps ht hs (.refl t) ht List.Forall₂.nil hp.steps ho
    simp only [Edit.runFrom] at h
    split at h
    next v hv =>
      obtain rfl : v = u := by simpa using congrArg Edit.Outcome.tree h
      exact hp.commit.nested ht hs hg hw hm hv
    · simp at h

end Run

end TreeTidy

/-! Drafts of such plans. What is said of a draft does not depend on the steps that come before it,
so drafts are followed one after the other; the pieces that they may use stay at hand. -/
namespace TreeTidy

open SyntaxTree

variable {t : SyntaxTree} {n : NodeId} {steps later : List Step} {ctx : List Piece} {p a b : Piece}
  {inner outer : Span}

/-- The node of the piece is there, and has the span that the piece tells. -/
def Piece.AtHand (t : SyntaxTree) (steps : List Step) (p : Piece) : Prop := p.ref.Spans t steps p.span

theorem Ref.Spans.proper {r : Ref} {span : Span} (h : r.Spans t steps span) (hs : t.Nested)
    (hall : Step.AllNest t steps) : span.start < span.stop := by
  cases h with
  | old hn => exact (hs _ hn).1
  | @new i s hi =>
    obtain ⟨hlt, rfl⟩ := List.getElem?_eq_some_iff.mp hi
    have hn := hall (steps.take i) steps[i] <| by
      rw [List.take_append_getElem hlt]
      exact List.take_prefix (i + 1) steps
    generalize steps[i] = s at hn
    cases hn with
    | copy hn => exact (hs _ hn).1
    | make hspan => exact hspan

namespace Draft

/-- With the pieces at hand, the draft makes nodes of nested spans only, and gives a piece that does
not reach beyond the span. -/
def Nests (t : SyntaxTree) (ctx : List Piece) (d : Draft Piece) (outer : Span) : Prop :=
  ∀ steps, Step.AllNest t steps → (∀ p ∈ ctx, p.AtHand t steps) →
    Step.AllNest t (d steps).2 ∧ steps <+: (d steps).2 ∧ (d steps).1.AtHand t (d steps).2 ∧
      (d steps).1.span.Within outer

/-- With the pieces at hand, the draft makes nodes of nested spans only, and ends with a change that
keeps them nested. -/
def Closes (t : SyntaxTree) (ctx : List Piece) (d : Draft Commit) : Prop :=
  ∀ steps, Step.AllNest t steps → (∀ p ∈ ctx, p.AtHand t steps) →
    Step.AllNest t (d steps).2 ∧ (d steps).1.Nests t (d steps).2

theorem plan_nests {d : Draft Commit} (h : Closes t [] d) : (plan d).Nests t :=
  have h := h [] .nil (List.forall_mem_nil _)
  ⟨h.1, h.2⟩

variable {d : Draft Piece} {f : Piece → Draft Piece} {g : Piece → Draft Commit}

theorem at_hand_cons (hp : p.AtHand t later) (hs : steps <+: later)
    (hc : ∀ q ∈ ctx, q.AtHand t steps) : ∀ q ∈ p :: ctx, q.AtHand t later :=
  List.forall_mem_cons.mpr ⟨hp, fun q hq => (hc q hq).mono hs⟩

theorem Nests.bind (hd : Nests t ctx d inner)
    (hf : ∀ p, p.span.Within inner → Nests t (p :: ctx) (f p) outer) :
    Nests t ctx (d >>= f) outer := by
  intro steps hall hc
  obtain ⟨hall', hpre, hp, hw⟩ := hd steps hall hc
  obtain ⟨hall'', hpre', h⟩ := hf _ hw _ hall' (at_hand_cons hp hpre hc)
  exact ⟨hall'', hpre.trans hpre', h⟩

theorem Closes.bind (hd : Nests t ctx d inner)
    (hg : ∀ p, p.span.Within inner → Closes t (p :: ctx) (g p)) : Closes t ctx (d >>= g) := by
  intro steps hall hc
  obtain ⟨hall', hpre, hp, hw⟩ := hd steps hall hc
  exact hg _ hw _ hall' (at_hand_cons hp hpre hc)

theorem Nests.pure (hp : p ∈ ctx) (hw : p.span.Within outer) : Nests t ctx (pure p) outer :=
  fun _ hall hc => ⟨hall, List.prefix_rfl, hc p hp, hw⟩

theorem closes_replace {site : NodeId} (hp : p ∈ ctx) (hw : p.span.Within (t.span site)) :
    Closes t ctx (pure (.replace site p.ref)) :=
  fun _ hall hc => ⟨hall, .replace (hc p hp) hw⟩

theorem closes_splice {first : NodeId} {count : Nat} (hp : p ∈ ctx)
    (hw : ∀ q, t.parent? first = some q → p.span.Within (t.span q)) :
    Closes t ctx (pure (.splice first count p.ref)) :=
  fun _ hall hc => ⟨hall, .splice (hc p hp) hw⟩

/-- A step that nests adds a piece. -/
theorem nests_push {s : Step} {kind : NodeKind}
    (hs : ∀ steps, Step.AllNest t steps → (∀ p ∈ ctx, p.AtHand t steps) → s.Nests t steps)
    (hw : (s.span t).Within outer) :
    Nests t ctx (fun steps => (⟨.new steps.length, kind, s.span t⟩, steps ++ [s])) outer := by
  intro steps hall hc
  refine ⟨hall.push (hs steps hall hc), List.prefix_append _ _, .new ?_, hw⟩
  simp

theorem copy_nests (hn : t.isAttached n = true) (hw : (t.span n).Within outer) :
    Nests t ctx (copy t n) outer :=
  nests_push (s := .copy n) (fun _ _ _ => .copy hn) hw

theorem make_nests {kind : NodeKind} {span : Span} {slots list : List Piece}
    (hspan : span.start < span.stop) (hc : ∀ p ∈ slots ++ list, p ∈ ctx ∧ p.span.Within span)
    (hw : span.Within outer) : Nests t ctx (make kind span slots list) outer := by
  refine nests_push (s := .make kind span _ _) (fun steps _ hctx => .make hspan fun r hr => ?_) hw
  obtain ⟨p, hp, rfl⟩ : ∃ p ∈ slots ++ list, p.ref = r := by
    rcases hr with hr | hr
    · obtain ⟨p, hp, he⟩ := List.mem_map.mp hr
      exact ⟨p, List.mem_append_left _ hp, Option.some.inj he⟩
    · obtain ⟨p, hp, he⟩ := List.mem_map.mp hr
      exact ⟨p, List.mem_append_right _ hp, he⟩
  exact ⟨p.span, hctx p (hc p hp).1, (hc p hp).2⟩

theorem closes_copyAll (inner : Span) {ns : List NodeId} {g : List Piece → Draft Commit}
    (hn : ∀ n ∈ ns, t.isAttached n = true ∧ (t.span n).Within inner)
    (hg : ∀ ps, (∀ p ∈ ps, p.span.Within inner) → Closes t (ps ++ ctx) (g ps)) :
    Closes t ctx (copyAll t ns >>= g) := by
  induction ns generalizing ctx g with
  | nil => exact hg [] (List.forall_mem_nil _)
  | cons n ns ih =>
    obtain ⟨⟨ha, hw⟩, hn⟩ := List.forall_mem_cons.mp hn
    show Closes t ctx (copy t n >>= fun p => copyAll t ns >>= fun ps => g (p :: ps))
    refine Closes.bind (copy_nests ha hw) fun p hp => ?_
    refine ih (g := fun ps => g (p :: ps)) hn fun ps hps => ?_
    intro steps hall hc
    have hperm : (ps ++ p :: ctx).Perm (p :: (ps ++ ctx)) := List.perm_middle
    exact hg (p :: ps) (List.forall_mem_cons.mpr ⟨hp, hps⟩) steps hall fun q hq =>
      hc q (hperm.mem_iff.mpr hq)

section

variable (hs : t.Nested)
include hs

/-- The spans of the pieces at hand are not empty. -/
theorem Nests.proper (h : (∀ p ∈ ctx, p.span.start < p.span.stop) → Nests t ctx d outer) :
    Nests t ctx d outer :=
  fun steps hall hc => h (fun p hp => (hc p hp).proper hs hall) steps hall hc

theorem atLevel_nests (level : Nat) (hp : p ∈ ctx) (hw : p.span.Within outer) :
    Nests t ctx (atLevel level p) outer := by
  refine Nests.proper hs fun hproper => ?_
  unfold atLevel
  split
  · exact make_nests (hproper p hp) (List.forall_mem_singleton.mpr ⟨hp, .refl _⟩) hw
  · exact .pure hp hw

theorem negate_nests (hp : p ∈ ctx) (hw : p.span.Within outer) : Nests t ctx (negate p) outer := by
  refine Nests.proper hs fun hproper => ?_
  refine Nests.bind (atLevel_nests hs 12 hp (.refl _)) fun operand ho => ?_
  exact make_nests (hproper p hp) (List.forall_mem_singleton.mpr ⟨.head _, ho⟩) hw

theorem join_nests (op : BinaryOp) (ha : a ∈ ctx) (hb : b ∈ ctx) (hwa : a.span.Within outer)
    (hwb : b.span.Within outer) : Nests t ctx (join op a b) outer := by
  refine Nests.proper hs fun hproper => ?_
  refine Nests.bind (atLevel_nests hs _ ha (Span.within_cover_left _ b.span)) fun left hl => ?_
  refine Nests.bind (atLevel_nests hs _ (.tail _ hb) (Span.within_cover_right a.span _))
    fun right hr => ?_
  exact make_nests (Span.start_lt_stop_cover (hproper a ha) _) (by simp [hl, hr]) (hwa.cover hwb)

theorem callOnCopy_nests (name : String) (hn : t.isAttached n = true)
    (hw : (t.span n).Within outer) : Nests t ctx (callOnCopy t n name) outer := by
  refine Nests.bind (copy_nests hn (.refl _)) fun p hp => ?_
  refine Nests.bind (atLevel_nests hs 13 (.head _) hp) fun r hr => ?_
  exact make_nests (hs n hn).1 (List.forall_mem_singleton.mpr ⟨.head _, hr⟩) hw

theorem putAt_closes {site : NodeId} (hsite : t.isAttached site = true) (hp : p ∈ ctx)
    (hw : p.span.Within (t.span site)) : Closes t ctx (putAt t site p) := by
  unfold putAt
  split
  · exact closes_replace hp hw
  · have hwrap : ∀ q : Piece, q.span.Within (t.span site) → Closes t (q :: ctx) (do
        let wrapped ← make .paren (t.span site) [q] []
        pure (.replace site wrapped.ref)) := fun q hq =>
      Closes.bind (make_nests (hs site hsite).1 (List.forall_mem_singleton.mpr ⟨.head _, hq⟩)
        (.refl _)) fun wrapped hwr => closes_replace (.head _) hwr
    intro steps hall hc
    have hat := hc p hp
    obtain ⟨r, kind, span⟩ := p
    cases hat with
    | old hn => exact Closes.bind (copy_nests hn hw) hwrap steps hall hc
    | new => exact Closes.bind (Nests.pure hp hw) hwrap steps hall hc

/-- A node of the tree can be put in the place of one that it does not reach beyond. -/
theorem keep_closes {site : NodeId} (hsite : t.isAttached site = true) (hn : t.isAttached n = true)
    (hw : (t.span n).Within (t.span site)) : Closes t [] (putAt t site (keep t n)) := by
  have h : Closes t [keep t n] (putAt t site (keep t n)) := putAt_closes hs hsite (.head _) hw
  exact fun steps hall _ => h steps hall (List.forall_mem_singleton.mpr (.old hn))

section Inside

variable (ht : t.Linked) (hn : t.isAttached n = true)
include ht hn

/-- What is below a node can be copied and does not reach beyond it. -/
theorem copy_nests_within {c : NodeId} (hc : t.Within c n) : Nests t ctx (copy t c) (t.span n) :=
  copy_nests (ht.attached_of_within hn hc) (hs.span_within ht hn hc)

theorem closes_copy {c : NodeId} (hc : t.Within c n)
    (hg : ∀ p, p.span.Within (t.span n) → Closes t (p :: ctx) (g p)) :
    Closes t ctx (copy t c >>= g) :=
  .bind (copy_nests_within hs ht hn hc) hg

omit ht in
/-- A new node of the span of an old one takes its place. -/
theorem closes_whole (kind : NodeKind) {slots list : List Piece}
    (hc : ∀ p ∈ slots ++ list, p ∈ ctx ∧ p.span.Within (t.span n)) :
    Closes t ctx (make kind (t.span n) slots list >>= fun q => pure (.replace n q.ref)) :=
  .bind (make_nests (hs n hn).1 hc (.refl _)) fun _ hq => closes_replace (.head _) hq

theorem keep_closes_within {c : NodeId} (hc : t.Within c n) : Closes t [] (putAt t n (keep t c)) :=
  keep_closes hs hn (ht.attached_of_within hn hc) (hs.span_within ht hn hc)

end Inside

end

end Draft

end TreeTidy
