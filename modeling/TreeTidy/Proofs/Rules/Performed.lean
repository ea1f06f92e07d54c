import TreeTidy.Proofs.Document.Conforms
import TreeTidy.Proofs.Tree.Clone
import TreeTidy.Proofs.Tree.Ways
import TreeTidy.Rules.Plan
/-!
Steps of a plan, made on a tree. The tree grows by nodes that nothing of it holds; the pieces of the
plan that no step has used yet are among them, with documents that are known beforehand.
-/
namespace TreeTidy

open SyntaxTree

/-- The document of a new node over new nodes. -/
def Doc.make (kind : NodeKind) (span : Span) (slots list : List Doc) : Doc :=
  .node kind span none (slots.map some) list

/-- Steps that come through: none of the nodes to be made is refused. -/
inductive Performed : SyntaxTree → List NodeId → List Step → List NodeId → SyntaxTree → Prop
  | nil {t : SyntaxTree} {made : List NodeId} : Performed t made [] made t
  | cons {t u v : SyntaxTree} {made made' : List NodeId} {s : Step} {steps : List Step} {m : NodeId}
      (hs : ∀ (x : Edit.Setting) es, (s.perform made).runFrom x t es = ⟨.ok m, u, es⟩)
      (h : Performed u (made ++ [m]) steps made' v) : Performed t made (s :: steps) made' v

namespace Edit

variable {α β : Type}

/-- A program that breaks off does so as a part, too; else the rest goes on from where it ends. -/
theorem runFrom_andThen (x : Setting) (e : Edit α) (f : α → Edit β) (t : SyntaxTree)
    (es : List Event) : (e.andThen f).runFrom x t es =
      match (e.runFrom x t es).value with
      | .ok a => (f a).runFrom x (e.runFrom x t es).tree (e.runFrom x t es).events
      | .error m => ⟨.error m, (e.runFrom x t es).tree, (e.runFrom x t es).events⟩ := by
  induction e generalizing t es with
  | done a => rfl
  | broken m => rfl
  | look next ih => exact ih _ _ _
  | create s next ih =>
    simp only [andThen, runFrom]
    cases h : t.create? s <;> exact ih _ _ _
  | clone n next ih => exact ih _ _ _
  | change c next ih =>
    simp only [andThen, runFrom]
    cases h : c.appliedTo? t <;> exact ih _ _ _

end Edit

namespace Performed

variable {t u v : SyntaxTree} {made made' made'' : List NodeId} {steps later : List Step}

theorem append (h : Performed t made steps made' u) (h' : Performed u made' later made'' v) :
    Performed t made (steps ++ later) made'' v := by
  induction h with
  | nil => exact h'
  | cons hs _ ih => exact .cons hs (ih h')

theorem runFrom (h : Performed t made steps made' u) (x : Edit.Setting) (es : List Event) :
    (Step.performAll made steps).runFrom x t es = ⟨.ok made', u, es⟩ := by
  induction h with
  | nil => rfl
  | cons hs _ ih => rw [Step.performAll, Edit.runFrom_andThen, hs x es]; exact ih

end Performed

/-- A piece and the document of its node. -/
abbrev Part := Piece × Doc

/-- The tree after the steps holds the parts, as new detached nodes that are all different. -/
structure Prepared (t : SyntaxTree) (steps : List Step) (parts : List Part) (made : List NodeId)
    (u : SyntaxTree) : Prop where
  performed : Performed t [] steps made u
  length : made.length = steps.length
  linked : u.Linked
  kept : t.Extends u
  ref : ∀ e ∈ parts, ∃ i < made.length, e.1.ref = .new i
  new : ∀ e ∈ parts, t.size ≤ e.1.ref.resolve made
  loose : u.Loose (parts.map fun e => e.1.ref.resolve made)
  doc : ∀ e ∈ parts, u.doc (e.1.ref.resolve made) = e.2
  told : ∀ e ∈ parts, e.1.kind = e.2.kind ∧ e.1.span = e.2.span

/-- The steps can be made, and give the parts. -/
def Ready (t : SyntaxTree) (steps : List Step) (parts : List Part) : Prop :=
  ∃ made u, Prepared t steps parts made u

variable {t : SyntaxTree} {steps : List Step} {parts used rest : List Part} {made : List NodeId}
  {D : Doc}

theorem Ready.nil (ht : t.Linked) : Ready t [] [] :=
  ⟨[], t, .nil, rfl, ht, .refl t, List.forall_mem_nil _, List.forall_mem_nil _,
    loose_iff.mpr unseen_nil, List.forall_mem_nil _, List.forall_mem_nil _⟩

/-- Parts may be left out, and their order does not matter. -/
theorem Prepared.subperm {u : SyntaxTree} (h : Prepared t steps parts made u)
    (hs : used.Subperm parts) : Prepared t steps used made u := by
  have hm : ∀ e ∈ used, e ∈ parts := fun e he => hs.subset he
  refine ⟨h.performed, h.length, h.linked, h.kept, fun e he => h.ref e (hm e he),
    fun e he => h.new e (hm e he), ⟨?_, ?_⟩, fun e he => h.doc e (hm e he),
    fun e he => h.told e (hm e he)⟩
  · intro c hc
    obtain ⟨e, he, rfl⟩ := List.mem_map.mp hc
    exact h.loose.detached _ (List.mem_map.mpr ⟨e, hm e he, rfl⟩)
  · obtain ⟨l, hp, hl⟩ := hs
    exact (hp.map _).nodup_iff.mp (h.loose.nodup.sublist (hl.map _))

theorem Prepared.isDetached {u : SyntaxTree} {e : Part} (h : Prepared t steps parts made u)
    (he : e ∈ parts) : u.isDetached (e.1.ref.resolve made) = true :=
  h.loose.detached _ (List.mem_map.mpr ⟨e, he, rfl⟩)

theorem Prepared.lt_size {u : SyntaxTree} {e : Part} (h : Prepared t steps parts made u)
    (he : e ∈ parts) : e.1.ref.resolve made < u.size :=
  lt_of_alive (isDetached_iff.mp (h.isDetached he)).1

theorem Ready.perm (h : Ready t steps parts) (hp : used.Perm parts) : Ready t steps used := by
  obtain ⟨made, u, h⟩ := h
  exact ⟨made, u, h.subperm hp.subperm⟩

theorem Ref.resolve_append {i : Nat} (hi : i < made.length) (ms : List NodeId) :
    (Ref.new i).resolve (made ++ ms) = (Ref.new i).resolve made := by
  simp [Ref.resolve, List.getD, List.getElem?_append_left hi]

/-- One more step adds one part, if it leaves the other ones as they are. -/
theorem Prepared.push {u v : SyntaxTree} {s : Step} {m : NodeId} (h : Prepared t steps rest made u)
    (hs : ∀ (x : Edit.Setting) es, (s.perform made).runFrom x u es = ⟨.ok m, v, es⟩)
    (hv : v.Linked) (hk : t.Extends v) (hm : u.size ≤ m) (hd : v.isDetached m = true)
    (hdet : ∀ e ∈ rest, v.isDetached (e.1.ref.resolve made) = true)
    (hdoc : ∀ e ∈ rest, v.doc (e.1.ref.resolve made) = u.doc (e.1.ref.resolve made))
    (hD : v.doc m = D) :
    Ready t (steps ++ [s]) (rest ++ [(⟨.new steps.length, D.kind, D.span⟩, D)]) := by
  have hold : ∀ e ∈ rest, e.1.ref.resolve (made ++ [m]) = e.1.ref.resolve made := by
    intro e he
    obtain ⟨i, hi, hr⟩ := h.ref e he
    rw [hr, Ref.resolve_append hi]
  have hnew : (Ref.new steps.length).resolve (made ++ [m]) = m := by
    simp [Ref.resolve, ← h.length]
  have hall : ∀ {q : Part → Prop}, (∀ e ∈ rest, q e) →
      q (⟨.new steps.length, D.kind, D.span⟩, D) →
      ∀ e ∈ rest ++ [(⟨.new steps.length, D.kind, D.span⟩, D)], q e := by
    intro q hr hn e he
    rcases List.mem_append.mp he with he | he
    · exact hr e he
    · rw [List.mem_singleton.mp he]
      exact hn
  refine ⟨made ++ [m], v, h.performed.append (.cons hs .nil), ?_, hv, hk, hall ?_ ?_,
    hall ?_ ?_, ⟨?_, ?_⟩, hall ?_ ?_,
    hall h.told ⟨rfl, rfl⟩⟩
  · rw [List.length_append, List.length_append, h.length]
    rfl
  · intro e he
    obtain ⟨i, hi, hr⟩ := h.ref e he
    exact ⟨i, by rw [List.length_append]; omega, hr⟩
  · refine ⟨steps.length, ?_, rfl⟩
    rw [List.length_append, h.length]
    exact Nat.lt_succ_self _
  · intro e he
    rw [hold e he]
    exact h.new e he
  · rw [hnew]
    exact h.kept.size.trans hm
  · intro c hc
    obtain ⟨e, he, rfl⟩ := List.mem_map.mp hc
    rcases List.mem_append.mp he with he | he
    · rw [hold e he]
      exact hdet e he
    · rw [List.mem_singleton.mp he, hnew]
      exact hd
  · have hmap : rest.map (fun e => e.1.ref.resolve (made ++ [m])) =
        rest.map fun e => e.1.ref.resolve made := List.map_congr_left hold
    rw [List.map_append, hmap, List.map_singleton, hnew, List.nodup_append]
    refine ⟨h.loose.nodup, List.nodup_singleton m, ?_⟩
    rintro _ ha b hb rfl
    obtain ⟨e, he, rfl⟩ := List.mem_map.mp ha
    rw [List.mem_singleton] at hb
    exact Nat.not_lt.mpr hm (hb ▸ h.lt_size he)
  · intro e he
    rw [hold e he, hdoc e he, h.doc e he]
  · rw [hnew]
    exact hD

/-- A copy of an old node is a part with the document of that node. -/
theorem Ready.copy {n : NodeId} (h : Ready t steps rest) (ht : t.Linked) (hn : n < t.size) :
    Ready t (steps ++ [.copy n]) (rest ++ [(⟨.new steps.length, t.kind n, t.span n⟩, t.doc n)]) := by
  obtain ⟨made, u, h⟩ := h
  have hc := h.linked.clone n
  have hdoc : u.doc n = t.doc n := h.kept.grown.doc ht hn
  rw [hdoc] at hc
  rw [← ht.kind_doc n, ← ht.span_doc n]
  have hs : ∀ (x : Edit.Setting) es, ((Step.copy n).perform made).runFrom x u es =
    ⟨.ok (u.clone n).1, (u.clone n).2, es⟩ := fun _ _ => rfl
  refine h.push hs hc.linked (h.kept.trans hc.kept) hc.new hc.detached ?_ ?_ hc.doc
  · intro e he
    rw [hc.kept.isDetached (h.lt_size he), h.isDetached he]
  · intro e he
    exact hc.kept.grown.doc h.linked (h.lt_size he)

/-- The nodes of parts that are to be held in slots. -/
def slotNodes (made : List NodeId) (ps : List Part) : List (Option NodeId) :=
  ps.map fun e => some (e.1.ref.resolve made)

/-- The nodes of parts that are to be held in a list. -/
def listNodes (made : List NodeId) (qs : List Part) : List NodeId :=
  qs.map fun e => e.1.ref.resolve made

theorem slotNodes_append_listNodes {ps qs : List Part} :
    (slotNodes made ps).filterMap (fun o => o) ++ listNodes made qs = listNodes made (ps ++ qs) := by
  rw [slotNodes, listNodes, listNodes, List.filterMap_map, List.map_append]
  exact congrArg (· ++ qs.map _) (List.filterMap_eq_map ▸ rfl)

section Make

variable {ps qs : List Part} {kind : NodeKind} {span : Span} {u : SyntaxTree}

namespace Prepared

variable (h : Prepared t steps (ps ++ qs ++ rest) made u)
include h

theorem held : Prepared t steps (ps ++ qs) made u :=
  h.subperm (List.sublist_append_left _ rest).subperm

theorem others : Prepared t steps rest made u := h.subperm (List.sublist_append_right _ rest).subperm

/-- The nodes fit a layout that the documents fit. -/
theorem fits_nodes (hf : (Doc.make kind span (ps.map Prod.snd) (qs.map Prod.snd)).Fits) :
    kind.Fits ((slotNodes made ps).map (Option.map u.kind)) ((listNodes made qs).map u.kind) := by
  have hkind : ∀ e ∈ ps ++ qs, u.kind (e.1.ref.resolve made) = e.2.kind := by
    intro e he
    rw [← h.linked.kind_doc, h.held.doc e he]
  have hs : (slotNodes made ps).map (Option.map u.kind) =
      ((ps.map Prod.snd).map some).map (Option.map Doc.kind) := by
    rw [slotNodes, List.map_map, List.map_map, List.map_map]
    apply List.map_congr_left
    intro e he
    exact congrArg some (hkind e (List.mem_append_left _ he))
  have hl : (listNodes made qs).map u.kind = (qs.map Prod.snd).map Doc.kind := by
    rw [listNodes, List.map_map, List.map_map]
    apply List.map_congr_left
    intro e he
    exact hkind e (List.mem_append_right _ he)
  rw [hs, hl]
  exact hf

/-- A node over the parts is not refused, and holds their nodes. -/
theorem create? (hf : (Doc.make kind span (ps.map Prod.snd) (qs.map Prod.snd)).Fits) :
    u.create? ⟨kind, span, none, slotNodes made ps, listNodes made qs⟩ =
      .ok (u.size, u.allocate kind span none (slotNodes made ps) (listNodes made qs)) ∧
    u.Made kind span none (slotNodes made ps) (listNodes made qs) u.size
      (u.allocate kind span none (slotNodes made ps) (listNodes made qs)) := by
  have hlen : (slotNodes made ps).length = kind.layout.slots.length := by
    have hl := hf.slots.length_eq
    simpa [Doc.make, Doc.slots, Doc.kind, slotNodes] using hl
  have hpad := padSlots_of_length hlen
  have hloose : u.Loose ((slotNodes made ps).filterMap (fun o => o) ++ listNodes made qs) := by
    rw [slotNodes_append_listNodes]
    exact h.held.loose
  have hcreate : u.create? ⟨kind, span, none, slotNodes made ps, listNodes made qs⟩ =
      .ok (u.size, u.allocate kind span none (slotNodes made ps) (listNodes made qs)) := by
    rw [create?_eq_ok, hpad]
    exact ⟨hlen.le, hloose, h.fits_nodes hf, rfl⟩
  have hm := h.linked.create? hcreate
  rw [hpad] at hm
  exact ⟨hcreate, hm⟩

/-- None of the nodes of the other parts is held by the new one. -/
theorem not_held {e : Part} (he : e ∈ rest) : e.1.ref.resolve made ∉ listNodes made (ps ++ qs) := by
  have hnodup := h.loose.nodup
  rw [List.map_append, List.nodup_append] at hnodup
  intro hc
  exact hnodup.2.2 _ hc _ (List.mem_map.mpr ⟨e, he, rfl⟩) rfl

end Prepared

/-- A step that makes a node over parts makes it over their nodes. -/
theorem Step.perform_make : (Step.make kind span (ps.map fun e => some e.1.ref)
    (qs.map fun e => e.1.ref)).perform made =
    Edit.make ⟨kind, span, none, slotNodes made ps, listNodes made qs⟩ := by
  rw [Step.perform, List.map_map, List.map_map]
  rfl

/-- A new node over parts is a part, if the kinds of the parts fit its layout. -/
theorem Ready.make (h : Ready t steps (ps ++ qs ++ rest))
    (hf : (Doc.make kind span (ps.map Prod.snd) (qs.map Prod.snd)).Fits) :
    Ready t (steps ++ [.make kind span (ps.map fun e => some e.1.ref) (qs.map fun e => e.1.ref)])
      (rest ++ [(⟨.new steps.length, kind, span⟩,
        Doc.make kind span (ps.map Prod.snd) (qs.map Prod.snd))]) := by
  obtain ⟨made, u, h⟩ := h
  obtain ⟨hcreate, hm⟩ := h.create? hf
  have hchildren : ((u.allocate kind span none (slotNodes made ps) (listNodes made qs)).node
      u.size).children = listNodes made (ps ++ qs) := by
    rw [hm.node]
    exact slotNodes_append_listNodes
  have hrun : ∀ (x : Edit.Setting) es, ((Step.make kind span (ps.map fun e => some e.1.ref)
      (qs.map fun e => e.1.ref)).perform made).runFrom x u es =
      ⟨.ok u.size, u.allocate kind span none (slotNodes made ps) (listNodes made qs), es⟩ := by
    intro x es
    rw [Step.perform_make, Edit.make, Edit.runFrom, hcreate]
    rfl
  refine h.others.push (D := Doc.make kind span (ps.map Prod.snd) (qs.map Prod.snd)) hrun hm.linked
    (hm.extends_of_new h.kept ?_) (le_refl _) (hm.isDetached h.linked) ?_ ?_ ?_
  · intro c hc
    rw [hchildren] at hc
    obtain ⟨e, he, rfl⟩ := List.mem_map.mp hc
    exact h.held.new e he
  · intro e he
    apply hm.isDetached_of_detached (h.others.isDetached he)
    rw [hchildren]
    exact h.not_held he
  · intro e he
    exact hm.grown.doc h.linked (h.others.lt_size he)
  · have hlt : ∀ c ∈ listNodes made (ps ++ qs), c < u.size := by
      intro c hc
      exact lt_of_alive (isDetached_iff.mp (h.held.loose.detached c hc)).1
    rw [← slotNodes_append_listNodes] at hlt
    rw [hm.doc h.linked hlt, Doc.make, Doc.node.injEq]
    refine ⟨rfl, rfl, rfl, ?_, ?_⟩
    · rw [slotNodes, List.map_map, List.map_map]
      apply List.map_congr_left
      intro e he
      exact congrArg some (h.held.doc e (List.mem_append_left _ he))
    · rw [listNodes, List.map_map]
      apply List.map_congr_left
      intro e he
      exact h.held.doc e (List.mem_append_right _ he)

end Make

end TreeTidy
