import TreeTidy.Proofs.Engine.Lockstep
/-!
Plans on trees that are the same under a renaming. A plan that uses each node it makes once does the same
to both trees: if one of its nodes cannot be made, that is for a reason that names no node.
-/
namespace TreeTidy

open SyntaxTree

section Rename

variable (g : NodeId → NodeId)

/-- The reference with the node of the tree renamed. -/
def Ref.rename : Ref → Ref
  | .old n => .old (g n)
  | .new i => .new i

def Step.rename : Step → Step
  | .copy n => .copy (g n)
  | .make kind span slots list =>
    .make kind span (slots.map (Option.map (Ref.rename g))) (list.map (Ref.rename g))

def Commit.rename : Commit → Commit
  | .replace site r => .replace (g site) (r.rename g)
  | .remove site => .remove (g site)
  | .splice first count r => .splice (g first) count (r.rename g)

def Plan.rename (p : Plan) : Plan := ⟨p.steps.map (Step.rename g), p.commit.rename g⟩

end Rename

/-- What a commit puts in place. -/
def Commit.refs : Commit → List Ref
  | .replace _ r => [r]
  | .remove _ => []
  | .splice _ _ r => [r]

/-- Steps that use each node they make once at most; the second list refers to some that are not used yet. -/
inductive Sparing : List Step → List Ref → Prop
  | nil : Sparing [] []
  | copy {steps : List Step} {free : List Ref} (h : Sparing steps free) (n : NodeId) :
    Sparing (steps ++ [.copy n]) (free ++ [.new steps.length])
  | make {steps : List Step} {rest : List Ref} (kind : NodeKind) (span : Span) (slots : List (Option Ref))
    (list : List Ref) (h : Sparing steps (slots.filterMap (fun o => o) ++ list ++ rest)) :
    Sparing (steps ++ [.make kind span slots list]) (rest ++ [.new steps.length])
  | sub {steps : List Step} {free used : List Ref} (h : Sparing steps free) (hs : used.Subperm free) :
    Sparing steps used

/-- The plan uses each node it makes once at most. -/
def Plan.Sparing (p : Plan) : Prop :=
  ∃ free, TreeTidy.Sparing p.steps free ∧ ∀ r ∈ p.commit.refs, r ∈ free ∨ ∃ n, r = .old n

variable {g : NodeId → NodeId} {k : Nat} {u t : SyntaxTree} {steps later : List Step} {free : List Ref}
  {made : List NodeId} {r : Ref}

theorem Sparing.new (h : Sparing steps free) : ∀ r ∈ free, ∃ i < steps.length, r = .new i := by
  have hlast : ∀ {steps : List Step} {rest : List Ref} (s : Step),
      (∀ r ∈ rest, ∃ i < steps.length, r = .new i) →
      ∀ r ∈ rest ++ [.new steps.length], ∃ i < (steps ++ [s]).length, r = .new i := by
    intro steps rest s hrest r hr
    rw [List.length_append, List.length_singleton]
    rcases List.mem_append.mp hr with hr | hr
    · obtain ⟨i, hi, he⟩ := hrest r hr
      exact ⟨i, Nat.lt_succ_of_lt hi, he⟩
    · exact ⟨steps.length, Nat.lt_succ_self _, List.mem_singleton.mp hr⟩
  induction h with
  | nil => exact List.forall_mem_nil _
  | copy _ n ih => exact hlast _ ih
  | make kind span slots list _ ih => exact hlast _ fun r hr => ih r (List.mem_append_right _ hr)
  | sub _ hs ih => exact fun r hr => ih r (hs.subset hr)

theorem Ref.resolve_rename (hr : ∀ i, r = .new i → i < made.length) :
    (r.rename g).resolve (made.map g) = g (r.resolve made) := by
  cases r with
  | old n => rfl
  | new i =>
    have hi := hr i rfl
    simp [rename, resolve, List.getD, List.getElem?_eq_getElem hi]

theorem Step.performAll_append (made : List NodeId) (steps later : List Step) :
    performAll made (steps ++ later) = (performAll made steps).andThen fun made => performAll made later := by
  induction steps generalizing made with
  | nil => rfl
  | cons s steps ih =>
    rw [List.cons_append, performAll, performAll, Edit.andThen_assoc]
    exact congrArg (s.perform made).andThen (funext fun n => ih (made ++ [n]))

/-- Two trees on which the same steps were made, with what is free to be used. -/
structure Underway (g : NodeId → NodeId) (k : Nat) (u t : SyntaxTree) (made : List NodeId) (count : Nat)
    (free : List Ref) : Prop where
  renamed : Renamed g k u t
  orderly : u.Orderly
  orderly' : t.Orderly
  length : made.length = count
  loose : u.Loose (free.map (Ref.resolve made))

section Perform

variable {x y : Edit.Setting} {es es' : List Event} {s : Step} {rest : List Ref}

/-- Made on the two trees, the steps come through on both, or break off for the same reason. -/
def InStep (g : NodeId → NodeId) (k : Nat) (x y : Edit.Setting) (u t : SyntaxTree) (es es' : List Event)
    (steps : List Step) (free : List Ref) : Prop :=
  (∃ made u' t', (Step.performAll [] steps).runFrom x u es = ⟨.ok made, u', es⟩ ∧
    (Step.performAll [] (steps.map (Step.rename g))).runFrom y t es' = ⟨.ok (made.map g), t', es'⟩ ∧
    Underway g k u' t' made steps.length free) ∨
  ∃ m u' t', (Step.performAll [] steps).runFrom x u es = ⟨.error m, u', es⟩ ∧
    (Step.performAll [] (steps.map (Step.rename g))).runFrom y t es' = ⟨.error m, t', es'⟩ ∧
    Renamed g k u' t'

/-- One more step, which leaves the rest as it is. -/
theorem InStep.snoc (h : InStep g k x y u t es es' steps free)
    (hnew : ∀ r ∈ rest, ∃ i < steps.length, r = .new i)
    (hs : ∀ {made u t}, Underway g k u t made steps.length free →
      (∃ m u' t', (s.perform made).runFrom x u es = ⟨.ok m, u', es⟩ ∧
        ((s.rename g).perform (made.map g)).runFrom y t es' = ⟨.ok (g m), t', es'⟩ ∧
        Renamed g k u' t' ∧ u'.Loose (rest.map (Ref.resolve made) ++ [m])) ∨
      ∃ e, (s.perform made).runFrom x u es = ⟨.error e, u, es⟩ ∧
        ((s.rename g).perform (made.map g)).runFrom y t es' = ⟨.error e, t, es'⟩) :
    InStep g k x y u t es es' (steps ++ [s]) (rest ++ [.new steps.length]) := by
  unfold InStep
  rw [List.map_append, Step.performAll_append, Step.performAll_append, Edit.runFrom_andThen,
    Edit.runFrom_andThen]
  rcases h with ⟨made, u₁, t₁, hu, ht, h⟩ | ⟨m, u₁, t₁, hu, ht, h⟩
  · rw [hu, ht]
    simp only [List.map_cons, List.map_nil, Step.performAll, Edit.runFrom_andThen]
    rcases hs h with ⟨m, u₂, t₂, hu₂, ht₂, hr, hl⟩ | ⟨e, hu₂, ht₂⟩
    · rw [hu₂, ht₂]
      refine .inl ⟨made ++ [m], u₂, t₂, rfl, ?_, hr, ?_, ?_, ?_, ?_⟩
      · simp [Edit.runFrom]
      · have ho := Edit.runFrom_orderly h.orderly x (s.perform made) es
        rwa [hu₂] at ho
      · have ho := Edit.runFrom_orderly h.orderly' y ((s.rename g).perform (made.map g)) es'
        rwa [ht₂] at ho
      · rw [List.length_append, List.length_append, h.length]
        rfl
      · have hold : rest.map (Ref.resolve (made ++ [m])) = rest.map (Ref.resolve made) := by
          refine List.map_congr_left fun r hr => ?_
          obtain ⟨i, hi, rfl⟩ := hnew r hr
          exact Ref.resolve_append (h.length ▸ hi) [m]
        have hlast : (Ref.new steps.length).resolve (made ++ [m]) = m := by simp [Ref.resolve, ← h.length]
        rwa [List.map_append, List.map_singleton, hold, hlast]
    · rw [hu₂, ht₂]
      exact .inr ⟨e, u₁, t₁, rfl, rfl, h.renamed⟩
  · rw [hu, ht]
    exact .inr ⟨m, u₁, t₁, rfl, rfl, h⟩

/-- A new node besides others. -/
theorem loose_concat {ns : List NodeId} {m : NodeId} (hd : ∀ c ∈ ns, u.isDetached c = true)
    (hn : ns.Nodup) (hm : u.isDetached m = true) (hlt : ∀ c ∈ ns, c < m) : u.Loose (ns ++ [m]) := by
  refine ⟨fun c hc => ?_, List.nodup_append.mpr ⟨hn, List.nodup_singleton m, fun a ha b hb he => ?_⟩⟩
  · rcases List.mem_append.mp hc with hc | hc
    · exact hd c hc
    · exact List.mem_singleton.mp hc ▸ hm
  · rw [he, List.mem_singleton.mp hb] at ha
    exact Nat.lt_irrefl m (hlt m ha)

theorem Underway.copy (h : Underway g k u t made steps.length free) (n : NodeId) :
    ∃ m u' t', ((Step.copy n).perform made).runFrom x u es = ⟨.ok m, u', es⟩ ∧
      (((Step.copy n).rename g).perform (made.map g)).runFrom y t es' = ⟨.ok (g m), t', es'⟩ ∧
      Renamed g k u' t' ∧ u'.Loose (free.map (Ref.resolve made) ++ [m]) := by
  obtain ⟨hm, hr⟩ := h.renamed.clone h.orderly.linked h.orderly'.linked n
  have hc := h.orderly.linked.clone n
  refine ⟨(u.clone n).1, (u.clone n).2, (t.clone (g n)).2, rfl, ?_, hr, ?_⟩
  · rw [← hm]
    rfl
  · refine loose_concat (hc.kept.loose h.loose).detached h.loose.nodup hc.detached fun c hmem => ?_
    exact lt_of_lt_of_le (lt_of_alive (isDetached_iff.mp (h.loose.detached c hmem)).1) hc.new

theorem Underway.make {kind : NodeKind} {span : Span} {slots : List (Option Ref)} {list : List Ref}
    (h : Underway g k u t made steps.length (slots.filterMap (fun o => o) ++ list ++ rest))
    (hnew : ∀ r ∈ slots.filterMap (fun o => o) ++ list ++ rest, ∃ i < steps.length, r = .new i) :
    (∃ m u' t', ((Step.make kind span slots list).perform made).runFrom x u es = ⟨.ok m, u', es⟩ ∧
      (((Step.make kind span slots list).rename g).perform (made.map g)).runFrom y t es' =
        ⟨.ok (g m), t', es'⟩ ∧
      Renamed g k u' t' ∧ u'.Loose (rest.map (Ref.resolve made) ++ [m])) ∨
    ∃ e, ((Step.make kind span slots list).perform made).runFrom x u es = ⟨.error e, u, es⟩ ∧
      (((Step.make kind span slots list).rename g).perform (made.map g)).runFrom y t es' =
        ⟨.error e, t, es'⟩ := by
  have hres : ∀ r ∈ slots.filterMap (fun o => o) ++ list, (r.rename g).resolve (made.map g) =
      g (r.resolve made) := by
    intro r hr
    refine Ref.resolve_rename fun i hi => ?_
    obtain ⟨j, hj, he⟩ := hnew r (List.mem_append_left _ hr)
    rw [hi, Ref.new.injEq] at he
    rw [he, h.length]
    exact hj
  have hspec : (⟨kind, span, none, (slots.map (Option.map (Ref.rename g))).map
      (Option.map (Ref.resolve (made.map g))), (list.map (Ref.rename g)).map (Ref.resolve (made.map g))⟩ :
      NodeSpec) = NodeSpec.rename g ⟨kind, span, none, slots.map (Option.map (Ref.resolve made)),
        list.map (Ref.resolve made)⟩ := by
    simp only [NodeSpec.rename, List.map_map, NodeSpec.mk.injEq, true_and]
    constructor
    · refine List.map_congr_left fun o ho => ?_
      cases o with
      | none => rfl
      | some r => exact congrArg some (hres r (List.mem_append_left _ (List.mem_filterMap.mpr ⟨_, ho, rfl⟩)))
    · exact List.map_congr_left fun r hr => hres r (List.mem_append_right _ hr)
  have hchildren : (slots.map (Option.map (Ref.resolve made))).filterMap (fun o => o) ++
      list.map (Ref.resolve made) = (slots.filterMap (fun o => o) ++ list).map (Ref.resolve made) := by
    rw [List.map_append, List.filterMap_map, List.map_filterMap]
    congr 1
  obtain ⟨hdet, hnodup⟩ := h.loose
  rw [List.map_append, ← hchildren] at hdet hnodup
  obtain ⟨hheld, hfree, hapart⟩ := List.nodup_append.mp hnodup
  simp only [Step.rename, Step.perform, hspec, Edit.make, Edit.runFrom]
  rcases h.renamed.create? (s := ⟨kind, span, none, slots.map (Option.map (Ref.resolve made)),
    list.map (Ref.resolve made)⟩) ⟨fun c hc => hdet c (List.mem_append_left _ hc), hheld⟩ with
    ⟨m, u', t', hu, ht, hr⟩ | ⟨e, hu, ht⟩
  · have hm := h.orderly.linked.create? hu
    refine .inl ⟨m, u', t', by rw [hu], by rw [ht], hr, loose_concat ?_ hfree
      (hm.isDetached h.orderly.linked) ?_⟩
    · intro c hc
      refine hm.isDetached_of_detached (hdet c (List.mem_append_right _ hc)) fun hmem => ?_
      rw [hm.node] at hmem
      change c ∈ (padSlots _ _).filterMap (fun o => o) ++ _ at hmem
      rw [filterMap_padSlots] at hmem
      exact hapart c hmem c hc rfl
    · intro c hc
      rw [hm.fresh]
      exact lt_of_alive (isDetached_iff.mp (hdet c (List.mem_append_right _ hc))).1
  · exact .inr ⟨"create: " ++ e.message, by rw [hu], by rw [ht]⟩

/-- Steps that use nothing twice do the same to trees that are the same under a renaming. -/
theorem Sparing.inStep (h : Sparing steps free) (hr : Renamed g k u t) (hu : u.Orderly) (ht : t.Orderly)
    (x y : Edit.Setting) (es es' : List Event) : InStep g k x y u t es es' steps free := by
  induction h with
  | nil => exact .inl ⟨[], u, t, rfl, rfl, hr, hu, ht, rfl, loose_iff.mpr unseen_nil⟩
  | copy hs n ih => exact ih.snoc hs.new fun h => .inl (h.copy n)
  | make kind span slots list hs ih =>
    exact ih.snoc (fun r hr => hs.new r (List.mem_append_right _ hr)) fun h => h.make hs.new
  | sub _ hs ih =>
    rcases ih with ⟨made, u', t', hu, ht, h⟩ | h
    · refine .inl ⟨made, u', t', hu, ht, h.renamed, h.orderly, h.orderly', h.length, ?_, ?_⟩
      · intro c hc
        obtain ⟨r, hr, rfl⟩ := List.mem_map.mp hc
        exact h.loose.detached _ (List.mem_map_of_mem (hs.subset hr))
      · obtain ⟨l, hp, hl⟩ := hs
        exact (hp.map _).nodup_iff.mp (h.loose.nodup.sublist (hl.map _))
    · exact .inr h

/-- Such plans do the same, and report the same. -/
theorem Plan.Sparing.alike {p : Plan} (h : p.Sparing) (hr : Renamed g k u t) (hu : u.Orderly)
    (ht : t.Orderly) (hrule : y.rule = x.rule) (hpass : y.pass = x.pass)
    (hes : es'.map Event.text = es.map Event.text) :
    Edit.Alike g k (p.perform.runFrom x u es) ((p.rename g).perform.runFrom y t es') := by
  obtain ⟨free, hs, hc⟩ := h
  have hsteps : (p.rename g).steps = p.steps.map (Step.rename g) := rfl
  rw [Plan.perform, Plan.perform, Edit.runFrom_andThen, Edit.runFrom_andThen]
  rcases hs.inStep hr hu ht x y es es' with ⟨made, u', t', hpu, hpt, h⟩ | ⟨m, u', t', hpu, hpt, h⟩
  · have hchange : (p.rename g).commit.change (made.map g) = (p.commit.change made).rename g := by
      have hres : ∀ r ∈ p.commit.refs, (r.rename g).resolve (made.map g) = g (r.resolve made) := by
        intro r hr
        refine Ref.resolve_rename fun i hi => ?_
        rcases hc r hr with hf | ⟨n, rfl⟩
        · obtain ⟨j, hj, he⟩ := hs.new r hf
          rw [hi, Ref.new.injEq] at he
          rw [he, h.length]
          exact hj
        · cases hi
      rw [Plan.rename]
      cases hcom : p.commit with
      | remove site => rfl
      | replace site r =>
        rw [hcom] at hres
        exact congrArg (Change.replace (g site)) (hres r (.head _))
      | splice first count r =>
        rw [hcom] at hres
        exact congrArg (fun n => Change.splice (g first) count [n]) (hres r (.head _))
    rw [hpu, hsteps, hpt]
    simp only [hchange]
    exact Edit.alike_change h.renamed hrule hpass hes h.orderly.linked _
  · rw [hpu, hsteps, hpt]
    exact ⟨rfl, h, hes⟩

end Perform

section Whole

theorem Step.revision_perform (hu : u.Linked) (made : List NodeId) (s : Step) (x : Edit.Setting)
    (es : List Event) :
    ((s.perform made).runFrom x u es).tree.revision = u.revision := by
  cases s with
  | copy n => exact (hu.clone n).kept.revision
  | make kind span slots list =>
    simp only [perform, Edit.make, Edit.runFrom]
    cases h : u.create? ⟨kind, span, none, slots.map (Option.map (Ref.resolve made)),
      list.map (Ref.resolve made)⟩ with
    | ok r => exact (hu.create? h).grown.revision
    | error e => rfl

/-- Making nodes changes nothing that is attached. -/
theorem Step.revision_performAll (hu : u.Linked) (made : List NodeId) (steps : List Step)
    (x : Edit.Setting) (es : List Event) :
    ((performAll made steps).runFrom x u es).tree.revision = u.revision := by
  induction steps generalizing made u es with
  | nil => rfl
  | cons s steps ih =>
    have hs := revision_perform hu made s x es
    have hl := (Edit.runFrom_edited hu x (s.perform made) es).linked
    rw [performAll, Edit.runFrom_andThen]
    cases ((s.perform made).runFrom x u es).value with
    | ok n => exact (ih hl (made ++ [n]) _).trans hs
    | error m => exact hs

/-- A plan that breaks off does so before it changes anything. -/
theorem Plan.revision_of_error {p : Plan} {x : Edit.Setting} {es : List Event} {m : String} (hu : u.Linked)
    (h : (p.perform.runFrom x u es).value = .error m) :
    (p.perform.runFrom x u es).tree.revision = u.revision := by
  have hs := Step.revision_performAll hu [] p.steps x es
  rw [perform, Edit.runFrom_andThen] at h ⊢
  generalize (Step.performAll [] p.steps).runFrom x u es = o at h hs ⊢
  obtain ⟨value, t, es₁⟩ := o
  cases value with
  | error m => exact hs
  | ok made =>
    simp only [Edit.runFrom] at h
    split at h <;> cases h

end Whole

end TreeTidy
