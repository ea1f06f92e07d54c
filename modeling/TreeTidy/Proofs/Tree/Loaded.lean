import TreeTidy.Proofs.Document.Postorder
/-!
Units are built of the documents whose nodes keep to the layouts, and of no others. What is built has as
many nodes as the document, and is written as the document without empty slots at the end of nodes; where
nothing is built, the first node that does not keep to its layout is named.
-/
namespace TreeTidy

namespace SyntaxTree

open Doc (postorder postorderSlots postorderList paddedSlots paddedList FirstAstray KeepsLayout)

variable {t u v w : SyntaxTree} {n : NodeId} {d : Doc} {place : DocPath} {slots : List (Option Doc)}
  {list : List Doc} {i : Nat}

section Faults

theorem keeps_of_conforms (h : d.padded.Conforms) : ∀ p ∈ d.postorder place, p.2.KeepsLayout := by
  rintro ⟨q, x⟩ hp
  obtain ⟨way, -, hw⟩ := d.mem_postorder.mp hp
  exact d.conforms_padded.mp h way x hw

theorem keeps_slots (h : ∀ c, some c ∈ paddedSlots slots → c.Conforms) :
    ∀ p ∈ postorderSlots place i slots, p.2.KeepsLayout := by
  rintro ⟨q, x⟩ hp
  obtain ⟨j, c, hc, hx⟩ := Doc.mem_postorderSlots.mp hp
  rw [Doc.paddedSlots_eq] at h
  exact keeps_of_conforms (h _ (List.mem_map.mpr ⟨_, List.mem_of_getElem? hc, rfl⟩)) _ hx

theorem keeps_list (h : ∀ c ∈ paddedList list, c.Conforms) :
    ∀ p ∈ postorderList place i list, p.2.KeepsLayout := by
  rintro ⟨q, x⟩ hp
  obtain ⟨j, c, hc, hx⟩ := Doc.mem_postorderList.mp hp
  rw [Doc.paddedList_eq] at h
  exact keeps_of_conforms (h _ (List.mem_map_of_mem (List.mem_of_getElem? hc))) _ hx

mutual

/-- What cannot be built has a node that does not keep to its layout, and the first is named. -/
theorem build_error {t u : SyntaxTree} {place : DocPath} {e : BuildError} (d : Doc) (ht : t.Linked)
    (h : t.build place d = (.error e, u)) : FirstAstray (d.postorder place) e.place := by
  cases d with
  | node kind span ty slots list =>
    rw [postorder]
    rw [build] at h
    split at h
    next e' v hs =>
      cases h
      exact (buildSlots_error slots ht hs).append_right.append_right
    next ms v hs =>
      obtain ⟨hsc, hsk⟩ := buildSlots_copied slots ht hs
      split at h
      next e' w hl =>
        cases h
        exact (FirstAstray.append_left (keeps_slots hsk) (buildList_error list hsc.linked hl)).append_right
      next ns w hl =>
        obtain ⟨hlc, hlk⟩ := buildList_copied list hsc.linked hl
        split at h
        next e' hn =>
          cases h
          refine .append_left ?_ (.singleton fun hk => ?_)
          · intro p hp
            exact (List.mem_append.mp hp).elim (keeps_slots hsk p) (keeps_list hlk p)
          · have hf := Doc.fits_padded.mpr hk
            rw [Doc.padded, ← Doc.length_paddedSlots] at hf
            obtain ⟨r, hr⟩ := create?_of_fits hsc hlc hf
            cases hn.symm.trans hr
        next => cases h

theorem buildSlots_error {t u : SyntaxTree} {place : DocPath} {i : Nat} {e : BuildError}
    (slots : List (Option Doc)) (ht : t.Linked) (h : t.buildSlots place i slots = (.error e, u)) :
    FirstAstray (postorderSlots place i slots) e.place := by
  match slots with
  | [] =>
    rw [buildSlots] at h
    cases h
  | none :: slots =>
    rw [buildSlots] at h
    rw [postorderSlots]
    split at h
    next hs =>
      cases h
      exact buildSlots_error slots ht hs
    next => cases h
  | some d :: slots =>
    rw [buildSlots] at h
    rw [postorderSlots]
    split at h
    next hn =>
      cases h
      exact (build_error d ht hn).append_right
    next hn =>
      obtain ⟨hc, hk⟩ := build_copied d ht hn
      split at h
      next hs =>
        cases h
        exact .append_left (keeps_of_conforms hk) (buildSlots_error slots hc.linked hs)
      next => cases h

theorem buildList_error {t u : SyntaxTree} {place : DocPath} {i : Nat} {e : BuildError}
    (list : List Doc) (ht : t.Linked) (h : t.buildList place i list = (.error e, u)) :
    FirstAstray (postorderList place i list) e.place := by
  match list with
  | [] =>
    rw [buildList] at h
    cases h
  | d :: list =>
    rw [buildList] at h
    rw [postorderList]
    split at h
    next hn =>
      cases h
      exact (build_error d ht hn).append_right
    next hn =>
      obtain ⟨hc, hk⟩ := build_copied d ht hn
      split at h
      next hl =>
        cases h
        exact .append_left (keeps_of_conforms hk) (buildList_error list hc.linked hl)
      next => cases h

end

end Faults

section Size

theorem size_create? {s : NodeSpec} (h : t.create? s = .ok (n, u)) : u.size = t.size + 1 := by
  obtain ⟨-, -, -, he⟩ := create?_eq_ok.mp h
  obtain ⟨-, rfl⟩ := Prod.mk.inj he
  rw [allocate, (marks_foldl_update _ _).1]
  simp [size]

mutual

/-- One node is made for every node of the document. -/
theorem size_build {t u : SyntaxTree} {place : DocPath} {n : NodeId} (d : Doc)
    (h : t.build place d = (.ok n, u)) : u.size = t.size + d.size := by
  cases d with
  | node kind span ty slots list =>
    rw [build] at h
    split at h
    · cases h
    next hs =>
      split at h
      · cases h
      next hl =>
        split at h
        · cases h
        next hn =>
          cases h
          rw [size_create? hn, size_buildList list hl, size_buildSlots slots hs, Doc.size]
          omega

theorem size_buildSlots {t u : SyntaxTree} {place : DocPath} {i : Nat} {ms : List (Option NodeId)}
    (slots : List (Option Doc)) (h : t.buildSlots place i slots = (.ok ms, u)) :
    u.size = t.size + Doc.sizeSlots slots := by
  match slots with
  | [] =>
    rw [buildSlots] at h
    cases h
    rw [Doc.sizeSlots, Nat.add_zero]
  | none :: slots =>
    rw [buildSlots] at h
    split at h
    · cases h
    next hs =>
      cases h
      rw [size_buildSlots slots hs, Doc.sizeSlots]
  | some d :: slots =>
    rw [buildSlots] at h
    split at h
    · cases h
    next hn =>
      split at h
      · cases h
      next hs =>
        cases h
        rw [size_buildSlots slots hs, size_build d hn, Doc.sizeSlots, Nat.add_assoc]

theorem size_buildList {t u : SyntaxTree} {place : DocPath} {i : Nat} {ns : List NodeId}
    (list : List Doc) (h : t.buildList place i list = (.ok ns, u)) :
    u.size = t.size + Doc.sizeList list := by
  match list with
  | [] =>
    rw [buildList] at h
    cases h
    rw [Doc.sizeList, Nat.add_zero]
  | d :: list =>
    rw [buildList] at h
    split at h
    · cases h
    next hn =>
      split at h
      · cases h
      next hl =>
        cases h
        rw [size_buildList list hl, size_build d hn, Doc.sizeList, Nat.add_assoc]

end

end Size

section Written

/-- The document of a node as it is written, without empty slots at the end of any node. -/
def written (t : SyntaxTree) (n : NodeId) : Doc := (t.doc n).trimmed

/-- A node is written with what its children are written as. -/
theorem Linked.written_eq (ht : t.Linked) (n : NodeId) : t.written n =
    .node (t.kind n) (t.span n) (t.node n).ty
      (Doc.trimSlots ((t.node n).slots.map (Option.map t.written))) ((t.node n).list.map t.written) := by
  have hslot : Option.map Doc.trimmed ∘ Option.map t.doc = Option.map t.written := by
    funext o
    cases o <;> rfl
  rw [written, ht.doc_eq, Doc.trimmed_node, List.map_map, List.map_map, hslot]
  rfl

/-- What a node that keeps to the layouts, with all below it, is written as can be built again in any tree. -/
theorem build_written {r : NodeId} (hv : v.Linked) (hr : (t.doc r).Conforms) (place : DocPath) :
    ∃ n w, v.build place (t.written r) = (.ok n, w) ∧ w.isDetached n = true ∧ w.written n = t.written r := by
  have hd : (t.written r).padded = t.doc r := (t.doc r).padded_trimmed hr
  obtain ⟨n, w, hb⟩ := build_ok place (t.written r) hv (by rwa [hd])
  obtain ⟨hc, -⟩ := build_copied _ hv hb
  refine ⟨n, w, hb, hc.detached, ?_⟩
  rw [written, hc.doc, hd, written]

end Written

end SyntaxTree

namespace SourceUnit

open SyntaxTree

variable {id : Nat} {d : UnitDoc} {u : SourceUnit}

/-- The document of the unit as it is written. -/
def snapshot (u : SourceUnit) : UnitDoc :=
  ⟨u.path, u.level, u.classes, (u.tree.root.map u.tree.written).getD default⟩

theorem write_snapshot (u : SourceUnit) : u.snapshot.write = u.write := by
  have hroot : u.snapshot.root.toJson = u.toDoc.root.toJson := by
    rw [snapshot, toDoc, rootDoc?]
    cases u.tree.root with
    | none => rfl
    | some r => exact (u.tree.doc r).toJson_trimmed
  have hj : u.snapshot.toJson = u.toDoc.toJson := by
    rw [UnitDoc.toJson, UnitDoc.toJson, hroot]
    rfl
  rw [write, UnitDoc.write, UnitDoc.write, hj]

theorem ofDoc_ok_iff : (∃ u, ofDoc id d = .ok u) ↔ d.root.All Doc.KeepsLayout := by
  rw [← Doc.conforms_padded]
  constructor
  · rintro ⟨u, hu⟩
    obtain ⟨hs, hr⟩ := ofDoc_sound hu
    exact hs.linked.laid_iff.mp hs.laid _ hr
  · exact ofDoc_ok id

theorem ofDoc_error {e : LoadError} (h : ofDoc id d = .error e) :
    ∃ place cause, e = .unbuilt ⟨place, cause⟩ ∧ Doc.FirstAstray (d.root.postorder []) place := by
  have hno : ¬ d.root.padded.Conforms := by
    intro hc
    obtain ⟨u, hu⟩ := ofDoc_ok id hc
    cases h.symm.trans hu
  rw [ofDoc] at h
  split at h
  next e' t hb =>
    cases h
    exact ⟨e'.place, e'.cause, rfl, build_error d.root (linked_empty id) hb⟩
  next hb => exact absurd (build_copied d.root (linked_empty id) hb).2 hno

theorem size_ofDoc (h : ofDoc id d = .ok u) : u.tree.size = d.root.size := by
  rw [ofDoc] at h
  split at h
  · cases h
  next n t hb =>
    split at h
    · cases h
    next v hv =>
      cases h
      have hn := (build_copied d.root (linked_empty id) hb).1
      rw [setRoot?_of_rootless hn.kept.root hv, size_bump, size_withRoot, size_build d.root hb]
      exact Nat.zero_add _

theorem snapshot_ofDoc (h : ofDoc id d = .ok u) : u.snapshot = { d with root := d.root.trimmed } := by
  have hd := toDoc_ofDoc h
  obtain ⟨r, hr, hroot⟩ := Option.map_eq_some_iff.mp (ofDoc_sound h).2
  have hw : u.tree.written r = d.root.trimmed := by rw [written, hroot, Doc.trimmed_padded]
  rw [snapshot, hr, Option.map_some, Option.getD_some, hw]
  exact congrArg (fun e : UnitDoc => { e with root := d.root.trimmed }) hd

/-- A document is loaded if and only if each of its nodes keeps to its layout, and else the first that does
not is named, children before their parent. What is loaded has as many nodes, passes the check and is
written as the document without empty slots at the end of nodes. What the root of a tree is written as can
be built again, in any tree. -/
theorem loads_exactly (id : Nat) (d : UnitDoc) :
    ((∃ u, ofDoc id d = .ok u) ↔ ∀ way x, d.root.at? way = some x → x.KeepsLayout) ∧
    (∀ e, ofDoc id d = .error e → ∃ place cause, e = .unbuilt ⟨place, cause⟩ ∧
      Doc.FirstAstray (d.root.postorder []) place) ∧
    (∀ way x, (way, x) ∈ d.root.postorder [] ↔ d.root.at? way = some x) ∧
    (∀ u, ofDoc id d = .ok u → u.tree.size = d.root.size ∧ u.tree.validate.passed = true ∧
      u.snapshot = { d with root := d.root.trimmed }) ∧
    ∀ (t v : SyntaxTree) (r : NodeId) (place : DocPath), t.Linked → t.Laid → t.root = some r → v.Linked →
      ∃ n w, v.build place (t.written r) = (.ok n, w) ∧ w.isDetached n = true ∧ w.written n = t.written r := by
  refine ⟨ofDoc_ok_iff, fun e he => ofDoc_error he, fun way x => ?_, fun u hu => ?_,
    fun t v r place ht hl hr hv => ?_⟩
  · rw [Doc.mem_postorder]
    simp
  · have hs := (ofDoc_sound hu).1
    exact ⟨size_ofDoc hu, hs.linked.validate_passed hs.laid, snapshot_ofDoc hu⟩
  · exact build_written hv (hl.conforms ht (ht.attached_root hr)) place

/-- The block `{ return !done; return; }`, with an empty slot written out at its second statement. -/
def returns : UnitDoc where
  path := "A.java"
  level := 8
  classes := []
  root := .plain .block []
    [.plain .returnStmt [some (.plain (.unary .not) [some (.plain (.nameExpr "done") [] [])] [])] [],
      .plain .returnStmt [none] []]

/-- A statement without its expression, in a block that has a slot. -/
def spareSlot : UnitDoc := { returns with root := .plain .block [none] [.plain .exprStmt [] []] }

theorem returns_loads_exactly :
    (∃ u r n w, ofDoc 0 returns = .ok u ∧ u.tree.size = 5 ∧
      u.snapshot.root = .plain .block [] [.plain .returnStmt
        [some (.plain (.unary .not) [some (.plain (.nameExpr "done") [] [])] [])] [], .plain .returnStmt [] []] ∧
      u.tree.root = some r ∧ (SyntaxTree.empty 1).build [] (u.tree.written r) = (.ok n, w) ∧
      w.written n = u.tree.written r) ∧
    ∃ e place cause, ofDoc 0 spareSlot = .error e ∧ e = .unbuilt ⟨place, cause⟩ ∧ place = [.list 0] ∧
      Doc.FirstAstray (spareSlot.root.postorder []) place := by
  obtain ⟨u, hu⟩ : ∃ u, ofDoc 0 returns = .ok u := ⟨_, rfl⟩
  obtain ⟨-, -, -, hok, hback⟩ := loads_exactly 0 returns
  obtain ⟨hsize, -, hsnap⟩ := hok u hu
  have hs := (ofDoc_sound hu).1
  obtain ⟨r, hr, -⟩ := Option.map_eq_some_iff.mp (ofDoc_sound hu).2
  obtain ⟨n, w, hb, -, hw⟩ := hback u.tree (.empty 1) r [] hs.linked hs.laid hr (linked_empty 1)
  obtain ⟨e, he⟩ : ∃ e, ofDoc 0 spareSlot = .error e := ⟨_, rfl⟩
  obtain ⟨place, cause, rfl, hfirst⟩ := (loads_exactly 0 spareSlot).2.1 e he
  refine ⟨⟨u, r, n, w, hu, hsize, ?_, hr, hb, hw⟩, _, place, cause, he, rfl, ?_, hfirst⟩
  · rw [hsnap]
    rfl
  · have hplace : ofDoc 0 spareSlot = .error (.unbuilt ⟨[.list 0], _⟩) := rfl
    rw [hplace] at he
    injection he with he
    injection he with he
    injection he with he
    exact he.symm

end SourceUnit

end TreeTidy
