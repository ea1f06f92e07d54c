import TreeTidy.Proofs.Tree.Outcomes
import TreeTidy.Proofs.Tree.Rebuilt
/-!
The nodes of a document in the order in which a tree is built of them: children before their parent, those
in slots before those in the list. A document may leave out empty slots at the end of a node, so its nodes
keep to the layouts if they do with all slots written out.
-/
namespace TreeTidy.Doc

variable {c d x : Doc} {kind : NodeKind} {span : Span} {ty : Option TypeDesc} {slots : List (Option Doc)}
  {list : List Doc} {place q way : List Position} {i : Nat}

section Layouts

/-- The children of the node are such that it can be made over them. -/
structure KeepsLayout (d : Doc) : Prop where
  slots_le : d.slots.length ≤ d.kind.layout.slots.length
  filled : ∀ (i : Nat) (s : SlotSpec), d.kind.layout.slots[i]? = some s → d.slot? i = none →
    s.optional = true
  slot : ∀ (i : Nat) (s : SlotSpec) (c : Doc), d.kind.layout.slots[i]? = some s → d.slot? i = some c →
    s.admits.accepts c.kind = true
  unlisted : d.kind.layout.list = none → d.list = []
  item : ∀ (s : ListSpec) (c : Doc), d.kind.layout.list = some s → c ∈ d.list →
    s.admits.accepts c.kind = true

/-- The children keep to the layout if they fit with all slots written out. -/
theorem fits_padded : d.padded.Fits ↔ d.KeepsLayout := by
  obtain ⟨kind, span, ty, slots, list⟩ := d
  have hslot : ∀ i : Nat, ((slots.map (Option.map padded) ++
      List.replicate (kind.layout.slots.length - slots.length) none).map (Option.map Doc.kind))[i]?.join =
        (slots[i]?.join).map Doc.kind := by
    intro i
    rcases Nat.lt_or_ge i slots.length with hi | hi
    · rw [List.getElem?_map, List.getElem?_append_left (by simpa using hi), List.getElem?_map,
        List.getElem?_eq_getElem hi]
      cases slots[i] with
      | none => rfl
      | some c => exact congrArg some kind_padded
    · rw [List.getElem?_map, List.getElem?_append_right (by simpa using hi), List.getElem?_eq_none hi,
        List.getElem?_replicate]
      split <;> rfl
  have hlist : ∀ k, k ∈ (list.map padded).map Doc.kind ↔ ∃ c ∈ list, c.kind = k := by
    intro k
    simp only [List.map_map, List.mem_map, Function.comp_apply, kind_padded]
  rw [padded_node, Fits, NodeKind.fits_iff]
  simp only [Doc.kind, Doc.slots, Doc.list, hslot, hlist]
  constructor
  · rintro ⟨hlen, hs, hl⟩
    simp only [List.length_map, List.length_append, List.length_replicate] at hlen
    refine ⟨?_, ?_, ?_, ?_, ?_⟩
    · simp only [Doc.kind, Doc.slots]
      omega
    · intro i s hi hn
      have ht := hs i s hi
      rwa [show slots[i]?.join = none from hn] at ht
    · intro i s c hi hc
      have ht := hs i s hi
      rwa [show slots[i]?.join = some c from hc] at ht
    · intro hn
      refine List.eq_nil_iff_forall_not_mem.mpr fun c hc => ?_
      obtain ⟨s, hls, -⟩ := NodeKind.admits_list.mp (hl c.kind ⟨c, hc, rfl⟩)
      cases hn.symm.trans hls
    · intro s c hs hc
      obtain ⟨s', hs', ha⟩ := NodeKind.admits_list.mp (hl c.kind ⟨c, hc, rfl⟩)
      exact Option.some.inj (hs'.symm.trans hs) ▸ ha
  · rintro ⟨hlen, hfilled, hslot, hun, hitem⟩
    simp only [Doc.kind, Doc.slots] at hlen
    refine ⟨?_, fun i s hi => ?_, ?_⟩
    · simp only [List.length_map, List.length_append, List.length_replicate]
      omega
    · cases hc : slots[i]?.join with
      | none => exact hfilled i s hi hc
      | some c => exact hslot i s c hi hc
    · rintro _ ⟨c, hc, rfl⟩
      cases hs : kind.layout.list with
      | none =>
        rw [show list = [] from hun hs] at hc
        cases hc
      | some s => exact NodeKind.admits_list.mpr ⟨s, hs, hitem s c hs hc⟩

theorem conforms_padded (d : Doc) : d.padded.Conforms ↔ d.All KeepsLayout := by
  induction d using induction with
  | node kind span ty slots list hs hl =>
    rw [padded_node]
    constructor
    · intro h
      refine all_node (fits_padded.mp (by rw [padded_node]; exact h.fits)) ?_ ?_
      · intro c hc
        refine (hs c hc).mp (All.slot h (List.mem_append_left _ ?_))
        exact List.mem_map.mpr ⟨some c, hc, rfl⟩
      · exact fun c hc => (hl c hc).mp (All.item h (List.mem_map_of_mem hc))
    · intro h
      refine conforms_node ?_ ?_ ?_
      · rw [← padded_node]
        exact fits_padded.mpr h.self
      · intro c hc
        rcases List.mem_append.mp hc with hc | hc
        · obtain ⟨o, ho, hoc⟩ := List.mem_map.mp hc
          obtain ⟨e, rfl, rfl⟩ := Option.map_eq_some_iff.mp hoc
          exact (hs e ho).mpr (All.slot h ho)
        · cases List.eq_of_mem_replicate hc
      · intro c hc
        obtain ⟨e, he, rfl⟩ := List.mem_map.mp hc
        exact (hl e he).mpr (All.item h he)

end Layouts

section Order

mutual

/-- The nodes with their places, below the given one: slots in order, then the list, then the node. -/
def postorder (place : List Position) : Doc → List (List Position × Doc)
  | node kind span ty slots list =>
    postorderSlots place 0 slots ++ postorderList place 0 list ++ [(place, node kind span ty slots list)]

def postorderSlots (place : List Position) (i : Nat) : List (Option Doc) → List (List Position × Doc)
  | [] => []
  | none :: slots => postorderSlots place (i + 1) slots
  | some d :: slots => postorder (place ++ [.slot i]) d ++ postorderSlots place (i + 1) slots

def postorderList (place : List Position) (i : Nat) : List Doc → List (List Position × Doc)
  | [] => []
  | d :: list => postorder (place ++ [.list i]) d ++ postorderList place (i + 1) list

end

theorem mem_postorderSlots : (q, x) ∈ postorderSlots place i slots ↔
    ∃ (j : Nat) (c : Doc), slots[j]? = some (some c) ∧ (q, x) ∈ c.postorder (place ++ [.slot (i + j)]) := by
  induction slots generalizing i with
  | nil => simp [postorderSlots]
  | cons o slots ih =>
    rw [← Nat.or_exists_add_one]
    have hlater : (q, x) ∈ postorderSlots place (i + 1) slots ↔ ∃ (j : Nat) (c : Doc),
        (o :: slots)[j + 1]? = some (some c) ∧ (q, x) ∈ c.postorder (place ++ [.slot (i + (j + 1))]) := by
      simp only [ih, List.getElem?_cons_succ, Nat.add_assoc, Nat.add_comm 1]
    rw [← hlater]
    cases o with
    | none => simp [postorderSlots]
    | some d => simp [postorderSlots]

theorem mem_postorderList : (q, x) ∈ postorderList place i list ↔
    ∃ (j : Nat) (c : Doc), list[j]? = some c ∧ (q, x) ∈ c.postorder (place ++ [.list (i + j)]) := by
  induction list generalizing i with
  | nil => simp [postorderList]
  | cons d list ih =>
    rw [← Nat.or_exists_add_one]
    have hlater : (q, x) ∈ postorderList place (i + 1) list ↔ ∃ (j : Nat) (c : Doc),
        (d :: list)[j + 1]? = some c ∧ (q, x) ∈ c.postorder (place ++ [.list (i + (j + 1))]) := by
      simp only [ih, List.getElem?_cons_succ, Nat.add_assoc, Nat.add_comm 1]
    rw [← hlater]
    simp [postorderList]

/-- The nodes in order are the parts of the document, each with the way to it. -/
theorem mem_postorder (d : Doc) : ∀ {place q : List Position} {x : Doc},
    (q, x) ∈ d.postorder place ↔ ∃ way, q = place ++ way ∧ d.at? way = some x := by
  induction d using induction with
  | node kind span ty slots list hs hl =>
    intro place q x
    rw [postorder, List.mem_append, List.mem_append, mem_postorderSlots, mem_postorderList,
      List.mem_singleton, Prod.mk.injEq]
    constructor
    · rintro ((⟨j, c, hc, hq⟩ | ⟨j, c, hc, hq⟩) | ⟨rfl, rfl⟩)
      · obtain ⟨way, rfl, hw⟩ := (hs c (List.mem_of_getElem? hc)).mp hq
        refine ⟨.slot j :: way, by simp, ?_⟩
        rw [at?_cons (child?_slot.mpr hc), hw]
      · obtain ⟨way, rfl, hw⟩ := (hl c (List.mem_of_getElem? hc)).mp hq
        refine ⟨.list j :: way, by simp, ?_⟩
        have hc : (node kind span ty slots list).child? (.list j) = some c := hc
        rw [at?_cons hc, hw]
      · exact ⟨[], by simp, rfl⟩
    · rintro ⟨way, rfl, hw⟩
      cases way with
      | nil => exact .inr ⟨List.append_nil _, (Option.some.inj hw).symm⟩
      | cons pos way =>
        obtain ⟨c, hc, hcw⟩ := Option.bind_eq_some_iff.mp hw
        cases pos with
        | slot j =>
          have hc := child?_slot.mp hc
          refine .inl (.inl ⟨j, c, hc, (hs c (List.mem_of_getElem? hc)).mpr ⟨way, ?_, hcw⟩⟩)
          simp
        | list j =>
          refine .inl (.inr ⟨j, c, hc, (hl c (List.mem_of_getElem? hc)).mpr ⟨way, ?_, hcw⟩⟩)
          simp

/-- `q` is the place of the first of the nodes that does not keep to its layout. -/
def FirstAstray (nodes : List (List Position × Doc)) (q : List Position) : Prop :=
  ∃ before x after, nodes = before ++ (q, x) :: after ∧ (∀ p ∈ before, p.2.KeepsLayout) ∧ ¬ x.KeepsLayout

namespace FirstAstray

variable {nodes others : List (List Position × Doc)}

theorem append_right (h : FirstAstray nodes q) : FirstAstray (nodes ++ others) q := by
  obtain ⟨before, x, after, rfl, hb, hx⟩ := h
  exact ⟨before, x, after ++ others, by simp, hb, hx⟩

theorem append_left (hn : ∀ p ∈ nodes, p.2.KeepsLayout) (h : FirstAstray others q) :
    FirstAstray (nodes ++ others) q := by
  obtain ⟨before, x, after, rfl, hb, hx⟩ := h
  refine ⟨nodes ++ before, x, after, by simp, fun p hp => ?_, hx⟩
  exact (List.mem_append.mp hp).elim (hn p) (hb p)

theorem singleton (h : ¬ x.KeepsLayout) : FirstAstray [(q, x)] q :=
  ⟨[], x, [], rfl, fun _ hp => absurd hp List.not_mem_nil, h⟩

end FirstAstray

end Order

section Trimmed

mutual

/-- The document without empty slots at the end of any node. -/
def trimmed : Doc → Doc
  | node kind span ty slots list =>
    node kind span ty (trimSlots (trimmedSlots slots)) (trimmedList list)

def trimmedSlots : List (Option Doc) → List (Option Doc)
  | [] => []
  | none :: slots => none :: trimmedSlots slots
  | some d :: slots => some (trimmed d) :: trimmedSlots slots

def trimmedList : List Doc → List Doc
  | [] => []
  | d :: list => trimmed d :: trimmedList list

end

theorem trimmed_node : (node kind span ty slots list).trimmed =
    node kind span ty (trimSlots (slots.map (Option.map trimmed))) (list.map trimmed) := by
  rw [trimmed, slots_eq_map (f := trimmed) (g := trimmedSlots) (by rw [trimmedSlots]) (fun _ => by rw [trimmedSlots])
      (fun _ _ => by rw [trimmedSlots]),
    list_eq_map (f := trimmed) (g := trimmedList) (by rw [trimmedList]) (fun _ _ => by rw [trimmedList])]

/-- Empty slots at the end that are written out or left out do not show. -/
theorem trimmed_padded (d : Doc) : d.padded.trimmed = d.trimmed := by
  induction d using induction with
  | node kind span ty slots list hs hl =>
    have hslots : (slots.map (Option.map padded)).map (Option.map trimmed) = slots.map (Option.map trimmed) := by
      rw [List.map_map]
      refine List.map_congr_left fun o ho => ?_
      cases o with
      | none => rfl
      | some c => exact congrArg some (hs c ho)
    have hlist : (list.map padded).map trimmed = list.map trimmed := by
      rw [List.map_map]
      exact List.map_congr_left hl
    rw [padded_node, trimmed_node, trimmed_node, List.map_append, hslots, hlist, List.map_replicate,
      Option.map_none, trimSlots_append_replicate]

/-- What conforms is what it was when its slots are written out again. -/
theorem padded_trimmed (d : Doc) : d.Conforms → d.trimmed.padded = d := by
  induction d using induction with
  | node kind span ty slots list hs hl =>
    intro hd
    have hslots : (slots.map (Option.map trimmed)).map (Option.map padded) = slots := by
      rw [List.map_map]
      refine (List.map_congr_left fun o ho => ?_).trans (List.map_id slots)
      cases o with
      | none => rfl
      | some c => exact congrArg some (hs c ho (All.slot hd ho))
    have hlist : (list.map trimmed).map padded = list := by
      rw [List.map_map]
      exact (List.map_congr_left fun c hc => hl c hc (All.item hd hc)).trans (List.map_id list)
    have hlen : (trimSlots (slots.map (Option.map trimmed))).length = (trimSlots slots).length := by
      rw [trimSlots_map, List.length_map]
    rw [trimmed_node, padded_node, ← trimSlots_map, hslots, hlist, hlen, ← hd.length_slots, trimSlots_append]

theorem trimSlots_trimSlots (slots : List (Option Doc)) : trimSlots (trimSlots slots) = trimSlots slots := by
  have h := congrArg trimSlots (trimSlots_append slots)
  rwa [trimSlots_append_replicate] at h

/-- Trimming does not show in the text. -/
theorem toJson_trimmed (d : Doc) : d.trimmed.toJson = d.toJson := by
  induction d using induction with
  | node kind span ty slots list hs hl =>
    rw [trimmed_node, toJson_node, toJson_node, trimSlots_trimSlots, trimSlots_map, List.map_map, List.map_map]
    congr 2
    · apply List.map_congr_left
      rintro (_ | c) hc
      · rfl
      · exact hs c (mem_of_mem_trimSlots hc)
    · exact List.map_congr_left hl

end Trimmed

end TreeTidy.Doc
