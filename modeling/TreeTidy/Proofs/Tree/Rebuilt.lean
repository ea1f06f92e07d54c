import TreeTidy.Proofs.Document.Accepted
import TreeTidy.Proofs.Tree.Built
/-!
Units that were written are read again. A document that conforms can be built; so the text of a unit
is read as a unit with the same document, as long as it nests no deeper than texts may.
-/
namespace TreeTidy

open Json

namespace Doc

variable {d : Doc} {kind : NodeKind} {span : Span} {ty : Option TypeDesc} {slots : List (Option Doc)}
  {list : List Doc}

theorem trimSlots_append_replicate (slots : List (Option Doc)) (n : Nat) :
    trimSlots (slots ++ List.replicate n none) = trimSlots slots := by
  rw [trimSlots, trimSlots, List.reverse_append, List.reverse_replicate]
  induction n with
  | zero => rfl
  | succ n ih => rw [List.replicate_succ, List.cons_append, List.dropWhile_cons_of_pos rfl, ih]

theorem mem_padded_slots {c : Option Doc} {n : Nat}
    (h : c ∈ slots.map (Option.map padded) ++ List.replicate n none) :
    c = none ∨ ∃ e, some e ∈ slots ∧ c = some e.padded := by
  rcases List.mem_append.mp h with h | h
  · obtain ⟨o, ho, rfl⟩ := List.mem_map.mp h
    cases o with
    | none => exact .inl rfl
    | some e => exact .inr ⟨e, ho, rfl⟩
  · exact .inl (List.eq_of_mem_replicate h)

/-- Slots that are written out do not show in the text. -/
theorem toJson_padded (d : Doc) : d.padded.toJson = d.toJson := by
  induction d using induction with
  | node kind span ty slots list hs hl =>
    rw [padded_node, toJson_node, toJson_node, trimSlots_append_replicate, trimSlots_map, List.map_map,
      List.map_map]
    congr 2
    · apply List.map_congr_left
      rintro (_ | c) hc
      · rfl
      · exact hs c (mem_of_mem_trimSlots hc)
    · exact List.map_congr_left hl

theorem bounded_padded (d : Doc) : d.Bounded → d.padded.Bounded := by
  induction d using induction with
  | node kind span ty slots list hs hl =>
    intro hd
    rw [padded_node]
    refine all_node hd.self ?_ ?_
    · intro c hc
      rcases mem_padded_slots hc with hc | ⟨e, he, hc⟩
      · cases hc
      · cases hc
        exact hs e he (All.slot hd he)
    · intro c hc
      obtain ⟨e, he, rfl⟩ := List.mem_map.mp hc
      exact hl e he (All.item hd he)

end Doc

namespace SyntaxTree

open Doc (paddedSlots paddedList)

variable {t u v : SyntaxTree} {kind : NodeKind} {span : Span} {ty : Option TypeDesc}
  {ds : List (Option Doc)} {docs : List Doc} {slots : List (Option NodeId)} {list : List NodeId}

/-- A node is made over new nodes if their documents fit. -/
theorem create?_of_fits (hs : t.AllCopied ds slots u)
    (hl : u.AllCopied (docs.map some) (list.map some) v)
    (hf : (Doc.node kind span ty
      (ds ++ List.replicate (kind.layout.slots.length - ds.length) none) docs).Fits) :
    ∃ r, v.create? ⟨kind, span, ty, slots, list⟩ = .ok r := by
  have hlen : slots.length = ds.length := by rw [← hs.docs, List.length_map]
  have hpad := hs.append (allCopied_replicate hs.linked (kind.layout.slots.length - ds.length))
  have hall := hpad.append hl
  have hkinds : list.map v.kind = docs.map Doc.kind := by
    have := hl.kinds
    rw [List.map_map, List.map_map] at this
    exact List.map_injective_iff.mpr (Option.some_injective _) (by simpa using this)
  refine ⟨_, create?_eq_ok.mpr ⟨?_, ?_, ?_, rfl⟩⟩
  · have := hf.slots.length_eq
    simp only [Doc.slots, Doc.kind, List.length_map, List.length_append, List.length_replicate] at this
    dsimp only
    omega
  · have := loose_children hall kind span ty
    rw [padSlots, hlen]
    exact this
  · rw [padSlots, hlen, (hpad.later hl.kept hl.linked).kinds, hkinds]
    exact hf

mutual

/-- A document that conforms can be built. -/
theorem build_ok {t : SyntaxTree} (place : DocPath) (d : Doc) (ht : t.Linked) (hd : d.padded.Conforms) :
    ∃ n u, t.build place d = (.ok n, u) := by
  cases d with
  | node kind span ty slots list =>
    rw [Doc.padded] at hd
    obtain ⟨ms, u, hs⟩ := buildSlots_ok place 0 slots ht fun c hc =>
      Doc.All.slot hd (List.mem_append_left _ hc)
    obtain ⟨hsc, -⟩ := buildSlots_copied slots ht hs
    obtain ⟨ns, v, hl⟩ := buildList_ok place 0 list hsc.linked fun c hc => Doc.All.item hd hc
    obtain ⟨hlc, -⟩ := buildList_copied list hsc.linked hl
    have hf := hd.fits
    rw [← Doc.length_paddedSlots] at hf
    obtain ⟨⟨n, w⟩, hn⟩ := create?_of_fits hsc hlc hf
    exact ⟨n, w, by rw [build, hs]; simp only [hl, hn]⟩

theorem buildSlots_ok {t : SyntaxTree} (place : DocPath) (i : Nat) (slots : List (Option Doc))
    (ht : t.Linked) (hd : ∀ d, some d ∈ paddedSlots slots → d.Conforms) :
    ∃ ms u, t.buildSlots place i slots = (.ok ms, u) := by
  match slots with
  | [] => exact ⟨[], t, by rw [buildSlots]⟩
  | none :: slots =>
    rw [paddedSlots] at hd
    obtain ⟨ms, u, hs⟩ := buildSlots_ok place (i + 1) slots ht fun d h => hd d (.tail _ h)
    exact ⟨none :: ms, u, by rw [buildSlots, hs]⟩
  | some d :: slots =>
    rw [paddedSlots] at hd
    obtain ⟨n, u, hn⟩ := build_ok (place ++ [.slot i]) d ht (hd _ (.head _))
    obtain ⟨hc, -⟩ := build_copied d ht hn
    obtain ⟨ms, v, hs⟩ := buildSlots_ok place (i + 1) slots hc.linked fun d h => hd d (.tail _ h)
    exact ⟨some n :: ms, v, by rw [buildSlots, hn]; simp only [hs]⟩

theorem buildList_ok {t : SyntaxTree} (place : DocPath) (i : Nat) (list : List Doc)
    (ht : t.Linked) (hd : ∀ d ∈ paddedList list, d.Conforms) :
    ∃ ns u, t.buildList place i list = (.ok ns, u) := by
  match list with
  | [] => exact ⟨[], t, by rw [buildList]⟩
  | d :: list =>
    rw [paddedList] at hd
    obtain ⟨n, u, hn⟩ := build_ok (place ++ [.list i]) d ht (hd _ (.head _))
    obtain ⟨hc, -⟩ := build_copied d ht hn
    obtain ⟨ns, v, hs⟩ := buildList_ok place (i + 1) list hc.linked fun d h => hd d (.tail _ h)
    exact ⟨n :: ns, v, by rw [buildList, hn]; simp only [hs]⟩

end

end SyntaxTree

/-- The unit with the span of no place wherever a span has nothing in it. -/
def UnitDoc.normal (u : UnitDoc) : UnitDoc := { u with root := u.root.normal }

namespace SourceUnit

open SyntaxTree

variable {id : Nat} {d : UnitDoc} {u : SourceUnit} {text : String}

theorem toDoc_ofDoc (h : ofDoc id d = .ok u) : u.toDoc = { d with root := d.root.padded } := by
  have hr := (ofDoc_sound h).2
  rw [ofDoc] at h
  split at h
  · cases h
  · split at h
    · cases h
    cases h
    rw [toDoc, hr]
    rfl

theorem ofDoc_ok (id : Nat) (h : d.root.padded.Conforms) : ∃ u, ofDoc id d = .ok u := by
  obtain ⟨n, t, hb⟩ := build_ok [] d.root (linked_empty id) h
  obtain ⟨hn, -⟩ := build_copied d.root (linked_empty id) hb
  have hs : ∃ v, t.setRoot? n = .ok v := by
    rw [setRoot?, hn.detached]
    exact ⟨_, rfl⟩
  obtain ⟨v, hv⟩ := hs
  exact ⟨_, by rw [ofDoc, hb]; simp only [hv]; rfl⟩

/-- A unit with a root that keeps to the layouts, and with numbers in range. -/
structure Regular (u : SourceUnit) : Prop where
  sound : u.tree.Sound
  rooted : u.tree.root.isSome
  bounded : u.toDoc.Bounded

theorem Regular.conforms (h : u.Regular) : u.toDoc.root.Conforms := by
  obtain ⟨r, hr⟩ := Option.isSome_iff_exists.mp h.rooted
  have hd : u.tree.rootDoc? = some (u.tree.doc r) := by rw [rootDoc?, hr, Option.map_some]
  rw [toDoc, hd]
  exact h.sound.linked.laid_iff.mp h.sound.laid _ hd

/-- A unit that was read is regular, and its text nests no deeper than texts may. -/
theorem regular_of_read (h : read id text = .ok u) :
    u.Regular ∧ u.toDoc.toJson.depth ≤ roomOfText := by
  rw [read] at h
  split at h
  · cases h
  next d hd =>
    obtain ⟨hdepth, hb⟩ := UnitDoc.read_ok hd
    obtain ⟨hs, hr⟩ := ofDoc_sound h
    have hdoc := toDoc_ofDoc h
    refine ⟨⟨hs, ?_, ?_⟩, ?_⟩
    · rw [rootDoc?] at hr
      exact Option.isSome_map.symm.trans (by rw [hr]; rfl)
    · rw [hdoc]
      exact ⟨hb.level, hb.classes, d.root.bounded_padded hb.root⟩
    · have hj : UnitDoc.toJson { d with root := d.root.padded } = d.toJson := by
        rw [UnitDoc.toJson, UnitDoc.toJson, Doc.toJson_padded]
      rwa [hdoc, hj]

/-- The text of a regular unit is read as long as it nests no deeper than texts may, and the document
that is read is that of the unit, with the span of no place for spans with nothing in them. -/
theorem Regular.read_write_ok (h : u.Regular) (hd : u.toDoc.toJson.depth ≤ roomOfText) :
    ∃ u', read id u.write = .ok u' ∧ u'.toDoc = u.toDoc.normal := by
  have hread : UnitDoc.read u.write = .ok u.toDoc.reread := by
    rw [write, u.toDoc.read_write h.bounded]
    exact if_pos hd
  have hpad : u.toDoc.reread.root.padded = u.toDoc.normal.root := u.toDoc.root.padded_reread h.conforms
  have hc : u.toDoc.reread.root.padded.Conforms := by
    rw [hpad]
    exact u.toDoc.root.conforms_normal h.conforms
  obtain ⟨u', hu⟩ := ofDoc_ok id hc
  refine ⟨u', by rw [read, hread]; exact hu, ?_⟩
  rw [toDoc_ofDoc hu, hpad]
  rfl

/-- A text that nests too deeply is refused. -/
theorem Regular.read_write_error (h : u.Regular) (hd : roomOfText < u.toDoc.toJson.depth) :
    read id u.write = .error (.refused .malformed) := by
  have hread : UnitDoc.read u.write = .error .malformed := by
    rw [write, u.toDoc.read_write h.bounded]
    exact if_neg (Nat.not_le.mpr hd)
  rw [read, hread]

/-- Whatever text is read as a unit, the text that the unit is written as is read again, and gives the
same document but for the spans with nothing in them. -/
theorem read_back (id' : Nat) (h : read id text = .ok u) :
    ∃ u', read id' u.write = .ok u' ∧ u'.toDoc = u.toDoc.normal := by
  obtain ⟨hu, hd⟩ := regular_of_read h
  exact hu.read_write_ok hd

/-- A unit without classes, with a span that ends before it starts. -/
def blank : UnitDoc where
  path := "A.java"
  level := 8
  classes := [ClassInfo.ofName "A"]
  root := .node (.compilationUnit none) ⟨7, 3⟩ none [some (Doc.plain .importList [] [])] []

theorem bounded_blank : blank.Bounded where
  level := by decide
  classes := by
    intro c hc
    rw [List.mem_singleton.mp hc]
    nofun
  root := by
    refine Doc.all_node ⟨by decide, by decide⟩ ?_ (fun c hc => absurd hc List.not_mem_nil)
    intro c hc
    obtain rfl := Option.some.inj (List.mem_singleton.mp hc)
    exact Doc.all_node Span.bounded_none (fun _ h => absurd h List.not_mem_nil)
      (fun _ h => absurd h List.not_mem_nil)

theorem read_back_blank : ∃ u u', read 0 blank.write = .ok u ∧ read 1 u.write = .ok u' ∧
    u'.toDoc = u.toDoc.normal := by
  have hread : UnitDoc.read blank.write = .ok blank.reread := by
    rw [UnitDoc.read_write _ bounded_blank]
    exact if_pos (by decide)
  obtain ⟨u, hu⟩ : ∃ u, ofDoc 0 blank.reread = .ok u := ⟨_, rfl⟩
  have hb : read 0 blank.write = .ok u := by
    rw [read, hread]
    exact hu
  obtain ⟨u', hr, hd⟩ := read_back 1 hb
  exact ⟨u, u', hb, hr, hd⟩

end SourceUnit

end TreeTidy
