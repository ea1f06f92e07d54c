import Mathlib.Data.List.TakeWhile
import TreeTidy.Proofs.Document.Parts
import TreeTidy.Proofs.Tree.Built
/-!
What is left of a document in its text: spans with nothing in them are those of no place, and slots at
the end that are empty are left out. With all slots written out again, only the spans differ.
-/
namespace TreeTidy

/-- The span, or that of no place if nothing is in it. -/
def Span.normal (s : Span) : Span := if s.isEmpty then none else s

namespace Doc

variable {d c : Doc} {kind : NodeKind} {span : Span} {ty : Option TypeDesc} {slots : List (Option Doc)}
  {list : List Doc}

mutual

/-- The document with the span of no place wherever a span has nothing in it. -/
def normal : Doc → Doc
  | node kind span ty slots list => node kind span.normal ty (normalSlots slots) (normalList list)

def normalSlots : List (Option Doc) → List (Option Doc)
  | [] => []
  | none :: slots => none :: normalSlots slots
  | some d :: slots => some (normal d) :: normalSlots slots

def normalList : List Doc → List Doc
  | [] => []
  | d :: list => normal d :: normalList list

end

mutual

/-- The same without empty slots at the end. -/
def reread : Doc → Doc
  | node kind span ty slots list =>
    node kind span.normal ty (trimSlots (rereadSlots slots)) (rereadList list)

def rereadSlots : List (Option Doc) → List (Option Doc)
  | [] => []
  | none :: slots => none :: rereadSlots slots
  | some d :: slots => some (reread d) :: rereadSlots slots

def rereadList : List Doc → List Doc
  | [] => []
  | d :: list => reread d :: rereadList list

end

theorem normal_node : (node kind span ty slots list).normal =
    node kind span.normal ty (slots.map (Option.map normal)) (list.map normal) := by
  rw [normal, slots_eq_map (f := normal) (g := normalSlots) (by rw [normalSlots]) (fun _ => by rw [normalSlots])
      (fun _ _ => by rw [normalSlots]),
    list_eq_map (f := normal) (g := normalList) (by rw [normalList]) (fun _ _ => by rw [normalList])]

theorem reread_node : (node kind span ty slots list).reread =
    node kind span.normal ty (trimSlots (slots.map (Option.map reread))) (list.map reread) := by
  rw [reread, slots_eq_map (f := reread) (g := rereadSlots) (by rw [rereadSlots]) (fun _ => by rw [rereadSlots])
      (fun _ _ => by rw [rereadSlots]),
    list_eq_map (f := reread) (g := rereadList) (by rw [rereadList]) (fun _ _ => by rw [rereadList])]

theorem paddedSlots_eq (slots : List (Option Doc)) : paddedSlots slots = slots.map (Option.map padded) :=
  slots_eq_map (by rw [paddedSlots]) (fun _ => by rw [paddedSlots]) (fun _ _ => by rw [paddedSlots]) slots

theorem paddedList_eq (list : List Doc) : paddedList list = list.map padded :=
  list_eq_map (by rw [paddedList]) (fun _ _ => by rw [paddedList]) list

theorem padded_node : (node kind span ty slots list).padded =
    node kind span ty (slots.map (Option.map padded) ++
      List.replicate (kind.layout.slots.length - slots.length) none) (list.map padded) := by
  rw [padded, paddedSlots_eq, paddedList_eq]

@[simp] theorem kind_normal : d.normal.kind = d.kind := by
  cases d
  rw [normal_node, Doc.kind, Doc.kind]

/-! Empty slots at the end -/

/-- The slots are those that are kept and as many empty ones as there are then missing. -/
theorem trimSlots_append (slots : List (Option Doc)) :
    trimSlots slots ++ List.replicate (slots.length - (trimSlots slots).length) none = slots := by
  have hsplit : trimSlots slots ++ (slots.reverse.takeWhile Option.isNone).reverse = slots := by
    rw [trimSlots, ← List.reverse_append, List.takeWhile_append_dropWhile, List.reverse_reverse]
  have hnone : (slots.reverse.takeWhile Option.isNone).reverse =
      List.replicate (slots.length - (trimSlots slots).length) none := by
    refine List.eq_replicate_iff.mpr ⟨?_, ?_⟩
    · have := congrArg List.length hsplit
      rw [List.length_append] at this
      omega
    · intro o ho
      exact Option.isNone_iff_eq_none.mp (List.mem_takeWhile_imp (List.mem_reverse.mp ho))
  rw [← hnone, hsplit]

theorem trimSlots_map (f : Doc → Doc) (slots : List (Option Doc)) :
    trimSlots (slots.map (Option.map f)) = (trimSlots slots).map (Option.map f) := by
  have hf : Option.isNone ∘ Option.map f = Option.isNone := by
    funext o
    cases o <;> rfl
  rw [trimSlots, trimSlots, ← List.map_reverse, List.dropWhile_map, hf, List.map_reverse]

theorem mem_of_mem_trimSlots {o : Option Doc} (h : o ∈ trimSlots slots) : o ∈ slots := by
  rw [← trimSlots_append slots]
  exact List.mem_append_left _ h

/-! Documents that conform -/

theorem Conforms.length_slots (h : (node kind span ty slots list).Conforms) :
    slots.length = kind.layout.slots.length := by
  have := h.fits.slots.length_eq
  rwa [List.length_map] at this

/-- With all slots written out, what is left of a document differs from it in its spans only. -/
theorem padded_reread (d : Doc) : d.Conforms → d.reread.padded = d.normal := by
  induction d using induction with
  | node kind span ty slots list hs hl =>
    intro hd
    have hslots : (slots.map (Option.map reread)).map (Option.map padded) = slots.map (Option.map normal) := by
      rw [List.map_map]
      apply List.map_congr_left
      intro o ho
      cases o with
      | none => rfl
      | some c => exact congrArg some (hs c ho (All.slot hd ho))
    have hlist : (list.map reread).map padded = list.map normal := by
      rw [List.map_map]
      exact List.map_congr_left fun c hc => hl c hc (All.item hd hc)
    have htrim := trimSlots_append (slots.map (Option.map normal))
    rw [List.length_map, trimSlots_map, List.length_map] at htrim
    rw [reread_node, padded_node, normal_node, ← trimSlots_map, hslots, hlist, ← hd.length_slots,
      trimSlots_map, trimSlots_map, List.length_map, htrim]

theorem conforms_normal (d : Doc) : d.Conforms → d.normal.Conforms := by
  induction d using induction with
  | node kind span ty slots list hs hl =>
    intro hd
    rw [normal_node]
    apply conforms_node
    · have hf := hd.fits
      rw [Fits, Doc.kind, Doc.slots, Doc.list] at hf ⊢
      have h1 : (slots.map (Option.map normal)).map (Option.map Doc.kind) = slots.map (Option.map Doc.kind) := by
        rw [List.map_map]
        apply List.map_congr_left
        rintro (_ | c) _
        · rfl
        · exact congrArg some kind_normal
      have h2 : (list.map normal).map Doc.kind = list.map Doc.kind := by
        rw [List.map_map]
        exact List.map_congr_left fun c _ => kind_normal
      rwa [h1, h2]
    · intro c hc
      obtain ⟨o, ho, he⟩ := List.mem_map.mp hc
      obtain ⟨e, rfl, rfl⟩ := Option.map_eq_some_iff.mp he
      exact hs e ho (All.slot hd ho)
    · intro c hc
      obtain ⟨e, he, rfl⟩ := List.mem_map.mp hc
      exact hl e he (All.item hd he)

end Doc

end TreeTidy
