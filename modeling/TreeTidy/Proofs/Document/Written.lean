import TreeTidy.Document.Decode
import TreeTidy.Document.Encode
import TreeTidy.Proofs.Document.Reread
import TreeTidy.Proofs.Json.Record
/-!
Reading documents that were written. What is written for a document whose numbers are in range is read
if and only if it nests no deeper than the room that there is, and then gives the document without
what is not kept.
-/
namespace TreeTidy

open Json

variable {room fuel : Nat}

/-- Codes that tell the values of a type apart. -/
class Coded.Lawful (α : Type) [Coded α] : Prop where
  ofCode?_code : ∀ a : α, Coded.ofCode? (Coded.code a) = some a

instance : Coded.Lawful Primitive := ⟨by intro a; cases a <;> decide⟩
instance : Coded.Lawful ClassFlavour := ⟨by intro a; cases a <;> decide⟩
instance : Coded.Lawful Modifier := ⟨by intro a; cases a <;> decide⟩
instance : Coded.Lawful LiteralSort := ⟨by intro a; cases a <;> decide⟩
instance : Coded.Lawful UnaryOp := ⟨by intro a; cases a <;> decide⟩
instance : Coded.Lawful BinaryOp := ⟨by intro a; cases a <;> decide⟩
instance : Coded.Lawful AssignOp := ⟨by intro a; cases a <;> decide⟩

theorem toCoded_toJson {α : Type} [Coded α] [Coded.Lawful α] (a : α) :
    toCoded (Coded.toJson a) = .ok a := toCoded_code (Coded.Lawful.ofCode?_code a)

@[simp] theorem depth_coded {α : Type} [Coded α] (a : α) : (Coded.toJson a).depth = 0 := depth_text

/-! Spans -/

/-- Numbers of at most 64 bits. -/
def Span.Bounded (s : Span) : Prop := s.start < Numeral.bound 64 ∧ s.stop < Numeral.bound 64

theorem Span.bounded_none : Span.none.Bounded := by
  rw [Bounded, Span.none]
  decide

@[simp] theorem Span.depth_toJson (s : Span) : s.toJson.depth = 1 := by simp [toJson]

theorem Span.ofJson_toJson {s : Span} (h : s.Bounded) :
    Span.ofJson room s.toJson = upTo 1 room s := by
  rw [ofJson, toJson, toRecord_record (by simp) (by simp), ok_bind]
  apply enter_bind
  intro r _
  simp [Given.required, List.lookup_cons, toNat64, toNatBelow_nat h.1, toNatBelow_nat h.2, ok_bind, pure,
    Except.pure]

/-! Types -/

namespace TypeDesc

theorem toJsons_eq (ts : List TypeDesc) : toJsons ts = ts.map toJson := by
  induction ts with
  | nil => rw [toJsons, List.map_nil]
  | cons t ts ih => rw [toJsons, ih, List.map_cons]

mutual

theorem sound_toJson : (t : TypeDesc) → isReadable.sound t.toJson = true
  | primitive p => by simp [toJson, sound_record, Coded.toJson]
  | classType n [] => by simp [toJson, sound_record]
  | classType n (a :: as) => by
    simpa [toJson, sound_record, sound_arr, sound_toJson a] using sound_toJsons as
  | array e => by simp [toJson, sound_record, sound_toJson e]
  | null => by simp [toJson, sound_record]

theorem sound_toJsons : (ts : List TypeDesc) → ∀ v ∈ toJsons ts, isReadable.sound v = true
  | [], v, hv => by simp [toJsons] at hv
  | t :: ts, v, hv => by
    rcases List.mem_cons.mp (by rwa [toJsons] at hv) with rfl | hv
    · exact sound_toJson t
    · exact sound_toJsons ts v hv

end

mutual

/-- As much fuel as there are levels is enough for a type. -/
theorem ofWhole_toJson (fuel : Nat) (byPlace : Bool) : (t : TypeDesc) → t.toJson.depth ≤ fuel →
    ofWhole fuel byPlace t.toJson = .ok t
  | primitive p, h => by
    rw [toJson] at h ⊢
    obtain ⟨fuel, rfl⟩ := Nat.exists_eq_add_one_of_ne_zero (Nat.ne_zero_of_lt (depth_record ▸ h))
    rw [ofWhole, toTagged_record (by decide) (by simp), ok_bind]
    simp [toRecord_record, ok_bind, Given.required, toCoded_toJson, pure, Except.pure]
  | classType n [], h => by
    rw [toJson] at h ⊢
    obtain ⟨fuel, rfl⟩ := Nat.exists_eq_add_one_of_ne_zero (Nat.ne_zero_of_lt (depth_record ▸ h))
    rw [ofWhole, toTagged_record (by decide) (by simp), ok_bind]
    simp [toRecord_record, ok_bind, Given.required, Given.withDefault, List.lookup_cons, toText_text, pure,
      Except.pure]
  | classType n (a :: as), h => by
    rw [toJson] at h ⊢
    simp at h
    obtain ⟨fuel, rfl⟩ := Nat.exists_eq_add_one_of_ne_zero (Nat.ne_zero_of_lt h)
    have ha := ofWhole_toJson fuel true a (by omega)
    have has := mapM_ofWhole_toJsons fuel as (by omega)
    rw [ofWhole, toTagged_record (by decide) (by simp), ok_bind]
    simp [toRecord_record, ok_bind, Given.required, Given.withDefault, List.lookup_cons, toText_text, pure,
      Except.pure, ha, has]
  | array e, h => by
    rw [toJson] at h ⊢
    simp at h
    obtain ⟨fuel, rfl⟩ := Nat.exists_eq_add_one_of_ne_zero (Nat.ne_zero_of_lt h)
    have he := ofWhole_toJson fuel true e (by omega)
    rw [ofWhole, toTagged_record (by decide) (by simp), ok_bind]
    simp [toRecord_record, ok_bind, Given.required, pure, Except.pure, he]
  | null, h => by
    rw [toJson] at h ⊢
    obtain ⟨fuel, rfl⟩ := Nat.exists_eq_add_one_of_ne_zero (Nat.ne_zero_of_lt (depth_record ▸ h))
    rw [ofWhole, toTagged_record (by decide) (by simp), ok_bind]
    simp [toRecord_record, ok_bind, pure, Except.pure]

theorem mapM_ofWhole_toJsons (fuel : Nat) : (ts : List TypeDesc) → depth.depthItems (toJsons ts) ≤ fuel →
    (toJsons ts).mapM (ofWhole fuel true) = .ok ts
  | [], _ => by rw [toJsons]; rfl
  | t :: ts, h => by
    rw [toJsons] at h ⊢
    simp at h
    rw [List.mapM_cons, ofWhole_toJson fuel true t (by omega), mapM_ofWhole_toJsons fuel ts (by omega)]
    rfl

end

theorem exists_record (t : TypeDesc) : ∃ fs, t.toJson = record fs := by
  cases t with
  | classType n as => cases as <;> exact ⟨_, by rw [toJson]⟩
  | _ => exact ⟨_, by rw [toJson]⟩

theorem toJson_ne_null (t : TypeDesc) : t.toJson ≠ .null := by
  obtain ⟨fs, h⟩ := t.exists_record
  rw [h]
  nofun

theorem ofJson_toJson (hr : room ≤ roomOfText) (t : TypeDesc) :
    ofJson room t.toJson = upTo t.toJson.depth room t := by
  have hw : toWhole room (ofWhole (roomOfText + 1) false) t.toJson = upTo t.toJson.depth room t :=
    toWhole_of_sound t.sound_toJson fun h => ofWhole_toJson _ _ t (by omega)
  obtain ⟨fs, h⟩ := t.exists_record
  rw [h, record_eq] at hw ⊢
  exact hw

end TypeDesc

/-! Kinds -/

namespace NodeKind

@[simp] theorem depth_toJson (k : NodeKind) : k.toJson.depth = 1 := by
  cases k with
  | compilationUnit package => cases package <;> simp [toJson, fields, ofOption]
  | _ => simp [toJson, fields]

theorem sound_toJson (k : NodeKind) : isReadable.sound k.toJson = true := by
  cases k with
  | compilationUnit package => cases package <;> simp [toJson, fields, sound_record, ofOption]
  | _ => simp [toJson, fields, sound_record, Coded.toJson]

theorem ofVariant_fields (k : NodeKind) : ofVariant k.tag (record k.fields) = .ok k := by
  cases k with
  | compilationUnit package =>
    rw [tag, ofVariant]
    cases package <;> rfl
  | primitiveType p | modifier p | unary p | binary p | assign p | classDecl _ p | literal p _ =>
    rw [tag, fields, ofVariant, toRecord_record (by simp) (by simp), ok_bind]
    simp [Given.required, List.lookup_cons, toCoded_toJson, ok_bind, toText_text, pure, Except.pure]
  | _ =>
    rw [tag, ofVariant]
    rfl

theorem tag_mem_variants (k : NodeKind) : k.tag ∈ variants := by
  cases k <;> simp [tag, variants]

theorem tag_not_mem_fields (k : NodeKind) : ∀ f ∈ k.fields, f.1 ≠ "node" := by
  cases k <;> simp [fields]

theorem ofJson_toJson (k : NodeKind) : ofJson room k.toJson = upTo 1 room k := by
  obtain ⟨d, hd, hk⟩ : ∃ d, ofJson room k.toJson = toWhole room d k.toJson ∧ d k.toJson = .ok k := by
    rw [toJson, record_eq, ofJson]
    refine ⟨_, rfl, ?_⟩
    rw [← record_eq, toTagged_record k.tag_mem_variants k.tag_not_mem_fields, ok_bind]
    exact k.ofVariant_fields
  rw [hd, toWhole_of_sound k.sound_toJson fun _ => hk, k.depth_toJson]

end NodeKind

/-! Documents -/

namespace Doc

variable {d : Doc} {kind : NodeKind} {span : Span} {ty : Option TypeDesc} {slots : List (Option Doc)}
  {list : List Doc}

/-- The numbers of all spans have at most 64 bits. -/
def Bounded (d : Doc) : Prop := d.All fun x => x.span.Bounded

theorem toJson_ne_null (d : Doc) : d.toJson ≠ .null := by
  cases d
  rw [toJson]
  nofun

/-- The fields that are written for a node with these children. -/
def written (kind : NodeKind) (span : Span) (ty : Option TypeDesc) (slots list : List Json) : Given :=
  ("kind", kind.toJson) :: (spanField span ++ typeField ty ++ unlessEmpty "slots" slots ++
    unlessEmpty "list" list)

theorem toJson_node : (node kind span ty slots list).toJson = record
    (written kind span ty ((trimSlots slots).map (ofOption toJson)) (list.map toJson)) := by
  have hs : ∀ slots, slotsToJson slots = slots.map (ofOption toJson) := by
    intro slots
    induction slots with
    | nil => rw [slotsToJson, List.map_nil]
    | cons o slots ih => cases o <;> rw [slotsToJson, ih] <;> rfl
  have hl : ∀ list, listToJson list = list.map toJson := by
    intro list
    induction list with
    | nil => rw [listToJson, List.map_nil]
    | cons d list ih => rw [listToJson, ih, List.map_cons]
  have ht : trimNulls (slots.map (ofOption toJson)) = (trimSlots slots).map (ofOption toJson) := by
    rw [trimNulls, trimSlots, ← List.map_reverse, List.dropWhile_map, List.map_reverse]
    refine congrArg (fun p => ((slots.reverse.dropWhile p).map (ofOption toJson)).reverse) (funext fun o => ?_)
    cases o with
    | none => rfl
    | some d =>
      have := d.toJson_ne_null
      simp only [Function.comp_apply, ofOption, Option.isNone_some]
  rw [toJson, hs, hl, ht, written, List.cons_append, List.cons_append, List.cons_append]

section

variable {name field : String} {items : List Json}

theorem lookup_spanField (h : name ≠ "span") : (spanField span).lookup name = none := by
  unfold spanField
  split <;> simp [List.lookup_cons, beq_false_of_ne h]

theorem lookup_typeField (h : name ≠ "ty") : (typeField ty).lookup name = none := by
  cases ty <;> simp [typeField, List.lookup_cons, beq_false_of_ne h]

theorem lookup_unlessEmpty (h : name ≠ field) : (unlessEmpty field items).lookup name = none := by
  unfold unlessEmpty
  split <;> simp [List.lookup_cons, beq_false_of_ne h]

theorem lookup_written_span {vs ws : List Json} :
    (written kind span ty vs ws).lookup "span" = (spanField span).lookup "span" := by
  simp [written, List.lookup_cons, List.lookup_append, lookup_typeField, lookup_unlessEmpty]

theorem lookup_written_ty {vs ws : List Json} :
    (written kind span ty vs ws).lookup "ty" = (typeField ty).lookup "ty" := by
  simp [written, List.lookup_cons, List.lookup_append, lookup_spanField, lookup_unlessEmpty]

theorem lookup_written_slots {vs ws : List Json} :
    (written kind span ty vs ws).lookup "slots" = (unlessEmpty "slots" vs).lookup "slots" := by
  simp [written, List.lookup_cons, List.lookup_append, lookup_spanField, lookup_typeField,
    lookup_unlessEmpty]

theorem lookup_written_list {vs ws : List Json} :
    (written kind span ty vs ws).lookup "list" = (unlessEmpty "list" ws).lookup "list" := by
  simp [written, List.lookup_cons, List.lookup_append, lookup_spanField, lookup_typeField,
    lookup_unlessEmpty]

theorem toRecord_written {form : RecordForm} {vs ws : List Json} :
    toRecord form ["kind", "span", "ty", "slots", "list"] (record (written kind span ty vs ws)) =
      .ok (written kind span ty vs ws) := by
  apply toRecord_record <;> unfold written spanField typeField unlessEmpty <;> split_ifs <;>
    cases ty <;> simp

theorem withDefault_span (hb : span.Bounded) {given : Given}
    (hg : given.lookup "span" = (spanField span).lookup "span") :
    given.withDefault "span" Span.none (Span.ofJson room) =
      upTo (depth.depthFields (keyed (spanField span))) room span.normal := by
  rw [Given.withDefault, hg]
  unfold spanField Span.normal
  split_ifs <;> simp [Span.ofJson_toJson hb]

theorem withDefault_ty (hr : room ≤ roomOfText) {given : Given}
    (hg : given.lookup "ty" = (typeField ty).lookup "ty") :
    given.withDefault "ty" none (toOption (TypeDesc.ofJson room)) =
      upTo (depth.depthFields (keyed (typeField ty))) room ty := by
  rw [Given.withDefault, hg]
  cases ty with
  | none => simp [typeField]
  | some t =>
    have h : toOption (TypeDesc.ofJson room) (ofOption TypeDesc.toJson (some t)) =
        upTo (ofOption TypeDesc.toJson (some t)).depth room ((some t).map id) :=
      toOption_ofOption TypeDesc.toJson_ne_null fun x _ => TypeDesc.ofJson_toJson hr x
    simpa [typeField, List.lookup_cons, ofOption] using h

theorem depth_unlessEmpty : depth.depthFields (keyed (unlessEmpty field items)) =
    if items.isEmpty then 0 else depth.depthItems items + 1 := by
  unfold unlessEmpty
  split <;> simp

/-- Reading a list that is left out when it is empty. -/
theorem withDefault_unlessEmpty {α : Type} {as : List α} {d : Nat → Json → Except Refusal α}
    {given : Given} (hg : given.lookup field = (unlessEmpty field items).lookup field)
    (hd : ∀ r < room, items.mapM (d r) = upTo (depth.depthItems items) r as) (he : items = [] → as = []) :
    given.withDefault field [] (toList room d) =
      upTo (depth.depthFields (keyed (unlessEmpty field items))) room as := by
  rw [Given.withDefault, hg, depth_unlessEmpty]
  unfold unlessEmpty
  cases items with
  | nil => simp [he rfl]
  | cons v vs =>
    simp only [List.isEmpty_cons, Bool.false_eq_true, if_false, List.lookup_cons, beq_self_eq_true]
    exact enter_bind hd

end

/-- Reading a node, with its children read as lists are. -/
theorem ofJson_succ (room : Nat) (v : Json) : ofJson (room + 1) v = (do
    let given ← toRecord .open ["kind", "span", "ty", "slots", "list"] v
    let kind ← given.required "kind" (NodeKind.ofJson room)
    let span ← given.withDefault "span" Span.none (Span.ofJson room)
    let ty ← given.withDefault "ty" none (toOption (TypeDesc.ofJson room))
    let slots ← given.withDefault "slots" [] (toList room fun r => toOption (ofJson r))
    let list ← given.withDefault "list" [] (toList room ofJson)
    pure (node kind span ty slots list)) := by
  rw [ofJson]
  cases room <;> rfl

theorem depth_written {vs ws : List Json} : depth.depthFields (keyed (written kind span ty vs ws)) =
    max 1 (max (depth.depthFields (keyed (spanField span))) (max (depth.depthFields (keyed (typeField ty)))
      (max (depth.depthFields (keyed (unlessEmpty "slots" vs)))
        (depth.depthFields (keyed (unlessEmpty "list" ws)))))) := by
  simp only [written, keyed_cons, keyed_append, depthFields_cons, depthFields_append,
    NodeKind.depth_toJson, Nat.max_assoc]

/-- A written document is read up to the depth that it has, without what is not kept of it. -/
theorem ofJson_toJson (d : Doc) (hd : d.Bounded) (hr : room ≤ roomOfText) :
    ofJson room d.toJson = upTo d.toJson.depth room d.reread := by
  induction d using induction generalizing room with
  | node kind span ty slots list hs hl =>
    rw [toJson_node, depth_record, reread_node]
    cases room with
    | zero =>
      rw [upTo, if_neg (by omega), record_eq]
      rfl
    | succ room =>
      have hslots : ∀ r < room, ((trimSlots slots).map (ofOption toJson)).mapM (toOption (ofJson r)) =
          upTo (depth.depthItems ((trimSlots slots).map (ofOption toJson))) r
            ((trimSlots slots).map (Option.map reread)) := by
        intro r hr
        refine mapM_upTo fun o ho => toOption_ofOption toJson_ne_null fun c hc => ?_
        obtain rfl := Option.mem_def.mp hc
        have hc := mem_of_mem_trimSlots ho
        exact hs c hc (All.slot hd hc) (by omega)
      have hlist : ∀ r < room, (list.map toJson).mapM (ofJson r) =
          upTo (depth.depthItems (list.map toJson)) r (list.map reread) := fun r hr =>
        mapM_upTo fun c hc => hl c hc (All.item hd hc) (by omega)
      have hkind : (written kind span ty ((trimSlots slots).map (ofOption toJson))
          (list.map toJson)).required "kind" (NodeKind.ofJson room) = upTo 1 room kind :=
        kind.ofJson_toJson
      have hspan : span.Bounded := hd.self
      rw [upTo_succ, depth_written, ofJson_succ, toRecord_written, ok_bind, hkind]
      apply upTo_bind
      rw [withDefault_span hspan lookup_written_span]
      apply upTo_bind
      rw [withDefault_ty (by omega) lookup_written_ty]
      apply upTo_bind
      rw [withDefault_unlessEmpty lookup_written_slots hslots (by simp +contextual)]
      apply upTo_bind
      rw [withDefault_unlessEmpty lookup_written_list hlist (by simp +contextual)]
      apply upTo_bind_ok
      rw [trimSlots_map]
      rfl

end Doc

/-! Units -/

theorem MethodInfo.ofJson_toJson (hr : room ≤ roomOfText) (m : MethodInfo) :
    MethodInfo.ofJson room m.toJson = upTo m.toJson.depth room m := by
  have hd : m.toJson.depth = m.returns.toJson.depth + 1 := by simp [toJson]
  rw [hd, ofJson, toJson, toRecord_record (by simp) (by simp), ok_bind]
  apply enter_bind
  intro r hlt
  rw [Given.required_of_lookup rfl, toText_text, ok_bind, Given.required_of_lookup rfl,
    TypeDesc.ofJson_toJson (by omega)]
  apply upTo_bind_ok
  rw [Given.withDefault_of_lookup rfl, toBool_bool, ok_bind]
  rfl

/-- The level that a library class first appeared in has at most 16 bits. -/
def ClassInfo.Bounded (c : ClassInfo) : Prop := ∀ n ∈ c.since, n < Numeral.bound 16

theorem depthItems_texts (ss : List String) : depth.depthItems (ss.map text) = 0 := by
  refine Nat.le_zero.mp (depthItems_le.mpr ?_)
  simp

theorem ClassInfo.depth_toJson (c : ClassInfo) : c.toJson.depth =
    depth.depthItems (c.methods.map MethodInfo.toJson) + 2 := by
  have hs : (ofOption nat c.since).depth = 0 := by cases c.since <;> simp [ofOption]
  simp [toJson, texts, hs, depthItems_texts]

theorem toList_texts (ss : List String) : toList room (fun _ => toText) (texts ss) = upTo 1 room ss := by
  have h : toList room (fun _ => toText) (.arr (ss.map text)) =
      upTo (depth (.arr (ss.map text))) room (ss.map id) := by
    apply toList_arr
    simp [toText_text]
  rwa [depth_arr, depthItems_texts, List.map_id] at h

theorem toOption_nat16 {o : Option Nat} (h : ∀ n ∈ o, n < Numeral.bound 16) :
    toOption toNat16 (ofOption nat o) = .ok o := by
  cases o with
  | none => rfl
  | some n =>
    rw [ofOption, toOption, toNat16, toNatBelow_nat (h n rfl)]
    · rfl
    · rintro ⟨⟩

theorem ClassInfo.ofJson_toJson (hr : room ≤ roomOfText) (c : ClassInfo) (hc : c.Bounded) :
    ClassInfo.ofJson room c.toJson = upTo c.toJson.depth room c := by
  rw [c.depth_toJson, ofJson, toJson, toRecord_record (by simp) (by simp), ok_bind]
  apply enter_bind
  intro r hlt
  have hmethods : toList r MethodInfo.ofJson (.arr (c.methods.map MethodInfo.toJson)) =
      upTo (depth (.arr (c.methods.map MethodInfo.toJson))) r (c.methods.map id) := by
    apply toList_arr
    intro r' hr' m _
    exact m.ofJson_toJson (by omega)
  rw [depth_arr, List.map_id] at hmethods
  rw [Given.required_of_lookup rfl, toText_text, ok_bind, Given.withDefault_of_lookup rfl, toBool_bool,
    ok_bind, Given.withDefault_of_lookup rfl, toList_texts, ← Nat.max_eq_right (Nat.le_add_left 1 _)]
  apply upTo_bind
  rw [Given.withDefault_of_lookup rfl, hmethods]
  apply upTo_bind_ok
  rw [Given.withDefault_of_lookup rfl, toOption_nat16 hc, ok_bind]
  rfl

namespace UnitDoc

/-- The numbers that stand in a unit fit: the levels 16 bits, those of spans 64. -/
structure Bounded (u : UnitDoc) : Prop where
  level : u.level < Numeral.bound 16
  classes : ∀ c ∈ u.classes, c.Bounded
  root : u.root.Bounded

/-- What is left of a unit in its text. -/
def reread (u : UnitDoc) : UnitDoc := { u with root := u.root.reread }

theorem depth_toJson (u : UnitDoc) : u.toJson.depth = max (depth.depthFields (keyed
    (Doc.unlessEmpty "classes" (u.classes.map ClassInfo.toJson)))) u.root.toJson.depth + 1 := by
  simp [toJson, keyed_append, depthFields_append]

theorem ofJson_toJson (hr : room ≤ roomOfText) (u : UnitDoc) (hu : u.Bounded) :
    ofJson room u.toJson = upTo u.toJson.depth room u.reread := by
  obtain ⟨path, level, classes, root⟩ := u
  have hrec : toRecord .open ["path", "language_level", "classes", "root"]
      (toJson ⟨path, level, classes, root⟩) = .ok (("path", .text path) :: ("language_level", .nat level)
        :: Doc.unlessEmpty "classes" (classes.map ClassInfo.toJson) ++ [("root", root.toJson)]) := by
    apply toRecord_record <;> unfold Doc.unlessEmpty <;> split_ifs <;> simp
  have hclasses : ∀ r < room, toList r ClassInfo.ofJson (.arr (classes.map ClassInfo.toJson)) =
      upTo (depth.depthItems (classes.map ClassInfo.toJson) + 1) r classes := by
    intro r hlt
    have h : toList r ClassInfo.ofJson (.arr (classes.map ClassInfo.toJson)) =
        upTo (depth (.arr (classes.map ClassInfo.toJson))) r (classes.map id) := by
      apply toList_arr
      intro r' hr' c hc
      exact c.ofJson_toJson (by omega) (hu.classes c hc)
    rwa [depth_arr, List.map_id] at h
  rw [depth_toJson, ofJson, hrec, ok_bind]
  apply enter_bind
  intro r hlt
  rw [Given.required_of_lookup rfl, toText_text, ok_bind, Given.withDefault_of_lookup rfl, toNat16,
    toNatBelow_nat hu.level, ok_bind]
  have hroot : Doc.ofJson r root.toJson = upTo root.toJson.depth r root.reread :=
    root.ofJson_toJson hu.root (by omega)
  rw [Doc.depth_unlessEmpty]
  unfold Doc.unlessEmpty
  cases classes with
  | nil =>
    simp only [List.map_nil, List.isEmpty_nil, if_true, Nat.zero_max]
    rw [Given.withDefault, Given.required_of_lookup rfl, hroot]
    exact upTo_bind_ok rfl
  | cons c classes =>
    have h := hclasses r hlt
    rw [List.map_cons] at h ⊢
    simp only [List.isEmpty_cons, Bool.false_eq_true, if_false]
    rw [Given.withDefault_of_lookup rfl, h]
    apply upTo_bind
    rw [Given.required_of_lookup rfl, hroot]
    exact upTo_bind_ok rfl

end UnitDoc

/-! Texts -/

theorem Coded.plain_toJson {α : Type} [Coded α] (a : α) : (Coded.toJson a).Plain := .text _

namespace TypeDesc

mutual

theorem plain_toJson : (t : TypeDesc) → t.toJson.Plain
  | primitive p => by
    rw [toJson]
    exact .record (by simp [Plain.text, Coded.plain_toJson])
  | classType n [] => by
    rw [toJson]
    exact .record (by simp [Plain.text])
  | classType n (a :: as) => by
    rw [toJson]
    have h : (arr (toJson a :: toJsons as)).Plain := .arr (List.forall_mem_cons.mpr ⟨plain_toJson a, plain_toJsons as⟩)
    exact .record (by simp [Plain.text, h])
  | array e => by
    rw [toJson]
    exact .record (by simp [Plain.text, plain_toJson e])
  | null => by
    rw [toJson]
    exact .record (by simp [Plain.text])

theorem plain_toJsons : (ts : List TypeDesc) → ∀ v ∈ toJsons ts, v.Plain
  | [], v, hv => by simp [toJsons] at hv
  | t :: ts, v, hv => by
    rcases List.mem_cons.mp (by rwa [toJsons] at hv) with rfl | hv
    · exact plain_toJson t
    · exact plain_toJsons ts v hv

end

end TypeDesc

theorem NodeKind.plain_toJson (k : NodeKind) : k.toJson.Plain := by
  rw [toJson]
  refine .record (List.forall_mem_cons.mpr ⟨.text _, ?_⟩)
  cases k with
  | compilationUnit package => cases package <;> simp [fields, ofOption, Plain.text, Plain.null]
  | _ => simp [fields, Plain.text, Plain.bool, Coded.plain_toJson]

theorem plain_ofOption {α : Type} {f : α → Json} {o : Option α} (h : ∀ a ∈ o, (f a).Plain) :
    (ofOption f o).Plain := by
  cases o with
  | none => exact .null
  | some a => exact h a rfl

theorem plain_map {α : Type} {f : α → Json} {as : List α} (h : ∀ a ∈ as, (f a).Plain) :
    (arr (as.map f)).Plain := .arr (List.forall_mem_map.mpr h)

theorem Doc.plain_unlessEmpty {name : String} {items : List Json} (h : (arr items).Plain) :
    ∀ f ∈ unlessEmpty name items, f.2.Plain := by
  unfold unlessEmpty
  split <;> simp [h]

theorem Doc.plain_toJson (d : Doc) : d.toJson.Plain := by
  induction d using Doc.induction with
  | node kind span ty slots list hs hl =>
    have hslots : (arr ((trimSlots slots).map (ofOption toJson))).Plain :=
      plain_map fun o ho => plain_ofOption fun c hc =>
        hs c (Option.mem_def.mp hc ▸ mem_of_mem_trimSlots ho)
    have hspan : ∀ f ∈ spanField span, f.2.Plain := by
      have h : span.toJson.Plain := .record (by simp [Plain.nat])
      unfold spanField
      split <;> simp [h]
    have hty : ∀ f ∈ typeField ty, f.2.Plain := by
      cases ty <;> simp [typeField, TypeDesc.plain_toJson]
    rw [toJson_node, written]
    refine .record (List.forall_mem_cons.mpr ⟨kind.plain_toJson, ?_⟩)
    simp only [List.forall_mem_append]
    exact ⟨⟨⟨hspan, hty⟩, plain_unlessEmpty hslots⟩, plain_unlessEmpty (plain_map hl)⟩

theorem MethodInfo.plain_toJson (m : MethodInfo) : m.toJson.Plain := by
  rw [toJson]
  exact .record (by simp [Plain.text, Plain.bool, TypeDesc.plain_toJson])

theorem ClassInfo.plain_toJson (c : ClassInfo) : c.toJson.Plain := by
  have htexts : (texts c.supertypes).Plain := plain_map fun s _ => .text s
  have hmethods : (arr (c.methods.map MethodInfo.toJson)).Plain := plain_map fun m _ => m.plain_toJson
  have hsince : (ofOption nat c.since).Plain := plain_ofOption fun n _ => .nat n
  rw [toJson]
  exact .record (by simp [Plain.text, Plain.bool, htexts, hmethods, hsince])

namespace UnitDoc

theorem plain_toJson (u : UnitDoc) : u.toJson.Plain := by
  have hclasses : (arr (u.classes.map ClassInfo.toJson)).Plain := plain_map fun c _ => c.plain_toJson
  rw [toJson]
  refine .record (List.forall_mem_append.mpr ⟨?_, by simp [Doc.plain_toJson]⟩)
  simp only [List.forall_mem_cons]
  exact ⟨.text _, .nat _, Doc.plain_unlessEmpty hclasses⟩

/-- The text of a unit is read if and only if it nests no deeper than texts may, and then it is read as
the unit without what is not kept of it. -/
theorem read_write (u : UnitDoc) (hu : u.Bounded) :
    read u.write = upTo u.toJson.depth roomOfText u.reread := by
  rw [read, write, u.plain_toJson.read_pretty, ok_bind]
  exact u.ofJson_toJson (Nat.le_refl _) hu

end UnitDoc

end TreeTidy
