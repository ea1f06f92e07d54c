import TreeTidy.Json.Decode
import TreeTidy.Proofs.Json.Written
import TreeTidy.Proofs.Tree.Fits
/-!
Records and how deep they nest. A value that was written as a record is read as the fields that were
written, if and only if it nests no deeper than the room that there is; and what is read of a value
lies inside it.
-/
namespace TreeTidy.Json

variable {α β γ : Type} {v w : Json} {fs : List (String × Json)} {room n m : Nat} {name tag variant : String}
  {a : α} {b : β} {form : RecordForm} {names variants : List String} {g : Given}

/-! Depth -/

@[simp] theorem depth_null : depth null = 0 := rfl

@[simp] theorem depth_bool {x : Bool} : depth (bool x) = 0 := rfl

@[simp] theorem depth_text {s : String} : depth (text s) = 0 := rfl

@[simp] theorem depth_nat : depth (nat n) = 0 := rfl

@[simp] theorem depth_arr {vs : List Json} : depth (arr vs) = depth.depthItems vs + 1 := rfl

@[simp] theorem depth_record : depth (record fs) = depth.depthFields (keyed fs) + 1 := by
  rw [record_eq, depth]

@[simp] theorem depthItems_nil : depth.depthItems [] = 0 := rfl

@[simp] theorem depthItems_cons {vs : List Json} :
    depth.depthItems (v :: vs) = max v.depth (depth.depthItems vs) := rfl

@[simp] theorem depthFields_nil : depth.depthFields [] = 0 := rfl

@[simp] theorem depthFields_cons {k : Option String} {fs : List (Option String × Json)} :
    depth.depthFields ((k, v) :: fs) = max v.depth (depth.depthFields fs) := rfl

theorem depthItems_le {vs : List Json} : depth.depthItems vs ≤ n ↔ ∀ v ∈ vs, v.depth ≤ n := by
  induction vs with
  | nil => simp
  | cons v vs ih => simp [Nat.max_le, ih]

theorem depthFields_le {fs : List (Option String × Json)} :
    depth.depthFields fs ≤ n ↔ ∀ f ∈ fs, f.2.depth ≤ n := by
  induction fs with
  | nil => simp
  | cons f fs ih =>
    obtain ⟨k, v⟩ := f
    simp [Nat.max_le, ih]

theorem keyed_append (as bs : List (String × Json)) : keyed (as ++ bs) = keyed as ++ keyed bs :=
  List.map_append

theorem depthFields_append (as bs : List (Option String × Json)) :
    depth.depthFields (as ++ bs) = max (depth.depthFields as) (depth.depthFields bs) := by
  induction as with
  | nil => simp
  | cons f as ih =>
    obtain ⟨k, v⟩ := f
    rw [List.cons_append, depthFields_cons, ih, depthFields_cons, Nat.max_assoc]

/-! What needs room -/

/-- What reading gives for a value that needs so many levels. -/
def upTo (levels room : Nat) (a : α) : Except Refusal α :=
  if levels ≤ room then .ok a else .error .malformed

@[simp] theorem upTo_zero : upTo 0 room a = .ok a := if_pos (Nat.zero_le _)

theorem upTo_succ : upTo (n + 1) (room + 1) a = upTo n room a := by
  unfold upTo
  simp

theorem upTo_map {f : α → β} : (upTo n room a).map f = upTo n room (f a) := by
  unfold upTo
  split <;> rfl

theorem ok_bind {ε : Type} {f : α → Except ε β} : ((.ok a : Except ε α) >>= f) = f a := rfl

/-- One value after the other needs the room of both. -/
theorem upTo_bind {f : α → Except Refusal β} (h : f a = upTo m room b) :
    (upTo n room a >>= f) = upTo (max n m) room b := by
  rw [upTo, upTo]
  by_cases hn : n ≤ room
  · rw [if_pos hn, ok_bind, h, upTo]
    by_cases hm : m ≤ room
    · rw [if_pos hm, if_pos (Nat.max_le.mpr ⟨hn, hm⟩)]
    · rw [if_neg hm, if_neg fun he => hm (Nat.max_le.mp he).2]
  · rw [if_neg hn, if_neg fun he => hn (Nat.max_le.mp he).1]
    rfl

theorem upTo_bind_ok {f : α → Except Refusal β} (h : f a = .ok b) :
    (upTo n room a >>= f) = upTo n room b := by
  have h : f a = upTo 0 room b := h.trans upTo_zero.symm
  rw [upTo_bind h, Nat.max_zero]

/-- What is read with the room inside a value needs one level more with the room around it. -/
theorem enter_bind {f : Nat → Except Refusal β} (h : ∀ r < room, f r = upTo n r b) :
    (enter room >>= f) = upTo (n + 1) room b := by
  cases room with
  | zero => rfl
  | succ r =>
    rw [enter, ok_bind, h r (Nat.lt_succ_self r), upTo, upTo]
    simp

theorem mapM_upTo {xs : List γ} {f : γ → Json} {d : Json → Except Refusal β} {g : γ → β}
    (h : ∀ x ∈ xs, d (f x) = upTo (f x).depth room (g x)) :
    (xs.map f).mapM d = upTo (depth.depthItems (xs.map f)) room (xs.map g) := by
  induction xs with
  | nil => simp [pure, Except.pure]
  | cons x xs ih =>
    have hx := ih fun y hy => h y (.tail _ hy)
    rw [List.map_cons, List.mapM_cons, h x (.head _), depthItems_cons, List.map_cons]
    apply upTo_bind
    rw [hx]
    exact upTo_bind_ok rfl

/-! Reading what was written -/

theorem toText_text {s : String} : toText (.text s) = .ok s := rfl

theorem toBool_bool {x : Bool} : toBool (.bool x) = .ok x := rfl

theorem toNatBelow_nat {bound : Nat} (h : n < bound) : toNatBelow bound (.nat n) = .ok n := by
  rw [Json.nat, toNatBelow, Number.nat?_toString]
  exact if_pos h

theorem toOption_ofOption {f : γ → Json} {d : Json → Except Refusal β} {g : γ → β} {o : Option γ}
    (hn : ∀ x, f x ≠ null) (h : ∀ x ∈ o, d (f x) = upTo (f x).depth room (g x)) :
    toOption d (ofOption f o) = upTo (ofOption f o).depth room (o.map g) := by
  cases o with
  | none => simp [ofOption, toOption]
  | some x =>
    rw [ofOption, toOption, h x rfl, upTo_map, Option.map_some]
    exact fun he => hn x he

theorem toList_arr {xs : List γ} {f : γ → Json} {d : Nat → Json → Except Refusal β} {g : γ → β}
    (h : ∀ r < room, ∀ x ∈ xs, d r (f x) = upTo (f x).depth r (g x)) :
    toList room d (.arr (xs.map f)) = upTo (depth (.arr (xs.map f))) room (xs.map g) := by
  rw [toList, depth_arr]
  exact enter_bind fun r hr => mapM_upTo (h r hr)

theorem toCoded_code [Coded α] (h : Coded.ofCode? (Coded.code a) = some a) :
    toCoded (.text (Coded.code a)) = .ok a := by
  rw [text, toCoded, toCoded.found, h]

theorem textKeys_keyed (fs : List (String × Json)) : textKeys (keyed fs) = .ok fs := by
  induction fs with
  | nil => rfl
  | cons f fs ih =>
    rw [textKeys] at ih
    rw [keyed_cons, textKeys, List.mapM_cons, ih]
    rfl

/-- A written record gives the fields that were written, if it has known fields only and none twice. -/
theorem toRecord_record (hn : (fs.map Prod.fst).Nodup) (hk : ∀ f ∈ fs, f.1 ∈ names) :
    toRecord form names (record fs) = .ok fs := by
  have hf : fs.filter (fun f => names.contains f.1) = fs :=
    List.filter_eq_self.mpr fun f hf => by simpa using hk f hf
  have hc : names.any (fun n => decide (1 < (fs.filter (·.1 == n)).length)) = false := by
    rw [List.any_eq_false]
    intro n _
    have hl : (fs.filter (·.1 == n)).length = (fs.map Prod.fst).count n := by
      rw [List.count_eq_length_filter, List.filter_map, List.length_map]
      rfl
    have := List.nodup_iff_count_le_one.mp hn n
    simp only [decide_eq_true_eq, hl]
    omega
  simp only [record_eq, toRecord, textKeys_keyed, ok_bind, hf, hc]
  simp [pure, Except.pure]

theorem Given.required_of_lookup {d : Json → Except Refusal α} (h : g.lookup name = some v) :
    g.required name d = d v := by rw [required, h]

theorem Given.withDefault_of_lookup {d : Json → Except Refusal α} {o : α} (h : g.lookup name = some v) :
    g.withDefault name o d = d v := by rw [withDefault, h]

/-- A written tagged record gives its variant and the other fields. -/
theorem toTagged_record {byPlace : Bool} (hv : variant ∈ variants) (hn : ∀ f ∈ fs, f.1 ≠ tag) :
    toTagged tag variants byPlace (record ((tag, text variant) :: fs)) = .ok (variant, record fs) := by
  have ht : (keyed fs).filter (·.1 == some tag) = [] := by
    rw [List.filter_eq_nil_iff, keyed, List.forall_mem_map]
    simpa using fun k v h => hn (k, v) h
  have hr : (keyed fs).filter (·.1 != some tag) = keyed fs := by
    rw [List.filter_eq_self, keyed, List.forall_mem_map]
    simpa using fun k v h => hn (k, v) h
  rw [record_eq, keyed_cons, toTagged, List.filter_cons_of_pos (by simp), ht]
  simp only [variantOf, text, List.contains_eq_mem, hv, decide_true, if_true, ok_bind]
  rw [List.filter_cons_of_neg (by simp), hr]
  rfl

theorem toWhole_of_sound {d : Json → Except Refusal α} (h : isReadable.sound v = true)
    (hd : v.depth ≤ room → d v = .ok a) : toWhole room d v = upTo v.depth room a := by
  rw [toWhole, isReadable, h, Bool.and_true, upTo]
  by_cases hv : v.depth ≤ room
  · rw [if_pos (decide_eq_true hv), if_pos hv, hd hv]
  · rw [if_neg (by simpa using hv), if_neg hv]

@[simp] theorem sound_null : isReadable.sound null = true := rfl

@[simp] theorem sound_bool {x : Bool} : isReadable.sound (bool x) = true := rfl

@[simp] theorem sound_text {s : String} : isReadable.sound (text s) = true := rfl

theorem sound_arr {vs : List Json} :
    isReadable.sound (arr vs) = true ↔ ∀ v ∈ vs, isReadable.sound v = true := by
  rw [isReadable.sound]
  induction vs with
  | nil => simp [isReadable.soundItems]
  | cons v vs ih => simp [isReadable.soundItems, ih]

theorem sound_record : isReadable.sound (record fs) = true ↔ ∀ f ∈ fs, isReadable.sound f.2 = true := by
  rw [record_eq, isReadable.sound]
  induction fs with
  | nil => simp [isReadable.soundFields]
  | cons f fs ih =>
    obtain ⟨k, v⟩ := f
    simp [isReadable.soundFields, ih]

/-! Where what is read lies -/

theorem refuse_ne_ok : refuse v ≠ .ok a := by
  rintro h
  rw [refuse.eq_def] at h
  split at h <;> cases h

theorem depth_lt_of_field {k : Option String} {fs : List (Option String × Json)} (h : (k, w) ∈ fs) :
    w.depth < depth (obj fs) := by
  rw [depth]
  exact Nat.lt_succ_of_le (depthFields_le.mp (Nat.le_refl _) _ h)

theorem depth_lt_of_item {vs : List Json} (h : w ∈ vs) : w.depth < depth (arr vs) := by
  rw [depth_arr]
  exact Nat.lt_succ_of_le (depthItems_le.mp (Nat.le_refl _) _ h)

theorem mem_of_textKeys {fs : List (Option String × Json)} (h : textKeys fs = .ok g)
    (hm : (name, w) ∈ g) : (some name, w) ∈ fs := by
  induction fs generalizing g with
  | nil =>
    cases h
    cases hm
  | cons f fs ih =>
    obtain ⟨k, v⟩ := f
    cases k with
    | none => cases h
    | some k =>
      rw [textKeys, List.mapM_cons] at h
      obtain ⟨gs, hgs, h⟩ := except_bind_eq_ok.mp (show Except.bind (textKeys fs) _ = _ from h)
      cases h
      rcases List.mem_cons.mp hm with he | hm
      · cases he
        exact .head _
      · exact .tail _ (ih hgs hm)

/-- The fields that a record gives lie inside it. -/
theorem depth_lt_of_toRecord (h : toRecord form names v = .ok g) (hm : (name, w) ∈ g) :
    w.depth < v.depth := by
  rw [toRecord.eq_def] at h
  split at h
  next fs =>
    obtain ⟨given, hg, h⟩ := except_bind_eq_ok.mp h
    simp only at h
    split at h
    · cases h
    split at h
    · cases h
    cases h
    exact depth_lt_of_field (mem_of_textKeys hg (List.mem_filter.mp hm).1)
  next vs =>
    split at h <;> cases h
    exact depth_lt_of_item (List.of_mem_zip hm).2
  next => exact absurd h refuse_ne_ok

theorem depth_pos_of_toRecord (h : toRecord form names v = .ok g) : 0 < v.depth := by
  rw [toRecord.eq_def] at h
  split at h
  next fs =>
    rw [depth]
    exact Nat.succ_pos _
  next vs =>
    rw [depth]
    exact Nat.succ_pos _
  next => exact absurd h refuse_ne_ok

theorem Given.mem_of_lookup (h : g.lookup name = some w) : (name, w) ∈ g := by
  induction g with
  | nil => cases h
  | cons f g ih =>
    obtain ⟨k, v⟩ := f
    rw [List.lookup_cons] at h
    split at h
    next hk =>
      cases h
      rw [beq_iff_eq.mp hk]
      exact .head _
    next => exact .tail _ (ih h)

/-- A required field is read from a value inside the record. -/
theorem Given.required_ok {d : Json → Except Refusal α} (hg : toRecord form names v = .ok g)
    (h : g.required name d = .ok a) : ∃ w, w.depth < v.depth ∧ d w = .ok a := by
  rw [required] at h
  split at h
  next w hw => exact ⟨w, depth_lt_of_toRecord hg (mem_of_lookup hw), h⟩
  next => cases h

/-- Any other field as well, unless it has the value for fields that are not given. -/
theorem Given.withDefault_ok {d : Json → Except Refusal α} {o : α} (hg : toRecord form names v = .ok g)
    (h : g.withDefault name o d = .ok a) : a = o ∨ ∃ w, w.depth < v.depth ∧ d w = .ok a := by
  rw [withDefault] at h
  split at h
  next w hw => exact .inr ⟨w, depth_lt_of_toRecord hg (mem_of_lookup hw), h⟩
  next =>
    cases h
    exact .inl rfl

/-- Without its tag a value is no deeper. -/
theorem depth_le_of_toTagged {byPlace : Bool}
    (h : toTagged tag variants byPlace v = .ok (variant, w)) : w.depth ≤ v.depth := by
  cases v with
  | obj fs =>
    rw [toTagged] at h
    split at h
    next =>
      obtain ⟨x, -, h⟩ := except_bind_eq_ok.mp h
      cases h
      rw [depth, depth, Nat.add_le_add_iff_right, depthFields_le]
      exact fun f hf => depthFields_le.mp (Nat.le_refl _) f (List.mem_filter.mp hf).1
    next => cases h
  | arr vs =>
    cases vs with
    | nil => cases h
    | cons v vs =>
      obtain ⟨x, -, h⟩ := except_bind_eq_ok.mp h
      cases h
      simp [Nat.le_max_right]
  | _ => cases h

theorem toWhole_ok {d : Json → Except Refusal α} (h : toWhole room d v = .ok a) :
    v.depth ≤ room ∧ d v = .ok a := by
  rw [toWhole] at h
  split at h
  next hr =>
    rw [isReadable, Bool.and_eq_true, decide_eq_true_eq] at hr
    exact ⟨hr.1, h⟩
  next => cases h

theorem toOption_ok {d : Json → Except Refusal α} {o : Option α} (h : toOption d v = .ok o) :
    ∀ x ∈ o, d v = .ok x := by
  intro x hx
  rw [toOption.eq_def] at h
  split at h
  · cases h
    cases hx
  · obtain rfl := Option.mem_def.mp hx
    cases hd : d v <;> rw [hd] at h <;> cases h
    rfl

theorem mapM_ok {d : Json → Except Refusal α} {vs : List Json} {as : List α}
    (h : vs.mapM d = .ok as) : ∀ a ∈ as, ∃ v ∈ vs, d v = .ok a := by
  induction vs generalizing as with
  | nil =>
    cases h
    nofun
  | cons v vs ih =>
    rw [List.mapM_cons] at h
    obtain ⟨x, hx, h⟩ := except_bind_eq_ok.mp h
    obtain ⟨xs, hxs, h⟩ := except_bind_eq_ok.mp h
    cases h
    intro a ha
    rcases List.mem_cons.mp ha with rfl | ha
    · exact ⟨v, .head _, hx⟩
    · obtain ⟨w, hw, hd⟩ := ih hxs a ha
      exact ⟨w, .tail _ hw, hd⟩

theorem toList_ok {d : Nat → Json → Except Refusal α} {as : List α} (h : toList room d v = .ok as) :
    ∃ r, room = r + 1 ∧ ∀ a ∈ as, ∃ w, w.depth < v.depth ∧ d r w = .ok a := by
  rw [toList.eq_def] at h
  split at h
  next vs =>
    obtain ⟨r, hr, h⟩ := except_bind_eq_ok.mp h
    obtain _ | room := room
    · cases hr
    cases hr
    refine ⟨r, rfl, ?_⟩
    intro a ha
    obtain ⟨w, hw, hd⟩ := mapM_ok h a ha
    exact ⟨w, depth_lt_of_item hw, hd⟩
  next => exact absurd h refuse_ne_ok

theorem toNatBelow_ok {bound : Nat} (h : toNatBelow bound v = .ok n) : n < bound := by
  rw [toNatBelow.eq_def] at h
  split at h
  · split at h
    · split at h
      · cases h
        assumption
      · exact absurd h refuse_ne_ok
    · exact absurd h refuse_ne_ok
  · exact absurd h refuse_ne_ok

end TreeTidy.Json
