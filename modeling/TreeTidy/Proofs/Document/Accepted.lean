import TreeTidy.Proofs.Document.Written
/-!
What can be read can be written and read again. The numbers of a document that was read are in range,
and what is written for it nests no deeper than the room that it was read with.
-/
namespace TreeTidy

open Json

variable {room fuel : Nat} {v : Json}

/-! Types and kinds -/

namespace TypeDesc

variable {t : TypeDesc}

theorem depthItems_toJsons_le {n : Nat} {ts : List TypeDesc} (h : ∀ t ∈ ts, t.toJson.depth ≤ n) :
    depth.depthItems (toJsons ts) ≤ n := by
  rw [toJsons_eq, depthItems_le]
  exact List.forall_mem_map.mpr h

theorem depth_classType_le {n : Nat} (name : String) {args : List TypeDesc} (h : args ≠ [] →
    depth.depthItems (toJsons args) + 1 ≤ n) : (classType name args).toJson.depth ≤ n + 1 := by
  cases args with
  | nil =>
    rw [toJson]
    simp
  | cons a as =>
    have h := h nofun
    rw [toJsons] at h
    rw [toJson]
    simpa using h

/-- A type nests no deeper than the value that it is read from. -/
theorem ofWhole_ok {byPlace : Bool} (h : ofWhole fuel byPlace v = .ok t) :
    t.toJson.depth ≤ v.depth := by
  induction fuel generalizing byPlace v t with
  | zero => cases h
  | succ fuel ih =>
    obtain ⟨⟨variant, w⟩, hw, h⟩ := except_bind_eq_ok.mp h
    refine Nat.le_trans ?_ (depth_le_of_toTagged hw)
    dsimp only at h
    split at h
    · obtain ⟨given, hg, h⟩ := except_bind_eq_ok.mp h
      obtain ⟨p, -, h⟩ := except_bind_eq_ok.mp h
      cases h
      have := depth_pos_of_toRecord hg
      rw [toJson]
      simpa using Nat.succ_le_of_lt this
    · obtain ⟨given, hg, h⟩ := except_bind_eq_ok.mp h
      obtain ⟨name, -, h⟩ := except_bind_eq_ok.mp h
      obtain ⟨args, hargs, h⟩ := except_bind_eq_ok.mp h
      cases h
      have hpos := depth_pos_of_toRecord hg
      have hle : args ≠ [] → depth.depthItems (toJsons args) + 1 ≤ w.depth - 1 := by
        intro hne
        rcases Given.withDefault_ok hg hargs with rfl | ⟨x, hx, hargs⟩
        · exact absurd rfl hne
        split at hargs
        next vs =>
          have hitems : depth.depthItems (toJsons args) ≤ depth.depthItems vs := by
            apply depthItems_toJsons_le
            intro a ha
            obtain ⟨y, hy, hd⟩ := mapM_ok hargs a ha
            exact (ih hd).trans (depthItems_le.mp (Nat.le_refl _) y hy)
          rw [depth_arr] at hx
          omega
        next => exact absurd hargs refuse_ne_ok
      have := depth_classType_le name hle
      omega
    · obtain ⟨given, hg, h⟩ := except_bind_eq_ok.mp h
      obtain ⟨e, he, h⟩ := except_bind_eq_ok.mp h
      cases h
      obtain ⟨x, hx, he⟩ := Given.required_ok hg he
      have := ih he
      rw [toJson]
      simp
      omega
    · obtain ⟨given, hg, h⟩ := except_bind_eq_ok.mp h
      cases h
      have := depth_pos_of_toRecord hg
      rw [toJson]
      simpa using Nat.succ_le_of_lt this

theorem ofJson_ok (h : ofJson room v = .ok t) : t.toJson.depth ≤ room := by
  rw [ofJson.eq_def] at h
  split at h
  · obtain ⟨hr, h⟩ := toWhole_ok h
    exact (ofWhole_ok h).trans hr
  · obtain ⟨hr, h⟩ := toWhole_ok h
    exact (ofWhole_ok h).trans hr
  · exact absurd h refuse_ne_ok

end TypeDesc

theorem NodeKind.ofJson_ok {k : NodeKind} (h : NodeKind.ofJson room v = .ok k) : 1 ≤ room := by
  have hpos : 0 < v.depth ∧ v.depth ≤ room := by
    rw [NodeKind.ofJson.eq_def] at h
    split at h
    · exact ⟨by simp [depth], (toWhole_ok h).1⟩
    · exact ⟨by simp, (toWhole_ok h).1⟩
    · exact absurd h refuse_ne_ok
  omega

theorem enter_ok {r : Nat} (h : enter room = .ok r) : room = r + 1 := by
  cases room with
  | zero => cases h
  | succ room =>
    cases h
    rfl

theorem Span.ofJson_ok {s : Span} (h : Span.ofJson room v = .ok s) : 1 ≤ room ∧ s.Bounded := by
  obtain ⟨given, hg, h⟩ := except_bind_eq_ok.mp h
  obtain ⟨r, hr, h⟩ := except_bind_eq_ok.mp h
  obtain ⟨start, h₁, h⟩ := except_bind_eq_ok.mp h
  obtain ⟨stop, h₂, h⟩ := except_bind_eq_ok.mp h
  cases h
  obtain ⟨x, -, h₁⟩ := Given.required_ok hg h₁
  obtain ⟨y, -, h₂⟩ := Given.required_ok hg h₂
  have := enter_ok hr
  exact ⟨by omega, toNatBelow_ok h₁, toNatBelow_ok h₂⟩

/-! Documents -/

namespace Doc

variable {d : Doc} {kind : NodeKind} {span : Span} {ty : Option TypeDesc} {slots : List (Option Doc)}
  {list : List Doc}

theorem depth_spanField_le (h : 1 ≤ room) : depth.depthFields (keyed (spanField span)) ≤ room := by
  unfold spanField
  split <;> simp [h]

theorem depth_typeField_le (h : ∀ t ∈ ty, t.toJson.depth ≤ room) :
    depth.depthFields (keyed (typeField ty)) ≤ room := by
  cases ty with
  | none => simp [typeField]
  | some t => simpa [typeField] using h t rfl

theorem depth_unlessEmpty_le {field : String} {items : List Json}
    (h : items ≠ [] → ∃ r, room = r + 1 ∧ ∀ v ∈ items, v.depth ≤ r) :
    depth.depthFields (keyed (unlessEmpty field items)) ≤ room := by
  rw [depth_unlessEmpty]
  cases items with
  | nil => simp
  | cons v vs =>
    obtain ⟨r, rfl, hle⟩ := h nofun
    rw [List.isEmpty_cons, if_neg Bool.false_ne_true]
    exact Nat.succ_le_succ (depthItems_le.mpr hle)

/-- A document that was read is written no deeper than the room that it was read with. -/
theorem ofJson_ok (h : ofJson room v = .ok d) : d.toJson.depth ≤ room ∧ d.Bounded := by
  induction d using induction generalizing room v with
  | node kind span ty slots list hs hl =>
    cases room with
    | zero =>
      rw [ofJson.eq_def] at h
      dsimp only at h
      split at h
      · cases h
      · cases h
      · exact absurd h refuse_ne_ok
    | succ room =>
      rw [ofJson_succ] at h
      obtain ⟨given, hg, h⟩ := except_bind_eq_ok.mp h
      obtain ⟨kind', hk, h⟩ := except_bind_eq_ok.mp h
      obtain ⟨span', hsp, h⟩ := except_bind_eq_ok.mp h
      obtain ⟨ty', hty, h⟩ := except_bind_eq_ok.mp h
      obtain ⟨slots', hss, h⟩ := except_bind_eq_ok.mp h
      obtain ⟨list', hls, h⟩ := except_bind_eq_ok.mp h
      cases h
      obtain ⟨x, -, hk⟩ := Given.required_ok hg hk
      have hroom := NodeKind.ofJson_ok hk
      have hspan : span.Bounded := by
        rcases Given.withDefault_ok hg hsp with rfl | ⟨x, -, hsp⟩
        · exact Span.bounded_none
        · exact (Span.ofJson_ok hsp).2
      have htyle : ∀ t ∈ ty, t.toJson.depth ≤ room := by
        rcases Given.withDefault_ok hg hty with rfl | ⟨x, -, hty⟩
        · nofun
        · exact fun t ht => TypeDesc.ofJson_ok (toOption_ok hty t ht)
      have hslots : slots ≠ [] → ∃ r, room = r + 1 ∧
          ∀ c, some c ∈ slots → c.toJson.depth ≤ r ∧ c.Bounded := by
        intro hne
        rcases Given.withDefault_ok hg hss with he | ⟨x, -, hss⟩
        · exact absurd he hne
        obtain ⟨r, hr, hall⟩ := toList_ok hss
        refine ⟨r, hr, ?_⟩
        intro c hc
        obtain ⟨w, -, hw⟩ := hall _ hc
        exact hs c hc (toOption_ok hw c rfl)
      have hlist : list ≠ [] → ∃ r, room = r + 1 ∧
          ∀ c ∈ list, c.toJson.depth ≤ r ∧ c.Bounded := by
        intro hne
        rcases Given.withDefault_ok hg hls with he | ⟨x, -, hls⟩
        · exact absurd he hne
        obtain ⟨r, hr, hall⟩ := toList_ok hls
        refine ⟨r, hr, ?_⟩
        intro c hc
        obtain ⟨w, -, hw⟩ := hall c hc
        exact hl c hc hw
      constructor
      · rw [toJson_node, depth_record, depth_written, Nat.add_le_add_iff_right]
        simp only [Nat.max_le]
        refine ⟨hroom, depth_spanField_le hroom, depth_typeField_le htyle, depth_unlessEmpty_le ?_,
          depth_unlessEmpty_le ?_⟩
        · intro hne
          obtain ⟨r, hr, hall⟩ := hslots (by rintro rfl; exact hne rfl)
          refine ⟨r, hr, List.forall_mem_map.mpr ?_⟩
          rintro (_ | c) hc
          · exact Nat.zero_le _
          · exact (hall c (mem_of_mem_trimSlots hc)).1
        · intro hne
          obtain ⟨r, hr, hall⟩ := hlist (by rintro rfl; exact hne rfl)
          exact ⟨r, hr, List.forall_mem_map.mpr fun c hc => (hall c hc).1⟩
      · refine all_node hspan ?_ ?_
        · intro c hc
          obtain ⟨r, -, hall⟩ := hslots (List.ne_nil_of_mem hc)
          exact (hall c hc).2
        · intro c hc
          obtain ⟨r, -, hall⟩ := hlist (List.ne_nil_of_mem hc)
          exact (hall c hc).2

end Doc

/-! Units -/

theorem MethodInfo.ofJson_ok {m : MethodInfo} (h : MethodInfo.ofJson room v = .ok m) :
    m.toJson.depth ≤ room := by
  obtain ⟨given, hg, h⟩ := except_bind_eq_ok.mp h
  obtain ⟨r, hr, h⟩ := except_bind_eq_ok.mp h
  obtain ⟨name, -, h⟩ := except_bind_eq_ok.mp h
  obtain ⟨returns, ht, h⟩ := except_bind_eq_ok.mp h
  obtain ⟨isStatic, -, h⟩ := except_bind_eq_ok.mp h
  cases h
  obtain ⟨x, -, ht⟩ := Given.required_ok hg ht
  have := TypeDesc.ofJson_ok ht
  rw [enter_ok hr]
  simpa [toJson] using this

/-- A class is written with lists of its supertypes and methods, also when it has none. -/
theorem ClassInfo.ofJson_ok {c : ClassInfo} (hr : 2 ≤ room) (h : ClassInfo.ofJson room v = .ok c) :
    c.toJson.depth ≤ room ∧ c.Bounded := by
  obtain ⟨given, hg, h⟩ := except_bind_eq_ok.mp h
  obtain ⟨r, he, h⟩ := except_bind_eq_ok.mp h
  obtain ⟨name, -, h⟩ := except_bind_eq_ok.mp h
  obtain ⟨interface, -, h⟩ := except_bind_eq_ok.mp h
  obtain ⟨supertypes, -, h⟩ := except_bind_eq_ok.mp h
  obtain ⟨methods, hm, h⟩ := except_bind_eq_ok.mp h
  obtain ⟨since, hs, h⟩ := except_bind_eq_ok.mp h
  cases h
  obtain rfl := enter_ok he
  constructor
  · have hmethods : depth.depthItems (methods.map MethodInfo.toJson) ≤ r - 1 := by
      rw [depthItems_le, List.forall_mem_map]
      intro m hmem
      rcases Given.withDefault_ok hg hm with rfl | ⟨x, -, hm⟩
      · cases hmem
      · obtain ⟨q, rfl, hall⟩ := toList_ok hm
        obtain ⟨w, -, hw⟩ := hall m hmem
        exact MethodInfo.ofJson_ok hw
    rw [depth_toJson]
    dsimp only
    omega
  · intro n hn
    rcases Given.withDefault_ok hg hs with rfl | ⟨x, -, hs⟩
    · cases hn
    · exact toNatBelow_ok (toOption_ok hs n hn)

/-- What is read from a text is in range, and nests no deeper than texts may when it is written. -/
theorem UnitDoc.read_ok {text : String} {u : UnitDoc} (h : UnitDoc.read text = .ok u) :
    u.toJson.depth ≤ roomOfText ∧ u.Bounded := by
  obtain ⟨v, -, h⟩ := except_bind_eq_ok.mp h
  obtain ⟨given, hg, h⟩ := except_bind_eq_ok.mp h
  obtain ⟨r, he, h⟩ := except_bind_eq_ok.mp h
  obtain ⟨path, -, h⟩ := except_bind_eq_ok.mp h
  obtain ⟨level, hlevel, h⟩ := except_bind_eq_ok.mp h
  obtain ⟨classes, hc, h⟩ := except_bind_eq_ok.mp h
  obtain ⟨root, hroot, h⟩ := except_bind_eq_ok.mp h
  cases h
  obtain rfl : r = 126 := by
    have := enter_ok he
    rw [roomOfText] at this
    omega
  obtain ⟨x, -, hroot⟩ := Given.required_ok hg hroot
  have hroot := Doc.ofJson_ok hroot
  have hclasses : ∀ c ∈ classes, c.toJson.depth ≤ 125 ∧ c.Bounded := by
    intro c hmem
    rcases Given.withDefault_ok hg hc with rfl | ⟨x, -, hc⟩
    · cases hmem
    · obtain ⟨q, hq, hall⟩ := toList_ok hc
      obtain rfl : q = 125 := by omega
      obtain ⟨w, -, hw⟩ := hall c hmem
      exact ClassInfo.ofJson_ok (by omega) hw
  constructor
  · have hd : depth.depthFields (keyed (Doc.unlessEmpty "classes" (classes.map ClassInfo.toJson))) ≤ 126 := by
      apply Doc.depth_unlessEmpty_le
      intro _
      exact ⟨125, rfl, List.forall_mem_map.mpr fun c hc => (hclasses c hc).1⟩
    rw [UnitDoc.depth_toJson, roomOfText, Nat.add_le_add_iff_right, Nat.max_le]
    exact ⟨hd, hroot.1⟩
  · refine ⟨?_, fun c hc => (hclasses c hc).2, hroot.2⟩
    rcases Given.withDefault_ok hg hlevel with rfl | ⟨x, -, hlevel⟩
    · exact (by decide : Level.standard < Numeral.bound 16)
    · exact toNatBelow_ok hlevel

end TreeTidy
