import TreeTidy.Proofs.Source.RereadStatements
/-!
Reading declarations and whole units again. Modifiers are read as long as there are some, so what comes
after them is looked at, too; the words that start what stands before the members start no member.
-/
namespace TreeTidy.Reader

open Doc (plain Formed Separate)
open Lookahead (After)
open Token (AllLexed commas mark ofPath weightOf word wrapped)

variable {n : Nat} {ts ts' rest : List Token} {d : Doc} {owner : Option String}

theorem paramsFrom_read (n : Nat) {ds : List Doc} (hl : AllLexed ts) (h : Ran (paramsFrom n) ts ds ts') :
    ListRead paramsFrom .param listed ds ts' ∧ ds ≠ [] := by
  induction n generalizing ts ds with
  | zero => exact (Ran.exhausted h).elim
  | succ n ih =>
    cases h.paramsFrom with
    | @last name ty _ hty hk =>
      have hty := (typesRead n).1 hl hty
      have hn : IsName name := ⟨hty.lexed.head, hk⟩
      refine ⟨.singleton_listed (.typed hn hty.formed) hty.lexed.tail.tail fun _ g rest hg => ?_,
        List.cons_ne_nil _ _⟩
      rw [Doc.tokens_typed, Token.weightOf_append] at hg
      rw [Doc.tokens_typed, List.append_assoc]
      exact .paramsFrom (.last (hty.reads ⟨by simp, by simp, by simp⟩ (by omega)) hk)
    | @more name ty ds ts₁ _ hty hk hds =>
      have hty := (typesRead n).1 hl hty
      have hn : IsName name := ⟨hty.lexed.head, hk⟩
      obtain ⟨hds, hne⟩ := ih hty.lexed.tail.tail hds
      refine ⟨.cons_listed (.typed hn hty.formed) hne hds fun _ g rest hg hagain => ?_, List.cons_ne_nil _ _⟩
      rw [Doc.tokens_typed, Token.weightOf_append] at hg
      rw [Doc.tokens_typed, List.append_assoc]
      exact .paramsFrom (.more (hty.reads ⟨by simp, by simp, by simp⟩ (by omega)) hk hagain)

theorem params_read {ds : List Doc} (hl : AllLexed ts) (h : Ran (params n) ts ds ts') :
    ListRead params .param (fun ds => Token.inParens (commas (ds.map Doc.tokens))) ds ts' := by
  rw [params] at h
  obtain ⟨ts₁, rfl, h₁⟩ := h.expect_bind
  obtain ⟨ts₂, rfl, h₂⟩ | ⟨hne, h₂⟩ := h₁.takes_ite
  · obtain ⟨rfl, rfl⟩ := h₂.pure
    exact ⟨by simp, hl.tail.tail, fun _ _ _ _ => .bind .expect (.bind .takes .pure)⟩
  · obtain ⟨hds, hne'⟩ := paramsFrom_read n hl.tail h₂
    refine ⟨hds.formed, hds.lexed, fun hs g rest hg => ?_⟩
    change 10 * weightOf (mark "(" :: listed ds) ≤ g at hg
    change Reads _ (mark "(" :: (listed ds ++ rest)) _ _
    rw [Token.weightOf_cons] at hg
    refine .bind .expect (.bind (.leaves ?_) (hds.again hs (by omega)))
    obtain ⟨d, ds, rfl⟩ := List.exists_cons_of_ne_nil hne'
    have hd := hds.formed d List.mem_cons_self
    obtain ⟨m, us, hlisted, -⟩ := listed_next d ds
    rw [hlisted]
    cases hd with
    | bare => simp
    | typed _ hty =>
      obtain ⟨w, vs, hvs, -⟩ := hty.opening
      rw [Doc.tokens_typed, hvs]
      simp

theorem modifiersAt_other (h : ∀ w m, ts.head? = some (word w) → (Coded.ofCode? w : Option Modifier) ≠ some m) :
    modifiersAt ts = [] := by
  unfold modifiersAt
  split
  case h_1 w us =>
    split
    case h_1 m hm => exact absurd hm (h w m rfl)
    case h_2 => rfl
  case h_2 => rfl

theorem modifiersAt_append (ms : List Modifier) (h : modifiersAt ts = []) :
    modifiersAt ((ms.map fun m => word m.keyword) ++ ts) = ms := by
  induction ms with
  | nil => exact h
  | cons m ms ih =>
    have hm : (Coded.ofCode? m.keyword : Option Modifier) = some m := by cases m <;> rfl
    rw [List.map_cons, List.cons_append, modifiersAt, hm]
    exact congrArg (m :: ·) ih

/-- Modifiers are written by the words before the tokens that are left, and none is among the latter. -/
theorem modifiersAt_eq (ts : List Token) : ts = ((modifiersAt ts).map fun m => word m.keyword)
      ++ ts.drop (modifiersAt ts).length
    ∧ ∀ w m, (ts.drop (modifiersAt ts).length).head? = some (word w) →
      (Coded.ofCode? w : Option Modifier) ≠ some m := by
  fun_induction modifiersAt ts with
  | case1 w rest m hm ih =>
    have hw : m.keyword = w := Coded.code_of_ofCode? hm
    refine ⟨?_, ih.2⟩
    rw [List.map_cons, hw]
    exact congrArg (word w :: ·) ih.1
  | case2 w rest hm =>
    refine ⟨rfl, ?_⟩
    rintro _ m ⟨⟩
    rw [hm]
    simp
  | case3 ts h =>
    refine ⟨rfl, fun w m hw => ?_⟩
    obtain ⟨us, rfl⟩ := List.head?_eq_some_iff.mp hw
    exact absurd rfl (h w us)

theorem Ran.modifiers (h : Ran modifiers ts d ts') : ∃ ms : List Modifier,
    d = plain .modifiers [] (ms.map fun m => plain (.modifier m) [] [])
      ∧ ts = (ms.map fun m => word m.keyword) ++ ts'
      ∧ ∀ w m, ts'.head? = some (word w) → (Coded.ofCode? w : Option Modifier) ≠ some m := by
  rw [Reader.modifiers] at h
  obtain ⟨_, ts₂, hs, h₂⟩ := h.rest_bind.bind
  cases hs.skip
  obtain ⟨rfl, rfl⟩ := h₂.pure
  exact ⟨_, rfl, modifiersAt_eq _⟩

theorem Reads.modifiers (ms : List Modifier)
    (h : ∀ w m, ts.head? = some (word w) → (Coded.ofCode? w : Option Modifier) ≠ some m) :
    Reads modifiers ((ms.map fun m => word m.keyword) ++ ts)
      (plain .modifiers [] (ms.map fun m => plain (.modifier m) [] [])) ts := by
  have hms := modifiersAt_append ms (modifiersAt_other h)
  rw [Reader.modifiers]
  refine .bind .rest ?_
  rw [hms]
  refine .bind (.skip _) ?_
  rw [List.drop_left' (List.length_map _)]
  exact .pure

theorem Ran.classFlavour {o : Option ClassFlavour} (h : Ran classFlavour? ts o ts') :
    (∃ flavour, o = some flavour ∧ (flavour = .plain ∨ flavour = .interface)
        ∧ ts = word flavour.keyword :: ts')
      ∨ o = none ∧ ts' = ts ∧ ts.head? ≠ some (word "class") ∧ ts.head? ≠ some (word "interface") := by
  rw [classFlavour?] at h
  obtain ⟨ts₁, rfl, h₁⟩ | ⟨hne, h₁⟩ := h.takes_ite
  · obtain ⟨rfl, rfl⟩ := h₁.pure
    exact .inl ⟨_, rfl, .inl rfl, rfl⟩
  · obtain ⟨ts₂, rfl, h₂⟩ | ⟨hne', h₂⟩ := h₁.takes_ite
    · obtain ⟨rfl, rfl⟩ := h₂.pure
      exact .inl ⟨_, rfl, .inr rfl, rfl⟩
    · obtain ⟨rfl, rfl⟩ := h₂.pure
      exact .inr ⟨rfl, rfl, hne, hne'⟩

theorem Reads.classFlavour {flavour : ClassFlavour} (h : flavour = .plain ∨ flavour = .interface) :
    Reads classFlavour? (word flavour.keyword :: ts) (some flavour) ts := by
  rw [classFlavour?]
  rcases h with rfl | rfl
  · exact .bind .takes .pure
  · exact .bind (.leaves (by simp [ClassFlavour.keyword])) (.bind .takes .pure)

theorem Reads.noFlavour (h : ts.head? ≠ some (word "class")) (h' : ts.head? ≠ some (word "interface")) :
    Reads classFlavour? ts none ts :=
  .bind (.leaves h) (.bind (.leaves h') .pure)

theorem startsConstructor_type {ty : Doc} {name : String} (h : Formed .type ty) :
    startsConstructor owner (ty.tokens ++ word name :: rest) = false := by
  obtain ⟨w, us, hus, -, -, hhead⟩ := h.opening
  rw [hus]
  rcases us with - | ⟨u, us⟩
  · rfl
  · have := hhead u rfl
    simp only [List.mem_cons, List.not_mem_nil, or_false] at this
    rcases this with rfl | rfl | rfl <;> rfl

/-- What is known of a field or a method that was read after its modifiers, as `us`. -/
structure DeclRead (ms : Doc) (us ts : List Token) (d : Doc) (ts' : List Token) : Prop where
  formed : Formed .modifiers ms → Formed .member d
  lexed : AllLexed ts'
  tokens : d.tokens = ms.tokens ++ us
  head : ∀ rest, (us ++ rest).head? = ts.head?
  noConstructor : ∀ owner rest, startsConstructor owner (us ++ rest) = false
  again : d.All Separate → ∀ {g rest}, 10 * weightOf us ≤ g + 1 →
    Reads (fieldOrMethod g ms) (us ++ rest) d rest

theorem methodBody_read {o : Option Doc} (hl : AllLexed ts) (h : Ran (methodBody n) ts o ts') :
    (∀ b ∈ o, Formed .block b) ∧ AllLexed ts' ∧ ((∀ b ∈ o, b.All Separate) → ∀ {g rest},
      10 * weightOf ((o.map Doc.tokens).getD [mark ";"]) ≤ g →
      Reads (methodBody g) ((o.map Doc.tokens).getD [mark ";"] ++ rest) o rest) := by
  rw [methodBody] at h
  obtain ⟨ts₁, rfl, h₁⟩ | ⟨hne, h₁⟩ := h.takes_ite
  · obtain ⟨rfl, rfl⟩ := h₁.pure
    exact ⟨by simp, hl.tail, fun _ _ _ _ => .bind .takes .pure⟩
  · obtain ⟨b, hb, rfl⟩ := h₁.bind_pure
    have hb := (rereads n).block hl hb
    refine ⟨by simpa using hb.formed, hb.lexed, fun hs g rest hg => ?_⟩
    refine .bind (.leaves ?_) (.bind (hb.again (hs b rfl) hg) .pure)
    cases hb.formed
    simp [Token.inBraces]

/-- After its modifiers a field or a method begins with its type and its name. -/
theorem DeclRead.of_type {ms ty : Doc} {name : String} {us ts₁ : List Token} (hty : TypeRead type 2 ts ty ts₁)
    (hf : Formed .modifiers ms → Formed .member d) (hl : AllLexed ts')
    (htokens : d.tokens = ms.tokens ++ (ty.tokens ++ word name :: us))
    (hagain : d.All Separate → ∀ {g rest}, 10 * (weightOf ty.tokens + (1 + weightOf us)) ≤ g + 1 →
      Reads (fieldOrMethod g ms) (ty.tokens ++ word name :: (us ++ rest)) d rest) :
    DeclRead ms (ty.tokens ++ word name :: us) ts d ts' where
  formed := hf
  lexed := hl
  tokens := htokens
  head rest := by
    rw [List.append_assoc]
    exact (head_type hty).symm
  noConstructor owner rest := by
    rw [List.append_assoc]
    exact startsConstructor_type hty.formed
  again hs g rest hg := by
    rw [Token.weightOf_append, Token.weightOf_cons, Token.weight_word] at hg
    rw [List.append_assoc]
    exact hagain hs hg

theorem fieldOrMethod_read {ms : Doc} (hl : AllLexed ts) (h : Ran (fieldOrMethod n ms) ts d ts') :
    ∃ us, DeclRead ms us ts d ts' := by
  rw [fieldOrMethod] at h
  obtain ⟨ty, ts₁, hty, h₁⟩ := h.bind
  have hty := (typesRead n).1 hl hty
  obtain ⟨name, ts₂, rfl, hk, h₂⟩ := h₁.identifier_bind
  have hn : IsName name := ⟨hty.lexed.head, hk⟩
  have hl := hty.lexed.tail
  obtain ⟨hpar, h₃⟩ | ⟨hpar, h₃⟩ := h₂.isAt_ite
  · obtain ⟨ps, ts₃, hps, h₄⟩ := h₃.bind
    have hps := params_read hl hps
    obtain ⟨body, hb, rfl⟩ := h₄.bind_pure
    obtain ⟨hfb, hl', hbody⟩ := methodBody_read hps.lexed hb
    refine ⟨_, .of_type hty (fun hms => .methodDecl hms hty.formed hn hps.formed hfb) hl'
      Doc.tokens_methodDecl fun hs g rest hg => ?_⟩
    rw [Token.weightOf_append] at hg
    rw [List.append_assoc]
    exact .bind (hty.reads ⟨by simp, by simp, by simp⟩ (by omega)) (.bind (.identifier hk) (.bind .isAt
      (.bind (hps.again (fun p hp => hs.item hp) (by omega))
        (.bind (hbody (fun b hb => hs.slot (by simp [Option.mem_def.mp hb])) (by omega)) .pure))))
  · obtain ⟨ts₃, rfl, h₄⟩ | ⟨hne, h₄⟩ := h₃.takes_ite
    · obtain ⟨e, ts₄, he, h₅⟩ := h₄.bind
      have he := (rereads n).expression hl.tail he
      obtain ⟨rfl, rfl⟩ := h₅.pure_bind.expect_pure
      have htokens {ms : Doc} : (plain (.fieldDecl name) [some ms, some ty, some e] []).tokens
          = ms.tokens ++ (ty.tokens ++ word name :: mark "=" :: (e.tokens ++ [mark ";"])) := by
        simp [wrapped]
      refine ⟨_, .of_type hty (fun hms => .fieldDecl hms hty.formed hn (by simpa using he.formed))
        he.lexed.tail htokens fun hs g rest hg => ?_⟩
      rw [Token.weightOf_cons, Token.weightOf_append] at hg
      rw [List.cons_append, List.append_assoc]
      exact .bind (hty.reads ⟨by simp, by simp, by simp⟩ (by omega)) (.bind (.identifier hk) (.bind .isAt
        (.bind .takes (.bind (he.again (hs.slot (by simp)) (by omega) (.stop rfl (by decide))
          (shut_mark (by decide))) (.bind .pure (.bind .expect .pure))))))
    · obtain ⟨rfl, rfl⟩ := h₄.pure_bind.expect_pure
      have htokens {ms : Doc} : (plain (.fieldDecl name) [some ms, some ty, none] []).tokens
          = ms.tokens ++ (ty.tokens ++ [word name, mark ";"]) := Doc.tokens_fieldDecl
      refine ⟨_, .of_type hty (fun hms => .fieldDecl hms hty.formed hn (by simp)) hl.tail htokens
        fun hs g rest hg => ?_⟩
      exact .bind (hty.reads ⟨by simp, by simp, by simp⟩ (by omega)) (.bind (.identifier hk) (.bind .isAt
        (.bind (.leaves (by simp)) (.bind .pure (.bind .expect .pure)))))

/-- Whether a constructor of the class was read. -/
theorem startsConstructor_eq (h : startsConstructor owner ts = true) :
    ∃ name us, ts = word name :: mark "(" :: us ∧ owner = some name := by
  unfold startsConstructor at h
  split at h
  case h_1 name us => exact ⟨name, us, rfl, by simpa using h⟩
  case h_2 => cases h

theorem weight_member (h : Formed .member d) : 1 ≤ weightOf d.tokens := by
  obtain ⟨_, _, hus, -⟩ := h.head_member
  exact Token.one_le_weightOf hus

/-- What is known of members that were read. -/
structure MembersRead (n : Nat) : Prop where
  member {owner : Option String} {ts : List Token} {d : Doc} {ts' : List Token} : AllLexed ts →
    Ran (member n owner) ts d ts' → UnitRead (Reader.member · owner) .member d ts'
  members {owner : String} {ts : List Token} {ds : List Doc} {ts' : List Token} : AllLexed ts →
    Ran (members n owner) ts ds ts' → ListRead (Reader.members · owner) .member stacked ds ts'

theorem MembersRead.member_succ (ih : MembersRead n) (hl : AllLexed ts)
    (h : Ran (Reader.member (n + 1) owner) ts d ts') : UnitRead (Reader.member · owner) .member d ts' := by
  rw [Reader.member] at h
  obtain ⟨ms, ts₁, hms, h₁⟩ := h.bind
  obtain ⟨ms, rfl, rfl, hstop⟩ := hms.modifiers
  have hl := hl.right
  obtain ⟨o, ts₂, ho, h₂⟩ := h₁.bind
  rcases ho.classFlavour with ⟨flavour, rfl, hflavour, rfl⟩ | ⟨rfl, rfl, hclass, hinterface⟩
  · obtain ⟨name, ts₃, rfl, hk, h₃⟩ := h₂.identifier_bind
    have hn : IsName name := ⟨hl.tail.head, hk⟩
    obtain ⟨ts₄, rfl, h₄⟩ := h₃.expect_bind
    obtain ⟨body, hbody, rfl⟩ := h₄.bind_pure
    have hbody := ih.members hl.tail.tail.tail hbody
    refine ⟨.classDecl .modifiers hn hbody.formed, hbody.lexed, fun hs g rest hg => ?_⟩
    have htokens : (plain (.classDecl name flavour)
          [some (plain .modifiers [] (ms.map fun m => plain (.modifier m) [] []))] body).tokens
        = (ms.map fun m => word m.keyword)
          ++ word flavour.keyword :: word name :: mark "\x7b" :: stacked body := by
      rw [Doc.tokens_classDecl, Doc.tokens_modifiers]
      rfl
    rw [htokens, Token.weightOf_append, Token.weightOf_cons, Token.weightOf_cons, Token.weightOf_cons,
      Token.weight_word, Token.weight_word] at hg
    rw [htokens, List.append_assoc]
    obtain ⟨g, rfl⟩ := Nat.exists_eq_add_one.mpr (show 0 < g by omega)
    rw [Reader.member]
    refine .bind (.modifiers ms fun w m hw => hstop w m hw) (.bind (.classFlavour hflavour)
      (.bind (.identifier hk) (.bind .expect (.bind
        (hbody.again (fun m hm => hs.item hm) (by omega)) .pure))))
  · have h₃ := h₂.rest_bind
    split at h₃
    case isTrue hcons =>
      obtain ⟨name, ts₄, rfl, hk, h₄⟩ := h₃.identifier_bind
      obtain ⟨_, _, hts, rfl⟩ := startsConstructor_eq hcons
      cases hts
      have hn : IsName name := ⟨hl.head, hk⟩
      obtain ⟨ps, ts₅, hps, h₅⟩ := h₄.bind
      have hps := params_read hl.tail hps
      obtain ⟨b, hb, rfl⟩ := h₅.bind_pure
      have hb := (rereads n).block hps.lexed hb
      refine ⟨.constructorDecl .modifiers hn hps.formed hb.formed, hb.lexed, fun hs g rest hg => ?_⟩
      rw [Doc.tokens_constructorDecl, Doc.tokens_modifiers, Token.weightOf_append, Token.weightOf_cons,
        Token.weightOf_append, Token.weight_word] at hg
      rw [Doc.tokens_constructorDecl, Doc.tokens_modifiers, List.append_assoc, List.cons_append,
        List.append_assoc]
      obtain ⟨g, rfl⟩ := Nat.exists_eq_add_one.mpr (show 0 < g by omega)
      rw [Reader.member]
      refine .bind (.modifiers ms fun w m hw => hstop w m hw) (.bind (.noFlavour hclass hinterface)
        (.bind .rest ?_))
      rw [if_pos (by simp [startsConstructor, Token.inParens])]
      exact .bind (.identifier hk) (.bind (hps.again (fun p hp => hs.item hp) (by omega))
        (.bind (hb.again (hs.slot (by simp)) (by omega)) .pure))
    case isFalse hcons =>
      obtain ⟨us, hd⟩ := fieldOrMethod_read hl h₃
      have hf := hd.formed .modifiers
      refine ⟨hf, hd.lexed, fun hs g rest hg => ?_⟩
      have := weight_member hf
      rw [hd.tokens, Doc.tokens_modifiers, Token.weightOf_append] at hg this
      rw [hd.tokens, Doc.tokens_modifiers, List.append_assoc]
      obtain ⟨g, rfl⟩ := Nat.exists_eq_add_one.mpr (show 0 < g by omega)
      rw [Reader.member]
      refine .bind (.modifiers ms fun w m hw => hstop w m (hd.head rest ▸ hw)) (.bind (.noFlavour ?_ ?_)
        (.bind .rest ?_))
      · rwa [hd.head rest]
      · rwa [hd.head rest]
      · rw [hd.noConstructor]
        exact hd.again hs (by omega)

theorem MembersRead.members_succ {owner : String} {ds : List Doc} (ih : MembersRead n) (hl : AllLexed ts)
    (h : Ran (Reader.members (n + 1) owner) ts ds ts') :
    ListRead (Reader.members · owner) .member stacked ds ts' := by
  rw [Reader.members] at h
  obtain ⟨ts₁, rfl, h₁⟩ | ⟨hne, h₁⟩ := h.takes_ite
  · obtain ⟨rfl, rfl⟩ := h₁.pure
    refine .nil_stacked hl.tail fun _ _ => ?_
    rw [Reader.members]
    exact .bind .takes .pure
  · obtain ⟨d, ts₂, hd, h₂⟩ := h₁.bind
    obtain ⟨ds, hds, rfl⟩ := h₂.bind_pure
    have hd := ih.member hl hd
    have hds := ih.members hd.lexed hds
    refine .cons_stacked hd.formed (weight_member hd.formed) hds fun hs g rest hg hagain => ?_
    rw [Reader.members]
    refine .bind (.leaves ?_) (.bind (hd.again hs (by omega)) (.bind hagain .pure))
    obtain ⟨w, us, hus, -⟩ := hd.formed.head_member
    rw [hus]
    simp

theorem membersRead (n : Nat) : MembersRead n := by
  induction n with
  | zero => exact ⟨fun _ h => (Ran.exhausted h).elim, fun _ h => (Ran.exhausted h).elim⟩
  | succ n ih => exact ⟨ih.member_succ, ih.members_succ⟩

theorem membersToEnd_read (n : Nat) {ds : List Doc} (hl : AllLexed ts) (h : Ran (membersToEnd n) ts ds ts') :
    (∀ d ∈ ds, Formed .member d) ∧ ts' = [] ∧ ((∀ d ∈ ds, d.All Separate) → ∀ {g},
      10 * weightOf (ds.map Doc.tokens).flatten + 1 ≤ g →
      Reads (membersToEnd g) (ds.map Doc.tokens).flatten ds []) := by
  induction n generalizing ts ds with
  | zero => exact (Ran.exhausted h).elim
  | succ n ih =>
    rw [membersToEnd] at h
    obtain ⟨b, ts₁, hb, h₁⟩ := h.bind
    obtain ⟨rfl, rfl⟩ := hb.isAtEnd
    split at h₁
    case isTrue hempty =>
      obtain ⟨rfl, rfl⟩ := h₁.pure
      refine ⟨by simp, List.isEmpty_iff.mp hempty, fun _ g hg => ?_⟩
      obtain ⟨g, rfl⟩ := Nat.exists_eq_add_one.mpr (show 0 < g by omega)
      rw [membersToEnd]
      exact .bind .isAtEnd .pure
    case isFalse hempty =>
      obtain ⟨d, ts₂, hd, h₂⟩ := h₁.bind
      obtain ⟨ds, hds, rfl⟩ := h₂.bind_pure
      have hd := (membersRead n).member hl hd
      obtain ⟨hfs, rfl, hagain⟩ := ih hd.lexed hds
      refine ⟨List.forall_mem_cons.mpr ⟨hd.formed, hfs⟩, rfl, fun hs g hg => ?_⟩
      obtain ⟨hsd, hsds⟩ := List.forall_mem_cons.mp hs
      have := weight_member hd.formed
      rw [List.map_cons, List.flatten_cons, Token.weightOf_append] at hg
      rw [List.map_cons, List.flatten_cons]
      obtain ⟨g, rfl⟩ := Nat.exists_eq_add_one.mpr (show 0 < g by omega)
      rw [membersToEnd]
      refine .bind .isAtEnd ?_
      rw [if_neg (by
        obtain ⟨w, us, hus, -⟩ := hd.formed.head_member
        simp [hus])]
      exact .bind (hd.again hsd (by omega)) (.bind (hagain hsds (by omega)) .pure)

theorem importsFrom_read (n : Nat) {ds : List Doc} (hl : AllLexed ts) (h : Ran (importsFrom n) ts ds ts') :
    (∀ d ∈ ds, Formed .importDecl d) ∧ AllLexed ts' ∧ (∀ {g rest},
      10 * weightOf (ds.map Doc.tokens).flatten + 1 ≤ g → rest.head? ≠ some (word "import") →
      Reads (importsFrom g) ((ds.map Doc.tokens).flatten ++ rest) ds rest) := by
  induction n generalizing ts ds with
  | zero => exact (Ran.exhausted h).elim
  | succ n ih =>
    rw [importsFrom] at h
    obtain ⟨ts₁, rfl, h₁⟩ | ⟨hne, h₁⟩ := h.takes_ite
    · obtain ⟨isStatic, ts₂, hstatic, h₂⟩ := h₁.bind
      obtain ⟨rfl, hns⟩ := hstatic.takes_if
      obtain ⟨path, ts₃, hp, h₃⟩ := h₂.bind
      obtain ⟨hpath, rfl⟩ := hp.qualifiedName hl.tail.right
      obtain ⟨wildcard, ts₄, hw, h₄⟩ := h₃.bind
      obtain ⟨rfl, -⟩ := hw.takes_if
      have hl := hl.tail.right.right.right
      obtain ⟨ds, rfl, hds⟩ : ∃ more, ds = plain (.importDecl path isStatic wildcard) [] [] :: more
          ∧ ∃ us, ts₄ = (if wildcard then [mark "*"] else []) ++ mark ";" :: us
            ∧ Ran (importsFrom n) us more ts' := by
        cases wildcard with
        | false =>
          obtain ⟨ts₅, rfl, h₅⟩ := h₄.expect_bind
          obtain ⟨more, hm, rfl⟩ := h₅.bind_pure
          exact ⟨more, rfl, ts₅, rfl, hm⟩
        | true =>
          obtain ⟨ts₅, rfl, h₅⟩ := h₄.expect_bind
          obtain ⟨ts₆, rfl, h₆⟩ := h₅.expect_bind
          obtain ⟨more, hm, rfl⟩ := h₆.bind_pure
          exact ⟨more, rfl, ts₆, rfl, hm⟩
      obtain ⟨us, rfl, hds⟩ := hds
      obtain ⟨hfs, hl', hagain⟩ := ih hl.right.tail hds
      refine ⟨List.forall_mem_cons.mpr ⟨.importDecl hpath, hfs⟩, hl', fun {g rest} hg hr => ?_⟩
      rw [List.map_cons, List.flatten_cons, Doc.tokens_importDecl, Token.weightOf_append, Token.weightOf_cons,
        Token.weight_word] at hg
      rw [List.map_cons, List.flatten_cons, Doc.tokens_importDecl]
      obtain ⟨g, rfl⟩ := Nat.exists_eq_add_one.mpr (show 0 < g by omega)
      rw [importsFrom]
      have hmore := hagain (show _ ≤ g by omega) hr
      simp only [List.append_assoc, List.cons_append]
      refine .bind .takes (.bind (.takes_if fun h => ?_) ?_)
      · have := hns h
        obtain ⟨w, vs, hvs⟩ := hpath.ofPath_eq_cons
        rw [hvs] at this ⊢
        exact this
      cases wildcard with
      | false => exact .bind (.qualifiedName hpath (by simp)) (.bind (.leaves (by simp)) (.bind .expect
          (.bind hmore .pure)))
      | true => exact .bind (.pathThen hpath rfl) (.bind .takes (.bind .expect (.bind .expect
          (.bind hmore .pure))))
    · obtain ⟨rfl, rfl⟩ := h₁.pure
      refine ⟨by simp, hl, fun {g rest} hg hr => ?_⟩
      obtain ⟨g, rfl⟩ := Nat.exists_eq_add_one.mpr (show 0 < g by omega)
      rw [importsFrom]
      exact .bind (.leaves hr) .pure

theorem package_read {package : Option String} (hl : AllLexed ts) (h : Ran Reader.package ts package ts') :
    (∀ path ∈ package, IsPath path) ∧ AllLexed ts' ∧ (∀ {rest},
      (package = none → rest.head? ≠ some (word "package")) →
      Reads Reader.package (wrapped [word "package"] (package.map ofPath) [mark ";"] ++ rest) package rest) := by
  rw [Reader.package] at h
  obtain ⟨ts₁, rfl, h₁⟩ | ⟨hne, h₁⟩ := h.takes_ite
  · obtain ⟨path, ts₂, hp, h₂⟩ := h₁.bind
    obtain ⟨hpath, rfl⟩ := hp.qualifiedName hl.tail
    obtain ⟨rfl, rfl⟩ := h₂.expect_pure
    refine ⟨by simpa using hpath, hl.tail.right.tail, fun {rest} _ => ?_⟩
    have htokens : wrapped [word "package"] ((some path).map ofPath) [mark ";"] ++ rest
        = word "package" :: (ofPath path ++ mark ";" :: rest) := by
      simp [wrapped]
    rw [htokens, Reader.package]
    exact .bind .takes (.bind (.qualifiedName hpath (by simp)) (.bind .expect .pure))
  · obtain ⟨rfl, rfl⟩ := h₁.pure
    refine ⟨by simp, hl, fun {rest} hr => ?_⟩
    rw [Reader.package]
    exact .bind (.leaves (hr rfl)) .pure

theorem head_members {ds : List Doc} (h : ∀ d ∈ ds, Formed .member d) {w : String}
    (hw : w ∈ ["import", "package"]) : (ds.map Doc.tokens).flatten.head? ≠ some (word w) := by
  rcases ds with - | ⟨d, ds⟩
  · simp
  · obtain ⟨v, us, hus, hv⟩ := (h d List.mem_cons_self).head_member
    rw [List.map_cons, List.flatten_cons, hus]
    rintro ⟨⟩
    exact hv hw

theorem head_imports {ds : List Doc} (h : ∀ d ∈ ds, Formed .importDecl d)
    (hr : rest.head? ≠ some (word "package")) :
    ((ds.map Doc.tokens).flatten ++ rest).head? ≠ some (word "package") := by
  rcases ds with - | ⟨d, ds⟩
  · exact hr
  · cases h d List.mem_cons_self
    rw [List.map_cons, List.flatten_cons, Doc.tokens_importDecl]
    simp

/-- A unit that was read is read again from its own tokens. -/
theorem unit_read (hl : AllLexed ts) (h : Ran (unit n) ts d ts') : Formed .unit d ∧ ts' = [] ∧
    (d.All Separate → ∀ {g}, 10 * weightOf d.tokens + 1 ≤ g → Reads (unit g) d.tokens d []) := by
  rw [unit] at h
  obtain ⟨package, ts₁, hpackage, h₁⟩ := h.bind
  obtain ⟨hfp, hl, hp⟩ := package_read hl hpackage
  obtain ⟨imports, ts₂, himports, h₂⟩ := h₁.bind
  obtain ⟨hfi, hl, hi⟩ := importsFrom_read n hl himports
  obtain ⟨body, hbody, rfl⟩ := h₂.bind_pure
  obtain ⟨hfb, rfl, hb⟩ := membersToEnd_read n hl hbody
  refine ⟨.unit hfp hfi hfb, rfl, fun hs g hg => ?_⟩
  rw [Doc.tokens_unit, Token.weightOf_append, Token.weightOf_append] at hg
  rw [Doc.tokens_unit, unit]
  exact .bind (hp fun _ => head_imports hfi (head_members hfb (by decide)))
    (.bind (hi (by omega) (head_members hfb (by decide)))
      (.bind (hb (fun m hm => hs.item hm) (by omega)) .pure))

end TreeTidy.Reader

namespace TreeTidy.Doc

open Reader (readAll_of_reads readAll_of_run ran_of_readAll unit_read)
open Token (mark word)

/-- The print of a unit that was read is read as the same unit, if no operator joins on to its operand and
no statement starts with the word that is taken to stand before a declaration. -/
theorem readUnit_print {text : String} {d : Doc} (h : readUnit text = .ok d) (hs : d.All Separate) :
    readUnit d.print = .ok d := by
  obtain ⟨ts, ht, hran⟩ := ran_of_readAll h
  obtain ⟨hf, -, hagain⟩ := unit_read (Token.lexed_of_ofChars ht) hran
  refine readAll_of_reads (hf.ofText_print hs) (hagain hs ?_)
  change _ ≤ 10 * Token.weightOf d.tokens + 10
  omega

theorem all_node_iff {P : Doc → Prop} {kind : NodeKind} {span : Span} {ty : Option TypeDesc}
    {slots : List (Option Doc)} {list : List Doc} : (node kind span ty slots list).All P ↔
      P (node kind span ty slots list) ∧ (∀ c, some c ∈ slots → c.All P) ∧ ∀ c ∈ list, c.All P :=
  ⟨fun h => ⟨h.self, fun _ => h.slot, fun _ => h.item⟩, fun ⟨h, hs, hl⟩ => all_node h hs hl⟩

/-- A class with one field of the given value. -/
def fieldUnit (value : Doc) : Doc :=
  plain (.compilationUnit none) [some (plain .importList [] [])]
    [plain (.classDecl "T" .plain) [some (plain .modifiers [] [])]
      [plain (.fieldDecl "x") [some (plain .modifiers [] []), some (plain (.primitiveType .int) [] []), some value]
        []]]

/-- The word that may stand before a declaration is dropped; what is left starts with a name that is taken
for it. -/
example : let printed := "class T \x7b\n    void m() \x7b\n        final = x;\n    \x7d\n\x7d"
    (readUnit "class T \x7b void m() \x7b final final = x; \x7d \x7d").toOption.map print = some printed ∧
      (readUnit printed).toOption.isNone := by
  decide +kernel

/-- The parentheses are no cast of what comes after them, neither in the text nor in its print. -/
theorem readUnit_print_field :
    let difference := fieldUnit (plain (.binary .sub)
      [some (plain .paren [some (plain (.nameExpr "n") [] [])] []), some (plain (.literal .int "1") [] [])] [])
    readUnit "class T\x7bint x=(n)-1;\x7d" = .ok difference ∧ difference.All Separate ∧
      difference.print = "class T \x7b\n    int x = (n) - 1;\n\x7d" ∧
      readUnit difference.print = .ok difference := by
  intro difference
  have ht : Token.ofText "class T\x7bint x=(n)-1;\x7d" = .ok [word "class", word "T", mark "\x7b", word "int",
      word "x", mark "=", mark "(", word "n", mark ")", mark "-", .int "1", mark ";", mark "\x7d"] := by
    decide +kernel
  have h : readUnit "class T\x7bint x=(n)-1;\x7d" = .ok difference := readAll_of_run ht rfl
  have hs : difference.All Separate := by
    simp [difference, fieldUnit, plain, all_node_iff, Separate, kind]
  exact ⟨h, hs, by decide +kernel, readUnit_print h hs⟩

/-- A sign before the same sign is printed as one mark, which is read as another operator. -/
theorem readUnit_print_negatedTwice :
    let negatedTwice := fieldUnit
      (plain (.unary .neg) [some (plain (.unary .neg) [some (plain (.nameExpr "y") [] [])] [])] [])
    let decremented := fieldUnit (plain (.unary .preDec) [some (plain (.nameExpr "y") [] [])] [])
    readUnit "class T \x7b int x = - -y; \x7d" = .ok negatedTwice ∧ readUnit negatedTwice.print = .ok decremented ∧
      negatedTwice ≠ decremented := by
  refine ⟨?_, ?_, nofun⟩
  · have ht : Token.ofText "class T \x7b int x = - -y; \x7d" = .ok [word "class", word "T", mark "\x7b", word "int",
        word "x", mark "=", mark "-", mark "-", word "y", mark ";", mark "\x7d"] := by decide +kernel
    exact readAll_of_run ht rfl
  · rw [show Doc.print _ = "class T \x7b\n    int x = --y;\n\x7d" by decide +kernel]
    have ht : Token.ofText "class T \x7b\n    int x = --y;\n\x7d" = .ok [word "class", word "T", mark "\x7b", word "int",
        word "x", mark "=", mark "--", word "y", mark ";", mark "\x7d"] := by decide +kernel
    exact readAll_of_run ht rfl

end TreeTidy.Doc
