import TreeTidy.Proofs.Source.HaltingBodies
import TreeTidy.Proofs.Source.RereadUnits
import TreeTidy.Proofs.Tree.Loaded
/-!
Reading a whole text comes to an end. Tokens weigh no more than the characters that they are made of, so
fuel for ten calls per character is enough. What is read keeps to the layouts, and a tree can be built of it.
-/
namespace TreeTidy

section Lexing

variable {c quote : Char} {cs rest rest' : List Char} {o : Option Token} {ts : List Token}

namespace Lexeme

theorem ok_of_map {ε α β : Type} {f : α → β} {x : Except ε α} {b : β} (h : x.map f = .ok b) :
    ∃ a, x = .ok a ∧ f a = b := by
  cases x with
  | error => cases h
  | ok a => exact ⟨a, rfl, Except.ok.inj h⟩

theorem content_suffix {r : List Char × List Char} (h : content quote cs = .ok r) : r.2 <:+ cs := by
  fun_induction content quote cs generalizing r with
  | case1 => cases h
  | case2 rest =>
    cases h
    exact List.suffix_cons _ _
  | case3 => cases h
  | case4 e rest _ ih =>
    obtain ⟨p, hp, rfl⟩ := ok_of_map h
    exact ((ih hp).trans (List.suffix_cons _ _)).trans (List.suffix_cons _ _)
  | case5 c rest _ _ ih =>
    obtain ⟨p, hp, rfl⟩ := ok_of_map h
    exact (ih hp).trans (List.suffix_cons _ _)

theorem number_suffix (cs : List Char) : (number cs).2 <:+ cs := by
  induction cs with
  | nil => exact List.suffix_rfl
  | cons c rest ih =>
    rw [number]
    split
    · exact ih.trans (List.suffix_cons _ _)
    · exact List.suffix_rfl

theorem weight_numberToken (cs : List Char) : (numberToken cs).weight = 1 := by
  rw [numberToken]
  split_ifs <;> rfl

/-- What follows a token is the end of what followed its first character, and the token weighs no more
than it is long. -/
theorem next_suffix (h : next c rest = .ok (o, rest')) :
    rest' <:+ rest ∧ Token.weightOf o.toList + rest'.length ≤ rest.length + 1 := by
  have light : ∀ {o : Option Token} {rest' : List Char}, Token.weightOf o.toList ≤ 1 → rest' <:+ rest →
      rest' <:+ rest ∧ Token.weightOf o.toList + rest'.length ≤ rest.length + 1 := by
    intro o rest' ho hr
    exact ⟨hr, by have := hr.length_le; omega⟩
  unfold next at h
  split at h
  · cases h
    exact light (by decide) List.suffix_rfl
  split at h
  · cases h
    exact light (by decide) (List.dropWhile_suffix _)
  split at h
  · cases h
    exact light (weight_numberToken _).le (number_suffix _)
  split at h
  · cases h
    exact light le_rfl (List.dropWhile_suffix _)
  split at h
  · obtain ⟨p, hp, he⟩ := ok_of_map h
    cases he
    exact light le_rfl (content_suffix hp)
  split at h
  · obtain ⟨p, hp, he⟩ := ok_of_map h
    cases he
    exact light le_rfl (content_suffix hp)
  split at h
  case h_1 m hm =>
    cases h
    have hmarks : ∀ m ∈ Token.marks, 1 ≤ m.length ∧ (Token.mark m).weight ≤ m.length := by decide +kernel
    obtain ⟨hone, hweight⟩ := hmarks m (List.mem_of_find?_eq_some hm)
    have hprefix : m.toList <+: c :: rest := by
      simpa only [List.isPrefixOf_iff_prefix] using List.find?_some hm
    have hlen := hprefix.length_le
    rw [String.length_toList, List.length_cons] at hlen
    refine ⟨List.drop_suffix _ _, ?_⟩
    simp only [Option.toList_some, Token.weightOf_cons, Token.weightOf_nil, List.length_drop]
    omega
  case h_2 => cases h

end Lexeme

/-- The tokens of a text weigh no more than it has characters. -/
theorem Token.weightOf_ofChars (h : ofChars cs = .ok ts) : weightOf ts ≤ cs.length := by
  fun_induction ofChars cs generalizing ts with
  | case1 =>
    cases h
    exact Nat.le_refl _
  | case2 => cases h
  | case3 => cases h
  | case4 c rest o rest' hn us hr ih =>
    cases h
    have hnext := (Lexeme.next_suffix hn).2
    have hrest := ih hr
    rw [weightOf_append, List.length_cons]
    omega

end Lexing

namespace Reader

variable {q : Prop} {s n : Nat} {c : Cursor}

/-! Members -/

theorem modifiersAt_length_le (ts : List Token) : (modifiersAt ts).length ≤ ts.length := by
  have h := congrArg List.length (modifiersAt_eq ts).1
  rw [List.length_append, List.length_map] at h
  omega

theorem halts_modifiers (hs : c.stop = s) : Halts q s modifiers c (Below (c.weight + 1)) :=
  .rest <| .skip hs (modifiersAt_length_le _) fun _ hs' hw => .give hs' (by omega)

theorem mayTake_classFlavour (d n : Nat) : MayTake d n classFlavour? := by
  intro c
  refine .takes_ite rfl (fun c₁ hs₁ hw₁ => .pure hs₁ hw₁) ?_
  exact .takes_ite rfl (fun c₁ hs₁ hw₁ => .pure hs₁ hw₁) (.pure rfl rfl)

theorem takes_methodBody (n : Nat) : Takes 1 n (methodBody n) := by
  intro c
  refine .takes_ite rfl (fun c₁ hs₁ hw₁ => .pure hs₁ hw₁) ?_
  exact (bodiesHalt n).block.bind rfl id fun d c₁ hs₁ hw₁ => .pure hs₁ hw₁

theorem takes_fieldOrMethod (n : Nat) (ms : Doc) : Takes 2 n (fieldOrMethod n ms) := by
  intro c
  refine (takes_type n).bind rfl id fun ty c₁ hs₁ hw₁ => .identifier hs₁ fun name c₂ hs₂ hw₂ => .isAt ?_
  split
  · refine (takes_params n).bind hs₂ (by omega) fun ps c₃ hs₃ hw₃ => ?_
    refine (takes_methodBody n).bind hs₃ (by omega) fun body c₄ hs₄ hw₄ => ?_
    exact .give hs₄ (by omega)
  · have hend : ∀ value {c₃ : Cursor}, c₃.stop = c.stop → c₃.weight < c.weight →
        Halts (10 * c.weight + 2 ≤ n) c.stop
          (do expect ";"; pure (Doc.plain (.fieldDecl name) [some ms, some ty, value] [])) c₃
          (Below c.weight) :=
      fun value c₃ hs₃ hw₃ => .expect hs₃ fun c₄ hs₄ hw₄ => .give hs₄ (by omega)
    refine .takes_ite hs₂ (fun c₃ hs₃ hw₃ => ?_) (hend none hs₂ (by omega))
    refine (bodiesHalt n).expression.bind hs₃ (by omega) fun value c₄ hs₄ hw₄ => ?_
    exact hend (some value) hs₄ (by omega)

/-- With so much fuel the readers of members come to an end. -/
structure MembersHalt (n : Nat) : Prop where
  member : ∀ owner, Takes 3 n (member n owner)
  members : ∀ owner, Takes 4 n (members n owner)

theorem MembersHalt.member_succ (h : MembersHalt n) (owner : Option String) :
    Takes 3 (n + 1) (Reader.member (n + 1) owner) := by
  intro c
  rw [Reader.member]
  refine (halts_modifiers rfl).bind fun ms c₁ hs₁ hw₁ => ?_
  simp only [Below] at hw₁
  refine (mayTake_classFlavour 0 (10 * c₁.weight)).bind hs₁ (fun _ => le_rfl) (fun flavour c₂ hs₂ hw₂ => ?_) ?_
  · refine .identifier hs₂ fun name c₃ hs₃ hw₃ => .expect hs₃ fun c₄ hs₄ hw₄ => ?_
    refine (h.members name).bind hs₄ (by omega) fun body c₅ hs₅ hw₅ => ?_
    exact .give hs₅ (by omega)
  · refine .rest ?_
    split
    · refine .identifier hs₁ fun name c₂ hs₂ hw₂ => ?_
      refine (takes_params n).bind hs₂ (by omega) fun ps c₃ hs₃ hw₃ => ?_
      refine (bodiesHalt n).block.bind hs₃ (by omega) fun body c₄ hs₄ hw₄ => ?_
      exact .give hs₄ (by omega)
    · exact (takes_fieldOrMethod n ms).last hs₁ (by omega) (by omega)

theorem MembersHalt.members_succ (h : MembersHalt n) (owner : String) :
    Takes 4 (n + 1) (Reader.members (n + 1) owner) := by
  intro c
  rw [Reader.members]
  refine .takes_ite rfl (fun c₁ hs₁ hw₁ => .pure hs₁ hw₁) ?_
  refine (h.member _).bind rfl (by omega) fun first c₁ hs₁ hw₁ => ?_
  refine (h.members _).bind hs₁ (by omega) fun more c₂ hs₂ hw₂ => ?_
  exact .give hs₂ (by omega)

theorem membersHalt (n : Nat) : MembersHalt n := by
  induction n with
  | zero =>
    constructor
    · intro owner; rw [member]; exact .zero (by decide)
    · intro owner; rw [members]; exact .zero (by decide)
  | succ n ih => exact ⟨ih.member_succ, ih.members_succ⟩

/-! Units -/

/-- Members are read up to the end. -/
theorem halts_membersToEnd (n : Nat) (c : Cursor) :
    Halts (10 * c.weight + 4 ≤ n) c.stop (membersToEnd n) c fun _ c' => c'.rest = [] := by
  induction n generalizing c with
  | zero =>
    rw [membersToEnd]
    exact .exhausted (by omega)
  | succ n ih =>
    rw [membersToEnd]
    refine .isAtEnd ?_
    split
    case isTrue hend => exact .pure rfl (List.isEmpty_iff.mp hend)
    case isFalse =>
      refine ((membersHalt n).member none).bind rfl (by omega) fun first c₁ hs₁ hw₁ => ?_
      refine ((hs₁ ▸ ih c₁).mono (by omega) fun _ _ => id).bind fun more c₂ hs₂ hend => ?_
      exact .pure hs₂ hend

theorem leaves_importsFrom (n : Nat) : Leaves 1 n (importsFrom n) := by
  induction n with
  | zero =>
    rw [importsFrom]
    exact .zero (by decide)
  | succ n ih =>
    intro c
    rw [importsFrom]
    have hmore : ∀ d {c₁ : Cursor}, c₁.stop = c.stop → c₁.weight < c.weight →
        Halts (10 * c.weight + 1 ≤ n + 1) c.stop
          (do expect ";"; let more ← importsFrom n; pure (d :: more)) c₁ (Below (c.weight + 1)) := by
      intro d c₁ hs₁ hw₁
      refine .expect hs₁ fun c₂ hs₂ hw₂ => ih.bind hs₂ (by omega) fun more c₃ hs₃ hw₃ => ?_
      exact .give hs₃ (by omega)
    have hpath : ∀ isStatic {c₁ : Cursor}, c₁.stop = c.stop → c₁.weight < c.weight →
        Halts (10 * c.weight + 1 ≤ n + 1) c.stop (do
          let path ← qualifiedName
          let wildcard ← takesMark "."
          if wildcard then expect "*"
          expect ";"
          let more ← importsFrom n
          pure (Doc.plain (.importDecl path isStatic wildcard) [] [] :: more)) c₁ (Below (c.weight + 1)) := by
      intro isStatic c₁ hs₁ hw₁
      refine .qualifiedName hs₁ fun path c₂ hs₂ hw₂ => .takes hs₂ (fun c₃ hs₃ hw₃ => ?_) ?_
      · exact .expect hs₃ fun c₄ hs₄ hw₄ => hmore _ hs₄ (by omega)
      · exact hmore _ hs₂ (by omega)
    refine .takes_ite rfl (fun c₁ hs₁ hw₁ => ?_) (.pure rfl (Nat.lt_succ_self _))
    exact .takes hs₁ (fun c₂ hs₂ hw₂ => hpath _ hs₂ (by omega)) (hpath _ hs₁ hw₁)

theorem halts_package (hs : c.stop = s) : Halts q s package c (Below (c.weight + 1)) := by
  refine .takes_ite hs (fun c₁ hs₁ hw₁ => .qualifiedName hs₁ fun name c₂ hs₂ hw₂ => ?_)
    (.pure hs (Nat.lt_succ_self _))
  exact .expect hs₂ fun c₃ hs₃ hw₃ => .give hs₃ (by omega)

/-- A unit is read up to the end. -/
theorem halts_unit (n : Nat) (c : Cursor) :
    Halts (10 * c.weight + 4 ≤ n) c.stop (unit n) c fun _ c' => c'.rest = [] := by
  refine (halts_package rfl).bind fun name c₁ hs₁ hw₁ => ?_
  simp only [Below] at hw₁
  refine (leaves_importsFrom n).bind hs₁ (by omega) fun imports c₂ hs₂ hw₂ => ?_
  refine ((hs₂ ▸ halts_membersToEnd n c₂).mono (by omega) fun _ _ => id).bind fun body c₃ hs₃ hend => ?_
  exact .pure hs₃ hend

/-- The readers of types, members, statements and expressions, with so much fuel. -/
inductive Part (n : Nat) : Reader Doc → Prop
  | type : Part n (type n)
  | namedType : Part n (namedType n)
  | member (owner : Option String) : Part n (member n owner)
  | fieldOrMethod (ms : Doc) : Part n (fieldOrMethod n ms)
  | block : Part n (block n)
  | statement : Part n (statement n)
  | simpleStatement : Part n (simpleStatement n)
  | expression : Part n (expression n)
  | conditional : Part n (conditional n)
  | operation (least : Nat) : Part n (operation n least)
  | unary : Part n (unary n)
  | suffixed : Part n (do suffixesAfter n (← primary n))
  | primary : Part n (primary n)
  | inParens : Part n (inParens n)

theorem Part.takes {r : Reader Doc} (h : Part n r) : Takes 10 n r := by
  have hb := bodiesHalt n
  cases h with
  | type => exact (takes_type n).mono (by decide)
  | namedType => exact (typesHalt n).namedType.mono (by decide)
  | member owner => exact ((membersHalt n).member owner).mono (by decide)
  | fieldOrMethod ms => exact (takes_fieldOrMethod n ms).mono (by decide)
  | block => exact hb.block.mono (by decide)
  | statement => exact hb.statement.mono (by decide)
  | simpleStatement => exact hb.simpleStatement.mono (by decide)
  | expression => exact hb.expression.mono (by decide)
  | conditional => exact hb.conditional.mono (by decide)
  | operation least => exact (hb.operation least).mono (by decide)
  | unary => exact hb.unary.mono (by decide)
  | suffixed =>
    intro c
    refine hb.primary.bind rfl (by omega) fun first c₁ hs₁ hw₁ => ?_
    exact (hb.suffixesAfter first).last hs₁ (by omega) hw₁
  | primary => exact hb.primary.mono (by decide)
  | inParens => exact hb.inParens.mono (by decide)

/-- With enough fuel for its weight, a text is read up to the end or something is missing in it. -/
theorem unit_ends {ts : List Token} (hn : 10 * Token.weightOf ts + 4 ≤ n) :
    Halts True ts.length (unit n) (.ofTokens ts) fun _ c' => c'.rest = [] := by
  have hstop : (Cursor.ofTokens ts).stop = ts.length := Nat.zero_add _
  exact hstop ▸ (halts_unit n (.ofTokens ts)).mono (fun _ => hn) fun _ _ => id

end Reader

/-- Where something of the form may stand. -/
def Form.place : Form → SlotClass
  | .type => .type
  | .suffixed | .operand | .operation | .expression => .expr
  | .param => .param
  | .body => .lambdaBody
  | .block => .block
  | .statement => .stmt
  | .modifiers => .modifiers
  | .member => .member
  | .importDecl => .importDecl
  | .unit => .any

namespace Doc

variable {place place' : SlotClass} {kind : NodeKind} {specs : List SlotSpec} {slots : List (Option Doc)}
  {list : List Doc} {d : Doc} {form : Form}

section Layouts

/-- The place admits the node, and all nodes keep to the layouts. -/
def Laid (place : SlotClass) (d : Doc) : Prop := place.accepts d.kind = true ∧ d.All KeepsLayout

theorem Laid.mono (h : Laid place d) (hp : ∀ k, place.accepts k = true → place'.accepts k = true) :
    Laid place' d := ⟨hp _ h.1, h.2⟩

/-- The children fill the slots in order; what is left out at the end may stay empty. -/
inductive Fills : List SlotSpec → List (Option Doc) → Prop
  | done {specs : List SlotSpec} : (∀ s ∈ specs, s.optional = true) → Fills specs []
  | empty {s : SlotSpec} {specs : List SlotSpec} {slots : List (Option Doc)} : s.optional = true →
      Fills specs slots → Fills (s :: specs) (none :: slots)
  | filled {s : SlotSpec} {specs : List SlotSpec} {c : Doc} {slots : List (Option Doc)} :
      Laid s.admits c → Fills specs slots → Fills (s :: specs) (some c :: slots)

namespace Fills

theorem nil : Fills [] [] := .done nofun

theorem may {o : Option Doc} (ho : ∀ c ∈ o, Laid place c) (h : Fills specs slots) :
    Fills (.may place :: specs) (o :: slots) := by
  cases o with
  | none => exact .empty rfl h
  | some c => exact .filled (ho c rfl) h

theorem length_le (h : Fills specs slots) : slots.length ≤ specs.length := by
  induction h with
  | done => exact Nat.zero_le _
  | empty _ _ ih => exact Nat.succ_le_succ ih
  | filled _ _ ih => exact Nat.succ_le_succ ih

theorem laid (h : Fills specs slots) {c : Doc} (hc : some c ∈ slots) : c.All KeepsLayout := by
  induction h with
  | done => cases hc
  | empty _ _ ih => exact ih ((List.mem_cons.mp hc).resolve_left nofun)
  | filled hl _ ih =>
    rcases List.mem_cons.mp hc with he | hc
    · cases he
      exact hl.2
    · exact ih hc

/-- A slot is left empty where it may be, or its child is of the class that it admits. -/
theorem slot (h : Fills specs slots) {i : Nat} {s : SlotSpec} (hi : specs[i]? = some s) :
    (slots[i]?.join = none → s.optional = true) ∧
      ∀ c, slots[i]?.join = some c → s.admits.accepts c.kind = true := by
  induction h generalizing i with
  | done ho => exact ⟨fun _ => ho s (List.mem_of_getElem? hi), nofun⟩
  | empty ho _ ih =>
    cases i with
    | zero =>
      cases hi
      exact ⟨fun _ => ho, nofun⟩
    | succ i => exact ih hi
  | filled hl _ ih =>
    cases i with
    | zero =>
      cases hi
      refine ⟨nofun, fun c hc => ?_⟩
      cases hc
      exact hl.1
    | succ i => exact ih hi

end Fills

theorem laid_plain (hk : place.accepts kind = true) (hs : Fills kind.layout.slots slots)
    (hl : ∀ c ∈ list, ∃ s, kind.layout.list = some s ∧ Laid s.admits c) :
    Laid place (plain kind slots list) := by
  refine ⟨hk, all_node ⟨hs.length_le, ?_, ?_, ?_, ?_⟩ (fun c hc => hs.laid hc) fun c hc => ?_⟩
  · exact fun i s hi hn => (hs.slot hi).1 hn
  · exact fun i s c hi hc => (hs.slot hi).2 c hc
  · intro hn
    refine List.eq_nil_iff_forall_not_mem.mpr fun c hc => ?_
    obtain ⟨s, hs, -⟩ := hl c hc
    cases hn.symm.trans hs
  · intro s c hs hc
    obtain ⟨s', hs', ha⟩ := hl c hc
    cases hs.symm.trans hs'
    exact ha.1
  · obtain ⟨s, -, ha⟩ := hl c hc
    exact ha.2

/-- What is read as something of a form may stand at its place. -/
theorem Formed.laid (h : Formed form d) : Laid form.place d := by
  induction h with
  | primitiveType => exact laid_plain rfl .nil nofun
  | varType => exact laid_plain rfl .nil nofun
  | classType _ _ ih => exact laid_plain rfl .nil fun a ha => ⟨_, rfl, ih a ha⟩
  | diamond => exact laid_plain rfl .nil nofun
  | arrayType _ ih => exact laid_plain rfl (.filled ih .nil) nofun
  | literal _ hk =>
    unfold Reader.literal? at hk
    split at hk <;> cases hk <;> exact laid_plain rfl .nil nofun
  | nameExpr => exact laid_plain rfl .nil nofun
  | typeName => exact laid_plain rfl .nil nofun
  | paren _ ih => exact laid_plain rfl (.filled ih .nil) nofun
  | newObject _ _ iht iha => exact laid_plain rfl (.filled iht .nil) fun a ha => ⟨_, rfl, iha a ha⟩
  | call _ _ iha =>
    refine laid_plain rfl (.done ?_) fun a ha => ⟨_, rfl, iha a ha⟩
    simp [NodeKind.layout, Layout.many, SlotSpec.may]
  | callOn _ _ _ ihd iha =>
    exact laid_plain rfl (.may (fun _ hd => by cases hd; exact ihd) .nil) fun a ha => ⟨_, rfl, iha a ha⟩
  | field _ _ ih => exact laid_plain rfl (.filled ih .nil) nofun
  | index _ _ ihd ihi => exact laid_plain rfl (.filled ihd (.filled ihi .nil)) nofun
  | methodRef _ _ ih => exact laid_plain rfl (.filled ih .nil) nofun
  | trailing _ _ ih => exact laid_plain rfl (.filled ih .nil) nofun
  | ofSuffixed _ ih => exact ih
  | leading _ _ ih => exact laid_plain rfl (.filled ih .nil) nofun
  | cast _ _ iht ihd => exact laid_plain rfl (.filled iht (.filled ihd .nil)) nofun
  | ofOperand _ ih => exact ih
  | binary _ _ ihl ihr => exact laid_plain rfl (.filled ihl (.filled ihr .nil)) nofun
  | instanceOf _ _ ihl iht => exact laid_plain rfl (.filled ihl (.filled iht .nil)) nofun
  | conditional _ _ _ ihc ihx ihy =>
    exact laid_plain rfl (.filled ihc (.filled ihx (.filled ihy .nil))) nofun
  | assign _ _ ihl ihr => exact laid_plain rfl (.filled ihl (.filled ihr .nil)) nofun
  | ofOperation _ ih => exact ih
  | lambda _ _ _ ihp ihb => exact laid_plain rfl (.filled ihb .nil) fun p hp => ⟨_, rfl, ihp p hp⟩
  | bare => exact laid_plain rfl (.empty rfl .nil) nofun
  | typed _ _ ih => exact laid_plain rfl (.may (fun _ ht => by cases ht; exact ih) .nil) nofun
  | ofExpression _ ih => exact ih.mono fun k hk => by simp_all [SlotClass.accepts, Form.place]
  | ofBlock _ ih => exact ih.mono fun k hk => by simp_all [SlotClass.accepts, Form.place]
  | block _ ih => exact laid_plain rfl .nil fun s hs => ⟨_, rfl, ih s hs⟩
  | blockStmt _ ih =>
    refine ih.mono fun k hk => ?_
    cases eq_of_beq hk
    rfl
  | exprStmt _ ih => exact laid_plain rfl (.filled ih .nil) nofun
  | localVar _ _ _ iht ihv => exact laid_plain rfl (.filled iht (.may ihv .nil)) nofun
  | ifStmt _ _ _ ihc ihs iho => exact laid_plain rfl (.filled ihc (.filled ihs (.may iho .nil))) nofun
  | whileLoop _ _ ihc ihs => exact laid_plain rfl (.filled ihc (.filled ihs .nil)) nofun
  | forEach _ _ _ _ iht ihe ihs => exact laid_plain rfl (.filled iht (.filled ihe (.filled ihs .nil))) nofun
  | returnStmt _ ih => exact laid_plain rfl (.may ih .nil) nofun
  | throwStmt _ ih => exact laid_plain rfl (.filled ih .nil) nofun
  | breakStmt => exact laid_plain rfl .nil nofun
  | continueStmt => exact laid_plain rfl .nil nofun
  | emptyStmt => exact laid_plain rfl .nil nofun
  | constructorCall _ ih => exact laid_plain rfl .nil fun a ha => ⟨_, rfl, ih a ha⟩
  | modifiers =>
    refine laid_plain rfl .nil fun d hd => ⟨_, rfl, ?_⟩
    obtain ⟨m, -, rfl⟩ := List.mem_map.mp hd
    exact laid_plain rfl .nil nofun
  | classDecl _ _ _ ihm ihb => exact laid_plain rfl (.filled ihm .nil) fun m hm => ⟨_, rfl, ihb m hm⟩
  | constructorDecl _ _ _ _ ihm ihp ihb =>
    exact laid_plain rfl (.filled ihm (.filled ihb .nil)) fun p hp => ⟨_, rfl, ihp p hp⟩
  | methodDecl _ _ _ _ _ ihm iht ihp ihb =>
    exact laid_plain rfl (.filled ihm (.filled iht (.may ihb .nil))) fun p hp => ⟨_, rfl, ihp p hp⟩
  | fieldDecl _ _ _ _ ihm iht ihv =>
    exact laid_plain rfl (.filled ihm (.filled iht (.may ihv .nil))) nofun
  | importDecl => exact laid_plain rfl .nil nofun
  | unit _ _ _ ihi ihb =>
    refine laid_plain rfl (.filled ?_ .nil) fun m hm => ⟨_, rfl, ihb m hm⟩
    exact laid_plain rfl .nil fun i hi => ⟨_, rfl, ihi i hi⟩

end Layouts

section Ending

open Reader (unit fuelFor Excused Halts Part Takes)

variable {text : String} {ts : List Token}

/-- A text with tokens is read up to its end, or something is missing at one of them or behind the last. -/
theorem readUnit_cases (ht : Token.ofText text = .ok ts) :
    (∃ e, readUnit text = .error e ∧ Excused True ts.length e) ∨ ∃ d, readUnit text = .ok d ∧
      unit (fuelFor (.ofTokens ts)) (.ofTokens ts) = .ok (d, ⟨ts.length, []⟩) := by
  have hends : Halts True ts.length (unit (fuelFor (.ofTokens ts))) (.ofTokens ts) fun _ c' => c'.rest = [] :=
    Reader.unit_ends (Nat.add_le_add_left (by decide) _)
  unfold Halts at hends
  split at hends
  next d c' hrun =>
    obtain ⟨place, us⟩ := c'
    obtain ⟨hstop, rfl⟩ := hends
    obtain rfl : place = ts.length := hstop
    exact .inr ⟨d, Reader.readAll_of_run ht hrun, hrun⟩
  next e hrun =>
    refine .inl ⟨e, ?_, hends⟩
    rw [readUnit, Reader.readAll, ht]
    change (unit (fuelFor (.ofTokens ts)) (.ofTokens ts) >>= fun q => _) = _
    rw [hrun]
    rfl

/-- What is read of a text is a unit that keeps to the layouts. -/
theorem readUnit_laid (h : readUnit text = .ok d) :
    (∃ package, d.kind = .compilationUnit package) ∧ d.All KeepsLayout := by
  obtain ⟨ts, ht, hran⟩ := Reader.ran_of_readAll h
  have hf := (Reader.unit_read (Token.lexed_of_ofChars ht) hran).1
  refine ⟨?_, hf.laid.2⟩
  cases hf
  exact ⟨_, rfl⟩

/-- A document that keeps to the layouts is built in any tree, as a detached node. -/
theorem exists_build {t : SyntaxTree} (place : DocPath) (ht : t.Linked) (hd : d.All KeepsLayout) :
    ∃ n u, t.build place d = (.ok n, u) ∧ u.isDetached n = true ∧ u.kind n = d.kind ∧
      u.doc n = d.padded ∧ (u.doc n).Conforms := by
  have hc := d.conforms_padded.mpr hd
  obtain ⟨n, u, hb⟩ := SyntaxTree.build_ok place d ht hc
  obtain ⟨hn, -⟩ := SyntaxTree.build_copied d ht hb
  refine ⟨n, u, hb, hn.detached, ?_, hn.doc, by rwa [hn.doc]⟩
  rw [← hn.linked.kind_doc, hn.doc, kind_padded]

/-- Reading ends for every text. Readers of types, members, statements and expressions take part of the
weight of the tokens, with fuel for ten calls per unit of it. A token takes no less of a text than it weighs.
Fuel for ten calls per character is enough for a unit: if something is missing, then at a token or behind the
last, and what is read are all tokens of the text, and a unit of which a tree can be built. -/
theorem reading_ends :
    (∀ fuel r, Part fuel r → Takes 10 fuel r) ∧
    (∀ c rest o rest', Lexeme.next c rest = .ok (o, rest') →
      rest' <:+ rest ∧ Token.weightOf o.toList + rest'.length ≤ rest.length + 1) ∧
    ∀ text : String,
      (∃ cause, Token.ofText text = .error cause ∧ readUnit text = .error (.lexical cause)) ∨
      ∃ ts, Token.ofText text = .ok ts ∧ Token.weightOf ts ≤ text.length ∧
        (∀ fuel, 10 * text.length + 10 ≤ fuel →
          Halts True ts.length (unit fuel) (.ofTokens ts) fun _ c' => c'.rest = []) ∧
        ((∃ e, readUnit text = .error e ∧ Excused True ts.length e) ∨
          ∃ d package, readUnit text = .ok d ∧
            unit (fuelFor (.ofTokens ts)) (.ofTokens ts) = .ok (d, ⟨ts.length, []⟩) ∧
            d.kind = .compilationUnit package ∧ d.All KeepsLayout ∧
            ∀ (t : SyntaxTree) (place : DocPath), t.Linked → ∃ n u, t.build place d = (.ok n, u) ∧
              u.isDetached n = true ∧ u.kind n = .compilationUnit package ∧ u.doc n = d.padded ∧
              (u.doc n).Conforms) := by
  refine ⟨fun fuel r h => h.takes, fun c rest o rest' h => Lexeme.next_suffix h, fun text => ?_⟩
  cases ht : Token.ofText text with
  | error cause =>
    refine .inl ⟨cause, rfl, ?_⟩
    rw [readUnit, Reader.readAll, ht]
    rfl
  | ok ts =>
    have hweight : Token.weightOf ts ≤ text.length := by
      rw [← String.length_toList]
      exact Token.weightOf_ofChars ht
    refine .inr ⟨ts, rfl, hweight, fun fuel hf => Reader.unit_ends (by omega), ?_⟩
    refine (readUnit_cases ht).imp id ?_
    rintro ⟨d, hd, hrun⟩
    obtain ⟨⟨package, hk⟩, hl⟩ := readUnit_laid hd
    exact ⟨d, package, hd, hrun, hk, hl, fun t place hlinked => hk ▸ exists_build place hlinked hl⟩

/-- The brackets that close both lists of types are one mark, which the reader of types takes apart. -/
theorem nestedTypes_reading_ends :
    let fieldTokens : List Token := [.word "Map", .mark "<", .word "K", .mark ",", .word "List", .mark "<",
      .word "V", .mark ">>", .word "m", .mark ";"]
    (∃ ty c, Reader.type 120 (.ofTokens fieldTokens) = .ok (ty, c) ∧ c = ⟨8, [.word "m", .mark ";"]⟩ ∧
      c.weight < (Cursor.ofTokens fieldTokens).weight) ∧
    (Lexeme.next '>' ['>', ' ', 'm'] = .ok (some (.mark ">>"), [' ', 'm']) ∧ [' ', 'm'] <:+ ['>', ' ', 'm']) ∧
    ∃ d n u, readUnit "class T \x7b Map<K, List<V>> m; \x7d" = .ok d ∧
      (SyntaxTree.empty 0).build [] d = (.ok n, u) ∧ u.isDetached n = true ∧
      u.kind n = .compilationUnit none ∧ (u.doc n).Conforms := by
  intro fieldTokens
  obtain ⟨hparts, hnext, htexts⟩ := reading_ends
  refine ⟨?_, ?_, ?_⟩
  · have htype := hparts 120 _ .type (.ofTokens fieldTokens)
    obtain ⟨ty, hrun⟩ : ∃ ty, Reader.type 120 (.ofTokens fieldTokens) = .ok (ty, ⟨8, [.word "m", .mark ";"]⟩) :=
      ⟨_, rfl⟩
    rw [Halts, hrun] at htype
    exact ⟨ty, _, hrun, rfl, htype.2⟩
  · have hmark : Lexeme.next '>' ['>', ' ', 'm'] = .ok (some (.mark ">>"), [' ', 'm']) := by decide +kernel
    exact ⟨hmark, (hnext _ _ _ _ hmark).1⟩
  · have ht : Token.ofText "class T \x7b Map<K, List<V>> m; \x7d" = .ok
        (.word "class" :: .word "T" :: .mark "\x7b" :: (fieldTokens ++ [.mark "\x7d"])) := by decide +kernel
    obtain ⟨d, hd, hk⟩ : ∃ d, readUnit "class T \x7b Map<K, List<V>> m; \x7d" = .ok d ∧
        d.kind = .compilationUnit none := ⟨_, Reader.readAll_of_run ht rfl, rfl⟩
    rcases htexts "class T \x7b Map<K, List<V>> m; \x7d" with ⟨cause, he, -⟩ | ⟨ts, -, -, -, hread⟩
    · cases ht.symm.trans he
    · rcases hread with ⟨e, he, -⟩ | ⟨d', package, hd', -, hk', -, hbuild⟩
      · cases hd.symm.trans he
      · cases hd.symm.trans hd'
        cases hk.symm.trans hk'
        obtain ⟨n, u, hb, hdetached, hkind, -, hc⟩ := hbuild (.empty 0) [] (SyntaxTree.linked_empty 0)
        exact ⟨d, n, u, hd, hb, hdetached, hkind, hc⟩

end Ending

end Doc

end TreeTidy
