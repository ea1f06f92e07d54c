import TreeTidy.Source.Unit
/-!
What readers do to the tokens in front of them. `Ran` is said of a run that was made, `Reads` of the runs
that are sure to be made: the place of a token is told in errors only, and what a reader does where it
does not fail should not depend on it.
-/
namespace TreeTidy.Reader

variable {α β : Type} {c c' : Cursor} {r x : Reader α} {f : α → Reader β} {a : α} {b : β}
  {ts ts' ts'' : List Token} {t : Token}

theorem bind_eq_ok :
    (x >>= f) c = .ok (b, c') ↔ ∃ a c₁, x c = .ok (a, c₁) ∧ f a c₁ = .ok (b, c') := by
  change (x c >>= fun p => f p.1 p.2) = .ok (b, c') ↔ _
  constructor
  · intro h
    match hx : x c, h with
    | .ok (a, c₁), h => exact ⟨a, c₁, rfl, h⟩
  · rintro ⟨a, c₁, hx, hf⟩
    rw [hx]
    exact hf

/-- The reader has run over the tokens before the rest. -/
def Ran (r : Reader α) (ts : List Token) (a : α) (ts' : List Token) : Prop :=
  ∃ p p', r ⟨p, ts⟩ = .ok (a, ⟨p', ts'⟩)

/-- The reader runs over the tokens before the rest, wherever they stand. -/
def Reads (r : Reader α) (ts : List Token) (a : α) (ts' : List Token) : Prop :=
  ∀ p, ∃ p', r ⟨p, ts⟩ = .ok (a, ⟨p', ts'⟩)

namespace Ran

theorem bind (h : Ran (x >>= f) ts b ts'') : ∃ a ts', Ran x ts a ts' ∧ Ran (f a) ts' b ts'' := by
  obtain ⟨p, p', h⟩ := h
  obtain ⟨a, ⟨p₁, ts'⟩, hx, hf⟩ := bind_eq_ok.mp h
  exact ⟨a, ts', ⟨p, p₁, hx⟩, ⟨p₁, p', hf⟩⟩

theorem pure (h : Ran (pure a : Reader α) ts a' ts') : a' = a ∧ ts' = ts := by
  obtain ⟨p, p', h⟩ := h
  cases h
  exact ⟨rfl, rfl⟩

theorem peek {o : Option Token} (h : Ran peek? ts o ts') : o = ts.head? ∧ ts' = ts := by
  obtain ⟨p, p', h⟩ := h
  cases h
  exact ⟨rfl, rfl⟩

theorem rest {us : List Token} (h : Ran rest ts us ts') : us = ts ∧ ts' = ts := by
  obtain ⟨p, p', h⟩ := h
  cases h
  exact ⟨rfl, rfl⟩

theorem isAt {m : String} {b : Bool} (h : Ran (isAt m) ts b ts') :
    b = (ts.head? == some (.mark m)) ∧ ts' = ts := by
  obtain ⟨p, p', h⟩ := h
  cases h
  exact ⟨rfl, rfl⟩

theorem isAtEnd {b : Bool} (h : Ran isAtEnd ts b ts') : b = ts.isEmpty ∧ ts' = ts := by
  obtain ⟨p, p', h⟩ := h
  cases h
  exact ⟨rfl, rfl⟩

theorem skip {n : Nat} {u : Unit} (h : Ran (skip n) ts u ts') : ts' = ts.drop n := by
  obtain ⟨p, p', h⟩ := h
  cases h
  rfl

theorem fail {w : Wanted} (h : Ran (fail w : Reader α) ts a ts') : False := by
  obtain ⟨p, p', h⟩ := h
  cases h

theorem exhausted (h : Ran (exhausted : Reader α) ts a ts') : False := by
  obtain ⟨p, p', h⟩ := h
  cases h

theorem takes {b : Bool} (h : Ran (takes t) ts b ts') :
    b = true ∧ ts = t :: ts' ∨ b = false ∧ ts' = ts ∧ ts.head? ≠ some t := by
  obtain ⟨p, p', h⟩ := h
  rw [Reader.takes] at h
  cases ts with
  | nil =>
    cases h
    exact .inr ⟨rfl, rfl, nofun⟩
  | cons u us =>
    by_cases hu : u = t
    · simp only [hu, if_true] at h
      cases h
      exact .inl ⟨rfl, by rw [hu]⟩
    · simp only [hu, if_false] at h
      cases h
      exact .inr ⟨rfl, rfl, fun h => hu (Option.some.inj h)⟩

theorem takes_if {b : Bool} (h : Ran (Reader.takes t) ts b ts') :
    ts = (if b then [t] else []) ++ ts' ∧ (b = false → ts'.head? ≠ some t) := by
  rcases h.takes with ⟨rfl, rfl⟩ | ⟨rfl, rfl, hne⟩
  · exact ⟨rfl, nofun⟩
  · exact ⟨rfl, fun _ => hne⟩

theorem expect {m : String} {u : Unit} (h : Ran (expect m) ts u ts') : ts = .mark m :: ts' := by
  rw [Reader.expect] at h
  obtain ⟨b, ts₁, hb, hf⟩ := h.bind
  rcases takes hb with ⟨rfl, rfl⟩ | ⟨rfl, rfl, _⟩
  · obtain ⟨_, rfl⟩ := pure hf
    rfl
  · exact hf.fail.elim

theorem identifier {n : String} (h : Ran identifier ts n ts') :
    ts = .word n :: ts' ∧ isKeyword n = false := by
  obtain ⟨p, p', h⟩ := h
  rw [Reader.identifier] at h
  split at h
  · split at h
    · cases h
    · cases h
      exact ⟨by assumption, Bool.eq_false_iff.mpr (by assumption)⟩
  · cases h

section

variable {y : Reader α} {g : α → β}

theorem pure_bind (h : Ran (Pure.pure a >>= f) ts b ts') : Ran (f a) ts b ts' := by
  obtain ⟨_, _, ha, hf⟩ := h.bind
  obtain ⟨rfl, rfl⟩ := ha.pure
  exact hf

/-- A run that ends with what is made of its last part. -/
theorem bind_pure (h : Ran (x >>= fun a => Pure.pure (g a)) ts b ts') :
    ∃ a, Ran x ts a ts' ∧ b = g a := by
  obtain ⟨a, _, ha, hf⟩ := h.bind
  obtain ⟨rfl, rfl⟩ := hf.pure
  exact ⟨a, ha, rfl⟩

theorem peek_bind {f : Option Token → Reader β} (h : Ran (peek? >>= f) ts b ts') :
    Ran (f ts.head?) ts b ts' := by
  obtain ⟨_, _, hp, hf⟩ := h.bind
  obtain ⟨rfl, rfl⟩ := hp.peek
  exact hf

theorem rest_bind {f : List Token → Reader β} (h : Ran (Reader.rest >>= f) ts b ts') :
    Ran (f ts) ts b ts' := by
  obtain ⟨_, _, hr, hf⟩ := h.bind
  obtain ⟨rfl, rfl⟩ := hr.rest
  exact hf

theorem skip_bind {f : Unit → Reader β} (h : Ran (Reader.skip 1 >>= f) (t :: ts) b ts') :
    Ran (f ()) ts b ts' := by
  obtain ⟨_, _, hs, hf⟩ := h.bind
  cases hs.skip
  exact hf

theorem expect_bind {m : String} {f : Unit → Reader β} (h : Ran (Reader.expect m >>= f) ts b ts') :
    ∃ us, ts = .mark m :: us ∧ Ran (f ()) us b ts' := by
  obtain ⟨_, us, he, hf⟩ := h.bind
  exact ⟨us, he.expect, hf⟩

/-- A run that ends with a mark. -/
theorem expect_pure {m : String} (h : Ran (Reader.expect m >>= fun _ => Pure.pure a) ts a' ts') :
    ts = .mark m :: ts' ∧ a' = a := by
  obtain ⟨us, rfl, ha⟩ := h.expect_bind
  obtain ⟨rfl, rfl⟩ := ha.pure
  exact ⟨rfl, rfl⟩

theorem identifier_bind {f : String → Reader β} (h : Ran (Reader.identifier >>= f) ts b ts') :
    ∃ n us, ts = .word n :: us ∧ isKeyword n = false ∧ Ran (f n) us b ts' := by
  obtain ⟨n, us, hn, hf⟩ := h.bind
  obtain ⟨rfl, hk⟩ := hn.identifier
  exact ⟨n, us, rfl, hk, hf⟩

theorem isAt_ite {m : String}
    (h : Ran (Reader.isAt m >>= fun b => if b = true then x else y) ts a ts') :
    ts.head? = some (.mark m) ∧ Ran x ts a ts' ∨ ts.head? ≠ some (.mark m) ∧ Ran y ts a ts' := by
  obtain ⟨_, _, hb, hf⟩ := h.bind
  obtain ⟨rfl, rfl⟩ := hb.isAt
  split at hf
  next hm => exact .inl ⟨beq_iff_eq.mp hm, hf⟩
  next hm => exact .inr ⟨fun h => hm (beq_iff_eq.mpr h), hf⟩

theorem takes_ite (h : Ran (Reader.takes t >>= fun b => if b = true then x else y) ts a ts') :
    (∃ us, ts = t :: us ∧ Ran x us a ts') ∨ ts.head? ≠ some t ∧ Ran y ts a ts' := by
  obtain ⟨_, us, hb, hf⟩ := h.bind
  rcases hb.takes with ⟨rfl, rfl⟩ | ⟨rfl, rfl, hne⟩
  · exact .inl ⟨us, rfl, hf⟩
  · exact .inr ⟨hne, hf⟩

end

end Ran

namespace Reads

theorem bind (hx : Reads x ts a ts') (hf : Reads (f a) ts' b ts'') : Reads (x >>= f) ts b ts'' := by
  intro p
  obtain ⟨p₁, hx⟩ := hx p
  obtain ⟨p₂, hf⟩ := hf p₁
  exact ⟨p₂, bind_eq_ok.mpr ⟨a, _, hx, hf⟩⟩

theorem pure : Reads (pure a : Reader α) ts a ts := fun p => ⟨p, rfl⟩

theorem peek : Reads peek? ts ts.head? ts := fun p => ⟨p, rfl⟩

theorem rest : Reads rest ts ts ts := fun p => ⟨p, rfl⟩

theorem isAt {m : String} : Reads (isAt m) ts (ts.head? == some (.mark m)) ts := fun p => ⟨p, rfl⟩

theorem isAtEnd : Reads isAtEnd ts ts.isEmpty ts := fun p => ⟨p, rfl⟩

theorem skip (n : Nat) : Reads (skip n) ts () (ts.drop n) := fun p => ⟨p + n, rfl⟩

theorem skip_one : Reads (Reader.skip 1) (t :: ts) () ts := skip 1

theorem takes : Reads (takes t) (t :: ts) true ts := fun p => ⟨p + 1, by simp [Reader.takes]⟩

theorem leaves (h : ts.head? ≠ some t) : Reads (Reader.takes t) ts false ts := by
  intro p
  refine ⟨p, ?_⟩
  cases ts with
  | nil => rfl
  | cons u us => simp only [Reader.takes, if_neg fun hu : u = t => h (congrArg some hu)]

theorem takes_if {b : Bool} (h : b = false → ts.head? ≠ some t) :
    Reads (Reader.takes t) ((if b then [t] else []) ++ ts) b ts := by
  cases b with
  | false => exact leaves (h rfl)
  | true => exact takes

theorem expect {m : String} : Reads (expect m) (.mark m :: ts) () ts :=
  takes.bind pure

theorem identifier {n : String} (h : isKeyword n = false) :
    Reads identifier (.word n :: ts) n ts := by
  intro p
  refine ⟨p + 1, ?_⟩
  simp [Reader.identifier, h]

end Reads

/-- A text is what is read of all of its tokens. -/
theorem readAll_of_run {r : Nat → Reader Doc} {leftOver : Cursor → ParseError} {text : String} {d : Doc}
    {p : Nat} (ht : Token.ofText text = .ok ts)
    (h : r (fuelFor (.ofTokens ts)) (.ofTokens ts) = .ok (d, ⟨p, []⟩)) : readAll r leftOver text = .ok d := by
  rw [readAll, ht]
  change (r (fuelFor (.ofTokens ts)) (.ofTokens ts) >>= fun q => _) = _
  exact Eq.trans (congrArg (· >>= _) h) rfl

theorem readAll_of_reads {r : Nat → Reader Doc} {leftOver : Cursor → ParseError} {text : String} {d : Doc}
    (ht : Token.ofText text = .ok ts) (h : Reads (r (fuelFor (.ofTokens ts))) ts d []) :
    readAll r leftOver text = .ok d := by
  obtain ⟨p, hp⟩ := h 0
  exact readAll_of_run ht hp

theorem ran_of_readAll {r : Nat → Reader Doc} {leftOver : Cursor → ParseError} {text : String} {d : Doc}
    (h : readAll r leftOver text = .ok d) :
    ∃ ts, Token.ofText text = .ok ts ∧ Ran (r (fuelFor (.ofTokens ts))) ts d [] := by
  rw [readAll] at h
  cases ht : Token.ofText text with
  | error e =>
    rw [ht] at h
    cases h
  | ok ts =>
    rw [ht] at h
    refine ⟨ts, rfl, 0, ?_⟩
    change (r (fuelFor (.ofTokens ts)) (.ofTokens ts) >>= fun q => _) = _ at h
    match r (fuelFor (.ofTokens ts)) (.ofTokens ts), h with
    | .ok (d', ⟨p, []⟩), h =>
      cases h
      exact ⟨p, rfl⟩
    | .ok (d', ⟨p, t :: us⟩), h => cases h

end TreeTidy.Reader
