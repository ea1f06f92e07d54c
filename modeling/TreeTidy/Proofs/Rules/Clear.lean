import TreeTidy.Print.Source
import TreeTidy.Proofs.Rules.Rewriting
import TreeTidy.Proofs.Tree.Built
/-!
Rules keep the grouping: a clear tree stays clear, whatever rule of the library rewrites it, so it can
still be printed without a thought for parentheses.
-/
namespace TreeTidy.Rules

open SyntaxTree

variable {res : Resolver} {t u : SyntaxTree}

/-- If every expression binds tightly enough for its place, and all that is written to is a variable, a
field or an element of an array, possibly in parentheses, then it is so after every rewriting. -/
theorem rewriting_keeps_clear (ht : t.Linked) (hl : t.Laid) (hc : t.Clear) (h : Rewriting res t u) :
    u.Clear :=
  (h.rewritten ⟨ht, hl⟩).clear hc

/-- An expression without a place in a text. -/
private abbrev expr (kind : NodeKind) (parts : List Doc) : Doc := .make kind .none parts []

/-- `!(!(a || b)) && c` -/
def negatedTwice : Doc :=
  expr (.binary .and) [expr (.unary .not) [expr .paren [expr (.unary .not) [expr .paren
    [expr (.binary .or) [expr (.nameExpr "a") [], expr (.nameExpr "b") []]]]]],
    expr (.nameExpr "c") []]

theorem clear_negatedTwice : negatedTwice.Clear := by
  have name : ∀ x, (expr (.nameExpr x) []).Clear := by
    intro x
    exact Doc.clear_make rfl trivial (by simp) (by simp)
  have wrapped : ∀ k d, k.writes = false → k.leastBinding (.slot 0) ≤ 13 → Doc.Clear d →
      (expr k [expr .paren [d]]).Clear := by
    intro k d hk hb hd
    have hp : (expr .paren [d]).Clear :=
      Doc.clear_make rfl ⟨.inl (Nat.zero_le _), trivial⟩ (List.forall_mem_singleton.mpr hd) (by simp)
    exact Doc.clear_make hk ⟨.inl hb, trivial⟩ (List.forall_mem_singleton.mpr hp) (by simp)
  have choice : (expr (.binary .or) [expr (.nameExpr "a") [], expr (.nameExpr "b") []]).Clear :=
    Doc.clear_make rfl ⟨.inl (by decide), .inl (by decide), trivial⟩ (by simp [name]) (by simp)
  have negation := wrapped (.unary .not) _ rfl (by decide) (wrapped (.unary .not) _ rfl (by decide) choice)
  exact Doc.clear_make rfl ⟨.inl (by decide), .inl (by decide), trivial⟩ (by simp [name, negation])
    (by simp)

/-- The tree of a unit that consists of the expression. -/
def negatedTwiceTree : SyntaxTree :=
  match SourceUnit.ofDoc 1 ⟨"T.java", .standard, [], negatedTwice⟩ with
  | .ok u => u.tree
  | .error _ => .empty 1

/-- With both negations gone, the choice still has parentheses around it. -/
theorem negatedTwice_stays_clear : negatedTwiceTree.Linked ∧ negatedTwiceTree.Laid ∧
    negatedTwiceTree.Clear ∧ ∃ u, Rewriting .unresolved negatedTwiceTree u ∧
      u.print = "(a || b) && c" ∧ u.Clear := by
  obtain ⟨s, hs, he⟩ : ∃ s, SourceUnit.ofDoc 1 ⟨"T.java", .standard, [], negatedTwice⟩ = .ok s ∧
      s.tree = negatedTwiceTree := ⟨_, rfl, rfl⟩
  obtain ⟨hsound, hdoc⟩ := SourceUnit.ofDoc_sound hs
  rw [he] at hsound hdoc
  have hclear : negatedTwiceTree.Clear := by
    intro d hd
    rw [hdoc] at hd
    exact Option.some.inj hd ▸ clear_negatedTwice
  have hr : Rewriting .unresolved negatedTwiceTree
      ((doubleNegation.act 6).runFrom ⟨.unresolved, "DoubleNegation", 1⟩ negatedTwiceTree []).tree :=
    ⟨doubleNegation, by simp [all], 6, _, [], by decide, rfl, rfl, by decide⟩
  exact ⟨hsound.linked, hsound.laid, hclear, _, hr, rfl,
    rewriting_keeps_clear hsound.linked hsound.laid hclear hr⟩

end TreeTidy.Rules
