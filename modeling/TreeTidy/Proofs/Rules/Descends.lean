import TreeTidy.Proofs.Rules.Rewrites
import TreeTidy.Proofs.Rules.Shapes
/-!
Rules that lead downwards, and the ways in which they put an expression in the place of a node.
-/
namespace TreeTidy

open SyntaxTree

/-- Whatever plan the rule has, it can be carried out and leaves a better tree. -/
def Descends (planAt : View → NodeId → Option Plan) : Prop :=
  ∀ ⦃v n p⦄, v.tree.Linked → v.tree.Laid → v.tree.isAttached n = true → planAt v n = some p →
    p.Rewrites v.tree

namespace Draft

variable {t : SyntaxTree} {a b : NodeId} {c : Ref → Commit} {E : Doc}

theorem copy_ends {g : Piece → Draft Commit} (ht : t.Linked) (ha : t.isAlive a = true)
    (hg : ∀ x, (g x).Ends t [(x, t.doc a)] c E) : (copy t a >>= g).Ends t [] c E :=
  Ends.of_yields (copy_yields ht ha) hg

theorem copyTwo_ends {g : Piece → Piece → Draft Commit} (ht : t.Linked) (ha : t.isAlive a = true)
    (hb : t.isAlive b = true) (hg : ∀ x y, (g x y).Ends t [(x, t.doc a), (y, t.doc b)] c E) :
    (copy t a >>= fun x => copy t b >>= fun y => g x y).Ends t [] c E :=
  copy_ends ht ha fun x => Ends.bind [(x, t.doc a)] (copy_yields ht hb) fun y => hg x y

end Draft

variable {t : SyntaxTree} {n a b r : NodeId} {k : NodeKind} {D : Doc} {d : Draft Commit}
  {op : BinaryOp} {name : String} {args : List NodeId}

/-- What needs no parentheses anywhere can take the place of a node, unless that may be written to. -/
theorem suits_of_binding (ht : t.Linked) (hD : D.Proper t) (hb : D.kind.binding = 13)
    (hv : (t.kind n).isVariable = false) (hp : t.kind n ≠ .paren) : t.Suits n D :=
  ⟨hD.clear, hD.spans, fun _ _ _ _ _ => NodeKind.bears_of_binding hb,
    fun h => absurd h (Doc.not_target (by rwa [ht.kind_doc]) (by rwa [ht.kind_doc]))⟩

/-- Where a value is, nothing is written to. -/
theorem suits_of_isValue (ht : t.Linked) (hD : D.Proper t) (hx : (t.kind n).isValue = true)
    (hb : t.Clear → ∀ p pos, t.parent? n = some p → (t.node p).at? pos = some n →
      (t.kind p).Bears pos D.kind) : t.Suits n D :=
  ⟨hD.clear, hD.spans, hb, fun h => absurd h (ht.not_target_of_isValue hx)⟩

section

variable (ht : t.Linked) (hl : t.Laid) (hn : t.isAttached n = true)
include ht hl hn

section Weights

theorem SyntaxTree.Laid.weight_unary {op : UnaryOp} (hk : t.kind n = .unary op)
    (ha : t.slot? n 0 = some a) : 4 + t.weight a ≤ t.weight n := by
  have h := hl.weight_eq ht hn
  rw [hk, slotWeight_some ha] at h
  simp only [NodeKind.weight_unary, NodeKind.slotFactor] at h
  omega

theorem SyntaxTree.Laid.weight_binary (hk : t.kind n = .binary op) (ha : t.slot? n 0 = some a)
    (hb : t.slot? n 1 = some b) : 4 + t.weight a + 2 * t.weight b ≤ t.weight n := by
  have h := hl.weight_eq ht hn
  rw [hk, slotWeight_some ha, slotWeight_some hb] at h
  simp only [NodeKind.weight_binary, NodeKind.slotFactor] at h
  omega

theorem SyntaxTree.Laid.weight_call (hk : t.kind n = .methodCall name) (hr : t.slot? n 0 = some r)
    (ha : t.list n = args) :
    NodeKind.weight (.methodCall name) + 3 * t.weight r + 2 * (args.map t.weight).sum ≤ t.weight n := by
  have h := hl.weight_eq ht hn
  rw [hk, slotWeight_some hr, ha] at h
  simp only [NodeKind.slotFactor, NodeKind.listFactor] at h
  omega

/-- A call without arguments, once its parentheses are gone, is made on an expression below. -/
theorem SyntaxTree.Laid.receiver_of_nullaryCall (h : t.nullaryCall? (t.stripParens n) name = some r) :
    t.SubExpr n r ∧ 4 + 3 * t.weight r ≤ t.weight n := by
  obtain ⟨hk, hr, ha⟩ := nullaryCall?_eq_some.mp h
  have hw := (hl.stripParens ht hn).1
  have hsn := ht.attached_of_within hn hw
  have hc := hl.weight_call ht hsn hk hr ha
  have h4 := NodeKind.four_le_call name
  rw [hl.weight_stripParens ht hn] at hc
  exact ⟨hl.subExpr_slot ht hn hw (i := 0) (by rw [hk]; rfl) hr, by omega⟩

end Weights

theorem SyntaxTree.Laid.takes_expr (hx : (t.kind n).isExpression = true)
    (hk : k.isExpression = true) : t.Takes n k := by
  refine hl.takes ht hn ?_ ?_
  · rw [eq_of_beq hx, eq_of_beq hk]
  · intro hb
    rw [hb] at hx
    cases hx

/-- An expression that needs no parentheses anywhere takes the place of a heavier one. -/
theorem Draft.Ends.expr_rewrites (h : d.Ends t [] (.replace n) D) (hD : D.Expr t)
    (hb : D.kind.binding = 13) (hx : (t.kind n).isValue = true) (hw : D.weight < t.weight n) :
    (Draft.plan d).Rewrites t := by
  obtain ⟨hex, hv, hp⟩ := NodeKind.isValue_iff.mp hx
  exact h.replace_rewrites ht hl hn hD.conforms (hl.takes_expr ht hn hex hD.kind)
    (suits_of_binding ht hD.toProper hb hv hp) (.inl hw)

/-- An expression takes the place of a heavier one, in parentheses where it needs them. -/
theorem Plan.Puts.placed_rewrites {q : Plan} (h : q.Puts t n (D.placedAt t n)) (hD : D.Expr t)
    (hx : (t.kind n).isValue = true) (hw : D.weight < t.weight n) : q.Rewrites t := by
  have hP := hD.placedAt n hn
  refine h.rewrites ht hl hn hP.conforms
    (hl.takes_expr ht hn (NodeKind.isExpression_of_isValue hx) hP.kind)
    (suits_of_isValue ht hP.toProper hx ?_) (.inl (by rwa [Doc.weight_placedAt]))
  intro hc p pos hp hat
  unfold Doc.placedAt
  split
  · exact NodeKind.bears_of_binding rfl
  next hk => exact hc.bears_of_needsParens ht hn hx (Bool.not_eq_true _ ▸ hk) hp hat

theorem Draft.Ends.placed_puts (h : d.Ends t [] (.replace n) (D.placedAt t n)) (hD : D.Expr t)
    (hx : (t.kind n).isValue = true) : (Draft.plan d).Puts t n (D.placedAt t n) :=
  h.replace_puts ht hn
    (hl.takes_expr ht hn (NodeKind.isExpression_of_isValue hx) (hD.placedAt n hn).kind)

theorem Draft.Ends.placed_rewrites (h : d.Ends t [] (.replace n) (D.placedAt t n)) (hD : D.Expr t)
    (hx : (t.kind n).isValue = true) (hw : D.weight < t.weight n) : (Draft.plan d).Rewrites t :=
  (h.placed_puts ht hl hn hD hx).placed_rewrites ht hl hn hD hx hw

/-- An expression takes the place of one that it is a part of. -/
theorem Draft.putAt_keep_puts (ha : t.SubExpr n a) (hx : (t.kind n).isValue = true) :
    (Draft.plan (Draft.putAt t n (Draft.keep t a))).Puts t n ((t.doc a).placedAt t n) := by
  have hD := ha.doc ht hn hl
  have hex := NodeKind.isExpression_of_isValue hx
  unfold Doc.placedAt
  rw [Draft.putAt, Draft.keep, ht.kind_doc]
  cases hp : t.needsParens n (t.kind a) with
  | false => exact lift_puts ht hn ha.below (hl.takes_expr ht hn hex ha.expr)
  | true =>
    refine Draft.Ends.replace_puts ht hn (D := Doc.make .paren (t.span n) [t.doc a] []) ?_
      (hl.takes_expr ht hn hex rfl)
    apply Draft.Ends.of_yields (Draft.copy_yields ht (ha.alive ht hn))
    intro inner
    apply Draft.Ends.of_yields (Draft.make_yields [(inner, t.doc a)] [] hD.fits_paren)
    exact fun wrapped => Draft.Ends.pure _ wrapped _

theorem Draft.putAt_keep_rewrites (ha : t.SubExpr n a) (hx : (t.kind n).isValue = true)
    (hw : t.weight a < t.weight n) : (Draft.plan (Draft.putAt t n (Draft.keep t a))).Rewrites t :=
  (Draft.putAt_keep_puts ht hl hn ha hx).placed_rewrites ht hl hn (ha.doc ht hn hl) hx hw

end

end TreeTidy
