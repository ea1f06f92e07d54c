import TreeTidy.Proofs.Rules.Comparison
import TreeTidy.Proofs.Rules.Negation
import TreeTidy.Proofs.Rules.RenamedDrafts
import TreeTidy.Rules.Literal
import TreeTidy.Rules.Text
import TreeTidy.Rules.Wrapper
/-!
The rules on expressions, on trees that are the same under a renaming: each plans the same for
corresponding nodes.
-/
namespace TreeTidy.Rules

open SyntaxTree Draft

variable {g : NodeId → NodeId} {k : Nat} {v w : View} (h : View.Renamed g k v w) (n : NodeId)
include h

section Negation

theorem doubleNegation_mirrored : Mirrored g (doubleNegation.planAt v n) (doubleNegation.planAt w (g n)) := by
  refine .bind g (h.tree.negatedOperand? h.linked n) fun inner => ?_
  refine .bind g (h.tree.negatedOperand? h.linked inner) fun operand => ?_
  exact .plan (putAt_keep_conclude h.tree n operand)

theorem areIntegral_renamed {a b : NodeId} (ha : v.tree.isAttached a = true) (hb : v.tree.isAttached b = true) :
    areIntegral w (g a) (g b) = areIntegral v a b := by
  rw [areIntegral, areIntegral, h.primitive? ha, h.primitive? hb]

theorem negatedComparison_mirrored (hn : v.tree.isAttached n = true) :
    Mirrored g (negatedComparison.planAt v n) (negatedComparison.planAt w (g n)) := by
  refine .bind_of g (h.tree.negatedOperand? h.linked n) fun c hc => ?_
  have hca := h.linked.attached_negatedOperand? hn hc
  rw [h.tree.kind]
  cases v.tree.kind c with
  | binary op =>
    refine .bind_same rfl fun negated => ?_
    refine .bind_of g (h.tree.slot? c 0) fun a ha => ?_
    refine .bind_of g (h.tree.slot? c 1) fun b hb => ?_
    have hint := areIntegral_renamed h (h.linked.attached_slot? hca ha) (h.linked.attached_slot? hca hb)
    refine .ite (by rw [hint]) .none (.plan ?_)
    refine .copy h.tree a fun x => .copy h.tree b fun y => ?_
    exact .of_agree (join_agree negated x y) fun folded => putAt_conclude h.tree n folded
  | _ => exact .none

theorem presenceTest?_renamed : presenceTest? w.tree (g n) =
    (presenceTest? v.tree n).map fun x => (g x.1, x.2) := by
  rw [presenceTest?, presenceTest?, h.tree.nullaryCall?, h.tree.nullaryCall?]
  cases v.tree.nullaryCall? n "isPresent" with
  | some r => rfl
  | none => cases v.tree.nullaryCall? n "isEmpty" <;> rfl

theorem optionalNotEmpty_mirrored (hn : v.tree.isAttached n = true) :
    Mirrored g (optionalNotEmpty.planAt v n) (optionalNotEmpty.planAt w (g n)) := by
  refine .bind_of g (h.tree.negatedOperand? h.linked n) fun operand ho => ?_
  refine .bind_of _ (presenceTest?_renamed h operand) fun x hx => ?_
  obtain ⟨⟨_, -, hr, -⟩, -⟩ := presenceTest?_eq_some hx
  have hra := h.linked.attached_slot? (h.linked.attached_negatedOperand? hn ho) hr
  refine .ite (by rw [h.inherits hra]) .none (.plan ?_)
  exact .of_agree (callOnCopy_agree h.tree x.1 x.2) fun test => putAt_conclude h.tree n test

end Negation

section Comparison

theorem literalComparison?_renamed (a b : NodeId) : literalComparison? w.tree (g a) (g b) =
    (literalComparison? v.tree a b).map fun x => (g x.1, x.2) := by
  rw [literalComparison?, literalComparison?, h.tree.stripParens h.linked, h.tree.stripParens h.linked,
    h.tree.booleanLiteral?, h.tree.booleanLiteral?]
  cases v.tree.booleanLiteral? (v.tree.stripParens a) <;>
    cases v.tree.booleanLiteral? (v.tree.stripParens b) <;> rfl

theorem booleanLiteralComparison_mirrored (hn : v.tree.isAttached n = true) :
    Mirrored g (booleanLiteralComparison.planAt v n) (booleanLiteralComparison.planAt w (g n)) := by
  rw [booleanLiteralComparison.planAt, booleanLiteralComparison.planAt, h.tree.kind]
  cases v.tree.kind n with
  | binary op =>
    refine .ite .rfl .none ?_
    refine .bind_of g (h.tree.slot? n 0) fun a ha => ?_
    refine .bind_of g (h.tree.slot? n 1) fun b hb => ?_
    refine .bind_of _ (literalComparison?_renamed h a b) fun x hx => ?_
    have hxa : v.tree.isAttached x.1 = true := by
      rcases literalComparison?_cases hx with ⟨he, -⟩ | ⟨he, -⟩ <;> rw [he]
      · exact h.linked.attached_slot? hn ha
      · exact h.linked.attached_slot? hn hb
    refine .ite (by rw [h.primitive? hxa]) .none ?_
    refine .ite .rfl (.plan (putAt_keep_conclude h.tree n x.1)) (.plan ?_)
    refine .copy h.tree x.1 fun operand => ?_
    exact .of_agree (negate_agree operand) fun negated => putAt_conclude h.tree n negated
  | _ => exact .none

theorem nullLiteralOnRight_mirrored :
    Mirrored g (nullLiteralOnRight.planAt v n) (nullLiteralOnRight.planAt w (g n)) := by
  rw [nullLiteralOnRight.planAt, nullLiteralOnRight.planAt, h.tree.kind]
  cases v.tree.kind n with
  | binary op =>
    refine .bind g (h.tree.slot? n 0) fun a => ?_
    refine .bind g (h.tree.slot? n 1) fun b => ?_
    refine .ite ?_ .none (.plan ?_)
    · rw [h.tree.stripParens h.linked, h.tree.stripParens h.linked, h.tree.isNullLiteral, h.tree.isNullLiteral]
    · refine .copy h.tree a fun x => .copy h.tree b fun y => ?_
      refine .of_agree ((join_agree op y x).perm (.swap x y [])) fun swapped => ?_
      exact putAt_conclude h.tree n swapped
  | _ => exact .none

theorem literalsFirstInComparisons_mirrored (hn : v.tree.isAttached n = true) :
    Mirrored g (literalsFirstInComparisons.planAt v n) (literalsFirstInComparisons.planAt w (g n)) := by
  refine .bind_of _ (h.tree.call? n) fun c hc => ?_
  refine .bind_of g rfl fun receiver hr => ?_
  refine .bind g List.head?_map fun arg => ?_
  refine .ite ?_ .none (.plan ?_)
  · rw [h.tree.stripParens h.linked, h.tree.stripParens h.linked, h.tree.stringLiteral?, h.tree.isLiteral,
      h.isString (h.linked.attached_receiver hn hc hr), Call.isOf_rename, Call.isOf_rename]
  · rw [h.tree.stripParens h.linked, h.tree.span]
    refine .copy h.tree _ fun literal => .copy h.tree receiver fun arg => ?_
    exact .of_agree (make_agree (.methodCall c.name) _ [literal] [arg]) fun flipped => .replace n flipped

theorem staticPair?_renamed (name : String) : staticPair? w.tree (g n) name =
    (staticPair? v.tree n name).map fun x => (g x.1, g x.2.1, g x.2.2) := by
  rw [staticPair?, staticPair?, h.tree.call?]
  cases v.tree.call? n with
  | none => rfl
  | some c =>
    obtain ⟨called, receiver, args⟩ := c
    cases receiver with
    | none => rfl
    | some r =>
      simp only [Option.map_some, Option.bind_eq_bind, Option.bind_some, Call.rename]
      cases called == name <;> rcases args with _ | ⟨a, _ | ⟨b, _ | ⟨c, cs⟩⟩⟩ <;> rfl

theorem areComparable_renamed {a b : NodeId} (ha : v.tree.isAttached a = true)
    (hb : v.tree.isAttached b = true) : areComparable w (g a) (g b) = areComparable v a b := by
  rw [areComparable, areComparable, h.primitive? ha, h.primitive? hb]

theorem primitiveObjectsEquals_mirrored (hn : v.tree.isAttached n = true) :
    Mirrored g (primitiveObjectsEquals.planAt v n) (primitiveObjectsEquals.planAt w (g n)) := by
  refine .bind_of _ (staticPair?_renamed h n "equals") fun x hx => ?_
  obtain ⟨receiver, a, b⟩ := x
  obtain ⟨-, -, hlist⟩ := staticPair?_eq_some hx
  have hcomp := areComparable_renamed h (h.linked.attached_list hn (a := a) (by simp [hlist]))
    (h.linked.attached_list hn (a := b) (by simp [hlist]))
  simp only [h.tree.kind]
  cases v.tree.kind receiver with
  | typeName name =>
    refine .ite (by rw [h.namesClass, hcomp]) .none (.plan ?_)
    refine .copy h.tree a fun x => .copy h.tree b fun y => ?_
    exact .of_agree (join_agree .eq x y) fun equal => putAt_conclude h.tree n equal
  | _ => exact .none

end Comparison

section Grouping

theorem redundantParentheses_mirrored :
    Mirrored g (redundantParentheses.planAt v n) (redundantParentheses.planAt w (g n)) := by
  rw [redundantParentheses.planAt, redundantParentheses.planAt, h.tree.kind]
  cases v.tree.kind n with
  | paren =>
    refine .bind g (h.tree.slot? n 0) fun inner => ?_
    exact .ite (by rw [h.tree.kind]) (.some ⟨[], .nil, fun r hr => .inr ⟨inner, List.mem_singleton.mp hr⟩⟩) .none
  | _ => exact .none

end Grouping

section Emptiness

theorem putEmptinessTest_mirrored (receiver : NodeId) (empty : Bool) :
    Mirrored g (some (putEmptinessTest v.tree n receiver empty))
      (some (putEmptinessTest w.tree (g n) (g receiver) empty)) := by
  refine .plan ?_
  refine .of_agree (callOnCopy_agree h.tree receiver "isEmpty") fun test => ?_
  cases empty with
  | true => exact .of_agree (.pure test) fun test => putAt_conclude h.tree n test
  | false => exact .of_agree (negate_agree test) fun test => putAt_conclude h.tree n test

theorem stringIsEmpty_mirrored (hn : v.tree.isAttached n = true) :
    Mirrored g (stringIsEmpty.planAt v n) (stringIsEmpty.planAt w (g n)) := by
  refine .bind_of _ (h.tree.emptinessTest? h.linked n "length") fun x hx => ?_
  have hxa := h.linked.attached_emptinessTest? hn hx
  exact .ite (by rw [h.isString hxa]) (putEmptinessTest_mirrored h n x.1 x.2) .none

theorem isSized_renamed (hn : v.tree.isAttached n = true) : isSized w (g n) = isSized v n := by
  rw [isSized, isSized, h.inherits hn, h.inherits hn]

theorem collectionIsEmpty_mirrored (hn : v.tree.isAttached n = true) :
    Mirrored g (collectionIsEmpty.planAt v n) (collectionIsEmpty.planAt w (g n)) := by
  refine .bind_of _ (h.tree.emptinessTest? h.linked n "size") fun x hx => ?_
  have hxa := h.linked.attached_emptinessTest? hn hx
  exact .ite (by rw [isSized_renamed h x.1 hxa]) (putEmptinessTest_mirrored h n x.1 x.2) .none

end Emptiness

section Text

theorem stringToString_mirrored (hn : v.tree.isAttached n = true) :
    Mirrored g (stringToString.planAt v n) (stringToString.planAt w (g n)) := by
  refine .bind_of g (h.tree.nullaryCall? n "toString") fun receiver hr => ?_
  have hra := h.linked.attached_nullaryCall? hn hr
  exact .ite (by rw [h.isString hra]) (.plan (putAt_keep_conclude h.tree n receiver)) .none

theorem stringReplaceAllLiteral_mirrored (hn : v.tree.isAttached n = true) :
    Mirrored g (stringReplaceAllLiteral.planAt v n) (stringReplaceAllLiteral.planAt w (g n)) := by
  refine .bind_of _ (h.tree.call? n) fun c hc => ?_
  refine .bind_of g rfl fun receiver hr => ?_
  have hra := h.linked.attached_receiver hn hc hr
  obtain ⟨name, _, args⟩ := c
  simp only [Call.rename]
  cases name == "replaceAll" with
  | false => exact .none
  | true =>
    rcases args with _ | ⟨a, _ | ⟨b, _ | ⟨c, cs⟩⟩⟩
    · exact .none
    · exact .none
    · refine .bind_same (by rw [h.tree.stripParens h.linked, h.tree.stringLiteral?]) fun pattern => ?_
      refine .bind_same (by rw [h.tree.stripParens h.linked, h.tree.stringLiteral?]) fun replacement => ?_
      refine .ite (by rw [h.isString hra]) .none (.plan ?_)
      rw [h.tree.span]
      refine .copy h.tree receiver fun r => .copy h.tree a fun x => .copy h.tree b fun y => ?_
      exact .of_agree (make_agree (.methodCall "replace") _ [r] [x, y]) fun call => .replace n call
    · exact .none

theorem stringFromString_mirrored (hn : v.tree.isAttached n = true) :
    Mirrored g (stringFromString.planAt v n) (stringFromString.planAt w (g n)) := by
  rw [stringFromString.planAt, stringFromString.planAt, h.tree.kind, h.tree.list]
  cases v.tree.kind n with
  | newObject =>
    rcases v.tree.list n with _ | ⟨a, _ | ⟨b, bs⟩⟩
    · exact .none
    · refine .ite ?_ (.plan ?_) .none
      · rw [h.tree.stripParens h.linked, h.tree.stringLiteral?, h.isString hn]
      · rw [h.tree.stripParens h.linked]
        exact putAt_keep_conclude h.tree n _
    · exact .none
  | _ => exact .none

end Text

section Wrapper

/-- The boxing with its argument renamed. -/
def renameBoxing (g : NodeId → NodeId) (b : Boxing) : Boxing := { b with argument := g b.argument }

theorem boxingByNew?_renamed : boxingByNew? w (g n) = (boxingByNew? v n).map (renameBoxing g) := by
  rw [boxingByNew?, boxingByNew?, h.tree.kind, h.tree.list, h.tree.slot?]
  cases v.tree.kind n with
  | newObject =>
    rcases v.tree.list n with _ | ⟨a, _ | ⟨b, bs⟩⟩
    · rfl
    · cases v.tree.slot? n 0 with
      | none => rfl
      | some ty =>
        simp only [List.map_cons, List.map_nil, Option.map_some, Option.bind_eq_bind, Option.bind_some,
          h.tree.kind, h.tree.list]
        cases v.tree.kind ty with
        | classType name diamond =>
          cases v.tree.list ty with
          | nil =>
            simp only [List.map_nil, h.wrappedBy?]
            cases v.wrappedBy? ty name <;> rfl
          | cons c cs => rfl
        | _ => rfl
    · rfl
  | _ => rfl

theorem boxingByCall?_renamed : boxingByCall? w (g n) = (boxingByCall? v n).map (renameBoxing g) := by
  rw [boxingByCall?, boxingByCall?, h.tree.call?]
  cases v.tree.call? n with
  | none => rfl
  | some c =>
    obtain ⟨called, receiver, args⟩ := c
    cases receiver with
    | none => rfl
    | some r =>
      simp only [Option.map_some, Option.bind_eq_bind, Option.bind_some, Call.rename, h.tree.kind]
      cases called == "valueOf" with
      | false => rfl
      | true =>
        rcases args with _ | ⟨a, _ | ⟨b, bs⟩⟩
        · rfl
        · cases v.tree.kind r with
          | typeName name =>
            simp only [List.map_cons, List.map_nil, h.wrappedBy?]
            cases v.wrappedBy? r name <;> rfl
          | _ => rfl
        · rfl

theorem boxing?_renamed : boxing? w (g n) = (boxing? v n).map (renameBoxing g) := by
  rw [boxing?, boxing?, boxingByNew?_renamed h, boxingByCall?_renamed h]
  cases boxingByNew? v n <;> rfl

theorem putWrapperCall_mirrored (b : Boxing) (method : String) :
    Mirrored g (some (putWrapperCall v.tree n b method))
      (some (putWrapperCall w.tree (g n) (renameBoxing g b) method)) := by
  refine .plan ?_
  rw [h.tree.span]
  refine .of_agree (make_agree (.typeName b.name) _ [] []) fun cls => ?_
  refine .copy h.tree b.argument fun argument => ?_
  exact .of_agree (make_agree (.methodCall method) _ [cls] [argument]) fun call => .replace n call

theorem primitiveWrapperInstantiation_mirrored :
    Mirrored g (primitiveWrapperInstantiation.planAt v n) (primitiveWrapperInstantiation.planAt w (g n)) := by
  rw [primitiveWrapperInstantiation.planAt, primitiveWrapperInstantiation.planAt, boxingByNew?_renamed h]
  cases boxingByNew? v n with
  | none => exact .none
  | some b => exact putWrapperCall_mirrored h n b "valueOf"

omit h in
/-- What is boxed is an argument. -/
theorem argument_of_boxing {b : Boxing} (hb : boxing? v n = some b) : b.argument ∈ v.tree.list n := by
  rw [boxing?] at hb
  rcases Option.or_eq_some_iff.mp hb with hb | ⟨-, hb⟩
  · rw [boxingByNew?] at hb
    split at hb
    next argument _ hlist =>
      simp only [Option.bind_eq_bind, Option.bind_eq_some_iff] at hb
      obtain ⟨ty, -, hb⟩ := hb
      split at hb
      · obtain ⟨q, -, hb⟩ := Option.bind_eq_some_iff.mp hb
        cases hb
        simp [hlist]
      · cases hb
    · cases hb
  · simp only [boxingByCall?, Option.bind_eq_bind, Option.bind_eq_some_iff] at hb
    obtain ⟨c, hc, r, -, hb⟩ := hb
    split at hb
    next argument _ _ hargs _ =>
      obtain ⟨q, -, hb⟩ := Option.bind_eq_some_iff.mp hb
      cases hb
      simp [(call?_eq_some.mp hc).2.2, hargs]
    · cases hb

theorem boxedPrimitiveToString_mirrored (hn : v.tree.isAttached n = true) :
    Mirrored g (boxedPrimitiveToString.planAt v n) (boxedPrimitiveToString.planAt w (g n)) := by
  refine .bind_of g (h.tree.nullaryCall? n "toString") fun receiver hr => ?_
  rw [h.tree.stripParens h.linked]
  refine .bind_of _ (boxing?_renamed h _) fun b hb => ?_
  have hsa := h.linked.attached_stripParens (h.linked.attached_nullaryCall? hn hr)
  have hba := h.linked.attached_list hsa (argument_of_boxing _ hb)
  exact .ite (by rw [renameBoxing, h.primitive? hba]) (putWrapperCall_mirrored h n b "toString") .none

end Wrapper

section Literal

theorem putLiteral_mirrored (sort : LiteralSort) (text : String) :
    Mirrored g (some (putLiteral v.tree n sort text)) (some (putLiteral w.tree (g n) sort text)) := by
  rw [putLiteral, putLiteral, h.tree.span]
  exact .some ⟨[.new 0], .make _ _ [] [] (.nil : Sparing [] []), fun r hr => .inl hr⟩

theorem longLiteralSuffix_mirrored :
    Mirrored g (longLiteralSuffix.planAt v n) (longLiteralSuffix.planAt w (g n)) := by
  rw [longLiteralSuffix.planAt, longLiteralSuffix.planAt, h.tree.kind]
  split
  next text hk =>
    cases withoutSmallSuffix? text with
    | none => exact .none
    | some digits => exact putLiteral_mirrored h n .long (digits ++ "L")
  · exact .none

theorem numericLiteralUnderscores_mirrored :
    Mirrored g (numericLiteralUnderscores.planAt v n) (numericLiteralUnderscores.planAt w (g n)) := by
  rw [numericLiteralUnderscores.planAt, numericLiteralUnderscores.planAt, h.tree.kind]
  cases v.tree.kind n with
  | literal sort text =>
    refine .ite .rfl ?_ .none
    cases groupDigits? text with
    | none => exact .none
    | some grouped => exact putLiteral_mirrored h n sort grouped
  | _ => exact .none

theorem stringIndexOfChar_mirrored (hn : v.tree.isAttached n = true) :
    Mirrored g (stringIndexOfChar.planAt v n) (stringIndexOfChar.planAt w (g n)) := by
  refine .bind_of _ (h.tree.call? n) fun c hc => ?_
  refine .bind g List.head?_map fun needle => ?_
  refine .bind_of g rfl fun receiver hr => ?_
  refine .bind_same (h.tree.stringLiteral? needle) fun text => ?_
  refine .ite ?_ .none (putLiteral_mirrored h needle .char text)
  rw [h.isString (h.linked.attached_receiver hn hc hr), Call.rename, List.length_map]

end Literal

end TreeTidy.Rules
