import Mathlib.Data.List.TakeWhile
import TreeTidy.Proofs.Rules.Descends
import TreeTidy.Rules.Literal
/-! The rules on literals lead downwards: what they respell is not respelled again. -/
namespace TreeTidy.Rules

open SyntaxTree Draft

section Numerals

variable {text grouped digits : String} {ds : List Char}

theorem withoutSmallSuffix?_isSome :
    (withoutSmallSuffix? text).isSome = true ↔ text.toList.getLast? = some 'l' := by
  rw [List.getLast?_eq_head?_reverse, withoutSmallSuffix?]
  split
  next rest h => simp [h]
  next h =>
    refine ⟨fun hn => absurd hn (by simp), ?_⟩
    intro hh
    obtain ⟨rest, hr⟩ := List.head?_eq_some_iff.mp hh
    exact absurd hr (h rest)

/-- With a large suffix, a numeral is lighter. -/
theorem numeralWeight_suffix (h : withoutSmallSuffix? text = some digits) :
    numeralWeight (digits ++ "L") < numeralWeight text := by
  have hs : (withoutSmallSuffix? (digits ++ "L")).isSome = false := by
    apply Bool.eq_false_iff.mpr
    intro hs
    rw [withoutSmallSuffix?_isSome] at hs
    simp at hs
  rw [numeralWeight, numeralWeight, hs, h, Option.isSome_some, if_pos rfl, if_neg Bool.false_ne_true]
  split <;> omega

theorem mem_groupInThrees {c : Char} (h : c ∈ groupInThrees ds) : c = '_' ∨ c ∈ ds := by
  induction ds using groupInThrees.induct with
  | case1 => exact .inr h
  | case2 d => exact .inr h
  | case3 d e cs hc ih =>
    rw [groupInThrees, if_pos hc, List.mem_cons, List.mem_cons] at h
    rcases h with rfl | rfl | h
    · exact .inr (.head _)
    · exact .inl rfl
    · exact (ih h).imp_right (.tail _)
  | case4 d e cs hc ih =>
    rw [groupInThrees, if_neg hc, List.mem_cons] at h
    rcases h with rfl | h
    · exact .inr (.head _)
    · exact (ih h).imp_right (.tail _)

/-- Among four digits or more there is an underscore. -/
theorem underscore_mem_groupInThrees (h : 4 ≤ ds.length) : '_' ∈ groupInThrees ds := by
  induction ds using groupInThrees.induct with
  | case1 => simp at h
  | case2 d => simp at h
  | case3 d e cs hc ih =>
    rw [groupInThrees, if_pos hc]
    exact .tail _ (.head _)
  | case4 d e cs hc ih =>
    rw [groupInThrees, if_neg hc]
    have hlen : 4 ≤ (e :: cs).length := by
      simp only [List.length_cons] at h ⊢
      omega
    exact .tail _ (ih hlen)

theorem mem_dropWhile {p : Char → Bool} {c : Char} (h : c ∈ ds) (hp : p c = false) :
    c ∈ ds.dropWhile p := by
  rw [← List.takeWhile_append_dropWhile (p := p) (l := ds), List.mem_append] at h
  rcases h with h | h
  · rw [List.mem_takeWhile_imp h] at hp
    cases hp
  · exact h

theorem groupDigits?_eq_some (h : groupDigits? text = some grouped) :
    ∃ ds suffix, text.toList = ds ++ suffix ∧ grouped.toList = groupInThrees ds ++ suffix ∧
      (∀ c ∈ ds, c.isDigit = true) ∧ 5 ≤ ds.length ∧
        (suffix = [] ∨ suffix = ['l'] ∨ suffix = ['L']) := by
  unfold groupDigits? at h
  dsimp only at h
  split at h
  · cases h
  next hc =>
    refine ⟨_, _, List.takeWhile_append_dropWhile.symm, ?_, fun c => List.mem_takeWhile_imp, ?_, ?_⟩
    · rw [← Option.some.inj h, String.toList_ofList]
    · exact Nat.not_lt.mp fun hl => hc (.inr (.inl hl))
    · by_contra hs
      simp only [not_or] at hs
      exact hc (.inl hs)

/-- Digits in groups are not grouped again. -/
theorem groupDigits?_grouped (h : groupDigits? text = some grouped) : groupDigits? grouped = none := by
  obtain ⟨ds, suffix, -, hg, -, hlen, -⟩ := groupDigits?_eq_some h
  have hu : '_' ∈ grouped.toList.dropWhile Char.isDigit := by
    refine mem_dropWhile ?_ (by decide)
    rw [hg]
    exact List.mem_append_left _ (underscore_mem_groupInThrees (by omega))
  unfold groupDigits?
  refine if_pos (.inl ⟨?_, ?_, ?_⟩) <;> intro he <;> rw [he] at hu <;> simp at hu

theorem withoutSmallSuffix?_grouped (h : groupDigits? text = some grouped)
    (hs : (withoutSmallSuffix? grouped).isSome = true) : (withoutSmallSuffix? text).isSome = true := by
  obtain ⟨ds, suffix, ht, hg, hd, -, hsuf⟩ := groupDigits?_eq_some h
  rw [withoutSmallSuffix?_isSome, hg, List.getLast?_append] at hs
  rw [withoutSmallSuffix?_isSome, ht, List.getLast?_append]
  rcases hsuf with rfl | rfl | rfl
  · have hm := List.mem_of_getLast? (by simpa using hs : (groupInThrees ds).getLast? = some 'l')
    rcases mem_groupInThrees hm with he | hm
    · cases he
    · exact absurd (hd _ hm) (by decide)
  · rfl
  · cases hs

theorem numeralWeight_grouped (h : groupDigits? text = some grouped) :
    numeralWeight grouped < numeralWeight text := by
  rw [numeralWeight, numeralWeight, groupDigits?_grouped h, h, Option.isSome_some, Option.isSome_none,
    if_pos rfl, if_neg Bool.false_ne_true]
  cases hg : (withoutSmallSuffix? grouped).isSome with
  | true =>
    rw [withoutSmallSuffix?_grouped h hg]
    exact Nat.lt_succ_self _
  | false =>
    rw [if_neg Bool.false_ne_true]
    split <;> omega

end Numerals

theorem putLiteral_rewrites {t : SyntaxTree} {n : NodeId} {sort : LiteralSort} {text : String}
    (ht : t.Linked) (hl : t.Laid) (hn : t.isAttached n = true) (hx : (t.kind n).isValue = true)
    (hw : NodeKind.weight (.literal sort text) < t.weight n) : (putLiteral t n sort text).Rewrites t := by
  have hD : (Doc.make (.literal sort text) (t.span n) [] []).Expr t := .leaf (.own hn) rfl rfl rfl
  refine Ends.expr_rewrites (d := make (.literal sort text) (t.span n) [] [] >>= fun q =>
    pure (.replace n q.ref)) ht hl hn ?_ hD rfl hx ?_
  · exact Ends.of_yields (make_yields [] [] hD.conforms.fits) fun q => Ends.pure (.replace n) q _
  · simpa [Doc.weight_make, Doc.slotsWeight] using hw

theorem longLiteralSuffix_descends : Descends longLiteralSuffix.planAt := by
  intro v n p ht hl hn h
  simp only [longLiteralSuffix.planAt] at h
  split at h
  next text hk =>
    obtain ⟨digits, hd, rfl⟩ := Option.map_eq_some_iff.mp h
    apply putLiteral_rewrites ht hl hn (by rw [hk]; rfl)
    rw [hl.weight_leaf ht hn (by rw [hk]; rfl), hk]
    exact numeralWeight_suffix hd
  · cases h

theorem numericLiteralUnderscores_descends : Descends numericLiteralUnderscores.planAt := by
  intro v n p ht hl hn h
  simp only [numericLiteralUnderscores.planAt] at h
  split at h
  next sort text hk =>
    split at h
    next hs =>
      obtain ⟨grouped, hg, rfl⟩ := Option.map_eq_some_iff.mp h
      apply putLiteral_rewrites ht hl hn (by rw [hk]; rfl)
      rw [hl.weight_leaf ht hn (by rw [hk]; rfl), hk]
      rcases Bool.or_eq_true_iff.mp hs with hs | hs <;> obtain rfl := eq_of_beq hs <;>
        exact numeralWeight_grouped hg
    · cases h
  · cases h

theorem stringIndexOfChar_descends : Descends stringIndexOfChar.planAt := by
  intro v n p ht hl hn h
  simp only [stringIndexOfChar.planAt, Option.bind_eq_bind, Option.bind_eq_some_iff] at h
  obtain ⟨c, hc, needle, hneedle, r, hr, text, htext, h⟩ := h
  split at h
  · cases h
  · obtain rfl := Option.some.inj h
    obtain ⟨hk, -, hlist⟩ := call?_eq_some.mp hc
    have hm : needle ∈ v.tree.list n := hlist ▸ List.mem_of_head? hneedle
    have hN := hl.subExpr_list ht hn .refl (by rw [hk]; rfl) hm
    have hna := hN.attached ht hn
    have hkn := stringLiteral?_eq_some.mp htext
    apply putLiteral_rewrites ht hl hna (by rw [hkn]; rfl)
    rw [hl.weight_leaf ht hna (by rw [hkn]; rfl), hkn]
    exact Nat.lt_succ_self 2

end TreeTidy.Rules
