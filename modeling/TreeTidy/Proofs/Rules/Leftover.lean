import TreeTidy.Proofs.Rules.Descends
import TreeTidy.Rules.Leftover
/-!
The rules that take nodes away. They do so in lists, where every node may go; only an import can be
the root of a tree and yet be taken for needless, and such a tree keeps it.
-/
namespace TreeTidy.Rules

open SyntaxTree

variable {v : View} {t : SyntaxTree} {n p : NodeId} {k c : NodeKind} {pos : Position}
  {path : String} {isStatic wildcard : Bool}

/-- A kind that no slot of the parent admits is in its list. -/
theorem exists_list_of_admits (hs : k.layout.slots.all (fun s => !s.admits.accepts c) = true)
    (h : k.admits pos c = true) : ∃ i, pos = .list i := by
  cases pos with
  | list i => exact ⟨i, rfl⟩
  | slot i =>
    obtain ⟨s, hi, ha⟩ := NodeKind.admits_slot.mp h
    have hn := List.all_eq_true.mp hs s (List.mem_of_getElem? hi)
    rw [ha] at hn
    cases hn

section

variable (ht : t.Linked) (hl : t.Laid) (hn : t.isAttached n = true)
include ht hl hn

theorem takeAway_rewrites {i : Nat} (hp : t.parent? n = some p) (hi : (t.list p)[i]? = some n)
    (hw : 0 < (t.kind n).weight) : (takeAway n).Rewrites t :=
  remove_rewrites ht hl hn hp hi (Nat.lt_of_lt_of_le hw (hl.kind_weight_le ht hn))

/-- A node of a kind that slots never hold can be taken away, wherever it is. -/
theorem takeAway_rewrites_of_unslotted (hp : t.parent? n = some p) (hw : 0 < (t.kind n).weight)
    (hs : ∀ k : NodeKind, k.layout.slots.all (fun s => !s.admits.accepts (t.kind n)) = true) :
    (takeAway n).Rewrites t := by
  obtain ⟨pos, -, hat⟩ := ht.exists_position hp
  obtain ⟨i, rfl⟩ := exists_list_of_admits (hs _) (hl.admits ht (ht.attached_parent hn hp) hat)
  exact takeAway_rewrites ht hl hn hp hat hw

end

theorem emptyStatement_descends : Descends emptyStatement.planAt := by
  intro v n p ht hl hn h
  simp only [emptyStatement.planAt] at h
  split at h
  next hc =>
    obtain rfl := Option.some.inj h
    simp only [Bool.and_eq_true, Option.any_eq_true_iff_get] at hc
    obtain ⟨hk, hsome, hpk⟩ := hc
    obtain ⟨q, hq⟩ := Option.isSome_iff_exists.mp hsome
    simp only [hq, Option.get_some] at hpk
    have hqa := ht.attached_parent hn hq
    obtain ⟨pos, -, hat⟩ := ht.exists_position hq
    cases pos with
    | slot i =>
      -- a block has no slots
      have ha := hl.admits ht hqa hat
      rw [eq_of_beq hpk] at ha
      obtain ⟨s, hs, -⟩ := NodeKind.admits_slot.mp ha
      cases hs
    | list i => exact takeAway_rewrites ht hl hn hq hat (by rw [eq_of_beq hk]; exact Nat.one_pos)
  · cases h

theorem removeExplicitSuperCall_descends : Descends removeExplicitSuperCall.planAt := by
  intro v n p ht hl hn h
  simp only [removeExplicitSuperCall.planAt] at h
  split at h
  · cases h
  next hc =>
    simp only [Option.bind_eq_bind, Option.bind_eq_some_iff] at h
    obtain ⟨body, hb, h⟩ := h
    split at h
    next hhead =>
      obtain rfl := Option.some.inj h
      simp only [Bool.or_eq_true, decide_eq_true_eq, not_or, not_not] at hc
      simp only [Bool.and_eq_true, decide_eq_true_eq] at hhead
      refine takeAway_rewrites ht hl hn (i := 0) hb ?_ (by rw [hc.1]; exact Nat.one_pos)
      rw [← List.head?_eq_getElem?]
      exact hhead.1
    · cases h

theorem unnecessaryModifier_descends : Descends unnecessaryModifier.planAt := by
  intro v n p ht hl hn h
  simp only [unnecessaryModifier.planAt] at h
  split at h
  next m q member owner rest hk hanc =>
    split at h
    · obtain rfl := Option.some.inj h
      cases hp : v.tree.parent? n with
      | none =>
        rw [Linked.ancestors_of_root hp] at hanc
        cases hanc
      | some q =>
        apply takeAway_rewrites_of_unslotted ht hl hn hp (by rw [hk]; exact Nat.one_pos)
        intro k
        rw [hk]
        cases k <;> rfl
    · cases h
  · cases h

section Imports

/-- The plan of the rule is to take away an import. -/
theorem unnecessaryImport_plan {q : Plan} (h : unnecessaryImport.planAt v n = some q) :
    q = takeAway n ∧ ∃ path isStatic wildcard, v.tree.kind n = .importDecl path isStatic wildcard ∧
      (isDuplicate v.tree n || (!isStatic && isImplicitImport v.tree n path wildcard)) = true := by
  simp only [unnecessaryImport.planAt] at h
  split at h
  next path isStatic wildcard hk =>
    split at h
    next hc => exact ⟨(Option.some.inj h).symm, path, isStatic, wildcard, hk, hc⟩
    · cases h
  · cases h

theorem unnecessaryImport_rewrites {q : Plan} (ht : v.tree.Linked) (hl : v.tree.Laid)
    (hn : v.tree.isAttached n = true) (hp : v.tree.parent? n = some p)
    (h : unnecessaryImport.planAt v n = some q) : q.Rewrites v.tree := by
  obtain ⟨rfl, path, isStatic, wildcard, hk, -⟩ := unnecessaryImport_plan h
  apply takeAway_rewrites_of_unslotted ht hl hn hp (by rw [hk]; exact Nat.one_pos)
  intro k
  rw [hk]
  cases k <;> rfl

/-- Where nothing can be taken away, the rule reports that and leaves the tree as it is. -/
theorem runFrom_takeAway_of_none (h : t.remove? n = none) (x : Edit.Setting) (es : List Event) :
    (takeAway n).perform.runFrom x t es =
      ⟨.ok false, t, es ++ [⟨x.pass, some x.rule, some n, t.span n, .rejected "remove"⟩]⟩ := by
  have hc : (Commit.change [] (.remove n)).appliedTo? t = none := h
  rw [Plan.perform, Edit.runFrom_andThen]
  simp only [takeAway, Step.performAll, Edit.runFrom, hc]
  rfl

/-- What no node holds cannot be taken away. -/
theorem runFrom_takeAway_of_root (hp : t.parent? n = none) (x : Edit.Setting) (es : List Event) :
    (takeAway n).perform.runFrom x t es =
      ⟨.ok false, t, es ++ [⟨x.pass, some x.rule, some n, t.span n, .rejected "remove"⟩]⟩ := by
  have hnone : t.remove? n = none := by
    unfold remove?
    rw [hp]
    split <;> rfl
  exact runFrom_takeAway_of_none hnone x es

/-- An import of what the package `java.lang` holds, which no unit has to state. -/
def isLanguageImport : NodeKind → Bool
  | .importDecl path isStatic wildcard =>
    !isStatic && (if wildcard then path else (Name.qualifier? path).getD "") == "java.lang"
  | _ => false

/-- At the root, the rule has a plan for such imports only. -/
theorem unnecessaryImport_isSome_of_root (hp : v.tree.parent? n = none) :
    (unnecessaryImport.planAt v n).isSome = isLanguageImport (v.tree.kind n) := by
  have hs : siblings v.tree n = [] := by
    rw [siblings, hp]
    rfl
  have hd : isDuplicate v.tree n = false := by
    rw [isDuplicate, hs]
    rfl
  simp only [unnecessaryImport.planAt]
  split
  next path isStatic wildcard hk =>
    have hi : isImplicitImport v.tree n path wildcard =
        ((if wildcard then path else (Name.qualifier? path).getD "") == "java.lang") := by
      simp [isImplicitImport, hasForeignWildcard, hs, Linked.ancestors_of_root hp]
    rw [hd, hi, hk, isLanguageImport, Bool.false_or]
    generalize (!isStatic && _) = implied
    cases implied <;> rfl
  next h =>
    cases hk : v.tree.kind n with
    | importDecl path isStatic wildcard => exact absurd hk (h path isStatic wildcard)
    | _ => rfl

end Imports

end TreeTidy.Rules
