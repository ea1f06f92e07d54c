import TreeTidy.Proofs.Tree.Changes
/-!
What a successful edit was: the place where it was made, and the exchange of children there.
-/
namespace TreeTidy.SyntaxTree

variable {t u : SyntaxTree} {n p r : NodeId} {old new anchor first : NodeId} {offset count : Nat}
  {pos : Position} {news : List NodeId}

/-- What becoming the root is: the root before is destroyed. -/
theorem setRoot?_cases (h : t.setRoot? n = .ok u) : t.isDetached n = true ∧
    u = ((t.root.toList.foldl destroy t).withRoot n).bump := by
  unfold setRoot? at h
  split at h
  · cases h
  next hd =>
    refine ⟨by simpa using hd, ?_⟩
    cases hr : t.root <;>
    · rw [hr] at h
      exact (Except.ok.inj h).symm

section

variable (ht : t.Linked)
include ht

/-- Children of an attached node can be exchanged for reusable nodes. -/
theorem Linked.exchange {outs ins moved kept : List NodeId} {slots : List (Option NodeId)}
    {list : List NodeId} (hp : t.isAttached p = true) (hb : (t.children p).Perm (outs ++ kept))
    (ha : ({ t.node p with slots := slots, list := list } : Node).children.Perm (ins ++ kept))
    (hn : ins.Nodup) (hi : ∀ n ∈ ins, t.Reusable outs n) (hm : ∀ n ∈ moved, n ∈ ins)
    (hd : ∀ n ∈ ins, n ∉ moved → t.isDetached n = true) :
    t.Exchange p slots list moved outs ins kept := by
  have ho : ∀ r ∈ outs, t.Child r p := fun r hr => hb.mem_iff.mpr (List.mem_append_left _ hr)
  have hf : t.Freed (moved.foldl SyntaxTree.unlink t) moved p :=
    ht.freed_foldl_unlink hp fun n hx => (hi n (hm n hx)).apart ht hp ho
  have hdet : ∀ c ∈ ins, (moved.foldl SyntaxTree.unlink t).isDetached c = true := by
    intro c hc
    refine isDetached_iff.mpr ⟨(hf.isAlive c).trans (hi c hc).alive, ?_, ?_⟩
    · rw [hf.parent]
      split
      next => rfl
      next hx => exact (isDetached_iff.mp (hd c hc hx)).2.1
    · rw [hf.marks.2.1]
      exact (hi c hc).not_root ht
  refine ⟨hp, hi, hm, hf, attached_alive hf.attached, ?_, ?_, hn, hdet, ?_⟩
  · rwa [children, hf.holder]
  · rwa [hf.holder]
  · intro c hc
    exact hf.linked.not_within_detached hf.attached (hdet c hc)

theorem Linked.exchange_replace (ho : t.isAttached old = true) (hp : t.parent? old = some p)
    (hat : (t.node p).at? pos = some old) (hn : t.Reusable [old] new) :
    t.Exchange p (occupy (t.node p) new pos).slots (occupy (t.node p) new pos).list [new] [old]
      [new] (vacate (t.node p) pos).children := by
  refine ht.exchange (ht.attached_parent ho hp) (Node.perm_vacate hat) ?_ (List.nodup_singleton _)
    ?_ (fun c hc => hc) fun c hc hx => absurd hc hx
  · cases pos <;> exact Node.perm_occupy hat new
  · intro c hc
    rw [List.mem_singleton.mp hc]
    exact hn

/-- What a successful replacement is: a new root, or an exchange at the parent. -/
theorem Linked.replace?_cases (h : t.replace? old new = some u) :
    old ≠ new ∧ t.isAttached old = true ∧ t.Reusable [old] new ∧
    ((t.root = some old ∧ t.parent? old = none ∧
        u = (((t.unlink new).withRoot new).retire old (some new)).bump) ∨
      ∃ p pos, t.parent? old = some p ∧ (t.node p).at? pos = some old ∧
        t.admits p pos (t.kind new) = true ∧
        u = ((t.exchange p (occupy (t.node p) new pos).slots (occupy (t.node p) new pos).list
          [new] [old] [new]).update old fun d => { d with successor := some new }).bump) := by
  unfold replace? at h
  split at h
  · cases h
  next hc =>
    simp only [Bool.or_eq_true, decide_eq_true_eq, Bool.not_eq_true', not_or,
      Bool.not_eq_false] at hc
    obtain ⟨⟨hne, ho⟩, ha⟩ := hc
    split at h
    · cases h
    next hr =>
      have hr : t.Reusable [old] new := by
        simp only [Bool.and_eq_true, Bool.not_eq_true', not_and, Bool.not_eq_false] at hr
        by_cases hd : t.isDetached new = true
        · exact .inl hd
        · exact .inr ⟨old, .head _, ht.isAncestor_iff.mp (hr (by simpa using hd))⟩
      refine ⟨hne, ho, hr, ?_⟩
      split at h
      next hp =>
        refine .inl ⟨?_, hp, (Option.some.inj h).symm⟩
        rcases ht.attached_cases ho with h | ⟨q, hq, -⟩
        · exact h.1
        · rw [hp] at hq
          cases hq
      next p hp =>
        split at h
        · cases h
        next pos hpos =>
          split at h
          · cases h
          next hadm =>
            have hat := (ht.position?_eq_some hp).mp hpos
            have hx := ht.exchange_replace ho hp hat hr
            refine .inr ⟨p, pos, hp, hat, by simpa using hadm, ?_⟩
            have he := hx.foldl_destroy_eq (f := fun d => occupy d new pos)
              (by cases pos <;> rfl)
            simp only [List.foldl_cons, List.foldl_nil] at he
            rw [← Option.some.inj h, SyntaxTree.retire, he]

theorem Linked.replace? (h : t.replace? old new = some u) : u.Linked := by
  obtain ⟨hne, ho, hr, ⟨hroot, hp, rfl⟩ | ⟨p, pos, hp, hat, -, rfl⟩⟩ := ht.replace?_cases h
  · have hd := detached_unlink ht hr.alive (hr.not_root ht)
    have hl := (ht.unlink new).withRoot hd
    refine (hl.retire ?_ ?_ _).bump
    · rw [parent?, node_withRoot]
      exact (parent_unlink ht old).trans (by rw [if_neg hne, hp])
    · exact fun he => hne (Option.some.inj he).symm
  · refine ((ht.exchange_replace ho hp hat hr).linked.update ?_ ?_ ?_ old).bump <;>
      exact fun _ => rfl

/-- Whether the layout lets go of the child at a position. -/
def spare (t : SyntaxTree) (p : NodeId) : Position → Bool
  | .slot i => ((t.kind p).layout.slots[i]?).any SlotSpec.optional
  | .list _ => decide (((t.kind p).layout.list.map ListSpec.least).getD 0 < (t.list p).length)

theorem Linked.exchange_remove (ho : t.isAttached n = true) (hp : t.parent? n = some p)
    (hat : (t.node p).at? pos = some n) :
    t.Exchange p (vacate (t.node p) pos).slots (vacate (t.node p) pos).list [] [n] []
      (vacate (t.node p) pos).children := by
  refine ht.exchange (ht.attached_parent ho hp) (Node.perm_vacate hat) (.refl _) List.nodup_nil ?_
    ?_ ?_ <;> exact fun _ hc => absurd hc List.not_mem_nil

theorem Linked.remove?_cases (h : t.remove? n = some u) : t.isAttached n = true ∧
    ∃ p pos, t.parent? n = some p ∧ (t.node p).at? pos = some n ∧ t.spare p pos = true ∧
      u = (t.exchange p (vacate (t.node p) pos).slots (vacate (t.node p) pos).list [] [n] []).bump := by
  unfold SyntaxTree.remove? at h
  split at h
  · cases h
  next ho =>
    have ho : t.isAttached n = true := by simpa using ho
    refine ⟨ho, ?_⟩
    split at h
    next p pos hp hpos =>
      have hat := (ht.position?_eq_some hp).mp hpos
      have he := (ht.exchange_remove ho hp hat).foldl_destroy_eq (f := fun d => vacate d pos)
        (by cases pos <;> rfl)
      simp only [List.foldl_cons, List.foldl_nil] at he
      have hs : t.spare p pos = true ∧ ((t.update p fun d => vacate d pos).destroy n).bump = u := by
        cases pos <;> simpa [spare] using h
      exact ⟨p, pos, hp, hat, hs.1, by rw [← hs.2, he]⟩
    · cases h

theorem Linked.remove? (h : t.remove? n = some u) : u.Linked := by
  obtain ⟨ho, p, pos, hp, hat, -, rfl⟩ := ht.remove?_cases h
  exact (ht.exchange_remove ho hp hat).linked.bump

theorem Linked.listIndex?_eq_some {i : Nat} : t.listIndex? n = some (p, i) ↔
    t.parent? n = some p ∧ (t.list p)[i]? = some n := by
  unfold listIndex?
  constructor
  · intro h
    split at h
    next q j hq hpos =>
      obtain ⟨rfl, rfl⟩ : q = p ∧ j = i := by simpa using h
      exact ⟨hq, (ht.position?_eq_some hq).mp hpos⟩
    · cases h
  · rintro ⟨hp, hi⟩
    have hpos : t.position? n = some (.list i) := (ht.position?_eq_some hp).mpr hi
    rw [hp, hpos]

theorem Linked.exchange_insert {i : Nat} (ha : t.isAttached anchor = true)
    (hd : t.isDetached new = true) (hp : t.parent? anchor = some p)
    (hi : (t.list p)[i]? = some anchor) (ho : offset ≤ 1) :
    t.Exchange p (t.node p).slots ((t.list p).insertIdx (i + offset) new) [] [] [new]
      (t.children p) := by
  have hlt : i < (t.list p).length := (List.getElem?_eq_some_iff.mp hi).1
  refine ht.exchange (ht.attached_parent ha hp) (.refl _) ?_ (List.nodup_singleton _) ?_ ?_ ?_
  · refine ((List.perm_insertIdx new (t.list p) (by omega)).append_left _).trans ?_
    exact List.perm_middle
  · intro c hc
    rw [List.mem_singleton.mp hc]
    exact .inl hd
  · exact fun _ hc => absurd hc List.not_mem_nil
  · intro c hc _
    rw [List.mem_singleton.mp hc]
    exact hd

theorem Linked.insertAt?_cases (h : t.insertAt? anchor new offset = some u) (hoff : offset ≤ 1) :
    t.isAttached anchor = true ∧ t.isDetached new = true ∧
    ∃ p i, t.parent? anchor = some p ∧ (t.list p)[i]? = some anchor ∧
      t.admits p (.list i) (t.kind new) = true ∧
      u = (t.exchange p (t.node p).slots ((t.list p).insertIdx (i + offset) new) [] [] [new]).bump := by
  unfold insertAt? at h
  split at h
  · cases h
  next hc =>
    simp only [Bool.or_eq_true, Bool.not_eq_true', not_or, Bool.not_eq_false] at hc
    refine ⟨hc.1, hc.2, ?_⟩
    split at h
    · cases h
    next p i hli =>
      obtain ⟨hp, hi⟩ := ht.listIndex?_eq_some.mp hli
      split at h
      · cases h
      next hadm =>
        have he := (ht.exchange_insert hc.1 hc.2 hp hi hoff).foldl_destroy_eq
          (f := fun d => { d with list := d.list.insertIdx (i + offset) new }) rfl
        simp only [List.foldl_cons, List.foldl_nil] at he
        exact ⟨p, i, hp, hi, by simpa using hadm, by rw [← Option.some.inj h, he]⟩

theorem Linked.insertAt? (h : t.insertAt? anchor new offset = some u) (hoff : offset ≤ 1) :
    u.Linked := by
  obtain ⟨ha, hd, p, i, hp, hi, -, rfl⟩ := ht.insertAt?_cases h hoff
  exact (ht.exchange_insert ha hd hp hi hoff).linked.bump

theorem Linked.window?_eq_some {removed : List NodeId} : t.window? n count = some removed ↔
    ∃ p i, t.parent? n = some p ∧ (t.list p)[i]? = some n ∧ i + count ≤ (t.list p).length ∧
      removed = ((t.list p).drop i).take count := by
  unfold SyntaxTree.window?
  constructor
  · intro h
    split at h
    next p i hli =>
      obtain ⟨hp, hi⟩ := ht.listIndex?_eq_some.mp hli
      have hlt : i < (t.list p).length := (List.getElem?_eq_some_iff.mp hi).1
      dsimp only at h
      split at h
      next hl =>
        rw [List.length_take, List.length_drop] at hl
        exact ⟨p, i, hp, hi, by omega, (Option.some.inj h).symm⟩
      · cases h
    · cases h
  · rintro ⟨p, i, hp, hi, hl, rfl⟩
    have hlen : (((t.list p).drop i).take count).length = count := by
      rw [List.length_take, List.length_drop]
      omega
    simp only [ht.listIndex?_eq_some.mpr ⟨hp, hi⟩, if_pos hlen]

theorem Linked.canSplice_iff {removed : List NodeId} {c : SlotClass} :
    t.canSplice removed c n = true ↔
      n ∉ removed ∧ t.Reusable removed n ∧ c.accepts (t.kind n) = true := by
  simp only [canSplice, Bool.and_eq_true, Bool.not_eq_true', Bool.or_eq_true, List.any_eq_true,
    ht.isAncestor_iff, List.contains_eq_mem, decide_eq_false_iff_not, Reusable]
  constructor
  · rintro ⟨⟨⟨-, hn⟩, hr⟩, hc⟩
    exact ⟨hn, hr, hc⟩
  · rintro ⟨hn, hr, hc⟩
    exact ⟨⟨⟨Reusable.alive hr, hn⟩, hr⟩, hc⟩

theorem Linked.exchange_splice {i : Nat} (ha : t.isAttached first = true)
    (hp : t.parent? first = some p) (hn : news.Nodup)
    (hr : ∀ n ∈ news, t.Reusable (((t.list p).drop i).take count) n) :
    t.Exchange p (t.node p).slots ((t.list p).take i ++ news ++ (t.list p).drop (i + count))
      (news.filter fun n => !t.isDetached n) (((t.list p).drop i).take count) news
      ((t.node p).slots.filterMap (fun o => o) ++
        ((t.list p).take i ++ (t.list p).drop (i + count))) := by
  have hsplit : t.list p = (t.list p).take i ++
      (((t.list p).drop i).take count ++ (t.list p).drop (i + count)) := by
    rw [← List.drop_drop, List.take_append_drop, List.take_append_drop]
  -- the children in the middle of the list come first
  have hmid : ∀ (ss xs ms ys : List NodeId),
      (ss ++ (xs ++ (ms ++ ys))).Perm (ms ++ (ss ++ (xs ++ ys))) := by
    intro ss xs ms ys
    have h : (ss ++ xs ++ ms).Perm (ms ++ (ss ++ xs)) := List.perm_append_comm
    simpa using h.append_right ys
  refine ht.exchange (ht.attached_parent ha hp) ?_ ?_ hn hr (fun n hm => (List.mem_filter.mp hm).1)
    ?_
  · have h := hmid ((t.node p).slots.filterMap fun o => o) ((t.list p).take i)
      (((t.list p).drop i).take count) ((t.list p).drop (i + count))
    rw [← hsplit] at h
    exact h
  · have h := hmid ((t.node p).slots.filterMap fun o => o) ((t.list p).take i) news
      ((t.list p).drop (i + count))
    rw [← List.append_assoc ((t.list p).take i)] at h
    exact h
  · intro n hm hx
    by_contra hd
    exact hx (List.mem_filter.mpr ⟨hm, by simpa using hd⟩)

theorem Linked.splice?_cases (h : t.splice? first count news = some u) :
    0 < count ∧ t.isAttached first = true ∧
    ∃ p i spec, t.parent? first = some p ∧ (t.list p)[i]? = some first ∧
      i + count ≤ (t.list p).length ∧ (t.kind p).layout.list = some spec ∧
      spec.least ≤ (t.list p).length - count + news.length ∧ news.Nodup ∧
      (∀ n ∈ news, n ∉ ((t.list p).drop i).take count ∧
        t.Reusable (((t.list p).drop i).take count) n ∧ spec.admits.accepts (t.kind n) = true) ∧
      u = ((t.exchange p (t.node p).slots
          ((t.list p).take i ++ news ++ (t.list p).drop (i + count))
          (news.filter fun n => !t.isDetached n) (((t.list p).drop i).take count) news).update first
        fun d => { d with successor := news.head?.or d.successor }).bump := by
  unfold SyntaxTree.splice? at h
  split at h
  · cases h
  next hc =>
    simp only [Bool.or_eq_true, decide_eq_true_eq, Bool.not_eq_true', not_or,
      Bool.not_eq_false] at hc
    refine ⟨Nat.pos_of_ne_zero hc.1, hc.2, ?_⟩
    split at h
    next p i removed hli hw =>
      obtain ⟨hp, hi⟩ := ht.listIndex?_eq_some.mp hli
      obtain ⟨q, j, hq, hj, hl, rfl⟩ := ht.window?_eq_some.mp hw
      have hqj := ht.listIndex?_eq_some.mpr ⟨hq, hj⟩
      obtain ⟨rfl, rfl⟩ : p = q ∧ i = j := by simpa [hli] using hqj
      split at h
      · cases h
      next spec hspec =>
        split at h
        · cases h
        next hlen =>
          split at h
          · cases h
          next hs =>
            simp only [Bool.or_eq_true, Bool.not_eq_true', not_or, Bool.not_eq_false,
              decide_eq_true_eq, List.all_eq_true, ht.canSplice_iff] at hs
            have hx := ht.exchange_splice hc.2 hp hs.1 fun n hn => (hs.2 n hn).2.1
            have he := hx.foldl_destroy_eq (f := fun d => { d with
              list := d.list.take i ++ news ++ d.list.drop (i + count) }) rfl
            refine ⟨p, i, spec, hp, hi, hl, hspec, Nat.not_lt.mp hlen, hs.1, hs.2, ?_⟩
            rw [← Option.some.inj h, ← he]
    · cases h

theorem Linked.splice? (h : t.splice? first count news = some u) : u.Linked := by
  obtain ⟨-, ha, p, i, spec, hp, -, -, -, -, hn, hr, rfl⟩ := ht.splice?_cases h
  refine ((ht.exchange_splice ha hp hn fun n hm => (hr n hm).2.1).linked.update ?_ ?_ ?_ first).bump
    <;> exact fun _ => rfl

end

end TreeTidy.SyntaxTree
