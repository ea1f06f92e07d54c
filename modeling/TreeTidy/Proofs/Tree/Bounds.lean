import Mathlib.Data.Finset.Card
import Mathlib.Data.Finset.Range
import Mathlib.Order.Interval.Finset.Nat
import TreeTidy.Proofs.Tree.Linked
/-!
Walks in any tree, whether its links agree or not. A walk that gets to a node at all gets there on a way
that meets no node twice; so fuel for all nodes is as good as any amount of fuel.
-/
namespace TreeTidy.SyntaxTree

variable {t : SyntaxTree} {c m n : NodeId} {f g : Nat}

section Fuel

variable {D : Nat → Nat → Prop} {s : Nat}

/-- If what is reached with fuel is reached with more, and every step of it is at one of `s` nodes, then
fuel for all of these is enough: with less for each node, two of them were the same one. -/
theorem reached_of_fuel (hmore : ∀ {f x}, D f x → D (f + 1) x)
    (hstep : ∀ {f x}, D (f + 2) x → ¬ D (f + 1) x → x < s ∧ ∃ y, D (f + 1) y ∧ ¬ D f y)
    {x : Nat} (h : D f x) : D (s + 1) x := by
  have hmono : ∀ {f g x}, f ≤ g → D f x → D g x := fun hle hx => Nat.le_induction hx
    (fun _ _ => hmore) _ hle
  -- with the least fuel for a node, every lesser amount is the least one for some node
  have hlevel : ∀ k v x, D (v + 1 + k + 1) x → ¬ D (v + 1 + k) x →
      ∃ y < s, D (v + 2) y ∧ ¬ D (v + 1) y := by
    intro k v
    induction k with
    | zero => exact fun x hx hn => ⟨x, (hstep hx hn).1, hx, hn⟩
    | succ k ih =>
      intro x hx hn
      obtain ⟨y, hy, hny⟩ := (hstep hx hn).2
      exact ih y hy hny
  by_contra hn
  obtain ⟨d, hd, hx, hnx⟩ : ∃ d, s < d ∧ D (d + 1) x ∧ ¬ D d x := by
    classical
    have hfind : ∃ f, D f x := ⟨f, h⟩
    have hlt : s + 1 < Nat.find hfind := by
      by_contra hle
      exact hn (hmono (Nat.not_lt.mp hle) (Nat.find_spec hfind))
    refine ⟨Nat.find hfind - 1, by omega, ?_, Nat.find_min hfind (by omega)⟩
    rw [Nat.sub_add_cancel (by omega)]
    exact Nat.find_spec hfind
  have hall : ∀ v, ∃ y, v < d → y < s ∧ D (v + 2) y ∧ ¬ D (v + 1) y := by
    intro v
    by_cases hv : v < d
    · obtain ⟨k, rfl⟩ : ∃ k, d = v + 1 + k := ⟨d - (v + 1), by omega⟩
      obtain ⟨y, hy⟩ := hlevel k v x hx hnx
      exact ⟨y, fun _ => hy⟩
    · exact ⟨0, fun h => absurd h hv⟩
  choose node hnode using hall
  have hmaps : ∀ v ∈ Finset.range d, node v ∈ Finset.range s := fun v hv =>
    Finset.mem_range.mpr (hnode v (Finset.mem_range.mp hv)).1
  have hcard : (Finset.range s).card < (Finset.range d).card := by simpa using hd
  obtain ⟨v, hv, w, hw, hne, heq⟩ := Finset.exists_ne_map_eq_of_card_lt_of_maps_to hcard hmaps
  have key : ∀ {v w}, v < d → w < d → node v = node w → ¬ v < w := fun hv hw he hlt =>
    (hnode _ hw).2.2 (hmono (Nat.succ_le_succ hlt) (he ▸ (hnode _ hv).2.1))
  rw [Finset.mem_range] at hv hw
  rcases Nat.lt_or_gt_of_ne hne with hlt | hlt
  · exact key hv hw heq hlt
  · exact key hw hv heq.symm hlt

end Fuel

theorem lt_of_successor (h : (t.node n).successor = some m) : n < t.size := by
  by_contra hn
  rw [node_of_size_le (Nat.not_lt.mp hn)] at h
  cases h

theorem lt_of_child (h : t.Child c n) : n < t.size := by
  by_contra hn
  rw [Child, children, node_of_size_le (Nat.not_lt.mp hn)] at h
  cases h

theorem successorWithin_alive (h : t.isAlive n = true) : t.successorWithin (f + 1) n = some n := by
  rw [successorWithin, if_pos h]

theorem successorWithin_dead (h : t.isAlive n = false) :
    t.successorWithin (f + 1) n = (t.node n).successor.bind (t.successorWithin f) := by
  rw [successorWithin, h]
  cases (t.node n).successor <;> rfl

theorem successorWithin_more (h : t.successorWithin f n = some m) :
    t.successorWithin (f + 1) n = some m := by
  induction f generalizing n with
  | zero => cases h
  | succ f ih =>
    cases ha : t.isAlive n with
    | true =>
      rw [successorWithin_alive ha] at h ⊢
      exact h
    | false =>
      rw [successorWithin_dead ha] at h ⊢
      obtain ⟨c, hc, hm⟩ := Option.bind_eq_some_iff.mp h
      rw [hc, Option.bind_some, ih hm]

/-- The chain of successors ends within fuel for all nodes, or never does. -/
theorem successorWithin_eq (hf : t.size < f) : t.successorWithin f n = t.successor? n := by
  have hstep : ∀ {m f n}, t.successorWithin (f + 2) n = some m →
      ¬ t.successorWithin (f + 1) n = some m → n < t.size ∧
      ∃ c, t.successorWithin (f + 1) c = some m ∧ ¬ t.successorWithin f c = some m := by
    intro m f n h hn
    cases ha : t.isAlive n with
    | true =>
      rw [successorWithin_alive ha] at h hn
      exact absurd h hn
    | false =>
      rw [successorWithin_dead ha] at h hn
      obtain ⟨c, hc, hm⟩ := Option.bind_eq_some_iff.mp h
      rw [hc, Option.bind_some] at hn
      exact ⟨lt_of_successor hc, c, hm, hn⟩
  have hmono : ∀ {m}, t.successor? n = some m → t.successorWithin f n = some m := fun h =>
    Nat.le_induction h (fun _ _ => successorWithin_more) f hf
  cases hs : t.successorWithin f n with
  | some m => exact (reached_of_fuel (D := fun f n => t.successorWithin f n = some m)
      successorWithin_more hstep hs).symm
  | none =>
    cases ht : t.successor? n with
    | none => rfl
    | some m => rw [hmono ht] at hs; cases hs

theorem mem_descendantsWithin_succ : m ∈ t.descendantsWithin (f + 1) n ↔
    m = n ∨ ∃ c, t.Child c n ∧ m ∈ t.descendantsWithin f c := by
  rw [descendantsWithin, List.mem_cons, List.mem_flatMap]
  rfl

theorem mem_descendantsWithin_more (h : m ∈ t.descendantsWithin f n) :
    m ∈ t.descendantsWithin (f + 1) n := by
  induction f generalizing n with
  | zero => cases h
  | succ f ih =>
    rw [mem_descendantsWithin_succ] at h ⊢
    exact h.imp_right fun ⟨c, hc, hm⟩ => ⟨c, hc, ih hm⟩

theorem within_of_mem_descendantsWithin (h : m ∈ t.descendantsWithin f n) : t.Within m n := by
  induction f generalizing n with
  | zero => cases h
  | succ f ih =>
    rcases mem_descendantsWithin_succ.mp h with rfl | ⟨c, hc, hm⟩
    · exact .refl
    · exact (ih hm).tail hc

/-- What is found below a node with fuel for all nodes is what there is below it. -/
theorem mem_descendants_iff : m ∈ t.descendants n ↔ t.Within m n := by
  refine ⟨within_of_mem_descendantsWithin, fun h => ?_⟩
  have hfuel : ∃ f, m ∈ t.descendantsWithin f n := by
    induction h with
    | refl => exact ⟨1, mem_descendantsWithin_succ.mpr (.inl rfl)⟩
    | tail _ hc ih =>
      obtain ⟨f, hm⟩ := ih
      exact ⟨f + 1, mem_descendantsWithin_succ.mpr (.inr ⟨_, hc, hm⟩)⟩
  obtain ⟨f, hm⟩ := hfuel
  refine reached_of_fuel (D := fun f n => m ∈ t.descendantsWithin f n)
    mem_descendantsWithin_more ?_ hm
  intro f n h hn
  rw [mem_descendantsWithin_succ] at h hn
  obtain ⟨hne, hnone⟩ := not_or.mp hn
  obtain ⟨c, hc, hm⟩ := h.resolve_left hne
  exact ⟨lt_of_child hc, c, hm, fun hm' => hnone ⟨c, hc, hm'⟩⟩

end TreeTidy.SyntaxTree
