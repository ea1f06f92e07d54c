import TreeTidy.Proofs.Resolve.Cache
import TreeTidy.Proofs.Rules.Comparison
import TreeTidy.Rules.Binding
import TreeTidy.Rules.Shape
/-!
Shapes in trees that are the same under a renaming. What is found in one is found in the other, under the
new names; and what a rule asks the resolver has the same answers.
-/
namespace TreeTidy

/-- The call with its nodes renamed. -/
def Call.rename (g : NodeId → NodeId) (c : Call) : Call :=
  { c with receiver := c.receiver.map g, args := c.args.map g }

theorem Call.isOf_rename (g : NodeId → NodeId) (c : Call) (name : String) (arity : Nat) :
    (c.rename g).isOf name arity = c.isOf name arity := by
  rw [isOf, isOf, rename, List.length_map]

namespace SyntaxTree

section Strip

variable {t : SyntaxTree} {f : Nat} {c n : NodeId}

theorem stripWithin_of_paren (hk : t.kind n = .paren) (hc : t.slot? n 0 = some c) :
    t.stripWithin (f + 1) n = t.stripWithin f c := by rw [stripWithin, hk, hc]

theorem stripWithin_of_bare (h : ∀ c, t.kind n = .paren → t.slot? n 0 ≠ some c) :
    t.stripWithin f n = n := by
  cases f with
  | zero => rfl
  | succ f =>
    rw [stripWithin]
    split
    next c hk hc => exact absurd hc (h c hk)
    · rfl

end Strip

/-- A test of all members goes with what they are mapped to. -/
theorem all_map_of_mem {α : Type} {xs : List α} {r : α → α} {p q : α → Bool}
    (h : ∀ x ∈ xs, p (r x) = q x) : (xs.map r).all p = xs.all q := by
  refine Bool.eq_iff_iff.mpr ?_
  simp only [List.all_eq_true, List.forall_mem_map]
  exact forall₂_congr fun x hmem => by rw [h x hmem]

namespace Linked

variable {t : SyntaxTree} {a n : NodeId} {name : String} (ht : t.Linked) (hn : t.isAttached n = true)
include ht hn

theorem attached_slot? {i : Nat} (h : t.slot? n i = some a) : t.isAttached a = true :=
  ht.attached_child hn (child_slot h)

theorem attached_list (h : a ∈ t.list n) : t.isAttached a = true := ht.attached_child hn (child_list h)

theorem attached_stripParens : t.isAttached (t.stripParens n) = true := by
  rw [SyntaxTree.stripParens]
  generalize t.size = f
  induction f generalizing n with
  | zero => exact hn
  | succ f ih =>
    rw [stripWithin]
    split
    next c _ hc => exact ih (ht.attached_slot? hn hc)
    · exact hn

theorem attached_receiver {c : Call} (h : t.call? n = some c) (hr : c.receiver = some a) :
    t.isAttached a = true :=
  ht.attached_slot? hn ((call?_eq_some.mp h).2.1.trans hr)

theorem attached_nullaryCall? (h : t.nullaryCall? n name = some a) : t.isAttached a = true :=
  ht.attached_slot? hn (nullaryCall?_eq_some.mp h).2.1

theorem attached_negatedOperand? (h : t.negatedOperand? n = some a) : t.isAttached a = true := by
  obtain ⟨-, b, hb, rfl⟩ := negatedOperand?_eq_some.mp h
  exact ht.attached_stripParens (ht.attached_slot? hn hb)

theorem attached_emptinessTest? {x : NodeId × Bool} (h : t.emptinessTest? n name = some x) :
    t.isAttached x.1 = true := by
  obtain ⟨-, a, b, -, ha, hb, ⟨hr, -⟩ | ⟨hr, -⟩⟩ := Rules.emptinessTest?_cases h
  · exact ht.attached_nullaryCall? (ht.attached_stripParens (ht.attached_slot? hn ha)) hr
  · exact ht.attached_nullaryCall? (ht.attached_stripParens (ht.attached_slot? hn hb)) hr

end Linked

namespace Renamed

variable {g : NodeId → NodeId} {k : Nat} {u t : SyntaxTree} (h : Renamed g k u t)
include h

theorem booleanLiteral? (n : NodeId) : t.booleanLiteral? (g n) = u.booleanLiteral? n := by
  rw [SyntaxTree.booleanLiteral?, SyntaxTree.booleanLiteral?, h.kind]

theorem isNullLiteral (n : NodeId) : t.isNullLiteral (g n) = u.isNullLiteral n := by
  rw [SyntaxTree.isNullLiteral, SyntaxTree.isNullLiteral, h.kind]

theorem isLiteral (n : NodeId) : t.isLiteral (g n) = u.isLiteral n := by
  rw [SyntaxTree.isLiteral, SyntaxTree.isLiteral, h.kind]

theorem intLiteral? (n : NodeId) : t.intLiteral? (g n) = u.intLiteral? n := by
  rw [SyntaxTree.intLiteral?, SyntaxTree.intLiteral?, h.kind]

theorem stringLiteral? (n : NodeId) : t.stringLiteral? (g n) = u.stringLiteral? n := by
  rw [SyntaxTree.stringLiteral?, SyntaxTree.stringLiteral?, h.kind]

theorem call? (n : NodeId) : t.call? (g n) = (u.call? n).map (Call.rename g) := by
  rw [SyntaxTree.call?, SyntaxTree.call?, h.kind, h.slot?, h.list]
  cases u.kind n <;> rfl

theorem nullaryCall? (n : NodeId) (name : String) :
    t.nullaryCall? (g n) name = (u.nullaryCall? n name).map g := by
  rw [SyntaxTree.nullaryCall?, SyntaxTree.nullaryCall?, h.call?]
  cases u.call? n with
  | none => rfl
  | some c =>
    simp only [Option.map_some, Call.isOf_rename]
    split <;> rfl

theorem singleStatement? (n : NodeId) : t.singleStatement? (g n) = (u.singleStatement? n).map g := by
  rw [SyntaxTree.singleStatement?, SyntaxTree.singleStatement?, h.kind, h.list]
  cases u.kind n with
  | block => rcases u.list n with _ | ⟨a, _ | ⟨b, ns⟩⟩ <;> rfl
  | _ => rfl

theorem needsParens (n : NodeId) (kind : NodeKind) :
    t.needsParens (g n) kind = u.needsParens n kind := by
  rw [SyntaxTree.needsParens, SyntaxTree.needsParens, h.parent?, h.position?]
  cases u.parent? n with
  | none => rfl
  | some p =>
    cases u.position? n with
    | none => rfl
    | some pos => simp only [Option.map_some, h.kind]

section Linked

variable (hu : u.Linked)
include hu

theorem stripWithin {f f' : Nat} {n : NodeId} (hf : Linked.depth u n ≤ f) (hle : f ≤ f') :
    t.stripWithin f' (g n) = g (u.stripWithin f n) := by
  induction f generalizing n f' with
  | zero =>
    have hbare : ∀ c, u.slot? n 0 ≠ some c := fun c hc => by
      have hd := hu.depth_lt_of_child (Node.mem_children_iff.mpr ⟨.slot 0, hc⟩ : u.Child c n)
      omega
    rw [stripWithin_of_bare fun c _ => hbare c, stripWithin_of_bare fun c _ => ?_]
    rw [h.slot?]
    intro hc
    obtain ⟨a, ha, -⟩ := Option.map_eq_some_iff.mp hc
    exact hbare a ha
  | succ f ih =>
    obtain ⟨f', rfl⟩ := Nat.exists_eq_add_of_lt hle
    by_cases hp : ∃ c, u.kind n = .paren ∧ u.slot? n 0 = some c
    · obtain ⟨c, hk, hc⟩ := hp
      have hd := hu.depth_lt_of_child (Node.mem_children_iff.mpr ⟨.slot 0, hc⟩ : u.Child c n)
      rw [stripWithin_of_paren hk hc, stripWithin_of_paren ((h.kind n).trans hk)
        ((h.slot? n 0).trans (congrArg (Option.map g) hc)), ih (by omega) (Nat.le_add_right f f')]
    · rw [stripWithin_of_bare fun c hk hc => hp ⟨c, hk, hc⟩, stripWithin_of_bare fun c hk hc => ?_]
      rw [h.slot?] at hc
      obtain ⟨a, ha, -⟩ := Option.map_eq_some_iff.mp hc
      exact hp ⟨a, (h.kind n).symm.trans hk, ha⟩

theorem stripParens (n : NodeId) : t.stripParens (g n) = g (u.stripParens n) :=
  h.stripWithin hu (Linked.depth_le_size u n) h.size_le

theorem isEffectFree (n : NodeId) : t.isEffectFree (g n) = u.isEffectFree n := by
  rw [SyntaxTree.isEffectFree, SyntaxTree.isEffectFree, h.anyKind hu]

theorem mentions (n : NodeId) (name : String) : t.mentions (g n) name = u.mentions n name :=
  h.anyKind hu _ n

theorem returnedBoolean? (n : NodeId) : t.returnedBoolean? (g n) = u.returnedBoolean? n := by
  rw [SyntaxTree.returnedBoolean?, SyntaxTree.returnedBoolean?, h.singleStatement?]
  cases u.singleStatement? n with
  | none => rfl
  | some stmt =>
    simp only [Option.map_some, Option.bind_eq_bind, Option.bind_some, h.kind, h.slot?, Option.bind_map]
    split
    · rfl
    · refine congrArg (Option.bind (u.slot? stmt 0)) (funext fun value => ?_)
      rw [Function.comp_apply, h.stripParens hu, h.booleanLiteral?]

theorem negatedOperand? (n : NodeId) : t.negatedOperand? (g n) = (u.negatedOperand? n).map g := by
  rw [SyntaxTree.negatedOperand?, SyntaxTree.negatedOperand?, h.kind, h.slot?]
  split
  · rw [Option.map_map, Option.map_map]
    exact congrArg (fun f => Option.map f (u.slot? n 0)) (funext fun a => h.stripParens hu a)
  · rfl

theorem emptinessTest? (n : NodeId) (method : String) :
    t.emptinessTest? (g n) method = (u.emptinessTest? n method).map fun x => (g x.1, x.2) := by
  rw [SyntaxTree.emptinessTest?, SyntaxTree.emptinessTest?, h.kind, h.slot?, h.slot?]
  cases u.kind n with
  | binary op =>
    rcases u.slot? n 0 with _ | a
    · rfl
    rcases u.slot? n 1 with _ | b
    · rfl
    simp only [Option.map_some, Option.bind_eq_bind, Option.bind_some, h.stripParens hu, h.intLiteral?]
    -- the measured side, as both literals tell it
    have key : ∀ (measured : NodeId) (op : BinaryOp) (bound : Int),
        ((t.nullaryCall? (g measured) method).bind fun r => (emptinessOf op bound).bind fun e => some (r, e)) =
          ((u.nullaryCall? measured method).bind fun r => (emptinessOf op bound).bind fun e =>
            some (r, e)).map fun x => (g x.1, x.2) := by
      intro measured op bound
      rw [h.nullaryCall?]
      cases u.nullaryCall? measured method with
      | none => rfl
      | some r => cases emptinessOf op bound <;> rfl
    cases u.intLiteral? (u.stripParens a) with
    | none =>
      cases u.intLiteral? (u.stripParens b) with
      | none => rfl
      | some bound => exact key _ op bound
    | some bound =>
      cases u.intLiteral? (u.stripParens b) with
      | none =>
        cases op.flipped? with
        | none => rfl
        | some op => exact key _ op bound
      | some other => rfl
  | _ => rfl

theorem sameTypeWithin {f f' : Nat} {a : NodeId} (b : NodeId) (hf : Linked.depth u a < f) (hle : f ≤ f') :
    t.sameTypeWithin f' (g a) (g b) = u.sameTypeWithin f a b := by
  induction f generalizing a b f' with
  | zero => exact absurd hf (Nat.not_lt_zero _)
  | succ f ih =>
    obtain ⟨f', rfl⟩ := Nat.exists_eq_add_of_lt hle
    have hchild : ∀ {c}, c ∈ u.children a → ∀ d,
        t.sameTypeWithin (f + f') (g c) (g d) = u.sameTypeWithin f c d := by
      intro c hc d
      have hd := hu.depth_lt_of_child hc
      exact ih d (by omega) (Nat.le_add_right f f')
    rw [SyntaxTree.sameTypeWithin, SyntaxTree.sameTypeWithin, h.node, h.node]
    simp only [Node.rename, List.length_map, List.zip_map]
    rw [all_map_of_mem (q := fun x : NodeId × NodeId => u.sameTypeWithin f x.1 x.2), all_map_of_mem]
    · rintro ⟨o, o'⟩ hmem
      cases o with
      | none => cases o' <;> rfl
      | some c =>
        have hc : c ∈ u.children a := List.mem_append_left _
          (List.mem_filterMap.mpr ⟨some c, (List.of_mem_zip hmem).1, rfl⟩)
        cases o' with
        | none => rfl
        | some d => exact hchild hc d
    · rintro ⟨a, b⟩ hmem
      exact hchild (List.mem_append_right _ (List.of_mem_zip hmem).1) b

theorem sameType (a b : NodeId) : t.sameType (g a) (g b) = u.sameType a b :=
  h.sameTypeWithin hu b (Nat.lt_succ_of_le (Linked.depth_le_size u a)) (Nat.succ_le_succ h.size_le)

end Linked

end Renamed

end SyntaxTree

namespace View

/-- The views show trees that are the same under a renaming, to resolvers that know the same classes and are
right about attached nodes. -/
structure Renamed (g : NodeId → NodeId) (k : Nat) (v w : View) : Prop where
  tree : SyntaxTree.Renamed g k v.tree w.tree
  orderly : v.tree.Orderly
  orderly' : w.tree.Orderly
  resolver : ∃ classes, v.resolver.Faithful classes ∧ w.resolver.Faithful classes

namespace Renamed

variable {g : NodeId → NodeId} {k : Nat} {v w : View} (h : Renamed g k v w)
include h

theorem linked : v.tree.Linked := h.orderly.linked

theorem visibleType (n : NodeId) (name : String) : w.visibleType (g n) name = v.visibleType n name := by
  obtain ⟨classes, hv, hw⟩ := h.resolver
  rw [View.visibleType, View.visibleType, hv.visibleType, hw.visibleType]
  exact h.tree.visibleType h.linked classes n name

theorem classNamed? (n : NodeId) (name : String) : w.classNamed? (g n) name = v.classNamed? n name := by
  rw [View.classNamed?, View.classNamed?, h.visibleType]

theorem wrappedBy? (n : NodeId) (name : String) : w.wrappedBy? (g n) name = v.wrappedBy? n name := by
  rw [View.wrappedBy?, View.wrappedBy?, h.classNamed?]

theorem namesClass (n : NodeId) (name qualified : String) :
    w.namesClass (g n) name qualified = v.namesClass n name qualified := by
  rw [View.namesClass, View.namesClass, h.classNamed?]

section Types

variable {n : NodeId} (hn : v.tree.isAttached n = true)
include hn

theorem typeOf : w.typeOf (g n) = v.typeOf n := by
  obtain ⟨classes, hv, hw⟩ := h.resolver
  rw [View.typeOf, View.typeOf, hv.typeOf h.orderly hn,
    hw.typeOf h.orderly' ((h.tree.isAttached h.linked n).trans hn)]
  exact Infer.typeOf_renamed classes h.tree h.orderly h.orderly' n

theorem staticType? : w.staticType? (g n) = v.staticType? n := by
  rw [View.staticType?, View.staticType?, h.typeOf hn]

theorem primitive? : w.primitive? (g n) = v.primitive? n := by
  rw [View.primitive?, View.primitive?, h.staticType? hn]

theorem isString : w.isString (g n) = v.isString n := by
  rw [View.isString, View.isString, h.staticType? hn]

theorem inherits (ancestor : String) : w.inherits (g n) ancestor = v.inherits n ancestor := by
  have ht := h.typeOf hn
  obtain ⟨classes, hv, hw⟩ := h.resolver
  rw [View.typeOf, View.typeOf] at ht
  rw [View.inherits, View.inherits, View.isSubtypeAt, View.isSubtypeAt, Resolver.isSubtypeAt,
    Resolver.isSubtypeAt, ht]
  simp only [hv.isSubtype, hw.isSubtype]

end Types

end Renamed

end View

end TreeTidy
