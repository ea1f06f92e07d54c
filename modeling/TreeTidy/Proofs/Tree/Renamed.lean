import TreeTidy.Proofs.Tree.Bounds
import TreeTidy.Proofs.Tree.Revision
import TreeTidy.Tree.Walk
/-!
Trees that are the same but for the numbers of their nodes. One tree is part of the other under a
renaming; of the nodes that the renaming leaves out nothing is said, and nothing that is read at the
other ones leads to them.
-/
namespace TreeTidy

open SyntaxTree (positionIn)

/-- The node with all nodes that it names renamed. -/
def Node.rename (g : NodeId → NodeId) (d : Node) : Node :=
  { d with
    slots := d.slots.map (Option.map g)
    list := d.list.map g
    parent := d.parent.map g
    successor := d.successor.map g }

namespace Node

variable {g : NodeId → NodeId} {d : Node} {n : NodeId}

theorem children_rename : (d.rename g).children = d.children.map g := by
  have hs : (d.slots.map (Option.map g)).filterMap id = (d.slots.filterMap id).map g := by
    rw [List.filterMap_map, List.map_filterMap]
    exact List.filterMap_congr fun o _ => rfl
  rw [children, children, List.map_append, ← hs]
  rfl

theorem at?_rename (pos : Position) : (d.rename g).at? pos = (d.at? pos).map g := by
  cases pos with
  | slot i =>
    simp only [at?, rename, List.getElem?_map]
    rcases d.slots[i]? with _ | _ | c <;> rfl
  | list i => exact List.getElem?_map

theorem positionIn_rename (hg : Function.Injective g) :
    positionIn (d.rename g) (g n) = positionIn d n := by
  have hs : (fun o : Option NodeId => o == some (g n)) ∘ Option.map g = (· == some n) := by
    funext o
    cases o with
    | none => rfl
    | some c => exact Bool.eq_iff_iff.mpr (by simp [hg.eq_iff])
  have hl : (fun c : NodeId => c == g n) ∘ g = (· == n) := by
    funext c
    exact Bool.eq_iff_iff.mpr (by simp [hg.eq_iff])
  rw [positionIn, positionIn, rename, List.findIdx?_map, List.findIdx?_map, hs, hl]

end Node

namespace SyntaxTree

/-- `t` is `u` under a renaming of the nodes: of those there are, and of those that are made next. -/
structure Renamed (g : NodeId → NodeId) (k : Nat) (u t : SyntaxTree) : Prop where
  injective : Function.Injective g
  fresh : ∀ i, g (u.size + i) = t.size + i
  node : ∀ n, t.node (g n) = (u.node n).rename g
  root : t.root = u.root.map g
  revision : t.revision = u.revision + k

theorem Renamed.refl (t : SyntaxTree) : Renamed (fun n => n) 0 t t where
  injective _ _ h := h
  fresh _ := rfl
  node n := by simp [Node.rename]
  root := by simp
  revision := rfl

namespace Renamed

variable {g : NodeId → NodeId} {k i f : Nat} {u t : SyntaxTree} {m n : NodeId} {pos : Position}
  (h : Renamed g k u t)
include h

theorem fresh_size : g u.size = t.size := h.fresh 0

theorem lt_iff : g n < t.size ↔ n < u.size := by
  constructor
  · intro hn
    by_contra hge
    obtain ⟨i, rfl⟩ := Nat.exists_eq_add_of_le (Nat.not_lt.mp hge)
    rw [h.fresh] at hn
    exact absurd hn (Nat.not_lt.mpr (Nat.le_add_right _ _))
  · intro hn
    by_contra hge
    obtain ⟨i, hi⟩ := Nat.exists_eq_add_of_le (Nat.not_lt.mp hge)
    rw [h.injective (hi.trans (h.fresh i).symm)] at hn
    exact absurd hn (Nat.not_lt.mpr (Nat.le_add_right _ _))

theorem size_le : u.size ≤ t.size := by
  have hmaps : ∀ n ∈ Finset.range u.size, g n ∈ Finset.range t.size := fun n hn =>
    Finset.mem_range.mpr (h.lt_iff.mpr (Finset.mem_range.mp hn))
  simpa using Finset.card_le_card_of_injOn g hmaps h.injective.injOn

theorem kind (n : NodeId) : t.kind (g n) = u.kind n := by rw [SyntaxTree.kind, h.node]; rfl

theorem span (n : NodeId) : t.span (g n) = u.span n := by rw [SyntaxTree.span, h.node]; rfl

theorem ty (n : NodeId) : (t.node (g n)).ty = (u.node n).ty := by rw [h.node]; rfl

theorem isAlive (n : NodeId) : t.isAlive (g n) = u.isAlive n := by
  rw [SyntaxTree.isAlive, h.node]; rfl

theorem parent? (n : NodeId) : t.parent? (g n) = (u.parent? n).map g := by
  rw [SyntaxTree.parent?, h.node]; rfl

theorem successor (n : NodeId) : (t.node (g n)).successor = (u.node n).successor.map g := by
  rw [h.node]; rfl

theorem at_ (n : NodeId) (pos : Position) : (t.node (g n)).at? pos = ((u.node n).at? pos).map g := by
  rw [h.node, Node.at?_rename]

theorem slot? (n : NodeId) (i : Nat) : t.slot? (g n) i = (u.slot? n i).map g := h.at_ n (.slot i)

theorem list (n : NodeId) : t.list (g n) = (u.list n).map g := by rw [SyntaxTree.list, h.node]; rfl

theorem children (n : NodeId) : t.children (g n) = (u.children n).map g := by
  rw [SyntaxTree.children, h.node, Node.children_rename]; rfl

theorem root_eq : t.root = some (g n) ↔ u.root = some n := by
  rw [h.root, ← Option.map_some, (Option.map_injective h.injective).eq_iff]

theorem isDetached (n : NodeId) : t.isDetached (g n) = u.isDetached n := by
  refine Bool.eq_iff_iff.mpr ?_
  rw [isDetached_iff, isDetached_iff, h.isAlive, h.parent?, Option.map_eq_none_iff, Ne, h.root_eq]

theorem position? (n : NodeId) : t.position? (g n) = u.position? n := by
  rw [SyntaxTree.position?, SyntaxTree.position?, h.parent?]
  cases u.parent? n with
  | none => rfl
  | some p =>
    rw [Option.map_some, Option.bind_some, Option.bind_some, h.node, Node.positionIn_rename h.injective]

theorem listIndex? (n : NodeId) : t.listIndex? (g n) = (u.listIndex? n).map fun x => (g x.1, x.2) := by
  rw [SyntaxTree.listIndex?, SyntaxTree.listIndex?, h.parent?, h.position?]
  rcases u.parent? n with _ | p
  · rfl
  · rcases u.position? n with _ | _ | _ <;> rfl

theorem window? (n : NodeId) (i : Nat) : t.window? (g n) i = (u.window? n i).map (List.map g) := by
  rw [SyntaxTree.window?, SyntaxTree.window?, h.listIndex?]
  rcases u.listIndex? n with _ | ⟨p, j⟩
  · rfl
  · simp only [Option.map_some, h.list, ← List.map_drop, ← List.map_take,
      List.length_map]
    split <;> rfl

theorem above (f : Nat) (o : Option NodeId) : t.above f (o.map g) = (u.above f o).map g := by
  induction f generalizing o with
  | zero => rfl
  | succ f ih =>
    cases o with
    | none => rfl
    | some p => rw [Option.map_some, SyntaxTree.above, SyntaxTree.above, h.parent?, ih, List.map_cons]

/-- A chain of successors stays among the renamed nodes. -/
theorem successor? (n : NodeId) : t.successor? (g n) = (u.successor? n).map g := by
  have hw : ∀ f n, t.successorWithin f (g n) = (u.successorWithin f n).map g := by
    intro f
    induction f with
    | zero => exact fun n => rfl
    | succ f ih =>
      intro n
      cases ha : u.isAlive n with
      | true => rw [successorWithin_alive ha, successorWithin_alive ((h.isAlive n).trans ha)]; rfl
      | false =>
        rw [successorWithin_dead ha, successorWithin_dead ((h.isAlive n).trans ha), h.successor]
        cases (u.node n).successor with
        | none => rfl
        | some m => exact ih m
  rw [SyntaxTree.successor?, hw, successorWithin_eq (Nat.lt_succ_of_le h.size_le)]

theorem within_iff : t.Within (g m) (g n) ↔ u.Within m n := by
  constructor
  · intro hw
    generalize hb : g n = b at hw
    induction hw generalizing n with
    | refl => exact h.injective hb ▸ .refl
    | @tail c b _ hc ih =>
      rw [Child, ← hb, h.children] at hc
      obtain ⟨c, hcn, rfl⟩ := List.mem_map.mp hc
      exact (ih rfl).tail hcn
  · intro hw
    induction hw with
    | refl => exact .refl
    | tail _ hc ih =>
      refine ih.tail ?_
      rw [Child, h.children]
      exact List.mem_map_of_mem hc

theorem at? (n : NodeId) (way : List Position) : t.at? (g n) way = (u.at? n way).map g := by
  induction way generalizing n with
  | nil => rfl
  | cons pos way ih =>
    rw [SyntaxTree.at?, SyntaxTree.at?, h.at_]
    cases (u.node n).at? pos with
    | none => rfl
    | some c => exact ih c

theorem rootAt? (way : List Position) : t.rootAt? way = (u.rootAt? way).map g := by
  rw [SyntaxTree.rootAt?, SyntaxTree.rootAt?, h.root]
  cases u.root with
  | none => rfl
  | some r => exact h.at? r way

section Linked

variable (hu : u.Linked)
include hu

theorem ancestors (n : NodeId) : t.ancestors (g n) = (u.ancestors n).map g := by
  rw [SyntaxTree.ancestors, h.parent?, h.above, hu.above_eq_ancestors h.size_le]

theorem isAncestor (m n : NodeId) : t.isAncestor (g m) (g n) = u.isAncestor m n := by
  refine Bool.eq_iff_iff.mpr ?_
  rw [SyntaxTree.isAncestor, SyntaxTree.isAncestor, List.contains_iff_mem, List.contains_iff_mem,
    h.ancestors hu, List.mem_map_of_injective h.injective]

theorem isAttached (n : NodeId) : t.isAttached (g n) = u.isAttached n := by
  have hr : (fun m => t.root == some m) ∘ g = fun m => u.root == some m := by
    funext m
    exact Bool.eq_iff_iff.mpr (by simpa using h.root_eq)
  rw [SyntaxTree.isAttached, SyntaxTree.isAttached, h.isAlive, h.ancestors hu, ← List.map_cons,
    List.any_map, hr]

theorem descendants (n : NodeId) : t.descendants (g n) = (u.descendants n).map g := by
  have hw : ∀ f n, t.descendantsWithin f (g n) = (u.descendantsWithin f n).map g := by
    intro f
    induction f with
    | zero => exact fun n => rfl
    | succ f ih =>
      intro n
      rw [descendantsWithin, descendantsWithin, h.children, List.map_cons, List.flatMap_map,
        List.map_flatMap]
      exact congrArg _ (List.flatMap_congr fun c _ => ih c)
  have hd := Linked.depth_le_size u n
  rw [SyntaxTree.descendants, hw, SyntaxTree.descendants,
    hu.descendantsWithin_stable (by have := h.size_le; omega) (Nat.lt_succ_of_le hd)]

theorem anyKind (p : NodeKind → Bool) (n : NodeId) : t.anyKind p (g n) = u.anyKind p n := by
  rw [SyntaxTree.anyKind, SyntaxTree.anyKind, h.descendants hu, List.any_map]
  exact congrArg (u.descendants n).any (funext fun m => congrArg p (h.kind m))

theorem doc (n : NodeId) : t.doc (g n) = u.doc n := by
  have hw : ∀ f n, t.docWithin f (g n) = u.docWithin f n := by
    intro f
    induction f with
    | zero =>
      intro n
      rw [docWithin, docWithin, h.kind, h.span, h.ty]
    | succ f ih =>
      intro n
      have hs : ∀ o : Option NodeId, (o.map g).map (t.docWithin f) = o.map (u.docWithin f) := by
        intro o
        rw [Option.map_map]
        exact congrFun (congrArg Option.map (funext ih)) o
      rw [docWithin, docWithin, h.node]
      simp only [Node.rename, List.map_map, Function.comp_def, hs, ih]
  have hd := Linked.depth_le_size u n
  rw [SyntaxTree.doc, hw, SyntaxTree.doc,
    hu.docWithin_stable (by have := h.size_le; omega) (Nat.lt_succ_of_le hd)]

theorem rootDoc? : t.rootDoc? = u.rootDoc? := by
  rw [SyntaxTree.rootDoc?, SyntaxTree.rootDoc?, h.root, Option.map_map]
  exact congrFun (congrArg Option.map (funext (h.doc hu))) u.root

end Linked

end Renamed

end SyntaxTree

end TreeTidy
