import Mathlib.Data.List.InsertIdx
import Mathlib.Data.Option.Basic
import TreeTidy.Engine.Edit
import TreeTidy.Proofs.Tree.Edits
import TreeTidy.Proofs.Tree.Renamed
/-!
Edits of trees that are the same under a renaming: made at nodes that correspond, an edit applies to both
or to none, and leaves trees that are the same under that renaming again.
-/
namespace TreeTidy

/-- The change with its nodes renamed. -/
def Change.rename (g : NodeId → NodeId) : Change → Change
  | .replace old new => .replace (g old) (g new)
  | .remove n => .remove (g n)
  | .insertBefore anchor new => .insertBefore (g anchor) (g new)
  | .insertAfter anchor new => .insertAfter (g anchor) (g new)
  | .splice first count replacements => .splice (g first) count (replacements.map g)

theorem Change.site_rename (g : NodeId → NodeId) (c : Change) : (c.rename g).site = g c.site := by
  cases c <;> rfl

theorem Change.word_rename (g : NodeId → NodeId) (c : Change) : (c.rename g).word = c.word := by
  cases c <;> rfl

namespace SyntaxTree

theorem vacate_rename (g : NodeId → NodeId) (d : Node) (pos : Position) :
    vacate (d.rename g) pos = (vacate d pos).rename g := by
  cases pos with
  | slot i => simp [vacate, Node.rename, List.map_set]
  | list i => simp [vacate, Node.rename, List.eraseIdx_map]

theorem occupy_rename (g : NodeId → NodeId) (d : Node) (n : NodeId) (pos : Position) :
    occupy (d.rename g) (g n) pos = (occupy d n pos).rename g := by
  cases pos with
  | slot i => simp [occupy, Node.rename, List.map_set]
  | list i => simp [occupy, Node.rename, List.map_set]

namespace Renamed

variable {g : NodeId → NodeId} {k : Nat} {u t : SyntaxTree} {n : NodeId}

theorem foldl {f f' : SyntaxTree → NodeId → SyntaxTree}
    (hf : ∀ {u t}, Renamed g k u t → ∀ n, Renamed g k (f u n) (f' t (g n))) (h : Renamed g k u t)
    (ns : List NodeId) : Renamed g k (ns.foldl f u) ((ns.map g).foldl f' t) := by
  induction ns generalizing u t with
  | nil => exact h
  | cons n ns ih => exact ih (hf h n)

variable (h : Renamed g k u t)
include h

theorem update {f f' : Node → Node} (hf : ∀ d, f' (d.rename g) = (f d).rename g) (n : NodeId) :
    Renamed g k (u.update n f) (t.update (g n) f') where
  injective := h.injective
  fresh i := by rw [size_update, size_update, h.fresh]
  node m := by
    rw [node_update, node_update, h.node]
    simp only [h.injective.eq_iff, h.lt_iff]
    split
    · exact hf _
    · rfl
  root := h.root
  revision := h.revision

theorem bump : Renamed g k u.bump t.bump where
  injective := h.injective
  fresh := h.fresh
  node := h.node
  root := h.root
  revision := by
    rw [revision_bump, revision_bump, h.revision]
    exact Nat.add_right_comm _ _ _

theorem withRoot (n : NodeId) : Renamed g k (u.withRoot n) (t.withRoot (g n)) :=
  ⟨h.injective, h.fresh, h.node, rfl, h.revision⟩

theorem adopt (p n : NodeId) : Renamed g k (u.update n fun d => { d with parent := some p })
    (t.update (g n) fun d => { d with parent := some (g p) }) := by
  refine h.update ?_ n
  exact fun _ => rfl

theorem orphan (n : NodeId) : Renamed g k (u.update n fun d => { d with parent := none })
    (t.update (g n) fun d => { d with parent := none }) := by
  refine h.update ?_ n
  exact fun _ => rfl

theorem unlink (n : NodeId) : Renamed g k (u.unlink n) (t.unlink (g n)) := by
  rw [SyntaxTree.unlink, SyntaxTree.unlink, h.parent?, h.position?]
  cases u.parent? n with
  | none => exact h
  | some p =>
    cases u.position? n with
    | none => exact h.orphan n
    | some pos => exact (h.update (fun d => vacate_rename g d pos) p).orphan n

theorem destroy (n : NodeId) : Renamed g k (u.destroy n) (t.destroy (g n)) where
  injective := h.injective
  fresh i := by rw [size_destroy, size_destroy, h.fresh]
  node m := by
    rw [node_destroy, node_destroy, h.node]
    by_cases hw : u.Within m n
    · rw [if_pos (mem_descendants_iff.mpr hw), if_pos (mem_descendants_iff.mpr (h.within_iff.mpr hw))]
      rfl
    · rw [if_neg fun hm => hw (mem_descendants_iff.mp hm),
        if_neg fun hm => hw (h.within_iff.mp (mem_descendants_iff.mp hm))]
  root := by rw [root_destroy, root_destroy, h.root]
  revision := by rw [revision_destroy, revision_destroy, h.revision]

theorem retire (n s : NodeId) : Renamed g k (u.retire n (some s)) (t.retire (g n) (some (g s))) := by
  refine (h.destroy n).update ?_ n
  exact fun _ => rfl

theorem admits (p : NodeId) (pos : Position) (kind : NodeKind) :
    t.admits (g p) pos kind = u.admits p pos kind := by rw [admits_eq, admits_eq, h.kind]

section Linked

variable (hu : u.Linked)
include hu

theorem replace? (old new : NodeId) :
    Option.Rel (Renamed g k) (u.replace? old new) (t.replace? (g old) (g new)) := by
  have hne : decide (g old = g new) = decide (old = new) := decide_eq_decide.mpr h.injective.eq_iff
  rw [SyntaxTree.replace?, SyntaxTree.replace?, hne, h.isAttached hu, h.isAlive, h.isDetached,
    h.isAncestor hu]
  split
  · exact .none
  split
  · exact .none
  rw [h.parent?, h.position?]
  cases u.parent? old with
  | none => exact .some ((((h.unlink new).withRoot new).retire old new).bump)
  | some p =>
    cases u.position? old with
    | none => exact .none
    | some pos =>
      simp only [Option.map_some, h.admits, h.kind]
      split
      · exact .none
      · exact .some ((((h.unlink new).update (fun d => occupy_rename g d new pos) p).adopt p new).retire
          old new).bump

theorem remove? (n : NodeId) : Option.Rel (Renamed g k) (u.remove? n) (t.remove? (g n)) := by
  rw [SyntaxTree.remove?, SyntaxTree.remove?, h.isAttached hu]
  split
  · exact .none
  rw [h.parent?, h.position?]
  cases u.parent? n with
  | none => exact .none
  | some p =>
    cases u.position? n with
    | none => exact .none
    | some pos =>
      cases pos <;> simp only [Option.map_some, h.kind, h.list, List.length_map] <;> split
      all_goals
        first
          | exact .none
          | exact .some ((h.update (fun d => vacate_rename g d _) p).destroy n).bump

theorem insertAt? (anchor new : NodeId) (offset : Nat) : Option.Rel (Renamed g k)
    (u.insertAt? anchor new offset) (t.insertAt? (g anchor) (g new) offset) := by
  rw [SyntaxTree.insertAt?, SyntaxTree.insertAt?, h.isAttached hu, h.isDetached]
  split
  · exact .none
  rw [h.listIndex?]
  cases u.listIndex? anchor with
  | none => exact .none
  | some x =>
    simp only [Option.map_some, h.admits, h.kind]
    split
    · exact .none
    · refine .some ((update h (fun d => ?_) x.1).adopt x.1 new).bump
      simp [Node.rename, List.map_insertIdx]

theorem canSplice (removed : List NodeId) (c : SlotClass) (n : NodeId) :
    t.canSplice (removed.map g) c (g n) = u.canSplice removed c n := by
  have hany : (fun r => t.isAncestor r (g n)) ∘ g = fun r => u.isAncestor r n :=
    funext fun r => h.isAncestor hu r n
  have hmem : (removed.map g).contains (g n) = removed.contains n :=
    Bool.eq_iff_iff.mpr (by
      rw [List.contains_iff_mem, List.contains_iff_mem, List.mem_map_of_injective h.injective])
  rw [SyntaxTree.canSplice, SyntaxTree.canSplice, h.isAlive, h.isDetached, h.kind, hmem,
    List.any_map, hany]

theorem splice? (first : NodeId) (count : Nat) (news : List NodeId) : Option.Rel (Renamed g k)
    (u.splice? first count news) (t.splice? (g first) count (news.map g)) := by
  rw [SyntaxTree.splice?, SyntaxTree.splice?, h.isAttached hu]
  split
  · exact .none
  rw [h.listIndex?, h.window?]
  cases u.listIndex? first with
  | none => exact .none
  | some x =>
    cases u.window? first count with
    | none => exact .none
    | some removed =>
      simp only [Option.map_some, h.kind, h.list, List.length_map]
      cases (u.kind x.1).layout.list with
      | none => exact .none
      | some spec =>
        have hnodup : decide (news.map g).Nodup = decide news.Nodup :=
          decide_eq_decide.mpr (List.nodup_map_iff h.injective)
        have hall : (news.map g).all (t.canSplice (removed.map g) spec.admits) =
            news.all (u.canSplice removed spec.admits) := by
          rw [List.all_map]
          exact congrArg news.all (funext (h.canSplice hu removed spec.admits))
        have hfree : (news.map g).filter (fun n => !t.isDetached n) =
            (news.filter fun n => !u.isDetached n).map g := by
          rw [List.filter_map]
          exact congrArg (List.map g) (List.filter_congr fun n _ => by simp [h.isDetached])
        simp only [hnodup, hall, hfree]
        split
        · exact .none
        split
        · exact .none
        · refine .some (update (foldl destroy (foldl (adopt · x.1) (update (foldl unlink h _) (fun d => ?_)
            x.1) news) removed) (fun d => ?_) first).bump
          · simp [Node.rename, List.map_take, List.map_drop]
          · cases news <;> simp [Node.rename]

theorem appliedTo? (c : Change) :
    Option.Rel (Renamed g k) (c.appliedTo? u) ((c.rename g).appliedTo? t) := by
  cases c with
  | replace old new => exact h.replace? hu old new
  | remove n => exact h.remove? hu n
  | insertBefore anchor new => exact h.insertAt? hu anchor new 0
  | insertAfter anchor new => exact h.insertAt? hu anchor new 1
  | splice first count news => exact h.splice? hu first count news

end Linked

end Renamed

end SyntaxTree

end TreeTidy
