import TreeTidy.Proofs.Resolve.Typing
import TreeTidy.Proofs.Tree.Compact
import TreeTidy.Proofs.Tree.Revision
import TreeTidy.Resolve.Resolver
/-!
The cache of a resolver that is asked about several trees while they change. What it holds of a tree
was found at the same revision, so it is still right about the attached nodes, which are the same;
it may be wrong about others, but no attached node asks for those.
-/
namespace TreeTidy

open SyntaxTree Infer

namespace SyntaxTree

variable {t u : SyntaxTree} {n m : NodeId}

/-- The types of the attached nodes depend on the document alone. -/
theorem typeOf_of_samePlace (classes : ClassTable) (ht : t.Orderly) (hu : u.Orderly)
    (hd : t.rootDoc? = u.rootDoc?) (h : t.SamePlace u n m) :
    typeOf classes t n = typeOf classes u m := by
  obtain ⟨way, hn, hm⟩ := h
  obtain ⟨v, hv, hvd⟩ := exists_compact t.rootDoc?
  have hvo : v.Orderly := ⟨hv.linked, hv.admitted ht.linked ht.admitted hvd.symm, hv.settled⟩
  obtain ⟨g, hg⟩ := hv.renamed ht.linked ht.settled hvd.symm
  obtain ⟨g', hg'⟩ := hv.renamed hu.linked hu.settled (hd.symm.trans hvd.symm)
  rw [hg.rootAt?] at hn
  obtain ⟨x, hx, rfl⟩ := Option.map_eq_some_iff.mp hn
  rw [hg'.rootAt?, hx] at hm
  obtain rfl := Option.some.inj hm
  rw [typeOf_renamed classes hg hvo ht, typeOf_renamed classes hg' hvo hu]

/-- While the revision is the same, so are the types of the attached nodes. -/
theorem typeOf_of_grown (classes : ClassTable) (ht : t.Orderly) (hu : u.Orderly) (h : t.Grown u)
    (hn : t.isAttached n = true) : typeOf classes u n = typeOf classes t n := by
  obtain ⟨way, hw⟩ := ht.linked.exists_rootAt? hn
  have hsame : t.SamePlace u n n := ⟨way, hw, (h.rootAt? ht.linked way).trans hw⟩
  exact (typeOf_of_samePlace classes ht hu (h.rootDoc? ht.linked).symm hsame).symm

end SyntaxTree

/-- The trees there are, and a resolver that is asked about them. -/
structure Forest where
  trees : List SyntaxTree
  /-- The identity of the next tree. -/
  next : Nat
  cache : TypeCache

namespace Forest

/-- What can happen next, with a tree told by its number in the forest. -/
inductive Act
  | plant
  | fork (i : Nat)
  | perform (i : Nat) (op : Operation)
  | ask (i : Nat) (n : NodeId)

def act (classes : ClassTable) (f : Forest) : Act → Forest
  | .plant => { f with trees := f.trees ++ [.empty f.next], next := f.next + 1 }
  | .fork i =>
    match f.trees[i]? with
    | some t => { f with trees := f.trees ++ [t.fork f.next], next := f.next + 1 }
    | none => f
  | .perform i op =>
    match f.trees[i]? with
    | some t => { f with trees := f.trees.set i (op.perform t) }
    | none => f
  | .ask i n =>
    match f.trees[i]? with
    | some t => { f with cache := (f.cache.typeOf classes t n).2 }
    | none => f

/-- No tree yet, and nothing found. -/
def start : Forest := ⟨[], 1, .empty⟩

/-- The forest after all that happened. -/
def after (classes : ClassTable) (acts : List Act) : Forest := acts.foldl (act classes) start

/-- What the cache holds of a tree was right about the attached nodes of some state of it, at the
revision that the cache names. -/
def Known (classes : ClassTable) (c : TypeCache) (t : SyntaxTree) : Prop :=
  t.id = c.tree → ∃ s : SyntaxTree, s.Orderly ∧ s.Edited t ∧ s.revision = c.revision ∧
    Right (Infer.typeOf classes s) (fun n => s.isAttached n = true) c.answers

/-- The trees are orderly and told apart by their identities, and the cache is right about them. -/
structure Sound (classes : ClassTable) (f : Forest) : Prop where
  orderly : ∀ t ∈ f.trees, t.Orderly
  apart : (f.trees.map SyntaxTree.id).Nodup
  fresh : ∀ t ∈ f.trees, t.id < f.next
  cached : f.cache.tree < f.next
  known : ∀ t ∈ f.trees, Known classes f.cache t

section Cache

variable {classes : ClassTable} {c : TypeCache} {t u : SyntaxTree} {n : NodeId}

theorem Known.of_ne (h : t.id ≠ c.tree) : Known classes c t := fun he => absurd he h

theorem Known.perform (h : Known classes c t) (ht : t.Orderly) (op : Operation) :
    Known classes c (op.perform t) := by
  intro he
  obtain ⟨s, hs, hst, hr⟩ := h ((Operation.id_perform ht.linked op).symm.trans he)
  exact ⟨s, hs, hst.trans (ht.linked.edited_perform op), hr⟩

/-- The answers that the cache gives for a tree are right about its attached nodes. -/
theorem Known.current_right (h : Known classes c t) (ht : t.Orderly) :
    Right (Infer.typeOf classes t) (fun n => t.isAttached n = true) (c.current t) := by
  rw [TypeCache.current]
  split
  next he =>
    obtain ⟨s, hs, hst, hr, hright⟩ := h he.1.symm
    have hg := hst.grown (he.2.symm.trans hr.symm)
    intro n ty hl hn
    have hsn := (hg.attached_iff hs.linked ht.linked).mp hn
    rw [hright n ty hl hsn, typeOf_of_grown classes hs ht hg hsn]
  next => exact right_nil _ _

/-- With a cache that is right, the answer is the one that is found afresh, and the cache stays right. -/
theorem Known.typeOf (h : Known classes c t) (ht : t.Orderly) (n : NodeId) :
    (t.isAttached n = true → (c.typeOf classes t n).1 = Infer.typeOf classes t n) ∧
      Known classes (c.typeOf classes t n).2 t := by
  have hwf := ht.asks_wellFounded
  have hr := typeWithin_right ht.linked hwf (isTyping_typeOf classes ht.linked hwf)
    (fun hc hn => hc.attached ht.linked hn) (h.current_right ht) n
  exact ⟨hr.1, fun _ => ⟨t, ht, .refl ht.linked, rfl, hr.2⟩⟩

theorem typeOf_empty : (TypeCache.empty.typeOf classes t n).1 = Infer.typeOf classes t n := by
  have hc : TypeCache.empty.current t = [] := by
    rw [TypeCache.current]
    exact ite_self _
  rw [TypeCache.typeOf, hc, Infer.typeOf]
  rfl

end Cache

namespace Sound

variable {classes : ClassTable} {f : Forest} (h : Sound classes f)
include h

/-- A new tree with the next identity is none that the cache is about. -/
theorem plant {t : SyntaxTree} (ht : t.Orderly) (hid : t.id = f.next) :
    Sound classes { f with trees := f.trees ++ [t], next := f.next + 1 } where
  orderly u hu := by
    rcases List.mem_append.mp hu with hu | hu
    · exact h.orderly u hu
    · rwa [List.mem_singleton.mp hu]
  apart := by
    rw [List.map_append, List.nodup_append]
    refine ⟨h.apart, List.nodup_singleton _, ?_⟩
    rintro _ ha b hb rfl
    obtain ⟨u, hu, rfl⟩ := List.mem_map.mp ha
    rw [List.map_singleton, List.mem_singleton, hid] at hb
    exact Nat.ne_of_lt (h.fresh u hu) hb
  fresh u hu := by
    rcases List.mem_append.mp hu with hu | hu
    · exact Nat.lt_succ_of_lt (h.fresh u hu)
    · rw [List.mem_singleton.mp hu, hid]
      exact Nat.lt_succ_self _
  cached := Nat.lt_succ_of_lt h.cached
  known u hu := by
    rcases List.mem_append.mp hu with hu | hu
    · exact h.known u hu
    · rw [List.mem_singleton.mp hu]
      exact .of_ne fun he => Nat.ne_of_lt h.cached (he.symm.trans hid)

theorem perform {i : Nat} {t : SyntaxTree} (hi : f.trees[i]? = some t) (op : Operation) :
    Sound classes { f with trees := f.trees.set i (op.perform t) } := by
  have ht := List.mem_of_getElem? hi
  have hid := Operation.id_perform (h.orderly t ht).linked op
  have hmem : ∀ {P : SyntaxTree → Prop}, (∀ u ∈ f.trees, P u) → P (op.perform t) →
      ∀ u ∈ f.trees.set i (op.perform t), P u := by
    intro P hall hone u hu
    rcases List.mem_or_eq_of_mem_set hu with hu | rfl
    · exact hall u hu
    · exact hone
  refine ⟨hmem h.orderly ((h.orderly t ht).perform op), ?_, hmem h.fresh (hid ▸ h.fresh t ht),
    h.cached, hmem h.known ((h.known t ht).perform (h.orderly t ht) op)⟩
  have hmap : (f.trees.set i (op.perform t)).map SyntaxTree.id = f.trees.map SyntaxTree.id := by
    refine List.ext_getElem? fun j => ?_
    rw [List.map_set, hid, List.getElem?_set, List.getElem?_map]
    split
    next hij =>
      rw [← hij, hi, List.length_map, if_pos (List.getElem?_eq_some_iff.mp hi).1, Option.map_some]
    next => rfl
  rw [hmap]
  exact h.apart

theorem ask {t : SyntaxTree} (ht : t ∈ f.trees) (n : NodeId) :
    Sound classes { f with cache := (f.cache.typeOf classes t n).2 } where
  orderly := h.orderly
  apart := h.apart
  fresh := h.fresh
  cached := h.fresh t ht
  known u hu := by
    by_cases he : u.id = t.id
    · obtain rfl := List.inj_on_of_nodup_map h.apart hu ht he
      exact ((h.known u hu).typeOf (h.orderly u hu) n).2
    · exact .of_ne he

theorem act (a : Act) : Sound classes (f.act classes a) := by
  cases a with
  | plant => exact h.plant (orderly_empty _) rfl
  | fork i =>
    rw [Forest.act]
    cases hi : f.trees[i]? with
    | none => exact h
    | some t => exact h.plant ((h.orderly t (List.mem_of_getElem? hi)).fork _) rfl
  | perform i op =>
    rw [Forest.act]
    cases hi : f.trees[i]? with
    | none => exact h
    | some t => exact h.perform hi op
  | ask i n =>
    rw [Forest.act]
    cases hi : f.trees[i]? with
    | none => exact h
    | some t => exact h.ask (List.mem_of_getElem? hi) n

end Sound

theorem sound_after (classes : ClassTable) (acts : List Act) : Sound classes (after classes acts) := by
  have hstart : Sound classes start :=
    ⟨nofun, List.nodup_nil, nofun, Nat.zero_lt_one, nofun⟩
  rw [after]
  generalize start = f at hstart
  induction acts generalizing f with
  | nil => exact hstart
  | cons a acts ih => exact ih _ (hstart.act a)

/-- Whatever happened to whatever trees, and whatever was asked in between: about an attached node,
the resolver says what it would say if it had never been asked before. -/
theorem answers_as_fresh (classes : ClassTable) (acts : List Act) {i : Nat} {t : SyntaxTree}
    (hi : (after classes acts).trees[i]? = some t) {n : NodeId} (hn : t.isAttached n = true) :
    ((after classes acts).cache.typeOf classes t n).1 = (TypeCache.empty.typeOf classes t n).1 := by
  have h := sound_after classes acts
  have ht := List.mem_of_getElem? hi
  rw [typeOf_empty]
  exact ((h.known t ht).typeOf (h.orderly t ht) n).1 hn

/-- A name is asked for while nothing declares it, a block around it and a declaration is made, and
becomes the root; the tree is copied on the way. -/
def lateDeclaration : List Act :=
  [.plant, .perform 0 (.create ⟨.nameExpr "x", Span.none, none, [], []⟩), .ask 0 0,
    .perform 0 (.create ⟨.exprStmt, Span.none, none, [some 0], []⟩),
    .perform 0 (.create ⟨.primitiveType .int, Span.none, none, [], []⟩),
    .perform 0 (.create ⟨.localVar "x", Span.none, none, [some 2], []⟩), .fork 0, .ask 0 0,
    .perform 0 (.create ⟨.block, Span.none, none, [], [3, 1]⟩), .perform 0 (.setRoot 4), .ask 1 0]

/-- The name is unknown as long as it stands alone, and an `int` in the block. -/
theorem lateDeclaration_as_fresh : ∃ s t, (after .empty (lateDeclaration.take 2)).trees[0]? = some s ∧
    (TypeCache.empty.typeOf .empty s 0).1 = .unknown ∧
    (after .empty lateDeclaration).trees[0]? = some t ∧ t.isAttached 0 = true ∧
    ((after .empty lateDeclaration).cache.typeOf .empty t 0).1 = (TypeCache.empty.typeOf .empty t 0).1 ∧
    (TypeCache.empty.typeOf .empty t 0).1 = .resolved .int :=
  ⟨_, _, rfl, by decide, rfl, by decide,
    answers_as_fresh .empty lateDeclaration (i := 0) rfl (by decide), by decide⟩

end Forest

end TreeTidy

/-! Resolvers that are to be relied on for attached nodes. Those that keep their answers are, though
about other nodes they may say what is true no more. -/
namespace TreeTidy.Resolver

open SyntaxTree

variable {classes : ClassTable} {r : Resolver}

/-- The resolver knows the classes, and says of attached nodes what is found afresh. -/
structure Faithful (classes : ClassTable) (r : Resolver) : Prop where
  isSubtype : r.isSubtype = classes.isSubtype
  visibleType : ∀ t n name, r.visibleType t n name = t.visibleType classes n name
  typeOf : ∀ {t n}, t.Orderly → t.isAttached n = true → r.typeOf t n = Infer.typeOf classes t n

theorem faithful_scope (classes : ClassTable) : (scope classes).Faithful classes :=
  ⟨rfl, fun _ _ _ => rfl, fun _ _ => rfl⟩

/-- The scope resolver that keeps its answers, each question put to the cache as it is at that moment. -/
def caching (classes : ClassTable) (now : SyntaxTree → NodeId → TypeCache) : Resolver :=
  { scope classes with typeOf := fun t n => ((now t n).typeOf classes t n).1 }

theorem faithful_caching {now : SyntaxTree → NodeId → TypeCache}
    (h : ∀ t n, t.Orderly → Forest.Known classes (now t n) t) : (caching classes now).Faithful classes where
  isSubtype := rfl
  visibleType _ _ _ := rfl
  typeOf {t n} ht hn := ((h t n ht).typeOf ht n).1 hn

end TreeTidy.Resolver
