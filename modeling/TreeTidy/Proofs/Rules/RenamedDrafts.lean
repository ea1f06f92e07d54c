import TreeTidy.Proofs.Rules.RenamedPlans
import TreeTidy.Proofs.Rules.RenamedShapes
/-!
Drafts over trees that are the same under a renaming. Drafts use up pieces and give a new one; two of them
agree if they do so in the same way, so drafts are compared part by part.
-/
namespace TreeTidy

open SyntaxTree

namespace Draft

variable {g : NodeId → NodeId} {k : Nat} {u t : SyntaxTree} {d d' : Draft Piece} {used used' more : List Piece}
  {f f' : Piece → Draft Piece} {c c' : Piece → Draft Commit} {a b p : Piece} {n : NodeId}

/-- The drafts use the pieces once and give the same piece, with the same steps but for the names. -/
def Agree (g : NodeId → NodeId) (used : List Piece) (d d' : Draft Piece) : Prop :=
  ∀ steps rest, Sparing steps ((used ++ rest).map Piece.ref) →
    d' (steps.map (Step.rename g)) = ((d steps).1, (d steps).2.map (Step.rename g)) ∧
    Sparing (d steps).2 ((rest ++ [(d steps).1]).map Piece.ref)

/-- The drafts use the pieces once and end in the same commit, with the same steps but for the names. -/
def Conclude (g : NodeId → NodeId) (used : List Piece) (d d' : Draft Commit) : Prop :=
  ∀ steps, Sparing steps (used.map Piece.ref) →
    d' (steps.map (Step.rename g)) = ((d steps).1.rename g, (d steps).2.map (Step.rename g)) ∧
    (Plan.mk (d steps).2 (d steps).1).Sparing

theorem Agree.perm (h : Agree g used d d') (hp : used.Perm used') : Agree g used' d d' :=
  fun steps rest hs => h steps rest (hs.sub ((hp.append_right rest).map _).subperm)

theorem Conclude.perm {d d' : Draft Commit} (h : Conclude g used d d') (hp : used.Perm used') :
    Conclude g used' d d' :=
  fun steps hs => h steps (hs.sub (hp.map _).subperm)

theorem Agree.pure (p : Piece) : Agree g [p] (pure p) (pure p) :=
  fun _ _ hs => ⟨rfl, hs.sub (List.perm_append_comm.map _).subperm⟩

theorem Agree.bind (more : List Piece) (hd : Agree g used d d')
    (hf : ∀ p, Agree g (more ++ [p]) (f p) (f' p)) : Agree g (used ++ more) (d >>= f) (d' >>= f') := by
  intro steps rest hs
  obtain ⟨he, hd⟩ := hd steps (more ++ rest) (by rwa [← List.append_assoc])
  have hp : (more ++ [(d steps).1] ++ rest).Perm (more ++ rest ++ [(d steps).1]) := by
    rw [List.append_assoc, List.append_assoc]
    exact List.perm_append_comm.append_left more
  obtain ⟨he', hf⟩ := hf (d steps).1 (d steps).2 rest (hd.sub (hp.map _).subperm)
  refine ⟨?_, hf⟩
  change f' (d' _).1 (d' _).2 = _
  rw [he]
  exact he'

theorem Conclude.bind (more : List Piece) (hd : Agree g used d d')
    (hc : ∀ p, Conclude g (more ++ [p]) (c p) (c' p)) : Conclude g (used ++ more) (d >>= c) (d' >>= c') := by
  intro steps hs
  obtain ⟨he, hd⟩ := hd steps more hs
  obtain ⟨he', hc⟩ := hc (d steps).1 (d steps).2 hd
  refine ⟨?_, hc⟩
  change c' (d' _).1 (d' _).2 = _
  rw [he]
  exact he'

theorem Conclude.of_agree (hd : Agree g used d d') (hc : ∀ p, Conclude g [p] (c p) (c' p)) :
    Conclude g used (d >>= c) (d' >>= c') := by
  have h := Conclude.bind [] hd hc
  rwa [List.append_nil] at h

/-- New nodes keep their names. -/
theorem rename_of_sparing {steps : List Step} {r : Ref} (h : Sparing steps [r]) : r.rename g = r := by
  obtain ⟨i, -, rfl⟩ := h.new r (.head _)
  rfl

theorem Conclude.replace (site : NodeId) (p : Piece) :
    Conclude g [p] (Pure.pure (.replace site p.ref)) (Pure.pure (.replace (g site) p.ref)) := by
  intro steps hs
  refine ⟨?_, [p.ref], hs, fun r hr => .inl hr⟩
  change (Commit.replace (g site) p.ref, _) = (Commit.replace (g site) (p.ref.rename g), _)
  rw [rename_of_sparing hs]
  rfl

theorem Conclude.splice (first : NodeId) (count : Nat) (p : Piece) :
    Conclude g [p] (Pure.pure (.splice first count p.ref)) (Pure.pure (.splice (g first) count p.ref)) := by
  intro steps hs
  refine ⟨?_, [p.ref], hs, fun r hr => .inl hr⟩
  change (Commit.splice (g first) count p.ref, _) = (Commit.splice (g first) count (p.ref.rename g), _)
  rw [rename_of_sparing hs]
  rfl

theorem make_agree (kind : NodeKind) (span : Span) (slots list : List Piece) :
    Agree g (slots ++ list) (make kind span slots list) (make kind span slots list) := by
  intro steps rest hs
  have hheld : (slots.map fun p => some p.ref).filterMap (fun o => o) ++ list.map Piece.ref =
      (slots ++ list).map Piece.ref := by
    rw [List.filterMap_map, List.map_append]
    exact congrArg (· ++ _) (List.filterMap_eq_map ▸ rfl)
  have hname : ∀ p ∈ slots ++ list, p.ref.rename g = p.ref := by
    intro p hp
    obtain ⟨i, -, he⟩ := hs.new p.ref (List.mem_map_of_mem (List.mem_append_left _ hp))
    rw [he]
    rfl
  have hslots : (slots.map fun p => some p.ref).map (Option.map (Ref.rename g)) =
      slots.map fun p => some p.ref := by
    rw [List.map_map]
    exact List.map_congr_left fun p hp => congrArg some (hname p (List.mem_append_left _ hp))
  have hlist : (list.map Piece.ref).map (Ref.rename g) = list.map Piece.ref := by
    rw [List.map_map]
    exact List.map_congr_left fun p hp => hname p (List.mem_append_right _ hp)
  constructor
  · simp only [make, List.length_map, List.map_append, List.map_cons, List.map_nil, Step.rename, hslots, hlist]
  · rw [List.map_append, ← hheld] at hs
    simp only [make, List.map_append]
    exact hs.make kind span _ _

theorem atLevel_agree (level : Nat) (p : Piece) : Agree g [p] (atLevel level p) (atLevel level p) := by
  rw [atLevel]
  split
  · exact make_agree .paren p.span [p] []
  · exact .pure p

theorem negate_agree (p : Piece) : Agree g [p] (negate p) (negate p) :=
  .bind [] (atLevel_agree 12 p) fun operand => make_agree (.unary .not) p.span [operand] []

theorem join_agree (op : BinaryOp) (a b : Piece) : Agree g [a, b] (join op a b) (join op a b) := by
  refine .bind [b] (atLevel_agree _ a) fun left => ?_
  refine .bind [left] (atLevel_agree _ b) fun right => ?_
  exact make_agree (.binary op) _ [left, right] []

theorem choose_agree (cond yes no : Piece) :
    Agree g [cond, yes, no] (choose cond yes no) (choose cond yes no) := by
  refine .bind [yes, no] (atLevel_agree 2 cond) fun test => ?_
  exact (make_agree .conditional _ [test, yes, no] []).perm (List.perm_append_singleton test [yes, no]).symm

section Tree

variable (h : Renamed g k u t)
include h

theorem copy_agree (n : NodeId) : Agree g [] (copy u n) (copy t (g n)) := by
  intro steps rest hs
  constructor
  · simp only [copy, List.length_map, h.kind, h.span, List.map_append, List.map_cons, List.map_nil,
      Step.rename]
  · simp only [copy, List.map_append]
    exact hs.copy n

/-- Drafts that begin with a copy. -/
theorem Conclude.copy (n : NodeId) (hc : ∀ p, Conclude g (used ++ [p]) (c p) (c' p)) :
    Conclude g used (Draft.copy u n >>= c) (Draft.copy t (g n) >>= c') :=
  .bind used (copy_agree h n) hc

theorem callOnCopy_agree (receiver : NodeId) (name : String) :
    Agree g [] (callOnCopy u receiver name) (callOnCopy t (g receiver) name) := by
  refine .bind [] (copy_agree h receiver) fun p => ?_
  refine .bind [] (atLevel_agree 13 p) fun r => ?_
  rw [h.span]
  exact make_agree (.methodCall name) _ [r] []

/-- Copies of several nodes, all of them new. -/
theorem copyAll_agree {c c' : List Piece → Draft Commit} (ns : List NodeId) (used : List Piece)
    (hc : ∀ ps, Conclude g (used ++ ps) (c ps) (c' ps)) :
    Conclude g used (copyAll u ns >>= c) (copyAll t (ns.map g) >>= c') := by
  induction ns generalizing used c c' with
  | nil =>
    have hnil := hc []
    rwa [List.append_nil] at hnil
  | cons n ns ih =>
    change Conclude g ([] ++ used) (copy u n >>= fun p => copyAll u ns >>= fun ps => c (p :: ps))
      (copy t (g n) >>= fun p => copyAll t (ns.map g) >>= fun ps => c' (p :: ps))
    refine .bind used (copy_agree h n) fun p => ih (used ++ [p]) fun ps => ?_
    rw [List.append_assoc]
    exact hc (p :: ps)

/-- A new node is put in a place with parentheses in both trees, or without in both. -/
theorem putAt_conclude (site : NodeId) (p : Piece) : Conclude g [p] (putAt u site p) (putAt t (g site) p) := by
  intro steps hs
  obtain ⟨i, -, hi⟩ := hs.new p.ref (.head _)
  obtain ⟨_, kind, span⟩ := p
  obtain rfl := hi
  refine (?_ : Conclude g [⟨.new i, kind, span⟩] _ _) steps hs
  simp only [putAt, h.needsParens]
  cases u.needsParens site kind with
  | false => exact .replace site ⟨.new i, kind, span⟩
  | true =>
    refine .of_agree (.pure _) fun inner => ?_
    rw [h.span]
    exact .of_agree (make_agree .paren _ [inner] []) fun wrapped => .replace site wrapped

/-- A node of the tree is moved, or copied into parentheses. -/
theorem putAt_keep_conclude (site n : NodeId) :
    Conclude g [] (putAt u site (keep u n)) (putAt t (g site) (keep t (g n))) := by
  have hold : ∀ (t : SyntaxTree) (site n : NodeId) (kind : NodeKind) (span : Span),
      putAt t site ⟨.old n, kind, span⟩ = if (!t.needsParens site kind) = true then pure (.replace site (.old n))
        else copy t n >>= fun inner => make .paren (t.span site) [inner] [] >>= fun wrapped =>
          pure (.replace site wrapped.ref) := fun _ _ _ _ _ => rfl
  rw [keep, keep, h.kind, h.span, hold, hold, h.needsParens]
  by_cases hn : (!u.needsParens site (u.kind n)) = true
  · rw [if_pos hn, if_pos hn]
    exact fun steps hs => ⟨rfl, [], hs, fun r hr => .inr ⟨n, List.mem_singleton.mp hr⟩⟩
  · rw [if_neg hn, if_neg hn, h.span]
    refine .of_agree (copy_agree h n) fun inner => ?_
    exact .of_agree (make_agree .paren _ [inner] []) fun wrapped => .replace site wrapped

end Tree

end Draft

/-- Plans for the two trees: none for both, or one for both, which uses each node it makes once. -/
inductive Mirrored (g : NodeId → NodeId) : Option Plan → Option Plan → Prop
  | none : Mirrored g none none
  | some {p : Plan} (hp : p.Sparing) : Mirrored g (some p) (some (p.rename g))

namespace Mirrored

variable {g : NodeId → NodeId} {α β : Type} {o o' : Option Plan} {f : α → Option Plan} {f' : β → Option Plan}

/-- What is found in one tree is found in the other, and the rest of the plan may tell by where it was found. -/
theorem bind_of {x : Option α} {y : Option β} (r : α → β) (hx : y = x.map r)
    (hf : ∀ a, x = Option.some a → Mirrored g (f a) (f' (r a))) : Mirrored g (x.bind f) (y.bind f') := by
  rw [hx]
  cases x with
  | none => exact .none
  | some a => exact hf a rfl

theorem bind {x : Option α} {y : Option β} (r : α → β) (hx : y = x.map r)
    (hf : ∀ a, Mirrored g (f a) (f' (r a))) : Mirrored g (x.bind f) (y.bind f') :=
  bind_of r hx fun a _ => hf a

/-- What is looked at is the same for both trees. -/
theorem bind_same {x y : Option α} {f' : α → Option Plan} (hx : y = x)
    (hf : ∀ a, Mirrored g (f a) (f' a)) : Mirrored g (x.bind f) (y.bind f') := by
  rw [hx]
  cases x with
  | none => exact .none
  | some a => exact hf a

theorem ite {p q : Prop} [Decidable p] [Decidable q] {a a' b b' : Option Plan} (hpq : q ↔ p)
    (ha : Mirrored g a a') (hb : Mirrored g b b') :
    Mirrored g (if p then a else b) (if q then a' else b') := by
  by_cases hp : p
  · rw [if_pos hp, if_pos (hpq.mpr hp)]
    exact ha
  · rw [if_neg hp, if_neg (hp ∘ hpq.mp)]
    exact hb

theorem plan {d d' : Draft Commit} (h : Draft.Conclude g [] d d') :
    Mirrored g (Option.some (Draft.plan d)) (Option.some (Draft.plan d')) := by
  obtain ⟨he, hp⟩ := h [] .nil
  have hplan : Draft.plan d' = (Draft.plan d).rename g := by
    rw [Draft.plan, show d' [] = d' (([] : List Step).map (Step.rename g)) from rfl, he]
    rfl
  rw [hplan]
  exact .some hp

end Mirrored

end TreeTidy
