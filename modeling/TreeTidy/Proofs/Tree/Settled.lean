import TreeTidy.Proofs.Tree.Bounds
import TreeTidy.Proofs.Tree.Holes
/-!
Successors. Only a dead node has one: a node is given its successor when it dies, and never lives again.
-/
namespace TreeTidy.SyntaxTree

variable {t u v : SyntaxTree} {m n p : NodeId}

/-- No living node has a successor. -/
def Settled (t : SyntaxTree) : Prop := ∀ n, t.isAlive n = true → (t.node n).successor = none

/-- What is alive has no successor, or was alive before and has the successor that it had. -/
def Ages (t u : SyntaxTree) : Prop := ∀ n, u.isAlive n = true →
  (u.node n).successor = none ∨
    t.isAlive n = true ∧ (u.node n).successor = (t.node n).successor

namespace Ages

theorem refl (t : SyntaxTree) : t.Ages t := fun _ hn => .inr ⟨hn, rfl⟩

theorem trans (h : t.Ages u) (h' : u.Ages v) : t.Ages v := by
  intro n hn
  rcases h' n hn with hs | ⟨hu, hs⟩
  · exact .inl hs
  · rw [hs]
    exact h n hu

theorem settled (h : t.Ages u) (ht : t.Settled) : u.Settled := by
  intro n hn
  rcases h n hn with hs | ⟨ha, hs⟩
  · exact hs
  · exact hs.trans (ht n ha)

theorem of_nodes (h : ∀ n, u.isAlive n = true →
    t.isAlive n = true ∧ (u.node n).successor = (t.node n).successor) : t.Ages u :=
  fun n hn => .inr (h n hn)

theorem bump (t : SyntaxTree) : t.Ages t.bump := of_nodes fun _ hn => ⟨hn, rfl⟩

theorem withRoot (t : SyntaxTree) (n : NodeId) : t.Ages (t.withRoot n) :=
  of_nodes fun _ hn => ⟨hn, rfl⟩

/-- A change of one node that neither revives it nor touches its successor. -/
theorem update {f : Node → Node} (ha : ∀ d, (f d).alive = true → d.alive = true)
    (hs : ∀ d, (f d).successor = d.successor) (t : SyntaxTree) (n : NodeId) : t.Ages (t.update n f) := by
  refine of_nodes fun m hm => ?_
  rw [isAlive, node_update] at hm
  rw [node_update]
  split at hm
  next h => exact ⟨ha _ hm, by rw [if_pos h, hs]⟩
  next h => exact ⟨hm, by rw [if_neg h]⟩

theorem foldl {α : Type} {f : SyntaxTree → α → SyntaxTree} (hf : ∀ (t : SyntaxTree) a, t.Ages (f t a))
    (as : List α) (t : SyntaxTree) : t.Ages (as.foldl f t) := by
  induction as generalizing t with
  | nil => exact refl t
  | cons a as ih => exact (hf t a).trans (ih (f t a))

theorem foldl_update {f : Node → Node} (ha : ∀ d, (f d).alive = true → d.alive = true)
    (hs : ∀ d, (f d).successor = d.successor) (ns : List NodeId) (t : SyntaxTree) :
    t.Ages (ns.foldl (fun u c => u.update c f) t) := foldl (fun t c => update ha hs t c) ns t

theorem unlink (ht : t.Linked) (n : NodeId) : t.Ages (t.unlink n) := by
  refine of_nodes fun m hm => ⟨?_, successor_unlink ht m⟩
  rwa [isAlive_unlink ht] at hm

theorem destroy (t : SyntaxTree) (n : NodeId) : t.Ages (t.destroy n) := by
  refine foldl_update ?_ ?_ _ t
  · exact fun _ h => absurd h Bool.false_ne_true
  · exact fun _ => rfl

theorem exchange {outs ins moved kept : List NodeId} {slots : List (Option NodeId)} {list : List NodeId}
    (h : t.Exchange p slots list moved outs ins kept) (ht : t.Linked) :
    t.Ages (t.exchange p slots list moved outs ins) :=
  of_nodes fun m hm => ⟨h.alive_before hm, h.successor ht m⟩

/-- A dead node may be given a successor. -/
theorem succeed (hn : t.isAlive n = false) (f : Node → Option NodeId) :
    t.Ages (t.update n fun d => { d with successor := f d }) := by
  refine of_nodes fun m hm => ?_
  rw [isAlive, node_update] at hm
  rw [node_update]
  split at hm
  next h =>
    rw [h.1] at hm
    exact absurd (hn.symm.trans hm) Bool.false_ne_true
  next h => exact ⟨hm, by rw [if_neg h]⟩

theorem retire (t : SyntaxTree) (n : NodeId) (s : Option NodeId) : t.Ages (t.retire n s) := by
  refine (destroy t n).trans (succeed ?_ _)
  rw [isAlive, node_destroy, if_pos (mem_descendants_iff.mpr .refl)]

theorem allocate (t : SyntaxTree) (kind : NodeKind) (span : Span) (ty : Option TypeDesc)
    (slots : List (Option NodeId)) (list : List NodeId) :
    t.Ages (t.allocate kind span ty slots list) := by
  have hpush : t.Ages (t.push ⟨kind, span, ty, slots, list, none, true, none⟩) := by
    intro m hm
    rw [isAlive, node_push] at hm
    rw [node_push]
    split
    · exact .inl rfl
    next h =>
      rw [if_neg h] at hm
      exact .inr ⟨hm, rfl⟩
  refine hpush.trans (foldl_update ?_ ?_ _ _)
  · exact fun _ h => h
  · exact fun _ => rfl

theorem mapThrough {α β : Type} {f : SyntaxTree → α → β × SyntaxTree}
    (hf : ∀ (t : SyntaxTree) a, t.Ages (f t a).2)
    (as : List α) (t : SyntaxTree) : t.Ages (mapThrough f t as).2 := by
  induction as generalizing t with
  | nil => exact refl t
  | cons a as ih => exact (hf t a).trans (ih _)

theorem cloneWithin (f : Nat) (t : SyntaxTree) (n : NodeId) : t.Ages (cloneWithin f t n).2 := by
  induction f generalizing t n with
  | zero => exact allocate t _ _ _ _ _
  | succ f ih =>
    have hslot : ∀ (t : SyntaxTree) (o : Option NodeId), t.Ages (mapSlot (SyntaxTree.cloneWithin f) t o).2 := by
      intro t o
      cases o with
      | none => exact refl t
      | some c => exact ih t c
    exact ((mapThrough hslot _ t).trans (mapThrough ih _ _)).trans (allocate _ _ _ _ _ _)

end Ages

namespace Linked

variable (ht : t.Linked)
include ht

theorem ages_appliedTo? {c : Change} (h : c.appliedTo? t = some u) : t.Ages u := by
  cases c with
  | replace old new =>
    obtain ⟨-, ho, hr, ⟨-, -, rfl⟩ | ⟨p, pos, hp, hat, -, rfl⟩⟩ := ht.replace?_cases h
    · exact (((Ages.unlink ht new).trans (.withRoot _ new)).trans (.retire _ _ _)).trans (.bump _)
    · have hx := ht.exchange_replace ho hp hat hr
      exact ((Ages.exchange hx ht).trans (.succeed (hx.out_dead (.head _)) _)).trans (.bump _)
  | remove n =>
    obtain ⟨ho, p, pos, hp, hat, -, rfl⟩ := ht.remove?_cases h
    exact (Ages.exchange (ht.exchange_remove ho hp hat) ht).trans (.bump _)
  | insertBefore anchor new =>
    obtain ⟨ha, hd, p, i, hp, hi, -, rfl⟩ := ht.insertAt?_cases h (Nat.zero_le 1)
    exact (Ages.exchange (ht.exchange_insert ha hd hp hi (Nat.zero_le 1)) ht).trans (.bump _)
  | insertAfter anchor new =>
    obtain ⟨ha, hd, p, i, hp, hi, -, rfl⟩ := ht.insertAt?_cases h (le_refl 1)
    exact (Ages.exchange (ht.exchange_insert ha hd hp hi (le_refl 1)) ht).trans (.bump _)
  | splice first count news =>
    obtain ⟨hc, hf, p, i, spec, hp, hi, -, -, -, hn, hr, rfl⟩ := ht.splice?_cases h
    have hx := ht.exchange_splice hf hp hn fun n hm => (hr n hm).2.1
    have hfirst : first ∈ ((t.list p).drop i).take count := by
      obtain ⟨hlt, he⟩ := List.getElem?_eq_some_iff.mp hi
      rw [List.drop_eq_getElem_cons hlt, he]
      obtain ⟨count, rfl⟩ := Nat.exists_eq_add_one.mpr hc
      exact .head _
    exact ((Ages.exchange hx ht).trans (.succeed (hx.out_dead hfirst) _)).trans (.bump _)

theorem ages_perform (op : Operation) : t.Ages (op.perform t) := by
  cases op with
  | setRoot n =>
    rw [Operation.perform]
    cases h : t.setRoot? n with
    | error e => exact .refl t
    | ok u =>
      obtain ⟨-, rfl⟩ := setRoot?_cases h
      exact ((Ages.foldl .destroy _ t).trans (.withRoot _ n)).trans (.bump _)
  | create s =>
    rw [Operation.perform]
    cases h : t.create? s with
    | error e => exact .refl t
    | ok r =>
      obtain ⟨-, -, -, rfl⟩ := create?_eq_ok.mp h
      exact .allocate t _ _ _ _ _
  | clone n => exact .cloneWithin _ t n
  | setType n ty =>
    refine Ages.trans (u := t.update n fun d => { d with ty := ty }) (.update ?_ ?_ t n) (.bump _)
    · exact fun _ h => h
    · exact fun _ => rfl
  | change c =>
    rw [Operation.perform]
    cases h : c.appliedTo? t with
    | none => exact .refl t
    | some u => exact ht.ages_appliedTo? h

end Linked

/-- The links of a tree agree, its children are admitted where they are, and only what is dead has a
successor. All trees that come about are orderly. -/
structure Orderly (t : SyntaxTree) : Prop where
  linked : t.Linked
  admitted : t.Admitted
  settled : t.Settled

theorem Orderly.perform (ht : t.Orderly) (op : Operation) : (op.perform t).Orderly :=
  ⟨ht.linked.perform op, ht.admitted.perform ht.linked op, (ht.linked.ages_perform op).settled ht.settled⟩

theorem Orderly.fork (ht : t.Orderly) (id : Nat) : (t.fork id).Orderly where
  linked := ht.linked.congr rfl rfl (fun _ => rfl) (fun _ => rfl) fun _ => rfl
  admitted := by
    have hd : ∀ n, (t.fork id).doc n = t.doc n := doc_of_data rfl fun _ => rfl
    exact (admitted_congr hd).mpr ht.admitted
  settled := ht.settled

theorem orderly_empty (id : Nat) : (empty id).Orderly where
  linked := linked_empty id
  admitted := admitted_empty id
  settled n hn := absurd (lt_of_alive hn) (Nat.not_lt_zero n)

/-- A tree keeps its identity. -/
theorem Linked.id_appliedTo? (ht : t.Linked) {c : Change} (h : c.appliedTo? t = some u) : u.id = t.id := by
  cases c with
  | replace old new =>
    obtain ⟨-, ho, hr, ⟨-, -, rfl⟩ | ⟨p, pos, hp, hat, -, rfl⟩⟩ := ht.replace?_cases h
    · rw [id_bump, SyntaxTree.retire, id_update, id_destroy, id_withRoot, (marks_unlink t new).2.2.1]
    · rw [id_bump, id_update, (ht.exchange_replace ho hp hat hr).marks.2.2.1]
  | remove n =>
    obtain ⟨ho, p, pos, hp, hat, -, rfl⟩ := ht.remove?_cases h
    rw [id_bump, (ht.exchange_remove ho hp hat).marks.2.2.1]
  | insertBefore anchor new =>
    obtain ⟨ha, hd, p, i, hp, hi, -, rfl⟩ := ht.insertAt?_cases h (Nat.zero_le 1)
    rw [id_bump, (ht.exchange_insert ha hd hp hi (Nat.zero_le 1)).marks.2.2.1]
  | insertAfter anchor new =>
    obtain ⟨ha, hd, p, i, hp, hi, -, rfl⟩ := ht.insertAt?_cases h (le_refl 1)
    rw [id_bump, (ht.exchange_insert ha hd hp hi (le_refl 1)).marks.2.2.1]
  | splice first count news =>
    obtain ⟨-, ha, p, i, spec, hp, -, -, -, -, hn, hr, rfl⟩ := ht.splice?_cases h
    rw [id_bump, id_update, (ht.exchange_splice ha hp hn fun n hn => (hr n hn).2.1).marks.2.2.1]

theorem Operation.id_perform (ht : t.Linked) (op : Operation) : (op.perform t).id = t.id := by
  cases op with
  | setRoot n =>
    rw [perform]
    cases h : t.setRoot? n with
    | error e => rfl
    | ok u =>
      obtain ⟨-, rfl⟩ := setRoot?_cases h
      exact (marks_foldl_destroy _ _).2.2.1
  | create s =>
    rw [perform]
    cases h : t.create? s with
    | error e => rfl
    | ok r => exact (ht.create? h).grown.id
  | clone n => exact (ht.clone n).kept.id
  | setType n ty => rfl
  | change c =>
    rw [perform]
    cases h : c.appliedTo? t with
    | none => rfl
    | some u => exact ht.id_appliedTo? h

end TreeTidy.SyntaxTree
