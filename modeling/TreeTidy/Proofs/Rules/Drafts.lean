import TreeTidy.Proofs.Rules.Performed
import TreeTidy.Proofs.Tree.Clear
/-!
What drafts make, as documents. A draft uses up parts and yields a new one; so drafts are followed one
after the other without looking at the trees in between.
-/
namespace TreeTidy

open SyntaxTree

namespace Doc

/-- A document that may become a part of the tree: it keeps to the layouts, it is clear if the tree is,
and its spans come of those in the tree. -/
structure Proper (t : SyntaxTree) (d : Doc) : Prop where
  conforms : d.Conforms
  clear : t.Clear → d.Clear
  spans : t.Spans d

/-- An expression that may become a part of the tree. -/
structure Expr (t : SyntaxTree) (d : Doc) : Prop extends Proper t d where
  kind : d.kind.isExpression = true

/-- An expression that may have parentheses around it. -/
def atLevel (level : Nat) (d : Doc) : Doc :=
  if d.kind.binding < level then make .paren d.span [d] [] else d

def negated (d : Doc) : Doc := make (.unary .not) d.span [d.atLevel 12] []

def joined (op : BinaryOp) (a b : Doc) : Doc :=
  make (.binary op) (a.span.cover b.span)
    [a.atLevel (op.precedence + 1), b.atLevel (op.precedence + 2)] []

def chosen (cond yes no : Doc) : Doc :=
  make .conditional (cond.span.cover no.span) [cond.atLevel 2, yes, no] []

def calledOn (receiver : Doc) (name : String) : Doc :=
  make (.methodCall name) receiver.span [receiver.atLevel 13] []

/-- An expression as it is put in the place of a node. -/
def placedAt (t : SyntaxTree) (site : NodeId) (d : Doc) : Doc :=
  if t.needsParens site d.kind then make .paren (t.span site) [d] [] else d

variable {t : SyntaxTree} {A B C : Doc} {kind : NodeKind} {span : Span} {slots list : List Doc}
  {level : Nat}

theorem conforms_make (hf : (make kind span slots list).Fits) (hs : ∀ d ∈ slots, d.Conforms)
    (hl : ∀ d ∈ list, d.Conforms) : (make kind span slots list).Conforms := by
  refine conforms_iff.mpr ⟨hf, ?_⟩
  intro pos c hc
  cases pos with
  | slot i =>
    have hm := List.mem_of_getElem? (child?_slot.mp hc)
    obtain ⟨d, hd, he⟩ := List.mem_map.mp hm
    exact Option.some.inj he ▸ hs d hd
  | list i => exact hl c (List.mem_of_getElem? hc)

theorem child?_make_slot {i : Nat} {c : Doc} :
    (make kind span slots list).child? (.slot i) = some c ↔ slots[i]? = some c := by
  rw [child?_slot, make, Doc.slots, List.getElem?_map]
  cases slots[i]? <;> simp

/-- A new node is clear if its children are and can stand in its slots, and it writes to nothing. -/
theorem clear_make (hw : kind.writes = false) (hb : kind.BearsFrom 0 slots) (hs : ∀ d ∈ slots, d.Clear)
    (hl : ∀ d ∈ list, d.Clear) : (make kind span slots list).Clear := by
  refine .of_children hw ?_ hl
  intro i c hc
  rw [child?_make_slot] at hc
  have hbc := hb.bears hc
  rw [Nat.zero_add] at hbc
  exact ⟨hs c (List.mem_of_getElem? hc), hbc⟩

theorem Proper.make (hf : (make kind span slots list).Fits) (hspan : t.Spanned span)
    (hw : kind.writes = false) (hb : t.Clear → kind.BearsFrom 0 slots) (hs : ∀ d ∈ slots, d.Proper t)
    (hl : ∀ d ∈ list, d.Proper t) : (make kind span slots list).Proper t where
  conforms := conforms_make hf (fun d hd => (hs d hd).conforms) fun d hd => (hl d hd).conforms
  clear h := clear_make hw (hb h) (fun d hd => (hs d hd).clear h) fun d hd => (hl d hd).clear h
  spans := by
    refine all_node hspan ?_ fun c hc => (hl c hc).spans
    intro c hc
    obtain ⟨d, hd, he⟩ := List.mem_map.mp hc
    exact Option.some.inj he ▸ (hs d hd).spans

/-- Parentheses are put where the level asks for them. -/
theorem le_binding_atLevel (h : level ≤ 13) : level ≤ (A.atLevel level).kind.binding := by
  unfold atLevel
  split
  · exact h
  next hb => exact Nat.not_lt.mp hb

/-- Expressions fit slots that are for one each. -/
theorem fits_make (hl : kind.layout = .fixed (slots.map fun _ => .must .expr))
    (hs : ∀ d ∈ slots, d.kind.isExpression = true) : (make kind span slots []).Fits := by
  refine ⟨?_, fun _ => rfl, ?_⟩
  · show List.Forall₂ _ ((slots.map some).map (Option.map Doc.kind)) kind.layout.slots
    rw [hl, Layout.fixed]
    clear hl
    induction slots with
    | nil => exact .nil
    | cons d slots ih => exact .cons (hs d (.head _)) (ih fun d hd => hs d (.tail _ hd))
  · intro s h
    cases (congrArg Layout.list hl).symm.trans h

namespace Expr

/-- An expression over expressions, each of them in a slot for one. -/
theorem make (hspan : t.Spanned span) (hk : kind.isExpression = true)
    (hl : kind.layout = .fixed (slots.map fun _ => .must .expr)) (hw : kind.writes = false)
    (hb : t.Clear → kind.BearsFrom 0 slots) (hs : ∀ d ∈ slots, d.Expr t) :
    (Doc.make kind span slots []).Expr t :=
  ⟨.make (fits_make hl fun d hd => (hs d hd).kind) hspan hw hb (fun d hd => (hs d hd).toProper)
    (List.forall_mem_nil _), hk⟩

/-- An expression without children. -/
theorem leaf (hspan : t.Spanned span) (hk : kind.isExpression = true) (hl : kind.layout = .fixed [])
    (hw : kind.writes = false) : (Doc.make kind span [] []).Expr t :=
  make hspan hk hl hw (fun _ => trivial) (List.forall_mem_nil _)

theorem call (hspan : t.Spanned span) (name : String) (args : List Doc) (hA : A.Expr t)
    (hb : t.Clear → A.kind.binding = 13) (ha : ∀ d ∈ args, d.Expr t) :
    (Doc.make (.methodCall name) span [A] args).Expr t := by
  refine ⟨.make ⟨.cons hA.kind .nil, nofun, ?_⟩ hspan rfl
    (fun h => ⟨NodeKind.bears_of_binding (hb h), trivial⟩) ?_ fun d hd => (ha d hd).toProper, rfl⟩
  · rintro _ ⟨⟩
    refine ⟨Nat.zero_le _, ?_⟩
    intro k hk
    obtain ⟨d, hd, rfl⟩ := List.mem_map.mp hk
    exact (ha d hd).kind
  · exact List.forall_mem_singleton.mpr hA.toProper

variable (hA : A.Expr t)
include hA

theorem spanned : t.Spanned A.span := hA.spans.self

theorem fits_paren : (Doc.make .paren span [A] []).Fits :=
  fits_make rfl (List.forall_mem_singleton.mpr hA.kind)

theorem paren (hspan : t.Spanned span) : (Doc.make .paren span [A] []).Expr t :=
  make hspan rfl rfl rfl (fun _ => ⟨.inl (Nat.zero_le _), trivial⟩) (List.forall_mem_singleton.mpr hA)

theorem atLevel (level : Nat) : (A.atLevel level).Expr t := by
  unfold Doc.atLevel
  split
  · exact hA.paren hA.spanned
  · exact hA

theorem negated : A.negated.Expr t :=
  make hA.spanned rfl rfl rfl (fun _ => ⟨.inl (le_binding_atLevel (by decide)), trivial⟩)
    (List.forall_mem_singleton.mpr (hA.atLevel 12))

theorem calledOn (name : String) : (A.calledOn name).Expr t :=
  call hA.spanned name [] (hA.atLevel 13)
    (fun _ => le_antisymm (NodeKind.binding_le _) (le_binding_atLevel (le_refl 13))) nofun

theorem placedAt (site : NodeId) (hs : t.isAttached site = true) : (A.placedAt t site).Expr t := by
  unfold Doc.placedAt
  split
  · exact hA.paren (.own hs)
  · exact hA

theorem joined (op : BinaryOp) (hB : B.Expr t) : (A.joined op B).Expr t := by
  have hr : op.precedence + 2 ≤ 13 := by cases op <;> decide
  have hl : op.precedence + 1 ≤ 13 := by omega
  exact make (hA.spanned.cover hB.spanned) rfl rfl rfl
    (fun _ => ⟨.inl (le_binding_atLevel hl), .inl (le_binding_atLevel hr), trivial⟩)
    (by simp [hA.atLevel, hB.atLevel])

/-- A choice that ends with something that binds as tightly as one does, or with a lambda. -/
theorem chosen (hB : B.Expr t) (hC : C.Expr t) (hb : NodeKind.conditional.Bears (.slot 2) C.kind) :
    (A.chosen B C).Expr t :=
  make (hA.spanned.cover hC.spanned) rfl rfl rfl
    (fun _ => ⟨.inl (le_binding_atLevel (by decide)), .inl (Nat.zero_le _), hb, trivial⟩)
    (by simp [hA.atLevel, hB, hC])

end Expr

end Doc

/-- What is in the tree may become a part of it once more. -/
theorem SyntaxTree.Laid.proper {t : SyntaxTree} {n : NodeId} (ht : t.Linked) (hl : t.Laid)
    (hn : t.isAttached n = true) : (t.doc n).Proper t :=
  ⟨hl.conforms ht hn, fun h => h.doc ht hn, ht.spans_doc hn⟩

namespace Draft

variable {t : SyntaxTree} {d : Draft Piece} {f : Piece → Draft Piece} {g : Piece → Draft Commit}
  {used used' more : List Part} {A B C D E : Doc} {a b p q : Piece} {c : Ref → Commit} {n : NodeId}

/-- The draft uses the parts and gives a piece with the document. -/
def Yields (t : SyntaxTree) (d : Draft Piece) (used : List Part) (D : Doc) : Prop :=
  ∀ steps rest, Ready t steps (used ++ rest) → Ready t (d steps).2 (rest ++ [((d steps).1, D)])

/-- The draft uses the parts and ends with a change that takes in a node with the document. -/
def Ends (t : SyntaxTree) (d : Draft Commit) (used : List Part) (c : Ref → Commit) (D : Doc) : Prop :=
  ∀ steps, Ready t steps used → ∃ q : Piece, (d steps).1 = c q.ref ∧ Ready t (d steps).2 [(q, D)]

/-- What pieces tell of their documents may be used. -/
theorem Yields.told (h : (∀ e ∈ used, e.1.kind = e.2.kind ∧ e.1.span = e.2.span) →
    d.Yields t used D) : d.Yields t used D := by
  intro steps rest hr
  obtain ⟨made, u, hp⟩ := id hr
  exact h (fun e he => hp.told e (List.mem_append_left _ he)) steps rest hr

theorem Yields.perm (h : d.Yields t used D) (hp : used.Perm used') : d.Yields t used' D :=
  fun steps rest hr => h steps rest (hr.perm (hp.append_right rest))

theorem Yields.pure (p : Piece) (D : Doc) : (pure p : Draft Piece).Yields t [(p, D)] D :=
  fun _ _ hr => hr.perm List.perm_append_comm

theorem Yields.bind (more : List Part) (hd : d.Yields t used D)
    (hf : ∀ p, (f p).Yields t (more ++ [(p, D)]) E) : (d >>= f).Yields t (used ++ more) E := by
  intro steps rest hr
  have h := hd steps (more ++ rest) (by rwa [← List.append_assoc])
  refine hf (d steps).1 (d steps).2 rest (h.perm ?_)
  rw [List.append_assoc, List.append_assoc]
  exact List.perm_append_comm.append_left more

theorem Ends.bind (more : List Part) (hd : d.Yields t used D)
    (hg : ∀ p, (g p).Ends t (more ++ [(p, D)]) c E) : (d >>= g).Ends t (used ++ more) c E :=
  fun steps hr => hg (d steps).1 (d steps).2 (hd steps more hr)

theorem Ends.of_yields (hd : d.Yields t used D) (hg : ∀ p, (g p).Ends t [(p, D)] c E) :
    (d >>= g).Ends t used c E := by
  have h := Ends.bind [] hd hg
  rwa [List.append_nil] at h

theorem Ends.pure (c : Ref → Commit) (p : Piece) (D : Doc) :
    (pure (c p.ref) : Draft Commit).Ends t [(p, D)] c D :=
  fun _ hr => ⟨p, rfl, hr⟩

theorem Ends.perm {d : Draft Commit} (h : d.Ends t used c D) (hp : used.Perm used') :
    d.Ends t used' c D :=
  fun steps hr => h steps (hr.perm hp)

theorem copy_yields (ht : t.Linked) (hn : t.isAlive n = true) :
    (copy t n).Yields t [] (t.doc n) :=
  fun _ _ hr => hr.copy ht (lt_of_alive hn)

theorem copyAll_ready {steps : List Step} {ns : List NodeId} (ht : t.Linked)
    (hn : ∀ n ∈ ns, t.isAlive n = true) (hr : Ready t steps used) :
    ∃ qs : List Part, qs.map Prod.fst = (copyAll t ns steps).1 ∧ qs.map Prod.snd = ns.map t.doc ∧
      Ready t (copyAll t ns steps).2 (used ++ qs) := by
  induction ns generalizing steps used with
  | nil => exact ⟨[], rfl, rfl, by rwa [List.append_nil]⟩
  | cons n ns ih =>
    have hc := hr.copy ht (lt_of_alive (hn n (.head _)))
    obtain ⟨qs, hp, hd, hq⟩ := ih (fun m hm => hn m (.tail _ hm)) hc
    refine ⟨((copy t n steps).1, t.doc n) :: qs, congrArg (_ :: ·) hp, congrArg (_ :: ·) hd, ?_⟩
    rw [List.append_cons]
    exact hq

theorem Ends.copyAll {g : List Piece → Draft Commit} {ns : List NodeId} (ht : t.Linked)
    (hn : ∀ n ∈ ns, t.isAlive n = true)
    (hg : ∀ qs : List Part, qs.map Prod.snd = ns.map t.doc → (g (qs.map Prod.fst)).Ends t qs c E) :
    (copyAll t ns >>= g).Ends t [] c E := by
  intro steps hr
  obtain ⟨qs, hp, hd, hq⟩ := copyAll_ready ht hn hr
  have h := hg qs hd (Draft.copyAll t ns steps).2 hq
  rw [hp] at h
  exact h

theorem make_yields {kind : NodeKind} {span : Span} (ps qs : List Part)
    (hf : (Doc.make kind span (ps.map Prod.snd) (qs.map Prod.snd)).Fits) :
    (make kind span (ps.map Prod.fst) (qs.map Prod.fst)).Yields t (ps ++ qs)
      (Doc.make kind span (ps.map Prod.snd) (qs.map Prod.snd)) := by
  intro steps rest hr
  have h := hr.make hf
  rw [make, List.map_map, List.map_map]
  exact h

theorem atLevel_yields (level : Nat) (p : Piece) (hD : D.Expr t) :
    (atLevel level p).Yields t [(p, D)] (D.atLevel level) := by
  apply Yields.told
  intro h
  obtain ⟨hk, hs⟩ := h (p, D) (.head _)
  simp only at hk hs
  rw [atLevel, Doc.atLevel, hk, hs]
  split
  · exact make_yields [(p, D)] [] hD.fits_paren
  · exact Yields.pure p D

theorem negate_yields (p : Piece) (hD : D.Expr t) : (negate p).Yields t [(p, D)] D.negated := by
  apply Yields.told
  intro h
  rw [negate, (h (p, D) (.head _)).2]
  apply Yields.bind [] (atLevel_yields 12 p hD)
  intro operand
  exact make_yields [(operand, D.atLevel 12)] [] hD.negated.conforms.fits

theorem join_yields (op : BinaryOp) (a b : Piece) (hA : A.Expr t) (hB : B.Expr t) :
    (join op a b).Yields t [(a, A), (b, B)] (A.joined op B) := by
  apply Yields.told
  intro h
  rw [join, (h (a, A) (.head _)).2, (h (b, B) (.tail _ (.head _))).2]
  apply Yields.bind [(b, B)] (atLevel_yields _ a hA)
  intro left
  apply Yields.bind [(left, _)] (atLevel_yields _ b hB)
  intro right
  exact make_yields [(left, _), (right, _)] [] (hA.joined op hB).conforms.fits

theorem choose_yields (cond yes no : Piece) (hA : A.Expr t) (hB : B.Expr t) (hC : C.Expr t)
    (hb : NodeKind.conditional.Bears (.slot 2) C.kind) :
    (choose cond yes no).Yields t [(cond, A), (yes, B), (no, C)] (A.chosen B C) := by
  apply Yields.told
  intro h
  rw [choose, (h (cond, A) (.head _)).2, (h (no, C) (.tail _ (.tail _ (.head _)))).2]
  apply Yields.bind [(yes, B), (no, C)] (atLevel_yields 2 cond hA)
  intro test
  refine Yields.perm (make_yields [(test, A.atLevel 2), (yes, B), (no, C)] []
    (hA.chosen hB hC hb).conforms.fits) ?_
  exact (List.perm_append_singleton (test, A.atLevel 2) [(yes, B), (no, C)]).symm

theorem callOnCopy_yields (ht : t.Linked) (hn : t.isAlive n = true) (hD : (t.doc n).Expr t)
    (name : String) : (callOnCopy t n name).Yields t [] ((t.doc n).calledOn name) := by
  apply Yields.bind [] (copy_yields ht hn)
  intro p
  apply Yields.bind [] (atLevel_yields 13 p hD)
  intro r
  rw [Doc.calledOn, ht.span_doc]
  exact make_yields [(r, (t.doc n).atLevel 13)] [] (hD.calledOn name).conforms.fits

/-- A new node is put in a place as it is, or with parentheses around it. -/
theorem putAt_ends (site : NodeId) (p : Piece) (hD : D.Expr t) :
    (putAt t site p).Ends t [(p, D)] (.replace site) (D.placedAt t site) := by
  intro steps hr
  obtain ⟨made, u, hp⟩ := id hr
  obtain ⟨i, -, href⟩ := hp.ref (p, D) (.head _)
  have hk := (hp.told (p, D) (.head _)).1
  simp only at href hk
  rw [putAt, Doc.placedAt, ← hk]
  cases hn : t.needsParens site p.kind with
  | false => exact Ends.pure _ p D steps hr
  | true =>
    simp only [href]
    refine Ends.of_yields (Yields.pure p D) ?_ steps hr
    intro inner
    apply Ends.of_yields (make_yields [(inner, D)] [] hD.fits_paren)
    intro wrapped
    exact Ends.pure _ wrapped _

end Draft

end TreeTidy
