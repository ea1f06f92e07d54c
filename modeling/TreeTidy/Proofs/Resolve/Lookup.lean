import TreeTidy.Proofs.Resolve.Grounded
import TreeTidy.Proofs.Tree.Outcomes
/-!
What names refer to in two trees. In the copy of an expression they refer to what they referred to in the
expression, once its surroundings do; and where one block has another list of statements, nothing changes
around it and nothing in front of the first statement that is another one.
-/
namespace TreeTidy

/-- Whether nodes of the kind may declare something for their children. -/
def NodeKind.isScope : NodeKind → Bool
  | block | forEach _ | lambda _ | methodDecl _ | constructorDecl _ | classDecl _ _ => true
  | _ => false

/-- Statements are listed in blocks only. -/
theorem NodeKind.block_of_admits {k c : NodeKind} (h : k.admits (.list 0) c = true)
    (hc : c.category = .statement) : k = .block := by
  obtain ⟨s, hs, ha⟩ := NodeKind.admits_list.mp h
  cases k <;> simp [layout, Layout.fixed, Layout.many] at hs
  all_goals
    first
    | rfl
    | subst hs
      simp [SlotClass.accepts, hc] at ha

namespace SyntaxTree

variable {t u : SyntaxTree} {a a' b b' c c' d m n p q : NodeId} {name : String} {i : Nat}
  {pos : Position} {way : List Position} {R : NodeId → NodeId → Prop}

section Scopes

theorem declaredFor?_of_not_isScope (h : (t.kind q).isScope = false) :
    t.declaredFor? name q c = none := by
  unfold declaredFor?
  cases hk : t.kind q <;> rw [hk] at h <;> first | rfl | cases h

theorem declaredFor?_block (hk : t.kind p = .block) (hp : t.position? c = some (.list i)) :
    t.declaredFor? name p c = ((t.list p).take i).reverse.find? (t.isLocalVar name) := by
  simp only [declaredFor?, hk, hp]

/-- What a scope declares is in its list and no expression, or it is the scope. -/
theorem declaredFor?_mem (h : t.declaredFor? name q c = some d) :
    d = q ∨ d ∈ t.list q ∧ (t.kind d).isExpression = false := by
  have hfound : ∀ {P : NodeId → Bool} {k : NodeKind} {l : List NodeId}, l.find? P = some d →
      (∀ e, P e = (t.kind e == k)) → k.isExpression = false →
      d ∈ l ∧ (t.kind d).isExpression = false := by
    intro P k l hf hP hk
    have hd := List.find?_some hf
    rw [hP, beq_iff_eq] at hd
    exact ⟨List.mem_of_find?_eq_some hf, by rw [hd, hk]⟩
  unfold declaredFor? at h
  split at h
  · split at h
    next i _ =>
      obtain ⟨hm, hk⟩ := hfound h (fun _ => rfl) rfl
      exact .inr ⟨List.mem_of_mem_take (List.mem_reverse.mp hm), hk⟩
    · cases h
  · split at h
    · cases h
      exact .inl rfl
    · cases h
  · exact .inr (hfound h (fun _ => rfl) rfl)
  · exact .inr (hfound h (fun _ => rfl) rfl)
  · exact .inr (hfound h (fun _ => rfl) rfl)
  · exact .inr (hfound h (fun _ => rfl) rfl)
  · cases h

namespace Linked

variable (ht : t.Linked)
include ht

theorem lookupVariable?_child (hp : t.parent? c = some q) : t.lookupVariable? c name =
    (t.declaredFor? name q c).or (t.lookupVariable? q name) := by
  rw [lookupVariable?, ht.ancestors_of_parent hp, declaredOutward?]
  cases t.declaredFor? name q c <;> rfl

theorem lookupVariable?_pass (hp : t.parent? c = some q) (h : (t.kind q).isScope = false) :
    t.lookupVariable? c name = t.lookupVariable? q name := by
  rw [ht.lookupVariable?_child hp, declaredFor?_of_not_isScope h, Option.none_or]

/-- What a name refers to at an expression is not in the expression. -/
theorem lookupVariable?_outside (hk : (t.kind a).isExpression = true)
    (h : t.lookupVariable? a name = some d) : ¬ t.Within d a := by
  intro hd
  obtain ⟨scope, child, hp, hw, hdecl⟩ := ht.lookupVariable?_cases h
  have hscope : ¬ t.Within scope a := fun hs =>
    ht.below_irrefl scope (Within.below (hs.trans hw) (ht.held hp).1)
  rcases declaredFor?_mem hdecl with rfl | ⟨hm, hkd⟩
  · exact hscope hd
  · have hc : t.Child d scope := List.mem_append_right _ hm
    have hda : t.isAlive d = true := by rw [(ht.child hc).2, ht.parent_alive hp]
    rcases Relation.ReflTransGen.cases_head hd with rfl | ⟨e, hde, he⟩
    · rw [hk] at hkd
      cases hkd
    · exact hscope (ht.child_unique hc hde hda ▸ he)

end Linked

end Scopes

section Related

theorem eq_of_rel {α : Type} {o o' : Option α} (h : Option.Rel Eq o o') : o' = o := by
  cases h with
  | some h => rw [h]
  | none => rfl

/-- What is found in two lists alike is related as their members are. -/
theorem find?_rel {p q : NodeId → Bool} {l l' : List NodeId}
    (h : List.Forall₂ (fun d d' => R d d' ∧ q d' = p d) l l') :
    Option.Rel R (l.find? p) (l'.find? q) := by
  induction h with
  | nil => exact .none
  | @cons d d' l l' hd _ ih =>
    rw [List.find?_cons, List.find?_cons, hd.2]
    cases p d with
    | true => exact .some hd.1
    | false => exact ih

/-- Scopes alike declare the same for children alike. -/
theorem declaredFor?_rel (hk : u.kind b' = t.kind b) (hself : R b b')
    (hlist : List.Forall₂ (fun d d' => R d d' ∧ u.kind d' = t.kind d) (t.list b) (u.list b'))
    (hpos : u.position? c' = t.position? c)
    (hslot : (u.slot? b' 2 == some c') = (t.slot? b 2 == some c)) :
    Option.Rel R (t.declaredFor? name b c) (u.declaredFor? name b' c') := by
  have hfind : ∀ {P : NodeKind → Bool} {l l' : List NodeId},
      List.Forall₂ (fun d d' => R d d' ∧ u.kind d' = t.kind d) l l' →
      Option.Rel R (l.find? fun d => P (t.kind d)) (l'.find? fun d => P (u.kind d)) := by
    intro P l l' h
    exact find?_rel (h.imp fun d d' hd => ⟨hd.1, by rw [hd.2]⟩)
  unfold declaredFor?
  rw [hk, hpos, hslot]
  cases t.kind b with
  | block =>
    rcases t.position? c with - | - | i
    · exact .none
    · exact .none
    · exact hfind (P := (· == .localVar name)) (List.rel_reverse (List.forall₂_take i hlist))
  | forEach var =>
    simp only
    split
    · exact .some hself
    · exact .none
  | lambda | methodDecl | constructorDecl => exact hfind (P := (· == .param name)) hlist
  | classDecl => exact hfind (P := (· == .fieldDecl name)) hlist
  | _ => exact .none

variable (ht : t.Linked) (hu : u.Linked)
include ht hu

/-- Nodes with one document declare the same for their children. -/
theorem declaredFor?_rel_of_doc (hd : u.doc b' = t.doc b) (hb : t.isAlive b = true)
    (hb' : u.isAlive b' = true) (hc : (t.node b).at? pos = some c)
    (hc' : (u.node b').at? pos = some c') (hself : R b b')
    (hR : ∀ (i : Nat) d d', (t.list b)[i]? = some d → (u.list b')[i]? = some d' → R d d') :
    Option.Rel R (t.declaredFor? name b c) (u.declaredFor? name b' c') := by
  have hk : u.kind b' = t.kind b := by rw [← hu.kind_doc, hd, ht.kind_doc]
  have hlist : (u.list b').map u.doc = (t.list b).map t.doc := by
    have hl := congrArg Doc.list hd
    rwa [hu.doc_eq, ht.doc_eq] at hl
  have hlen : (t.list b).length = (u.list b').length := by
    simpa using (congrArg List.length hlist).symm
  have hp : t.parent? c = some b := ht.named (Node.mem_children_iff.mpr ⟨pos, hc⟩) hb
  have hp' : u.parent? c' = some b' := hu.named (Node.mem_children_iff.mpr ⟨pos, hc'⟩) hb'
  have hslot : ∀ {s : SyntaxTree} {b c : NodeId}, s.Linked → (s.node b).at? pos = some c →
      (s.slot? b 2 == some c) = (pos == .slot 2) := by
    intro s b c hs hc
    rw [Bool.eq_iff_iff, beq_iff_eq, beq_iff_eq]
    constructor
    · exact fun h => Node.at?_unique (hs.nodup b) hc h
    · rintro rfl
      exact hc
  refine declaredFor?_rel hk hself (List.forall₂_iff_get.mpr ⟨hlen, fun i hi hi' => ⟨?_, ?_⟩⟩) ?_ ?_
  · exact hR i _ _ (List.getElem?_eq_getElem hi) (List.getElem?_eq_getElem hi')
  · have he := congrArg (fun l => l[i]?) hlist
    simp only [List.getElem?_map, List.getElem?_eq_getElem hi, List.getElem?_eq_getElem hi',
      Option.map_some, Option.some.injEq] at he
    rw [← hu.kind_doc, ← ht.kind_doc]
    exact congrArg Doc.kind he
  · rw [(ht.position?_eq_some hp).mpr hc, (hu.position?_eq_some hp').mpr hc']
  · rw [hslot ht hc, hslot hu hc']

/-- Below two nodes with one document, names refer to what is related if they do at the nodes. -/
theorem lookupVariable?_rel (hd : u.doc a' = t.doc a) (ha : t.isAlive a = true)
    (ha' : u.isAlive a' = true)
    (hR : ∀ way d d', t.at? a way = some d → u.at? a' way = some d' → R d d')
    (h : Option.Rel R (t.lookupVariable? a name) (u.lookupVariable? a' name))
    (hm : t.at? a way = some m) : ∃ m', u.at? a' way = some m' ∧
      Option.Rel R (t.lookupVariable? m name) (u.lookupVariable? m' name) := by
  induction way generalizing a a' with
  | nil =>
    cases hm
    exact ⟨a', rfl, h⟩
  | cons pos way ih =>
    rw [at?] at hm
    obtain ⟨c, hc, hm⟩ := Option.bind_eq_some_iff.mp hm
    have hcd : ((u.node a').at? pos).map u.doc = some (t.doc c) := by
      rw [← hu.child?_doc, hd, ht.child?_doc, hc, Option.map_some]
    obtain ⟨c', hc', hcd⟩ := Option.map_eq_some_iff.mp hcd
    have hca : t.Child c a := Node.mem_children_iff.mpr ⟨pos, hc⟩
    have hca' : u.Child c' a' := Node.mem_children_iff.mpr ⟨pos, hc'⟩
    have hfor : Option.Rel R (t.declaredFor? name a c) (u.declaredFor? name a' c') := by
      refine declaredFor?_rel_of_doc ht hu hd ha ha' hc hc' (hR [] a a' rfl rfl) fun i d d' hi hi' => ?_
      exact hR [.list i] d d' (at?_cons (show (t.node a).at? (.list i) = some d from hi))
        (at?_cons (show (u.node a').at? (.list i) = some d' from hi'))
    have hrel : Option.Rel R (t.lookupVariable? c name) (u.lookupVariable? c' name) := by
      rw [ht.lookupVariable?_child (ht.named hca ha), hu.lookupVariable?_child (hu.named hca' ha')]
      generalize t.declaredFor? name a c = o at hfor ⊢
      generalize u.declaredFor? name a' c' = o' at hfor ⊢
      cases hfor with
      | some hdd => exact .some hdd
      | none => exact h
    obtain ⟨m', hm', hrel'⟩ := ih hcd (by rw [(ht.child hca).2, ha]) (by rw [(hu.child hca').2, ha'])
      (fun way d d' hw hw' => hR (pos :: way) d d' (by rwa [at?_cons hc]) (by rwa [at?_cons hc']))
      hrel hm
    exact ⟨m', by rwa [at?_cons hc'], hrel'⟩

end Related

/-- What a node is to the copy of an expression: where the expression has the node, the node at the same
place of the copy; and itself else. -/
inductive Counterpart (t u : SyntaxTree) (a a' : NodeId) : NodeId → NodeId → Prop
  | copy {way : List Position} {d d' : NodeId} (hd : t.at? a way = some d)
      (hd' : u.at? a' way = some d') : Counterpart t u a a' d d'
  | same {d : NodeId} (hd : ¬ t.Within d a) : Counterpart t u a a' d d

/-- The copy of an expression in which all names refer to what they referred to. -/
structure CopiedNames (t u : SyntaxTree) (a a' : NodeId) : Prop where
  doc : u.doc a' = t.doc a
  names : ∀ {way m name}, t.at? a way = some m → t.kind m = .nameExpr name →
    ∃ m', u.at? a' way = some m' ∧
      Option.Rel (t.Counterpart u a a') (t.lookupVariable? m name) (u.lookupVariable? m' name)

/-- A copy whose surroundings answer as those of the expression, for the names that are in it. -/
theorem CopiedNames.of_surroundings (ht : t.Linked) (hu : u.Linked) (hd : u.doc a' = t.doc a)
    (ha : t.isAlive a = true) (ha' : u.isAlive a' = true) (hk : (t.kind a).isExpression = true)
    (h : ∀ {way m name}, t.at? a way = some m → t.kind m = .nameExpr name →
      u.lookupVariable? a' name = t.lookupVariable? a name) : t.CopiedNames u a a' := by
  refine ⟨hd, fun {way m name} hm hkm => ?_⟩
  refine lookupVariable?_rel ht hu hd ha ha' (fun way d d' => .copy) ?_ hm
  rw [h hm hkm]
  cases hl : t.lookupVariable? a name with
  | none => exact .none
  | some d => exact .some (.same (ht.lookupVariable?_outside hk hl))

namespace Relisted

variable {list : List NodeId} (h : t.Relisted p list u)
include h

theorem kind (hm : t.isAttached m = true) : u.kind m = t.kind m := by
  by_cases hp : m = p
  · subst hp
    exact congrArg Prod.fst h.place
  · exact Node.kind_of_data (h.data hm hp)

variable (ht : t.Linked)
include ht

/-- Apart from the block itself, a scope declares what it did. -/
theorem declaredFor?_parent (name : String) (hc : t.Child c q) (hqa : t.isAttached q = true)
    (hqp : q ≠ p) (hua : u.isAlive q = true) :
    u.Child c q ∧ u.declaredFor? name q c = t.declaredFor? name q c := by
  have hdata := h.data hqa hqp
  have hat : ∀ pos, (u.node q).at? pos = (t.node q).at? pos := by
    rintro (i | i)
    · rw [Node.at?, Node.at?, Node.slots_of_data hdata]
    · rw [Node.at?, Node.at?, Node.list_of_data hdata]
  have hlist : u.list q = t.list q := Node.list_of_data hdata
  obtain ⟨pos, hpos, hq⟩ := ht.position?_isSome (ht.named hc (attached_alive hqa))
  have hcu : u.Child c q := Node.mem_children_iff.mpr ⟨pos, (hat pos).trans hq⟩
  refine ⟨hcu, eq_of_rel (declaredFor?_rel (h.kind hqa) rfl ?_ ?_ ?_)⟩
  · rw [hlist, List.forall₂_same]
    exact fun d hd => ⟨rfl, h.kind (ht.attached_child hqa (List.mem_append_right _ hd))⟩
  · rw [hpos, (h.linked.position?_eq_some (h.linked.named hcu hua)).mpr ((hat pos).trans hq)]
  · exact congrArg (· == some c) (hat (.slot 2))

/-- Nothing changes around a block. -/
theorem lookupVariable?_above (name : String) (hq : t.Within p q) (hqa : t.isAttached q = true) :
    u.isAttached q = true ∧ u.lookupVariable? q name = t.lookupVariable? q name := by
  have hu := h.linked
  obtain ⟨r, hr, hqr⟩ := ht.isAttached_iff.mp hqa
  have hru : u.root = some r := h.root.trans hr
  induction hqr using Relation.ReflTransGen.head_induction_on with
  | refl =>
    refine ⟨hu.attached_root hru, ?_⟩
    rw [lookupVariable?, lookupVariable?, Linked.ancestors_of_root (hu.root hru).2,
      Linked.ancestors_of_root (ht.root hr).2]
    rfl
  | @head q q' hc hqr ih =>
    have hqa' : t.isAttached q' = true := ht.isAttached_iff.mpr ⟨r, hr, hqr⟩
    obtain ⟨hua, hlook⟩ := ih (hq.tail hc) hqa'
    have hne : q' ≠ p := by
      rintro rfl
      exact ht.below_irrefl q' (Within.below hq hc)
    obtain ⟨hcu, hfor⟩ := h.declaredFor?_parent ht name hc hqa' hne (attached_alive hua)
    refine ⟨hu.attached_child hua hcu, ?_⟩
    rw [hu.lookupVariable?_child (hu.named hcu (attached_alive hua)),
      ht.lookupVariable?_child (ht.named hc (attached_alive hqa')), hlook, hfor]

variable {new : NodeId} {rest : List NodeId} (hp : t.isAttached p = true) (hk : t.kind p = .block)
include hp hk

/-- Nothing changes for the first statement that is another one. -/
theorem lookupVariable?_first (hi : (t.list p)[i]? = some n)
    (hlist : list = (t.list p).take i ++ new :: rest) :
    u.isAttached new = true ∧ u.parent? new = some p ∧
      u.lookupVariable? new name = t.lookupVariable? n name := by
  obtain ⟨hua, habove⟩ := h.lookupVariable?_above ht name .refl hp
  have hlen : ((t.list p).take i).length = i :=
    List.length_take_of_le (List.getElem?_eq_some_iff.mp hi).1.le
  have hul : u.list p = (t.list p).take i ++ new :: rest :=
    (congrArg (fun x => x.2.2.2.2) h.place).trans hlist
  have hui : (u.list p)[i]? = some new := by
    rw [hul, List.getElem?_append_right hlen.le, hlen, Nat.sub_self]
    rfl
  have hcu : u.Child new p := List.mem_append_right _ (List.mem_of_getElem? hui)
  have hpu := h.linked.named hcu (attached_alive hua)
  have hpt := ht.named (List.mem_append_right _ (List.mem_of_getElem? hi)) (attached_alive hp)
  refine ⟨h.linked.attached_child hua hcu, hpu, ?_⟩
  have hfor : u.declaredFor? name p new = t.declaredFor? name p n := by
    rw [declaredFor?_block ((h.kind hp).trans hk) ((h.linked.position?_eq_some hpu).mpr hui),
      declaredFor?_block hk ((ht.position?_eq_some hpt).mpr hi), hul, List.take_left' hlen]
    refine eq_of_rel (find?_rel (List.forall₂_same.mpr fun d hd => ⟨rfl, ?_⟩))
    have hd := List.mem_of_mem_take (List.mem_reverse.mp hd)
    rw [isLocalVar, isLocalVar, h.kind (ht.attached_child hp (List.mem_append_right _ hd))]
  rw [h.linked.lookupVariable?_child hpu, ht.lookupVariable?_child hpt, hfor, habove]

end Relisted

/-- A statement hides the variable that it declares only from those after it. -/
theorem Linked.lookupVariable?_next (ht : t.Linked) (hk : t.kind p = .block)
    (hp : t.isAlive p = true) (hn : (t.list p)[i]? = some n) (hm : (t.list p)[i + 1]? = some m)
    (hname : t.kind n ≠ .localVar name) : t.lookupVariable? m name = t.lookupVariable? n name := by
  have hpn := ht.named (List.mem_append_right _ (List.mem_of_getElem? hn)) hp
  have hpm := ht.named (List.mem_append_right _ (List.mem_of_getElem? hm)) hp
  have hfor : t.declaredFor? name p m = t.declaredFor? name p n := by
    rw [declaredFor?_block hk ((ht.position?_eq_some hpn).mpr hn),
      declaredFor?_block hk ((ht.position?_eq_some hpm).mpr hm),
      List.take_add_one, hn, Option.toList_some, List.reverse_append, List.reverse_singleton,
      List.singleton_append, List.find?_cons, isLocalVar, beq_eq_false_iff_ne.mpr hname]
  rw [ht.lookupVariable?_child hpn, ht.lookupVariable?_child hpm, hfor]

end SyntaxTree

end TreeTidy
