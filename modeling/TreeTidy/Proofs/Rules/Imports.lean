import TreeTidy.Proofs.Rules.Leftover
import TreeTidy.Proofs.Tree.Built
import TreeTidy.Proofs.Tree.Lives
/-!
What names denote when an import was taken away. The rule takes away what is visible without the
import, or so it holds; but it does not ask what the name denotes then. The import may have hidden
another single import, a class of the unit, or the class of `java.lang`.
-/
namespace TreeTidy

namespace SyntaxTree

variable {t u : SyntaxTree} {classes : ClassTable} {c m n p r : NodeId} {package : Option String}

/-- What a name denotes in a unit with these imports. -/
def denoted (imports : List NodeKind) (declared : Bool) (package : Option String)
    (classes : ClassTable) (simple : String) : Resolution String :=
  match imports.findSome? (importedAs? simple) with
  | some path => .resolved path
  | none =>
    if declared then .resolved (inPackage package simple)
    else if imports.any isForeignWildcard then .unknown
    else if classes.contains ("java.lang." ++ simple) then .resolved ("java.lang." ++ simple)
    else .absent

/-- A name denotes a class by an import, by a declaration or as one of `java.lang`, in this order. -/
theorem denoted_eq_resolved {imports : List NodeKind} {declared : Bool} {simple q : String} :
    denoted imports declared package classes simple = .resolved q ↔
      imports.findSome? (importedAs? simple) = some q ∨
      imports.findSome? (importedAs? simple) = none ∧
        (declared = true ∧ q = inPackage package simple ∨
         declared = false ∧ imports.any isForeignWildcard = false ∧
          classes.contains ("java.lang." ++ simple) = true ∧ q = "java.lang." ++ simple) := by
  unfold denoted
  cases imports.findSome? (importedAs? simple) with
  | some path => simp
  | none =>
    cases declared with
    | true => simp [eq_comm (a := q)]
    | false =>
      cases imports.any isForeignWildcard with
      | true => simp
      | false => cases classes.contains ("java.lang." ++ simple) <;> simp [eq_comm (a := q)]

theorem denoted_of_found {imports : List NodeKind} {declared : Bool} {simple path : String}
    (h : imports.findSome? (importedAs? simple) = some path) :
    denoted imports declared package classes simple = .resolved path :=
  denoted_eq_resolved.mpr (.inl h)

theorem importedAs?_eq_some {k : NodeKind} {simple path : String} :
    importedAs? simple k = some path ↔
      k = .importDecl path false false ∧ Name.simpleName path = simple := by
  constructor
  · intro h
    unfold importedAs? at h
    split at h
    next q =>
      split at h
      next hs => exact ⟨by rw [Option.some.inj h], Option.some.inj h ▸ hs⟩
      · cases h
    · cases h
  · rintro ⟨rfl, rfl⟩
    exact if_pos rfl

/-- An import that does not bring in the name by itself never decides between two classes. -/
theorem denoted_skip {k : NodeKind} {front back : List NodeKind} {declared : Bool}
    {simple q q' : String} (hk : importedAs? simple k = none)
    (h : denoted (front ++ k :: back) declared package classes simple = .resolved q)
    (h' : denoted (front ++ back) declared package classes simple = .resolved q') : q' = q := by
  have hfind : (front ++ k :: back).findSome? (importedAs? simple) =
      (front ++ back).findSome? (importedAs? simple) := by
    rw [List.findSome?_append, List.findSome?_cons, hk, List.findSome?_append]
  rw [denoted_eq_resolved, hfind] at h
  rw [denoted_eq_resolved] at h'
  generalize (front ++ back).findSome? (importedAs? simple) = found at h h'
  cases found with
  | some path => simp_all
  | none => cases declared <;> simp_all

theorem visibleType_of_unit {simple : String} (h : t.unitOf? n = some r) :
    t.visibleType classes n simple =
      denoted (t.importsOf r) (t.declaresClass r simple) (t.package? r) classes simple := by
  rw [visibleType, h]
  rfl

/-- Units are in no place, import lists in units only, and imports in import lists only. -/
theorem not_admits_unit (k : NodeKind) (pos : Position) (package : Option String) :
    k.admits pos (.compilationUnit package) = false := by
  rw [← Bool.not_eq_true]
  intro h
  cases pos with
  | slot i =>
    obtain ⟨j, hj⟩ := Rules.exists_list_of_admits (by cases k <;> rfl) h
    cases hj
  | list i =>
    obtain ⟨s, hs, ha⟩ := NodeKind.admits_list.mp h
    cases k <;> cases hs <;> cases ha

theorem admits_import {k : NodeKind} {pos : Position} {path : String} {isStatic wildcard : Bool}
    (h : k.admits pos (.importDecl path isStatic wildcard) = true) :
    k = .importList ∧ ∃ i, pos = .list i := by
  refine ⟨?_, Rules.exists_list_of_admits (by cases k <;> rfl) h⟩
  obtain ⟨i, rfl⟩ := Rules.exists_list_of_admits (by cases k <;> rfl) h
  obtain ⟨s, hs, ha⟩ := NodeKind.admits_list.mp h
  cases k <;> cases hs <;> first | rfl | cases ha

theorem admits_imports {k : NodeKind} {pos : Position} (h : k.admits pos .importList = true) :
    (∃ package, k = .compilationUnit package) ∧ pos = .slot 0 := by
  cases pos with
  | slot i =>
    by_cases hall : k.layout.slots.all (fun s => !s.admits.accepts .importList) = true
    · obtain ⟨j, hj⟩ := Rules.exists_list_of_admits hall h
      cases hj
    · obtain ⟨package, rfl⟩ : ∃ package, k = .compilationUnit package := by
        cases k <;> first | exact ⟨_, rfl⟩ | exact absurd rfl hall
      obtain ⟨s, hs, -⟩ := NodeKind.admits_slot.mp h
      cases i with
      | zero => exact ⟨⟨package, rfl⟩, rfl⟩
      | succ i => cases hs
  | list i =>
    obtain ⟨s, hs, ha⟩ := NodeKind.admits_list.mp h
    cases k <;> cases hs <;> cases ha

section Units

variable (ht : t.Linked)
include ht

theorem Linked.attached_of_above (hn : t.isAttached n = true) (hm : t.Within n m) :
    t.isAttached m = true := by
  induction hm using Relation.ReflTransGen.head_induction_on with
  | refl => exact hn
  | head hc _ ih => exact ih (ht.attached_parent hn (ht.parent_iff.mpr ⟨hc, attached_alive hn⟩))

/-- All that is attached is in the unit at the root, if that is the only unit. -/
theorem Linked.unitOf?_eq (hr : t.root = some r) (hu : t.isUnit r = true)
    (honly : ∀ m, t.isAttached m = true → t.isUnit m = true → t.root = some m)
    (hn : t.isAttached n = true) : t.unitOf? n = some r := by
  obtain ⟨q, hq, hw⟩ := ht.isAttached_iff.mp hn
  obtain rfl : q = r := Option.some.inj (hq.symm.trans hr)
  have above {m : NodeId} : m ∈ n :: t.ancestors n ↔ t.Within n m := by
    rw [List.mem_cons, ht.mem_ancestors, within_iff, and_iff_right (attached_alive hn), eq_comm]
  cases hf : t.unitOf? n with
  | none => exact absurd hu (List.find?_eq_none.mp hf q (above.mpr hw))
  | some m =>
    have hma := ht.attached_of_above hn (above.mp (List.mem_of_find?_eq_some hf))
    exact (honly m hma (List.find?_some hf)).symm.trans hr

variable (hl : t.Laid)
include hl

/-- What holds an attached node admits it. -/
theorem Laid.exists_place (hn : t.isAttached n = true) (hr : t.root ≠ some n) : ∃ p pos,
    t.parent? n = some p ∧ t.isAttached p = true ∧ (t.node p).at? pos = some n ∧
      (t.kind p).admits pos (t.kind n) = true := by
  obtain ⟨h, -⟩ | ⟨p, hp, -, hpa⟩ := ht.attached_cases hn
  · exact absurd h hr
  · obtain ⟨pos, -, hat⟩ := ht.exists_position hp
    exact ⟨p, pos, hp, hpa, hat, hl.admits ht hpa hat⟩

theorem Laid.root_of_isUnit (hn : t.isAttached n = true) (hu : t.isUnit n = true) :
    t.root = some n := by
  by_contra hr
  obtain ⟨p, pos, -, -, -, ha⟩ := hl.exists_place ht hn hr
  obtain ⟨package, hk⟩ : ∃ package, t.kind n = .compilationUnit package := by
    unfold isUnit at hu
    cases hk : t.kind n with
    | compilationUnit package => exact ⟨package, rfl⟩
    | _ =>
      rw [hk] at hu
      cases hu
  rw [hk, not_admits_unit] at ha
  cases ha

/-- In a unit, an attached import is in the list of the imports. -/
theorem Laid.import_place {path : String} {isStatic wildcard : Bool} (hr : t.root = some r)
    (hu : t.isUnit r = true) (hm : t.isAttached m = true)
    (hk : t.kind m = .importDecl path isStatic wildcard) :
    ∃ (p : NodeId) (i : Nat), t.parent? m = some p ∧ (t.list p)[i]? = some m ∧
      t.slot? r 0 = some p ∧ t.kind p = .importList := by
  have hmr : t.root ≠ some m := by
    intro h
    cases hr.symm.trans h
    rw [isUnit, hk] at hu
    cases hu
  obtain ⟨p, pos, hp, hpa, hat, hadm⟩ := hl.exists_place ht hm hmr
  rw [hk] at hadm
  obtain ⟨hpk, i, rfl⟩ := admits_import hadm
  have hpr : t.root ≠ some p := by
    intro h
    cases hr.symm.trans h
    rw [isUnit, hpk] at hu
    cases hu
  obtain ⟨q, pos, -, hqa, hqat, hqadm⟩ := hl.exists_place ht hpa hpr
  rw [hpk] at hqadm
  obtain ⟨⟨package, hqk⟩, rfl⟩ := admits_imports hqadm
  have hqu : t.isUnit q = true := by
    rw [isUnit, hqk]
    rfl
  obtain rfl := Option.some.inj (hr.symm.trans (hl.root_of_isUnit ht hqa hqu))
  exact ⟨p, i, hp, hat, hqat, hpk⟩

end Units

section Removal

variable {path : String} {isStatic wildcard : Bool} {i : Nat}

theorem Laid.import_is_leaf (hl : t.Laid) (ht : t.Linked) (hm : t.isAttached m = true)
    (hk : t.kind m = .importDecl path isStatic wildcard) : ¬ t.Child c m := by
  intro hc
  obtain ⟨pos, hat⟩ := Node.mem_children_iff.mp hc
  have ha := hl.admits ht hm hat
  rw [hk] at ha
  cases pos with
  | slot i =>
    obtain ⟨s, hs, -⟩ := NodeKind.admits_slot.mp ha
    cases hs
  | list i =>
    obtain ⟨s, hs, -⟩ := NodeKind.admits_list.mp ha
    cases hs

/-- What a tree is without a child of a list. -/
structure Removed (t u : SyntaxTree) (p m : NodeId) (i : Nat) : Prop where
  linked : u.Linked
  root : u.root = t.root
  kind : ∀ n, u.kind n = t.kind n
  slots : ∀ n, (u.node n).slots = (t.node n).slots
  list : u.list p = (t.list p).eraseIdx i
  child : ∀ {c q}, u.Child c q ↔ t.Child c q ∧ c ≠ m

theorem Removed.bump (h : t.Removed u p m i) : t.Removed u.bump p m i :=
  ⟨h.linked.bump, h.root, h.kind, h.slots, h.list, h.child⟩

theorem Linked.removed (ht : t.Linked) (hp : t.parent? m = some p)
    (hi : (t.list p)[i]? = some m) (h : t.remove? m = some u) : t.Removed u p m i := by
  obtain ⟨hm, q, pos, hq, hat, -, rfl⟩ := ht.remove?_cases h
  obtain rfl : p = q := Option.some.inj (hp.symm.trans hq)
  obtain rfl : pos = .list i := Node.at?_unique (ht.nodup p) hat hi
  have hx := ht.exchange_remove hm hp hat
  have hself := hx.node_self
  refine Removed.bump ⟨hx.linked, hx.marks.2.1, hx.kind, fun n => ?_, Node.list_of_data hself, ?_⟩
  · by_cases hn : n = p
    · have hs := Node.slots_of_data hself
      rwa [hn]
    · exact Node.slots_of_data (hx.data hn nofun)
  · intro c q
    by_cases hqp : q = p
    · subst hqp
      have hperm := hx.children_perm
      have hfresh := (List.nodup_cons.mp (hperm.nodup_iff.mp (ht.nodup q))).1
      rw [hx.child_place, Child, hperm.mem_iff]
      simp only [List.not_mem_nil, false_or, List.mem_append, List.mem_singleton]
      constructor
      · intro hc
        exact ⟨.inr hc, fun he => hfresh (he ▸ hc)⟩
      · exact fun hc => hc.1.resolve_left hc.2
    · have hne : t.Child c q → c ≠ m := by
        rintro hc rfl
        exact hqp (ht.child_unique hc (ht.held hp).1 (attached_alive hm))
      have hd : (_ : Node).data = (t.node q).data := hx.data hqp nofun
      rw [Child, children, Node.children, Node.slots_of_data hd, Node.list_of_data hd]
      exact ⟨fun hc => ⟨hc, hne hc⟩, And.left⟩

/-- What is left of a unit when an import was taken away: all but the import. -/
structure Unimported (t u : SyntaxTree) (r : NodeId) (before after : List NodeId) : Prop where
  imports : u.importsOf r = (before ++ after).map t.kind
  declares : ∀ simple, u.declaresClass r simple = t.declaresClass r simple
  package : u.package? r = t.package? r
  unit : ∀ {n}, u.isAttached n = true → t.unitOf? n = some r ∧ u.unitOf? n = some r

theorem Removed.within_of (h : t.Removed u p m i) (hw : u.Within n r) : t.Within n r :=
  Relation.ReflTransGen.mono (fun _ _ hc => (h.child.mp hc).1) n r hw

/-- If nothing was below the node, all others are below what they were below. -/
theorem Removed.within (h : t.Removed u p m i) (hleaf : ∀ c, ¬ t.Child c m) (hw : t.Within n r)
    (hn : n ≠ m) : u.Within n r := by
  induction hw using Relation.ReflTransGen.head_induction_on with
  | refl => exact .refl
  | @head c q hc _ ih =>
    have hq : q ≠ m := by
      rintro rfl
      exact hleaf c hc
    exact (ih hq).head (h.child.mpr ⟨hc, hn⟩)

theorem Linked.unimported (ht : t.Linked) (hl : t.Laid) (hr : t.root = some r)
    (hu : t.isUnit r = true) (hk : t.kind m = .importDecl path isStatic wildcard)
    (hm : t.isAttached m = true) (h : t.remove? m = some u) : ∃ p before after,
      t.slot? r 0 = some p ∧ t.kind p = .importList ∧ t.list p = before ++ m :: after ∧
        t.parent? m = some p ∧ t.Unimported u r before after := by
  obtain ⟨p, i, hp, hi, hslot, hpk⟩ := hl.import_place ht hr hu hm hk
  have hx := ht.removed hp hi h
  obtain ⟨hlt, hget⟩ := List.getElem?_eq_some_iff.mp hi
  have hsplit : t.list p = (t.list p).take i ++ m :: (t.list p).drop (i + 1) := by
    rw [← hget, List.getElem_cons_drop, List.take_append_drop]
  have hunit : ∀ n, u.isUnit n = t.isUnit n := fun n => by rw [isUnit, hx.kind, isUnit]
  have hatt {n : NodeId} (hn : u.isAttached n = true) : t.isAttached n = true := by
    obtain ⟨q, hq, hw⟩ := hx.linked.isAttached_iff.mp hn
    exact ht.isAttached_iff.mpr ⟨q, hx.root.symm.trans hq, hx.within_of hw⟩
  refine ⟨p, _, _, hslot, hpk, hsplit, hp, ?_, ?_, ?_, fun {n} hn => ⟨?_, ?_⟩⟩
  · have hs : u.slot? r 0 = some p := by rwa [slot?, hx.slots]
    rw [importsOf, hs]
    simp only [hx.list, List.eraseIdx_eq_take_drop_succ]
    exact List.map_congr_left fun n _ => hx.kind n
  · intro simple
    have hleaf : ∀ c, ¬ t.Child c m := fun c => hl.import_is_leaf ht hm hk
    rw [declaresClass, declaresClass, Bool.eq_iff_iff, List.any_eq_true, List.any_eq_true]
    simp only [ht.mem_descendants, hx.linked.mem_descendants, hx.kind]
    constructor
    · rintro ⟨n, hn, hd⟩
      exact ⟨n, hx.within_of hn, hd⟩
    · rintro ⟨n, hn, hd⟩
      refine ⟨n, hx.within hleaf hn ?_, hd⟩
      rintro rfl
      rw [hk] at hd
      cases hd
  · rw [package?, hx.kind, package?]
  · exact ht.unitOf?_eq hr hu (fun _ => hl.root_of_isUnit ht) (hatt hn)
  · refine hx.linked.unitOf?_eq (hx.root.trans hr) ((hunit r).trans hu) (fun k hk hku => ?_) hn
    exact hx.root.trans (hl.root_of_isUnit ht (hatt hk) ((hunit k).symm.trans hku))

end Removal

end SyntaxTree

namespace Name

theorem eq_of_beforeLastDot {cs front : List Char} (h : beforeLastDot cs = some front) :
    cs = front ++ '.' :: afterLastDot cs := by
  unfold beforeLastDot at h
  split at h
  · cases h
  next c rest hd =>
    obtain rfl := Option.some.inj h
    have hw : cs.reverse.dropWhile (· ≠ '.') ≠ [] := by
      rw [hd]
      exact List.cons_ne_nil c rest
    have hc : c = '.' := by
      have hhead := List.head_dropWhile_not (fun c : Char => decide (c ≠ '.')) hw
      simp only [hd, List.head_cons] at hhead
      simpa using hhead
    have hcs : cs.reverse.takeWhile (· ≠ '.') ++ cs.reverse.dropWhile (· ≠ '.') = cs.reverse :=
      List.takeWhile_append_dropWhile
    rw [hd, hc] at hcs
    calc cs
      _ = (cs.reverse.takeWhile (· ≠ '.') ++ '.' :: rest).reverse := by
        rw [hcs, List.reverse_reverse]
      _ = rest.reverse ++ '.' :: afterLastDot cs := by simp [afterLastDot]

/-- A name with a dot is its qualifier, the dot and its simple name. -/
theorem eq_of_qualifier {name front : String} (h : qualifier? name = some front) :
    name = front ++ "." ++ simpleName name := by
  obtain ⟨cs, hcs, rfl⟩ := Option.map_eq_some_iff.mp h
  rw [← String.toList_inj, String.toList_append, String.toList_append, simpleName,
    String.toList_ofList, List.append_assoc, String.toList_ofList (l := afterLastDot _)]
  exact eq_of_beforeLastDot hcs

end Name

namespace Rules

open SyntaxTree

variable {t u : SyntaxTree} {classes : ClassTable} {m n p r : NodeId} {path simple : String}
  {isStatic wildcard : Bool} {before after : List NodeId} {x : Edit.Setting} {es : List Event}

/-- Where the rule changes the tree, it has taken away an import for one of its reasons. -/
theorem unnecessaryImport_removed
    (h : ((unnecessaryImport.act m).runFrom x t es).tree.revision ≠ t.revision) :
    ∃ path isStatic wildcard, t.kind m = .importDecl path isStatic wildcard ∧
      (isDuplicate t m || (!isStatic && isImplicitImport t m path wildcard)) = true ∧
      t.remove? m = some ((unnecessaryImport.act m).runFrom x t es).tree := by
  cases hplan : unnecessaryImport.planAt ⟨t, x.resolver, x.rule, x.pass⟩ m with
  | none =>
    simp only [unnecessaryImport, Rule.ofPlan, Edit.runFrom, hplan] at h
    exact absurd rfl h
  | some q =>
    obtain ⟨rfl, path, isStatic, wildcard, hk, hc⟩ := unnecessaryImport_plan hplan
    have hrun : (unnecessaryImport.act m).runFrom x t es = (takeAway m).perform.runFrom x t es := by
      simp only [unnecessaryImport, Rule.ofPlan, Edit.runFrom, hplan]
    cases hrem : t.remove? m with
    | none =>
      rw [hrun, runFrom_takeAway_of_none hrem] at h
      exact absurd rfl h
    | some u => exact ⟨path, isStatic, wildcard, hk, hc, by
      rw [hrun, Plan.runFrom_perform (takeAway m) .nil hrem]⟩

section First

variable (ht : t.Linked) (hp : t.parent? m = some p) (hs : t.list p = before ++ m :: after)
include ht hp hs

omit ht in
theorem siblings_eq : siblings t m = before ++ m :: after := by
  rw [siblings, hp, Option.map_some, hs]
  rfl

omit hp in
theorem fresh_in_list : m ∉ before ∧ m ∉ after := by
  have hnd : (before ++ m :: after).Nodup := by
    rw [← hs]
    exact (List.nodup_append.mp (ht.nodup p)).2.1
  have h := (List.nodup_cons.mp (List.nodup_middle.mp hnd)).1
  rwa [List.mem_append, not_or] at h

/-- No earlier import is the same if none brings in the name. -/
theorem not_isDuplicate (hk : t.kind m = .importDecl path false false)
    (hfirst : ∀ a ∈ before, importedAs? (Name.simpleName path) (t.kind a) = none) :
    isDuplicate t m = false := by
  have hm : ∀ a ∈ before, decide (a ≠ m) = true := by
    intro a ha
    refine decide_eq_true ?_
    rintro rfl
    exact (fresh_in_list ht hs).1 ha
  have htake : (before ++ m :: after).takeWhile (· ≠ m) = before := by
    rw [List.takeWhile_append_of_pos hm, List.takeWhile_cons]
    simp
  rw [isDuplicate, siblings_eq hp hs, htake, List.any_eq_false]
  intro a ha he
  have hn := hfirst a ha
  rw [eq_of_beq he, hk] at hn
  simp [importedAs?] at hn

/-- Why a single import of a name is taken away that no earlier one brings in: it is of `java.lang`,
and no import of a whole package is there, or it is of the unit's own package. -/
theorem implicit_of_first (hr : t.root = some r) (hpr : t.parent? p = some r)
    (hpk : t.package? p = none) (hk : t.kind m = .importDecl path false false)
    (hfirst : ∀ a ∈ before, importedAs? (Name.simpleName path) (t.kind a) = none)
    (h : (isDuplicate t m || (!false && isImplicitImport t m path false)) = true) :
    ((Name.qualifier? path).getD "" = "java.lang" ∧
      ∀ a ∈ before ++ after, isForeignWildcard (t.kind a) = false) ∨
    t.package? r = some ((Name.qualifier? path).getD "") := by
  have hanc : (t.ancestors m).findSome? t.package? = t.package? r := by
    rw [ht.ancestors_of_parent hp, ht.ancestors_of_parent hpr,
      Linked.ancestors_of_root (ht.root hr).2]
    simp only [List.findSome?_cons, hpk, List.findSome?_nil]
    cases t.package? r <;> rfl
  have hm : isForeignWildcard (t.kind m) = false := by rw [hk]; rfl
  rw [not_isDuplicate ht hp hs hk hfirst, isImplicitImport, hanc, hasForeignWildcard,
    siblings_eq hp hs] at h
  simpa [or_imp, forall_and, hm] using h

end First

/-- What a name denotes once its first import is gone, which stood between `before` and `after`: the
class of a later import; a class of the unit, where the import was of `java.lang` (or the package of
the unit has no name); or a class of `java.lang`, where the import was of the unit's own package. -/
inductive Redirected (t : SyntaxTree) (classes : ClassTable) (r : NodeId)
    (before after : List NodeId) (path : String) : String → Prop
  | later {other}
      (h : (after.map t.kind).findSome? (importedAs? (Name.simpleName path)) = some other) :
      Redirected t classes r before after path other
  | declared (h : (after.map t.kind).findSome? (importedAs? (Name.simpleName path)) = none)
      (hd : t.declaresClass r (Name.simpleName path) = true)
      (hp : Name.qualifier? path = some "java.lang" ∧
          (∀ a ∈ before ++ after, isForeignWildcard (t.kind a) = false) ∨ t.package? r = some "") :
      Redirected t classes r before after path (inPackage (t.package? r) (Name.simpleName path))
  | language (h : (after.map t.kind).findSome? (importedAs? (Name.simpleName path)) = none)
      (hd : t.declaresClass r (Name.simpleName path) = false)
      (hw : ∀ a ∈ before ++ after, isForeignWildcard (t.kind a) = false)
      (hc : classes.contains ("java.lang." ++ Name.simpleName path) = true)
      (hp : t.package? r = some ((Name.qualifier? path).getD "")) :
      Redirected t classes r before after path ("java.lang." ++ Name.simpleName path)

/-- The name of an import with its package in front is the name again, if it has a package. -/
theorem inPackage_qualifier {front : String} (h : Name.qualifier? path = some front) :
    inPackage (some front) (Name.simpleName path) = path := (Name.eq_of_qualifier h).symm

theorem language_path (h : (Name.qualifier? path).getD "" = "java.lang") :
    Name.qualifier? path = some "java.lang" ∧ "java.lang." ++ Name.simpleName path = path := by
  cases hq : Name.qualifier? path with
  | none =>
    rw [hq] at h
    exact absurd h (by decide)
  | some front =>
    rw [hq, Option.getD_some] at h
    subst h
    exact ⟨rfl, (Name.eq_of_qualifier hq).symm⟩

section Denoted

variable {other : String}
  (hfirst : (before.map t.kind).findSome? (importedAs? (Name.simpleName path)) = none)
include hfirst

/-- A name that was redirected denotes the class that it was redirected to. -/
theorem Redirected.denoted (h : Redirected t classes r before after path other) :
    denoted ((before ++ after).map t.kind) (t.declaresClass r (Name.simpleName path))
      (t.package? r) classes (Name.simpleName path) = .resolved other := by
  rw [denoted_eq_resolved, List.map_append, List.findSome?_append, hfirst, Option.none_or]
  cases h with
  | later h => exact .inl h
  | declared h hd _ => exact .inr ⟨h, .inl ⟨hd, rfl⟩⟩
  | language h hd hw hc _ =>
    refine .inr ⟨h, .inr ⟨hd, ?_, hc, rfl⟩⟩
    rw [← List.map_append, List.any_map, List.any_eq_false]
    exact fun a ha => by simp [hw a ha]

/-- If a name still denotes a class when its first import is gone, and another one, it was redirected. -/
theorem redirected_of_denoted
    (hwhy : ((Name.qualifier? path).getD "" = "java.lang" ∧
        ∀ a ∈ before ++ after, isForeignWildcard (t.kind a) = false) ∨
      t.package? r = some ((Name.qualifier? path).getD ""))
    (h : denoted ((before ++ after).map t.kind) (t.declaresClass r (Name.simpleName path))
      (t.package? r) classes (Name.simpleName path) = .resolved other) (hne : other ≠ path) :
    Redirected t classes r before after path other := by
  rw [denoted_eq_resolved, List.map_append, List.findSome?_append, hfirst, Option.none_or] at h
  obtain h | ⟨h, ⟨hd, rfl⟩ | ⟨hd, hw, hc, rfl⟩⟩ := h
  · exact .later h
  · refine .declared h hd ?_
    obtain ⟨hl, hw⟩ | hown := hwhy
    · exact .inl ⟨(language_path hl).1, hw⟩
    · right
      cases hq : Name.qualifier? path with
      | none => rwa [hq] at hown
      | some front =>
        rw [hq, Option.getD_some] at hown
        rw [hown, inPackage_qualifier hq] at hne
        exact absurd rfl hne
  · refine .language h hd ?_ hc ?_
    · intro a ha
      rw [← List.map_append] at hw
      simpa using List.any_eq_false.mp hw (t.kind a) (List.mem_map_of_mem ha)
    · exact hwhy.resolve_left fun hl => hne (language_path hl.1).2

end Denoted

/-- A name that denoted a class denotes another one when the rule took away an import, if and only
if the import was the first of this name, and the imports and the classes that are left give the
name to another class. -/
theorem removal_redirects_iff (ht : t.Linked) (hl : t.Laid) (hr : t.root = some r)
    {package : Option String} (hu : t.kind r = .compilationUnit package) (classes : ClassTable)
    (simple : String)
    (hrem : ((unnecessaryImport.act m).runFrom x t es).tree.revision ≠ t.revision)
    (hn : ((unnecessaryImport.act m).runFrom x t es).tree.isAttached n = true) :
    (∃ q q', (Resolver.scope classes).visibleType t n simple = .resolved q ∧
      (Resolver.scope classes).visibleType ((unnecessaryImport.act m).runFrom x t es).tree n simple =
        .resolved q' ∧ q' ≠ q) ↔
    ∃ p before after path other, t.slot? r 0 = some p ∧ t.list p = before ++ m :: after ∧
      t.kind m = .importDecl path false false ∧ Name.simpleName path = simple ∧
      (∀ a ∈ before, importedAs? simple (t.kind a) = none) ∧
      Redirected t classes r before after path other ∧ other ≠ path := by
  obtain ⟨path, isStatic, wildcard, hk, hc, hrm⟩ := unnecessaryImport_removed hrem
  generalize ((unnecessaryImport.act m).runFrom x t es).tree = u at hrm hn ⊢
  have hm := (ht.remove?_cases hrm).1
  have hunit : t.isUnit r = true := by rw [isUnit, hu]; rfl
  obtain ⟨p, before, after, hslot, hpk, hs, hp, hun⟩ := ht.unimported hl hr hunit hk hm hrm
  have himp : t.importsOf r = before.map t.kind ++ t.kind m :: after.map t.kind := by
    rw [importsOf, hslot]
    simp only [hs, List.map_append, List.map_cons]
  obtain ⟨htn, hun'⟩ := hun.unit hn
  simp only [Resolver.scope, visibleType_of_unit htn, visibleType_of_unit hun', himp, hun.imports,
    hun.declares, hun.package]
  constructor
  · rintro ⟨q, q', hq, hq', hne⟩
    cases hfirst : (before.map t.kind).findSome? (importedAs? simple) with
    | some first =>
      -- an earlier import of the name decides, with this one and without it
      have hfound (back : List NodeKind) :
          (before.map t.kind ++ back).findSome? (importedAs? simple) = some first := by
        rw [List.findSome?_append, hfirst, Option.some_or]
      rw [denoted_of_found (hfound _)] at hq
      rw [List.map_append, denoted_of_found (hfound _), hq] at hq'
      exact absurd (Resolution.resolved.inj hq').symm hne
    | none =>
      cases hi : importedAs? simple (t.kind m) with
      | none =>
        rw [List.map_append] at hq'
        exact absurd (denoted_skip hi hq hq') hne
      | some own =>
        obtain ⟨hk', rfl⟩ := importedAs?_eq_some.mp hi
        have hfound : (before.map t.kind ++ t.kind m :: after.map t.kind).findSome?
            (importedAs? (Name.simpleName own)) = some own := by
          rw [List.findSome?_append, hfirst, Option.none_or, List.findSome?_cons, hi]
        rw [denoted_of_found hfound] at hq
        obtain rfl : own = q := Resolution.resolved.inj hq
        obtain ⟨rfl, rfl, rfl⟩ : path = own ∧ isStatic = false ∧ wildcard = false := by
          simpa [hk] using hk'
        have hall : ∀ a ∈ before, importedAs? (Name.simpleName path) (t.kind a) = none :=
          fun a ha => List.findSome?_eq_none_iff.mp hfirst _ (List.mem_map_of_mem ha)
        have hpr : t.parent? p = some r :=
          ht.parent_iff.mpr ⟨Node.mem_children_iff.mpr ⟨.slot 0, hslot⟩,
            attached_alive (ht.attached_parent hm hp)⟩
        have hwhy := implicit_of_first ht hp hs hr hpr (by rw [package?, hpk]) hk hall hc
        exact ⟨p, before, after, path, q', hslot, hs, hk, rfl, hall,
          redirected_of_denoted hfirst hwhy hq' hne, hne⟩
  · rintro ⟨p', before', after', own, other, hslot', hs', hk', rfl, hall, hred, hne⟩
    obtain rfl : p = p' := Option.some.inj (hslot.symm.trans hslot')
    have hfresh := fresh_in_list ht hs
    obtain ⟨rfl, -, rfl⟩ :=
      (List.append_cons_inj_of_notMem hfresh.1 hfresh.2).mp (hs.symm.trans hs')
    have hfirst : (before.map t.kind).findSome? (importedAs? (Name.simpleName own)) = none := by
      rw [List.findSome?_eq_none_iff]
      intro k hk
      obtain ⟨a, ha, rfl⟩ := List.mem_map.mp hk
      exact hall a ha
    refine ⟨own, other, denoted_of_found ?_, hred.denoted hfirst, hne⟩
    rw [List.findSome?_append, hfirst, Option.none_or, List.findSome?_cons,
      importedAs?_eq_some.mpr ⟨hk', rfl⟩]

/-- `package app; import app.Integer; class C {}` -/
def ownImport : UnitDoc := ⟨"T.java", .standard, [], .plain (.compilationUnit (some "app"))
  [some (.plain .importList [] [.plain (.importDecl "app.Integer" false false) [] []])]
  [.plain (.classDecl "C" .plain) [some (.plain .modifiers [] [])] []]⟩

/-- The own class of the package is the one of `java.lang` when its import was taken away. -/
theorem ownImport_redirected : ∃ s, SourceUnit.ofDoc 1 ownImport = .ok s ∧
    s.tree.Linked ∧ s.tree.Laid ∧ s.tree.root = some 4 ∧
    s.tree.kind 4 = .compilationUnit (some "app") ∧ ∃ u,
      ((unnecessaryImport.act 0).runFrom ⟨.unresolved, "UnnecessaryImport", 1⟩ s.tree []).tree = u ∧
      u.revision ≠ s.tree.revision ∧ u.isAttached 3 = true ∧
      (Resolver.scope Library.classes).visibleType s.tree 3 "Integer" = .resolved "app.Integer" ∧
      (Resolver.scope Library.classes).visibleType u 3 "Integer" =
        .resolved "java.lang.Integer" := by
  have hload : SourceUnit.ofDoc 1 ownImport = .ok ⟨"T.java", .standard, [], _⟩ := rfl
  have hsound := (SourceUnit.ofDoc_sound hload).1
  refine ⟨_, hload, hsound.linked, hsound.laid, rfl, rfl, _, rfl, by decide, by decide, ?_, ?_⟩
  · rfl
  · decide +kernel

/-- `package app; import java.lang.Integer; class C { class Integer {} }` -/
def nestedClass : UnitDoc := ⟨"T.java", .standard, [], .plain (.compilationUnit (some "app"))
  [some (.plain .importList [] [.plain (.importDecl "java.lang.Integer" false false) [] []])]
  [.plain (.classDecl "C" .plain) [some (.plain .modifiers [] [])]
    [.plain (.classDecl "Integer" .plain) [some (.plain .modifiers [] [])] []]]⟩

/-- The name is the one of the nested class everywhere when the import was taken away. -/
theorem nestedClass_redirected : ∃ s u, SourceUnit.ofDoc 1 nestedClass = .ok s ∧
    ((unnecessaryImport.act 0).runFrom ⟨.unresolved, "UnnecessaryImport", 1⟩ s.tree []).tree = u ∧
    u.revision ≠ s.tree.revision ∧ u.isAttached 5 = true ∧
    ∃ q q', (Resolver.scope Library.classes).visibleType s.tree 5 "Integer" = .resolved q ∧
      (Resolver.scope Library.classes).visibleType u 5 "Integer" = .resolved q' ∧ q' ≠ q := by
  have hload : SourceUnit.ofDoc 1 nestedClass = .ok ⟨"T.java", .standard, [], _⟩ := rfl
  have hsound := (SourceUnit.ofDoc_sound hload).1
  refine ⟨_, _, hload, rfl, by decide, by decide, ?_⟩
  refine (removal_redirects_iff hsound.linked hsound.laid rfl rfl Library.classes "Integer"
    (by decide) (by decide)).mpr ?_
  refine ⟨1, [], [], "java.lang.Integer", "app.Integer", rfl, rfl, rfl, rfl, nofun, ?_, by decide⟩
  exact .declared rfl rfl (.inl ⟨rfl, nofun⟩)

end Rules

end TreeTidy
