import TreeTidy.Proofs.Tree.Renamed
import TreeTidy.Resolve.Infer
import TreeTidy.Resolve.Scope
/-!
Which types the type of a node is made of. Whatever answers questions, and whatever it does besides, the
type of a node depends on the answers to the questions that its place suggests, and on nothing else.

Scopes read places only: a renaming of the nodes renames the declarations that are found, and leaves the
names of classes as they are.
-/
namespace TreeTidy

namespace SyntaxTree

section Lists

variable {g : NodeId → NodeId} {p q : NodeId → Bool}

/-- What is looked for by a test that goes with the renaming is found under its new name. -/
theorem find?_map_of_comp (hp : ∀ n, p (g n) = q n) (ns : List NodeId) :
    (ns.map g).find? p = (ns.find? q).map g := by
  rw [List.find?_map]
  exact congrArg (Option.map g) (congrArg (fun r => ns.find? r) (funext hp))

theorem filter_map_of_comp (hp : ∀ n, p (g n) = q n) (ns : List NodeId) :
    (ns.map g).filter p = (ns.filter q).map g := by
  rw [List.filter_map]
  exact congrArg (List.map g) (congrArg (fun r => ns.filter r) (funext hp))

end Lists

namespace Renamed

variable {g : NodeId → NodeId} {k : Nat} {u t : SyntaxTree} (h : Renamed g k u t)
include h

theorem isLocalVar (name : String) (n : NodeId) : t.isLocalVar name (g n) = u.isLocalVar name n := by
  rw [SyntaxTree.isLocalVar, SyntaxTree.isLocalVar, h.kind]

theorem isParam (name : String) (n : NodeId) : t.isParam name (g n) = u.isParam name n := by
  rw [SyntaxTree.isParam, SyntaxTree.isParam, h.kind]

theorem isField (name : String) (n : NodeId) : t.isField name (g n) = u.isField name n := by
  rw [SyntaxTree.isField, SyntaxTree.isField, h.kind]

theorem isUnit (n : NodeId) : t.isUnit (g n) = u.isUnit n := by
  rw [SyntaxTree.isUnit, SyntaxTree.isUnit, h.kind]

theorem isClass (n : NodeId) : t.isClass (g n) = u.isClass n := by
  rw [SyntaxTree.isClass, SyntaxTree.isClass, h.kind]

theorem declaredFor? (name : String) (scope child : NodeId) :
    t.declaredFor? name (g scope) (g child) = (u.declaredFor? name scope child).map g := by
  rw [SyntaxTree.declaredFor?, SyntaxTree.declaredFor?, h.kind]
  cases u.kind scope with
  | block =>
    simp only [h.position?, h.list, ← List.map_take, ← List.map_reverse]
    rcases u.position? child with _ | _ | i
    · rfl
    · rfl
    · exact find?_map_of_comp (h.isLocalVar name) _
  | forEach var =>
    simp only [h.slot?]
    have hslot : ((u.slot? scope 2).map g == some (g child)) = (u.slot? scope 2 == some child) := by
      refine Bool.eq_iff_iff.mpr ?_
      rw [beq_iff_eq, beq_iff_eq, ← Option.map_some, (Option.map_injective h.injective).eq_iff]
    rw [hslot]
    split <;> rfl
  | lambda _ | methodDecl _ | constructorDecl _ =>
    simp only [h.list]
    exact find?_map_of_comp (h.isParam name) _
  | classDecl _ _ =>
    simp only [h.list]
    exact find?_map_of_comp (h.isField name) _
  | _ => rfl

theorem declaredOutward? (name : String) (child : NodeId) (scopes : List NodeId) :
    t.declaredOutward? name (g child) (scopes.map g) =
      (u.declaredOutward? name child scopes).map g := by
  induction scopes generalizing child with
  | nil => rfl
  | cons scope scopes ih =>
    rw [List.map_cons, SyntaxTree.declaredOutward?, SyntaxTree.declaredOutward?, h.declaredFor?]
    cases u.declaredFor? name scope child with
    | some d => rfl
    | none => exact ih scope

theorem package? (unit : NodeId) : t.package? (g unit) = u.package? unit := by
  rw [SyntaxTree.package?, SyntaxTree.package?, h.kind]

theorem importsOf (unit : NodeId) : t.importsOf (g unit) = u.importsOf unit := by
  rw [SyntaxTree.importsOf, SyntaxTree.importsOf, h.slot?]
  cases u.slot? unit 0 with
  | none => rfl
  | some imports =>
    simp only [Option.map_some, h.list, List.map_map]
    exact List.map_congr_left fun n _ => h.kind n

section Linked

variable (hu : u.Linked)
include hu

theorem lookupVariable? (n : NodeId) (name : String) :
    t.lookupVariable? (g n) name = (u.lookupVariable? n name).map g := by
  rw [SyntaxTree.lookupVariable?, h.ancestors hu, h.declaredOutward?, SyntaxTree.lookupVariable?]

theorem unitOf? (n : NodeId) : t.unitOf? (g n) = (u.unitOf? n).map g := by
  rw [SyntaxTree.unitOf?, h.ancestors hu, ← List.map_cons, find?_map_of_comp h.isUnit, SyntaxTree.unitOf?]

theorem enclosingClass? (n : NodeId) : t.enclosingClass? (g n) = (u.enclosingClass? n).map g := by
  rw [SyntaxTree.enclosingClass?, h.ancestors hu, find?_map_of_comp h.isClass, SyntaxTree.enclosingClass?]

theorem declaredClassName (c : NodeId) : t.declaredClassName (g c) = u.declaredClassName c := by
  have hp : (t.unitOf? (g c)).bind t.package? = (u.unitOf? c).bind u.package? := by
    rw [h.unitOf? hu, Option.bind_map]
    exact congrArg (u.unitOf? c).bind (funext h.package?)
  rw [SyntaxTree.declaredClassName, SyntaxTree.declaredClassName, h.kind, hp]

theorem declaresClass (unit : NodeId) (simple : String) :
    t.declaresClass (g unit) simple = u.declaresClass unit simple := by
  rw [SyntaxTree.declaresClass, SyntaxTree.declaresClass, h.descendants hu, List.any_map]
  refine congrArg (u.descendants unit).any (funext fun n => ?_)
  simp only [Function.comp_apply, h.kind]

theorem visibleType (classes : ClassTable) (n : NodeId) (simple : String) :
    t.visibleType classes (g n) simple = u.visibleType classes n simple := by
  rw [SyntaxTree.visibleType, SyntaxTree.visibleType, h.unitOf? hu]
  cases u.unitOf? n with
  | none => rfl
  | some unit =>
    simp only [Option.map_some, h.importsOf, h.declaresClass hu, h.package?]

end Linked

end Renamed

end SyntaxTree

/-- The slot of a declaration that states the type of what is declared. -/
def NodeKind.typeSlot? : NodeKind → Option Nat
  | .localVar _ | .param _ | .forEach _ => some 0
  | .fieldDecl _ => some 1
  | _ => none

namespace SyntaxTree

/-- The type of `c` may be asked for on behalf of `n`. -/
inductive Asks (t : SyntaxTree) : (c n : NodeId) → Prop
  /-- A part of what declares nothing. -/
  | part {c n : NodeId} (hk : (t.kind n).typeSlot? = none) (hc : t.Child c n) : Asks t c n
  /-- The stated type of what is declared. -/
  | stated {c n : NodeId} {i : Nat} (hk : (t.kind n).typeSlot? = some i) (hc : t.slot? n i = some c) :
    Asks t c n
  /-- The declaration of the variable that is named. -/
  | variable {c n : NodeId} {name : String} (hk : t.kind n = .nameExpr name)
    (hc : t.lookupVariable? n name = some c) : Asks t c n
  /-- The result type of a method of the class around the call. -/
  | result {c n cls method : NodeId} {name : String} (hk : t.kind n = .methodCall name)
    (hcls : t.enclosingClass? n = some cls) (hm : method ∈ t.list cls)
    (hname : t.kind method = .methodDecl name) (hc : t.slot? method 1 = some c) : Asks t c n
  /-- The start value of the variable whose type is left open. -/
  | start {c n p : NodeId} {name : String} (hk : t.kind n = .varType) (hp : t.parent? n = some p)
    (hpk : t.kind p = .localVar name) (hc : t.slot? p 1 = some c) : Asks t c n

theorem child_of_slot {t : SyntaxTree} {c n : NodeId} {i : Nat} (h : t.slot? n i = some c) : t.Child c n :=
  Node.mem_children_iff.mpr ⟨.slot i, h⟩

theorem child_of_list {t : SyntaxTree} {c n : NodeId} (h : c ∈ t.list n) : t.Child c n :=
  List.mem_append_right _ h

end SyntaxTree

namespace Infer

/-- What programs have as values, whatever they do besides. -/
structure Logic (m : Type → Type) [Monad m] where
  Holds : {α : Type} → m α → (α → Prop) → Prop
  pure : ∀ {α : Type} {a : α} {P : α → Prop}, P a → Holds (pure a) P
  bind : ∀ {α β : Type} {x : m α} {f : α → m β} {P : α → Prop} {Q : β → Prop},
    Holds x P → (∀ a, P a → Holds (f a) Q) → Holds (x >>= f) Q

variable {m : Type → Type} [Monad m] (L : Logic m) {g : NodeId → NodeId} {k : Nat} {u t : SyntaxTree}
  {classes : ClassTable} {ask : Ask m} {ans : Ask Id} {n : NodeId} {A : Prop}

/-- The value is the given one if the condition is true. -/
abbrev Logic.Gives {α : Type} (L : Logic m) (A : Prop) (x : m α) (a : α) : Prop :=
  L.Holds x fun b => A → b = a

variable (h : SyntaxTree.Renamed g k u t)
include h

theorem qualify_renamed (hu : u.Linked) (n : NodeId) (name : String) :
    qualify classes t (g n) name = qualify classes u n name := by
  rw [qualify, qualify, h.visibleType hu]

theorem isMethod_renamed (name : String) (n : NodeId) : isMethod t name (g n) = isMethod u name n := by
  rw [isMethod, isMethod, h.kind]

theorem slotType_gives (i : Nat) (hask : ∀ c, u.slot? n i = some c → L.Gives A (ask (g c)) (ans c)) :
    L.Gives A (slotType t ask (g n) i) (slotType u ans n i) := by
  rw [slotType, slotType, h.slot?]
  cases hc : u.slot? n i with
  | none => exact L.pure fun _ => rfl
  | some c => exact hask c hc

omit h in
theorem argTypes_gives (ns : List NodeId) (hask : ∀ c ∈ ns, L.Gives A (ask (g c)) (ans c)) :
    L.Gives A (argTypes ask (ns.map g)) (argTypes ans ns) := by
  induction ns with
  | nil => exact L.pure fun _ => rfl
  | cons n ns ih =>
    rw [List.map_cons, argTypes, argTypes]
    refine L.bind (hask n (.head _)) fun a ha => ?_
    have hrest := ih fun c hc => hask c (.tail _ hc)
    cases a with
    | resolved ty =>
      refine L.bind hrest fun as has => L.pure fun hA => ?_
      rw [has hA, ← ha hA]
      rfl
    | absent | unknown =>
      refine L.pure fun hA => ?_
      rw [← ha hA]
      rfl

theorem unaryType_gives (op : UnaryOp)
    (hask : ∀ i c, u.slot? n i = some c → L.Gives A (ask (g c)) (ans c)) :
    L.Gives A (unaryType t ask (g n) op) (unaryType u ans n op) := by
  have hslot := slotType_gives L h 0 (hask 0)
  cases op with
  | not => exact L.pure fun _ => rfl
  | preInc | preDec | postInc | postDec => exact hslot
  | neg | plus | bitNot =>
    refine L.bind hslot fun a ha => L.pure fun hA => ?_
    rw [ha hA]
    rfl

theorem binaryType_gives (op : BinaryOp)
    (hask : ∀ i c, u.slot? n i = some c → L.Gives A (ask (g c)) (ans c)) :
    L.Gives A (binaryType t ask (g n) op) (binaryType u ans n op) := by
  rw [binaryType, binaryType]
  split
  · exact L.pure fun _ => rfl
  · refine L.bind (slotType_gives L h 0 (hask 0)) fun a ha => ?_
    refine L.bind (slotType_gives L h 1 (hask 1)) fun b hb => ?_
    split
    next hc =>
      refine L.pure fun hA => ?_
      rw [← ha hA, ← hb hA]
      exact (if_pos hc).symm
    next hc =>
      cases a <;> cases b <;>
        exact L.pure fun hA => by rw [← ha hA, ← hb hA]; exact (if_neg hc).symm

variable (hu : u.Linked)
include hu

theorem callType_gives {name : String} (hk : u.kind n = .methodCall name)
    (hask : ∀ c, u.Asks c n → L.Gives A (ask (g c)) (ans c)) :
    L.Gives A (callType classes t ask (g n) name) (callType classes u ans n name) := by
  have hpart : ∀ c, u.slot? n 0 = some c → L.Gives A (ask (g c)) (ans c) := fun c hc =>
    hask c (.part (by rw [hk]; rfl) (SyntaxTree.child_of_slot hc))
  rw [callType, callType, h.slot?, h.enclosingClass? hu]
  cases hr : u.slot? n 0 with
  | some receiver =>
    refine L.bind (hpart receiver hr) fun a ha => ?_
    cases hc : a.value?.bind TypeDesc.className? with
    | some cls =>
      refine L.pure fun hA => ?_
      rw [ha hA] at hc
      simp only [bind, hc]
      rfl
    | none =>
      refine L.pure fun hA => ?_
      rw [ha hA] at hc
      simp only [bind, hc]
      rfl
  | none =>
    cases hcls : u.enclosingClass? n with
    | none => exact L.pure fun _ => rfl
    | some cls =>
      simp only [Option.map_none, Option.map_some, h.list,
        SyntaxTree.filter_map_of_comp (isMethod_renamed h name)]
      have hmem : ∀ method ∈ (u.list cls).filter (isMethod u name), ∀ c,
          u.slot? method 1 = some c → L.Gives A (ask (g c)) (ans c) := by
        intro method hm c hc
        obtain ⟨hm, hname⟩ := List.mem_filter.mp hm
        exact hask c (.result hk hcls hm (by simpa [isMethod] using hname) hc)
      rcases hf : (u.list cls).filter (isMethod u name) with _ | ⟨method, _ | ⟨other, rest⟩⟩
      · exact L.pure fun _ => rfl
      · exact slotType_gives L h 1 (hmem method (by rw [hf]; exact .head _))
      · exact L.pure fun _ => rfl

theorem kindType_gives (hask : ∀ c, u.Asks c n → L.Gives A (ask (g c)) (ans c)) :
    L.Gives A (kindType classes t ask (g n)) (kindType classes u ans n) := by
  have hpart : (u.kind n).typeSlot? = none → ∀ i c, u.slot? n i = some c →
      L.Gives A (ask (g c)) (ans c) := fun hk i c hc =>
    hask c (.part hk (SyntaxTree.child_of_slot hc))
  have hstated : ∀ i, (u.kind n).typeSlot? = some i →
      L.Gives A (slotType t ask (g n) i) (slotType u ans n i) := fun i hi =>
    slotType_gives L h i fun c hc => hask c (.stated hi hc)
  rw [kindType, kindType, h.kind]
  cases hk : u.kind n with
  | nameExpr name =>
    simp only [h.lookupVariable? hu]
    cases hd : u.lookupVariable? n name with
    | none => exact L.pure fun _ => rfl
    | some d => exact hask d (.variable hk hd)
  | typeName name => exact L.pure fun _ => by rw [qualify_renamed h hu]; rfl
  | thisExpr =>
    refine L.pure fun _ => ?_
    rw [h.enclosingClass? hu, Option.map_map]
    simp only [Function.comp_def, h.declaredClassName hu]
    rfl
  | paren | assign _ | castExpr | newObject => exact slotType_gives L h 0 (hpart (by rw [hk]; rfl) 0)
  | unary op => exact unaryType_gives L h op (hpart (by rw [hk]; rfl))
  | binary op => exact binaryType_gives L h op (hpart (by rw [hk]; rfl))
  | conditional =>
    have hslot := fun i => slotType_gives L h i (hpart (by rw [hk]; rfl) i)
    refine L.bind (hslot 1) fun a ha => L.bind (hslot 2) fun b hb => L.pure fun hA => ?_
    rw [ha hA, hb hA]
    rfl
  | methodCall name => exact callType_gives L h hu hk hask
  | fieldAccess name =>
    refine L.bind (slotType_gives L h 0 (hpart (by rw [hk]; rfl) 0)) fun a ha => L.pure fun hA => ?_
    rw [ha hA]
    rfl
  | arrayAccess | arrayType =>
    refine L.bind (slotType_gives L h 0 (hpart (by rw [hk]; rfl) 0)) fun a ha => L.pure fun hA => ?_
    rw [ha hA]
    rfl
  | localVar _ | param _ | forEach _ => exact hstated 0 (by rw [hk]; rfl)
  | fieldDecl _ => exact hstated 1 (by rw [hk]; rfl)
  | classType name _ =>
    simp only [h.list]
    have hargs := argTypes_gives L (g := g) (u.list n) fun c hc =>
      hask c (.part (by rw [hk]; rfl) (SyntaxTree.child_of_list hc))
    refine L.bind hargs fun as has => L.pure fun hA => ?_
    rw [has hA, qualify_renamed h hu]
    rfl
  | varType =>
    simp only [h.parent?]
    cases hp : u.parent? n with
    | none => exact L.pure fun _ => rfl
    | some p =>
      simp only [Option.map_some, h.kind]
      cases hpk : u.kind p with
      | localVar name => exact slotType_gives L h 1 fun c hc => hask c (.start hk hp hpk hc)
      | _ => exact L.pure fun _ => rfl
  | _ => exact L.pure fun _ => rfl

/-- The type of a node is made of the types that it asks for, in the same way under any names. -/
theorem nodeType_gives (hask : ∀ c, u.Asks c n → L.Gives A (ask (g c)) (ans c)) :
    L.Gives A (nodeType classes t ask (g n)) (nodeType classes u ans n) := by
  rw [nodeType, nodeType, h.ty]
  cases (u.node n).ty with
  | some ty => exact L.pure fun _ => rfl
  | none => exact kindType_gives L h hu hask

end Infer

end TreeTidy
