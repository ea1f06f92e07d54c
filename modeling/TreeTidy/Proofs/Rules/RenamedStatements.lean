import TreeTidy.Proofs.Rules.RenamedDrafts
import TreeTidy.Proofs.Rules.Window
import TreeTidy.Rules.Lambda
import TreeTidy.Rules.Leftover
import TreeTidy.Rules.TypeWord
/-!
The rules on lambdas, statements and declarations, on trees that are the same under a renaming: each plans
the same for corresponding nodes.
-/
namespace TreeTidy.Rules

open SyntaxTree Draft

variable {g : NodeId → NodeId} {k : Nat} {v w : View} (h : View.Renamed g k v w) (n : NodeId)
include h

section Lambda

theorem lambdaParenthesesRemoval_mirrored :
    Mirrored g (lambdaParenthesesRemoval.planAt v n) (lambdaParenthesesRemoval.planAt w (g n)) := by
  rw [lambdaParenthesesRemoval.planAt, lambdaParenthesesRemoval.planAt, h.tree.kind, h.tree.list]
  cases v.tree.kind n with
  | lambda parenthesized =>
    cases parenthesized with
    | false => exact .none
    | true =>
      rcases v.tree.list n with _ | ⟨param, _ | ⟨b, bs⟩⟩
      · exact .none
      · refine .ite (by rw [h.tree.slot?, Option.isSome_map]) .none ?_
        refine .bind g (h.tree.slot? n 0) fun body => .plan ?_
        rw [h.tree.span]
        refine .copy h.tree body fun body => .copy h.tree param fun param => ?_
        exact .of_agree (make_agree (.lambda false) _ [body] [param]) fun bare => .replace n bare
      · exact .none
  | _ => exact .none

theorem bodyExpr?_renamed : bodyExpr? w.tree (g n) = (bodyExpr? v.tree n).map g := by
  rw [bodyExpr?, bodyExpr?, h.tree.kind, h.tree.slot?]
  cases v.tree.kind n with
  | exprStmt =>
    cases v.tree.slot? n 0 with
    | none => rfl
    | some e =>
      simp only [Option.map_some, Option.filter_some, h.tree.kind]
      split <;> rfl
  | _ => rfl

theorem lambdaReturnsSingleStatement_mirrored :
    Mirrored g (lambdaReturnsSingleStatement.planAt v n) (lambdaReturnsSingleStatement.planAt w (g n)) := by
  refine .ite (by rw [h.tree.kind]) .none ?_
  refine .bind g (h.tree.slot? n 0) fun body => ?_
  rw [h.tree.kind, h.tree.list]
  cases v.tree.kind body with
  | block =>
    rcases v.tree.list body with _ | ⟨stmt, _ | ⟨b, bs⟩⟩
    · exact .none
    · simp only [List.map_cons, List.map_nil, bodyExpr?_renamed h]
      cases bodyExpr? v.tree stmt with
      | none => exact .none
      | some e => exact .some ⟨[], .nil, fun r hr => .inr ⟨e, List.mem_singleton.mp hr⟩⟩
    · exact .none
  | _ => exact .none

theorem referenceParts?_renamed : referenceParts? w.tree (g n) =
    (referenceParts? v.tree n).map fun x => (g x.1, x.2) := by
  rw [referenceParts?, referenceParts?, h.tree.kind, h.tree.list, h.tree.slot?]
  split
  · rfl
  · rcases v.tree.list n with _ | ⟨param, _ | ⟨b, bs⟩⟩
    · rfl
    · simp only [List.map_cons, List.map_nil, h.tree.slot?, h.tree.kind]
      cases v.tree.slot? param 0 with
      | none => rfl
      | some ty =>
        cases v.tree.slot? n 0 with
        | none => rfl
        | some body =>
          simp only [Option.map_some, Option.bind_eq_bind, Option.bind_some, h.tree.call?]
          cases v.tree.call? body with
          | none => rfl
          | some c =>
            obtain ⟨called, receiver, args⟩ := c
            cases receiver with
            | none => rfl
            | some r =>
              simp only [Option.map_some, Option.bind_some, Call.rename, h.tree.kind]
              cases v.tree.kind param with
              | param x =>
                cases args with
                | cons a as => rfl
                | nil =>
                  cases v.tree.kind r with
                  | nameExpr y =>
                    cases v.tree.kind ty with
                    | classType cls diamond =>
                      simp only [List.map_nil]
                      split <;> rfl
                    | _ => rfl
                  | _ => rfl
              | _ => rfl
    · rfl

/-- The type of a method reference is that of the only parameter of the lambda. -/
theorem attached_of_referenceParts (hn : v.tree.isAttached n = true) {x : NodeId × String × String}
    (hx : referenceParts? v.tree n = some x) : v.tree.isAttached x.1 = true := by
  rw [referenceParts?] at hx
  split at hx
  · cases hx
  split at hx
  next param hlist =>
    simp only [Option.bind_eq_bind, Option.bind_eq_some_iff] at hx
    obtain ⟨ty, hty, body, -, c, -, r, -, hx⟩ := hx
    have hpa := h.linked.attached_list hn (a := param) (by simp [hlist])
    split at hx
    · split at hx
      · cases hx
        exact h.linked.attached_slot? hpa hty
      · cases hx
    · cases hx
  · cases hx

theorem lambdaIsMethodReference_mirrored (hn : v.tree.isAttached n = true) :
    Mirrored g (lambdaIsMethodReference.planAt v n) (lambdaIsMethodReference.planAt w (g n)) := by
  refine .bind_of _ (referenceParts?_renamed h n) fun x hx => ?_
  have hxa := attached_of_referenceParts h n hn hx
  obtain ⟨ty, cls, method⟩ := x
  refine .ite (by rw [h.staticType? hxa]) .none (.plan ?_)
  rw [h.tree.span]
  refine .of_agree (make_agree (.typeName cls) _ [] []) fun qualifier => ?_
  exact .of_agree (make_agree (.methodRef method) _ [qualifier] []) fun reference => .replace n reference

theorem streamForEach_mirrored (hn : v.tree.isAttached n = true) :
    Mirrored g (streamForEach.planAt v n) (streamForEach.planAt w (g n)) := by
  refine .bind_of _ (h.tree.call? n) fun c hc => ?_
  refine .bind_of g rfl fun stream hs => ?_
  have hsa := h.linked.attached_stripParens (h.linked.attached_receiver hn hc hs)
  obtain ⟨name, _, args⟩ := c
  simp only [Call.rename]
  cases name == "forEach" with
  | false => exact .none
  | true =>
    rcases args with _ | ⟨action, _ | ⟨b, bs⟩⟩
    · exact .none
    · simp only [List.map_cons, List.map_nil, h.tree.stripParens h.linked]
      refine .bind_of g (h.tree.nullaryCall? _ "stream") fun source hsource => ?_
      refine .ite (by rw [h.inherits (h.linked.attached_nullaryCall? hsa hsource)]) .none (.plan ?_)
      rw [h.tree.span]
      refine .copy h.tree source fun source => .copy h.tree action fun action => ?_
      exact .of_agree (make_agree (.methodCall "forEach") _ [source] [action]) fun call => .replace n call
    · exact .none

end Lambda

section Leftover

omit h in
theorem takeAway_mirrored : Mirrored g (some (takeAway n)) (some (takeAway (g n))) :=
  .some ⟨[], .nil, List.forall_mem_nil _⟩

/-- Whether there is a parent of some kind. -/
theorem anyParent_renamed (q : NodeKind → Bool) : ((w.tree.parent? (g n)).any fun p => q (w.tree.kind p)) =
    (v.tree.parent? n).any fun p => q (v.tree.kind p) := by
  rw [h.tree.parent?, Option.any_map]
  exact congrArg (fun f => (v.tree.parent? n).any f) (funext fun p => congrArg q (h.tree.kind p))

theorem emptyStatement_mirrored :
    Mirrored g (emptyStatement.planAt v n) (emptyStatement.planAt w (g n)) := by
  exact .ite (by rw [h.tree.kind, anyParent_renamed h n (· == .block)]) (takeAway_mirrored n) .none

theorem removeExplicitSuperCall_mirrored :
    Mirrored g (removeExplicitSuperCall.planAt v n) (removeExplicitSuperCall.planAt w (g n)) := by
  refine .ite (by rw [h.tree.kind, h.tree.list, List.isEmpty_map]) .none ?_
  refine .bind g (h.tree.parent? n) fun body => ?_
  refine .ite ?_ (takeAway_mirrored n) .none
  have hfirst : ((v.tree.list body).map g).head? = some (g n) ↔ (v.tree.list body).head? = some n := by
    rw [List.head?_map, ← Option.map_some, (Option.map_injective h.tree.injective).eq_iff]
  rw [h.tree.list, anyParent_renamed h body isConstructor, decide_eq_decide.mpr hfirst]

theorem unnecessaryModifier_mirrored :
    Mirrored g (unnecessaryModifier.planAt v n) (unnecessaryModifier.planAt w (g n)) := by
  rw [unnecessaryModifier.planAt, unnecessaryModifier.planAt, h.tree.kind, h.tree.ancestors h.linked]
  cases v.tree.kind n with
  | modifier m =>
    rcases v.tree.ancestors n with _ | ⟨list, _ | ⟨member, _ | ⟨owner, above⟩⟩⟩
    · exact .none
    · exact .none
    · exact .none
    · exact .ite (by rw [h.tree.kind, h.tree.kind]) (takeAway_mirrored n) .none
  | _ => exact .none

theorem siblings_renamed : siblings w.tree (g n) = (siblings v.tree n).map g := by
  rw [siblings, siblings, h.tree.parent?]
  cases v.tree.parent? n with
  | none => rfl
  | some p => exact h.tree.list p

theorem isDuplicate_renamed : isDuplicate w.tree (g n) = isDuplicate v.tree n := by
  have hother : (fun m => decide (m ≠ g n)) ∘ g = fun m => decide (m ≠ n) :=
    funext fun m => decide_eq_decide.mpr h.tree.injective.ne_iff
  rw [isDuplicate, isDuplicate, siblings_renamed h, List.takeWhile_map, hother, List.any_map]
  refine congrArg (List.any _) (funext fun s => ?_)
  rw [Function.comp_apply, h.tree.kind, h.tree.kind]

theorem hasForeignWildcard_renamed : hasForeignWildcard w.tree (g n) = hasForeignWildcard v.tree n := by
  rw [hasForeignWildcard, hasForeignWildcard, siblings_renamed h, List.any_map]
  refine congrArg (siblings v.tree n).any (funext fun s => ?_)
  rw [Function.comp_apply, h.tree.kind]

theorem isImplicitImport_renamed (path : String) (wildcard : Bool) :
    isImplicitImport w.tree (g n) path wildcard = isImplicitImport v.tree n path wildcard := by
  have hp : ((v.tree.ancestors n).map g).findSome? w.tree.package? =
      (v.tree.ancestors n).findSome? v.tree.package? := by
    rw [List.findSome?_map]
    exact congrArg (fun f => (v.tree.ancestors n).findSome? f) (funext h.tree.package?)
  rw [isImplicitImport, isImplicitImport, hasForeignWildcard_renamed h, h.tree.ancestors h.linked, hp]

theorem unnecessaryImport_mirrored :
    Mirrored g (unnecessaryImport.planAt v n) (unnecessaryImport.planAt w (g n)) := by
  rw [unnecessaryImport.planAt, unnecessaryImport.planAt, h.tree.kind]
  cases v.tree.kind n with
  | importDecl path isStatic wildcard =>
    exact .ite (by rw [isDuplicate_renamed h, isImplicitImport_renamed h]) (takeAway_mirrored n) .none
  | _ => exact .none

end Leftover

section TypeWord

theorem localVariableTypeInference_mirrored :
    Mirrored g (localVariableTypeInference.planAt v n) (localVariableTypeInference.planAt w (g n)) := by
  refine .ite (by rw [h.tree.kind]) .none ?_
  refine .bind g (h.tree.slot? n 0) fun declared => ?_
  refine .bind g (h.tree.slot? n 1) fun value => ?_
  refine .ite (by rw [h.tree.kind, h.tree.kind]) .none ?_
  refine .bind g (h.tree.slot? value 0) fun created => ?_
  refine .ite (by rw [h.tree.sameType h.linked]) ?_ .none
  rw [h.tree.span]
  exact .some ⟨[.new 0], .make _ _ [] [] (.nil : Sparing [] []), fun r hr => .inl hr⟩

theorem declaration?_renamed : declaration? w.tree (g n) =
    (declaration? v.tree n).map fun x => (g x.1, g x.2) := by
  rw [declaration?, declaration?, h.tree.kind]
  cases v.tree.kind n with
  | localVar name =>
    simp only [Option.bind_eq_bind, Option.bind_some, h.tree.slot?]
    rcases v.tree.slot? n 0 with _ | declared <;> rcases v.tree.slot? n 1 with _ | value <;> rfl
  | fieldDecl name =>
    simp only [Option.bind_eq_bind, Option.bind_some, h.tree.slot?]
    rcases v.tree.slot? n 1 with _ | declared <;> rcases v.tree.slot? n 2 with _ | value <;> rfl
  | _ => rfl

theorem isParameterized_renamed : isParameterized w.tree (g n) = isParameterized v.tree n := by
  rw [isParameterized, isParameterized, h.tree.kind, h.tree.list, List.isEmpty_map]

theorem useDiamondOperator_mirrored :
    Mirrored g (useDiamondOperator.planAt v n) (useDiamondOperator.planAt w (g n)) := by
  refine .bind _ (declaration?_renamed h n) fun x => ?_
  obtain ⟨declared, value⟩ := x
  refine .ite (by rw [isParameterized_renamed h, h.tree.kind]) .none ?_
  refine .bind g (h.tree.slot? value 0) fun created => ?_
  rw [h.tree.kind]
  cases v.tree.kind created with
  | classType name diamond =>
    refine .ite (by rw [isParameterized_renamed h]) ?_ .none
    rw [h.tree.span]
    exact .some ⟨[.new 0], .make _ _ [] [] (.nil : Sparing [] []), fun r hr => .inl hr⟩
  | _ => exact .none

theorem isVisibleAs_renamed (name : String) : isVisibleAs w (g n) name = isVisibleAs v n name := by
  rw [isVisibleAs, isVisibleAs, h.visibleType]

theorem unnecessaryFullyQualifiedName_mirrored :
    Mirrored g (unnecessaryFullyQualifiedName.planAt v n) (unnecessaryFullyQualifiedName.planAt w (g n)) := by
  rw [unnecessaryFullyQualifiedName.planAt, unnecessaryFullyQualifiedName.planAt, h.tree.kind]
  cases v.tree.kind n with
  | classType name diamond =>
    refine .ite (by rw [isVisibleAs_renamed h]) .none (.plan ?_)
    rw [h.tree.list, h.tree.span]
    refine copyAll_agree h.tree _ [] fun args => ?_
    exact .of_agree (make_agree (.classType _ diamond) _ [] args) fun short => .replace n short
  | typeName name =>
    refine .ite (by rw [isVisibleAs_renamed h]) .none (.plan ?_)
    rw [h.tree.span]
    exact .of_agree (make_agree (.typeName _) _ [] []) fun short => .replace n short
  | _ => exact .none

end TypeWord

section Window

theorem following?_renamed : following? w.tree (g n) = (following? v.tree n).map g := by
  rw [following?, following?, h.tree.window?]
  cases v.tree.window? n 2 with
  | none => rfl
  | some ns => exact List.getElem?_map

/-- The assignment with its nodes renamed. -/
def renameAssign (g : NodeId → NodeId) (a : GuardedAssign) : GuardedAssign :=
  { a with cond := g a.cond, value := g a.value }

theorem guardedAssign?_renamed : guardedAssign? w.tree (g n) =
    (guardedAssign? v.tree n).map (renameAssign g) := by
  rw [guardedAssign?, guardedAssign?, h.tree.kind, h.tree.slot?, h.tree.slot?, h.tree.slot?, Option.isSome_map]
  split
  · rfl
  cases v.tree.slot? n 0 with
  | none => rfl
  | some cond =>
    cases v.tree.slot? n 1 with
    | none => rfl
    | some yes =>
      simp only [Option.map_some, Option.bind_eq_bind, Option.bind_some, h.tree.singleStatement?]
      cases v.tree.singleStatement? yes with
      | none => rfl
      | some stmt =>
        simp only [Option.map_some, Option.bind_some, h.tree.kind, h.tree.slot?]
        split
        · rfl
        cases v.tree.slot? stmt 0 with
        | none => rfl
        | some assign =>
          simp only [Option.map_some, Option.bind_some, h.tree.kind, h.tree.slot?]
          split
          · rfl
          cases v.tree.slot? assign 0 with
          | none => rfl
          | some target =>
            cases v.tree.slot? assign 1 with
            | none => rfl
            | some value =>
              simp only [Option.map_some, Option.bind_some, h.tree.kind]
              cases v.tree.kind target <;> rfl

/-- The value of the assignment is attached, as the branch is. -/
theorem attached_value_of_guardedAssign (hn : v.tree.isAttached n = true) {a : GuardedAssign}
    (ha : guardedAssign? v.tree n = some a) : v.tree.isAttached a.value = true := by
  rw [guardedAssign?] at ha
  split at ha
  · cases ha
  simp only [Option.bind_eq_bind, Option.bind_eq_some_iff] at ha
  obtain ⟨cond, -, yes, hyes, stmt, hstmt, ha⟩ := ha
  have hya := h.linked.attached_slot? hn hyes
  have hsa : v.tree.isAttached stmt = true := by
    rw [SyntaxTree.singleStatement?] at hstmt
    split at hstmt
    · split at hstmt
      next hlist =>
        cases hstmt
        exact h.linked.attached_list hya (a := stmt) (by simp [hlist])
      · cases hstmt
    · cases hstmt
      exact hya
  split at ha
  · cases ha
  obtain ⟨assign, hassign, ha⟩ := Option.bind_eq_some_iff.mp ha
  split at ha
  · cases ha
  simp only [Option.bind_eq_some_iff] at ha
  obtain ⟨target, -, value, hvalue, ha⟩ := ha
  split at ha
  · cases ha
    exact h.linked.attached_slot? (h.linked.attached_slot? hsa hassign) hvalue
  · cases ha

theorem haveSameType_renamed {a b : NodeId} (ha : v.tree.isAttached a = true) (hb : v.tree.isAttached b = true) :
    haveSameType w (g a) (g b) = haveSameType v a b := by
  rw [haveSameType, haveSameType, h.staticType? ha, h.staticType? hb]

theorem conditionalAssignmentToTernary_mirrored (hn : v.tree.isAttached n = true) :
    Mirrored g (conditionalAssignmentToTernary.planAt v n) (conditionalAssignmentToTernary.planAt w (g n)) := by
  rw [conditionalAssignmentToTernary.planAt, conditionalAssignmentToTernary.planAt, h.tree.kind]
  cases v.tree.kind n with
  | localVar name =>
    refine .bind g (h.tree.slot? n 0) fun ty => ?_
    refine .bind_of g (h.tree.slot? n 1) fun start hstart => ?_
    refine .bind_of g (following?_renamed h n) fun branch hbranch => ?_
    refine .bind_of _ (guardedAssign?_renamed h branch) fun a ha => ?_
    have hva := attached_value_of_guardedAssign h branch (following?_attached h.linked hn hbranch) ha
    have hsame := haveSameType_renamed h hva (h.linked.attached_slot? hn hstart)
    refine .ite ?_ .none (.plan ?_)
    · simp only [renameAssign, h.tree.isEffectFree h.linked, h.tree.mentions h.linked, hsame]
      exact .rfl
    · rw [h.tree.span, h.tree.span]
      refine .copy h.tree ty fun ty => .copy h.tree a.cond fun cond => ?_
      refine .copy h.tree a.value fun value => .copy h.tree start fun start => ?_
      refine .perm (.bind [ty] (choose_agree cond value start) fun choice => ?_)
        (List.perm_append_singleton ty [cond, value, start])
      exact .of_agree (make_agree (.localVar name) _ [ty, choice] []) fun decl => .splice n 2 decl
  | _ => exact .none

theorem keepsValue_renamed {ty value : NodeId} (ht : v.tree.isAttached ty = true)
    (hv : v.tree.isAttached value = true) : keepsValue w (g ty) (g value) = keepsValue v ty value := by
  rw [keepsValue, keepsValue, h.primitive? ht, h.primitive? hv]

theorem unnecessaryLocalBeforeReturn_mirrored (hn : v.tree.isAttached n = true) :
    Mirrored g (unnecessaryLocalBeforeReturn.planAt v n) (unnecessaryLocalBeforeReturn.planAt w (g n)) := by
  rw [unnecessaryLocalBeforeReturn.planAt, unnecessaryLocalBeforeReturn.planAt, h.tree.kind]
  cases v.tree.kind n with
  | localVar name =>
    refine .bind_of g (h.tree.slot? n 0) fun ty hty => ?_
    refine .bind_of g (h.tree.slot? n 1) fun value hvalue => ?_
    refine .bind g (following?_renamed h n) fun ret => ?_
    have hkeeps := keepsValue_renamed h (h.linked.attached_slot? hn hty) (h.linked.attached_slot? hn hvalue)
    refine .ite (by rw [h.tree.kind]) .none ?_
    refine .bind g (h.tree.slot? ret 0) fun returned => ?_
    refine .ite ?_ .none (.plan ?_)
    · rw [h.tree.stripParens h.linked, h.tree.kind, hkeeps]
    · rw [h.tree.span, h.tree.span]
      refine .copy h.tree value fun value => ?_
      exact .of_agree (make_agree .returnStmt _ [value] []) fun direct => .splice n 2 direct
  | _ => exact .none

theorem contrary_agree (cond : NodeId) : Agree g [] (contrary v.tree cond) (contrary w.tree (g cond)) := by
  have hnegate : Agree g [] (copy v.tree cond >>= negate) (copy w.tree (g cond) >>= negate) :=
    .bind [] (copy_agree h.tree cond) fun p => negate_agree p
  rw [contrary, contrary, h.tree.stripParens h.linked, h.tree.kind, h.tree.slot?]
  cases v.tree.kind (v.tree.stripParens cond) with
  | unary op =>
    cases op with
    | not =>
      cases v.tree.slot? (v.tree.stripParens cond) 0 with
      | none => exact hnegate
      | some operand => exact copy_agree h.tree operand
    | _ => exact hnegate
  | _ => exact hnegate

theorem simplifyBooleanReturn_mirrored :
    Mirrored g (simplifyBooleanReturn.planAt v n) (simplifyBooleanReturn.planAt w (g n)) := by
  rw [simplifyBooleanReturn.planAt, simplifyBooleanReturn.planAt, h.tree.kind]
  cases v.tree.kind n with
  | ifStmt =>
    refine .bind g (h.tree.slot? n 0) fun cond => ?_
    refine .bind g (h.tree.slot? n 1) fun yes => ?_
    refine .bind_same (h.tree.returnedBoolean? h.linked yes) fun whenTrue => ?_
    have hlast : (w.tree.slot? (g n) 2).or (following? w.tree (g n)) =
        ((v.tree.slot? n 2).or (following? v.tree n)).map g := by
      rw [h.tree.slot?, following?_renamed h]
      cases v.tree.slot? n 2 <;> rfl
    refine .bind g hlast fun last => ?_
    refine .ite (by rw [h.tree.returnedBoolean? h.linked]) .none (.plan ?_)
    rw [h.tree.span, h.tree.span, h.tree.slot?, Option.isSome_map]
    have hend : ∀ value, Conclude g [value] (make .returnStmt ((v.tree.span n).cover (v.tree.span last)) [value] []
        >>= fun ret => if (v.tree.slot? n 2).isSome then pure (.replace n ret.ref) else pure (.splice n 2 ret.ref))
        (make .returnStmt ((v.tree.span n).cover (v.tree.span last)) [value] [] >>= fun ret =>
          if (v.tree.slot? n 2).isSome then pure (.replace (g n) ret.ref) else pure (.splice (g n) 2 ret.ref)) := by
      intro value
      refine .of_agree (make_agree .returnStmt _ [value] []) fun ret => ?_
      cases v.tree.slot? n 2 with
      | none => exact .splice n 2 ret
      | some other => exact .replace n ret
    cases whenTrue with
    | true => exact .of_agree (copy_agree h.tree cond) hend
    | false => exact .of_agree (contrary_agree h cond) hend
  | _ => exact .none

end Window

end TreeTidy.Rules
