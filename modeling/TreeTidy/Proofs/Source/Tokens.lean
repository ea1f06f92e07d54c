import TreeTidy.Print.Source
import TreeTidy.Proofs.Document.Parts
import TreeTidy.Source.Unit
/-!
The tokens that the text of a document is made of. The brackets that close lists of types inside each
other are written without blanks and read as marks of up to three, so the tokens of a type depend on
how many brackets are closed after it.
-/
namespace TreeTidy

namespace Token

/-- So many closing angle brackets in a row. -/
def closers : Nat → List Token
  | 0 => []
  | 1 => [mark ">"]
  | 2 => [mark ">>"]
  | n + 3 => mark ">>>" :: closers n

/-- The parts of a name with points between them. -/
def ofParts (parts : List String) : List Token :=
  (parts.map word).intersperse (mark ".")

/-- The tokens of a name, which may be qualified. -/
def ofPath (path : String) : List Token :=
  ofParts ((path.toList.splitOn '.').map String.ofList)

def commas (items : List (List Token)) : List Token := [mark ","].intercalate items

theorem commas_cons_cons (ts us : List Token) (items : List (List Token)) :
    commas (ts :: us :: items) = ts ++ mark "," :: commas (us :: items) := by
  rw [commas, List.intercalate_cons_cons, List.append_assoc]
  rfl

theorem commas_singleton (ts : List Token) : commas [ts] = ts := List.append_nil ts

def inParens (ts : List Token) : List Token := mark "(" :: ts ++ [mark ")"]

def inBraces (ts : List Token) : List Token := mark "\x7b" :: ts ++ [mark "\x7d"]

def ofLiteral : LiteralSort → String → Token
  | .int => int
  | .long => long
  | .float | .double => double
  | .string => string
  | .char => char
  | .boolean | .null => word

/-- What a slot holds, between other tokens if it holds something. -/
def wrapped (before : List Token) (slot : Option (List Token)) (after : List Token) : List Token :=
  match slot with
  | some ts => before ++ ts ++ after
  | none => []

/-- The tokens of a node of the given kind before so many closing brackets, from those of its children;
`args` are those of its list as the last types in angle brackets. -/
def ofNode (closing : Nat) (bare : Bool) (kind : NodeKind) (slots : List (Option (List Token)))
    (items : List (List Token)) (args : List Token) : List Token :=
  let slot (i : Nat) : Option (List Token) := slots[i]?.join
  let child (i : Nat) : List Token := (slot i).getD []
  match kind with
  | .compilationUnit package =>
    wrapped [word "package"] (package.map ofPath) [mark ";"] ++ (child 0 ++ items.flatten)
  | .importList => items.flatten
  | .importDecl path isStatic wildcard =>
    word "import" :: (if isStatic then [word "static"] else []) ++ ofPath path
      ++ (if wildcard then [mark ".", mark "*"] else []) ++ [mark ";"]
  | .classDecl n flavour => child 0 ++ word flavour.keyword :: word n :: inBraces items.flatten
  | .methodDecl n =>
    child 0 ++ child 1 ++ word n :: inParens (commas items) ++ (slot 2).getD [mark ";"]
  | .constructorDecl n => child 0 ++ word n :: inParens (commas items) ++ child 1
  | .fieldDecl n => child 0 ++ child 1 ++ word n :: wrapped [mark "="] (slot 2) [] ++ [mark ";"]
  | .modifiers => items.flatten
  | .modifier keyword => [word keyword.keyword]
  | .param n => child 0 ++ [word n]
  | .primitiveType p => word p.keyword :: closers closing
  | .classType n diamond =>
    ofPath n ++ (if items.isEmpty then
        if diamond then mark "<" :: closers (closing + 1) else closers closing
      else mark "<" :: args)
  | .arrayType => child 0 ++ mark "[" :: mark "]" :: closers closing
  | .varType => word "var" :: closers closing
  | .block => inBraces items.flatten
  | .exprStmt => child 0 ++ [mark ";"]
  | .localVar n => child 0 ++ word n :: wrapped [mark "="] (slot 1) [] ++ [mark ";"]
  | .ifStmt => word "if" :: inParens (child 0) ++ child 1 ++ wrapped [word "else"] (slot 2) []
  | .whileLoop => word "while" :: inParens (child 0) ++ child 1
  | .forEach n =>
    word "for" :: inParens (child 0 ++ word n :: mark ":" :: child 1) ++ child 2
  | .returnStmt => word "return" :: (slot 0).getD [] ++ [mark ";"]
  | .throwStmt => word "throw" :: child 0 ++ [mark ";"]
  | .breakStmt => [word "break", mark ";"]
  | .continueStmt => [word "continue", mark ";"]
  | .emptyStmt => [mark ";"]
  | .constructorCall isSuper =>
    word (if isSuper then "super" else "this") :: inParens (commas items) ++ [mark ";"]
  | .nameExpr n => [word n]
  | .typeName n => [word n]
  | .thisExpr => [word "this"]
  | .literal sort text => [ofLiteral sort text]
  | .unary op => if op.isPostfix then child 0 ++ [mark op.token] else mark op.token :: child 0
  | .binary op => child 0 ++ mark op.token :: child 1
  | .conditional => child 0 ++ mark "?" :: child 1 ++ mark ":" :: child 2
  | .assign op => child 0 ++ mark op.token :: child 1
  | .paren => inParens (child 0)
  | .methodCall n => wrapped [] (slot 0) [mark "."] ++ word n :: inParens (commas items)
  | .fieldAccess n => child 0 ++ [mark ".", word n]
  | .newObject => word "new" :: child 0 ++ inParens (commas items)
  | .instanceOf => child 0 ++ word "instanceof" :: child 1
  | .castExpr => inParens (child 0) ++ child 1
  | .lambda parenthesized =>
    (if bare && !parenthesized then commas items else inParens (commas items))
      ++ mark "->" :: child 0
  | .methodRef n => child 0 ++ [mark "::", word n]
  | .arrayAccess => child 0 ++ mark "[" :: child 1 ++ [mark "]"]

/-- How much tokens count together. -/
def weightOf (ts : List Token) : Nat := ts.foldr (fun t n => t.weight + n) 0

@[simp] theorem weightOf_nil : weightOf [] = 0 := rfl

@[simp] theorem weightOf_cons (t : Token) (ts : List Token) :
    weightOf (t :: ts) = t.weight + weightOf ts := rfl

@[simp] theorem weightOf_append (ts us : List Token) :
    weightOf (ts ++ us) = weightOf ts + weightOf us := by
  induction ts with
  | nil => simp
  | cons t ts ih => simp [ih, Nat.add_assoc]

theorem one_le_weight (t : Token) : 1 ≤ t.weight := by
  unfold weight
  split <;> decide

theorem one_le_weightOf {t : Token} {ts us : List Token} (h : ts = t :: us) : 1 ≤ weightOf ts := by
  rw [h, weightOf_cons]
  exact Nat.le_add_right_of_le t.one_le_weight

@[simp] theorem weight_word (w : String) : (word w).weight = 1 := rfl

/-- Marks that close so many angle brackets. -/
inductive Closing : Nat → List Token → Prop
  | none : Closing 0 []
  | one {n : Nat} {ts : List Token} : Closing n ts → Closing (n + 1) (mark ">" :: ts)
  | two {n : Nat} {ts : List Token} : Closing n ts → Closing (n + 2) (mark ">>" :: ts)
  | three {n : Nat} {ts : List Token} : Closing n ts → Closing (n + 3) (mark ">>>" :: ts)

theorem closing_closers (n : Nat) : Closing n (closers n) := by
  induction n using closers.induct with
  | case1 => exact .none
  | case2 => exact .one .none
  | case3 => exact .two .none
  | case4 n ih => exact .three ih

theorem Closing.eq_nil {ts : List Token} (h : Closing 0 ts) : ts = [] := by
  cases h
  rfl

/-- Pairs of brackets. -/
def pairs : Nat → List Token
  | 0 => []
  | n + 1 => mark "[" :: mark "]" :: pairs n

/-- Words with a point before each. -/
def pointed : List String → List Token
  | [] => []
  | w :: ws => mark "." :: word w :: pointed ws

theorem word_mem_pointed {w : String} {ws : List String} (h : w ∈ ws) : word w ∈ pointed ws := by
  induction ws with
  | nil => cases h
  | cons n ws ih =>
    rcases List.mem_cons.mp h with rfl | h
    · exact List.mem_cons_of_mem _ List.mem_cons_self
    · exact List.mem_cons_of_mem _ (List.mem_cons_of_mem _ (ih h))

theorem ofParts_cons (first : String) (parts : List String) :
    ofParts (first :: parts) = word first :: pointed parts := by
  induction parts generalizing first with
  | nil => rfl
  | cons n parts ih => exact congrArg (word first :: mark "." :: ·) (ih n)

end Token

namespace Doc

mutual

/-- The tokens of a document before so many closing angle brackets, with them if it is a type. -/
def tokensThen (closing : Nat) : Doc → List Token
  | node kind _ _ slots list =>
    Token.ofNode closing (Print.isBare list) kind (tokensOfSlots slots) (tokensOfList list)
      (tokensOfArgs (closing + 1) list)

def tokensOfSlots : List (Option Doc) → List (Option (List Token))
  | [] => []
  | none :: ss => none :: tokensOfSlots ss
  | some d :: ss => some (tokensThen 0 d) :: tokensOfSlots ss

def tokensOfList : List Doc → List (List Token)
  | [] => []
  | d :: ds => tokensThen 0 d :: tokensOfList ds

/-- Types in angle brackets, the last one before so many closing brackets. -/
def tokensOfArgs (closing : Nat) : List Doc → List Token
  | [] => []
  | d :: ds =>
    if ds.isEmpty then tokensThen closing d
    else tokensThen 0 d ++ Token.mark "," :: tokensOfArgs closing ds

end

/-- The tokens of the text of a document. -/
def tokens (d : Doc) : List Token := d.tokensThen 0

theorem tokensOfSlots_eq (slots : List (Option Doc)) :
    tokensOfSlots slots = slots.map (Option.map tokens) := by
  induction slots with
  | nil => rfl
  | cons o slots ih => cases o <;> rw [tokensOfSlots, ih] <;> rfl

theorem tokensOfList_eq (list : List Doc) : tokensOfList list = list.map tokens := by
  induction list with
  | nil => rfl
  | cons d list ih => rw [tokensOfList, ih]; rfl

theorem tokensThen_node (closing : Nat) (kind : NodeKind) (span : Span) (ty : Option TypeDesc)
    (slots : List (Option Doc)) (list : List Doc) :
    (node kind span ty slots list).tokensThen closing =
      Token.ofNode closing (Print.isBare list) kind (slots.map (Option.map tokens))
        (list.map tokens) (tokensOfArgs (closing + 1) list) := by
  rw [tokensThen, tokensOfSlots_eq, tokensOfList_eq]

section

open Token (mark word inParens inBraces commas wrapped)

variable {c d e x y ty : Doc} {o : Option Doc} {n : String} {l : List Doc}

@[simp] theorem tokens_paren : (plain .paren [some e] []).tokens = inParens e.tokens := rfl

@[simp] theorem tokens_newObject : (plain .newObject [some ty] l).tokens
    = word "new" :: (ty.tokens ++ inParens (commas (l.map tokens))) := by
  rw [← tokensOfList_eq]
  rfl

@[simp] theorem tokens_call : (plain (.methodCall n) [] l).tokens
    = word n :: inParens (commas (l.map tokens)) := by
  rw [← tokensOfList_eq]
  rfl

@[simp] theorem tokens_callOn : (plain (.methodCall n) [some d] l).tokens
    = d.tokens ++ mark "." :: word n :: inParens (commas (l.map tokens)) := by
  rw [← tokensOfList_eq, List.append_cons]
  rfl

@[simp] theorem tokens_field : (plain (.fieldAccess n) [some d] []).tokens
    = d.tokens ++ [mark ".", word n] := rfl

@[simp] theorem tokens_index : (plain .arrayAccess [some d, some x] []).tokens
    = d.tokens ++ mark "[" :: (x.tokens ++ [mark "]"]) := List.append_assoc ..

@[simp] theorem tokens_methodRef : (plain (.methodRef n) [some d] []).tokens
    = d.tokens ++ [mark "::", word n] := rfl

theorem tokens_trailing {op : UnaryOp} (h : op.isPostfix = true) :
    (plain (.unary op) [some d] []).tokens = d.tokens ++ [mark op.token] := if_pos h

theorem tokens_leading {op : UnaryOp} (h : op.isPostfix = false) :
    (plain (.unary op) [some d] []).tokens = mark op.token :: d.tokens :=
  if_neg (Bool.eq_false_iff.mp h)

@[simp] theorem tokens_cast : (plain .castExpr [some ty, some d] []).tokens
    = inParens ty.tokens ++ d.tokens := rfl

@[simp] theorem tokens_binary {op : BinaryOp} : (plain (.binary op) [some x, some y] []).tokens
    = x.tokens ++ mark op.token :: y.tokens := rfl

@[simp] theorem tokens_instanceOf : (plain .instanceOf [some x, some ty] []).tokens
    = x.tokens ++ word "instanceof" :: ty.tokens := rfl

@[simp] theorem tokens_conditional : (plain .conditional [some c, some x, some y] []).tokens
    = c.tokens ++ mark "?" :: (x.tokens ++ mark ":" :: y.tokens) := List.append_assoc ..

@[simp] theorem tokens_assign {op : AssignOp} : (plain (.assign op) [some x, some y] []).tokens
    = x.tokens ++ mark op.token :: y.tokens := rfl

@[simp] theorem tokens_single : (plain (.lambda false) [some x] [Reader.param n none]).tokens
    = word n :: mark "->" :: x.tokens := rfl

@[simp] theorem tokens_lambda : (plain (.lambda true) [some x] l).tokens
    = inParens (commas (l.map tokens)) ++ mark "->" :: x.tokens := by
  rw [← tokensOfList_eq, tokens, plain, tokensThen, Token.ofNode, Bool.not_true, Bool.and_false]
  rfl

@[simp] theorem tokens_bare : (Reader.param n none).tokens = [word n] := rfl

@[simp] theorem tokens_typed : (Reader.param n (some ty)).tokens = ty.tokens ++ [word n] := rfl

@[simp] theorem tokens_block : (plain .block [] l).tokens = inBraces (l.map tokens).flatten := by
  rw [← tokensOfList_eq]
  rfl

@[simp] theorem tokens_exprStmt : (plain .exprStmt [some e] []).tokens = e.tokens ++ [mark ";"] := rfl

@[simp] theorem tokens_localVar : (plain (.localVar n) [some ty, o] []).tokens
    = ty.tokens ++ word n :: (wrapped [mark "="] (o.map tokens) [] ++ [mark ";"]) := by
  cases o <;> exact List.append_assoc ..

@[simp] theorem tokens_ifStmt : (plain .ifStmt [some c, some x, o] []).tokens
    = word "if" :: (inParens c.tokens ++ (x.tokens ++ wrapped [word "else"] (o.map tokens) [])) := by
  cases o <;> exact congrArg (List.cons _) (List.append_assoc ..)

@[simp] theorem tokens_whileLoop : (plain .whileLoop [some c, some x] []).tokens
    = word "while" :: (inParens c.tokens ++ x.tokens) := rfl

@[simp] theorem tokens_forEach : (plain (.forEach n) [some ty, some e, some x] []).tokens
    = word "for" :: (inParens (ty.tokens ++ word n :: mark ":" :: e.tokens) ++ x.tokens) := rfl

@[simp] theorem tokens_returnStmt : (plain .returnStmt [o] []).tokens
    = word "return" :: ((o.map tokens).getD [] ++ [mark ";"]) := by
  cases o <;> rfl

@[simp] theorem tokens_throwStmt : (plain .throwStmt [some e] []).tokens
    = word "throw" :: (e.tokens ++ [mark ";"]) := rfl

@[simp] theorem tokens_constructorCall {isSuper : Bool} :
    (plain (.constructorCall isSuper) [] l).tokens
      = word (if isSuper then "super" else "this") :: (inParens (commas (l.map tokens)) ++ [mark ";"]) := by
  rw [← tokensOfList_eq]
  rfl

@[simp] theorem tokens_modifiers {ms : List Modifier} :
    (plain .modifiers [] (ms.map fun m => plain (.modifier m) [] [])).tokens
      = ms.map fun m => word m.keyword := by
  change (tokensOfList _).flatten = _
  induction ms with
  | nil => rfl
  | cons m ms ih => exact congrArg (List.cons _) ih

@[simp] theorem tokens_classDecl {flavour : ClassFlavour} :
    (plain (.classDecl n flavour) [some d] l).tokens
      = d.tokens ++ word flavour.keyword :: word n :: inBraces (l.map tokens).flatten := by
  rw [← tokensOfList_eq]
  rfl

@[simp] theorem tokens_constructorDecl : (plain (.constructorDecl n) [some d, some x] l).tokens
    = d.tokens ++ word n :: (inParens (commas (l.map tokens)) ++ x.tokens) := by
  rw [← tokensOfList_eq, ← List.cons_append, ← List.append_assoc]
  rfl

@[simp] theorem tokens_methodDecl : (plain (.methodDecl n) [some d, some ty, o] l).tokens
    = d.tokens ++ (ty.tokens ++ word n :: (inParens (commas (l.map tokens))
      ++ (o.map tokens).getD [mark ";"])) := by
  rw [← tokensOfList_eq, ← List.cons_append, ← List.append_assoc, ← List.append_assoc]
  cases o <;> rfl

@[simp] theorem tokens_fieldDecl : (plain (.fieldDecl n) [some d, some ty, o] []).tokens
    = d.tokens ++ (ty.tokens ++ word n :: (wrapped [mark "="] (o.map tokens) [] ++ [mark ";"])) := by
  rw [← List.cons_append, ← List.append_assoc, ← List.append_assoc]
  cases o <;> rfl

@[simp] theorem tokens_importDecl {path : String} {isStatic wildcard : Bool} :
    (plain (.importDecl path isStatic wildcard) [] []).tokens
      = word "import" :: ((if isStatic then [word "static"] else []) ++ (Token.ofPath path
        ++ ((if wildcard then [mark ".", mark "*"] else []) ++ [mark ";"]))) := by
  rw [← List.append_assoc, ← List.append_assoc]
  exact congrArg (List.cons _) rfl

@[simp] theorem tokens_unit {package : Option String} {imports : List Doc} :
    (plain (.compilationUnit package) [some (plain .importList [] imports)] l).tokens
      = wrapped [word "package"] (package.map Token.ofPath) [mark ";"]
        ++ ((imports.map tokens).flatten ++ (l.map tokens).flatten) := by
  rw [← tokensOfList_eq, ← tokensOfList_eq]
  rfl

end

end Doc

end TreeTidy
