import TreeTidy.Source.Types
/-!
Reading expressions and statements. An operator takes as its right operand only what binds more
tightly, so operators of one strength group to the left; assignments and lambdas reach as far to the
right as they can.
-/
namespace TreeTidy.Reader

def binaryOp? (mark : String) : Option BinaryOp := (Coded.all (α := BinaryOp)).find? (·.token == mark)

def assignOp? (mark : String) : Option AssignOp := (Coded.all (α := AssignOp)).find? (·.token == mark)

/-- The operators before their operand. -/
def leadingOp? : Token → Option UnaryOp
  | .mark "!" => some .not
  | .mark "~" => some .bitNot
  | .mark "-" => some .neg
  | .mark "+" => some .plus
  | .mark "++" => some .preInc
  | .mark "--" => some .preDec
  | _ => none

/-- A literal, as far as one token tells. -/
def literal? : Token → Option NodeKind
  | .int text => some (.literal .int text)
  | .long text => some (.literal .long text)
  | .double text => some (.literal .double text)
  | .string text => some (.literal .string text)
  | .char text => some (.literal .char text)
  | .word "true" => some (.literal .boolean "true")
  | .word "false" => some (.literal .boolean "false")
  | .word "null" => some (.literal .null "null")
  | .word "this" => some .thisExpr
  | _ => none

/-- A name before a point or a reference to a method is that of a type if its first letter is upper
case. -/
def nameKind (name : String) (following : Option Token) : NodeKind :=
  if name.toList.head?.any CharClass.isUpper
      && (following == some (.mark ".") || following == some (.mark "::")) then .typeName name
  else .nameExpr name

mutual

def expression : (fuel : Nat) → Reader Doc
  | 0 => exhausted
  | fuel + 1 => do
    match ← lambda? fuel with
    | some d => pure d
    | none =>
      let left ← conditional fuel
      match ← peek? with
      | some (.mark m) =>
        match assignOp? m with
        | some op =>
          skip 1
          let right ← expression fuel
          pure (.plain (.assign op) [some left, some right] [])
        | none => pure left
      | _ => pure left

/-- A lambda, if one starts here. -/
def lambda? : (fuel : Nat) → Reader (Option Doc)
  | 0 => exhausted
  | fuel + 1 => do
    match Lookahead.lambdaForm? (← rest) with
    | none => pure none
    | some form =>
      let names ← match form with
        | .single => do
          let name ← identifier
          pure [param name none]
        | .parenthesized => do
          skip 1
          lambdaParams fuel
      expect "->"
      let body ← if ← isAt "\x7b" then block fuel else expression fuel
      pure (some (.plain (.lambda (form == .parenthesized)) [some body] names))

def conditional : (fuel : Nat) → Reader Doc
  | 0 => exhausted
  | fuel + 1 => do
    let condition ← operation fuel 1
    if ← takesMark "?" then
      let chosen ← expression fuel
      expect ":"
      let otherwise ← match ← lambda? fuel with
        | some d => pure d
        | none => conditional fuel
      pure (.plain .conditional [some condition, some chosen, some otherwise] [])
    else pure condition

/-- An operand and the operators after it that bind at least so tightly. -/
def operation : (fuel least : Nat) → Reader Doc
  | 0, _ => exhausted
  | fuel + 1, least => do
    let first ← unary fuel
    operatorsAfter fuel least first

def operatorsAfter : (fuel least : Nat) → Doc → Reader Doc
  | 0, _, _ => exhausted
  | fuel + 1, least, left => do
    match ← peek? with
    | some (.word w) =>
      if w = "instanceof" ∧ least ≤ BinaryOp.lt.precedence then
        skip 1
        let ty ← type fuel
        operatorsAfter fuel least (.plain .instanceOf [some left, some ty] [])
      else pure left
    | some (.mark m) =>
      match binaryOp? m with
      | some op =>
        if least ≤ op.precedence then
          skip 1
          let right ← operation fuel (op.precedence + 1)
          operatorsAfter fuel least (.plain (.binary op) [some left, some right] [])
        else pure left
      | none => pure left
    | _ => pure left

def unary : (fuel : Nat) → Reader Doc
  | 0 => exhausted
  | fuel + 1 => do
    match (← peek?).bind leadingOp? with
    | some op =>
      skip 1
      let operand ← unary fuel
      pure (.plain (.unary op) [some operand] [])
    | none =>
      if Lookahead.startsCast (← rest) then
        skip 1
        let ty ← type fuel
        expect ")"
        let operand ← unary fuel
        pure (.plain .castExpr [some ty, some operand] [])
      else
        let first ← primary fuel
        suffixesAfter fuel first

/-- What follows an expression and belongs to it: fields, calls, indices, references to methods and
the operators after their operand. -/
def suffixesAfter : (fuel : Nat) → Doc → Reader Doc
  | 0, _ => exhausted
  | fuel + 1, d => do
    match ← peek? with
    | some (.mark ".") =>
      skip 1
      let name ← identifier
      if ← isAt "(" then
        let args ← arguments fuel
        suffixesAfter fuel (.plain (.methodCall name) [some d] args)
      else suffixesAfter fuel (.plain (.fieldAccess name) [some d] [])
    | some (.mark "[") =>
      skip 1
      let index ← expression fuel
      expect "]"
      suffixesAfter fuel (.plain .arrayAccess [some d, some index] [])
    | some (.mark "::") =>
      skip 1
      let name ← if ← takesWord "new" then pure "new" else identifier
      suffixesAfter fuel (.plain (.methodRef name) [some d] [])
    | some (.mark "++") =>
      skip 1
      suffixesAfter fuel (.plain (.unary .postInc) [some d] [])
    | some (.mark "--") =>
      skip 1
      suffixesAfter fuel (.plain (.unary .postDec) [some d] [])
    | _ => pure d

def primary : (fuel : Nat) → Reader Doc
  | 0 => exhausted
  | fuel + 1 => do
    match ← peek? with
    | none => fail .expression
    | some t =>
      match literal? t with
      | some kind =>
        skip 1
        pure (.plain kind [] [])
      | none =>
        match t with
        | .mark "(" =>
          let inner ← inParens fuel
          pure (.plain .paren [some inner] [])
        | .word "new" =>
          skip 1
          let ty ← type fuel
          let args ← arguments fuel
          pure (.plain .newObject [some ty] args)
        | .word _ =>
          let name ← identifier
          if ← isAt "(" then
            let args ← arguments fuel
            pure (.plain (.methodCall name) [] args)
          else pure (.plain (nameKind name (← peek?)) [] [])
        | _ => fail .expression

def inParens : (fuel : Nat) → Reader Doc
  | 0 => exhausted
  | fuel + 1 => do
    expect "("
    let d ← expression fuel
    expect ")"
    pure d

/-- The arguments of a call, in parentheses. -/
def arguments : (fuel : Nat) → Reader (List Doc)
  | 0 => exhausted
  | fuel + 1 => do
    expect "("
    if ← takesMark ")" then pure []
    else argumentsFrom fuel

/-- Arguments up to the closing parenthesis, of which there is at least one. -/
def argumentsFrom : (fuel : Nat) → Reader (List Doc)
  | 0 => exhausted
  | fuel + 1 => do
    let first ← expression fuel
    if ← takesMark ")" then pure [first]
    else
      expect ","
      let more ← argumentsFrom fuel
      pure (first :: more)

def block : (fuel : Nat) → Reader Doc
  | 0 => exhausted
  | fuel + 1 => do
    expect "\x7b"
    let body ← statements fuel
    pure (.plain .block [] body)

/-- Statements up to the closing brace. -/
def statements : (fuel : Nat) → Reader (List Doc)
  | 0 => exhausted
  | fuel + 1 => do
    if ← takesMark "\x7d" then pure []
    else
      let first ← statement fuel
      let more ← statements fuel
      pure (first :: more)

def statement : (fuel : Nat) → Reader Doc
  | 0 => exhausted
  | fuel + 1 => do
    let ts ← rest
    match ts with
    | .mark m :: _ =>
      if m = "\x7b" then block fuel
      else if m = ";" then
        skip 1
        pure (.plain .emptyStmt [] [])
      else simpleStatement fuel
    | .word w :: after =>
      if w = "if" then
        skip 1
        let condition ← inParens fuel
        let chosen ← statement fuel
        if ← takesWord "else" then
          let otherwise ← statement fuel
          pure (.plain .ifStmt [some condition, some chosen, some otherwise] [])
        else pure (.plain .ifStmt [some condition, some chosen, none] [])
      else if w = "while" then
        skip 1
        let condition ← inParens fuel
        let body ← statement fuel
        pure (.plain .whileLoop [some condition, some body] [])
      else if w = "for" then
        skip 1
        expect "("
        let ty ← type fuel
        let name ← identifier
        expect ":"
        let range ← expression fuel
        expect ")"
        let body ← statement fuel
        pure (.plain (.forEach name) [some ty, some range, some body] [])
      else if w = "return" then
        skip 1
        let value ← if ← isAt ";" then pure none else do
          let d ← expression fuel
          pure (some d)
        expect ";"
        pure (.plain .returnStmt [value] [])
      else if w = "throw" then
        skip 1
        let value ← expression fuel
        expect ";"
        pure (.plain .throwStmt [some value] [])
      else if w = "break" then
        skip 1
        expect ";"
        pure (.plain .breakStmt [] [])
      else if w = "continue" then
        skip 1
        expect ";"
        pure (.plain .continueStmt [] [])
      else if (w = "super" ∨ w = "this") ∧ after.head? = some (.mark "(") then
        skip 1
        let args ← arguments fuel
        expect ";"
        pure (.plain (.constructorCall (w == "super")) [] args)
      else simpleStatement fuel
    | _ => simpleStatement fuel

/-- The declaration of a local variable, or an expression. -/
def simpleStatement : (fuel : Nat) → Reader Doc
  | 0 => exhausted
  | fuel + 1 => do
    let _ ← takesWord "final"
    if Lookahead.startsDeclaration (← rest) then
      let ty ← type fuel
      let name ← identifier
      let value ← if ← takesMark "=" then do
          let d ← expression fuel
          pure (some d)
        else pure none
      expect ";"
      pure (.plain (.localVar name) [some ty, value] [])
    else
      let d ← expression fuel
      expect ";"
      pure (.plain .exprStmt [some d] [])

end

end TreeTidy.Reader
