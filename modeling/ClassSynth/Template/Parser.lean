import ClassSynth.Template.Basic

/-!
# From tokens to templates

An expression is a primary followed by any number of `.name` and `.name(args)`. A primary that
starts with a name takes as many dotted parts as follow; the last of them is the name of a call if
arguments come next.

Every function takes tokens from the front and returns the others. Their common fuel bounds the
depth of calls; four calls take at least one token.
-/

namespace ClassSynth.Template

/-- Reads a value from the front of the tokens. -/
abbrev Parser := StateT (List Token) (Except TemplateError)

namespace Parser

def fail {α : Type} (e : TemplateError) : Parser α := fun _ => .error e

/-- The next token. -/
def advance : Parser Token := fun tokens =>
  match tokens with
  | t :: rest => .ok (t, rest)
  | [] => .error .endOfTemplate

/-- Is the next token of this kind? -/
def nextIs (kind : TokenKind) : Parser Bool := do
  return (← get).head?.any (·.kind = kind)

/-- Takes the next token if it is of this kind. -/
def accept (kind : TokenKind) : Parser Bool := fun tokens =>
  match tokens with
  | t :: rest => if t.kind = kind then .ok (true, rest) else .ok (false, tokens)
  | [] => .ok (false, [])

/-- The text of the next token, which must be of this kind. -/
def expect (kind : TokenKind) (what : String) : Parser String := do
  let t ← advance
  if t.kind = kind then return t.text else fail (.expected what t.text)

/-! ## Literals -/

/-- The number that digits stand for. -/
def digitsValue (digits : List Char) : Nat :=
  digits.foldl (fun n c => n * 10 + (c.toNat - '0'.toNat)) 0

/-- The integer that a literal stands for. -/
def integerValue (text : String) : Int :=
  match text.toList with
  | '-' :: digits => -(digitsValue digits : Int)
  | digits => digitsValue digits

/-- The characters that a string literal stands for, without its quotes. -/
def unescape : List Char → List Char
  | [] => []
  | '\\' :: c :: rest =>
    (if c == 'n' then '\n' else if c == 't' then '\t' else if c == 'r' then '\r'
      else if c == '0' then '\x00' else c) :: unescape rest
  | c :: rest => c :: unescape rest

/-- The text between the quotes of a string literal. -/
def stringValue (text : String) : String :=
  String.ofList (unescape (text.toList.drop 1).dropLast)

/-- A parameter token: `$0` is the receiver. -/
def param (text : String) : Parser Template :=
  let index := digitsValue (text.toList.drop 1)
  if 65535 < index then fail (.badParameter text)
  else if index = 0 then pure .this
  else pure (.param index)

/-- An integer token. -/
def integer (text : String) : Parser Template :=
  let value := integerValue text
  if value < -2147483648 ∨ 2147483647 < value then fail (.integerOutOfRange text)
  else pure (.int (Int32.ofInt value))

/-! ## Names -/

/-- The parts of a dotted name after those in `done`, which come last first. -/
def moreParts (done : List String) : List Token → List String × List Token
  | dot :: name :: rest =>
    if dot.kind = .dot ∧ name.kind = .identifier then moreParts (name.text :: done) rest
    else (done.reverse, dot :: name :: rest)
  | rest => (done.reverse, rest)

/-- A dotted name, as long as it goes on. -/
def dotted : Parser (List String) := do
  let first ← expect .identifier "a name"
  modifyGet (moreParts [first])

/-- The call of the last part of a path on what the other parts denote. -/
def callPath (path : List String) (args : List Template) : Parser Template :=
  match path.getLast? with
  | none => fail .emptyName
  | some name =>
    match path.dropLast with
    | [] => pure (.call none name args)
    | qualifier => pure (.call (some (.path qualifier)) name args)

/-! ## Expressions -/

mutual

/-- A whole expression. -/
def expr : Nat → Parser Template
  | 0 => fail .endOfTemplate
  | fuel + 1 => do
    let e ← primary fuel
    selectors fuel e

/-- The fields and calls that follow an expression. -/
def selectors : Nat → Template → Parser Template
  | 0, _ => fail .endOfTemplate
  | fuel + 1, e => do
    if ← accept .dot then
      let name ← expect .identifier "a member name"
      if ← nextIs .leftParen then
        let args ← arguments fuel
        selectors fuel (.call (some e) name args)
      else selectors fuel (.field e name)
    else return e

/-- An expression without selectors. -/
def primary : Nat → Parser Template
  | 0 => fail .endOfTemplate
  | fuel + 1 => do
    let tokens ← get
    let t ← advance
    match t.kind with
    | .placeholder => return .placeholder
    | .this => return .this
    | .allParams => return .allParams
    | .null => return .null
    | .true => return .bool true
    | .false => return .bool false
    | .param => param t.text
    | .integer => integer t.text
    | .string => return .str (stringValue t.text)
    | .leftParen =>
      let e ← expr fuel
      let _ ← expect .rightParen "`)`"
      return e
    | .new =>
      let path ← dotted
      let args ← arguments fuel
      return .new (".".intercalate path) args
    | .identifier =>
      set tokens
      let path ← dotted
      if ← nextIs .leftParen then callPath path (← arguments fuel) else return .path path
    | _ => fail (.unexpected t.text)

/-- Arguments in parentheses. -/
def arguments : Nat → Parser (List Template)
  | 0 => fail .endOfTemplate
  | fuel + 1 => do
    let _ ← expect .leftParen "`(`"
    if ← accept .rightParen then return [] else moreArguments fuel

/-- At least one more argument, and the closing parenthesis. -/
def moreArguments : Nat → Parser (List Template)
  | 0 => fail .endOfTemplate
  | fuel + 1 => do
    let e ← expr fuel
    if ← accept .rightParen then return [e]
    else
      let _ ← expect .comma "`,` or `)`"
      return e :: (← moreArguments fuel)

end

/-- One expression, then perhaps a semicolon, then nothing. -/
def template : Parser Template := do
  let tokens ← get
  if tokens.isEmpty then fail .empty
  let e ← expr (4 * tokens.length + 4)
  let _ ← accept .semicolon
  match ← get with
  | [] => return e
  | extra :: _ => fail (.trailing extra.text)

end Parser

/-- The template that the tokens form. -/
def ofTokens (tokens : List Token) : Except TemplateError Template :=
  (Parser.template tokens).map (·.1)

/-- The template of a text. -/
def parse (source : String) : Except Error Template :=
  (do ofTokens (← Token.scan source)).mapError (.template source)

/-- The template of a text that wraps one value. -/
def parseWrap (source : String) : Except Error Template := do
  let t ← parse source
  if t.placeholderCount = 1 then return t
  else .error (.template source (.placeholderCount t.placeholderCount))

end ClassSynth.Template
