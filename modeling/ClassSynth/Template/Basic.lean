import ClassSynth.Error
import ClassSynth.Text.Quoted

/-!
# Templates and their tokens

What a template denotes, and how its text is cut.
-/

/-!
## Templates

A template is one expression such as `$0.setName($1)` or `java.util.Optional.ofNullable(%s)`. Names
are not resolved yet: a dotted path may denote a class, a static field or a chain of fields.
-/

namespace ClassSynth

/-- The tree of a template. -/
inductive Template
  /-- The wrapped value, written `%s`. -/
  | placeholder
  /-- The receiver, written `this` or `$0`. -/
  | this
  /-- A parameter; the first has index one. -/
  | param (index : Nat)
  /-- All parameters in order, written `$$`. -/
  | allParams
  | null
  | bool (value : Bool)
  | int (value : Int32)
  | str (value : String)
  /-- A dotted name that is not called. -/
  | path (parts : List String)
  /-- A call; without a target it is a call on the receiver. -/
  | call (target : Option Template) (name : String) (args : List Template)
  | field (target : Template) (name : String)
  | new (className : String) (args : List Template)
  deriving Repr, Inhabited

namespace Template

/-- Is the template `$$`? -/
def isAllParams : Template → Bool
  | allParams => true
  | _ => false

mutual

/-- Number of places for the wrapped value. -/
def placeholderCount : Template → Nat
  | placeholder => 1
  | call target _ args => placeholderCountOption target + placeholderCountList args
  | field target _ => target.placeholderCount
  | new _ args => placeholderCountList args
  | _ => 0

def placeholderCountList : List Template → Nat
  | [] => 0
  | t :: rest => t.placeholderCount + placeholderCountList rest

def placeholderCountOption : Option Template → Nat
  | none => 0
  | some t => t.placeholderCount

end

mutual

/-- The template as text. -/
def print : Template → String
  | placeholder => "%s"
  | this => "this"
  | param index => "$" ++ toString index
  | allParams => "$$"
  | null => "null"
  | bool value => if value then "true" else "false"
  | int value => toString value.toInt
  | str value => quoted value
  | path parts => ".".intercalate parts
  | call target name args =>
    printTarget target ++ name ++ "(" ++ ", ".intercalate (printList args) ++ ")"
  | field target name => target.print ++ "." ++ name
  | new className args =>
    "new " ++ className ++ "(" ++ ", ".intercalate (printList args) ++ ")"

/-- The templates as texts. -/
def printList : List Template → List String
  | [] => []
  | t :: rest => t.print :: printList rest

/-- The target of a call with the dot after it. -/
def printTarget : Option Template → String
  | none => ""
  | some t => t.print ++ "."

end

end Template

end ClassSynth

/-!
## Tokens of templates

A template is cut into the longest tokens from left to right. A keyword is a word that would
otherwise be a name. White space separates tokens and is dropped.
-/

namespace ClassSynth

/-- Kinds of tokens. -/
inductive TokenKind
  | this | null | true | false | new
  | allParams | param | placeholder
  | leftParen | rightParen | comma | dot | semicolon
  | string | integer | identifier | blank
  deriving DecidableEq, Repr

/-- A token with its text and its offset in bytes. -/
structure Token where
  kind : TokenKind
  text : String
  offset : Nat
  deriving DecidableEq, Repr

namespace Token

/-- Starts a name. -/
def isNameStart (c : Char) : Bool := c.isAlpha || c == '_'

/-- Goes on with a name. -/
def isNamePart (c : Char) : Bool := c.isAlphanum || c == '_' || c == '$'

/-- Separates tokens. -/
def isSpace (c : Char) : Bool := c == ' ' || c == '\t' || c == '\n' || c == '\r'

/-- The kind of a word. -/
def wordKind (word : List Char) : TokenKind :=
  if word = "this".toList then .this
  else if word = "null".toList then .null
  else if word = "true".toList then .true
  else if word = "false".toList then .false
  else if word = "new".toList then .new
  else .identifier

/-- The characters of a string literal after its opening quote, up to the closing quote or to where
no literal could go on; then whether it is closed, and what follows. A backslash takes the character
after it along, but no line feed. -/
def stringBody : List Char → List Char × Bool × List Char
  | [] => ([], false, [])
  | '"' :: rest => (['"'], Bool.true, rest)
  | '\\' :: c :: rest =>
    if c == '\n' then ([], Bool.false, '\\' :: c :: rest)
    else
      let (text, closed, rest) := stringBody rest
      ('\\' :: c :: text, closed, rest)
  | ['\\'] => ([], Bool.false, ['\\'])
  | c :: rest =>
    let (text, closed, rest) := stringBody rest
    (c :: text, closed, rest)

/-- The token at the front of a text: its kind, its characters and what follows; or the characters
that no token starts with. -/
def next (c : Char) (rest : List Char) : Except (List Char) (TokenKind × List Char × List Char) :=
  let single (kind : TokenKind) := Except.ok (kind, [c], rest)
  let run (kind : TokenKind) (p : Char → Bool) :=
    Except.ok (kind, c :: rest.takeWhile p, rest.dropWhile p)
  if c == '(' then single .leftParen
  else if c == ')' then single .rightParen
  else if c == ',' then single .comma
  else if c == '.' then single .dot
  else if c == ';' then single .semicolon
  else if isSpace c then run .blank isSpace
  else if c.isDigit then run .integer Char.isDigit
  else if isNameStart c then
    let word := c :: rest.takeWhile isNamePart
    .ok (wordKind word, word, rest.dropWhile isNamePart)
  else if c == '"' then
    match stringBody rest with
    | (text, true, rest) => .ok (.string, c :: text, rest)
    | (text, false, _) => .error (c :: text)
  else
    match c, rest with
    | '$', '$' :: rest => .ok (.allParams, [c, '$'], rest)
    | '%', 's' :: rest => .ok (.placeholder, [c, 's'], rest)
    | '$', d :: _ => if d.isDigit then run .param Char.isDigit else .error [c]
    | '-', d :: _ => if d.isDigit then run .integer Char.isDigit else .error [c]
    | _, _ => .error [c]

/-- Number of bytes of a text in UTF-8. -/
def byteLength (cs : List Char) : Nat := (cs.map Char.utf8Size).foldr (· + ·) 0

/-- Cuts a text at an offset into tokens; `done` holds the tokens before it, last first. A token
takes at least one character, so as many rounds as there are characters suffice. -/
def scanAux : Nat → List Token → Nat → List Char → Except TemplateError (List Token)
  | _, done, _, [] => .ok done.reverse
  | 0, done, _, _ :: _ => .ok done.reverse
  | fuel + 1, done, offset, c :: rest =>
    match next c rest with
    | .error text => .error (.unexpectedInput (String.ofList text) offset)
    | .ok (kind, text, rest) =>
      let offset' := offset + byteLength text
      if kind = .blank then scanAux fuel done offset' rest
      else scanAux fuel ({ kind, text := String.ofList text, offset } :: done) offset' rest

/-- The tokens of a template. -/
def scan (source : String) : Except TemplateError (List Token) :=
  scanAux source.toList.length [] 0 source.toList

end Token

end ClassSynth
