import ClassSynth.Text.Basic

/-!
# Arguments of commands

What a command accepts, and what it is given.
-/

namespace ClassSynth.CommandLine

/-! ## Usage

What a command accepts: options, each with a long name and perhaps a letter, and perhaps an operand.
The same table drives the reading of arguments and gives the help text.
-/

/-- What an option takes. -/
inductive Argument
  /-- Nothing: the option is given or not. -/
  | nothing
  /-- A text that is not empty. -/
  | path (name : String)
  | text (name : String)
  /-- A number of 16 bits. -/
  | number (name : String)
  deriving DecidableEq, Repr

/-- An option of a command. -/
structure Setting where
  name : String
  letter? : Option Char := none
  argument : Argument := .nothing
  /-- May the option be given more than once? -/
  repeats : Bool := false
  help : String
  default? : Option String := none

/-- What a command takes besides options. -/
structure Operand where
  /-- Its name between signs that tell how often it is given. -/
  written : String
  help : String := ""

/-- What a command accepts. -/
structure Usage where
  /-- How the command is called. -/
  call : String
  about : String
  settings : List Setting
  operand? : Option Operand := none
  /-- The commands below this one, with what they are for. -/
  commands : List (String × String) := []

/-! ### Help texts -/

/-- The name for what an option takes. -/
def Argument.name? : Argument → Option String
  | nothing => none
  | path name | text name | number name => some name

namespace Setting

/-- An option as it is written in front of its help. -/
def written (s : Setting) : String :=
  let letter := match s.letter? with
    | some c => "-" ++ c.toString ++ ", "
    | none => "    "
  let argument := match s.argument.name? with
    | some name => " <" ++ name ++ ">"
    | none => if s.repeats then "..." else ""
  letter ++ "--" ++ s.name ++ argument

/-- The help with the value that an option has if it is not given. -/
def fullHelp (s : Setting) : String :=
  match s.default? with
  | some value => s.help ++ " [default: " ++ value ++ "]"
  | none => s.help

end Setting

/-- Lines of two columns. -/
def columns (rows : List (String × String)) : String :=
  let width := (rows.map (·.1.length)).foldl max 0
  String.join (rows.map fun (left, right) =>
    "  " ++ alignLeft width left ++ "  " ++ right ++ "\n")

/-- A titled part of a help text, which is left out if it has no lines. -/
def titled (title : String) (rows : List (String × String)) : String :=
  if rows.isEmpty then "" else "\n" ++ title ++ ":\n" ++ columns rows

/-- The help text of a command. -/
def Usage.helpText (c : Usage) : String :=
  let operands := c.operand?.toList.map fun o => (o.written, o.help)
  let settings := c.settings.map fun s => (s.written, s.fullHelp)
  c.about ++ "\n\nUsage: " ++ c.call ++ "\n" ++ titled "Commands" c.commands ++
    titled "Arguments" operands ++ titled "Options" settings

/-! ## Given options

Arguments are read from the left. `--name value` and `--name=value` give an option, and so do `-l
value`, `-lvalue` and `-l=value` with its letter; letters of options that take nothing may stand
together. Behind `--` there are only operands. The first argument that does not fit stops the
reading.
-/

/-- Why the reading of arguments stops. -/
inductive Stop
  /-- The help text of a command is asked for. -/
  | help (usage : Usage)
  | version
  /-- The arguments do not fit. -/
  | misuse (reason : String)

/-- The options that were given, by name, and the operands, in order. -/
structure Given where
  options : List (String × String) := []
  operands : List String := []

/-- Does an argument look like an option? A lone hyphen does not. -/
def isOption (argument : String) : Bool :=
  match argument.toList with
  | '-' :: _ :: _ => true
  | _ => false

/-- What ends the options. -/
def endOfOptions : String := "--"

/-- The number of 16 bits that a text stands for. A sign may precede its digits. -/
def number16? (text : String) : Option Nat :=
  let value? (digits : List Char) : Option Nat :=
    if digits.isEmpty || !digits.all Char.isDigit then none
    else some (digits.foldl (fun n c => n * 10 + (c.toNat - '0'.toNat)) 0)
  let magnitude? := match text.toList with
    | '+' :: digits => value? digits
    | '-' :: digits => (value? digits).filter (· == 0)
    | digits => value? digits
  magnitude?.filter (· < 0x10000)

/-- Does a text fit an argument? -/
def Argument.fits (text : String) : Argument → Bool
  | nothing => text.isEmpty
  | path _ => !text.isEmpty
  | Argument.text _ => true
  | number _ => (number16? text).isSome

/-- The text before the first equals sign and the text behind it. -/
def splitAtEquals (text : List Char) : String × Option String :=
  let front := text.takeWhile (· != '=')
  match text.drop front.length with
  | _ :: value => (String.ofList front, some (String.ofList value))
  | [] => (String.ofList front, none)

namespace Usage

/-- The option of a name. -/
def named? (u : Usage) (name : String) : Option Setting := u.settings.find? (·.name == name)

/-- The option of a letter. -/
def lettered? (u : Usage) (letter : Char) : Option Setting :=
  u.settings.find? (·.letter? == some letter)

/-- The name of the option for the help text. -/
def helpName : String := "help"

/-- The name of the option for the version. -/
def versionName : String := "version"

/-- Records an option with what it takes. -/
def give (u : Usage) (s : Setting) (text : String) (g : Given) : Except Stop Given :=
  if s.name == helpName then .error (.help u)
  else if s.name == versionName then .error .version
  else if !s.repeats && g.options.any (·.1 == s.name) then
    .error (.misuse ("--" ++ s.name ++ " is given twice"))
  else if s.argument.fits text then .ok { g with options := g.options ++ [(s.name, text)] }
  else .error (.misuse ("not a value of --" ++ s.name ++ ": " ++ text))

/-- What a cluster of letters leaves to be done. -/
inductive Cluster
  | complete (given : Given)
  /-- The next argument belongs to the option. -/
  | wants (setting : Setting) (given : Given)

/-- Reads letters behind a hyphen. -/
def cluster (u : Usage) (g : Given) : List Char → Except Stop Cluster
  | [] => .ok (.complete g)
  | c :: rest =>
    match u.lettered? c with
    | none => .error (.misuse ("no such option: -" ++ c.toString))
    | some s =>
      if s.argument = .nothing then do cluster u (← u.give s "" g) rest
      else
        match rest with
        | [] => .ok (.wants s g)
        | '=' :: value | value => .complete <$> u.give s (String.ofList value) g

/-- Reads what stands behind two hyphens. -/
def long (u : Usage) (g : Given) (text : List Char) : Except Stop Cluster :=
  let (name, value?) := splitAtEquals text
  match u.named? name, value? with
  | none, _ => .error (.misuse ("no such option: --" ++ name))
  | some s, some value =>
    if s.argument = .nothing then .error (.misuse ("--" ++ name ++ " takes no value"))
    else .complete <$> u.give s value g
  | some s, none =>
    if s.argument = .nothing then .complete <$> u.give s "" g else .ok (.wants s g)

/-- Reads an argument that looks like an option. -/
def option (u : Usage) (g : Given) (argument : String) : Except Stop Cluster :=
  match argument.toList with
  | '-' :: '-' :: text => u.long g text
  | _ :: letters => u.cluster g letters
  | [] => .ok (.complete g)

/-- Records an operand. -/
def operand (u : Usage) (g : Given) (text : String) : Except Stop Given :=
  if u.operand?.isNone || !g.operands.isEmpty then .error (.misuse ("unexpected: " ++ text))
  else if text.isEmpty then .error (.misuse "an operand is empty")
  else .ok { g with operands := g.operands ++ [text] }

/-- Reads all arguments of a command. -/
def read (u : Usage) (g : Given) : List String → Except Stop Given
  | [] => .ok g
  | argument :: rest =>
    if argument == endOfOptions then rest.foldlM u.operand g
    else if isOption argument then do
      match ← u.option g argument with
      | .complete g => read u g rest
      | .wants s g =>
        match rest with
        | value :: rest =>
          if isOption value then .error (.misuse ("--" ++ s.name ++ " needs a value"))
          else do read u (← u.give s value g) rest
        | [] => .error (.misuse ("--" ++ s.name ++ " needs a value"))
    else do read u (← u.operand g argument) rest

end Usage

namespace Given

/-- What an option was given, each time. -/
def all (g : Given) (name : String) : List String :=
  (g.options.filter (·.1 == name)).map (·.2)

/-- What an option was given, if it was. -/
def last? (g : Given) (name : String) : Option String := (g.all name).getLast?

def has (g : Given) (name : String) : Bool := !(g.all name).isEmpty

end Given

end ClassSynth.CommandLine
