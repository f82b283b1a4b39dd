/-!
# Characters and pieces of text

Sets of characters, white space, cuts at separators and columns.
-/

namespace ClassSynth

/-! ## Sets of characters given by code point ranges

A property of characters is a table of closed ranges of code points.
-/

/-- The closed range of code points from `first` to `last`. -/
structure CharRange where
  first : Nat
  last : Nat
  deriving DecidableEq, Repr

namespace CharRange

/-- Does the range hold the character? -/
def contains (r : CharRange) (c : Char) : Bool :=
  r.first ≤ c.toNat && c.toNat ≤ r.last

/-- Does some range of the table hold the character? -/
def anyContains (table : List CharRange) (c : Char) : Bool :=
  table.any (·.contains c)

/-- A table written as pairs of first and last code points. -/
def ofPairs (pairs : List (Nat × Nat)) : List CharRange :=
  pairs.map fun p => ⟨p.1, p.2⟩

theorem contains_iff (r : CharRange) (c : Char) :
    r.contains c = true ↔ r.first ≤ c.toNat ∧ c.toNat ≤ r.last := by
  simp [contains]

end CharRange

/-! ## White space

The characters with the Unicode property `White_Space`. They separate nothing in a type name and
are dropped from it.
-/

/-- The code points with the property `White_Space`. -/
def blankRanges : List CharRange :=
  CharRange.ofPairs
    [(0x9, 0xd), (0x20, 0x20), (0x85, 0x85), (0xa0, 0xa0), (0x1680, 0x1680), (0x2000, 0x200a),
     (0x2028, 0x2029), (0x202f, 0x202f), (0x205f, 0x205f), (0x3000, 0x3000)]

/-- White space of every script, not of ASCII alone. -/
def isBlank (c : Char) : Bool :=
  CharRange.anyContains blankRanges c

/-- Drops white space at both ends. -/
def trimBlank (s : String) : String :=
  String.ofList (((s.toList.dropWhile isBlank).reverse.dropWhile isBlank).reverse)

example : isBlank ' ' ∧ isBlank '\t' ∧ isBlank '\u2003' ∧ ¬ isBlank '\u200b' := by decide

/-! ## Cutting text at separators

Cuts at single characters, on lists of characters and on strings.
-/

/-- The parts between separators; always at least one, and `current` holds the characters of the
current part, last first. -/
def splitWhereAux (sep : Char → Bool) (current : List Char) : List Char → List (List Char)
  | [] => [current.reverse]
  | c :: rest =>
    if sep c then current.reverse :: splitWhereAux sep [] rest
    else splitWhereAux sep (c :: current) rest

/-- The parts of a text between characters that satisfy `sep`. -/
def splitWhere (sep : Char → Bool) (s : String) : List String :=
  (splitWhereAux sep [] s.toList).map String.ofList

/-- The part after the last character that satisfies `sep`, or everything. -/
def afterLast (sep : Char → Bool) (s : String) : String :=
  String.ofList (s.toList.reverse.takeWhile (! sep ·)).reverse

/-- The part before the last character that satisfies `sep`, if there is one. -/
def beforeLast? (sep : Char → Bool) (s : String) : Option String :=
  match s.toList.reverse.dropWhile (! sep ·) with
  | _ :: rest => some (String.ofList rest.reverse)
  | [] => none

/-- Puts `new` in the place of each `old`. -/
def replaceChar (old new : Char) (s : String) : String :=
  String.ofList (s.toList.map fun c => if c == old then new else c)

/-- The parts with the separator between them. -/
def joinWith (sep : String) (parts : List String) : String :=
  sep.intercalate parts

/-- Does the text start with the given characters? What follows them. -/
def afterFront? (front text : List Char) : Option (List Char) :=
  match front, text with
  | [], rest => some rest
  | a :: front, b :: text => if a == b then afterFront? front text else none
  | _ :: _, [] => none

/-- Puts `new` in the place of each occurrence of `old`, found from the left without overlap. Each
round drops at least one character, so as many rounds as there are characters suffice. -/
def replaceTextAux (old new : List Char) : Nat → List Char → List Char → List Char
  | 0, done, text => done.reverse ++ text
  | fuel + 1, done, text =>
    match afterFront? old text with
    | some rest => replaceTextAux old new fuel (new.reverse ++ done) rest
    | none =>
      match text with
      | [] => done.reverse
      | c :: rest => replaceTextAux old new fuel (c :: done) rest

/-- Puts `new` in the place of each occurrence of the nonempty text `old`. -/
def replaceText (old new s : String) : String :=
  String.ofList (replaceTextAux old.toList new.toList s.toList.length [] s.toList)

/-! ## Columns

Texts filled up to the width of a column. A wider text stays as it is.
-/

/-- So many spaces. -/
def spaces (n : Nat) : String := String.ofList (List.replicate n ' ')

/-- The text filled up on its left. -/
def alignRight (width : Nat) (s : String) : String := spaces (width - s.length) ++ s

/-- The text filled up on its right. -/
def alignLeft (width : Nat) (s : String) : String := s ++ spaces (width - s.length)

end ClassSynth
