/-!
# Shortest decimal text of a binary floating-point number

A floating-point number is read from its bits as a multiple of a power of two, with the interval of
reals that round to it. Its text has the fewest digits of any decimal in that interval, and of
those decimals it is the nearest. The search runs in exact natural arithmetic: on each decimal grid
only the two neighbours of the value matter, since if a point of the grid lies in the interval, so
does one of them.
-/

namespace ClassSynth.Decimal

/-- Widths of a binary interchange format. -/
structure BinaryFormat where
  fractionBits : Nat
  exponentBits : Nat

/-- Single precision. -/
def single : BinaryFormat := ⟨23, 8⟩

/-- Double precision. -/
def double : BinaryFormat := ⟨52, 11⟩

/-- What a bit pattern stands for. A finite number is `mantissa · 2 ^ exponent`; at a power of two
the number below is only half as far away as the number above, and `narrowBelow` holds. -/
inductive BinaryValue
  | nan
  | infinite
  | finite (mantissa : Nat) (exponent : Int) (narrowBelow : Bool)
  deriving DecidableEq, Repr

namespace BinaryFormat

/-- Is the sign bit set? -/
def isNegative (f : BinaryFormat) (bits : Nat) : Bool :=
  bits.testBit (f.fractionBits + f.exponentBits)

/-- The magnitude of a bit pattern. -/
def magnitude (f : BinaryFormat) (bits : Nat) : BinaryValue :=
  let fraction := bits % (1 <<< f.fractionBits)
  let exponent := (bits >>> f.fractionBits) % (1 <<< f.exponentBits)
  let least : Int := 2 - (1 <<< (f.exponentBits - 1) : Nat) - f.fractionBits
  if exponent = (1 <<< f.exponentBits) - 1 then
    if fraction = 0 then .infinite else .nan
  else if exponent = 0 then .finite fraction least false
  else
    .finite ((1 <<< f.fractionBits) + fraction) (least + exponent - 1)
      (fraction = 0 && exponent > 1)

end BinaryFormat

/-- A positive value `value / unit`, inside the interval from `low / unit` to `high / unit`, whose
ends belong to it when `closed`. -/
structure Target where
  value : Nat
  low : Nat
  high : Nat
  unit : Nat
  closed : Bool

/-- The value and its rounding interval, in quarters of the unit in the last place. -/
def Target.ofFinite (mantissa : Nat) (exponent : Int) (narrowBelow : Bool) : Target :=
  let e := exponent - 2
  let scale := 1 <<< e.toNat
  { value := 4 * mantissa * scale
    low := (4 * mantissa - if narrowBelow then 1 else 2) * scale
    high := (4 * mantissa + 2) * scale
    unit := 1 <<< (-e).toNat
    closed := mantissa % 2 == 0 }

/-- A power of ten. -/
def tenTo (n : Nat) : Nat := Nat.pow 10 n

/-- Does `n · 10 ^ e` lie in the interval? -/
def Target.holds (t : Target) (n : Nat) (e : Int) : Bool :=
  let left := n * tenTo e.toNat * t.unit
  let scale := tenTo (-e).toNat
  if t.closed then t.low * scale ≤ left && left ≤ t.high * scale
  else t.low * scale < left && left < t.high * scale

/-- The neighbour of the value on the grid of step `10 ^ e` that lies in the interval, the nearer of
two, the upper one in a tie. -/
def Target.neighbour? (t : Target) (e : Int) : Option Nat :=
  let top := t.value * tenTo (-e).toNat
  let step := t.unit * tenTo e.toNat
  let below := top / step
  let above := below + 1
  match t.holds below e, t.holds above e with
  | true, true => if 2 * (top % step) < step then some below else some above
  | true, false => some below
  | false, true => some above
  | false, false => none

/-- The least `k` with value below `10 ^ k`, for a value below one: minus the leading zeros. -/
def Target.smallMagnitude (t : Target) : Nat → Nat → Int
  | 0, zeros => -zeros
  | fuel + 1, zeros =>
    if t.value * tenTo (zeros + 1) < t.unit then t.smallMagnitude fuel (zeros + 1) else -zeros

/-- The least `k` with the value below `10 ^ k`. -/
def Target.decimalMagnitude (t : Target) : Int :=
  if t.value < t.unit then t.smallMagnitude 400 0
  else (Nat.toDigits 10 (t.value / t.unit)).length

/-- Tries `count` more grids from `10 ^ e` downwards. -/
def Target.shortestFrom (t : Target) : Nat → Int → Nat × Int
  | 0, e => (t.value * tenTo (-e).toNat / (t.unit * tenTo e.toNat), e)
  | count + 1, e =>
    match t.neighbour? e with
    | some n => (n, e)
    | none => t.shortestFrom count (e - 1)

/-- Digits and power of ten of the shortest decimal; seventeen digits always suffice. -/
def Target.shortest (t : Target) : Nat × Int :=
  t.shortestFrom 17 (t.decimalMagnitude - 1)

/-- `n · 10 ^ e` in positional notation. -/
def positional (n : Nat) (e : Int) : String :=
  let digits := Nat.toDigits 10 n
  if 0 ≤ e then String.ofList (digits ++ List.replicate e.toNat '0')
  else
    let places := (-e).toNat
    let filled := List.replicate (places + 1 - digits.length) '0' ++ digits
    let whole := filled.take (filled.length - places)
    let part := (filled.drop (filled.length - places)).reverse.dropWhile (· == '0') |>.reverse
    String.ofList (if part.isEmpty then whole else whole ++ '.' :: part)

/-- The text of a bit pattern: positional always, no point for whole numbers, the sign also on
zero. -/
def shortestText (f : BinaryFormat) (bits : Nat) : String :=
  let sign := if f.isNegative bits then "-" else ""
  match f.magnitude bits with
  | .nan => "NaN"
  | .infinite => sign ++ "inf"
  | .finite 0 _ _ => sign ++ "0"
  | .finite m e narrow =>
    let (n, k) := (Target.ofFinite m e narrow).shortest
    sign ++ positional n k

end ClassSynth.Decimal
