import ClassScript.Number.Shortest

/-!
# The text of numbers

`display` is what programs see: an integer below `10 ^ 15` is written as such, and
any other number with its shortest decimal, always positionally. `debug` is what
reports about values show: it marks integral numbers by `.0` and writes very large
and very small numbers with an exponent. `ofNumeral` reads a numeral of program
text.
-/

namespace ClassScript.Number

/-- How the digits of a decimal are set out. -/
structure Layout where
  /-- Whether a number with this exponent of its leading digit has no exponent
  part. -/
  positional : Int → Bool
  /-- Whether an integral number without exponent part ends in `.0`. -/
  pointZero : Bool

/-- Always positional, integral numbers without a point. -/
def Layout.plain : Layout where
  positional := fun _ => true
  pointZero := false

/-- Positional from `10 ^ -4` and below `10 ^ 16`, integral numbers with `.0`. -/
def Layout.marked : Layout where
  positional := fun leading => -4 ≤ leading && leading < 16
  pointZero := true

def zeros (n : Nat) : String :=
  String.ofList (List.replicate n '0')

/-- Digits with a point set after the first `point` of them, which may lie outside
the digits on either side. -/
def setPoint (layout : Layout) (digits : List Char) (point : Int) : String :=
  if point ≤ 0 then
    "0." ++ zeros (-point).toNat ++ String.ofList digits
  else if digits.length ≤ point.toNat then
    String.ofList digits ++ zeros (point.toNat - digits.length) ++
      (if layout.pointZero then ".0" else "")
  else
    String.ofList (digits.take point.toNat) ++ "." ++
      String.ofList (digits.drop point.toNat)

/-- Digits with a point after the first of them and an exponent. -/
def setExponent (digits : List Char) (leading : Int) : String :=
  match digits with
  | [] => ""
  | first :: [] => String.ofList [first] ++ "e" ++ toString leading
  | first :: rest =>
    String.ofList [first] ++ "." ++ String.ofList rest ++ "e" ++ toString leading

/-- The text of a decimal in the given layout. -/
def Decimal.write (layout : Layout) (d : Decimal) : String :=
  let digits := Nat.toDigits 10 d.digits
  let leading := digits.length + d.exponent - 1
  if layout.positional leading then setPoint layout digits (leading + 1)
  else setExponent digits leading

/-- The text of a number: a sign, then the magnitude. What is not a number has no
sign, and zero keeps its own. -/
def write (layout : Layout) (n : Float) : String :=
  let sign := if isNegative n then "-" else ""
  if magnitude n > infinity then "NaN"
  else if magnitude n = infinity then sign ++ "inf"
  else if magnitude n = 0 then sign ++ (if layout.pointZero then "0.0" else "0")
  else sign ++ (Decimal.shortest (magnitude n)).write layout

/-- The integer below `10 ^ 15` that a magnitude denotes, if it denotes one. -/
def smallInteger? (magnitude : Nat) : Option Nat :=
  let value := units magnitude
  if value % unitsPerOne = 0 && value / unitsPerOne < Nat.pow 10 15 then
    some (value / unitsPerOne)
  else none

/-- The text of a number as programs see it. Negative zero is no integer here: it
keeps its sign. -/
def display (n : Float) : String :=
  match smallInteger? (magnitude n) with
  | some 0 => write .plain n
  | some integer => (if isNegative n then "-" else "") ++ toString integer
  | none => write .plain n

/-- The text of a number in reports about values. -/
def debug (n : Float) : String :=
  write .marked n

/-- The value of a digit. -/
def digitValue (c : Char) : Nat := c.toNat - '0'.toNat

/-- The value of a string of digits after those already read. -/
def digitsValue (start : Nat) (digits : List Char) : Nat :=
  digits.foldl (fun value c => 10 * value + digitValue c) start

/-- The number that a numeral denotes: digits, and a point with further digits if
there is one. -/
def ofNumeral (numeral : List Char) : Float :=
  let whole := numeral.takeWhile (· ≠ '.')
  let fraction := (numeral.dropWhile (· ≠ '.')).drop 1
  ofMagnitude (nearest (digitsValue (digitsValue 0 whole) fraction) (Nat.pow 10 fraction.length))

end ClassScript.Number
