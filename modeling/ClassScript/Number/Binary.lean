/-!
# Magnitudes of binary64 numbers

The 64 bits of a number are a sign and a 63-bit magnitude. A finite magnitude
denotes an exact multiple of `2 ^ -1074`, the least positive number, so all
arithmetic on the values here is arithmetic on naturals. `nearest` rounds a
fraction to the magnitude next to it, a tie to the even one: the rule by which
numerals in program text are read.
-/

namespace ClassScript.Number

/-- The number of stored bits of the significand, as a count of magnitudes per
binade. -/
def binade : Nat := Nat.pow 2 52

/-- The denominator of every finite value: one unit is `1 / unitsPerOne`. -/
def unitsPerOne : Nat := Nat.pow 2 1074

/-- The magnitude of infinity; every smaller one is finite, every larger one is
not a number. -/
def infinity : Nat := 0x7FF * binade

/-- The value of a magnitude, in units. The first two binades have the spacing of
one unit, and each further one doubles it. -/
def units (magnitude : Nat) : Nat :=
  match magnitude / binade with
  | 0 => magnitude
  | exponent + 1 => (binade + magnitude % binade) * Nat.pow 2 exponent

/-- A fraction rounded to an integer, a tie to the even neighbour. -/
def roundDiv (num den : Nat) : Nat :=
  let quotient := num / den
  match compare (2 * (num % den)) den with
  | .lt => quotient
  | .gt => quotient + 1
  | .eq => quotient + quotient % 2

/-- The magnitude nearest to `num / den`, a tie to the even one. From halfway
between the largest finite value and the next power of two upward it is
infinity.

The shift is chosen so that the rounded significand has 53 bits or the shift is
zero; a significand that rounds up to 54 bits carries into the exponent, which
is the right magnitude again. -/
def nearest (num den : Nat) : Nat :=
  let scaled := num * unitsPerOne
  let shift := (scaled / den).log2 - 52
  min (shift * binade + roundDiv scaled (den * Nat.pow 2 shift)) infinity

/-- The sign bit, set for negative numbers and for negative zero. -/
def isNegative (n : Float) : Bool :=
  n.toBits ≥ 0x8000000000000000

/-- The bits of a number without its sign. -/
def magnitude (n : Float) : Nat :=
  n.toBits.toNat % Nat.pow 2 63

/-- The number with a clear sign bit and the given magnitude. -/
def ofMagnitude (magnitude : Nat) : Float :=
  Float.ofBits (UInt64.ofNat magnitude)

theorem units_zero : units 0 = 0 := rfl

theorem binade_pos : 0 < binade := by decide

/-- A fraction that is an integer is not changed by rounding. -/
theorem roundDiv_mul (n den : Nat) (positive : 0 < den) :
    roundDiv (n * den) den = n := by
  simp only [roundDiv, Nat.mul_mod_left, Nat.mul_zero, Nat.mul_div_cancel n positive]
  rw [Nat.compare_eq_lt.mpr positive]

end ClassScript.Number
