import ClassScript.Number.Binary

/-!
# Shortest decimals

A number is written with the fewest significant digits that read back as the same
number, and of the decimals of that length with the one nearest to its value. The
search walks through the decimal grids from coarse to fine; on each grid only the
two neighbours of the value can be nearest, so only these two are tried.
-/

namespace ClassScript.Number

/-- The decimal `digits * 10 ^ exponent`. -/
structure Decimal where
  digits : Nat
  exponent : Int
deriving Repr, DecidableEq

namespace Decimal

/-- The numerator of a decimal as a fraction of naturals. -/
def num (d : Decimal) : Nat := d.digits * Nat.pow 10 d.exponent.toNat

/-- The denominator of a decimal as a fraction of naturals. -/
def den (d : Decimal) : Nat := Nat.pow 10 (-d.exponent).toNat

/-- The magnitude that a reader of the decimal arrives at. -/
def nearest (d : Decimal) : Nat := Number.nearest d.num d.den

/-- Trailing zeros of the digits moved into the exponent. The fuel bounds the
number of zeros. -/
def stripZeros : Nat → Decimal → Decimal
  | 0, d => d
  | fuel + 1, d =>
    if d.digits % 10 = 0 && d.digits ≠ 0 then
      stripZeros fuel ⟨d.digits / 10, d.exponent + 1⟩
    else d

/-- The exact value of a magnitude, as `2 ^ -1074 = 5 ^ 1074 * 10 ^ -1074`. -/
def exact (magnitude : Nat) : Decimal :=
  ⟨units magnitude * Nat.pow 5 1074, -1074⟩

/-- The better of the two neighbours of a value on the grid `10 ^ exponent`, of
those that read back as the value. If both do, the nearer one is taken, and the
upper one if both are equally near. -/
def onGrid? (magnitude : Nat) (exponent : Int) : Option Decimal :=
  let num := units magnitude * Nat.pow 10 (-exponent).toNat
  let den := unitsPerOne * Nat.pow 10 exponent.toNat
  let below : Decimal := ⟨num / den, exponent⟩
  let above : Decimal := ⟨num / den + 1, exponent⟩
  let lower := below.nearest == magnitude
  let upper := above.nearest == magnitude
  if lower && upper then
    some (if 2 * (num % den) < den then below else above)
  else if lower then some below
  else if upper then some above
  else none

/-- The exponent of the coarsest grid tried: not below the exponent of the leading
digit, since `0.30103` bounds the decimal logarithm of two from above. -/
def coarsest (magnitude : Nat) : Int :=
  ((units magnitude).log2 - 1073 : Int) * 30103 / 100000 + 1

/-- The shortest decimal of a positive finite magnitude. Seventeen digits identify
every number, so the exact value is never needed; it is what remains to be said
where the search ends. -/
def shortest (magnitude : Nat) : Decimal :=
  let found := (List.range 20).findSome? fun finer : Nat =>
    onGrid? magnitude (coarsest magnitude - (finer : Int))
  stripZeros 400 (found.getD (exact magnitude))

end Decimal

end ClassScript.Number
