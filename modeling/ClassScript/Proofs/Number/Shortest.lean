import ClassScript.Number.Shortest
import ClassScript.Proofs.Number.Bits

/-!
# Decimals that read back

Rounding depends on the value of a fraction only (`nearest_mul`), and does not change the
value of a finite magnitude (`nearest_units`). So the exact decimal of a magnitude reads back,
every decimal on a grid is tried before it is taken, and trailing zeros count for nothing:
the shortest decimal of a magnitude reads back as the magnitude (`nearest_shortest`).
-/

namespace ClassScript.Number

theorem binade_eq : binade = 2 ^ 52 := rfl

theorem unitsPerOne_pos : 0 < unitsPerOne := by
  unfold unitsPerOne
  generalize 1074 = exponent
  exact Nat.two_pow_pos exponent

/-! ## Rounding -/

theorem compare_mul_mul (a b : Nat) {factor : Nat} (positive : 0 < factor) :
    compare (a * factor) (b * factor) = compare a b := by
  simp only [Nat.compare_eq_ite_lt, Nat.mul_lt_mul_right positive]

theorem roundDiv_mul_mul (num den : Nat) {factor : Nat} (positive : 0 < factor) :
    roundDiv (num * factor) (den * factor) = roundDiv num den := by
  unfold roundDiv
  rw [Nat.mul_div_mul_right _ _ positive, Nat.mul_mod_mul_right, ← Nat.mul_assoc,
    compare_mul_mul _ _ positive]

/-- Only the value of a fraction counts. -/
theorem nearest_mul (num den : Nat) {factor : Nat} (positive : 0 < factor) :
    nearest (num * factor) (den * factor) = nearest num den := by
  unfold nearest
  have scaled : num * factor * unitsPerOne = num * unitsPerOne * factor := Nat.mul_right_comm ..
  simp only [scaled, Nat.mul_div_mul_right _ _ positive]
  rw [Nat.mul_right_comm den factor, roundDiv_mul_mul _ _ positive]

/-- The units of a magnitude are its significand, shifted to its binade. -/
theorem units_eq (m : Nat) : ∃ significand shift, units m = significand * 2 ^ shift ∧
    (units m).log2 - 52 = shift ∧ shift * binade + significand = m := by
  have whole := Nat.div_add_mod m binade
  have inside : m % binade < binade := Nat.mod_lt m binade_pos
  unfold units
  cases exponent : m / binade with
  -- below the first binade the spacing is one
  | zero =>
    rw [exponent, Nat.mul_zero, Nat.zero_add] at whole
    rw [whole, binade_eq] at inside
    have small : m.log2 - 52 = 0 := by
      rcases Nat.eq_zero_or_pos m with rfl | some
      · decide
      · have := (Nat.log2_lt (Nat.ne_of_gt some)).mpr inside
        omega
    exact ⟨m, 0, (Nat.mul_one m).symm, small, by rw [Nat.zero_mul, Nat.zero_add]⟩
  | succ shift =>
    rw [exponent] at whole
    refine ⟨binade + m % binade, shift, rfl, ?_, ?_⟩
    -- above it the leading bit stands at 52 plus the shift
    · have lead : (binade + m % binade) * 2 ^ shift < 2 ^ (52 + shift + 1) := by
        rw [binade_eq] at inside ⊢
        calc (2 ^ 52 + m % 2 ^ 52) * 2 ^ shift < 2 ^ 53 * 2 ^ shift :=
              Nat.mul_lt_mul_of_pos_right (by omega) (Nat.two_pow_pos shift)
          _ = 2 ^ (52 + shift + 1) := by rw [← Nat.pow_add]; congr 1; omega
      have least : 2 ^ (52 + shift) ≤ (binade + m % binade) * 2 ^ shift := by
        rw [Nat.pow_add, ← binade_eq]
        exact Nat.mul_le_mul_right _ (Nat.le_add_right _ _)
      have log := log2_eq least lead
      dsimp only
      rw [Nat.pow_eq, log, Nat.add_sub_cancel_left]
    · rw [Nat.mul_add_one, Nat.mul_comm] at whole
      omega

/-- The value of a finite magnitude is rounded to the magnitude itself. -/
theorem nearest_units {m : Nat} (finite : m < infinity) : nearest (units m) unitsPerOne = m := by
  obtain ⟨significand, shift, same, log, whole⟩ := units_eq m
  have positive : 0 < unitsPerOne * Nat.pow 2 shift :=
    Nat.mul_pos unitsPerOne_pos (Nat.two_pow_pos shift)
  have scaled : units m * unitsPerOne = significand * (unitsPerOne * Nat.pow 2 shift) := by
    rw [same, Nat.pow_eq, Nat.mul_assoc, Nat.mul_comm (2 ^ shift)]
  unfold nearest
  simp only [Nat.mul_div_cancel _ unitsPerOne_pos, log]
  rw [scaled, roundDiv_mul _ _ positive, whole, Nat.min_eq_left (Nat.le_of_lt finite)]

namespace Decimal

/-! ## Decimals -/

/-- A zero that is moved into the exponent does not change the value. -/
theorem nearest_strip {d : Decimal} (zero : d.digits % 10 = 0) :
    nearest ⟨d.digits / 10, d.exponent + 1⟩ = d.nearest := by
  obtain ⟨digits, exponent⟩ := d
  have whole : digits / 10 * 10 = digits := Nat.div_mul_cancel (Nat.dvd_of_mod_eq_zero zero)
  unfold nearest num den
  dsimp only
  -- a power of ten moves between the digits and the numerator, or cancels against the denominator
  by_cases integral : 0 ≤ exponent
  · obtain ⟨power, rfl⟩ := Int.eq_ofNat_of_zero_le integral
    have up : ((power : Int) + 1).toNat = power + 1 := by omega
    have down : (-((power : Int) + 1)).toNat = (-(power : Int)).toNat := by omega
    have shifted : digits / 10 * Nat.pow 10 (power + 1) = digits * Nat.pow 10 power := by
      rw [Nat.pow_eq, Nat.pow_eq, Nat.pow_succ, Nat.mul_comm (10 ^ power), ← Nat.mul_assoc, whole]
    rw [up, down, Int.toNat_natCast, shifted]
  · have up : (exponent + 1).toNat = exponent.toNat := by omega
    have up' : exponent.toNat = 0 := by omega
    have down : (-exponent).toNat = (-(exponent + 1)).toNat + 1 := by omega
    have shifted := nearest_mul (digits / 10) (Nat.pow 10 (-(exponent + 1)).toNat)
      (show 0 < 10 by decide)
    rw [whole] at shifted
    rw [up, up', down, Nat.pow_eq, Nat.pow_zero, Nat.mul_one, Nat.mul_one]
    exact shifted.symm

/-- Moving trailing zeros into the exponent does not change the magnitude denoted. -/
theorem nearest_stripZeros (fuel : Nat) (d : Decimal) :
    (stripZeros fuel d).nearest = d.nearest := by
  induction fuel generalizing d with
  | zero => rfl
  | succ fuel ih =>
    rw [stripZeros]
    split
    · next zero =>
      simp only [Bool.and_eq_true, decide_eq_true_eq] at zero
      rw [ih, nearest_strip zero.1]
    · rfl

/-- A fraction of halves as one of tenths. -/
theorem nearest_halves (value exponent : Nat) :
    nearest ⟨value * Nat.pow 5 exponent, -(exponent : Int)⟩ =
      Number.nearest value (Nat.pow 2 exponent) := by
  have up : (-(exponent : Int)).toNat = 0 := by omega
  have down : (- -(exponent : Int)).toNat = exponent := by omega
  have tens : Nat.pow 10 exponent = Nat.pow 2 exponent * Nat.pow 5 exponent :=
    Nat.mul_pow 2 5 exponent
  unfold nearest num den
  dsimp only
  rw [up, down, tens, show Nat.pow 10 0 = 1 from rfl, Nat.mul_one]
  exact nearest_mul _ _ (Nat.pow_pos (by decide))

/-- The exact value of a finite magnitude denotes that magnitude. -/
theorem nearest_exact {m : Nat} (finite : m < infinity) : (exact m).nearest = m := by
  have same := nearest_units finite
  unfold exact
  unfold unitsPerOne at same
  generalize exponent : 1074 = k at same ⊢
  rw [show (-1074 : Int) = -(k : Int) by rw [← exponent]; rfl, nearest_halves, same]

/-- What is taken from a grid reads back. -/
theorem nearest_onGrid? {m : Nat} {exponent : Int} {d : Decimal}
    (found : onGrid? m exponent = some d) : d.nearest = m := by
  unfold onGrid? at found
  dsimp only at found
  split at found
  · next both =>
    obtain ⟨below, above⟩ := Bool.and_eq_true_iff.mp both
    split at found <;> cases found
    · exact beq_iff_eq.mp below
    · exact beq_iff_eq.mp above
  · split at found
    · next below =>
      cases found
      exact beq_iff_eq.mp below
    · split at found
      · next above =>
        cases found
        exact beq_iff_eq.mp above
      · cases found

/-- The shortest decimal of a finite magnitude reads back as the magnitude. -/
theorem nearest_shortest {m : Nat} (finite : m < infinity) : (shortest m).nearest = m := by
  unfold shortest
  rw [nearest_stripZeros]
  cases search : (List.range 20).findSome? fun finer : Nat =>
      onGrid? m (coarsest m - (finer : Int)) with
  | none => exact nearest_exact finite
  | some d =>
    obtain ⟨finer, -, found⟩ := List.exists_of_findSome?_eq_some search
    exact nearest_onGrid? found

end Decimal

end ClassScript.Number
