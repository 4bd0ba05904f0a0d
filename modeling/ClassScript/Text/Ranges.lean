/-!
# Code point ranges

A property of characters is given by closed ranges of code points, in ascending
order and with a gap between any two. Membership looks no further than the first
range that ends at or behind the code point, and in ascending ranges this finds
every range that there is (`Ranges.has_iff`).
-/

namespace ClassScript.Text

/-- Closed ranges of code points. -/
abbrev Ranges := List (Nat × Nat)

namespace Ranges

/-- Whether a code point lies in one of some ranges in ascending order. -/
def has (code : Nat) : Ranges → Bool
  | [] => false
  | (first, last) :: rest =>
    if code ≤ last then first ≤ code else has code rest

/-- Whether no range is empty, and each starts behind the one in front of it with a
gap between them. `start` is the least code point at which the next may start. -/
def ascendFrom (start : Nat) : Ranges → Bool
  | [] => true
  | (first, last) :: rest =>
    start ≤ first && first ≤ last && ascendFrom (last + 2) rest

/-- A code point lies in one of the ranges. -/
def Contains (ranges : Ranges) (code : Nat) : Prop :=
  ∃ range ∈ ranges, range.1 ≤ code ∧ code ≤ range.2

theorem start_le_of_mem {start : Nat} {ranges : Ranges} (ascending : ascendFrom start ranges)
    {range : Nat × Nat} (mem : range ∈ ranges) : start ≤ range.1 := by
  induction ranges generalizing start with
  | nil => cases mem
  | cons head rest ih =>
    simp only [ascendFrom, Bool.and_eq_true, decide_eq_true_eq] at ascending
    rcases List.mem_cons.1 mem with rfl | later
    · exact ascending.1.1
    · have := ih ascending.2 later
      omega

/-- In ascending ranges the search finds every range that there is: those behind the first
one that ends at or behind the code point begin behind it. -/
theorem has_iff {start : Nat} {ranges : Ranges} (ascending : ascendFrom start ranges)
    (code : Nat) : ranges.has code = true ↔ ranges.Contains code := by
  unfold Contains
  induction ranges generalizing start with
  | nil => simp [has]
  | cons head rest ih =>
    have tail := ascending
    simp only [ascendFrom, Bool.and_eq_true, decide_eq_true_eq] at tail
    by_cases reached : code ≤ head.2
    · constructor
      · intro h
        exact ⟨head, List.mem_cons_self, by simpa [has, reached] using h, reached⟩
      · rintro ⟨range, mem, low, _⟩
        rcases List.mem_cons.1 mem with rfl | later
        · simp [has, reached, low]
        · have := start_le_of_mem tail.2 later
          omega
    · simp [has, reached, ih tail.2]

end Ranges

end ClassScript.Text
