/-!
# Ranges of code points

A property of characters is stored as the increasing list of its maximal
ranges of code points.
-/
namespace ChartParser.Text

/-- Whether `n` lies in one of the ranges. They are in increasing order, so
the search ends at the first range that starts beyond `n`. -/
def inRanges : List (Nat × Nat) → Nat → Bool
  | [], _ => false
  | (lo, hi) :: rest, n => lo ≤ n && (n ≤ hi || inRanges rest n)

/-- The ranges are nonempty, in increasing order, and start at `n` or above. -/
def ascendingFrom : Nat → List (Nat × Nat) → Bool
  | _, [] => true
  | n, (lo, hi) :: rest => n ≤ lo && lo ≤ hi && ascendingFrom (hi + 1) rest

theorem le_of_ascendingFrom {n : Nat} {ranges : List (Nat × Nat)} (h : ascendingFrom n ranges = true) :
    ∀ r ∈ ranges, n ≤ r.1 := by
  induction ranges generalizing n with
  | nil => simp
  | cons r rest ih =>
    obtain ⟨lo, hi⟩ := r
    simp only [ascendingFrom, Bool.and_eq_true, decide_eq_true_eq] at h
    intro r hr
    rcases List.mem_cons.1 hr with rfl | hr
    · exact h.1.1
    · have := ih h.2 r hr
      omega

/-- In an increasing list the early stop loses nothing. -/
theorem inRanges_iff {n : Nat} {ranges : List (Nat × Nat)} (h : ascendingFrom n ranges = true) (c : Nat) :
    inRanges ranges c = true ↔ ∃ r ∈ ranges, r.1 ≤ c ∧ c ≤ r.2 := by
  induction ranges generalizing n with
  | nil => simp [inRanges]
  | cons r rest ih =>
    obtain ⟨lo, hi⟩ := r
    simp only [ascendingFrom, Bool.and_eq_true, decide_eq_true_eq] at h
    simp only [inRanges, Bool.and_eq_true, Bool.or_eq_true, decide_eq_true_eq, ih h.2,
      List.mem_cons, exists_eq_or_imp]
    constructor
    · rintro ⟨hlo, hhi | hr⟩
      · exact .inl ⟨hlo, hhi⟩
      · exact .inr hr
    · rintro (⟨hlo, hhi⟩ | ⟨r, hr, h1, h2⟩)
      · exact ⟨hlo, .inl hhi⟩
      · have := le_of_ascendingFrom h.2 r hr
        exact ⟨by omega, .inr ⟨r, hr, h1, h2⟩⟩

end ChartParser.Text
