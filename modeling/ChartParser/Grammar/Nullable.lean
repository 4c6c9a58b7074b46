import ChartParser.Grammar.Production
/-!
# Nullable non-terminals

A non-terminal is nullable when one of its productions has only nullable
non-terminals on its right-hand side, which holds of an empty one. The
nullable non-terminals are found by adding them one at a time until no
production gives another.
-/
namespace ChartParser

/-- A symbol that is known to derive the empty word. -/
def Symbol.nullableAmong (known : List NonTerminal) : Symbol → Bool
  | .terminal _ => false
  | .nonTerminal A => A ∈ known

/-- The production shows that its left-hand side is nullable, and this was not
known before. -/
def Production.addsNullable (known : List NonTerminal) (p : Production) : Bool :=
  p.lhs ∉ known && p.rhs.all (·.nullableAmong known)

/-- The productions whose left-hand side is not in `known`. -/
def unknownIn (productions : List Production) (known : List NonTerminal) : List Production :=
  productions.filter (·.lhs ∉ known)

/-- Knowing the left-hand side of one more production leaves fewer unknown. -/
theorem unknownIn_cons_lt {productions : List Production} {known : List NonTerminal} {p : Production}
    (hp : p ∈ productions) (hk : p.lhs ∉ known) :
    (unknownIn productions (p.lhs :: known)).length < (unknownIn productions known).length := by
  have h : unknownIn productions (p.lhs :: known) =
      (unknownIn productions known).filter (·.lhs ≠ p.lhs) := by
    simp only [unknownIn, List.filter_filter, List.mem_cons, not_or]
    congr 1
    funext q
    simp [Bool.decide_and]
  rw [h]
  have hm : p ∈ unknownIn productions known := by simp [unknownIn, hp, hk]
  exact List.length_filter_lt_length_iff_exists.2 ⟨p, hm, by simp⟩

theorem mem_of_find?_addsNullable {productions : List Production} {known : List NonTerminal} {p : Production}
    (h : productions.find? (·.addsNullable known) = some p) :
    p ∈ productions ∧ p.lhs ∉ known ∧ ∀ s ∈ p.rhs, s.nullableAmong known = true := by
  have h' := List.find?_some h
  simp only [Production.addsNullable, Bool.and_eq_true, decide_eq_true_eq, List.all_eq_true] at h'
  exact ⟨List.mem_of_find?_eq_some h, h'⟩

/-- `known` and all that follows from it by the productions. -/
def nullableFrom (productions : List Production) (known : List NonTerminal) : List NonTerminal :=
  match _h : productions.find? (·.addsNullable known) with
  | none => known
  | some p => nullableFrom productions (p.lhs :: known)
termination_by (unknownIn productions known).length
decreasing_by exact unknownIn_cons_lt (mem_of_find?_addsNullable _h).1 (mem_of_find?_addsNullable _h).2.1

/-- The nullable non-terminals of a list of productions, each once. -/
def nullables (productions : List Production) : List NonTerminal := nullableFrom productions []

/-- No production adds anything to the nullable non-terminals. -/
theorem nullableFrom_closed (productions : List Production) (known : List NonTerminal) :
    ∀ p ∈ productions, (∀ s ∈ p.rhs, s.nullableAmong (nullableFrom productions known) = true) →
      p.lhs ∈ nullableFrom productions known := by
  fun_induction nullableFrom productions known with
  | case1 known h =>
    intro p hp hall
    have := List.find?_eq_none.1 h p hp
    simp only [Production.addsNullable, Bool.and_eq_true, decide_eq_true_eq, List.all_eq_true,
      not_and] at this
    by_cases hk : p.lhs ∈ known
    · exact hk
    · exact absurd hall (this hk)
  | case2 known p h ih => exact ih

/-- A property that passes from right-hand sides to left-hand sides holds of
all nullable non-terminals. -/
theorem nullableFrom_induction {productions : List Production} {known : List NonTerminal}
    (P : NonTerminal → Prop) (hk : ∀ A ∈ known, P A)
    (hp : ∀ p ∈ productions, (∀ s ∈ p.rhs, ∃ A, s = .nonTerminal A ∧ P A) → P p.lhs) :
    ∀ A ∈ nullableFrom productions known, P A := by
  fun_induction nullableFrom productions known with
  | case1 known h => exact hk
  | case2 known p h ih =>
    obtain ⟨hmem, -, hall⟩ := mem_of_find?_addsNullable h
    refine ih fun A hA => ?_
    rcases List.mem_cons.1 hA with rfl | hA
    · refine hp p hmem fun s hs => ?_
      have := hall s hs
      cases s with
      | terminal r => simp [Symbol.nullableAmong] at this
      | nonTerminal B => exact ⟨B, rfl, hk B (by simpa [Symbol.nullableAmong] using this)⟩
    · exact hk A hA

end ChartParser
