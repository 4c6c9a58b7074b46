import ChartParser.Proofs.Deduction.Basic
/-!
# Right recursion

The smallest right-recursive grammar, `A -> t A | t`, for any lexer rule `t` and any
non-terminal `A`. Its sentences are the non-empty lists of tokens of the rule's type. Where
every location offers such a token, `A` is awaited at every location, and each stretch of
input is an `A`. A stretch of one token is one by the short production, and a longer one
by the long production (`RightRecursion.deducible_iff`).
-/
namespace ChartParser

/-- The productions are `A -> t A` and `A -> t`. -/
structure Grammar.RightRecursive (g : Grammar) (t : LexerRule) (A : NonTerminal) : Prop where
  start_eq : g.start = A
  productions_eq : g.productions = [⟨A, [.terminal t, .nonTerminal A]⟩, ⟨A, [.terminal t]⟩]

theorem Grammar.exists_rightRecursive (t : LexerRule) (A : NonTerminal) : ∃ g,
    Grammar.ofProductions A [⟨A, [.terminal t, .nonTerminal A]⟩, ⟨A, [.terminal t]⟩] = .ok g ∧ g.RightRecursive t A := by
  have hdefined : defines [⟨A, [.terminal t, .nonTerminal A]⟩, ⟨A, [.terminal t]⟩] A = true := by simp [defines]
  have hused : undefinedUse? [⟨A, [.terminal t, .nonTerminal A]⟩, ⟨A, [.terminal t]⟩] = none := by
    simp [undefinedUse?, hdefined]
  unfold Grammar.ofProductions
  rw [dif_pos hdefined]
  split
  · rename_i huse
    rw [hused] at huse
    cases huse
  · exact ⟨_, rfl, rfl, rfl⟩

namespace RightRecursion

variable {t : LexerRule} {A : NonTerminal}

variable (t A) in
/-- `A -> . t A` -/
def begun : DottedRule := ⟨0, A, [], [.terminal t, .nonTerminal A]⟩

variable (t A) in
/-- `A -> t . A` -/
def awaiting : DottedRule := ⟨0, A, [.terminal t], [.nonTerminal A]⟩

variable (t A) in
/-- `A -> t A .` -/
def passed : DottedRule := ⟨0, A, [.terminal t, .nonTerminal A], []⟩

variable (t A) in
/-- `A -> . t` -/
def ending : DottedRule := ⟨1, A, [], [.terminal t]⟩

variable (t A) in
/-- `A -> t .` -/
def ended : DottedRule := ⟨1, A, [.terminal t], []⟩

variable (t A) in
/-- The stretches of input that the dotted rules can have recognized. -/
inductive Spans : DottedRule → Nat → Nat → Prop
  | begun (j : Nat) : Spans (begun t A) j j
  | ending (j : Nat) : Spans (ending t A) j j
  | awaiting (i : Nat) : Spans (awaiting t A) i (i + 1)
  | ended (i : Nat) : Spans (ended t A) i (i + 1)
  | passed {i j : Nat} (h : i + 2 ≤ j) : Spans (passed t A) i j

variable {g : Grammar} {input : List (List Token)} {r r' : DottedRule} {i j k : Nat} {B : NonTerminal} {l : LexerRule}

theorem initialRules_eq (hg : g.RightRecursive t A) : g.initialRules A = [begun t A, ending t A] := by
  simp [Grammar.initialRules, hg.productions_eq, DottedRule.initial, begun, ending]

namespace Spans

theorem of_initial (hg : g.RightRecursive t A) (hr : r ∈ g.initialRules A) (j : Nat) : Spans t A r j j := by
  simp only [initialRules_eq hg, List.mem_cons, List.not_mem_nil, or_false] at hr
  rcases hr with rfl | rfl
  · exact .begun j
  · exact .ending j

/-- Only `A -> t . A` waits for a non-terminal. -/
theorem eq_awaiting (h : Spans t A r i j) (hB : r.postDot? = some (.nonTerminal B)) :
    r = RightRecursion.awaiting t A ∧ B = A ∧ j = i + 1 := by
  cases h with
  | awaiting => exact ⟨rfl, by cases hB; rfl, rfl⟩
  | begun | ending | ended | passed => cases hB

theorem advance (h : Spans t A r i j) (hl : r.postDot? = some (.terminal l)) (hr : r.advance? = some r') :
    Spans t A r' i (j + 1) := by
  cases h with
  | begun => cases hr; exact .awaiting i
  | ending => cases hr; exact .ended i
  | awaiting | ended | passed => cases hl

theorem add_one_le (h : Spans t A r i j) (hc : r.isComplete = true) : i + 1 ≤ j := by
  cases h with
  | ended => exact Nat.le_refl _
  | passed h => omega
  | begun | ending | awaiting => cases hc

/-- `A -> t A .` has recognized two tokens at least. -/
theorem add_two_le (h : Spans t A (RightRecursion.passed t A) i j) : i + 2 ≤ j := by
  cases h with
  | passed h => exact h

end Spans

theorem spans_of_deducible (hg : g.RightRecursive t A) (h : Deducible g input r i j) : Spans t A r i j := by
  induction h with
  | start hr => exact .of_initial hg (hg.start_eq ▸ hr) 0
  | @predict r r' i j B _ hB hr ih =>
    obtain ⟨-, rfl, -⟩ := ih.eq_awaiting hB
    exact .of_initial hg hr j
  | scan _ hl _ hr ih => exact ih.advance hl hr
  | @complete r r' d i k j _ hB _ hc hr ih ihd =>
    obtain ⟨rfl, -, rfl⟩ := ih.eq_awaiting hB
    cases hr
    exact .passed (ihd.add_one_le hc)

/-! ## Where every location offers a token of the rule's type -/

section Fed

variable (hg : g.RightRecursive t A) (hin : ∀ j < input.length, Offers input j t.tokenType)
include hg hin

/-- `A` is awaited at every location. -/
theorem deducible_begun (hj : j ≤ input.length) : Deducible g input (begun t A) j j := by
  induction j with
  | zero => exact .start (by simp [hg.start_eq, initialRules_eq hg])
  | succ j ih =>
    have hawaiting : Deducible g input (awaiting t A) j (j + 1) := .scan (ih (by omega)) rfl (hin j (by omega)) rfl
    exact .predict hawaiting rfl (by simp [initialRules_eq hg])

theorem deducible_awaiting (hj : j < input.length) : Deducible g input (awaiting t A) j (j + 1) :=
  .scan (deducible_begun hg hin (Nat.le_of_lt hj)) rfl (hin j hj) rfl

theorem deducible_ending (hj : j ≤ input.length) : Deducible g input (ending t A) j j := by
  cases j with
  | zero => exact .start (by simp [hg.start_eq, initialRules_eq hg])
  | succ j => exact .predict (deducible_awaiting hg hin hj) rfl (by simp [initialRules_eq hg])

theorem deducible_ended (hj : j < input.length) : Deducible g input (ended t A) j (j + 1) :=
  .scan (deducible_ending hg hin (Nat.le_of_lt hj)) rfl (hin j hj) rfl

/-- A longer stretch is one token and a stretch that is shorter by one. -/
theorem deducible_passed (h : i + 2 ≤ j) (hj : j ≤ input.length) : Deducible g input (passed t A) i j := by
  obtain ⟨n, rfl⟩ : ∃ n, j = i + 2 + n := ⟨j - (i + 2), by omega⟩
  induction n generalizing i with
  | zero => exact .complete (deducible_awaiting hg hin (by omega)) rfl (deducible_ended hg hin (by omega)) rfl rfl
  | succ n ih =>
    have hrest : Deducible g input (passed t A) (i + 1) (i + 1 + 2 + n) := ih (by omega) (by omega)
    rw [show i + 1 + 2 + n = i + 2 + (n + 1) by omega] at hrest
    exact .complete (deducible_awaiting hg hin (by omega)) rfl hrest rfl rfl

theorem deducible_iff : Deducible g input r i j ↔ Spans t A r i j ∧ j ≤ input.length := by
  constructor
  · exact fun h => ⟨spans_of_deducible hg h, h.location_le⟩
  · rintro ⟨h, hj⟩
    cases h with
    | begun => exact deducible_begun hg hin hj
    | ending => exact deducible_ending hg hin hj
    | awaiting => exact deducible_awaiting hg hin hj
    | ended => exact deducible_ended hg hin hj
    | passed h => exact deducible_passed hg hin h hj

/-- Some token has been taken, and so the input is a sentence. -/
theorem completes_iff : Completes g input ↔ input ≠ [] := by
  constructor
  · rintro ⟨r, hr, hc, -⟩ rfl
    have := (spans_of_deducible hg hr).add_one_le hc
    simp at this
  · intro hne
    have hlen : 0 < input.length := List.length_pos_iff.2 hne
    by_cases hone : input.length = 1
    · exact ⟨ended t A, (deducible_iff hg hin).2 ⟨hone ▸ .ended 0, Nat.le_refl _⟩, rfl, hg.start_eq.symm⟩
    · exact ⟨passed t A, deducible_passed hg hin (by omega) (Nat.le_refl _), rfl, hg.start_eq.symm⟩

/-- Another token is always expected. -/
theorem continues {token : Token} (htype : token.tokenType = t.tokenType) : Continues g input [token] :=
  ⟨token, by simp, begun t A, input.length, t, deducible_begun hg hin (Nat.le_refl _), rfl, htype.symm⟩

end Fed

end RightRecursion

end ChartParser
