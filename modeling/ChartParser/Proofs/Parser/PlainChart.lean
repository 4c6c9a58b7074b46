import ChartParser.Proofs.Parser.Tracking
/-!
# What the chart of a plain parser means

Without memoized paths the chart holds an item exactly when the input can be
read so that the item's left-hand side is awaited at its origin and the symbols
before its dot derive the rest.
-/
namespace ChartParser.Parser

variable {σ : Type}

/-- After a fresh plain parser has taken every list of tokens offered to it, its
chart and its answer to the next list are what the derivations of the grammar
make them. -/
theorem plain_chart_meaning (g : Grammar) (builder : ForestBuilder σ) (forest : σ) (input : List (List Token))
    (run : Parse σ) (hrun : (do
      Recognizer.performAll (⟨g, false, builder⟩ : Parser σ) (← Parser.start ⟨g, false, builder⟩ forest)
        (input.map .offer)) = .ok (input.map fun _ => .taken true, run)) :
    (∀ j ≤ input.length, ∀ r i, run.chart.Holds j r i ↔ g.HasRule r ∧ i ≤ j ∧
      ∃ w, Matches w (input.take j) ∧
        (∃ rest, Derives g.productions [.nonTerminal g.start]
          ((w.take i).map .token ++ .nonTerminal r.lhs :: rest)) ∧
        Derives g.productions (r.before.map Symbol.letter) ((w.drop i).map .token)) ∧
    ∀ tokens, Succeeds (Parser.offer ⟨g, false, builder⟩ run tokens) fun x =>
      (x.1 = true ↔ ∃ t ∈ tokens, ∃ w, Matches w input ∧
        ∃ rest, Derives g.productions [.nonTerminal g.start] (w.map .token ++ .token t.tokenType :: rest)) := by
  obtain ⟨run₀, hstart, htracks⟩ := start_spec ⟨g, false, builder⟩ forest
  rw [hstart] at hrun
  have h : Tracks ⟨g, false, builder⟩ input run := (follows _).tracks_of_taken htracks hrun
  constructor
  · intro j hj r i
    rw [h.holds_iff_of_plain rfl, deducible_iff_fits, fits_iff hj]
    rfl
  · intro tokens
    have hexpects : Continues g input tokens ↔ ∃ t ∈ tokens, ∃ w, Matches w input ∧
        ∃ rest, Derives g.productions [.nonTerminal g.start] (w.map .token ++ .token t.tokenType :: rest) := by
      simp only [Continues, expects_iff, reads_iff (Nat.le_refl _), Nat.zero_le, true_and, List.take_length,
        List.drop_zero]
    exact ((follows ⟨g, false, builder⟩).taken_iff h tokens).mono fun x hx => hx.trans hexpects

/-- A grammar with right recursion and an empty production: any number of `x`. -/
def manyXs : Grammar where
  start := ⟨"S"⟩
  productions := [⟨⟨"S"⟩, [.terminal (.char 'x'), .nonTerminal ⟨"S"⟩]⟩, ⟨⟨"S"⟩, []⟩]
  ignored := []
  nullable := [⟨"S"⟩]
  lexerRules := [.char 'x']
  start_defined := by decide
  rhs_defined := fun _ hp _ hA => defines_of_undefinedUse?_eq_none (by decide) hp hA
  nullable_eq := by decide +kernel
  lexerRules_eq := by decide +kernel

theorem plain_chart_meaning_manyXs : ∃ run : Parse Unit, (do
      Recognizer.performAll (⟨manyXs, false, .none⟩ : Parser Unit) (← Parser.start ⟨manyXs, false, .none⟩ ())
        [.offer [Token.ofChar 'x' 0]]) = .ok ([.taken true], run) ∧
    ∀ r i, run.chart.Holds 1 r i ↔ manyXs.HasRule r ∧ i ≤ 1 ∧
      ∃ w, Matches w [[Token.ofChar 'x' 0]] ∧
        (∃ rest, Derives manyXs.productions [.nonTerminal manyXs.start]
          ((w.take i).map .token ++ .nonTerminal r.lhs :: rest)) ∧
        Derives manyXs.productions (r.before.map Symbol.letter) ((w.drop i).map .token) :=
  ⟨_, rfl, (plain_chart_meaning manyXs .none () [[Token.ofChar 'x' 0]] _ rfl).1 1 (by decide)⟩

end ChartParser.Parser
