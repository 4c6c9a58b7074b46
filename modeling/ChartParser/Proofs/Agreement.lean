import ChartParser.Proofs.Frame.Tracking
import ChartParser.Proofs.Parser.Tracking
/-!
# The parsers agree

A grammar can be parsed with or without memoized paths, or with frames. All
three decide which words are sentences, and in every session they give the same
answers from charts that hold the same items, but for completions that a
memoized path passes over.
-/
namespace ChartParser

variable {σ τ : Type}

/-! ## Sentences -/

/-- However a recognizer of a grammar was used before, started again it tells
sentences of the grammar from other words. -/
theorem recognizeFresh_iff_sentence (g : Grammar) (calls : List Call) (tokens : List Token) :
    (∀ (leo : Bool) (builder : ForestBuilder σ) (forest : σ), Succeeds (do
      let p : Parser σ := ⟨g, leo, builder⟩
      let (_, run) ← Recognizer.performAll p (← p.start forest) calls
      Recognizer.recognizeFresh p run tokens)
        fun x => (x.1 = true ↔ g.Sentence (tokens.map (·.tokenType)))) ∧
    Succeeds (do
      let graph ← FrameGraph.ofGrammar g
      let (_, run) ← Recognizer.performAll graph (← graph.start) calls
      Recognizer.recognizeFresh graph run tokens)
        fun x => (x.1 = true ↔ g.Sentence (tokens.map (·.tokenType))) := by
  constructor
  · intro leo builder forest
    have hf := Parser.follows (⟨g, leo, builder⟩ : Parser σ)
    refine (Parser.start_spec ⟨g, leo, builder⟩ forest).bind fun run h => ?_
    exact (hf.performAll_spec h calls).bind fun x ⟨_, h'⟩ => hf.recognizeFresh_spec h' tokens
  · refine (FrameGraph.ofGrammar_spec g).bind fun graph ⟨hg, hv⟩ => ?_
    subst hg
    have hf := FrameGraph.follows hv
    refine (FrameGraph.start_spec hv).bind fun run h => ?_
    exact (hf.performAll_spec h calls).bind fun x ⟨_, h'⟩ => hf.recognizeFresh_spec h' tokens

/-! ## Memoized paths -/

/-- In every session, memoized paths make no difference to the answers and to what
the chart predicts and scans; they leave out completions only, and none that
acceptance asks for. -/
theorem leo_agrees_with_plain (g : Grammar) (builder : ForestBuilder σ) (builder' : ForestBuilder τ) (forest : σ)
    (forest' : τ) (calls : List Call) : ∃ answers run run',
      (do Recognizer.performAll (⟨g, true, builder⟩ : Parser σ) (← Parser.start ⟨g, true, builder⟩ forest) calls) =
        .ok (answers, run) ∧
      (do Recognizer.performAll (⟨g, false, builder'⟩ : Parser τ) (← Parser.start ⟨g, false, builder'⟩ forest') calls) =
        .ok (answers, run') ∧
      Alike (⟨g, true, builder⟩ : Parser σ) (⟨g, false, builder'⟩ : Parser τ) run run' ∧
      run.chart.size = run'.chart.size ∧
      ∀ j r i,
        (run.chart.InLane j .predictions r i ↔ run'.chart.InLane j .predictions r i) ∧
        (run.chart.InLane j .scans r i ↔ run'.chart.InLane j .scans r i) ∧
        (run.chart.InLane j .completions r i → run'.chart.InLane j .completions r i) ∧
        (run'.chart.InLane j .completions r 0 → r.lhs = g.start → run.chart.InLane j .completions r 0) := by
  have hf := Parser.follows (⟨g, true, builder⟩ : Parser σ)
  have hf' := Parser.follows (⟨g, false, builder'⟩ : Parser τ)
  obtain ⟨start, hstart, h⟩ := Parser.start_spec ⟨g, true, builder⟩ forest
  obtain ⟨start', hstart', h'⟩ := Parser.start_spec ⟨g, false, builder'⟩ forest'
  obtain ⟨answers, run, run', input, hrun, hrun', h, h'⟩ := hf.performAll_agree hf' h h' calls
  rw [hstart, hstart']
  refine ⟨answers, run, run', hrun, hrun', hf.alike hf' h h', h.size_eq.trans h'.size_eq.symm, ?_⟩
  intro j r i
  -- Both charts hold every deducible item that expects something.
  have hexpecting : ∀ s, r.postDot? = some s → (run.chart.Holds j r i ↔ run'.chart.Holds j r i) := by
    intro s hs
    exact (h.holds_iff_of_postDot? hs).trans (h'.holds_iff_of_postDot? hs).symm
  simp only [h.sound.inLane_iff, h'.sound.inLane_iff, ne_eq, reduceCtorEq, not_false_eq_true]
  refine ⟨?_, ?_, ?_, ?_⟩
  · apply and_congr_left
    intro hl
    obtain ⟨-, A, hA⟩ := Item.lane_eq_predictions_iff.1 hl
    exact hexpecting _ hA
  · apply and_congr_left
    intro hl
    obtain ⟨-, l, hl⟩ := Item.lane_eq_scans_iff.1 hl
    exact hexpecting _ hl
  · rintro ⟨hh, hl⟩
    exact ⟨(h'.holds_iff_of_plain rfl).2 (h.sound.deducible_of_holds hh), hl⟩
  · rintro ⟨hh, hl⟩ hs
    exact ⟨(h.holds_iff_of_start hs).2 (h'.sound.deducible_of_holds hh), hl⟩

/-! ## Frames -/

/-- In every session, a compiled grammar gives the answers of a plain parser, and
its frames hold the items of the plain chart. -/
theorem frames_agree_with_plain (g : Grammar) (builder : ForestBuilder σ) (forest : σ) (calls : List Call) :
    ∃ graph answers run run', FrameGraph.ofGrammar g = .ok graph ∧
      (do Recognizer.performAll graph (← graph.start) calls) = .ok (answers, run) ∧
      (do Recognizer.performAll (⟨g, false, builder⟩ : Parser σ) (← Parser.start ⟨g, false, builder⟩ forest) calls) =
        .ok (answers, run') ∧
      Alike graph (⟨g, false, builder⟩ : Parser σ) run run' ∧
      run.chart.size = run'.chart.size ∧
      ∀ j r i, graph.Holds run.chart j r i ↔ run'.chart.Holds j r i := by
  obtain ⟨graph, hgraph, rfl, hv⟩ := FrameGraph.ofGrammar_spec g
  have hf := FrameGraph.follows hv
  have hf' := Parser.follows (⟨graph.grammar, false, builder⟩ : Parser σ)
  obtain ⟨start, hstart, h⟩ := FrameGraph.start_spec hv
  obtain ⟨start', hstart', h'⟩ := Parser.start_spec ⟨graph.grammar, false, builder⟩ forest
  obtain ⟨answers, run, run', input, hrun, hrun', h, h'⟩ := hf.performAll_agree hf' h h' calls
  refine ⟨graph, answers, run, run', hgraph, by rw [hstart]; exact hrun, by rw [hstart']; exact hrun', hf.alike hf' h h',
    h.size_eq.trans h'.size_eq.symm, ?_⟩
  intro j r i
  exact (h.holds_iff hv).trans (h'.holds_iff_of_plain rfl).symm

end ChartParser
