import ChartParser.Proofs.Frame.Journal
import ChartParser.Proofs.Frame.Tracking
import ChartParser.Proofs.Parser.Journal
/-!
# Charts replayed from journals

A journal tells of every entry that is new in the chart, in the order in which they came.
So the chart can be built again from what the journal has since the parse was last
started: all that is inserted is new once more, and the same sets with the same entries
in the same order come about (`journal_replays_chart`).
-/
namespace ChartParser

/-- For every grammar and after every session with a chart parser, whatever its builder,
and with the frames of the grammar: what the journal has since the parse was last
started, inserted in that order into a chart without sets, is all new and makes up the
chart of the parse. For a chart parser these are the states with the nodes they came
with; without their nodes, they make up the chart without its nodes. The journal has
as many memoized paths as the parser has counted. In every parse, a refused entry
leaves the journal and all else as it was. -/
theorem journal_replays_chart (g : Grammar) :
    (∀ σ : Type,
      (∀ (run run' : Parse σ) op k s, run.insert op k s = .ok (false, run') → run' = run) ∧
      ∀ (leo : Bool) (builder : ForestBuilder σ) (forest : σ) (calls : List Call), ∃ answers run,
        (do Recognizer.performAll (⟨g, leo, builder⟩ : Parser σ) (← Parser.start ⟨g, leo, builder⟩ forest) calls) =
          .ok (answers, run) ∧
        (∃ states : List (Nat × State),
          states.map (fun e => (e.1, e.2.toItem)) = Journal.insertions run.journal ∧
          Chart.Builds Chart.insert states run.chart) ∧
        Chart.Builds Chart.insertItem (Journal.insertions run.journal) run.chart.bare ∧
        (Journal.insertions run.journal).length = run.chart.totalStates ∧
        Journal.transitions run.journal = run.memoized) ∧
    (∀ (run run' : FrameParse) op k x, run.insert op k x = .ok (false, run') → run' = run) ∧
    ∃ graph, FrameGraph.ofGrammar g = .ok graph ∧ ∀ calls : List Call, ∃ answers run,
      (do Recognizer.performAll graph (← graph.start) calls) = .ok (answers, run) ∧
      Chart.Builds FrameChart.insert (Journal.insertions run.journal) run.chart ∧
      (Journal.insertions run.journal).length = FrameChart.totalStates run.chart := by
  refine ⟨fun σ => ⟨fun run run' op k s h => ?_, fun leo builder forest calls => ?_⟩, fun run run' op k x h => ?_, ?_⟩
  · obtain ⟨-, heq⟩ | ⟨hnew, -⟩ := Parse.insert_cases h
    · exact heq
    · cases hnew
  · obtain ⟨⟨answers, run⟩, hrun, -⟩ := Parser.session_spec ⟨g, leo, builder⟩ forest calls
    have ht : run.Told := Parser.session_told hrun
    exact ⟨answers, run, hrun, ht.builds, ht.builds_bare, ht.totalStates_eq.symm, ht.memoized_eq.symm⟩
  · obtain ⟨-, heq⟩ | ⟨hnew, -⟩ := FrameParse.insert_cases h
    · exact heq
    · cases hnew
  · obtain ⟨graph, hgraph, -, hv⟩ := FrameGraph.ofGrammar_spec g
    refine ⟨graph, hgraph, fun calls => ?_⟩
    obtain ⟨⟨answers, run⟩, hrun, -⟩ := FrameGraph.session_spec hv calls
    have ht : run.Told := FrameGraph.session_told hrun
    exact ⟨answers, run, hrun, ht, ht.totalStates_eq.symm⟩

end ChartParser
