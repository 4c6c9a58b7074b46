import ChartParser.Proofs.Frame.Contents
import ChartParser.Proofs.Parser.Contents
import ChartParser.Proofs.Parser.Jumps
/-!
# Alternatives at one location are a set

The order in which tokens are offered decides in which order items are found, when a
path is memoized and how rules are numbered. It decides neither an answer nor what is
in the chart in the end (`alternatives_are_unordered`).
-/
namespace ChartParser

/-- Sessions that offer tokens of the same types, in any order and number, give the same
answers and have the same chart but for the order in each queue and for nodes, with
memoized paths and without. With frames the same holds of the frames. The sessions may
end with any call, so they agree after every call. -/
theorem alternatives_are_unordered (g : Grammar) (calls calls' : List Call)
    (hcalls : List.Forall₂ (Call.Rel SameTypeSet) calls calls') :
    (∀ (σ τ : Type) (leo : Bool) (builder : ForestBuilder σ) (builder' : ForestBuilder τ) (forest : σ) (forest' : τ),
      SessionsAgree (⟨g, leo, builder⟩ : Parser σ) (⟨g, leo, builder'⟩ : Parser τ)
        (Parser.start ⟨g, leo, builder⟩ forest) (Parser.start ⟨g, leo, builder'⟩ forest') calls calls' fun run run' =>
          run.chart.size = run'.chart.size ∧
          ∀ j l, ((run.chart.lane j l).map State.toItem).Perm ((run'.chart.lane j l).map State.toItem)) ∧
    ∃ graph, FrameGraph.ofGrammar g = .ok graph ∧
      SessionsAgree graph graph graph.start graph.start calls calls' fun run run' =>
        run.chart.size = run'.chart.size ∧
        ∀ j, (FrameChart.items run.chart j).Perm (FrameChart.items run'.chart j) := by
  constructor
  · intro σ τ leo builder builder' forest forest'
    have hI := Parser.grounded_invariant (⟨g, leo, builder⟩ : Parser σ)
    have hI' := Parser.grounded_invariant (⟨g, leo, builder'⟩ : Parser τ)
    refine hI.follows.sessionsAgree hI'.follows (hI.start_spec forest) (hI'.start_spec forest') hcalls ?_
    rintro input input' run run' ⟨h, hg⟩ ⟨h', hg'⟩ hin
    exact ⟨by rw [h.size_eq, h'.size_eq, hin.length_eq], h.items_perm hg h' hg' hin⟩
  · obtain ⟨graph, hgraph, rfl, hv⟩ := FrameGraph.ofGrammar_spec g
    refine ⟨graph, hgraph, ?_⟩
    have hf := FrameGraph.follows hv
    refine hf.sessionsAgree hf (FrameGraph.start_spec hv) (FrameGraph.start_spec hv) hcalls ?_
    intro input input' run run' h h' hin
    exact ⟨by rw [h.size_eq, h'.size_eq, hin.length_eq], h.items_perm h' hin⟩

/-- Offers `b` or `c`, then `c`. -/
def eitherThenC : List Call := [.offer [Token.ofChar 'b' 0, Token.ofChar 'c' 0], .offer [Token.ofChar 'c' 1]]

/-- The same choices in another order, with tokens offered twice. -/
def eitherThenC' : List Call :=
  [.offer [Token.ofChar 'c' 0, Token.ofChar 'b' 0, Token.ofChar 'b' 0], .offer [Token.ofChar 'c' 1, Token.ofChar 'c' 1]]

theorem alternatives_are_unordered_unitStart :
    List.Forall₂ (Call.Rel SameTypeSet) eitherThenC eitherThenC' ∧
    SessionsAgree (⟨Parser.unitStart, true, .none⟩ : Parser Unit) (⟨Parser.unitStart, true, .none⟩ : Parser Unit)
      (Parser.start ⟨Parser.unitStart, true, .none⟩ ()) (Parser.start ⟨Parser.unitStart, true, .none⟩ ())
      eitherThenC eitherThenC' fun run run' => run.chart.size = run'.chart.size ∧
        ∀ j l, ((run.chart.lane j l).map State.toItem).Perm ((run'.chart.lane j l).map State.toItem) := by
  have hfirst : SameTypeSet [Token.ofChar 'b' 0, Token.ofChar 'c' 0]
      [Token.ofChar 'c' 0, Token.ofChar 'b' 0, Token.ofChar 'b' 0] := fun x => by simp [or_comm]
  have hsecond : SameTypeSet [Token.ofChar 'c' 1] [Token.ofChar 'c' 1, Token.ofChar 'c' 1] := fun x => by simp
  have hcalls : List.Forall₂ (Call.Rel SameTypeSet) eitherThenC eitherThenC' :=
    .cons (.offer hfirst) (.cons (.offer hsecond) .nil)
  have hboth := alternatives_are_unordered Parser.unitStart eitherThenC eitherThenC' hcalls
  exact ⟨hcalls, hboth.1 Unit Unit true .none .none () ()⟩

end ChartParser
