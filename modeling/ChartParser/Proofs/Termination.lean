import ChartParser.Proofs.Frame.Settling
import ChartParser.Proofs.Frame.Tracking
import ChartParser.Proofs.Parser.Settling
import ChartParser.Proofs.Parser.Tracking
import Mathlib.Algebra.GroupWithZero.Nat
/-!
# Every reduction ends

Whatever the grammar, also with unit rules in a circle, hidden left recursion or
non-terminals that are nullable through one another, closing a set comes to an end in
every state that a session reaches, and no set grows beyond its bound
(`reductions_end`). That is said of the loops without their bounds on steps.
-/
namespace ChartParser

variable {σ : Type}

theorem Grammar.dotCount_eq_sum (g : Grammar) : g.dotCount = (g.productions.map fun q => q.rhs.length + 1).sum := by
  unfold dotCount
  induction g.productions with
  | nil => rfl
  | cons q qs ih => rw [List.foldr_cons, ih, List.map_cons, List.sum_cons]

/-- No set has more normal states than there are dotted rules with an origin up to its location. -/
def Parse.Bounded (g : Grammar) (run : Parse σ) : Prop :=
  ∀ j set, run.chart.get j = .ok set →
    set.states.countP (·.kind = .normal) ≤ (g.productions.map fun q => q.rhs.length + 1).sum * (j + 1)

/-- No set has more frames than there are frames with an origin up to its location. -/
def FrameParse.Bounded (graph : FrameGraph) (run : FrameParse) : Prop :=
  ∀ j q, run.chart.get j = .ok q → q.size ≤ graph.frames.length * (j + 1)

theorem Chart.Ranged.bounded {g : Grammar} {run : Parse σ} (h : run.chart.Ranged g) : run.Bounded g := by
  intro j set hset
  have hcount := h.countP_states_le hset
  rwa [Grammar.stateBound, g.dotCount_eq_sum] at hcount

theorem FrameSound.bounded {graph : FrameGraph} {input : List (List Token)} {j : Nat} {run : FrameParse}
    (h : FrameSound graph input j run.chart) : run.Bounded graph := by
  intro j q hq
  have hlen := h.length_items_le j
  rwa [FrameChart.items, Chart.get_eq_ok_iff.1 hq] at hlen

namespace Parser

/-- Closing the set at `j` comes to an end, in one way only and within the bounds. -/
def ReductionEnds (p : Parser σ) (run : Parse σ) (j : Nat) : Prop :=
  ∃ run', p.reduce run j = .ok run' ∧ (∀ run'', p.Reduces j 0 0 run run'' ↔ run'' = run') ∧ run'.Bounded p.grammar

/-- From here, every reduction ends: of a set that there is, and of the next one once the
tokens of an offer have moved what expects them. So does the search for a path. -/
structure Settles (p : Parser σ) (run : Parse σ) : Prop where
  bounded : run.Bounded p.grammar
  memoize : ∀ A, ∀ k ≤ run.location, ∃ top run', p.memoize run A k = .ok (top, run')
  reduce : ∀ j ≤ run.location, p.ReductionEnds run j
  offer : ∀ (tokens : List Token) (run₁ : Parse σ), tokens.foldlM (p.scan run.location) run = .ok run₁ →
    run₁.Bounded p.grammar ∧ (run.location + 1 < run₁.chart.size →
      p.ReductionEnds { run₁ with location := run.location + 1 } (run.location + 1))

variable {p : Parser σ} {input : List (List Token)} {run : Parse σ} {j : Nat}

theorem ReductionEnds.of_ranged (h : run.chart.Ranged p.grammar) (hj : j < run.chart.size) : p.ReductionEnds run j := by
  obtain ⟨run', hrun, hreduces, hk⟩ := reduces_of_ranged h hj
  refine ⟨run', hrun, fun run'' => ⟨fun h => h.unique hreduces, ?_⟩, hk.ranged.bounded⟩
  rintro rfl
  exact hreduces

theorem Tracks.settles (h : Tracks p input run) : p.Settles run := by
  have hranged := h.sound.ranged
  have hsize : run.chart.size = run.location + 1 := by rw [h.size_eq, h.location_eq]
  refine ⟨hranged.bounded, fun A k hk => ?_, fun j hj => .of_ranged hranged (by omega), fun tokens run₁ hscan => ?_⟩
  · obtain ⟨⟨top, run'⟩, hm, -⟩ := memoize_kept hranged (show run.location < run.chart.size by omega) A hk
    exact ⟨top, run', hm⟩
  · obtain ⟨he, -⟩ := (scan_all_spec h).of_ok hscan
    exact ⟨he.sound.ranged.bounded, fun hlt => .of_ranged he.sound.ranged hlt⟩

/-- A parse that starts over closes its first set. -/
theorem start_ends (p : Parser σ) {run run₁ : Parse σ}
    (h : run.emptied.begin .start 0 (p.grammar.initialRules p.grammar.start) = .ok run₁) : p.ReductionEnds run₁ 0 := by
  obtain ⟨hx, -, hsize⟩ := (begin_start_spec p run).of_ok h
  exact .of_ranged hx.sound.ranged hsize

end Parser

namespace FrameGraph

/-- Closing the set at `j` comes to an end, in one way only and within the bounds. -/
def ReductionEnds (graph : FrameGraph) (run : FrameParse) (j : Nat) : Prop :=
  ∃ run', graph.reduce run j = .ok run' ∧ (∀ run'', graph.Reduces j 0 run run'' ↔ run'' = run') ∧ run'.Bounded graph

/-- From here, every reduction ends: of a set that there is, and of the next one once the
tokens of an offer have moved what expects them. -/
structure Settles (graph : FrameGraph) (run : FrameParse) : Prop where
  bounded : run.Bounded graph
  reduce : ∀ j ≤ run.location, graph.ReductionEnds run j
  offer : ∀ (tokens : List Token) (run₁ : FrameParse), tokens.foldlM (graph.scan run.location) run = .ok run₁ →
    run₁.Bounded graph ∧ (run.location + 1 < run₁.chart.size →
      graph.ReductionEnds { run₁ with location := run.location + 1 } (run.location + 1))

variable {graph : FrameGraph} {input : List (List Token)} {run : FrameParse} {j : Nat}

theorem ReductionEnds.of_sound (hv : graph.Valid) {k : Nat} (h : FrameSound graph input k run.chart)
    (hj : j < run.chart.size) : graph.ReductionEnds run j := by
  obtain ⟨run', hrun, hreduces, hs⟩ := reduces_of_sound hv (h.of_le_size (Nat.le_of_lt hj)) hj
  refine ⟨run', hrun, fun run'' => ⟨fun h => h.unique hreduces, ?_⟩, hs.bounded⟩
  rintro rfl
  exact hreduces

theorem Tracks.settles (hv : graph.Valid) (h : Tracks graph input run) : graph.Settles run := by
  have hsize : run.chart.size = run.location + 1 := by rw [h.size_eq, h.location_eq]
  refine ⟨h.sound.bounded, fun j hj => .of_sound hv h.sound (by omega), fun tokens run₁ hscan => ?_⟩
  obtain ⟨he, -⟩ := (scan_all_spec hv h).of_ok hscan
  exact ⟨he.sound.bounded, fun hlt => .of_sound hv he.sound hlt⟩

/-- A parse that starts over closes its first set. -/
theorem start_ends (hv : graph.Valid) {run run₁ : FrameParse}
    (h : graph.insert { run with chart := .empty, location := 0 } .start 0 ⟨graph.startFrame, 0⟩ = .ok run₁) :
    graph.ReductionEnds run₁ 0 := by
  obtain ⟨hx, hmem⟩ := (insert_start_spec hv run).of_ok h
  exact .of_sound hv hx.sound (FrameChart.lt_size_of_mem hmem)

end FrameGraph

/-- For every grammar, every reduction ends, with or without memoized paths and whatever
the forest builder does, and every reduction with the frames of the grammar ends: in a
parse that starts over, whatever it was before, and after every session. -/
theorem reductions_end (g : Grammar) :
    (∀ (σ : Type) (leo : Bool) (builder : ForestBuilder σ),
      (∀ run run₁ : Parse σ, run.emptied.begin .start 0 (g.initialRules g.start) = .ok run₁ →
        Parser.ReductionEnds ⟨g, leo, builder⟩ run₁ 0) ∧
      ∀ (forest : σ) (calls : List Call), ∃ answers run,
        (do Recognizer.performAll (⟨g, leo, builder⟩ : Parser σ) (← Parser.start ⟨g, leo, builder⟩ forest) calls) =
          .ok (answers, run) ∧ Parser.Settles ⟨g, leo, builder⟩ run) ∧
    ∃ graph, FrameGraph.ofGrammar g = .ok graph ∧
      (∀ run run₁ : FrameParse,
        graph.insert { run with chart := .empty, location := 0 } .start 0 ⟨graph.startFrame, 0⟩ = .ok run₁ →
        graph.ReductionEnds run₁ 0) ∧
      ∀ calls : List Call, ∃ answers run,
        (do Recognizer.performAll graph (← graph.start) calls) = .ok (answers, run) ∧ graph.Settles run := by
  constructor
  · intro σ leo builder
    refine ⟨fun run run₁ h => Parser.start_ends ⟨g, leo, builder⟩ h, fun forest calls => ?_⟩
    obtain ⟨⟨answers, run⟩, hrun, _, h⟩ := Parser.session_spec ⟨g, leo, builder⟩ forest calls
    exact ⟨answers, run, hrun, h.settles⟩
  · obtain ⟨graph, hgraph, -, hv⟩ := FrameGraph.ofGrammar_spec g
    refine ⟨graph, hgraph, fun run run₁ h => FrameGraph.start_ends hv h, fun calls => ?_⟩
    obtain ⟨⟨answers, run⟩, hrun, _, h⟩ := FrameGraph.session_spec hv calls
    exact ⟨answers, run, hrun, h.settles hv⟩

end ChartParser
