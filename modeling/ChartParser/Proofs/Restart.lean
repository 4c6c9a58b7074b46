import ChartParser.Proofs.Frame.Link
import ChartParser.Proofs.Frame.Tracking
import ChartParser.Proofs.Parser.Indifference
import ChartParser.Proofs.Parser.Watched
/-!
# Starting over is starting anew

A parse that starts over keeps its table of rules, its answers about expectations,
its journal and the state of its forest builder. None of them shows: it goes on as a
new parse does (`restart_starts_afresh`). A builder whose nodes depend on the moves
alone is shown the same moves again.

States carry their rules here, so the table that is kept makes no difference to them.
Where they are stored by the places of their rules, the places may differ, but nothing
else does (`restart_renames_rules`).
-/
namespace ChartParser

variable {σ τ : Type}

/-- After `history` and a restart, `more` is answered as it is by a new parse, and the
parse after it and the new one are alike. `Same` says what else they have in
common, given the parse before the restart. -/
def StartsAfresh {P R : Type} [Recognizer P R] (p : P) (start new : Except Fault R) (Same : R → R → R → Prop) : Prop :=
  ∀ history more, ∃ past old answers run run',
    (do Recognizer.performAll p (← start) history) = .ok (past, old) ∧
    Recognizer.performAll p old (.restart :: more) = .ok (.restarted :: answers, run) ∧
    (do Recognizer.performAll p (← new) more) = .ok (answers, run') ∧
    Alike p p run run' ∧ Same old run run'

/-- Any two expectations that are in order answer alike. -/
theorem Expectations.interchangeable_valid (g : Grammar) : Interchangeable g fun e e' => Valid g e ∧ Valid g e' := by
  rintro e e' ids ⟨he, he'⟩ hids
  obtain ⟨x, hx, hrules, hv⟩ := collect_spec he hids
  obtain ⟨x', hx', hrules', hv'⟩ := collect_spec he' hids
  rw [hx, hx']
  exact .ok ⟨hrules.trans hrules'.symm, hv, hv'⟩

/-! ## Chart parsers -/

/-- All that outlives a restart may be different. -/
def Link.afresh (g : Grammar) (node : Option ForestNode → Option ForestNode → Prop) (forest : σ → τ → Prop) :
    Link σ τ where
  node := node
  token := Eq
  forest := forest
  table _ _ := True
  expectations e e' := e.Valid g ∧ e'.Valid g
  journal _ _ := True

namespace Parser

variable {g : Grammar} {leo : Bool} {node : Option ForestNode → Option ForestNode → Prop} {forest : σ → σ → Prop}
  {b : ForestBuilder σ} {input : List (List Token)} {old : Parse σ}

/-- A parse that starts over goes on in step with a new one, if their forests do. -/
theorem Tracks.restart_afresh (hL : (Link.afresh g node forest).Kept g b b) (h : Tracks ⟨g, leo, b⟩ input old) {s : σ}
    (hs : forest old.forest s) (more : List Call) : ∃ answers run run',
      Recognizer.performAll (⟨g, leo, b⟩ : Parser σ) old (.restart :: more) = .ok (.restarted :: answers, run) ∧
      (do Recognizer.performAll (⟨g, leo, b⟩ : Parser σ) (← Parser.start ⟨g, leo, b⟩ s) more) = .ok (answers, run') ∧
      Alike (⟨g, leo, b⟩ : Parser σ) (⟨g, leo, b⟩ : Parser σ) run run' ∧
      (Link.afresh g node forest).Parses run run' := by
  obtain ⟨run₀, hrestart, ht, -⟩ := restart_spec h
  have hboth : InStep (Link.afresh g node forest).Parses (Parser.restart ⟨g, leo, b⟩ old)
      (Parser.start ⟨g, leo, b⟩ s) :=
    Link.startOver hL trivial hs ⟨h.expectations, Expectations.valid_ofGrammar g⟩ trivial
  rw [hrestart] at hboth
  obtain ⟨run₀', hstart, hlink⟩ := hboth.exists_ok
  have hcalls : List.Forall₂ (Link.afresh g node forest).Calls more more :=
    List.forall₂_same.2 fun call _ => .refl (fun _ => rfl) call
  obtain ⟨answers, run, run', hrun, hrun', halike, hlink⟩ := hlink.performAll_agree hL ht hcalls
  exact ⟨answers, run, run', Recognizer.performAll_restart_cons hrestart hrun, by rw [hstart]; exact hrun', halike, hlink⟩

theorem starts_afresh (g : Grammar) (leo : Bool) (b : ForestBuilder σ) (s s' : σ) :
    StartsAfresh (⟨g, leo, b⟩ : Parser σ) (start ⟨g, leo, b⟩ s) (start ⟨g, leo, b⟩ s') fun _ run run' =>
      run.memoized = run'.memoized ∧ run.chart.bare = run'.chart.bare ∧ run.chart.render = run'.chart.render := by
  have hkept : (Link.afresh g (fun _ _ => True) fun _ _ => True).Kept g b b :=
    ⟨trivial, congrArg Token.tokenType, fun _ _ => ⟨trivial, trivial⟩, fun _ => id,
      Expectations.interchangeable_valid g, fun _ => id⟩
  intro history more
  obtain ⟨⟨past, old⟩, hold, _, h⟩ := session_spec ⟨g, leo, b⟩ s history
  obtain ⟨answers, run, run', hrun, hrun', halike, hlink⟩ := h.restart_afresh hkept (s := s') trivial more
  have hbare := hlink.chart.bare_eq
  exact ⟨past, old, answers, run, run', hold, hrun, hrun', halike, hlink.memoized_eq, hbare,
    by rw [← Chart.render_bare, hbare, Chart.render_bare]⟩

end Parser

/-- The builder that answers `node m` to the move `m`, whatever it has been shown before. -/
def ForestBuilder.ofMoves (node : DotMove → Option ForestNode) (keep : DotMove → σ → σ) : ForestBuilder σ :=
  ⟨fun m s => (node m, keep m s)⟩

/-- If nodes depend on the moves alone, a parse that starts over shows its builder the
moves that a new parse shows, after those it has shown. -/
theorem Parser.starts_afresh_watched (g : Grammar) (leo : Bool) (node : DotMove → Option ForestNode)
    (keep : DotMove → σ → σ) (s s' : σ) :
    StartsAfresh (⟨g, leo, (ForestBuilder.ofMoves node keep).watched⟩ : Parser _)
      (start ⟨g, leo, (ForestBuilder.ofMoves node keep).watched⟩ (s, []))
      (start ⟨g, leo, (ForestBuilder.ofMoves node keep).watched⟩ (s', [])) fun old run run' =>
      run.chart = run'.chart ∧ run.forest.2 = old.forest.2 ++ run'.forest.2 := by
  intro history more
  obtain ⟨⟨past, old⟩, hold, _, h⟩ := session_spec ⟨g, leo, (ForestBuilder.ofMoves node keep).watched⟩ (s, []) history
  have hkept : (Link.afresh g Eq fun x y : σ × List DotMove => x.2 = old.forest.2 ++ y.2).Kept g
      (ForestBuilder.ofMoves node keep).watched (ForestBuilder.ofMoves node keep).watched := by
    refine ⟨rfl, congrArg Token.tokenType, @fun m m' x y hm hs => ?_, fun _ => id, Expectations.interchangeable_valid g,
      fun _ => id⟩
    cases hm.eq_of_node id id
    have hshown : x.2 ++ [m] = old.forest.2 ++ (y.2 ++ [m]) := by
      rw [show x.2 = old.forest.2 ++ y.2 from hs, List.append_assoc]
    exact ⟨rfl, hshown⟩
  obtain ⟨answers, run, run', hrun, hrun', halike, hlink⟩ :=
    h.restart_afresh hkept (s := (s', [])) (List.append_nil _).symm more
  exact ⟨past, old, answers, run, run', hold, hrun, hrun', halike, hlink.chart.eq_of_node id, hlink.forest⟩

/-! ## Frames -/

theorem FrameLink.performAll {graph : FrameGraph} {E : Expectations → Expectations → Prop} {run run' : FrameParse}
    (hE : Expectations.Interchangeable graph.grammar E) (hv : graph.Valid) (h : FrameLink E run run')
    (calls : List Call) :
    InStep (fun x y => x.1 = y.1 ∧ FrameLink E x.2 y.2) (Recognizer.performAll graph run calls)
      (Recognizer.performAll graph run' calls) := by
  induction calls generalizing run run' with
  | nil => exact .ok ⟨rfl, h⟩
  | cons call calls ih =>
    refine (h.perform hE hv call).bind fun x y ⟨hx, h⟩ => (ih h).bind fun x' y' ⟨hx', h⟩ => .ok ⟨?_, h⟩
    exact congrArg₂ List.cons hx hx'

theorem FrameGraph.starts_afresh {graph : FrameGraph} (hv : graph.Valid) :
    StartsAfresh graph graph.start graph.start fun _ run run' =>
      run.chart = run'.chart ∧ FrameChart.render run.chart = FrameChart.render run'.chart := by
  intro history more
  obtain ⟨⟨past, old⟩, hold, _, h⟩ := session_spec hv history
  obtain ⟨run₀, hrestart, ht⟩ := restart_spec hv h
  obtain ⟨run₀', hstart, ht'⟩ := start_spec hv
  have hE := Expectations.interchangeable_valid graph.grammar
  have hboth : InStep (FrameLink fun e e' => e.Valid graph.grammar ∧ e'.Valid graph.grammar) (graph.restart old) graph.start :=
    FrameLink.startOver ⟨h.expectations, Expectations.valid_ofGrammar graph.grammar⟩
  rw [hrestart, hstart] at hboth
  obtain ⟨_, heq, hlink⟩ := hboth.exists_ok
  cases heq
  obtain ⟨answers, run, run', _, hrun, hrun', ht, ht'⟩ := (follows hv).performAll_agree (follows hv) ht ht' more
  have hcharts := hlink.performAll hE hv more
  rw [hrun, hrun'] at hcharts
  obtain ⟨_, heq, -, hlink⟩ := hcharts.exists_ok
  cases heq
  exact ⟨past, old, answers, run, run', hold, Recognizer.performAll_restart_cons hrestart hrun,
    by rw [hstart]; exact hrun', (follows hv).alike (follows hv) ht ht', hlink.chart_eq, by rw [hlink.chart_eq]⟩

/-! ## Both -/

/-- Whatever was done before, a parse that starts over is from then on like a new one:
its answers are the same, it has memoized as many paths, and its chart is the same
but for nodes. If the forest builder goes by the moves alone, the nodes and the moves
it is shown are the same as well. With frames the charts are equal. -/
theorem restart_starts_afresh (g : Grammar) :
    (∀ (σ : Type) (leo : Bool) (builder : ForestBuilder σ) (forest forest' : σ),
      StartsAfresh (⟨g, leo, builder⟩ : Parser σ) (Parser.start ⟨g, leo, builder⟩ forest)
        (Parser.start ⟨g, leo, builder⟩ forest') fun _ run run' =>
          run.memoized = run'.memoized ∧ run.chart.bare = run'.chart.bare ∧ run.chart.render = run'.chart.render) ∧
    (∀ (σ : Type) (leo : Bool) (node : DotMove → Option ForestNode) (keep : DotMove → σ → σ) (forest forest' : σ),
      StartsAfresh (⟨g, leo, (ForestBuilder.ofMoves node keep).watched⟩ : Parser _)
        (Parser.start ⟨g, leo, (ForestBuilder.ofMoves node keep).watched⟩ (forest, []))
        (Parser.start ⟨g, leo, (ForestBuilder.ofMoves node keep).watched⟩ (forest', [])) fun old run run' =>
          run.chart = run'.chart ∧ run.forest.2 = old.forest.2 ++ run'.forest.2) ∧
    ∃ graph, FrameGraph.ofGrammar g = .ok graph ∧
      StartsAfresh graph graph.start graph.start fun _ run run' =>
        run.chart = run'.chart ∧ FrameChart.render run.chart = FrameChart.render run'.chart := by
  obtain ⟨graph, hgraph, -, hv⟩ := FrameGraph.ofGrammar_spec g
  exact ⟨fun _ => Parser.starts_afresh g, fun _ => Parser.starts_afresh_watched g, graph, hgraph,
    FrameGraph.starts_afresh hv⟩

end ChartParser
