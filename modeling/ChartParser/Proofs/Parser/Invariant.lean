import ChartParser.Proofs.Parser.Tracking
/-!
# What all steps keep, every session keeps

A call either starts over or goes on by steps from the parse as it was. So a
property that holds of every parse with nothing in its chart, and that steps keep,
holds after every call (`Invariant.follows`). It may speak of the input, as long as
further tokens do not put an end to it.
-/
namespace ChartParser.Parser

variable {σ : Type} {p : Parser σ} {I : List (List Token) → Parse σ → Prop} {input : List (List Token)} {run : Parse σ}

/-! ## Without starting over -/

/-- What all steps keep, calls keep as long as none of them starts over. -/
theorem Tracks.performAll_keeps {P : Parse σ → Prop}
    (hP : ∀ {input j run run'}, Sound p.grammar input j run.chart → Step p input j run run' → P run → P run')
    (h : Tracks p input run) (hr : P run) {calls : List Call} (hcalls : Call.restart ∉ calls) :
    Succeeds (Recognizer.performAll p run calls) fun x => ∃ input', Tracks p input' x.2 ∧ P x.2 := by
  induction calls generalizing input run with
  | nil => exact .pure ⟨input, h, hr⟩
  | cons call calls ih =>
    rw [List.mem_cons, not_or] at hcalls
    refine (h.perform_steps (Ne.symm hcalls.1)).bind fun x ⟨input', ht, hs, hsteps⟩ => ?_
    exact (ih ht (Steps.preserve hsteps hs hP hr) hcalls.2).bind fun y hy => .pure hy

/-! ## Invariants -/

/-- `I input run` is kept by all that a parser does with `run` after `input`. -/
structure Invariant (p : Parser σ) (I : List (List Token) → Parse σ → Prop) : Prop where
  fresh : ∀ {run}, run.table = .empty → run.chart = .empty → run.memoized = 0 → I [] run
  emptied : ∀ {input run}, I input run → I [] run.emptied
  extend : ∀ {input run} tokens, Tracks p input run → I input run → I (input ++ [tokens]) run
  step : ∀ {input run run'}, Sound p.grammar input input.length run.chart → Step p input input.length run run' →
    I input run → I input run'

namespace Invariant

theorem and {J : List (List Token) → Parse σ → Prop} (hI : Invariant p I) (hJ : Invariant p J) :
    Invariant p fun input run => I input run ∧ J input run where
  fresh htable hchart hmemoized := ⟨hI.fresh htable hchart hmemoized, hJ.fresh htable hchart hmemoized⟩
  emptied h := ⟨hI.emptied h.1, hJ.emptied h.2⟩
  extend tokens ht h := ⟨hI.extend tokens ht h.1, hJ.extend tokens ht h.2⟩
  step hs hstep h := ⟨hI.step hs hstep h.1, hJ.step hs hstep h.2⟩

theorem steps (hI : Invariant p I) {run' : Parse σ} (hs : Sound p.grammar input input.length run.chart)
    (h : Steps p input input.length run run') (hi : I input run) : I input run' :=
  Steps.preserve h hs hI.step hi

/-- Bookkeeping makes no difference. -/
theorem note (hI : Invariant p I) (h : Tracks p input run) (hi : I input run) {run' : Parse σ}
    (htable : run'.table = run.table) (hchart : run'.chart = run.chart) (hforest : run'.forest = run.forest)
    (hmemoized : run'.memoized = run.memoized) : I input run' :=
  hI.step h.sound (.note htable hchart hforest hmemoized) hi

theorem startOver_spec (hI : Invariant p I) (he : Expectations.Valid p.grammar run.expectations)
    (hi : I [] run.emptied) : Succeeds (p.startOver run) fun run' => Tracks p [] run' ∧ I [] run' :=
  (Parser.startOver_spec he).mono fun _ ⟨ht, hsteps⟩ => ⟨ht, hI.steps (sound_empty p.grammar) hsteps hi⟩

theorem start_spec (hI : Invariant p I) (forest : σ) :
    Succeeds (p.start forest) fun run => Tracks p [] run ∧ I [] run :=
  hI.startOver_spec (Expectations.valid_ofGrammar p.grammar) (hI.fresh rfl rfl rfl)

theorem restart_spec (hI : Invariant p I) (h : Tracks p input run) (hi : I input run) :
    Succeeds (p.restart run) fun run' => Tracks p [] run' ∧ I [] run' := by
  have hpush : Step p [] 0 run.emptied { run.emptied with journal := run.journal.push (.restarted run.location) } :=
    .note rfl rfl rfl rfl
  exact hI.startOver_spec h.expectations (hI.step (sound_empty p.grammar) hpush (hI.emptied hi))

/-- What is tracked besides may be any invariant. -/
theorem follows (hI : Invariant p I) : Follows p p.grammar fun input run => Tracks p input run ∧ I input run where
  location_eq h := h.1.location_eq
  isAccepted_iff h := isAccepted_iff h.1
  offer_spec {input run} h tokens := by
    obtain ⟨h, hi⟩ := h
    by_cases hc : Continues p.grammar input tokens
    · refine (offer_spec_of_continues h hc).mono fun x ⟨hx, ht, hsteps⟩ => .inl ⟨hx, hc, ht, ?_⟩
      have hlen : (input ++ [tokens]).length = input.length + 1 := by simp
      have hsound : Sound p.grammar (input ++ [tokens]) (input.length + 1) run.chart :=
        h.sound.extend_input (Nat.le_succ _) (Nat.le_of_eq h.size_eq.symm)
      rw [← hlen] at hsteps hsound
      exact hI.steps hsound hsteps (hI.extend tokens h hi)
    · obtain ⟨x, hx, hfalse, ht⟩ := offer_spec_of_not_continues h hc
      have hsize : run.chart.size = run.location + 1 := by rw [h.size_eq, h.location_eq]
      cases hx.symm.trans (offer_eq_of_unexpected hsize (h.unexpected hc))
      exact ⟨_, hx, .inr ⟨hfalse, hc, ht, hI.note h hi rfl rfl rfl rfl⟩⟩
  expected_spec {input run} h := by
    obtain ⟨h, hi⟩ := h
    obtain ⟨x, hx, hrules, ht⟩ := expected_spec h
    obtain ⟨y, -, hy⟩ := bind_eq_ok_iff.1 hx
    cases hy
    exact ⟨_, hx, hrules, ht, hI.note h hi rfl rfl rfl rfl⟩
  restart_spec h := hI.restart_spec h.1 h.2

theorem session_spec (hI : Invariant p I) (forest : σ) (calls : List Call) :
    Succeeds (do Recognizer.performAll p (← p.start forest) calls) fun x =>
      ∃ input, Tracks p input x.2 ∧ I input x.2 :=
  hI.follows.session_spec (hI.start_spec forest) calls

end Invariant

end ChartParser.Parser
