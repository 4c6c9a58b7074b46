import ChartParser.Proofs.Parser.Tracking
/-!
# Memoized paths are never out of date

A path is memoized at the first completion that takes it, while the sets it
passes lie behind the parse and gain nothing but memoized paths. So at every
later time its top is still the one that would be found without memo, and no
completion is waiting for a path to be memoized (`memoized_paths_up_to_date`).
-/
namespace ChartParser.Parser

variable {σ : Type} {p : Parser σ} {input : List (List Token)} {run : Parse σ}

namespace Tracks

/-- A transitive state lies before the present location and leads to the top of
its path. -/
theorem top?_eq_of_transitive (h : Tracks p input run) {k : Nat} {l : Lane} {t : State} {A : NonTerminal}
    (ht : t ∈ run.chart.lane k l) (hkind : t.kind = .transitive A) :
    k < run.location ∧ run.chart.top? p.grammar.start A k = some (t.rule, t.origin) := by
  have hl : l = .transitions := by
    by_contra hl
    have hnormal := Item.kind_of_lane (h.sound.lane_ok ht) hl
    rw [hkind] at hnormal
    cases hnormal
  subst hl
  rw [h.location_eq]
  exact h.sound.memo ht hkind

/-- Where a completion took input, its path is memoized exactly if it has one. -/
theorem exists_transitive_iff (h : Tracks p input run) (hleo : p.leo = true) {j : Nat} (hj : j ≤ run.location)
    {s : State} (hs : s ∈ run.chart.lane j .completions) (hlt : s.origin < j) :
    (∃ t ∈ run.chart.lane s.origin .transitions, t.kind = .transitive s.rule.lhs) ↔
      ∃ top, run.chart.top? p.grammar.start s.rule.lhs s.origin = some top := by
  constructor
  · rintro ⟨t, ht, hkind⟩
    exact ⟨_, (h.top?_eq_of_transitive ht hkind).2⟩
  · rintro ⟨top, htop⟩
    rw [h.location_eq] at hj
    apply (h.settled.closed j hj).memoized s hs hlt
    rw [path?, if_pos hleo, htop]
    exact Option.some_ne_none top

end Tracks

/-- In every session, every transitive state for `A` in a set `k` lies before the
present location and carries the rule and origin that following the path of `A`
from set `k` leads to in the present chart. A completion of `A` with an earlier
origin `k` has such a state in its set `k` exactly if there is a path to follow. -/
theorem memoized_paths_up_to_date (g : Grammar) (builder : ForestBuilder σ) (forest : σ) (calls : List Call) :
    ∃ answers run,
      (do Recognizer.performAll (⟨g, true, builder⟩ : Parser σ) (← Parser.start ⟨g, true, builder⟩ forest) calls) =
        .ok (answers, run) ∧
      (∀ k l A, ∀ t ∈ run.chart.lane k l, t.kind = .transitive A →
        k < run.location ∧ run.chart.top? g.start A k = some (t.rule, t.origin)) ∧
      ∀ j ≤ run.location, ∀ s ∈ run.chart.lane j .completions, s.origin < j →
        ((∃ t ∈ run.chart.lane s.origin .transitions, t.kind = .transitive s.rule.lhs) ↔
          ∃ top, run.chart.top? g.start s.rule.lhs s.origin = some top) := by
  obtain ⟨⟨answers, run⟩, hrun, _, h⟩ := session_spec ⟨g, true, builder⟩ forest calls
  refine ⟨answers, run, hrun, ?_, ?_⟩
  · intro k l A t ht hkind
    exact h.top?_eq_of_transitive ht hkind
  · intro j hj s hs hlt
    exact h.exists_transitive_iff rfl hj hs hlt

end ChartParser.Parser
