import ChartParser.Proofs.Parser.Reduction
/-!
# Closed sets hold what is deducible

When every set is closed and every token has been scanned, the chart holds all
deducible items, except for completions that a memoized path passes over
(`Settled.holds_or_skipped`). Such a completion is never one that acceptance,
scanning or prediction asks for.
-/
namespace ChartParser.Parser

variable {σ : Type} {p : Parser σ} {input : List (List Token)} {c c' : Chart ItemSet} {n j : Nat}

/-- The sets up to `n` are closed, the first one begins with the start rules and
every other one with the scans of the set before it. -/
structure Settled (p : Parser σ) (input : List (List Token)) (c : Chart ItemSet) (n : Nat) : Prop where
  start : ∀ r ∈ p.grammar.initialRules p.grammar.start, c.Holds 0 r 0
  scanned : ∀ k < n, ∀ s ∈ c.lane k .scans, ∀ l r, s.rule.postDot? = some (.terminal l) →
    Offers input k l.tokenType → s.rule.advance? = some r → c.Holds (k + 1) r s.origin
  closed : ∀ k ≤ n, Closed p c k

theorem Closed.grows {k : Nat} (h : Closed p c k) (hg : c.Grows j c') (hk : k < j) : Closed p c' k := by
  constructor
  · intro s hs
    rw [hg.lane_eq k _ (by omega) (by simp)] at hs
    exact (h.predicted s hs).grows hg
  · intro s hs hlt
    rw [hg.lane_eq k _ (by omega) (by simp)] at hs
    exact (h.passedOn s hs hlt).grows hg (by omega)
  · intro s hs hlt
    rw [hg.lane_eq k _ (by omega) (by simp)] at hs
    exact (h.memoized s hs hlt).grows hg (by omega)

/-- Growth beyond the settled sets and further tokens keep them settled. -/
theorem Settled.grows {more : List (List Token)} (h : Settled p input c n) (hg : c.Grows j c') (hn : n < j)
    (hlen : n ≤ input.length) : Settled p (input ++ more) c' n := by
  refine ⟨fun r hr => hg.holds (h.start r hr), fun k hk s hs l r hl ht hr => ?_, fun k hk => ?_⟩
  · rw [hg.lane_eq k _ (by omega) (by simp)] at hs
    exact hg.holds (h.scanned k hk s hs l r hl ((Deducible.offers_append (by omega)).1 ht) hr)
  · exact (h.closed k hk).grows hg (by omega)

/-! ## Completions that are passed over -/

/-- A completion that need not be in the set at `j`: it lies on a path, and the top
of the path is there. The completed start rule is the top of its path. -/
structure Skipped (p : Parser σ) (c : Chart ItemSet) (j : Nat) (r : DottedRule) (i : Nat) : Prop where
  isComplete : r.isComplete = true
  origin_lt : i < j
  not_start : ¬(i = 0 ∧ r.lhs = p.grammar.start)
  exists_top : ∃ t, p.path? c r.lhs i = some t ∧ c.Holds j t.1 t.2

/-- A path that is passed over has been passed on. -/
theorem Skipped.passedOn {r : DottedRule} {i : Nat} (h : Skipped p c j r i) : PassedOn p c j r.lhs i := by
  obtain ⟨t, ht, hh⟩ := h.exists_top
  constructor
  · intro t' ht'
    cases ht.symm.trans ht'
    exact hh
  · intro hn
    cases ht.symm.trans hn

/-- A state that waited for what was passed on has moved on, or lies on the path. -/
theorem PassedOn.holds_or_skipped {A : NonTerminal} {k : Nat} {w : State} {r : DottedRule} (h : PassedOn p c j A k)
    (hw : w ∈ c.waiting k A) (hr : w.rule.advance? = some r) (hk : k < j) :
    c.Holds j r w.origin ∨ Skipped p c j r w.origin := by
  cases hpath : p.path? c A k with
  | none => exact .inl (h.moved hpath w hw r hr)
  | some t =>
    have hh := h.jumped t hpath
    unfold path? at hpath
    split at hpath
    · rename_i hleo
      obtain ⟨s, rule, hs, hrule, hc, rfl⟩ := Chart.top?_eq_some_iff.1 hpath
      -- Only `w` waits, so the path begins with it.
      rw [hs, List.mem_singleton] at hw
      subst hw
      rw [hr, Option.some.injEq] at hrule
      subst hrule
      split at hh
      · rename_i hcl
        cases htop : c.top? p.grammar.start r.lhs w.origin with
        | none =>
          rw [htop] at hh
          exact .inl hh
        | some t =>
          rw [htop] at hh
          exact .inr ⟨hc, by omega, hcl.2, t, by rw [path?, if_pos hleo, htop], hh⟩
      · exact .inl hh
    · cases hpath

/-- Items that still expect something are never passed over. -/
theorem holds_of_postDot? {r : DottedRule} {i : Nat} {s : Symbol} (h : c.Holds j r i ∨ Skipped p c j r i)
    (hs : r.postDot? = some s) : c.Holds j r i := by
  rcases h with h | h
  · exact h
  · rw [DottedRule.postDot?_eq_none_iff.2 h.isComplete] at hs
    cases hs

namespace Settled

variable {r : DottedRule} {i : Nat}

theorem holds_or_skipped (h : Settled p input c n) (hs : Sound p.grammar input n c)
    (hd : Deducible p.grammar input r i j) (hj : j ≤ n) : c.Holds j r i ∨ Skipped p c j r i := by
  induction hd with
  | start hr => exact .inl (h.start _ hr)
  | @predict r r' i j A _ hA hr' ih =>
    have hr := holds_of_postDot? (ih hj) hA
    obtain ⟨s, hmem, rfl, rfl⟩ := hs.mem_lane hr (Item.lane_eq_predictions_iff.2 ⟨rfl, A, hA⟩)
    exact .inl (((h.closed j hj).predicted s hmem).1 A hA r' hr')
  | @scan r r' i j l _ hl ht hr' ih =>
    have hr := holds_of_postDot? (ih (by omega)) hl
    obtain ⟨s, hmem, rfl, rfl⟩ := hs.mem_lane hr (Item.lane_eq_scans_iff.2 ⟨rfl, l, hl⟩)
    exact .inl (h.scanned j (by omega) s hmem l r' hl ht hr')
  | @complete r r' d i k j hd hA hd' hc hr' ih ih' =>
    have hkj := hd'.origin_le
    have hr := holds_of_postDot? (ih (by omega)) hA
    obtain ⟨s, hmem, rfl, rfl⟩ := hs.mem_lane hr (Item.lane_eq_predictions_iff.2 ⟨rfl, d.lhs, hA⟩)
    by_cases hk : k < j
    · -- The completion is in the set or passed over; either way its path is passed on.
      have hpassed : PassedOn p c j d.lhs k := by
        rcases ih' hj with hh | hsk
        · obtain ⟨e, he, rfl, rfl⟩ := hs.mem_lane hh (Item.lane_eq_completions_iff.2 ⟨rfl, hc⟩)
          exact (h.closed j hj).passedOn e he hk
        · exact hsk.passedOn
      exact hpassed.holds_or_skipped (Chart.mem_waiting.2 ⟨hmem, hA⟩) hr' hk
    · -- Completed without input: prediction has moved the dot already.
      obtain rfl : k = j := by omega
      exact .inl (((h.closed k hj).predicted s hmem).2 r' (hd'.skip?_eq_some hc hA hr'))

end Settled

end ChartParser.Parser
