import ChartParser.Proofs.Parser.Contents
import Mathlib.Algebra.BigOperators.Group.Finset.Basic
import Mathlib.Algebra.BigOperators.Group.Finset.Piecewise
import Mathlib.Algebra.Order.BigOperators.Group.Finset
/-!
# How many paths are memoized

The count of memoized paths goes up with each transitive state that a chart takes, so it
is the number of those in the chart. A set has at most one for each non-terminal, and
the set at the present location has none, so there are never more of them than
non-terminals times locations (`memoized_paths_counted`).
-/
namespace ChartParser

/-! ## Non-terminals of a grammar -/

namespace Grammar

variable {g : Grammar} {A : NonTerminal}

theorem HasRule.mem_nonTerminals_of_postDot? {r : DottedRule} (h : g.HasRule r)
    (hA : r.postDot? = some (.nonTerminal A)) : A ∈ g.nonTerminals := by
  obtain ⟨p, hp, -, hrhs⟩ := h.exists_mem
  obtain ⟨rest, hafter⟩ := DottedRule.postDot?_eq_some_iff.1 hA
  have hmem : .nonTerminal A ∈ p.rhs := by simp [hrhs, hafter]
  exact mem_nonTerminals.2 (defines_iff.1 (g.rhs_defined p hp A hmem))

end Grammar

/-! ## Sums over sets -/

namespace Chart

variable {c c' : Chart ItemSet} {k : Nat} {l m : Lane} {s : State} {new : Bool}

theorem total_eq_sum (c : Chart ItemSet) (l : Lane) :
    c.total (fun set => (set.queue l).size) = ∑ k ∈ Finset.range c.size, (c.lane k l).length := by
  obtain ⟨sets⟩ := c
  induction sets with
  | nil => rfl
  | cons set sets ih =>
    have htotal : total ⟨set :: sets⟩ (fun set => (set.queue l).size) =
        (set.queue l).size + total ⟨sets⟩ fun set => (set.queue l).size := rfl
    have hsize : size ⟨set :: sets⟩ = size ⟨sets⟩ + 1 := rfl
    rw [htotal, ih, hsize, Finset.sum_range_succ', Nat.add_comm]
    rfl

/-- A state that is taken counts in its lane and nowhere else. -/
theorem Inserted.total_eq (h : c.Inserted k l s new c') (m : Lane) :
    c'.total (fun set => (set.queue m).size) =
      c.total (fun set => (set.queue m).size) + if m = l ∧ new = true then 1 else 0 := by
  have hk : k ∈ Finset.range c'.size := by
    rw [Finset.mem_range, h.size_eq]
    omega
  -- The set that may have been added was empty.
  have hwide : ∑ i ∈ Finset.range c.size, (c.lane i m).length = ∑ i ∈ Finset.range c'.size, (c.lane i m).length := by
    refine Finset.sum_subset (Finset.range_mono (by have := h.size_eq; omega)) fun i _ hi => ?_
    rw [Finset.mem_range, Nat.not_lt] at hi
    rw [lane_eq_nil hi, List.length_nil]
  have hlane : ∀ i, (c'.lane i m).length =
      (c.lane i m).length + if k = i then (if m = l ∧ new = true then 1 else 0) else 0 := by
    intro i
    rw [h.lane_eq]
    by_cases hi : k = i
    · subst hi
      by_cases hm : m = l ∧ new = true
      · simp [hm]
      · simp only [hm, and_false, if_false, if_true, Nat.add_zero]
    · simp only [Ne.symm hi, hi, false_and, if_false, Nat.add_zero]
  rw [total_eq_sum, total_eq_sum, hwide]
  simp only [hlane, Finset.sum_add_distrib, Finset.sum_ite_eq, hk, if_true]

end Chart

/-! ## Transitive states of a sound chart -/

namespace Sound

variable {g : Grammar} {input : List (List Token)} {j k : Nat} {c : Chart ItemSet}

/-- What a set has memoized is memoized for different non-terminals. -/
theorem nodup_recognized (h : Sound g input j c) (k : Nat) :
    ((c.lane k .transitions).map (·.recognized?)).Nodup := by
  have hitems : (c.lane k .transitions).map (·.recognized?) =
      ((c.lane k .transitions).map State.toItem).map Item.recognized? := by
    rw [List.map_map]
    rfl
  rw [hitems]
  refine List.Nodup.map_on (fun x hx y hy hxy => ?_) (h.nodup k .transitions)
  obtain ⟨s, hs, rfl⟩ := List.mem_map.1 hx
  obtain ⟨t, ht, rfl⟩ := List.mem_map.1 hy
  obtain ⟨⟨A, hA⟩, -⟩ := Item.lane_eq_transitions_iff.1 (h.lane_ok hs)
  obtain ⟨⟨B, hB⟩, -⟩ := Item.lane_eq_transitions_iff.1 (h.lane_ok ht)
  rw [Item.recognized?_eq_some_iff.2 hA, Item.recognized?_eq_some_iff.2 hB, Option.some.injEq] at hxy
  subst hxy
  -- Both lead to the top of the one path.
  have hsame := (h.memo hs hA).2.symm.trans (h.memo ht hB).2
  rw [Option.some.injEq, Prod.mk.injEq] at hsame
  rw [Item.mk.injEq]
  exact ⟨hsame.1, hsame.2, hA.trans hB.symm⟩

/-- Where a path begins, some state waits. -/
theorem mem_nonTerminals (h : Sound g input j c) {t : State} (ht : t ∈ c.lane k .transitions) {A : NonTerminal}
    (hkind : t.kind = .transitive A) : A ∈ g.nonTerminals := by
  obtain ⟨s, r, hs, -⟩ := Chart.top?_eq_some_iff.1 (h.memo ht hkind).2
  have hwaits : s ∈ c.waiting k A := by simp [hs]
  exact (h.hasRule_of_waiting hwaits).mem_nonTerminals_of_postDot? (Chart.mem_waiting.1 hwaits).2

theorem length_transitions_le (h : Sound g input j c) (k : Nat) :
    (c.lane k .transitions).length ≤ g.nonTerminals.length := by
  have hsub : (c.lane k .transitions).map (·.recognized?) ⊆ g.nonTerminals.map some := by
    intro x hx
    obtain ⟨t, ht, rfl⟩ := List.mem_map.1 hx
    obtain ⟨⟨A, hA⟩, -⟩ := Item.lane_eq_transitions_iff.1 (h.lane_ok ht)
    exact List.mem_map.2 ⟨A, h.mem_nonTerminals ht hA, (Item.recognized?_eq_some_iff.2 hA).symm⟩
  have hlen := (List.subperm_of_subset (h.nodup_recognized k) hsub).length_le
  rwa [List.length_map, List.length_map] at hlen

theorem countP_transitive_le (h : Sound g input j c) {set : ItemSet} (hset : c.get k = .ok set) (A : NonTerminal) :
    set.states.countP (·.kind = .transitive A) ≤ 1 := by
  have hnormal : ∀ l ≠ .transitions, (set.queue l).toList.countP (·.kind = .transitive A) = 0 := by
    intro l hl
    rw [List.countP_eq_zero]
    intro s hs
    rw [Chart.queue_eq_lane hset] at hs
    simp [Item.kind_of_lane (h.lane_ok hs) hl]
  have hrecognized : (set.queue .transitions).toList.countP (·.kind = .transitive A) =
      ((c.lane k .transitions).map (·.recognized?)).count (some A) := by
    rw [Chart.queue_eq_lane hset, List.count, List.countP_map]
    congr 1
    funext s
    rw [Bool.eq_iff_iff, decide_eq_true_eq, Function.comp_apply, beq_iff_eq, Item.recognized?_eq_some_iff]
  have hsum : set.states.countP (·.kind = .transitive A) =
      (set.queue .predictions).toList.countP (·.kind = .transitive A) +
        (set.queue .scans).toList.countP (·.kind = .transitive A) +
        (set.queue .completions).toList.countP (·.kind = .transitive A) +
        (set.queue .transitions).toList.countP (·.kind = .transitive A) := by
    simp only [ItemSet.states, List.countP_append]
    rfl
  rw [hsum, hnormal _ (by simp), hnormal _ (by simp), hnormal _ (by simp), hrecognized]
  have hle := List.nodup_iff_count_le_one.1 (h.nodup_recognized k) (some A)
  omega

end Sound

/-! ## Counting -/

namespace Parser

variable {σ : Type} {p : Parser σ} {input : List (List Token)} {run : Parse σ}

theorem total_transitions_of_normal {c c' : Chart ItemSet} {k i : Nat} {r : DottedRule} {node : Option ForestNode}
    {l : Lane} {new : Bool} (hl : (State.normal r i node).lane = .ok l)
    (hins : c.Inserted k l (.normal r i node) new c') : c'.total (·.transitions.size) = c.total (·.transitions.size) := by
  have hne : .transitions ≠ l := by
    rintro rfl
    obtain ⟨⟨A, hkind⟩, -⟩ := Item.lane_eq_transitions_iff.1 hl
    cases hkind
  have htotal := hins.total_eq .transitions
  rwa [if_neg fun hc => hne hc.1, Nat.add_zero] at htotal

/-- Every path that is memoized is counted, and nothing else. -/
theorem counted_invariant (p : Parser σ) : Invariant p fun _ run => run.memoized = run.chart.total (·.transitions.size) where
  fresh _ hchart hmemoized := by
    rw [hchart, hmemoized]
    rfl
  emptied _ := rfl
  extend _ _ h := h
  step hs h hcount := by
    cases h.effect hs with
    | idle hchart _ hmemoized => rw [hchart, hmemoized, hcount]
    | begin _ _ hl hins _ hmemoized | move _ _ hl hins _ hmemoized =>
      rw [hmemoized, hcount, total_transitions_of_normal hl hins]
    | memoize _ _ _ _ _ _ hins _ hmemoized =>
      have htotal := hins.total_eq .transitions
      simp only [true_and] at htotal
      rw [hmemoized, hcount]
      exact htotal.symm

/-- Only the sets before the present location count. -/
theorem Tracks.total_transitions_le (h : Tracks p input run) :
    run.chart.total (·.transitions.size) ≤ p.grammar.nonTerminals.length * run.location := by
  have hsum : run.chart.total (·.transitions.size) = _ := run.chart.total_eq_sum .transitions
  have hlast : run.chart.lane run.location .transitions = [] := h.transitions_eq_nil (Nat.le_refl _)
  rw [hsum, h.size_eq, ← h.location_eq, Finset.sum_range_succ, hlast, List.length_nil, Nat.add_zero]
  calc ∑ k ∈ Finset.range run.location, (run.chart.lane k .transitions).length
      ≤ ∑ _k ∈ Finset.range run.location, p.grammar.nonTerminals.length :=
        Finset.sum_le_sum fun k _ => h.sound.length_transitions_le k
    _ = (Finset.range run.location).card * p.grammar.nonTerminals.length := Finset.sum_const_nat fun _ _ => rfl
    _ = p.grammar.nonTerminals.length * run.location := by rw [Finset.card_range, Nat.mul_comm]

/-- After every session, the count of memoized paths is the number of transitive states in
the queues for them. No set has two for one non-terminal, the set at the present location
has none, and so there are no more than one for each non-terminal of the grammar and
each location passed, and none at all if the parser does not memoize paths. -/
theorem memoized_paths_counted (g : Grammar) (leo : Bool) (builder : ForestBuilder σ) (forest : σ) (calls : List Call) :
    ∃ answers run,
      (do Recognizer.performAll (⟨g, leo, builder⟩ : Parser σ) (← Parser.start ⟨g, leo, builder⟩ forest) calls) =
        .ok (answers, run) ∧
      run.memoized = run.chart.total (·.transitions.size) ∧
      (∀ k set A, run.chart.get k = .ok set → set.states.countP (·.kind = .transitive A) ≤ 1) ∧
      (∃ set, run.chart.get run.location = .ok set ∧ ∀ s ∈ set.states, s.isTransitive = false) ∧
      run.memoized ≤ g.nonTerminals.length * run.location ∧
      (leo = false → run.memoized = 0) := by
  have hI := (counted_invariant ⟨g, leo, builder⟩).and (grounded_invariant ⟨g, leo, builder⟩)
  obtain ⟨⟨answers, run⟩, hrun, input, h, hcount, hground⟩ := hI.session_spec forest calls
  refine ⟨answers, run, hrun, hcount, fun k set A hset => h.sound.countP_transitive_le hset A, ?_, ?_, fun hleo => ?_⟩
  · have hlt : run.location < run.chart.size := by
      rw [h.size_eq, h.location_eq]
      exact Nat.lt_succ_self _
    obtain ⟨set, -, hget, -⟩ := Chart.exists_set hlt
    refine ⟨set, hget, fun s hs => ?_⟩
    obtain ⟨l, hl⟩ := (Chart.mem_states_iff hget).1 hs
    have hne : l ≠ .transitions := by
      rintro rfl
      simp [h.transitions_eq_nil (Nat.le_refl _)] at hl
    simp [Item.isTransitive, Item.recognized?, Item.kind_of_lane (h.sound.lane_ok hl) hne]
  · rw [show run.memoized = _ from hcount]
    exact h.total_transitions_le
  · have hsum : run.chart.total (·.transitions.size) = _ := run.chart.total_eq_sum .transitions
    have hnil : ∀ k, (run.chart.lane k .transitions).length = 0 := fun k => by
      rw [h.transitions_eq_nil_of_plain hground hleo k, List.length_nil]
    rw [show run.memoized = _ from hcount, hsum]
    exact Finset.sum_eq_zero fun k _ => hnil k

end Parser

end ChartParser
