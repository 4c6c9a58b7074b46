import Mathlib.Algebra.BigOperators.Intervals
import ChartParser.Proofs.Deduction.RightRecursion
import ChartParser.Proofs.Parser.MemoizedCount
/-!
# Right recursion takes linear room with memoized paths

On the grammar `A -> t A | t`, a set of a plain chart has a completion for every earlier
location, and so the chart grows with the square of the input. With memoized paths, a
completion goes straight to the long production that spans everything. Each set then keeps
two completions at most, and one path (`right_recursion_counts`). For `n ≥ 2` tokens:

| set         | predictions | scans | completions, plain | with paths | paths |
|-------------|-------------|-------|--------------------|------------|-------|
| 0           | 0           | 2     | 0                  | 0          | 0     |
| 1           | 1           | 2     | 1                  | 1          | 1     |
| `2 ≤ k < n` | 1           | 2     | `k`                | 2          | 1     |
| `n`         | 1           | 2     | `n`                | 2          | 0     |
-/
namespace ChartParser

/-! ## Items of a lane -/

/-- The states of a lane are those whose items belong there, each once. -/
theorem Sound.lane_perm {g : Grammar} {input : List (List Token)} {j k : Nat} {c : Chart ItemSet}
    (h : Sound g input j c) {l : Lane} (hl : l ≠ .transitions) (items : List (DottedRule × Nat)) (hnodup : items.Nodup)
    (hitems : ∀ r i, (r, i) ∈ items ↔ c.Holds k r i ∧ Item.lane ⟨r, i, .normal⟩ = .ok l) :
    ((c.lane k l).map State.toItem).Perm (items.map fun x => ⟨x.1, x.2, .normal⟩) := by
  have hinj : Function.Injective fun x : DottedRule × Nat => (⟨x.1, x.2, .normal⟩ : Item) := by
    rintro ⟨r, i⟩ ⟨r', i'⟩ heq
    cases heq
    rfl
  rw [List.perm_ext_iff_of_nodup (h.nodup k l) (hnodup.map hinj)]
  rintro ⟨r, i, kind⟩
  rw [h.mem_items_iff hl, List.mem_map]
  constructor
  · rintro ⟨hholds, hkind, hlane⟩
    dsimp only at hholds hkind
    subst hkind
    exact ⟨(r, i), (hitems r i).2 ⟨hholds, hlane⟩, rfl⟩
  · rintro ⟨x, hx, heq⟩
    cases heq
    obtain ⟨hholds, hlane⟩ := (hitems x.1 x.2).1 hx
    exact ⟨hholds, rfl, hlane⟩

namespace Chart

theorem total_add {S : Type} (c : Chart S) (f f' : S → Nat) :
    c.total (fun set => f set + f' set) = c.total f + c.total f' := by
  obtain ⟨sets⟩ := c
  induction sets with
  | nil => rfl
  | cons set sets ih =>
    simp only [total, List.foldr_cons] at ih ⊢
    omega

/-- The states of a chart, lane by lane. -/
theorem totalStates_eq (c : Chart ItemSet) : c.totalStates =
    ∑ k ∈ Finset.range c.size, (c.lane k .predictions).length +
      ∑ k ∈ Finset.range c.size, (c.lane k .scans).length +
      ∑ k ∈ Finset.range c.size, (c.lane k .completions).length +
      ∑ k ∈ Finset.range c.size, (c.lane k .transitions).length := by
  simp only [← total_eq_sum, ← total_add]
  rfl

end Chart

namespace RightRecursion

open ChartParser.Parser

/-! ## Longer stretches -/

/-- Where the stretches of more than one token begin that end at `j + 1` and that the set
there has. With memoized paths, it has those of the whole input only. -/
def origins (leo : Bool) (j : Nat) : List Nat := (List.range j).filter fun i => !leo || i = 0

theorem mem_origins {leo : Bool} {i j : Nat} : i ∈ origins leo j ↔ i < j ∧ (leo = true → i = 0) := by
  cases leo <;> simp [origins]

theorem length_origins {leo : Bool} {j : Nat} : (origins leo j).length = if leo = true then min 1 j else j := by
  cases leo with
  | false => simp [origins]
  | true =>
    cases j with
    | zero => rfl
    | succ j => simp [origins, List.range_succ_eq_map, List.filter_map]

theorem sum_origins (n : Nat) :
    ∑ j ∈ Finset.range n, (origins true j).length = n - 1 ∧
      ∑ j ∈ Finset.range n, (origins false j).length + n = n * (n + 1) / 2 := by
  simp only [length_origins, if_true, Bool.false_eq_true, if_false]
  constructor
  · cases n with
    | zero => rfl
    | succ n =>
      have hone : ∀ j ∈ Finset.range n, min 1 (j + 1) = 1 := fun j _ => by omega
      rw [Finset.sum_range_succ', Finset.sum_const_nat hone, Finset.card_range]
      omega
  · rw [← Finset.sum_range_succ, Finset.sum_range_id, Nat.mul_comm]
    rfl

section Fed

variable {σ : Type} {t : LexerRule} {A : NonTerminal} {g : Grammar} {leo : Bool} {b : ForestBuilder σ}
  {input : List (List Token)} {run : Parse σ} {r : DottedRule} {i j k : Nat}

variable (hg : g.RightRecursive t A) (h : Tracks ⟨g, leo, b⟩ input run)
include hg h

/-! ## Predictions -/

theorem spans_of_holds (hholds : run.chart.Holds j r i) : Spans t A r i j :=
  spans_of_deducible hg (h.sound.deducible_of_holds hholds)

theorem predictions_zero : run.chart.lane 0 .predictions = [] := by
  rw [List.eq_nil_iff_forall_not_mem]
  intro s hs
  obtain ⟨-, B, hB⟩ := Item.lane_eq_predictions_iff.1 (h.sound.lane_ok hs)
  obtain ⟨-, -, hlt⟩ := (spans_of_holds hg h (h.sound.holds hs (by simp))).eq_awaiting hB
  cases hlt

theorem completions_zero : run.chart.lane 0 .completions = [] := by
  rw [List.eq_nil_iff_forall_not_mem]
  intro s hs
  obtain ⟨-, hc⟩ := Item.lane_eq_completions_iff.1 (h.sound.lane_ok hs)
  have := (spans_of_holds hg h (h.sound.holds hs (by simp))).add_one_le hc
  omega

theorem eq_of_waiting {B : NonTerminal} {s : State} (hs : s ∈ run.chart.waiting k B) :
    s.rule = awaiting t A ∧ B = A ∧ k = s.origin + 1 := by
  obtain ⟨hmem, hB⟩ := Chart.mem_waiting.1 hs
  exact (spans_of_holds hg h (h.sound.holds hmem (by simp))).eq_awaiting hB

variable (hin : ∀ j < input.length, Offers input j t.tokenType)
include hin

theorem predictions_succ (hj : j < input.length) :
    ((run.chart.lane (j + 1) .predictions).map State.toItem).Perm [⟨awaiting t A, j, .normal⟩] := by
  refine h.sound.lane_perm (by simp) [(awaiting t A, j)] (by simp) fun r i => ?_
  rw [List.mem_singleton, Prod.mk.injEq]
  constructor
  · rintro ⟨rfl, rfl⟩
    exact ⟨(h.holds_iff_of_postDot? rfl).2 (deducible_awaiting hg hin hj), rfl⟩
  · rintro ⟨hholds, hlane⟩
    obtain ⟨-, B, hB⟩ := Item.lane_eq_predictions_iff.1 hlane
    obtain ⟨rfl, -, heq⟩ := (spans_of_holds hg h hholds).eq_awaiting hB
    exact ⟨rfl, (Nat.succ.inj heq).symm⟩

theorem waiting_succ (hj : j < input.length) :
    ∃ s, run.chart.waiting (j + 1) A = [s] ∧ s.rule = awaiting t A ∧ s.origin = j := by
  obtain ⟨s, hs, hitem⟩ := List.map_eq_singleton_iff.1 (List.perm_singleton.1 (predictions_succ hg h hin hj))
  have hrule : s.rule = awaiting t A := by rw [hitem]
  refine ⟨s, ?_, hrule, by rw [hitem]⟩
  have hwaits : s.waitsFor A = true := by simp [State.waitsFor, hrule, awaiting, DottedRule.postDot?]
  rw [Chart.waiting, hs, List.filter_singleton, hwaits]
  rfl

/-! ## Paths -/

/-- Every path leads to the long production at the beginning. -/
theorem top?_succ (hj : j < input.length) : run.chart.top? A A (j + 1) = some (passed t A, 0) := by
  induction j with
  | zero =>
    obtain ⟨s, hs, hrule, horigin⟩ := waiting_succ hg h hin hj
    refine Chart.top?_eq_some_iff.2 ⟨s, passed t A, hs, by rw [hrule]; rfl, rfl, ?_⟩
    simp [horigin, passed]
  | succ j ih =>
    obtain ⟨s, hs, hrule, horigin⟩ := waiting_succ hg h hin hj
    refine Chart.top?_eq_some_iff.2 ⟨s, passed t A, hs, by rw [hrule]; rfl, rfl, ?_⟩
    have habove := ih (by omega)
    simp [horigin, passed, habove]

/-- Apart from the first set, which nothing waits in, each set before the end has the one path. -/
theorem top?_eq_some_iff {B : NonTerminal} {x : DottedRule × Nat} (hk : k ≤ input.length) :
    run.chart.top? A B k = some x ↔ 0 < k ∧ B = A ∧ x = (passed t A, 0) := by
  constructor
  · intro htop
    obtain ⟨s, -, hs, -⟩ := Chart.top?_eq_some_iff.1 htop
    have hwaits : s ∈ run.chart.waiting k B := by simp [hs]
    obtain ⟨-, rfl, rfl⟩ := eq_of_waiting hg h hwaits
    rw [top?_succ hg h hin hk, Option.some.injEq] at htop
    exact ⟨by omega, rfl, htop.symm⟩
  · rintro ⟨hpos, rfl, rfl⟩
    obtain ⟨k, rfl⟩ := Nat.exists_eq_succ_of_ne_zero (Nat.ne_of_gt hpos)
    exact top?_succ hg h hin hk

/-! ## Which items there are -/

/-- With memoized paths, each completion goes straight to the long production that spans
everything. -/
theorem origin_eq_zero (hground : Grounded ⟨g, leo, b⟩ input run.chart) (hleo : leo = true)
    (hholds : run.chart.Holds j (passed t A) i) : i = 0 := by
  have hspans : ∀ {r i j}, Entered g (path? ⟨g, leo, b⟩ run.chart) input r i j → Spans t A r i j :=
    fun he => spans_of_holds hg h ((h.holds_iff hground).2 he)
  have hpath : ∀ {B k x}, k ≤ input.length →
      (path? ⟨g, leo, b⟩ run.chart B k = some x ↔ 0 < k ∧ B = A ∧ x = (passed t A, 0)) := by
    intro B k x hk
    rw [path?, if_pos hleo, ← top?_eq_some_iff hg h hin hk, hg.start_eq]
  have hlong := (spans_of_holds hg h hholds).add_two_le
  have hj := (h.sound.deducible_of_holds hholds).location_le
  generalize hr : passed t A = r at hholds
  have hentered := (h.holds_iff hground).1 hholds
  cases hentered with
  | start => rfl
  | predict => omega
  | skip he hB =>
    -- No input would lie between the dot and the end.
    obtain ⟨-, -, hspan⟩ := (hspans he).eq_awaiting hB
    omega
  | scan he hl _ hadv =>
    subst hr
    cases hspans he with
    | begun | ending => cases hadv
    | awaiting | ended | passed => cases hl
  | complete _ _ hk hnone he hB =>
    -- Where something waits for `A`, there is a path.
    obtain ⟨-, hlhs, hspan⟩ := (hspans he).eq_awaiting hB
    rw [(hpath (by omega)).2 ⟨by omega, hlhs, rfl⟩] at hnone
    cases hnone
  | jump _ _ hk hsome => exact congrArg Prod.snd ((hpath (by omega)).1 hsome).2.2

/-- The chart has all that is deducible, except that paths pass over the stretches of more
than one token that begin later. -/
theorem holds_iff (hground : Grounded ⟨g, leo, b⟩ input run.chart) : run.chart.Holds j r i ↔
    Spans t A r i j ∧ j ≤ input.length ∧ (leo = true → r = passed t A → i = 0) := by
  constructor
  · intro hholds
    refine ⟨spans_of_holds hg h hholds, (h.sound.deducible_of_holds hholds).location_le, ?_⟩
    rintro hleo rfl
    exact origin_eq_zero hg h hin hground hleo hholds
  · rintro ⟨hspans, hj, hpassed⟩
    have hd : Deducible g input r i j := (deducible_iff hg hin).2 ⟨hspans, hj⟩
    cases hspans with
    | begun | ending | awaiting => exact (h.holds_iff_of_postDot? rfl).2 hd
    | ended =>
      have hending : run.chart.Holds i (ending t A) i :=
        (h.holds_iff_of_postDot? rfl).2 (deducible_ending hg hin (by omega))
      have hentered := (h.holds_iff hground).1 hending
      exact (h.holds_iff hground).2 (hentered.scan rfl (hin i (by omega)) rfl)
    | passed =>
      cases leo with
      | false => exact (h.holds_iff_of_plain rfl).2 hd
      | true =>
        rw [hpassed rfl rfl] at hd ⊢
        exact (h.holds_iff_of_start hg.start_eq.symm).2 hd

/-! ## Scans and completions -/

theorem scans_perm (hground : Grounded ⟨g, leo, b⟩ input run.chart) (hk : k ≤ input.length) :
    ((run.chart.lane k .scans).map State.toItem).Perm [⟨begun t A, k, .normal⟩, ⟨ending t A, k, .normal⟩] := by
  refine h.sound.lane_perm (by simp) [(begun t A, k), (ending t A, k)] (by simp [begun, ending]) fun r i => ?_
  rw [holds_iff hg h hin hground, Item.lane_eq_scans_iff]
  simp only [List.mem_cons, Prod.mk.injEq, List.not_mem_nil, or_false, true_and]
  constructor
  · rintro (⟨rfl, rfl⟩ | ⟨rfl, rfl⟩)
    · exact ⟨⟨.begun _, hk, by simp [begun, passed]⟩, t, rfl⟩
    · exact ⟨⟨.ending _, hk, by simp [ending, passed]⟩, t, rfl⟩
  · rintro ⟨⟨hspans, -, -⟩, l, hl⟩
    cases hspans with
    | begun => exact .inl ⟨rfl, rfl⟩
    | ending => exact .inr ⟨rfl, rfl⟩
    | awaiting | ended | passed => cases hl

theorem completions_succ (hground : Grounded ⟨g, leo, b⟩ input run.chart) (hj : j < input.length) :
    ((run.chart.lane (j + 1) .completions).map State.toItem).Perm
      (((ended t A, j) :: (origins leo j).map (passed t A, ·)).map fun x => ⟨x.1, x.2, .normal⟩) := by
  have hnodup : ((ended t A, j) :: (origins leo j).map (passed t A, ·)).Nodup := by
    refine List.nodup_cons.2 ⟨by simp [ended, passed], ?_⟩
    exact (List.nodup_range.filter _).map fun _ _ heq => congrArg Prod.snd heq
  refine h.sound.lane_perm (by simp) _ hnodup fun r i => ?_
  rw [holds_iff hg h hin hground, Item.lane_eq_completions_iff]
  simp only [List.mem_cons, List.mem_map, Prod.mk.injEq, mem_origins, true_and]
  constructor
  · rintro (⟨rfl, rfl⟩ | ⟨i, ⟨hi, hleo⟩, rfl, rfl⟩)
    · exact ⟨⟨.ended _, hj, by simp [ended, passed]⟩, rfl⟩
    · exact ⟨⟨.passed (by omega), hj, fun hyes _ => hleo hyes⟩, rfl⟩
  · rintro ⟨⟨hspans, -, hpassed⟩, hc⟩
    have hlen := hspans.add_one_le hc
    cases hspans with
    | ended => exact .inl ⟨rfl, rfl⟩
    | passed hlong => exact .inr ⟨i, ⟨by omega, fun hleo => hpassed hleo rfl⟩, rfl, rfl⟩
    | begun | ending | awaiting => cases hc

/-! ## Memoized paths -/

theorem mem_transitions_iff (hground : Grounded ⟨g, leo, b⟩ input run.chart) (hk : k ≤ input.length) {x : Item} :
    x ∈ (run.chart.lane k .transitions).map State.toItem ↔
      leo = true ∧ 0 < k ∧ k < input.length ∧ x = ⟨passed t A, 0, .transitive A⟩ := by
  rw [h.mem_transitions_iff hground, hg.start_eq]
  refine and_congr_right fun hleo => ?_
  constructor
  · rintro ⟨B, hkind, hon, htop⟩
    obtain ⟨hpos, rfl, htop⟩ := (top?_eq_some_iff hg h hin hk).1 htop
    rw [Prod.mk.injEq] at htop
    refine ⟨hpos, hon.lt, ?_⟩
    rw [Item.mk.injEq]
    exact ⟨htop.1, htop.2, hkind⟩
  · rintro ⟨hpos, hlt, rfl⟩
    -- The short production over the next token takes the path.
    have hended : run.chart.Holds (k + 1) (ended t A) k :=
      (holds_iff hg h hin hground).2 ⟨.ended k, hlt, by simp [ended, passed]⟩
    obtain ⟨d, hd, hrule, rfl⟩ := h.sound.mem_lane hended (Item.lane_eq_completions_iff.2 ⟨rfl, rfl⟩)
    have hon : OnPath A run.chart input.length d.rule.lhs d.origin := .completed hlt hd (Nat.lt_succ_self _)
    rw [hrule] at hon
    exact ⟨A, rfl, hon, (top?_eq_some_iff hg h hin hk).2 ⟨hpos, rfl, rfl⟩⟩

theorem length_transitions (hground : Grounded ⟨g, leo, b⟩ input run.chart) (hk : k ≤ input.length) :
    (run.chart.lane k .transitions).length = if leo = true ∧ 0 < k ∧ k < input.length then 1 else 0 := by
  have hmem := fun x => mem_transitions_iff hg h hin hground hk (x := x)
  rw [← List.length_map State.toItem]
  split
  · rename_i hpath
    have hperm : ((run.chart.lane k .transitions).map State.toItem).Perm [⟨passed t A, 0, .transitive A⟩] := by
      rw [List.perm_ext_iff_of_nodup (h.sound.nodup k _) (List.nodup_singleton _)]
      simp [hmem, hpath]
    exact hperm.length_eq
  · rename_i hno
    rw [List.length_eq_zero_iff, List.eq_nil_iff_forall_not_mem]
    intro x hx
    obtain ⟨hleo, hpos, hlt, -⟩ := (hmem x).1 hx
    exact hno ⟨hleo, hpos, hlt⟩

/-! ## How many states there are -/

theorem total_predictions :
    ∑ k ∈ Finset.range (input.length + 1), (run.chart.lane k .predictions).length = input.length := by
  rw [Finset.sum_range_succ', predictions_zero hg h, List.length_nil, Nat.add_zero]
  have hone : ∀ k ∈ Finset.range input.length, (run.chart.lane (k + 1) .predictions).length = 1 := by
    intro k hk
    simpa using (predictions_succ hg h hin (Finset.mem_range.1 hk)).length_eq
  rw [Finset.sum_const_nat hone, Finset.card_range, Nat.mul_one]

theorem total_scans (hground : Grounded ⟨g, leo, b⟩ input run.chart) :
    ∑ k ∈ Finset.range (input.length + 1), (run.chart.lane k .scans).length = 2 * (input.length + 1) := by
  have htwo : ∀ k ∈ Finset.range (input.length + 1), (run.chart.lane k .scans).length = 2 := by
    intro k hk
    simpa using (scans_perm hg h hin hground (Nat.le_of_lt_succ (Finset.mem_range.1 hk))).length_eq
  rw [Finset.sum_const_nat htwo, Finset.card_range, Nat.mul_comm]

theorem total_completions (hground : Grounded ⟨g, leo, b⟩ input run.chart) :
    ∑ k ∈ Finset.range (input.length + 1), (run.chart.lane k .completions).length =
      ∑ j ∈ Finset.range input.length, (origins leo j).length + input.length := by
  rw [Finset.sum_range_succ', completions_zero hg h, List.length_nil, Nat.add_zero]
  have hset : ∀ j ∈ Finset.range input.length,
      (run.chart.lane (j + 1) .completions).length = (origins leo j).length + 1 := by
    intro j hj
    simpa using (completions_succ hg h hin hground (Finset.mem_range.1 hj)).length_eq
  rw [Finset.sum_congr rfl hset, Finset.sum_add_distrib, Finset.sum_const_nat fun _ _ => rfl, Finset.card_range,
    Nat.mul_one]

theorem total_transitions (hground : Grounded ⟨g, leo, b⟩ input run.chart) :
    ∑ k ∈ Finset.range (input.length + 1), (run.chart.lane k .transitions).length =
      if leo = true then input.length - 1 else 0 := by
  have hset : ∀ k ∈ Finset.range (input.length + 1), (run.chart.lane k .transitions).length =
      if leo = true ∧ 0 < k ∧ k < input.length then 1 else 0 :=
    fun k hk => length_transitions hg h hin hground (Nat.le_of_lt_succ (Finset.mem_range.1 hk))
  rw [Finset.sum_congr rfl hset]
  cases leo with
  | false => simp
  | true =>
    have hinner : (Finset.range (input.length + 1)).filter (fun k => 0 < k ∧ k < input.length) =
        Finset.Ioo 0 input.length := by
      ext k
      simp only [Finset.mem_filter, Finset.mem_range, Finset.mem_Ioo]
      omega
    simp only [true_and, if_true]
    rw [← Finset.card_filter, hinner, Nat.card_Ioo]
    rfl

theorem totalStates_eq (hground : Grounded ⟨g, leo, b⟩ input run.chart) (hne : input ≠ []) :
    run.chart.totalStates = if leo = true then 6 * input.length
      else 2 + 3 * input.length + input.length * (input.length + 1) / 2 := by
  have hpos := List.length_pos_iff.2 hne
  obtain ⟨horigins, horigins'⟩ := sum_origins input.length
  rw [run.chart.totalStates_eq, h.size_eq, total_predictions hg h hin, total_scans hg h hin hground,
    total_completions hg h hin hground, total_transitions hg h hin hground]
  cases leo with
  | true =>
    rw [horigins]
    simp only [if_true]
    omega
  | false =>
    simp only [Bool.false_eq_true, if_false]
    omega

end Fed

/-! ## Sessions -/

theorem offers_of_tokens {tokens : List Token} {type : TokenType} (htokens : ∀ x ∈ tokens, x.tokenType = type) :
    ∀ j < (tokens.map ([·])).length, Offers (tokens.map ([·])) j type := by
  intro j hj
  rw [List.length_map] at hj
  exact ⟨[tokens[j]], by simp [hj], tokens[j], by simp, htokens _ (List.getElem_mem hj)⟩

section Feed

variable {σ : Type} {t : LexerRule} {A : NonTerminal} {g : Grammar}

/-- Every token of the rule's type is taken. -/
theorem answers_of_tokens (hg : g.RightRecursive t A) {taken rest : List Token}
    (htokens : ∀ x ∈ taken ++ rest, x.tokenType = t.tokenType) :
    (g.answers (taken.map ([·])) ((rest.map ([·])).map .offer)).1 = rest.map fun _ => .taken true := by
  induction rest generalizing taken with
  | nil => rfl
  | cons x rest ih =>
    have hin := offers_of_tokens fun y hy => htokens y (List.mem_append_left _ hy)
    have hc : Continues g (taken.map ([·])) [x] := continues hg hin (htokens x (by simp))
    have hrest : (g.answers ((taken ++ [x]).map ([·])) ((rest.map ([·])).map .offer)).1 =
        rest.map fun _ => .taken true := ih (by simpa using htokens)
    rw [List.map_append] at hrest
    simp only [List.map_cons, Grammar.answers, Grammar.answer, if_pos hc]
    rw [← hrest]
    rfl

/-- The parser takes tokens of the rule's type, whatever else it keeps. -/
theorem feed_spec {p : Parser σ} {I : List (List Token) → Parse σ → Prop} (hI : Invariant p I)
    (hg : p.grammar.RightRecursive t A) (taken : List Token) {rest : List Token} {run : Parse σ}
    (h : Tracks p (taken.map ([·])) run ∧ I (taken.map ([·])) run)
    (htokens : ∀ x ∈ taken ++ rest, x.tokenType = t.tokenType) :
    Succeeds (Recognizer.performAll p run (rest.map fun x => .offer [x])) fun x =>
      x.1 = rest.map (fun _ => .taken true) ∧
        Tracks p ((taken ++ rest).map ([·])) x.2 ∧ I ((taken ++ rest).map ([·])) x.2 := by
  have hcalls : rest.map (fun x => Call.offer [x]) = (rest.map ([·])).map .offer := by
    rw [List.map_map]
    rfl
  have hanswers := answers_of_tokens hg htokens
  rw [hcalls]
  refine (hI.follows.performAll_spec h _).mono fun x ⟨hx, ht⟩ => ?_
  rw [Grammar.answers_offers (by rw [hanswers, List.map_map]; rfl), ← List.map_append] at ht
  exact ⟨hx.trans hanswers, ht⟩

end Feed

end RightRecursion

namespace Parser

open RightRecursion

/-- On `A -> t A | t`, the parser takes any number `n ≥ 1` of tokens of the type of `t`, and
accepts after each of them. With memoized paths, it then has memoized `n - 1` of them and
the chart has `6 * n` states. Without, the chart has a state for each of the `n * (n + 1) / 2`
stretches of input, besides `2 + 3 * n` that are not complete. -/
theorem right_recursion_counts {σ : Type} {g : Grammar} {t : LexerRule} {A : NonTerminal} (hg : g.RightRecursive t A)
    (leo : Bool) (builder : ForestBuilder σ) (forest : σ) {tokens : List Token} (hne : tokens ≠ [])
    (htokens : ∀ x ∈ tokens, x.tokenType = t.tokenType) :
    ∃ start run, Parser.start ⟨g, leo, builder⟩ forest = .ok start ∧
      Recognizer.performAll (⟨g, leo, builder⟩ : Parser σ) start (tokens.map fun x => .offer [x]) =
        .ok (tokens.map fun _ => .taken true, run) ∧
      (∀ taken rest, tokens = taken ++ rest → taken ≠ [] → ∃ part,
        Recognizer.performAll (⟨g, leo, builder⟩ : Parser σ) start (taken.map fun x => .offer [x]) =
          .ok (taken.map fun _ => .taken true, part) ∧
        Parser.isAccepted ⟨g, leo, builder⟩ part = true ∧
        Recognizer.performAll (⟨g, leo, builder⟩ : Parser σ) part (rest.map fun x => .offer [x]) =
          .ok (rest.map fun _ => .taken true, run)) ∧
      run.memoized = (if leo then tokens.length - 1 else 0) ∧
      run.chart.totalStates = if leo then 6 * tokens.length
        else 2 + 3 * tokens.length + tokens.length * (tokens.length + 1) / 2 := by
  have hI := (counted_invariant ⟨g, leo, builder⟩).and (grounded_invariant ⟨g, leo, builder⟩)
  obtain ⟨start, hstart, h₀⟩ := hI.start_spec forest
  obtain ⟨⟨_, run⟩, hrun, rfl, h, hcount, hground⟩ := feed_spec hI hg [] h₀ htokens
  have hin := offers_of_tokens htokens
  have hpaths := total_transitions hg h hin hground
  rw [← h.size_eq, ← Chart.total_eq_sum] at hpaths
  have hmemoized : run.memoized = _ := hcount.trans hpaths
  have hstates := totalStates_eq hg h hin hground (by simpa using hne)
  rw [List.nil_append, List.length_map] at hmemoized hstates
  refine ⟨start, run, hstart, hrun, ?_, hmemoized, hstates⟩
  rintro taken rest rfl htaken
  have htaken' : ∀ x ∈ taken, x.tokenType = t.tokenType := fun x hx => htokens x (List.mem_append_left rest hx)
  obtain ⟨⟨_, part⟩, hpart, rfl, h'⟩ := feed_spec hI hg [] h₀ htaken'
  obtain ⟨⟨_, run'⟩, hrest, rfl, -⟩ := feed_spec hI hg taken h' htokens
  have hcompletes := (RightRecursion.completes_iff hg (offers_of_tokens htaken')).2 (by simpa using htaken)
  -- The parse after `taken` goes on to `run`.
  have hboth := Recognizer.performAll_append hpart hrest
  rw [← List.map_append, ← List.map_append, hrun, Except.ok.injEq, Prod.mk.injEq] at hboth
  obtain ⟨-, rfl⟩ := hboth
  exact ⟨part, hpart, (isAccepted_iff h'.1).2 hcompletes, hrest⟩

theorem right_recursion_counts_three : ∃ g start run,
    Grammar.ofProductions ⟨"A"⟩
      [⟨⟨"A"⟩, [.terminal (.char 'a'), .nonTerminal ⟨"A"⟩]⟩, ⟨⟨"A"⟩, [.terminal (.char 'a')]⟩] = .ok g ∧
    Parser.start ⟨g, true, .none⟩ () = .ok start ∧
    Recognizer.performAll (⟨g, true, .none⟩ : Parser Unit) start
        [.offer [Token.ofChar 'a' 0], .offer [Token.ofChar 'a' 1], .offer [Token.ofChar 'a' 2]] =
      .ok ([.taken true, .taken true, .taken true], run) ∧
    run.memoized = 2 ∧ run.chart.totalStates = 18 := by
  obtain ⟨g, hofProductions, hg⟩ := Grammar.exists_rightRecursive (.char 'a') ⟨"A"⟩
  have htokens : ∀ x ∈ [Token.ofChar 'a' 0, Token.ofChar 'a' 1, Token.ofChar 'a' 2],
      x.tokenType = (LexerRule.char 'a').tokenType := by decide
  obtain ⟨start, run, hstart, hrun, -, hmemoized, hstates⟩ :=
    right_recursion_counts hg true .none () (List.cons_ne_nil _ _) htokens
  exact ⟨g, start, run, hofProductions, hstart, hrun, hmemoized, hstates⟩

end Parser

end ChartParser
