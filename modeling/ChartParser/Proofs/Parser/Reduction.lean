import ChartParser.Proofs.Chart.Bound
import ChartParser.Proofs.Lists
import ChartParser.Proofs.Parser.Progress
/-!
# Reduction closes a set

Memoizing a path finds its top and keeps the memo right (`memoize_spec`). A
completed state is passed on to the states that waited for it, or to the top of
its path, which is memoized then (`complete_spec`). The loop over both queues ends within its bound with
a set that is closed under prediction and completion (`reduce_spec`).
-/
namespace ChartParser

namespace Parser

variable {σ : Type} {p : Parser σ} {input : List (List Token)} {j k : Nat} {run : Parse σ}

/-! ## Memoized paths -/

/-- The answer is the top of the path, whether it was memoized before or not, and
where there is a path it is memoized afterwards. -/
theorem memoize_spec (h : Sound p.grammar input j run.chart) (hleo : p.leo = true) {A : NonTerminal}
    (hpath : OnPath p.grammar.start run.chart j A k) :
    Succeeds (p.memoize run A k) fun x => x.1 = run.chart.top? p.grammar.start A k ∧
      Extends p input j run x.2 ∧
      (x.1 ≠ none → ∃ t ∈ x.2.chart.lane k .transitions, t.kind = .transitive A) := by
  induction k using Nat.strongRecOn generalizing A run with
  | _ k ih =>
    have hk := hpath.lt
    have hsize : k < run.chart.size := Nat.lt_of_lt_of_le hk h.le_size
    obtain ⟨set, hset, hget, hlane⟩ := Chart.exists_set hsize
    have htop := Chart.top?.eq_1 run.chart p.grammar.start A k
    rw [hset, Option.bind_some] at htop
    rw [memoize]
    refine .bind_ok hget ?_
    cases ht : set.transition? A with
    | some t =>
      have hmem : t ∈ run.chart.lane k .transitions := hlane .transitions ▸ List.mem_of_find?_eq_some ht
      have hkind : t.kind = .transitive A := by simpa using List.find?_some ht
      dsimp only
      exact .pure ⟨(h.memo hmem hkind).2.symm, .refl h, fun _ => ⟨t, hmem, hkind⟩⟩
    | none =>
      cases hs : set.soleWaiting? A with
      | none =>
        dsimp only
        exact .pure ⟨by simp [htop, hs], .refl h, by simp⟩
      | some s =>
        dsimp only
        cases hr : s.rule.advance? with
        | none =>
          dsimp only
          exact .pure ⟨by simp [htop, hs, hr], .refl h, by simp⟩
        | some rule =>
          simp only [hs, hr] at htop
          dsimp only
          have hsole : run.chart.waiting k A = [s] :=
            Chart.soleWaiting?_eq_some_iff.1 (by rw [hset, Option.bind_some, hs])
          have hrule : p.grammar.HasRule rule :=
            (h.hasRule_of_waiting (show s ∈ run.chart.waiting k A by simp [hsole])).advance? hr
          have hentered : rule ∈ (run.table.intern rule).rules := RuleTable.mem_intern.2 (.inr rfl)
          split
          · rename_i hc
            rw [if_pos hc] at htop
            -- What lies above is found and memoized first, in an earlier set.
            have hclimb : Succeeds (if _h : s.origin < k ∧ ¬(s.origin = 0 ∧ rule.lhs = p.grammar.start) then
                p.memoize { run with table := run.table.intern rule } rule.lhs s.origin
                else .ok (none, { run with table := run.table.intern rule }))
                fun x => run.chart.top? p.grammar.start A k = some (x.1.getD (rule, s.origin)) ∧
                  Extends p input j run x.2 ∧ x.2.chart.MemoizedAbove p.grammar.start A k ∧
                  x.2.Knows (x.1.getD (rule, s.origin)).1 := by
              split
              · rename_i hcl
                rw [dif_pos hcl] at htop
                have hon : OnPath p.grammar.start run.chart j rule.lhs s.origin :=
                  hpath.climb ⟨s, hsole, hr, rfl, hc, hcl⟩
                have hup := @ih s.origin hcl.1 { run with table := run.table.intern rule } h rule.lhs hon
                refine hup.mono ?_
                rintro x ⟨hx, he, hmem⟩
                refine ⟨by rw [htop, hx], he.of_intern hrule, ?_, ?_⟩
                · refine Chart.memoizedAbove_of_sole (by rw [he.grows.waiting_eq hk, hsole]) hr fun _ _ hne => hmem ?_
                  rwa [hx, ← he.grows.top?_eq hon.lt]
                · cases hx₁ : x.1 with
                  | none => exact .inl (Steps.rules_subset he.steps hentered)
                  | some top =>
                    obtain ⟨t, hmem, hkind⟩ := hmem (by simp [hx₁])
                    have hmemo := (he.sound.memo hmem hkind).2
                    rw [he.grows.top?_eq hon.lt, ← hx, hx₁] at hmemo
                    cases hmemo
                    exact .inr ⟨_, _, t, hmem, rfl⟩
              · rename_i hcl
                rw [dif_neg hcl] at htop
                have habove : run.chart.MemoizedAbove p.grammar.start A k :=
                  Chart.memoizedAbove_of_sole hsole hr fun hlt hstart => absurd ⟨hlt, hstart⟩ hcl
                exact ⟨_, rfl, htop, .intern h hrule, habove, .inl hentered⟩
            refine hclimb.bind ?_
            rintro x ⟨hx, he, habove, hknown⟩
            have htop' : x.2.chart.top? p.grammar.start A k = some (x.1.getD (rule, s.origin)) := by
              rw [he.grows.top?_eq hk, hx]
            refine (addTransition_spec he.sound hleo (hpath.grows he.grows) htop' habove hknown).bind ?_
            rintro run₂ ⟨he₂, hmem⟩
            exact .pure ⟨hx.symm, he.trans he₂, fun _ => hmem⟩
          · rename_i hc
            rw [if_neg hc] at htop
            exact .pure ⟨htop.symm, .intern h hrule, by simp⟩

/-! ## Completion -/

/-- The states of set `k` that wait for `A` have moved on into the set at `j`. -/
def Moved (c : Chart ItemSet) (j k : Nat) (A : NonTerminal) : Prop :=
  ∀ w ∈ c.waiting k A, ∀ r, w.rule.advance? = some r → c.Holds j r w.origin

/-- What completing `A`, begun in set `k`, leads to is in the set at `j`: the top of
the path, or every state that waited, moved on. -/
structure PassedOn (p : Parser σ) (c : Chart ItemSet) (j : Nat) (A : NonTerminal) (k : Nat) : Prop where
  jumped : ∀ t, p.path? c A k = some t → c.Holds j t.1 t.2
  moved : p.path? c A k = none → Moved c j k A

theorem PassedOn.grows {c c' : Chart ItemSet} {m : Nat} {A : NonTerminal} (h : PassedOn p c m A k) (hg : c.Grows j c')
    (hk : k < j) : PassedOn p c' m A k := by
  constructor
  · intro t ht
    rw [path?_eq_of_grows hg hk] at ht
    exact hg.holds (h.jumped t ht)
  · intro ht w hw r hr
    rw [path?_eq_of_grows hg hk] at ht
    rw [hg.waiting_eq hk] at hw
    exact hg.holds (h.moved ht w hw r hr)

/-- If a completion of `A`, begun in set `k`, has a path, the path is memoized there. -/
def Memoized (p : Parser σ) (c : Chart ItemSet) (A : NonTerminal) (k : Nat) : Prop :=
  p.path? c A k ≠ none → ∃ t ∈ c.lane k .transitions, t.kind = .transitive A

theorem Memoized.grows {c c' : Chart ItemSet} {A : NonTerminal} (h : Memoized p c A k) (hg : c.Grows j c')
    (hk : k < j) : Memoized p c' A k := by
  intro ht
  rw [path?_eq_of_grows hg hk] at ht
  obtain ⟨t, hmem, hkind⟩ := h ht
  exact ⟨t, (hg.lane_le k .transitions).subset hmem, hkind⟩

/-- The loop over the states that wait for `d` ends before its bound, also when
they become more meanwhile. -/
theorem advanceWaiting_spec {d : State} {fuel i : Nat} (h : Sound p.grammar input j run.chart)
    (hd : d ∈ run.chart.lane j .completions) (hk : d.origin < run.chart.size)
    (hpath : d.origin < j → p.path? run.chart d.rule.lhs d.origin = none)
    (hfuel : p.grammar.stateBound j < fuel + i) (hi : i ≤ (run.chart.waiting d.origin d.rule.lhs).length)
    (hdone : ∀ w ∈ (run.chart.waiting d.origin d.rule.lhs).take i, ∀ r, w.rule.advance? = some r →
      run.chart.Holds j r w.origin) :
    Succeeds (p.advanceWaiting d.rule.lhs d.origin j (.completed d.rule.lhs d.origin d.node) fuel i run) fun run' =>
      Extends p input j run run' ∧ Moved run'.chart j d.origin d.rule.lhs := by
  induction fuel generalizing i run with
  | zero =>
    have hkj := (h.deducible_of_holds (h.holds hd (by simp))).origin_le
    have hlen := h.ranged.length_waiting_le d.origin d.rule.lhs
    have hmono : p.grammar.stateBound d.origin ≤ p.grammar.stateBound j := Nat.mul_le_mul_left _ (by omega)
    omega
  | succ fuel ih =>
    obtain ⟨set, hset, hget, -⟩ := Chart.exists_set hk
    rw [advanceWaiting]
    refine .bind_ok hget ?_
    rw [← Chart.waiting_eq hset]
    cases hs : (run.chart.waiting d.origin d.rule.lhs)[i]? with
    | none =>
      dsimp only
      refine .pure ⟨.refl h, fun w hw => hdone w ?_⟩
      rwa [List.take_of_length_le (List.getElem?_eq_none_iff.1 hs)]
    | some s =>
      have hmem := List.mem_of_getElem? hs
      refine (advance_spec h .complete fun r hr => .complete hd hpath hmem hr).bind fun run₁ ⟨he, hnew⟩ => ?_
      -- The states that waited before are still the first ones.
      have hpre : run.chart.waiting d.origin d.rule.lhs <+: run₁.chart.waiting d.origin d.rule.lhs :=
        (he.grows.lane_le d.origin _).filter _
      have hlt := (List.getElem?_eq_some_iff.1 hs).1
      have hlen := hpre.length_le
      have hd₁ := (he.grows.lane_le j .completions).subset hd
      have hpath₁ : d.origin < j → p.path? run₁.chart d.rule.lhs d.origin = none := fun hlt => by
        rw [path?_eq_of_grows he.grows hlt, hpath hlt]
      refine (ih he.sound hd₁ (he.lt_size hk) hpath₁ (by omega) (by omega) ?_).mono fun run₂ ⟨he₂, hm⟩ => ⟨he.trans he₂, hm⟩
      exact forall_take_succ hpre hs (fun w hw r hr => he.grows.holds (hdone w hw r hr)) hnew

theorem completeStepwise_spec (h : Sound p.grammar input j run.chart) {s : State}
    (hs : s ∈ run.chart.lane j .completions) (hk : s.origin < run.chart.size)
    (hpath : s.origin < j → p.path? run.chart s.rule.lhs s.origin = none) :
    Succeeds (p.completeStepwise run j s) fun run' =>
      Extends p input j run run' ∧ Moved run'.chart j s.origin s.rule.lhs :=
  advanceWaiting_spec h hs hk hpath (by omega) (Nat.zero_le _) (by simp)

theorem complete_spec (h : Sound p.grammar input j run.chart) {s : State} (hs : s ∈ run.chart.lane j .completions) :
    Succeeds (p.complete run j s) fun run' => Extends p input j run run' ∧
      (s.origin < j → PassedOn p run'.chart j s.rule.lhs s.origin ∧ Memoized p run'.chart s.rule.lhs s.origin) := by
  have hholds := h.holds hs (by simp)
  have hle := (h.deducible_of_holds hholds).origin_le
  have hsize : s.origin < run.chart.size := Nat.lt_of_le_of_lt hle hholds.lt_size
  unfold complete
  split
  · rename_i hleo
    simp only [Bool.and_eq_true, decide_eq_true_eq] at hleo
    refine (memoize_spec h hleo.1 (.completed (Nat.le_refl j) hs hleo.2)).bind fun x ⟨hx, he, hmem⟩ => ?_
    obtain ⟨set, -, hget, hlane⟩ := Chart.exists_set (he.lt_size hsize)
    refine .bind_ok hget ?_
    have hs₁ := (he.grows.lane_le j .completions).subset hs
    have htop : p.path? x.2.chart s.rule.lhs s.origin = x.1 := by
      rw [path?_eq_of_grows he.grows hleo.2, path?, if_pos hleo.1, hx]
    cases ht : set.transition? s.rule.lhs with
    | some t =>
      have hmem : t ∈ x.2.chart.lane s.origin .transitions := hlane .transitions ▸ List.mem_of_find?_eq_some ht
      have hkind : t.kind = .transitive s.rule.lhs := by simpa using List.find?_some ht
      have hmemo := (he.sound.memo hmem hkind).2
      refine (attach_spec x.2 he.sound .complete (.jump hleo.1 hs₁ hleo.2 hmem hkind)
        (.inr ⟨_, _, t, hmem, rfl⟩)).mono fun run₂ ⟨he₂, hh⟩ =>
        ⟨he.trans he₂, fun hlt => ?_⟩
      have hpath : p.path? run₂.chart s.rule.lhs s.origin = some (t.rule, t.origin) := by
        rw [path?_eq_of_grows he₂.grows hlt, path?, if_pos hleo.1, hmemo]
      refine ⟨⟨fun t' ht' => ?_, fun h => ?_⟩, fun _ => ⟨t, (he₂.grows.lane_le _ _).subset hmem, hkind⟩⟩
      · rw [hpath] at ht'
        cases ht'
        exact hh
      · rw [hpath] at h
        cases h
    | none =>
      have hnone : x.1 = none := by
        by_contra hne
        obtain ⟨t, hmem, hkind⟩ := hmem hne
        rw [← hlane] at hmem
        have := List.find?_eq_none.1 ht t hmem
        simp [hkind] at this
      rw [hnone] at htop
      refine (completeStepwise_spec he.sound hs₁ (he.lt_size hsize) fun _ => htop).mono fun run₂ ⟨he₂, hm⟩ => ?_
      have hpath : s.origin < j → p.path? run₂.chart s.rule.lhs s.origin = none := fun hlt => by
        rw [path?_eq_of_grows he₂.grows hlt, htop]
      refine ⟨he.trans he₂, fun hlt => ⟨⟨fun t ht => ?_, fun _ => hm⟩, fun ht => absurd (hpath hlt) ht⟩⟩
      rw [hpath hlt] at ht
      cases ht
  · rename_i hleo
    simp only [Bool.and_eq_true, decide_eq_true_eq] at hleo
    have hnone : s.origin < j → ∀ c, p.path? c s.rule.lhs s.origin = none := fun hlt _ => if_neg fun h => hleo ⟨h, hlt⟩
    refine (completeStepwise_spec h hs hsize fun hlt => hnone hlt _).mono fun run' ⟨he, hm⟩ => ⟨he, fun hlt => ?_⟩
    have hpath := hnone hlt run'.chart
    refine ⟨⟨fun t ht => ?_, fun _ => hm⟩, fun ht => absurd hpath ht⟩
    rw [hpath] at ht
    cases ht

/-! ## The closure of a set -/

/-- Every prediction of the set at `j` has brought in what it waits for, and every
completion that took input has been passed on. -/
structure Closed (p : Parser σ) (c : Chart ItemSet) (j : Nat) : Prop where
  predicted : ∀ s ∈ c.lane j .predictions, Predicted p.grammar c j s
  passedOn : ∀ s ∈ c.lane j .completions, s.origin < j → PassedOn p c j s.rule.lhs s.origin
  memoized : ∀ s ∈ c.lane j .completions, s.origin < j → Memoized p c s.rule.lhs s.origin

/-- `c` completions and `q` predictions have been dealt with. -/
structure Closing (p : Parser σ) (chart : Chart ItemSet) (j c q : Nat) : Prop where
  le_completions : c ≤ (chart.lane j .completions).length
  le_predictions : q ≤ (chart.lane j .predictions).length
  predicted : ∀ s ∈ (chart.lane j .predictions).take q, Predicted p.grammar chart j s
  passedOn : ∀ s ∈ (chart.lane j .completions).take c, s.origin < j →
    PassedOn p chart j s.rule.lhs s.origin ∧ Memoized p chart s.rule.lhs s.origin

theorem reduceFrom_spec {fuel c q : Nat} (h : Sound p.grammar input j run.chart) (hj : j < run.chart.size)
    (hfuel : p.grammar.stateBound j < fuel + (c + q)) (hcl : Closing p run.chart j c q) :
    Succeeds (p.reduceFrom j fuel c q run) fun run' =>
      Extends p input j run run' ∧ Closed p run'.chart j := by
  induction fuel generalizing c q run with
  | zero =>
    have := h.ranged.length_queues_le j
    have := hcl.le_completions
    have := hcl.le_predictions
    omega
  | succ fuel ih =>
    obtain ⟨set, -, hget, hlane⟩ := Chart.exists_set hj
    rw [reduceFrom]
    refine .bind_ok hget ?_
    split
    -- The next completion.
    · rename_i s hs
      have hs : (run.chart.lane j .completions)[c]? = some s := hlane .completions ▸ hs
      have hmem := List.mem_of_getElem? hs
      refine (complete_spec h hmem).bind fun run₁ ⟨he, hnew⟩ => ?_
      have hpre := he.grows.lane_le j
      have hclosing : Closing p run₁.chart j (c + 1) q := by
        have hlt := (List.getElem?_eq_some_iff.1 hs).1
        refine ⟨Nat.le_trans hlt (hpre _).length_le, Nat.le_trans hcl.le_predictions (hpre _).length_le, ?_, ?_⟩
        · obtain ⟨more, hmore⟩ := hpre .predictions
          rw [← hmore, List.take_append_of_le_length hcl.le_predictions]
          exact fun s hs => (hcl.predicted s hs).grows he.grows
        · refine forall_take_succ (hpre _) hs (fun b hb hlt => ?_) hnew
          obtain ⟨hp, hm⟩ := hcl.passedOn b hb hlt
          exact ⟨hp.grows he.grows hlt, hm.grows he.grows hlt⟩
      refine (ih he.sound (he.lt_size hj) (by omega) hclosing).mono fun run₂ ⟨he₂, hc⟩ => ⟨he.trans he₂, hc⟩
    -- No completion is left; the next prediction may bring new ones.
    · rename_i s _ hs
      have hs : (run.chart.lane j .predictions)[q]? = some s := hlane .predictions ▸ hs
      have hmem := List.mem_of_getElem? hs
      refine (predict_spec h hmem).bind fun run₁ ⟨he, hnew⟩ => ?_
      have hpre := he.grows.lane_le j
      have hclosing : Closing p run₁.chart j c (q + 1) := by
        have hlt := (List.getElem?_eq_some_iff.1 hs).1
        refine ⟨Nat.le_trans hcl.le_completions (hpre _).length_le, Nat.le_trans hlt (hpre _).length_le, ?_, ?_⟩
        · exact forall_take_succ (hpre _) hs (fun b hb => (hcl.predicted b hb).grows he.grows) hnew
        · obtain ⟨more, hmore⟩ := hpre .completions
          rw [← hmore, List.take_append_of_le_length hcl.le_completions]
          intro s hs hlt
          obtain ⟨hp, hm⟩ := hcl.passedOn s hs hlt
          exact ⟨hp.grows he.grows hlt, hm.grows he.grows hlt⟩
      refine (ih he.sound (he.lt_size hj) (by omega) hclosing).mono fun run₂ ⟨he₂, hc⟩ => ⟨he.trans he₂, hc⟩
    · rename_i hc hq
      have hc : (run.chart.lane j .completions).length ≤ c := by
        rw [← hlane]
        exact List.getElem?_eq_none_iff.1 hc
      have hq : (run.chart.lane j .predictions).length ≤ q := by
        rw [← hlane]
        exact List.getElem?_eq_none_iff.1 hq
      have hall := hcl.passedOn
      rw [List.take_of_length_le hc] at hall
      refine .pure ⟨.refl h, fun s hs => hcl.predicted s ?_, fun s hs hlt => (hall s hs hlt).1,
        fun s hs hlt => (hall s hs hlt).2⟩
      rwa [List.take_of_length_le hq]

theorem reduce_spec (run : Parse σ) (h : Sound p.grammar input j run.chart) (hj : j < run.chart.size) :
    Succeeds (p.reduce run j) fun run' => Extends p input j run run' ∧ Closed p run'.chart j :=
  reduceFrom_spec h hj (by omega) ⟨Nat.zero_le _, Nat.zero_le _, by simp, by simp⟩

end Parser

end ChartParser
