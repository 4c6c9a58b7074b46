import ChartParser.Proofs.Chart.Bound
import ChartParser.Proofs.Parser.Progress
/-!
# Reduction comes to an end

The loops of reduction are told here without a bound on their steps: what a run of
each does, one rule for each way it goes on (`AdvancesWaiting`, `PassesOn`,
`Reduces`). A loop ends when its cursors have reached the ends of the queues that it
reads and fills, and these are no longer than what a set can hold. So reduction
ends in every chart whose states are in range (`reduces_of_ranged`), with the
result that the bounded loops compute.
-/
namespace ChartParser

namespace Parser

variable {σ : Type} {p : Parser σ} {g : Grammar} {j : Nat} {run run' : Parse σ}

/-! ## Loops without a bound -/

/-- The states of set `origin` that wait for `A` are moved over `crossed` into set
`location`, from the `i`th on until none is left. -/
inductive AdvancesWaiting (p : Parser σ) (A : NonTerminal) (origin location : Nat) (crossed : Crossing) :
    Nat → Parse σ → Parse σ → Prop
  | finished {i : Nat} {run : Parse σ} {set : ItemSet} : run.chart.get origin = .ok set → (set.waiting A)[i]? = none →
      AdvancesWaiting p A origin location crossed i run run
  | next {i : Nat} {run run₁ run' : Parse σ} {set : ItemSet} {s : State} : run.chart.get origin = .ok set →
      (set.waiting A)[i]? = some s → p.advance run .complete location s crossed = .ok run₁ →
      AdvancesWaiting p A origin location crossed (i + 1) run₁ run' →
      AdvancesWaiting p A origin location crossed i run run'

/-- The completed `s` is passed on: to the top of its memoized path, if it has one,
or else to the states that waited for it. -/
inductive PassesOn (p : Parser σ) (location : Nat) (s : State) : Parse σ → Parse σ → Prop
  | jump {run run₁ run' : Parse σ} {top : Option (DottedRule × Nat)} {set : ItemSet} {t : State} :
      p.leo = true → s.origin < location → p.memoize run s.rule.lhs s.origin = .ok (top, run₁) →
      run₁.chart.get s.origin = .ok set → set.transition? s.rule.lhs = some t → p.jump run₁ location s t = .ok run' →
      PassesOn p location s run run'
  | noPath {run run₁ run' : Parse σ} {top : Option (DottedRule × Nat)} {set : ItemSet} :
      p.leo = true → s.origin < location → p.memoize run s.rule.lhs s.origin = .ok (top, run₁) →
      run₁.chart.get s.origin = .ok set → set.transition? s.rule.lhs = none →
      AdvancesWaiting p s.rule.lhs s.origin location (.completed s.rule.lhs s.origin s.node) 0 run₁ run' →
      PassesOn p location s run run'
  | stepwise {run run' : Parse σ} : ¬(p.leo = true ∧ s.origin < location) →
      AdvancesWaiting p s.rule.lhs s.origin location (.completed s.rule.lhs s.origin s.node) 0 run run' →
      PassesOn p location s run run'

/-- The completions of the set at `location` are passed on from the `c`th on, and what
its predictions ask for is brought in from the `q`th on, until none are left. -/
inductive Reduces (p : Parser σ) (location : Nat) : Nat → Nat → Parse σ → Parse σ → Prop
  | completion {c q : Nat} {run run₁ run' : Parse σ} {set : ItemSet} {s : State} : run.chart.get location = .ok set →
      set.completions.get? c = some s → PassesOn p location s run run₁ → Reduces p location (c + 1) q run₁ run' →
      Reduces p location c q run run'
  | prediction {c q : Nat} {run run₁ run' : Parse σ} {set : ItemSet} {s : State} : run.chart.get location = .ok set →
      set.completions.get? c = none → set.predictions.get? q = some s → p.predict run location s = .ok run₁ →
      Reduces p location c (q + 1) run₁ run' → Reduces p location c q run run'
  | finished {c q : Nat} {run : Parse σ} {set : ItemSet} : run.chart.get location = .ok set →
      set.completions.get? c = none → set.predictions.get? q = none → Reduces p location c q run run

/-! ## They have one result -/

theorem AdvancesWaiting.unique {A : NonTerminal} {k l i : Nat} {crossed : Crossing} {run₁ run₂ : Parse σ}
    (h : AdvancesWaiting p A k l crossed i run run₁) (h' : AdvancesWaiting p A k l crossed i run run₂) : run₁ = run₂ := by
  induction h with
  | finished hget hend =>
    cases h' with
    | finished => rfl
    | next hget' hs => cases hget.symm.trans hget'; cases hend.symm.trans hs
  | next hget hs hadv _ ih =>
    cases h' with
    | finished hget' hend => cases hget.symm.trans hget'; cases hend.symm.trans hs
    | next hget' hs' hadv' hrest =>
      cases hget.symm.trans hget'
      cases hs.symm.trans hs'
      cases hadv.symm.trans hadv'
      exact ih hrest

theorem PassesOn.unique {s : State} {run₁ run₂ : Parse σ} (h : PassesOn p j s run run₁)
    (h' : PassesOn p j s run run₂) : run₁ = run₂ := by
  cases h with
  | jump hleo hlt hm hget ht hj =>
    cases h' with
    | jump _ _ hm' hget' ht' hj' =>
      cases hm.symm.trans hm'; cases hget.symm.trans hget'; cases ht.symm.trans ht'
      exact Except.ok.inj (hj.symm.trans hj')
    | noPath _ _ hm' hget' ht' => cases hm.symm.trans hm'; cases hget.symm.trans hget'; cases ht.symm.trans ht'
    | stepwise hno => exact absurd ⟨hleo, hlt⟩ hno
  | noPath hleo hlt hm hget ht hw =>
    cases h' with
    | jump _ _ hm' hget' ht' => cases hm.symm.trans hm'; cases hget.symm.trans hget'; cases ht.symm.trans ht'
    | noPath _ _ hm' _ _ hw' => cases hm.symm.trans hm'; exact hw.unique hw'
    | stepwise hno => exact absurd ⟨hleo, hlt⟩ hno
  | stepwise hno hw =>
    cases h' with
    | jump hleo hlt => exact absurd ⟨hleo, hlt⟩ hno
    | noPath hleo hlt => exact absurd ⟨hleo, hlt⟩ hno
    | stepwise _ hw' => exact hw.unique hw'

theorem Reduces.unique {c q : Nat} {run₁ run₂ : Parse σ} (h : Reduces p j c q run run₁)
    (h' : Reduces p j c q run run₂) : run₁ = run₂ := by
  induction h with
  | completion hget hs hc _ ih =>
    cases h' with
    | completion hget' hs' hc' hrest =>
      cases hget.symm.trans hget'; cases hs.symm.trans hs'; cases hc.unique hc'
      exact ih hrest
    | prediction hget' hs' | finished hget' hs' => cases hget.symm.trans hget'; cases hs.symm.trans hs'
  | prediction hget hnone hs hp _ ih =>
    cases h' with
    | completion hget' hs' => cases hget.symm.trans hget'; cases hnone.symm.trans hs'
    | prediction hget' _ hs' hp' hrest =>
      cases hget.symm.trans hget'; cases hs.symm.trans hs'; cases hp.symm.trans hp'
      exact ih hrest
    | finished hget' _ hend => cases hget.symm.trans hget'; cases hend.symm.trans hs
  | finished hget hc hq =>
    cases h' with
    | completion hget' hs' => cases hget.symm.trans hget'; cases hc.symm.trans hs'
    | prediction hget' _ hs' => cases hget.symm.trans hget'; cases hq.symm.trans hs'
    | finished => rfl

/-! ## The bounded loops compute it -/

theorem advancesWaiting_of_ok {A : NonTerminal} {k l fuel i : Nat} {crossed : Crossing}
    (h : p.advanceWaiting A k l crossed fuel i run = .ok run') : AdvancesWaiting p A k l crossed i run run' := by
  induction fuel generalizing i run with
  | zero => cases h
  | succ fuel ih =>
    obtain ⟨set, hget, h⟩ := bind_eq_ok_iff.1 h
    split at h
    · rename_i hend
      cases h
      exact .finished hget hend
    · rename_i s hs
      obtain ⟨run₁, hadv, h⟩ := bind_eq_ok_iff.1 h
      exact .next hget hs hadv (ih h)

theorem passesOn_of_ok {s : State} (h : p.complete run j s = .ok run') : PassesOn p j s run run' := by
  unfold complete at h
  split at h
  · rename_i hleo
    simp only [Bool.and_eq_true, decide_eq_true_eq] at hleo
    obtain ⟨⟨top, run₁⟩, hm, h⟩ := bind_eq_ok_iff.1 h
    obtain ⟨set, hget, h⟩ := bind_eq_ok_iff.1 h
    split at h
    · rename_i t ht
      exact .jump hleo.1 hleo.2 hm hget ht h
    · rename_i ht
      exact .noPath hleo.1 hleo.2 hm hget ht (advancesWaiting_of_ok h)
  · rename_i hleo
    exact .stepwise (by simpa using hleo) (advancesWaiting_of_ok h)

theorem reduces_of_ok {fuel c q : Nat} (h : p.reduceFrom j fuel c q run = .ok run') : Reduces p j c q run run' := by
  induction fuel generalizing c q run with
  | zero => cases h
  | succ fuel ih =>
    obtain ⟨set, hget, h⟩ := bind_eq_ok_iff.1 h
    split at h
    · rename_i s hs
      obtain ⟨run₁, hc, h⟩ := bind_eq_ok_iff.1 h
      exact .completion hget hs (passesOn_of_ok hc) (ih h)
    · rename_i s hnone hs
      obtain ⟨run₁, hp, h⟩ := bind_eq_ok_iff.1 h
      exact .prediction hget hnone hs hp (ih h)
    · rename_i hc hq
      cases h
      exact .finished hget hc hq

/-! ## Steps keep the chart in range -/

/-- The set at `j` may have grown, and all states are in range. -/
structure Kept (g : Grammar) (j : Nat) (run run' : Parse σ) : Prop where
  ranged : run'.chart.Ranged g
  grows : run.chart.Grows j run'.chart

namespace Kept

variable {run'' : Parse σ}

theorem refl (h : run.chart.Ranged g) : Kept g j run run := ⟨h, .refl j run.chart⟩

theorem trans (h : Kept g j run run') (h' : Kept g j run' run'') : Kept g j run run'' :=
  ⟨h'.ranged, h.grows.trans h'.grows⟩

theorem right (h : Kept g j run run') : Kept g j run' run' := .refl h.ranged

theorem lt_size (h : Kept g j run run') {k : Nat} (hk : k < run.chart.size) : k < run'.chart.size :=
  Nat.lt_of_lt_of_le hk h.grows.size_le

end Kept

theorem insert_kept (h : run.chart.Ranged g) (hj : j < run.chart.size) (op : Operation) {k : Nat} {s : State} {l : Lane}
    (hl : s.lane = .ok l) (hr : g.HasRule s.rule) (hi : s.origin ≤ k) (hk : k ≤ j) (hkl : k = j ∨ l = .transitions) :
    Succeeds (run.insert op k s) fun x => Kept g j run x.2 := by
  obtain ⟨new, c, hins, heq⟩ := run.insert_eq op hl (Nat.le_trans hk (Nat.le_of_lt hj))
  exact ⟨_, heq, h.inserted hins hl hr hi, hins.grows hk (Nat.le_of_lt hj) hkl⟩

theorem insert_normal_kept (run : Parse σ) (h : run.chart.Ranged g) (hj : j < run.chart.size) (op : Operation)
    {r : DottedRule} {i : Nat} (node : Option ForestNode) (hr : g.HasRule r) (hi : i ≤ j) :
    Succeeds (run.insert op j (.normal r i node)) fun x => Kept g j run x.2 := by
  obtain ⟨l, hl, -⟩ := Item.exists_lane (i := ⟨r, i, .normal⟩) rfl
  exact insert_kept h hj op (s := .normal r i node) hl hr hi (Nat.le_refl j) (.inl rfl)

theorem begin_kept (h : run.chart.Ranged g) (hj : j < run.chart.size) (op : Operation) {rules : List DottedRule}
    (hr : ∀ r ∈ rules, g.HasRule r) : Succeeds (run.begin op j rules) (Kept g j run) := by
  have hfold : Succeeds (rules.foldlM (Parse.beginRule op j) run) fun run' => Kept g j run run' ∧ ∀ r ∈ rules, True := by
    refine Succeeds.foldlM .trans .right (fun _ _ => trivial) (.refl h) fun run₁ hk r hmem => ?_
    have hins := insert_normal_kept { run₁ with table := run₁.table.intern r } hk.ranged (hk.lt_size hj) op none
      (hr r hmem) (Nat.le_refl j)
    exact hins.bind fun x hx => .pure ⟨⟨hx.ranged, hx.grows⟩, trivial⟩
  exact hfold.mono fun _ h => h.1

theorem attach_kept (run : Parse σ) (h : run.chart.Ranged p.grammar) (hj : j < run.chart.size) (op : Operation)
    (move : DotMove) (hr : p.grammar.HasRule move.rule) (hi : move.origin ≤ j) (hmj : move.location = j) :
    Succeeds (p.attach run op move) (Kept p.grammar j run) := by
  subst hmj
  have hins := insert_normal_kept { run with forest := (p.builder.attach move run.forest).2 } h hj op
    (p.builder.attach move run.forest).1 hr hi
  exact hins.bind fun x hx => .pure ⟨hx.ranged, hx.grows⟩

theorem advance_kept (h : run.chart.Ranged p.grammar) (hj : j < run.chart.size) (op : Operation) {s : State}
    (crossed : Crossing) (hr : p.grammar.HasRule s.rule) (hi : s.origin ≤ j) :
    Succeeds (p.advance run op j s crossed) (Kept p.grammar j run) := by
  unfold advance
  cases ha : s.rule.advance? with
  | none => exact .pure (.refl h)
  | some r =>
    have hattach := attach_kept { run with table := run.table.intern r } h hj op ⟨r, s.origin, j, s.node, crossed⟩
      (hr.advance? ha) hi rfl
    exact hattach.mono fun _ hk => ⟨hk.ranged, hk.grows⟩

theorem predict_kept (h : run.chart.Ranged p.grammar) (hj : j < run.chart.size) {s : State}
    (hs : s ∈ run.chart.lane j .predictions) : Succeeds (p.predict run j s) (Kept p.grammar j run) := by
  unfold predict
  split
  · exact .pure (.refl h)
  · refine (begin_kept h hj .predict fun r hr => (Grammar.HasRule.of_mem_initialRules hr).1).bind fun run₁ hk => ?_
    split
    · refine (advance_kept hk.ranged (hk.lt_size hj) .predict _ (h.hasRule hs) (h.origin_le hs)).mono fun _ hk' => ?_
      exact hk.trans hk'
    · exact .pure hk

/-- A complete rule with an origin up to `k`, as there may be at the top of a path. -/
structure TopInRange (g : Grammar) (k : Nat) (t : DottedRule × Nat) : Prop where
  isComplete : t.1.isComplete = true
  hasRule : g.HasRule t.1
  origin_le : t.2 ≤ k

theorem addTransition_kept (h : run.chart.Ranged g) (hj : j < run.chart.size) (A : NonTerminal) {k : Nat} (hk : k ≤ j)
    {t : DottedRule × Nat} (ht : TopInRange g k t) : Succeeds (addTransition run A k t.1 t.2) (Kept g j run) := by
  have hl : (State.transitive A t.1 t.2).lane = .ok .transitions :=
    Item.lane_eq_transitions_iff.2 ⟨⟨A, rfl⟩, ht.isComplete⟩
  refine (insert_kept h hj .transition hl ht.hasRule ht.origin_le hk (.inr rfl)).bind ?_
  rintro ⟨new, run₁⟩ hk₁
  cases new <;> exact .pure ⟨hk₁.ranged, hk₁.grows⟩

/-- The recursion climbs from set to earlier set, and what it finds is in range. -/
theorem memoize_kept (h : run.chart.Ranged p.grammar) (hj : j < run.chart.size) (A : NonTerminal) {k : Nat}
    (hk : k ≤ j) : Succeeds (p.memoize run A k) fun x => Kept p.grammar j run x.2 ∧
      ∀ t, x.1 = some t → TopInRange p.grammar k t := by
  induction k using Nat.strongRecOn generalizing A run with
  | _ k ih =>
    obtain ⟨set, hset, hget, hlane⟩ := Chart.exists_set (Nat.lt_of_le_of_lt hk hj)
    rw [memoize]
    refine .bind_ok hget ?_
    cases ht : set.transition? A with
    | some t =>
      have hmem : t ∈ run.chart.lane k .transitions := hlane .transitions ▸ List.mem_of_find?_eq_some ht
      refine .pure ⟨.refl h, ?_⟩
      rintro _ ⟨rfl⟩
      exact ⟨(Item.lane_eq_transitions_iff.1 (h.lane_ok hmem)).2, h.hasRule hmem, h.origin_le hmem⟩
    | none =>
      cases hs : set.soleWaiting? A with
      | none => exact .pure ⟨.refl h, by simp⟩
      | some s =>
        have hsole : run.chart.waiting k A = [s] :=
          Chart.soleWaiting?_eq_some_iff.1 (by rw [hset, Option.bind_some, hs])
        have hmem : s ∈ run.chart.lane k .predictions :=
          (Chart.mem_waiting.1 (show s ∈ run.chart.waiting k A by simp [hsole])).1
        dsimp only
        cases ha : s.rule.advance? with
        | none => exact .pure ⟨.refl h, by simp⟩
        | some rule =>
          dsimp only
          split
          · rename_i hc
            have hself : TopInRange p.grammar k (rule, s.origin) := ⟨hc, (h.hasRule hmem).advance? ha, h.origin_le hmem⟩
            have hclimb : Succeeds (if _h : s.origin < k ∧ ¬(s.origin = 0 ∧ rule.lhs = p.grammar.start) then
                p.memoize { run with table := run.table.intern rule } rule.lhs s.origin
                else .ok (none, { run with table := run.table.intern rule }))
                fun x => Kept p.grammar j run x.2 ∧ TopInRange p.grammar k (x.1.getD (rule, s.origin)) := by
              split
              · rename_i hcl
                have hup := @ih s.origin hcl.1 { run with table := run.table.intern rule } h hj rule.lhs (by omega)
                refine hup.mono fun x ⟨hx, htop⟩ => ⟨⟨hx.ranged, hx.grows⟩, ?_⟩
                cases hx₁ : x.1 with
                | none => exact hself
                | some t =>
                  obtain ⟨htc, htr, hto⟩ := htop t hx₁
                  exact ⟨htc, htr, Nat.le_trans hto (Nat.le_of_lt hcl.1)⟩
              · exact .pure ⟨⟨h, .refl j run.chart⟩, hself⟩
            refine hclimb.bind fun x ⟨hx, htop⟩ => ?_
            refine (addTransition_kept hx.ranged (hx.lt_size hj) A hk htop).bind fun run₂ hk₂ => ?_
            refine .pure ⟨hx.trans hk₂, ?_⟩
            rintro _ ⟨rfl⟩
            exact htop
          · exact .pure ⟨⟨h, .refl j run.chart⟩, by simp⟩

/-! ## Loops end -/

/-- The cursor reaches the end of what waits, also when that becomes more meanwhile. -/
theorem advanceWaiting_kept {A : NonTerminal} {k fuel i : Nat} (crossed : Crossing) (h : run.chart.Ranged p.grammar)
    (hj : j < run.chart.size) (hk : k ≤ j) (hfuel : p.grammar.stateBound j < fuel + i)
    (hi : i ≤ (run.chart.waiting k A).length) :
    Succeeds (p.advanceWaiting A k j crossed fuel i run) (Kept p.grammar j run) := by
  induction fuel generalizing i run with
  | zero =>
    have hlen := h.length_waiting_le k A
    have hmono : p.grammar.stateBound k ≤ p.grammar.stateBound j := Nat.mul_le_mul_left _ (by omega)
    omega
  | succ fuel ih =>
    obtain ⟨set, hset, hget, -⟩ := Chart.exists_set (Nat.lt_of_le_of_lt hk hj)
    rw [advanceWaiting]
    refine .bind_ok hget ?_
    rw [← Chart.waiting_eq hset]
    cases hs : (run.chart.waiting k A)[i]? with
    | none => exact .pure (.refl h)
    | some s =>
      have hmem := (Chart.mem_waiting.1 (List.mem_of_getElem? hs)).1
      have hle : s.origin ≤ j := Nat.le_trans (h.origin_le hmem) hk
      refine (advance_kept h hj .complete crossed (h.hasRule hmem) hle).bind fun run₁ hk₁ => ?_
      have hlt := (List.getElem?_eq_some_iff.1 hs).1
      have hpre : run.chart.waiting k A <+: run₁.chart.waiting k A := (hk₁.grows.lane_le k _).filter _
      have hlen := hpre.length_le
      exact (ih hk₁.ranged (hk₁.lt_size hj) (by omega) (by omega)).mono fun _ => hk₁.trans

theorem complete_kept (h : run.chart.Ranged p.grammar) (hj : j < run.chart.size) {s : State}
    (hs : s ∈ run.chart.lane j .completions) : Succeeds (p.complete run j s) (Kept p.grammar j run) := by
  have hle : s.origin ≤ j := h.origin_le hs
  have hstepwise : ∀ run₁, Kept p.grammar j run run₁ → Succeeds (p.completeStepwise run₁ j s) (Kept p.grammar j run) :=
    fun run₁ hk => (advanceWaiting_kept _ hk.ranged (hk.lt_size hj) hle (by omega) (Nat.zero_le _)).mono fun _ => hk.trans
  unfold complete
  split
  · refine (memoize_kept h hj s.rule.lhs hle).bind fun x ⟨hk, _⟩ => ?_
    obtain ⟨set, -, hget, hlane⟩ := Chart.exists_set (Nat.lt_of_le_of_lt hle (hk.lt_size hj))
    refine .bind_ok hget ?_
    cases ht : set.transition? s.rule.lhs with
    | some t =>
      have hmem : t ∈ x.2.chart.lane s.origin .transitions := hlane .transitions ▸ List.mem_of_find?_eq_some ht
      have hto : t.origin ≤ j := Nat.le_trans (hk.ranged.origin_le hmem) hle
      exact (attach_kept x.2 hk.ranged (hk.lt_size hj) .complete _ (hk.ranged.hasRule hmem) hto rfl).mono fun _ => hk.trans
    | none => exact hstepwise x.2 hk
  · exact hstepwise run (.refl h)

/-- Each step moves one of the two cursors on, in queues that together are no longer
than what the set can hold. -/
theorem reduceFrom_kept {fuel c q : Nat} (h : run.chart.Ranged p.grammar) (hj : j < run.chart.size)
    (hfuel : p.grammar.stateBound j < fuel + (c + q)) (hc : c ≤ (run.chart.lane j .completions).length)
    (hq : q ≤ (run.chart.lane j .predictions).length) :
    Succeeds (p.reduceFrom j fuel c q run) (Kept p.grammar j run) := by
  induction fuel generalizing c q run with
  | zero =>
    have := h.length_queues_le j
    omega
  | succ fuel ih =>
    obtain ⟨set, -, hget, hlane⟩ := Chart.exists_set hj
    rw [reduceFrom]
    refine .bind_ok hget ?_
    split
    · rename_i s hs
      have hs : (run.chart.lane j .completions)[c]? = some s := hlane .completions ▸ hs
      have hlt := (List.getElem?_eq_some_iff.1 hs).1
      refine (complete_kept h hj (List.mem_of_getElem? hs)).bind fun run₁ hk => ?_
      have hlenc := (hk.grows.lane_le j .completions).length_le
      have hlenq := (hk.grows.lane_le j .predictions).length_le
      exact (ih hk.ranged (hk.lt_size hj) (by omega) (by omega) (by omega)).mono fun _ => hk.trans
    · rename_i s _ hs
      have hs : (run.chart.lane j .predictions)[q]? = some s := hlane .predictions ▸ hs
      have hlt := (List.getElem?_eq_some_iff.1 hs).1
      refine (predict_kept h hj (List.mem_of_getElem? hs)).bind fun run₁ hk => ?_
      have hlenc := (hk.grows.lane_le j .completions).length_le
      have hlenq := (hk.grows.lane_le j .predictions).length_le
      exact (ih hk.ranged (hk.lt_size hj) (by omega) (by omega) (by omega)).mono fun _ => hk.trans
    · exact .pure (.refl h)

theorem reduces_of_ranged (h : run.chart.Ranged p.grammar) (hj : j < run.chart.size) :
    ∃ run', p.reduce run j = .ok run' ∧ Reduces p j 0 0 run run' ∧ Kept p.grammar j run run' := by
  have hreduce : Succeeds (p.reduce run j) (Kept p.grammar j run) :=
    reduceFrom_kept h hj (by omega) (Nat.zero_le _) (Nat.zero_le _)
  obtain ⟨run', hrun, hk⟩ := hreduce
  exact ⟨run', hrun, reduces_of_ok hrun, hk⟩

end Parser

end ChartParser
