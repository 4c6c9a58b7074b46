import ChartParser.Frame.Closure
/-!
# What the closures of dotted rules hold

Both closures hold what they start from and all that follows, and nothing else:
a property that passes from rules to what follows from them holds of the whole
closure (`skipClosure_induction`, `predictions_induction`).
-/
namespace ChartParser.Grammar

variable {g : Grammar}

/-- With every rule, its nullable moves. -/
def SkipClosed (g : Grammar) (rules : List DottedRule) : Prop :=
  ∀ r ∈ rules, ∀ r', g.skip? r = some r' → r' ∈ rules

/-- With every rule, the productions of the non-terminal it waits for. -/
def PredictClosed (g : Grammar) (rules : List DottedRule) : Prop :=
  ∀ r ∈ rules, ∀ A, r.postDotNonTerminal? = some A → ∀ r' ∈ g.initialRules A, r' ∈ rules

/-! ## Nullable moves -/

theorem subset_closeSkips (done pending : List DottedRule) :
    ∀ r ∈ done ++ pending, r ∈ g.closeSkips done pending := by
  fun_induction closeSkips g done pending with
  | case1 done => simp
  | case2 done r pending _ ih => exact fun x hx => ih x (by simpa using hx)
  | case3 done r pending r' _ _ ih => exact fun x hx => ih x (by simpa using hx)
  | case4 done r pending r' _ _ ih =>
    intro x hx
    have hx' : x ∈ (done ++ r :: pending) ++ [r'] := List.mem_append_left _ hx
    exact ih x (by simpa using hx')

/-- The nullable moves of the rules that are done are done or pending. -/
theorem closeSkips_closed (done pending : List DottedRule)
    (hdone : ∀ r ∈ done, ∀ r', g.skip? r = some r' → r' ∈ done ++ pending) :
    g.SkipClosed (g.closeSkips done pending) := by
  fun_induction closeSkips g done pending with
  | case1 done => simpa [SkipClosed] using hdone
  | case2 done r pending hr ih =>
    apply ih
    intro x hx x' hx'
    rcases List.mem_append.1 hx with hx | hx
    · simpa using hdone x hx x' hx'
    · rw [List.mem_singleton.1 hx, hr] at hx'
      cases hx'
  | case3 done r pending r' hr hmem ih =>
    apply ih
    intro x hx x' hx'
    rcases List.mem_append.1 hx with hx | hx
    · simpa using hdone x hx x' hx'
    · rw [List.mem_singleton.1 hx, hr, Option.some.injEq] at hx'
      simpa [← hx'] using hmem
  | case4 done r pending r' hr hmem ih =>
    apply ih
    intro x hx x' hx'
    rcases List.mem_append.1 hx with hx | hx
    · have hin : x' ∈ (done ++ r :: pending) ++ [r'] := List.mem_append_left _ (hdone x hx x' hx')
      simpa using hin
    · rw [List.mem_singleton.1 hx, hr, Option.some.injEq] at hx'
      simp [← hx']

theorem closeSkips_induction {P : DottedRule → Prop} (hskip : ∀ r r', P r → g.skip? r = some r' → P r')
    (done pending : List DottedRule) (h : ∀ r ∈ done ++ pending, P r) : ∀ r ∈ g.closeSkips done pending, P r := by
  fun_induction closeSkips g done pending with
  | case1 done => simpa using h
  | case2 done r pending _ ih => exact ih (by simpa using h)
  | case3 done r pending r' _ _ ih => exact ih (by simpa using h)
  | case4 done r pending r' hr _ ih =>
    have hr' : P r' := hskip r r' (h r (by simp)) hr
    apply ih
    intro x hx
    simp only [List.mem_append, List.mem_cons, List.not_mem_nil, or_false] at hx h
    rcases hx with (hx | rfl) | hx | rfl
    · exact h x (.inl hx)
    · exact h x (.inr (.inl rfl))
    · exact h x (.inr (.inr hx))
    · exact hr'

theorem subset_skipClosure {rules : List DottedRule} : ∀ r ∈ rules, r ∈ g.skipClosure rules :=
  subset_closeSkips [] rules

theorem skipClosure_closed (rules : List DottedRule) : g.SkipClosed (g.skipClosure rules) :=
  closeSkips_closed [] rules (by simp)

theorem skipClosure_induction {P : DottedRule → Prop} {rules : List DottedRule} (h : ∀ r ∈ rules, P r)
    (hskip : ∀ r r', P r → g.skip? r = some r' → P r') : ∀ r ∈ g.skipClosure rules, P r :=
  closeSkips_induction hskip [] rules h

theorem mem_skips_self (r : DottedRule) : r ∈ g.skips r := by
  rw [skips]
  split <;> simp

theorem skips_closed (r : DottedRule) : g.SkipClosed (g.skips r) := by
  fun_induction skips g r with
  | case1 r h =>
    intro x hx x' hx'
    rw [List.mem_singleton.1 hx, h] at hx'
    cases hx'
  | case2 r r' h ih =>
    intro x hx x' hx'
    rcases List.mem_cons.1 hx with rfl | hx
    · rw [h, Option.some.injEq] at hx'
      exact List.mem_cons_of_mem _ (hx' ▸ mem_skips_self r')
    · exact List.mem_cons_of_mem _ (ih x hx x' hx')

theorem skips_induction {P : DottedRule → Prop} (hskip : ∀ r r', P r → g.skip? r = some r' → P r') {r : DottedRule}
    (h : P r) : ∀ x ∈ g.skips r, P x := by
  fun_induction skips g r with
  | case1 r _ => simpa using h
  | case2 r r' hr ih =>
    intro x hx
    rcases List.mem_cons.1 hx with rfl | hx
    · exact h
    · exact ih (hskip r r' h hr) x hx

/-! ## Predictions -/

theorem mem_leadingRules {A : NonTerminal} {r : DottedRule} :
    r ∈ g.leadingRules A ↔ ∃ r₀ ∈ g.initialRules A, r ∈ g.skips r₀ :=
  List.mem_flatMap

/-- What is in line, and what the result waits for, has been expanded. -/
theorem expandPredictions_closed (expanded line : List NonTerminal) (A : NonTerminal)
    (hA : A ∈ line ∨ ∃ r ∈ g.expandPredictions expanded line, r.postDotNonTerminal? = some A) :
    A ∈ expanded ∨ ∀ r ∈ g.leadingRules A, r ∈ g.expandPredictions expanded line := by
  fun_induction expandPredictions g expanded line with
  | case1 expanded line h =>
    rcases hA with hA | ⟨r, hr, -⟩
    · -- Nothing in line is left to expand, so what was not expanded has no productions.
      have hno := List.find?_eq_none.1 h A hA
      by_cases hexp : A ∈ expanded
      · exact .inl hexp
      · refine .inr fun r hr => ?_
        obtain ⟨r₀, hr₀, -⟩ := mem_leadingRules.1 hr
        obtain ⟨i, q, hi, hlhs, -⟩ := mem_initialRules.1 hr₀
        have hdef : defines g.productions A = true := defines_iff.2 ⟨q, List.mem_of_getElem? hi, hlhs⟩
        simp [hexp, hdef] at hno
    · cases hr
  | case2 expanded line B h ih =>
    have hin : A ∈ ((g.leadingRules B).filterMap DottedRule.postDotNonTerminal?).reverse ++ line ∨
        ∃ r ∈ g.expandPredictions (B :: expanded)
          (((g.leadingRules B).filterMap DottedRule.postDotNonTerminal?).reverse ++ line),
          r.postDotNonTerminal? = some A := by
      rcases hA with hA | ⟨r, hr, hrA⟩
      · exact .inl (List.mem_append_right _ hA)
      · rcases List.mem_append.1 hr with hr | hr
        · exact .inl (List.mem_append_left _ (List.mem_reverse.2 (List.mem_filterMap.2 ⟨r, hr, hrA⟩)))
        · exact .inr ⟨r, hr, hrA⟩
    rcases ih hin with hexp | hall
    · rcases List.mem_cons.1 hexp with rfl | hexp
      · exact .inr fun r hr => List.mem_append_left _ hr
      · exact .inl hexp
    · exact .inr fun r hr => List.mem_append_right _ (hall r hr)

theorem expandPredictions_induction {P : DottedRule → Prop} (expanded line : List NonTerminal)
    (hline : ∀ A ∈ line, ∀ r ∈ g.leadingRules A, P r)
    (hwait : ∀ r A, P r → r.postDotNonTerminal? = some A → ∀ r' ∈ g.leadingRules A, P r') :
    ∀ r ∈ g.expandPredictions expanded line, P r := by
  fun_induction expandPredictions g expanded line with
  | case1 => simp
  | case2 expanded line B h ih =>
    have hB : ∀ r ∈ g.leadingRules B, P r := hline B (List.mem_of_find?_eq_some h)
    intro r hr
    rcases List.mem_append.1 hr with hr | hr
    · exact hB r hr
    · refine ih (fun A hA => ?_) r hr
      rcases List.mem_append.1 hA with hA | hA
      · obtain ⟨x, hx, hxA⟩ := List.mem_filterMap.1 (List.mem_reverse.1 hA)
        exact hwait x A (hB x hx) hxA
      · exact hline A hA

/-- Every leading rule comes with its nullable moves. -/
theorem expandPredictions_skipClosed (expanded line : List NonTerminal) :
    g.SkipClosed (g.expandPredictions expanded line) := by
  fun_induction expandPredictions g expanded line with
  | case1 => simp [SkipClosed]
  | case2 expanded line B h ih =>
    intro x hx x' hx'
    rcases List.mem_append.1 hx with hx | hx
    · obtain ⟨r₀, hr₀, hx⟩ := mem_leadingRules.1 hx
      exact List.mem_append_left _ (mem_leadingRules.2 ⟨r₀, hr₀, skips_closed r₀ x hx x' hx'⟩)
    · exact List.mem_append_right _ (ih x hx x' hx')

theorem predictions_skipClosed (rules : List DottedRule) : g.SkipClosed (g.predictions rules) :=
  expandPredictions_skipClosed _ _

/-- What the rules or their predictions wait for is among the predictions. -/
theorem mem_predictions {rules : List DottedRule} {r r' : DottedRule} {A : NonTerminal}
    (hr : r ∈ rules ∨ r ∈ g.predictions rules) (hA : r.postDotNonTerminal? = some A) (hr' : r' ∈ g.initialRules A) :
    r' ∈ g.predictions rules := by
  have hin : A ∈ (rules.filterMap DottedRule.postDotNonTerminal?).reverse ∨
      ∃ x ∈ g.predictions rules, x.postDotNonTerminal? = some A := by
    rcases hr with hr | hr
    · exact .inl (List.mem_reverse.2 (List.mem_filterMap.2 ⟨r, hr, hA⟩))
    · exact .inr ⟨r, hr, hA⟩
  rcases expandPredictions_closed [] _ A hin with h | h
  · cases h
  · exact h r' (mem_leadingRules.2 ⟨r', hr', mem_skips_self r'⟩)

theorem predictions_predictClosed (rules : List DottedRule) : g.PredictClosed (g.predictions rules) :=
  fun _ hr _ hA _ hr' => mem_predictions (.inr hr) hA hr'

theorem predictions_induction {P : DottedRule → Prop} {rules : List DottedRule}
    (hrules : ∀ r ∈ rules, ∀ A, r.postDotNonTerminal? = some A → ∀ r' ∈ g.initialRules A, P r')
    (hwait : ∀ r A, P r → r.postDotNonTerminal? = some A → ∀ r' ∈ g.initialRules A, P r')
    (hskip : ∀ r r', P r → g.skip? r = some r' → P r') : ∀ r ∈ g.predictions rules, P r := by
  have hleading : ∀ A, (∀ r' ∈ g.initialRules A, P r') → ∀ r' ∈ g.leadingRules A, P r' := by
    intro A hA r' hr'
    obtain ⟨r₀, hr₀, hr'⟩ := mem_leadingRules.1 hr'
    exact skips_induction hskip (hA r₀ hr₀) r' hr'
  refine expandPredictions_induction [] _ (fun A hA => ?_) fun r A hr hA => hleading A (hwait r A hr hA)
  obtain ⟨r, hr, hA⟩ := List.mem_filterMap.1 (List.mem_reverse.1 hA)
  exact hleading A (hrules r hr A hA)

end ChartParser.Grammar
