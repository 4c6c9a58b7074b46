import ChartParser.Proofs.Parser.Steps
import ChartParser.Proofs.Success
/-!
# Single steps of a parse

A step inserts deducible states into the set at one location. It succeeds, the
chart stays sound and only grows, and the states it was to insert are there
afterwards.
-/
namespace ChartParser

variable {σ : Type} {p : Parser σ} {g : Grammar} {input : List (List Token)} {j : Nat}

/-- `run'` comes from `run` by steps at location `j` that keep the chart sound. -/
structure Extends (p : Parser σ) (input : List (List Token)) (j : Nat) (run run' : Parse σ) : Prop where
  sound : Sound p.grammar input j run'.chart
  grows : run.chart.Grows j run'.chart
  steps : Steps p input j run run'
  location_eq : run'.location = run.location
  expectations_eq : run'.expectations = run.expectations

namespace Extends

variable {run run' run'' : Parse σ}

theorem refl (h : Sound p.grammar input j run.chart) : Extends p input j run run :=
  ⟨h, .refl j run.chart, .refl, rfl, rfl⟩

theorem trans (h : Extends p input j run run') (h' : Extends p input j run' run'') : Extends p input j run run'' :=
  ⟨h'.sound, h.grows.trans h'.grows, h.steps.trans h'.steps, h'.location_eq.trans h.location_eq,
    h'.expectations_eq.trans h.expectations_eq⟩

theorem right (h : Extends p input j run run') : Extends p input j run' run' := .refl h.sound

/-- A rule of the grammar may be entered first. -/
theorem of_intern {r : DottedRule} (hr : p.grammar.HasRule r)
    (h : Extends p input j { run with table := run.table.intern r } run') : Extends p input j run run' :=
  ⟨h.sound, h.grows, .head (.enter hr) h.steps, h.location_eq, h.expectations_eq⟩

theorem intern (h : Sound p.grammar input j run.chart) {r : DottedRule} (hr : p.grammar.HasRule r) :
    Extends p input j run { run with table := run.table.intern r } :=
  of_intern hr (refl h)

theorem lt_size (h : Extends p input j run run') {k : Nat} (hk : k < run.chart.size) : k < run'.chart.size :=
  Nat.lt_of_lt_of_le hk h.grows.size_le

end Extends

/-! ## Insertions -/

theorem Parse.insert_eq (run : Parse σ) (op : Operation) {k : Nat} {s : State} {l : Lane} (hl : s.lane = .ok l)
    (hk : k ≤ run.chart.size) : ∃ new c, run.chart.Inserted k l s new c ∧ run.insert op k s = .ok (new,
      { run with
        chart := c
        journal := if new then run.journal.push (.inserted op k s.toItem) else run.journal }) := by
  obtain ⟨new, c, hc, hins⟩ := Chart.insert_spec hl hk
  refine ⟨new, c, hins, ?_⟩
  unfold insert
  cases new <;> simp [hc]

/-- What the insertion of a deducible item leaves as it was, and what not. -/
structure Parse.Gained (g : Grammar) (input : List (List Token)) (j : Nat) (r : DottedRule) (i : Nat)
    (run run' : Parse σ) : Prop where
  sound : Sound g input j run'.chart
  grows : run.chart.Grows j run'.chart
  holds : run'.chart.Holds j r i
  location_eq : run'.location = run.location
  expectations_eq : run'.expectations = run.expectations

/-- A deducible item can be inserted. -/
theorem Parse.insert_normal (run : Parse σ) (h : Sound g input j run.chart) (op : Operation) {r : DottedRule}
    {i : Nat} (hd : Deducible g input r i j) (node : Option ForestNode) :
    ∃ new run', run.insert op j (.normal r i node) = .ok (new, run') ∧ Gained g input j r i run run' := by
  obtain ⟨l, hl, -⟩ := Item.exists_lane (i := ⟨r, i, .normal⟩) rfl
  obtain ⟨new, c, hins, heq⟩ := run.insert_eq op (s := .normal r i node) hl h.le_size
  obtain ⟨hs, hg, hr⟩ := h.insert_normal hd hl hins
  exact ⟨new, _, heq, hs, hg, hr, rfl, rfl⟩

theorem Parse.begin_spec (run : Parse σ) (h : Sound p.grammar input j run.chart) (op : Operation)
    {rules : List DottedRule} (hb : ∀ r ∈ rules, Begins p.grammar run.chart j r) :
    Succeeds (run.begin op j rules) fun run' =>
      Extends p input j run run' ∧ ∀ r ∈ rules, run'.chart.Holds j r j := by
  refine Succeeds.foldlM .trans .right (fun he hr => he.grows.holds hr) (.refl h) fun run₁ he r hr => ?_
  have hbegins := (hb r hr).grows he.grows
  obtain ⟨new, run₂, heq, hx⟩ := Parse.insert_normal { run₁ with table := run₁.table.intern r } he.sound op
    (hbegins.deducible he.sound) none
  have hstep : Step p input j { run₁ with table := run₁.table.intern r } run₂ :=
    .begin hbegins (RuleTable.mem_intern.2 (.inr rfl)) heq
  have hext : Extends p input j { run₁ with table := run₁.table.intern r } run₂ :=
    ⟨hx.sound, hx.grows, .single hstep, hx.location_eq, hx.expectations_eq⟩
  exact .bind_ok heq (.pure ⟨hext.of_intern (hbegins.deducible he.sound).hasRule, hx.holds⟩)

namespace Parser

variable {run : Parse σ}

theorem attach_spec (run : Parse σ) (h : Sound p.grammar input j run.chart) (op : Operation) {move : DotMove}
    (hm : Warranted p input run.chart j move) (hknown : run.Knows move.rule) :
    Succeeds (p.attach run op move) fun run' =>
      Extends p input j run run' ∧ run'.chart.Holds j move.rule move.origin := by
  have hd := hm.deducible h
  obtain ⟨new, run', heq, hx⟩ := Parse.insert_normal
    { run with forest := (p.builder.attach move run.forest).2 } h op hd (p.builder.attach move run.forest).1
  have hattach : p.attach run op move = .ok run' := by
    unfold attach
    simp only [hm.location_eq, heq, bind, Except.bind]
    rfl
  exact ⟨run', hattach, ⟨hx.sound, hx.grows, .single (.move hm hknown hattach), hx.location_eq, hx.expectations_eq⟩,
    hx.holds⟩

/-- Moving a dot inserts the moved rule, where there is one. -/
theorem advance_spec (h : Sound p.grammar input j run.chart) (op : Operation) {s : State} {crossed : Crossing}
    (hm : ∀ r, s.rule.advance? = some r →
      Warranted p input run.chart j ⟨r, s.origin, j, s.node, crossed⟩) :
    Succeeds (p.advance run op j s crossed) fun run' => Extends p input j run run' ∧
      ∀ r, s.rule.advance? = some r → run'.chart.Holds j r s.origin := by
  unfold advance
  cases hr : s.rule.advance? with
  | none => exact .pure ⟨.refl h, by simp⟩
  | some r =>
    have hattach := attach_spec { run with table := run.table.intern r } h op (hm r hr)
      (.inl (RuleTable.mem_intern.2 (.inr rfl)))
    refine hattach.mono fun run' ⟨he, hh⟩ => ⟨he.of_intern ((hm r hr).deducible h).hasRule, ?_⟩
    rintro _ ⟨rfl⟩
    exact hh

/-! ## Prediction -/

/-- What the prediction `s` brings in is in the set at `j`. -/
def Predicted (g : Grammar) (c : Chart ItemSet) (j : Nat) (s : State) : Prop :=
  (∀ A, s.rule.postDot? = some (.nonTerminal A) → ∀ r ∈ g.initialRules A, c.Holds j r j) ∧
    ∀ r, g.skip? s.rule = some r → c.Holds j r s.origin

theorem Predicted.grows {c c' : Chart ItemSet} {k : Nat} {s : State} (h : Predicted g c k s) (hg : c.Grows j c') :
    Predicted g c' k s :=
  ⟨fun A hA r hr => hg.holds (h.1 A hA r hr), fun r hr => hg.holds (h.2 r hr)⟩

theorem predict_spec (h : Sound p.grammar input j run.chart) {s : State}
    (hs : s ∈ run.chart.lane j .predictions) :
    Succeeds (p.predict run j s) fun run' =>
      Extends p input j run run' ∧ Predicted p.grammar run'.chart j s := by
  unfold predict
  cases hA : s.rule.postDotNonTerminal? with
  | none =>
    refine .pure ⟨.refl h, fun A hA' => ?_, fun r hr => ?_⟩
    · rw [← DottedRule.postDotNonTerminal?_eq_some_iff, hA] at hA'
      cases hA'
    · simp [Grammar.skip?, hA] at hr
  | some A =>
    have hpost := DottedRule.postDotNonTerminal?_eq_some_iff.1 hA
    have hwaits : s ∈ run.chart.waiting j A := Chart.mem_waiting.2 ⟨hs, hpost⟩
    refine (Parse.begin_spec run h .predict fun r hr => .predict hwaits hr).bind ?_
    rintro run₁ ⟨he, hinit⟩
    have hinit' : ∀ B, s.rule.postDot? = some (.nonTerminal B) →
        ∀ r ∈ p.grammar.initialRules B, run₁.chart.Holds j r j := by
      intro B hB
      rw [hpost, Option.some.injEq, Symbol.nonTerminal.injEq] at hB
      exact hB ▸ hinit
    split
    · rename_i hn
      refine (advance_spec he.sound .predict fun r hr => .skip (he.grows.mem_waiting hwaits) hn hr).mono ?_
      rintro run₂ ⟨he₂, hmove⟩
      exact ⟨he.trans he₂, fun B hB r hr => he₂.grows.holds (hinit' B hB r hr),
        fun r hr => hmove r (Grammar.advance?_of_skip? hr)⟩
    · rename_i hn
      exact .pure ⟨he, hinit', fun r hr => by simp [Grammar.skip?, hA, hn] at hr⟩

/-! ## Memoized paths -/

theorem addTransition_spec (h : Sound p.grammar input j run.chart) (hleo : p.leo = true) {k i : Nat}
    {A : NonTerminal} {r : DottedRule} (hpath : OnPath p.grammar.start run.chart j A k)
    (ht : run.chart.top? p.grammar.start A k = some (r, i))
    (habove : run.chart.MemoizedAbove p.grammar.start A k) (hknown : run.Knows r) :
    Succeeds (addTransition run A k r i) fun run' => Extends p input j run run' ∧
      ∃ t ∈ run'.chart.lane k .transitions, t.kind = .transitive A := by
  have hl : (State.transitive A r i).lane = .ok .transitions :=
    Item.lane_eq_transitions_iff.2 ⟨⟨A, rfl⟩, Chart.isComplete_of_top? ht⟩
  have hk := hpath.lt
  obtain ⟨new, c, hins, heq⟩ := run.insert_eq .transition hl (Nat.le_trans (Nat.le_of_lt hk) h.le_size)
  obtain ⟨hs, hg, hmem⟩ := h.insert_transitive hk ht hl hins
  have hadd : addTransition run A k r i = .ok
      { run with
        chart := c
        journal := if new then run.journal.push (.inserted .transition k (State.transitive A r i).toItem) else run.journal
        memoized := if new then run.memoized + 1 else run.memoized } := by
    unfold addTransition
    simp only [heq, bind, Except.bind]
    cases new <;> rfl
  exact ⟨_, hadd, ⟨hs, hg, .single (.memoize hleo hpath ht habove hknown hadd), rfl, rfl⟩, hmem⟩

end Parser

/-! ## Runs of steps -/

/-- What a step from `run` to `run'` does: nothing that shows in the chart, or one
insertion, with what warrants it. Only a move is shown to the forest builder, whose
answer the state carries, and only a memoized path that is new is counted. -/
inductive Step.Effect (p : Parser σ) (input : List (List Token)) (j : Nat) (run run' : Parse σ) : Prop
  | idle (hchart : run'.chart = run.chart) (hforest : run'.forest = run.forest)
    (hmemoized : run'.memoized = run.memoized)
  | begin {r : DottedRule} {l : Lane} {new : Bool} (hr : Begins p.grammar run.chart j r) (hknown : run.Knows r)
    (hl : (State.normal r j none).lane = .ok l) (hins : run.chart.Inserted j l (.normal r j none) new run'.chart)
    (hforest : run'.forest = run.forest) (hmemoized : run'.memoized = run.memoized)
  | move {m : DotMove} {l : Lane} {new : Bool} {node : Option ForestNode} (hm : Warranted p input run.chart j m)
    (hknown : run.Knows m.rule) (hl : (State.normal m.rule m.origin node).lane = .ok l)
    (hins : run.chart.Inserted j l (.normal m.rule m.origin node) new run'.chart)
    (hforest : p.builder.attach m run.forest = (node, run'.forest)) (hmemoized : run'.memoized = run.memoized)
  | memoize {A : NonTerminal} {k i : Nat} {r : DottedRule} {new : Bool} (hleo : p.leo = true)
    (hpath : OnPath p.grammar.start run.chart j A k) (htop : run.chart.top? p.grammar.start A k = some (r, i))
    (habove : run.chart.MemoizedAbove p.grammar.start A k) (hknown : run.Knows r)
    (hl : (State.transitive A r i).lane = .ok .transitions)
    (hins : run.chart.Inserted k .transitions (.transitive A r i) new run'.chart)
    (hforest : run'.forest = run.forest) (hmemoized : run'.memoized = run.memoized + if new then 1 else 0)

theorem Parse.inserted_of_insert {run run' : Parse σ} {op : Operation} {k : Nat} {s : State} {l : Lane} {new : Bool}
    (h : run.insert op k s = .ok (new, run')) (hl : s.lane = .ok l) (hk : k ≤ run.chart.size) :
    run.chart.Inserted k l s new run'.chart ∧ run'.forest = run.forest ∧ run'.memoized = run.memoized := by
  obtain ⟨new', c, hins, heq⟩ := run.insert_eq op hl hk
  cases h.symm.trans heq
  exact ⟨hins, rfl, rfl⟩

theorem Step.effect {run run' : Parse σ} (h : Step p input j run run') (hs : Sound p.grammar input j run.chart) :
    Step.Effect p input j run run' := by
  cases h with
  | note _ hchart hforest hmemoized => exact .idle hchart hforest hmemoized
  | enter => exact .idle rfl rfl rfl
  | @begin op r new _ hr hknown heq =>
    obtain ⟨l, hl, -⟩ := Item.exists_lane (i := (State.normal r j none).toItem) rfl
    obtain ⟨hins, hforest, hmemoized⟩ := Parse.inserted_of_insert heq hl hs.le_size
    exact .begin hr (.inl hknown) hl hins hforest hmemoized
  | @move op m _ hm hknown heq =>
    obtain ⟨⟨new, run₁⟩, hins, heq⟩ := bind_eq_ok_iff.1 heq
    cases heq
    rw [hm.location_eq] at hins
    obtain ⟨l, hl, -⟩ := Item.exists_lane (i := (State.normal m.rule m.origin (p.builder.attach m run.forest).1).toItem) rfl
    obtain ⟨hins, hforest, hmemoized⟩ := Parse.inserted_of_insert hins hl hs.le_size
    exact .move hm hknown hl hins (by rw [hforest]) hmemoized
  | @memoize A k i r _ hleo hpath htop habove hknown heq =>
    obtain ⟨⟨new, run₁⟩, hins, heq⟩ := bind_eq_ok_iff.1 heq
    have hl : (State.transitive A r i).lane = .ok .transitions :=
      Item.lane_eq_transitions_iff.2 ⟨⟨A, rfl⟩, Chart.isComplete_of_top? htop⟩
    obtain ⟨hins, hforest, hmemoized⟩ :=
      Parse.inserted_of_insert hins hl (Nat.le_trans (Nat.le_of_lt hpath.lt) hs.le_size)
    cases new <;> cases heq
    · exact .memoize hleo hpath htop habove hknown hl hins hforest hmemoized
    · exact .memoize hleo hpath htop habove hknown hl hins hforest (congrArg (· + 1) hmemoized)

theorem Step.keeps {run run' : Parse σ} (h : Step p input j run run') (hs : Sound p.grammar input j run.chart) :
    Sound p.grammar input j run'.chart ∧ run.chart.Grows j run'.chart := by
  cases h.effect hs with
  | idle hchart =>
    rw [hchart]
    exact ⟨hs, .refl j run.chart⟩
  | begin hr _ hl hins =>
    obtain ⟨hsound, hgrows, -⟩ := hs.insert_normal (hr.deducible hs) hl hins
    exact ⟨hsound, hgrows⟩
  | move hm _ hl hins =>
    obtain ⟨hsound, hgrows, -⟩ := hs.insert_normal (hm.deducible hs) hl hins
    exact ⟨hsound, hgrows⟩
  | memoize _ hpath htop _ _ hl hins =>
    obtain ⟨hsound, hgrows, -⟩ := hs.insert_transitive hpath.lt htop hl hins
    exact ⟨hsound, hgrows⟩

theorem Steps.keeps {run run' : Parse σ} (h : Steps p input j run run') (hs : Sound p.grammar input j run.chart) :
    Sound p.grammar input j run'.chart ∧ run.chart.Grows j run'.chart := by
  induction h with
  | refl => exact ⟨hs, .refl j run.chart⟩
  | tail _ hstep ih =>
    obtain ⟨hsound, hgrows⟩ := hstep.keeps ih.1
    exact ⟨hsound, ih.2.trans hgrows⟩

/-- What steps keep as long as the chart is sound, a run of steps keeps. -/
theorem Steps.preserve {P : Parse σ → Prop} {run run' : Parse σ} (h : Steps p input j run run')
    (hs : Sound p.grammar input j run.chart)
    (hP : ∀ {run run'}, Sound p.grammar input j run.chart → Step p input j run run' → P run → P run') (hr : P run) :
    P run' := by
  induction h with
  | refl => exact hr
  | tail hsteps hstep ih => exact hP (Steps.keeps hsteps hs).1 hstep ih

/-! ## Where states come from -/

/-- The chart has what it takes to add the state to set `k` while the set at `j` grows. -/
inductive Addable (p : Parser σ) (input : List (List Token)) (j : Nat) (c : Chart ItemSet) : Nat → State → Prop
  | begin {r : DottedRule} (hr : Begins p.grammar c j r) : Addable p input j c j (.normal r j none)
  | move {m : DotMove} {node : Option ForestNode} (hm : Warranted p input c j m) :
    Addable p input j c j (.normal m.rule m.origin node)
  | memoize {A : NonTerminal} {k i : Nat} {r : DottedRule} (hleo : p.leo = true)
    (hpath : OnPath p.grammar.start c j A k) (htop : c.top? p.grammar.start A k = some (r, i))
    (habove : c.MemoizedAbove p.grammar.start A k) : Addable p input j c k (.transitive A r i)

/-- Every state of the chart after a step was there before, or has come from what
was, with a rule that was known. -/
theorem Step.mem_cases {run run' : Parse σ} (h : Step p input j run run') (hs : Sound p.grammar input j run.chart)
    {k : Nat} {l : Lane} {s : State} (hmem : s ∈ run'.chart.lane k l) :
    s ∈ run.chart.lane k l ∨ (run.Knows s.rule ∧ Addable p input j run.chart k s) := by
  cases h.effect hs with
  | idle hchart =>
    rw [hchart] at hmem
    exact .inl hmem
  | begin hr hknown _ hins =>
    rcases hins.mem hmem with hold | ⟨rfl, -, rfl⟩
    · exact .inl hold
    · exact .inr ⟨hknown, .begin hr⟩
  | move hm hknown _ hins =>
    rcases hins.mem hmem with hold | ⟨rfl, -, rfl⟩
    · exact .inl hold
    · exact .inr ⟨hknown, .move hm⟩
  | memoize hleo hpath htop habove hknown _ hins =>
    rcases hins.mem hmem with hold | ⟨rfl, -, rfl⟩
    · exact .inl hold
    · exact .inr ⟨hknown, .memoize hleo hpath htop habove⟩

end ChartParser
