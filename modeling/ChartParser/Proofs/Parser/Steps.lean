import Mathlib.Logic.Relation
import ChartParser.Parser.Reduction
import ChartParser.Proofs.Chart.Sound
/-!
# What a parser does between two tokens

While the set at one location grows, a parser does nothing but these steps: it puts
dots in front of productions that are awaited, moves dots where a state of the
chart lets it, showing each move to the forest builder, and memoizes paths in
earlier sets. `Step` has one constructor for each, with what the parser has made
sure of before. Whatever all steps keep, a parse keeps.
-/
namespace ChartParser

variable {σ : Type} {p : Parser σ} {g : Grammar} {input : List (List Token)} {j : Nat} {c c' : Chart ItemSet}

/-- The rule may be put into the set at `j` with its dot in front: it is a start rule
at the beginning of the input, or some state there waits for its left-hand side. -/
inductive Begins (g : Grammar) (c : Chart ItemSet) : Nat → DottedRule → Prop
  | start {r : DottedRule} (hr : r ∈ g.initialRules g.start) : Begins g c 0 r
  | predict {j : Nat} {r : DottedRule} {s : State} {A : NonTerminal} (hs : s ∈ c.waiting j A)
    (hr : r ∈ g.initialRules A) : Begins g c j r

/-- The path that a completion of `A` in set `k` takes, if the parser memoizes paths. -/
def Parser.path? (p : Parser σ) (c : Chart ItemSet) (A : NonTerminal) (k : Nat) : Option (DottedRule × Nat) :=
  if p.leo then c.top? p.grammar.start A k else none

/-- The chart has the states for this move into the set at `j`: one that is moved and
what it is moved over, or a completion and the path memoized for it. A completion that
has a path makes no other move. -/
inductive Warranted (p : Parser σ) (input : List (List Token)) (c : Chart ItemSet) : Nat → DotMove → Prop
  | scan {k : Nat} {s : State} {r : DottedRule} {tokens : List Token} {t : Token} (hs : s ∈ c.lane k .scans)
    (htokens : input[k]? = some tokens) (ht : t ∈ tokens) (hx : s.expects t.tokenType = true)
    (hr : s.rule.advance? = some r) : Warranted p input c (k + 1) ⟨r, s.origin, k + 1, s.node, .token t⟩
  | skip {j : Nat} {s : State} {A : NonTerminal} {r : DottedRule} (hs : s ∈ c.waiting j A)
    (hA : p.grammar.isNullable A = true) (hr : s.rule.advance? = some r) :
    Warranted p input c j ⟨r, s.origin, j, s.node, .empty A⟩
  | complete {j : Nat} {d s : State} {r : DottedRule} (hd : d ∈ c.lane j .completions)
    (hpath : d.origin < j → p.path? c d.rule.lhs d.origin = none)
    (hs : s ∈ c.waiting d.origin d.rule.lhs) (hr : s.rule.advance? = some r) :
    Warranted p input c j ⟨r, s.origin, j, s.node, .completed d.rule.lhs d.origin d.node⟩
  | jump {j : Nat} {d t : State} (hleo : p.leo = true) (hd : d ∈ c.lane j .completions) (hlt : d.origin < j)
    (ht : t ∈ c.lane d.origin .transitions) (hkind : t.kind = .transitive d.rule.lhs) :
    Warranted p input c j ⟨t.rule, t.origin, j, none, .transitive d.rule.lhs d.origin d.node⟩

theorem Chart.Grows.mem_waiting (hg : c.Grows j c') {k : Nat} {A : NonTerminal} {s : State}
    (hs : s ∈ c.waiting k A) : s ∈ c'.waiting k A :=
  ((hg.lane_le k .predictions).filter _).subset hs

theorem Begins.grows {r : DottedRule} {k : Nat} (h : Begins g c k r) (hg : c.Grows j c') : Begins g c' k r := by
  cases h with
  | start hr => exact .start hr
  | predict hs hr => exact .predict (hg.mem_waiting hs) hr

theorem Parser.path?_eq_of_grows {k : Nat} (hg : c.Grows j c') (hk : k < j) (A : NonTerminal) :
    p.path? c' A k = p.path? c A k := by
  unfold path?
  rw [hg.top?_eq hk]

theorem Warranted.grows {m : DotMove} (h : Warranted p input c j m) (hg : c.Grows j c') : Warranted p input c' j m := by
  cases h with
  | scan hs htokens ht hx hr => exact .scan ((hg.lane_le _ _).subset hs) htokens ht hx hr
  | skip hs hA hr => exact .skip (hg.mem_waiting hs) hA hr
  | complete hd hpath hs hr =>
    refine .complete ((hg.lane_le _ _).subset hd) (fun hlt => ?_) (hg.mem_waiting hs) hr
    rw [Parser.path?_eq_of_grows hg hlt]
    exact hpath hlt
  | jump hleo hd hlt ht hkind =>
    exact .jump hleo ((hg.lane_le _ _).subset hd) hlt ((hg.lane_le _ _).subset ht) hkind

theorem Warranted.location_eq {m : DotMove} (h : Warranted p input c j m) : m.location = j := by
  cases h <;> rfl

/-! ## What follows from a sound chart -/

theorem Begins.deducible {r : DottedRule} (h : Begins g c j r) (hc : Sound g input j c) :
    Deducible g input r j j := by
  cases h with
  | start hr => exact .start hr
  | predict hs hr =>
    obtain ⟨hs, hA⟩ := Chart.mem_waiting.1 hs
    exact .predict (hc.deducible hs (Item.lane_eq_predictions_iff.1 (hc.lane_ok hs)).1) hA hr

theorem Warranted.deducible {m : DotMove} (h : Warranted p input c j m) (hc : Sound p.grammar input j c) :
    Deducible p.grammar input m.rule m.origin j := by
  cases h with
  | @scan k s r tokens t hs htokens ht hx hr =>
    obtain ⟨hkind, l, hl⟩ := Item.lane_eq_scans_iff.1 (hc.lane_ok hs)
    have htype : l.tokenType = t.tokenType := by
      simpa [State.expects, DottedRule.postDotLexerRule?_eq_some_iff.2 hl] using hx
    exact .scan (hc.deducible hs hkind) hl ⟨tokens, htokens, t, ht, htype.symm⟩ hr
  | skip hs hA hr =>
    obtain ⟨hs, hw⟩ := Chart.mem_waiting.1 hs
    have hkind := (Item.lane_eq_predictions_iff.1 (hc.lane_ok hs)).1
    refine (hc.deducible hs hkind).skip ?_
    simp only [Grammar.skip?, DottedRule.postDotNonTerminal?_eq_some_iff.2 hw, hA, if_true, hr]
  | complete hd _ hs hr =>
    obtain ⟨hkind, hcomplete⟩ := Item.lane_eq_completions_iff.1 (hc.lane_ok hd)
    exact hc.deducible_advance hs (hc.deducible hd hkind) hcomplete rfl hr
  | jump _ hd hlt ht hkind =>
    obtain ⟨hnormal, hcomplete⟩ := Item.lane_eq_completions_iff.1 (hc.lane_ok hd)
    exact hc.deducible_top (hc.memo ht hkind).2 (hc.deducible hd hnormal) hcomplete rfl

theorem Warranted.position_pos {m : DotMove} (h : Warranted p input c j m) (hc : Sound p.grammar input j c) :
    0 < m.rule.position := by
  cases h with
  | scan _ _ _ _ hr | skip _ _ hr | complete _ _ _ hr =>
    rw [(DottedRule.advance?_some hr).2.2.1]
    exact Nat.succ_pos _
  | jump _ _ _ ht hkind => exact Chart.position_pos_of_top? (hc.memo ht hkind).2

/-- A jump leads to the top of its path. -/
theorem Warranted.top?_eq {m : DotMove} {A : NonTerminal} {k : Nat} {node : Option ForestNode}
    (h : Warranted p input c j m) (hc : Sound p.grammar input j c) (hm : m.crossed = .transitive A k node) :
    k < j ∧ c.top? p.grammar.start A k = some (m.rule, m.origin) := by
  cases h with
  | jump _ hd hlt ht hkind =>
    cases hm
    exact hc.memo ht hkind
  | scan | skip | complete => cases hm

/-! ## Paths of completions -/

/-- The path of `A` from set `k` goes up to the complete rule `r`, begun in set `i`, and on
from there. -/
def Chart.Climbs (c : Chart ItemSet) (start A : NonTerminal) (k : Nat) (r : DottedRule) (i : Nat) : Prop :=
  ∃ s, c.waiting k A = [s] ∧ s.rule.advance? = some r ∧ s.origin = i ∧ r.isComplete = true ∧
    i < k ∧ ¬(i = 0 ∧ r.lhs = start)

/-- A completion in some set up to `j` takes a path on which `A` is completed from set
`k`. -/
inductive OnPath (start : NonTerminal) (c : Chart ItemSet) (j : Nat) : NonTerminal → Nat → Prop
  | completed {m : Nat} {d : State} (hm : m ≤ j) (hd : d ∈ c.lane m .completions) (hlt : d.origin < m) :
    OnPath start c j d.rule.lhs d.origin
  | climb {A : NonTerminal} {k i : Nat} {r : DottedRule} (h : OnPath start c j A k) (hup : c.Climbs start A k r i) :
    OnPath start c j r.lhs i

/-- If the path of `A` from set `k` goes on above, what lies above is memoized. -/
def Chart.MemoizedAbove (c : Chart ItemSet) (start A : NonTerminal) (k : Nat) : Prop :=
  ∀ r i, c.Climbs start A k r i → c.top? start r.lhs i ≠ none → ∃ t ∈ c.lane i .transitions, t.kind = .transitive r.lhs

theorem Chart.Climbs.top?_ne_none {start A : NonTerminal} {k i : Nat} {r : DottedRule} (h : c.Climbs start A k r i) :
    c.top? start A k ≠ none := by
  obtain ⟨s, hs, hr, -, hc, -⟩ := h
  have htop : c.top? start A k = some _ := Chart.top?_eq_some_iff.2 ⟨s, r, hs, hr, hc, rfl⟩
  rw [htop]
  exact Option.some_ne_none _

/-- Only one state waits for `A`, so the path has one way to go on. -/
theorem Chart.memoizedAbove_of_sole {start A : NonTerminal} {k : Nat} {s : State} {r : DottedRule}
    (hs : c.waiting k A = [s]) (hr : s.rule.advance? = some r)
    (h : s.origin < k → ¬(s.origin = 0 ∧ r.lhs = start) → c.top? start r.lhs s.origin ≠ none →
      ∃ t ∈ c.lane s.origin .transitions, t.kind = .transitive r.lhs) : c.MemoizedAbove start A k := by
  rintro r' i ⟨s', hs', hr', rfl, -, hlt, hstart⟩ htop
  cases List.singleton_inj.1 (hs'.symm.trans hs)
  cases hr'.symm.trans hr
  exact h hlt hstart htop

theorem OnPath.lt {start A : NonTerminal} {k : Nat} (h : OnPath start c j A k) : k < j := by
  induction h with
  | completed hm _ hlt => exact Nat.lt_of_lt_of_le hlt hm
  | climb _ hup ih =>
    obtain ⟨_, _, _, _, _, hlt, _⟩ := hup
    exact Nat.lt_trans hlt ih

theorem Chart.Grows.climbs_iff (hg : c.Grows j c') {start A : NonTerminal} {k i : Nat} {r : DottedRule} (hk : k < j) :
    c'.Climbs start A k r i ↔ c.Climbs start A k r i := by
  unfold Climbs
  rw [hg.waiting_eq hk]

theorem OnPath.grows {start A : NonTerminal} {k : Nat} (h : OnPath start c j A k) (hg : c.Grows j c') :
    OnPath start c' j A k := by
  induction h with
  | completed hm hd hlt => exact .completed hm ((hg.lane_le _ _).subset hd) hlt
  | climb h hup ih => exact .climb ih ((hg.climbs_iff h.lt).2 hup)

theorem Chart.MemoizedAbove.grows {start A : NonTerminal} {k : Nat} (h : c.MemoizedAbove start A k) (hg : c.Grows j c')
    (hk : k < j) : c'.MemoizedAbove start A k := by
  intro r i hup htop
  have hup := (hg.climbs_iff hk).1 hup
  have ⟨_, _, _, _, _, hlt, _⟩ := hup
  rw [hg.top?_eq (Nat.lt_trans hlt hk)] at htop
  obtain ⟨t, ht, hkind⟩ := h r i hup htop
  exact ⟨t, (hg.lane_le _ _).subset ht, hkind⟩

/-! ## Steps -/

/-- The rule is in the table, or a state of the chart has it. -/
def Parse.Knows (run : Parse σ) (r : DottedRule) : Prop :=
  r ∈ run.table.rules ∨ ∃ k l, ∃ s ∈ run.chart.lane k l, s.rule = r

/-- One step of a parse whose set at `j` grows. -/
inductive Step (p : Parser σ) (input : List (List Token)) (j : Nat) (run : Parse σ) : Parse σ → Prop
  /-- Bookkeeping that concerns neither the table of rules, the chart nor the forest. -/
  | note {run' : Parse σ} (htable : run'.table = run.table) (hchart : run'.chart = run.chart)
    (hforest : run'.forest = run.forest) (hmemoized : run'.memoized = run.memoized) : Step p input j run run'
  | enter {r : DottedRule} (hr : p.grammar.HasRule r) : Step p input j run { run with table := run.table.intern r }
  | begin {op : Operation} {r : DottedRule} {new : Bool} {run' : Parse σ} (hr : Begins p.grammar run.chart j r)
    (hknown : r ∈ run.table.rules) (heq : run.insert op j (.normal r j none) = .ok (new, run')) :
    Step p input j run run'
  | move {op : Operation} {m : DotMove} {run' : Parse σ} (hm : Warranted p input run.chart j m)
    (hknown : run.Knows m.rule) (heq : p.attach run op m = .ok run') : Step p input j run run'
  | memoize {A : NonTerminal} {k i : Nat} {r : DottedRule} {run' : Parse σ} (hleo : p.leo = true)
    (hpath : OnPath p.grammar.start run.chart j A k)
    (htop : run.chart.top? p.grammar.start A k = some (r, i))
    (habove : run.chart.MemoizedAbove p.grammar.start A k) (hknown : run.Knows r)
    (heq : Parser.addTransition run A k r i = .ok run') : Step p input j run run'

abbrev Steps (p : Parser σ) (input : List (List Token)) (j : Nat) : Parse σ → Parse σ → Prop :=
  Relation.ReflTransGen (Step p input j)

/-! ## What a step changes -/

variable {run run' : Parse σ}

/-- An insertion changes the chart and the journal only. -/
theorem Parse.insert_keeps {op : Operation} {k : Nat} {s : State} {new : Bool}
    (h : run.insert op k s = .ok (new, run')) : run'.table = run.table ∧ run'.forest = run.forest := by
  unfold insert at h
  split at h
  · cases h
  · cases h; exact ⟨rfl, rfl⟩
  · cases h; exact ⟨rfl, rfl⟩

theorem Parser.attach_keeps {op : Operation} {m : DotMove} (h : p.attach run op m = .ok run') :
    run'.table = run.table ∧ run'.forest = (p.builder.attach m run.forest).2 := by
  obtain ⟨⟨new, run₁⟩, hins, heq⟩ := bind_eq_ok_iff.1 h
  cases heq
  exact Parse.insert_keeps hins

theorem Parser.addTransition_keeps {A : NonTerminal} {k i : Nat} {r : DottedRule}
    (h : addTransition run A k r i = .ok run') : run'.table = run.table ∧ run'.forest = run.forest := by
  obtain ⟨⟨new, run₁⟩, hins, heq⟩ := bind_eq_ok_iff.1 h
  have hkeeps := Parse.insert_keeps hins
  cases new <;> cases heq <;> exact hkeeps

theorem Parse.chart_of_insert {op : Operation} {k : Nat} {s : State} {new : Bool}
    (h : run.insert op k s = .ok (new, run')) : run'.chart = (run.chart.insert k s).2 := by
  unfold insert at h
  split at h <;> rename_i heq
  · cases h
  · cases h; rw [heq]
  · cases h; rw [heq]

/-- A step leaves the table and the chart as they are, or enters a rule of the grammar, or
makes one insertion, of a state whose rule is known. -/
theorem Step.change_cases (h : Step p input j run run') :
    (run'.table = run.table ∧ run'.chart = run.chart) ∨
    (∃ r, p.grammar.HasRule r ∧ run'.table = run.table.intern r ∧ run'.chart = run.chart) ∨
    ∃ k s, run.Knows s.rule ∧ run'.table = run.table ∧ run'.chart = (run.chart.insert k s).2 := by
  cases h with
  | note htable hchart => exact .inl ⟨htable, hchart⟩
  | @enter r hr => exact .inr (.inl ⟨r, hr, rfl, rfl⟩)
  | begin _ hknown heq =>
    exact .inr (.inr ⟨_, _, .inl hknown, (Parse.insert_keeps heq).1, Parse.chart_of_insert heq⟩)
  | @move op m _ _ hknown heq =>
    obtain ⟨⟨new, run₁⟩, hins, heq⟩ := bind_eq_ok_iff.1 heq
    cases heq
    have hchart := Parse.chart_of_insert hins
    exact .inr (.inr ⟨_, .normal m.rule m.origin _, hknown, (Parse.insert_keeps hins).1, hchart⟩)
  | @memoize A k i r _ _ _ _ _ hknown heq =>
    obtain ⟨⟨new, run₁⟩, hins, heq⟩ := bind_eq_ok_iff.1 heq
    have hchart := Parse.chart_of_insert hins
    have htable := (Parse.insert_keeps hins).1
    cases new <;> cases heq <;> exact .inr (.inr ⟨k, .transitive A r i, hknown, htable, hchart⟩)

/-- The table only gains rules of the grammar. -/
theorem Step.table_cases (h : Step p input j run run') :
    run'.table = run.table ∨ ∃ r, p.grammar.HasRule r ∧ run'.table = run.table.intern r := by
  rcases h.change_cases with ⟨htable, -⟩ | ⟨r, hr, htable, -⟩ | ⟨_, _, -, htable, -⟩
  · exact .inl htable
  · exact .inr ⟨r, hr, htable⟩
  · exact .inl htable

theorem Step.rules_subset (h : Step p input j run run') : run.table.rules ⊆ run'.table.rules := by
  rcases h.table_cases with htable | ⟨r, -, htable⟩
  · rw [htable]
    exact List.Subset.refl _
  · rw [htable]
    exact fun x hx => RuleTable.mem_intern.2 (.inl hx)

theorem Steps.rules_subset (h : Steps p input j run run') : run.table.rules ⊆ run'.table.rules := by
  induction h with
  | refl => exact List.Subset.refl _
  | tail _ hstep ih => exact List.Subset.trans ih hstep.rules_subset

/-- A step shows the builder one move, for which the chart has the states, or none. -/
theorem Step.forest_cases (h : Step p input j run run') : run'.forest = run.forest ∨
    ∃ m, Warranted p input run.chart j m ∧ run'.forest = (p.builder.attach m run.forest).2 := by
  cases h with
  | note _ _ hforest => exact .inl hforest
  | enter => exact .inl rfl
  | begin _ _ heq => exact .inl (Parse.insert_keeps heq).2
  | @move _ m _ hm _ heq => exact .inr ⟨m, hm, (Parser.attach_keeps heq).2⟩
  | memoize _ _ _ _ _ heq => exact .inl (Parser.addTransition_keeps heq).2

end ChartParser
