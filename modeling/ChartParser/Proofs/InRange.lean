import ChartParser.Proofs.Frame.Tracking
import ChartParser.Proofs.Parser.Invariant
/-!
# Everything that is looked up is there

Whatever the grammar and the calls, no session ends in a fault (`never_faults`). The
places by which a parser finds its way are places that exist: the origins of states in
its chart, their rules in its table, the productions of these in the grammar, the
lexer rules that they expect among the marks. The same goes for the frames of a
compiled grammar and the frames in its chart.
-/
namespace ChartParser

variable {σ : Type} {g : Grammar}

/-! ## Tables -/

/-- What an entry of a table is used for exists: its production with the dot at its
place, the place after it unless it is complete, and the lexer rule that it expects. -/
structure Grammar.Serves (g : Grammar) (r : DottedRule) : Prop where
  dottedRule_eq : g.dottedRule r.production r.position = .ok r
  next : r.isComplete = false → ∃ r', r.advance? = some r' ∧ g.dottedRule r.production (r.position + 1) = .ok r'
  lexerRule : ∀ id, g.postDotLexerRuleId? r = some id → ∃ l, g.lexerRule id = .ok l

theorem Grammar.HasRule.serves {r : DottedRule} (h : g.HasRule r) : g.Serves r := by
  refine ⟨h.dottedRule_eq, fun hc => ?_, fun id hid => ?_⟩
  · cases ha : r.advance? with
    | none =>
      rw [DottedRule.advance?_eq_none_iff, hc] at ha
      cases ha
    | some r' => exact ⟨r', rfl, h.dottedRule_succ ha⟩
  · exact ⟨_, fetch_eq_ok_iff.2 (List.getElem?_eq_getElem (Grammar.lt_of_postDotLexerRuleId? hid))⟩

namespace RuleTable

variable {t : RuleTable} {r : DottedRule}

/-- Once the moved rule has been entered, moving the dot enters nothing. -/
theorem advance_idOf {r' : DottedRule} (h : r ∈ t.rules) (ha : r.advance? = some r') (h' : r' ∈ t.rules) :
    t.advance (t.idOf r) = .ok (t.idOf r', t) := by
  simp only [advance, rule_idOf h, bind, Except.bind, ha, intern, if_pos h']
  rfl

end RuleTable

/-! ## Charts of states -/

/-- Every set is at the location that it says. -/
def Chart.Located (c : Chart ItemSet) : Prop := ∀ i set, c.get? i = some set → set.location = i

theorem Chart.Located.reach {c c' : Chart ItemSet} (h : c.Located) {j : Nat}
    (hc : c.reach j (.empty j) = .ok c') : c'.Located := by
  unfold Chart.reach at hc
  split at hc
  · cases hc
    exact h
  · split at hc
    · rename_i hj
      cases hc
      intro i set hset
      simp only [Chart.get?, List.getElem?_append] at hset
      split at hset
      · exact h i set hset
      · -- The added set is the last.
        rw [List.getElem?_singleton] at hset
        split at hset
        · cases hset
          simp only [Chart.size] at hj
          simp only [ItemSet.empty]
          omega
        · cases hset
    · cases hc

/-- An insertion leaves every set where it is. -/
theorem Chart.Located.insert {c : Chart ItemSet} (h : c.Located) (j : Nat) (s : State) : (c.insert j s).2.Located := by
  unfold Chart.insert Chart.update
  split
  · exact h
  · rename_i c' hc
    have h' := h.reach hc
    split
    · exact h'
    · rename_i new set hset
      obtain ⟨set₀, hget, hins⟩ := bind_eq_ok_iff.1 hset
      obtain ⟨_, -, -, hlocation, -⟩ := ItemSet.queue_of_insert hins
      have hj := h' j set₀ (Chart.get_eq_ok_iff.1 hget)
      intro i set' hset'
      simp only [Chart.get?, List.getElem?_set] at hset'
      split at hset'
      · rename_i hi
        split at hset'
        · cases hset'
          rw [hlocation, hj, hi]
        · cases hset'
      · exact h' i set' hset'

namespace Parse

/-- The table has rules of the grammar only, and those of all states of the chart. -/
structure Tabled (g : Grammar) (run : Parse σ) : Prop where
  hasRule : ∀ r ∈ run.table.rules, g.HasRule r
  mem : ∀ {k l s}, s ∈ run.chart.lane k l → s.rule ∈ run.table.rules
  located : run.chart.Located

/-- All that is looked up for the parse is there. -/
structure InRange (g : Grammar) (run : Parse σ) : Prop where
  size_eq : run.chart.size = run.location + 1
  location_eq : ∀ i set, run.chart.get i = .ok set → set.location = i
  origin_le : ∀ i set, run.chart.get i = .ok set → ∀ s ∈ set.states, s.origin ≤ i
  /-- In particular no transitive state has an incomplete rule. -/
  lane_eq : ∀ i set, run.chart.get i = .ok set → ∀ l, ∀ s ∈ (set.queue l).toList, s.lane = .ok l
  rule_eq : ∀ i set, run.chart.get i = .ok set → ∀ s ∈ set.states, run.table.rule (run.table.idOf s.rule) = .ok s.rule
  serves : ∀ id r, run.table.rule id = .ok r → g.Serves r
  marked : run.expectations.marked.length = g.lexerRules.length

end Parse

namespace Parser

variable {p : Parser σ} {input : List (List Token)} {run run' : Parse σ}

theorem step_tabled {j : Nat} (hs : Sound p.grammar input j run.chart) (h : Step p input j run run')
    (ht : run.Tabled p.grammar) : run'.Tabled p.grammar := by
  refine ⟨fun r hr => ?_, fun {k l s} hmem => ?_, ?_⟩
  · rcases h.table_cases with htable | ⟨r', hr', htable⟩
    · exact ht.hasRule r (htable ▸ hr)
    · rw [htable, RuleTable.mem_intern] at hr
      rcases hr with hr | rfl
      · exact ht.hasRule r hr
      · exact hr'
  · apply h.rules_subset
    rcases h.mem_cases hs hmem with hold | ⟨hin | ⟨k', l', s', hs', heq⟩, -⟩
    · exact ht.mem hold
    · exact hin
    · exact heq ▸ ht.mem hs'
  · rcases h.change_cases with ⟨-, hchart⟩ | ⟨_, -, -, hchart⟩ | ⟨k, s, -, -, hchart⟩
    · exact hchart ▸ ht.located
    · exact hchart ▸ ht.located
    · exact hchart ▸ ht.located.insert k s

theorem tabled_invariant (p : Parser σ) : Invariant p fun _ run => run.Tabled p.grammar where
  fresh htable hchart _ := by
    refine ⟨?_, ?_, ?_⟩
    · simp [htable, RuleTable.empty]
    · simp [hchart, Chart.lane, Chart.get?, Chart.empty]
    · simp [hchart, Chart.Located, Chart.get?, Chart.empty]
  emptied ht := by
    refine ⟨ht.hasRule, ?_, ?_⟩
    · simp [Parse.emptied, Chart.lane, Chart.get?, Chart.empty]
    · simp [Parse.emptied, Chart.Located, Chart.get?, Chart.empty]
  extend _ _ ht := ht
  step := step_tabled

theorem Tracks.inRange (h : Tracks p input run) (ht : run.Tabled p.grammar) : run.InRange p.grammar := by
  refine ⟨by rw [h.size_eq, h.location_eq], fun i set hget => ht.located i set (Chart.get_eq_ok_iff.1 hget), ?_, ?_, ?_, ?_, ?_⟩
  · intro i set hget s hs
    obtain ⟨l, hs⟩ := (Chart.mem_states_iff hget).1 hs
    exact h.sound.origin_le hs
  · intro i set hget l s hs
    rw [Chart.queue_eq_lane hget] at hs
    exact h.sound.lane_ok hs
  · intro i set hget s hs
    obtain ⟨l, hs⟩ := (Chart.mem_states_iff hget).1 hs
    exact RuleTable.rule_idOf (ht.mem hs)
  · intro id r hr
    exact (ht.hasRule r (RuleTable.mem_of_rule hr)).serves
  · simp [h.expectations.marked_eq]

end Parser

/-! ## Frames -/

/-- All that a compiled grammar refers to is there. -/
structure FrameGraph.InRange (graph : FrameGraph) : Prop where
  start : ∃ f, graph.frame graph.startFrame = .ok f
  tokenMove : ∀ f ∈ graph.frames, ∀ t id, f.tokenMove? t = some id → ∃ f', graph.frame id = .ok f'
  reduction : ∀ f ∈ graph.frames, ∀ A id, f.reduction? A = some id → ∃ f', graph.frame id = .ok f'
  prediction : ∀ f ∈ graph.frames, ∀ id, f.prediction? = some id → ∃ f', graph.frame id = .ok f'
  lexerRule : ∀ f ∈ graph.frames, ∀ id ∈ f.lexerRuleIds, ∃ l, graph.grammar.lexerRule id = .ok l
  rule_eq : ∀ f ∈ graph.frames, ∀ r ∈ f.rules, graph.table.rule (graph.table.idOf r) = .ok r
  /-- Every rule whose dot can move has been moved, and the table has the moved rule. -/
  advance : ∀ f ∈ graph.frames, ∀ r ∈ f.rules, r.isComplete = false →
    ∃ id, graph.table.advance (graph.table.idOf r) = .ok (id, graph.table)
  serves : ∀ id r, graph.table.rule id = .ok r → graph.grammar.Serves r

/-- All that is looked up for the parse is there. -/
structure FrameParse.InRange (graph : FrameGraph) (run : FrameParse) : Prop where
  size_eq : run.chart.size = run.location + 1
  origin_le : ∀ i q, run.chart.get i = .ok q → ∀ x ∈ q.toList, x.origin ≤ i
  frame : ∀ i q, run.chart.get i = .ok q → ∀ x ∈ q.toList, ∃ f, graph.frame x.frame = .ok f
  marked : run.expectations.marked.length = graph.grammar.lexerRules.length

namespace FrameGraph

variable {graph : FrameGraph} {input : List (List Token)} {run : FrameParse}

theorem Valid.inRange (hv : graph.Valid) : graph.InRange := by
  have hleads : ∀ {id rules predicted}, Leads graph.frames id rules predicted → ∃ f, graph.frame id = .ok f := by
    rintro id rules predicted ⟨f, hf, -⟩
    exact ⟨f, fetch_eq_ok_iff.2 hf⟩
  refine ⟨hleads hv.start, ?_, ?_, ?_, ?_, ?_, ?_, ?_⟩
  · intro f hf t id hid
    exact hleads ((hv.completed f hf).leads (.token t) id hid)
  · intro f hf A id hid
    exact hleads ((hv.completed f hf).leads (.nonTerminal A) id hid)
  · intro f hf id hid
    exact hleads ((hv.completed f hf).predicts id hid).2
  · intro f hf id hid
    obtain ⟨r, hr, hid⟩ := ((hv.completed f hf).mem_lexerRuleIds id).1 hid
    exact (hv.hasRule r (hv.rules_subset f hf hr)).serves.lexerRule id hid
  · intro f hf r hr
    exact RuleTable.rule_idOf (hv.rules_subset f hf hr)
  · intro f hf r hr hc
    obtain ⟨r', ha, -⟩ := (hv.hasRule r (hv.rules_subset f hf hr)).serves.next hc
    cases hs : r.postDot? with
    | none =>
      rw [DottedRule.postDot?_eq_none_iff, hc] at hs
      cases hs
    | some s =>
      -- The moved rule is in the frame that this one leads to.
      obtain ⟨id, -, f', hf', hin⟩ := exists_target (hv.completed f hf) hr hs ha
      have hmoved := hv.rules_subset f' (List.mem_of_getElem? hf') hin
      exact ⟨_, RuleTable.advance_idOf (hv.rules_subset f hf hr) ha hmoved⟩
  · intro id r hr
    exact (hv.hasRule r (RuleTable.mem_of_rule hr)).serves

theorem Tracks.inRange (h : Tracks graph input run) : run.InRange graph := by
  have hitem : ∀ {i q x}, run.chart.get i = .ok q → x ∈ q.toList → x ∈ FrameChart.items run.chart i := by
    intro i q x hget hx
    simpa only [FrameChart.items, Chart.get_eq_ok_iff.1 hget] using hx
  refine ⟨by rw [h.size_eq, h.location_eq], ?_, ?_, by simp [h.expectations.marked_eq]⟩
  · intro i q hget x hx
    exact (h.sound.sound (hitem hget hx)).origin_le
  · intro i q hget x hx
    obtain ⟨f, -, hf, -⟩ := h.sound.frame_eq (hitem hget hx)
    exact ⟨f, hf⟩

end FrameGraph

/-! ## Sessions -/

/-- For every grammar, no session of a parser ends in a fault, with or without memoized
paths and whatever the forest builder does. The grammar can be compiled, and no session
with its frames ends in a fault either. After every session, and so after every call
of one, all that is looked up is there. -/
theorem never_faults (g : Grammar) :
    (∀ (σ : Type) (leo : Bool) (builder : ForestBuilder σ) (forest : σ) (calls : List Call), ∃ answers run,
      (do Recognizer.performAll (⟨g, leo, builder⟩ : Parser σ) (← Parser.start ⟨g, leo, builder⟩ forest) calls) =
        .ok (answers, run) ∧ run.InRange g) ∧
    ∃ graph, FrameGraph.ofGrammar g = .ok graph ∧ graph.InRange ∧ ∀ calls : List Call, ∃ answers run,
      (do Recognizer.performAll graph (← graph.start) calls) = .ok (answers, run) ∧ run.InRange graph := by
  constructor
  · intro σ leo builder forest calls
    obtain ⟨⟨answers, run⟩, hrun, _, h, ht⟩ := (Parser.tabled_invariant ⟨g, leo, builder⟩).session_spec forest calls
    exact ⟨answers, run, hrun, h.inRange ht⟩
  · obtain ⟨graph, hgraph, -, hv⟩ := FrameGraph.ofGrammar_spec g
    refine ⟨graph, hgraph, hv.inRange, fun calls => ?_⟩
    obtain ⟨⟨answers, run⟩, hrun, _, h⟩ := FrameGraph.session_spec hv calls
    exact ⟨answers, run, hrun, h.inRange⟩

end ChartParser
