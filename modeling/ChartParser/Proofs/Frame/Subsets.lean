import ChartParser.Proofs.Frame.Compilation
/-!
# Frames as a subset construction

What nullable moves and predictions add to a set of rules is defined as the
least set closed under them, and the computed closures are these sets
(`Grammar.mem_skipClosure_iff`, `Grammar.mem_predictions_iff`). The frames of a
compiled grammar are then those of the subset construction
(`FrameGraph.subset_construction`).
-/
namespace ChartParser

namespace Grammar

/-- The least set of rules that holds the given ones and is closed under moving
dots past nullable non-terminals. -/
inductive SkipReach (g : Grammar) (start : DottedRule → Prop) : DottedRule → Prop
  | start {r : DottedRule} : start r → g.SkipReach start r
  | skip {r r' : DottedRule} {A : NonTerminal} : g.SkipReach start r → r.postDot? = some (.nonTerminal A) →
      g.isNullable A = true → r.advance? = some r' → g.SkipReach start r'

/-- The least set of rules that has the productions of every non-terminal that the
given rules, or rules of the set, wait for, and is closed under moving dots past
nullable non-terminals. -/
inductive PredictReach (g : Grammar) (rules : List DottedRule) : DottedRule → Prop
  | start {r r' : DottedRule} {A : NonTerminal} : r ∈ rules → r.postDot? = some (.nonTerminal A) →
      r' ∈ g.initialRules A → g.PredictReach rules r'
  | predict {r r' : DottedRule} {A : NonTerminal} : g.PredictReach rules r → r.postDot? = some (.nonTerminal A) →
      r' ∈ g.initialRules A → g.PredictReach rules r'
  | skip {r r' : DottedRule} {A : NonTerminal} : g.PredictReach rules r → r.postDot? = some (.nonTerminal A) →
      g.isNullable A = true → r.advance? = some r' → g.PredictReach rules r'

variable {g : Grammar}

theorem skip?_eq_some_iff {r r' : DottedRule} :
    g.skip? r = some r' ↔
      ∃ A, r.postDot? = some (.nonTerminal A) ∧ g.isNullable A = true ∧ r.advance? = some r' := by
  simp only [← DottedRule.postDotNonTerminal?_eq_some_iff]
  unfold skip?
  split
  · simp_all
  · rename_i A hA
    simp [hA]

theorem mem_skipClosure_iff {rules : List DottedRule} {r : DottedRule} :
    r ∈ g.skipClosure rules ↔ g.SkipReach (· ∈ rules) r := by
  constructor
  · refine fun hr => skipClosure_induction (fun _ => .start) (fun r r' hr hs => ?_) r hr
    obtain ⟨A, hA, hnull, ha⟩ := skip?_eq_some_iff.1 hs
    exact .skip hr hA hnull ha
  · intro hr
    induction hr with
    | start hr => exact subset_skipClosure _ hr
    | skip _ hA hnull ha ih => exact skipClosure_closed _ _ ih _ (skip?_eq_some_iff.2 ⟨_, hA, hnull, ha⟩)

theorem mem_predictions_iff {rules : List DottedRule} {r : DottedRule} :
    r ∈ g.predictions rules ↔ g.PredictReach rules r := by
  constructor
  · refine fun hr => predictions_induction (fun r hr A hA r' hr' => ?_) (fun r A hr hA r' hr' => ?_)
      (fun r r' hr hs => ?_) r hr
    · exact .start hr (DottedRule.postDotNonTerminal?_eq_some_iff.1 hA) hr'
    · exact .predict hr (DottedRule.postDotNonTerminal?_eq_some_iff.1 hA) hr'
    · obtain ⟨A, hA, hnull, ha⟩ := skip?_eq_some_iff.1 hs
      exact .skip hr hA hnull ha
  · intro hr
    induction hr with
    | start hr hA hr' => exact mem_predictions (.inl hr) (DottedRule.postDotNonTerminal?_eq_some_iff.2 hA) hr'
    | predict _ hA hr' ih => exact mem_predictions (.inr ih) (DottedRule.postDotNonTerminal?_eq_some_iff.2 hA) hr'
    | skip _ hA hnull ha ih => exact predictions_skipClosed _ _ ih _ (skip?_eq_some_iff.2 ⟨_, hA, hnull, ha⟩)

/-- Something is predicted exactly if a rule waits for a non-terminal, for every
non-terminal that is used has productions. -/
theorem predictions_eq_nil_iff {rules : List DottedRule} (h : ∀ r ∈ rules, g.HasRule r) :
    g.predictions rules = [] ↔ ∀ r ∈ rules, ∀ A, r.postDot? ≠ some (.nonTerminal A) := by
  constructor
  · intro hnil r hr A hA
    obtain ⟨p, hp, hlhs, hrhs⟩ := (h r hr).exists_mem
    obtain ⟨rest, hrest⟩ := DottedRule.postDot?_eq_some_iff.1 hA
    obtain ⟨q, hq, hqA⟩ := defines_iff.1 (g.rhs_defined p hp A (by simp [hrhs, hrest]))
    obtain ⟨i, hi⟩ := List.mem_iff_getElem?.1 hq
    have hmem : DottedRule.initial i q ∈ g.predictions rules :=
      mem_predictions_iff.2 (.start hr hA (mem_initialRules.2 ⟨i, q, hi, hqA, rfl⟩))
    rw [hnil] at hmem
    cases hmem
  · intro hno
    have hnone : ∀ r, ¬ g.PredictReach rules r := by
      intro r hr
      induction hr with
      | start hr hA _ => exact hno _ hr _ hA
      | predict _ _ _ ih | skip _ _ _ _ ih => exact ih
    exact List.eq_nil_iff_forall_not_mem.2 fun r hr => hnone r (mem_predictions_iff.1 hr)

end Grammar

/-- What the subset construction makes of the frame `f` of a graph. -/
structure FrameGraph.Determines (graph : FrameGraph) (f : Frame) : Prop where
  mem_table : ∀ r ∈ f.rules, r ∈ graph.table.rules
  ascending : (f.rules.map graph.table.idOf).Pairwise (· < ·)
  skipClosed : ∀ r ∈ f.rules, ∀ A, r.postDot? = some (.nonTerminal A) → graph.grammar.isNullable A = true →
    ∀ r', r.advance? = some r' → r' ∈ f.rules
  /-- The frame leads over the token types (`tokenMove?`) and the non-terminals
  (`reduction?`) that its rules wait for. -/
  target_iff : ∀ x, (∃ id, f.target? x = some id) ↔ ∃ r ∈ f.rules, r.postDotLetter? = some x
  target : ∀ x id, f.target? x = some id → ∃ f', graph.frame id = .ok f' ∧ f'.predicted = false ∧
    ∀ r', r' ∈ f'.rules ↔ graph.grammar.SkipReach
      (fun r₁ => ∃ r ∈ f.rules, r.postDotLetter? = some x ∧ r.advance? = some r₁) r'
  prediction_iff : (∃ id, f.prediction? = some id) ↔
    f.predicted = false ∧ ∃ r ∈ f.rules, ∃ A, r.postDot? = some (.nonTerminal A)
  prediction : ∀ id, f.prediction? = some id → ∃ f', graph.frame id = .ok f' ∧ f'.predicted = true ∧
    ∀ r', r' ∈ f'.rules ↔ graph.grammar.PredictReach f.rules r'
  lexerRuleIds_ascending : f.lexerRuleIds.Pairwise (· < ·)
  mem_lexerRuleIds : ∀ id, id ∈ f.lexerRuleIds ↔
    ∃ r ∈ f.rules, ∃ l, r.postDot? = some (.terminal l) ∧ graph.grammar.lexerRules[id]? = some l
  completed_nodup : f.completed.Nodup
  mem_completed : ∀ A, A ∈ f.completed ↔ ∃ r ∈ f.rules, r.isComplete = true ∧ r.lhs = A

variable {graph : FrameGraph} {f : Frame}

/-- A completed frame leads over a letter to the closure of what moving the dots over it leads to. -/
theorem Frame.Completed.target_spec (hc : f.Completed graph.grammar graph.frames) {x : Letter} {id : FrameId}
    (hid : f.target? x = some id) : ∃ f', graph.frame id = .ok f' ∧ f'.predicted = false ∧
      ∀ r', r' ∈ f'.rules ↔ graph.grammar.SkipReach
        (fun r₁ => ∃ r ∈ f.rules, r.postDotLetter? = some x ∧ r.advance? = some r₁) r' := by
  obtain ⟨f', hf', hp, hmem⟩ := hc.leads x id hid
  refine ⟨f', fetch_eq_ok_iff.2 hf', hp, fun r' => ?_⟩
  rw [hmem, Grammar.mem_skipClosure_iff]
  simp only [Frame.mem_kernel]

/-- A completed frame predicts, unless it is predicted itself, if and only if one of its rules
waits for a non-terminal: no frame is without rules. -/
theorem Frame.Completed.prediction_iff (hc : f.Completed graph.grammar graph.frames)
    (hrules : ∀ r ∈ f.rules, graph.grammar.HasRule r) (hne : ∀ f ∈ graph.frames, f.rules ≠ []) :
    (∃ id, f.prediction? = some id) ↔
      f.predicted = false ∧ ∃ r ∈ f.rules, ∃ A, r.postDot? = some (.nonTerminal A) := by
  constructor
  · rintro ⟨id, hid⟩
    obtain ⟨hp, f', hf', -, hmem⟩ := hc.predicts id hid
    obtain ⟨r', hr'⟩ := List.exists_mem_of_ne_nil _ (hne f' (List.mem_of_getElem? hf'))
    have hpredicts : graph.grammar.predictions f.rules ≠ [] := List.ne_nil_of_mem ((hmem r').1 hr')
    rw [Ne, Grammar.predictions_eq_nil_iff hrules] at hpredicts
    push Not at hpredicts
    exact ⟨hp, hpredicts⟩
  · rintro ⟨hp, r, hr, A, hA⟩
    refine Option.ne_none_iff_exists'.1 fun hnone => ?_
    rcases hc.settled hnone with hp' | hnil
    · rw [hp] at hp'
      cases hp'
    · exact (Grammar.predictions_eq_nil_iff hrules).1 hnil r hr A hA

/-- What compilation leaves of each frame is what the subset construction makes of it. -/
theorem FrameGraph.determines_of_completed {n : Nat} (hvalid : FrameDraft.Valid graph.grammar graph.draft)
    (hexplored : graph.draft.Explored n) (hf : f ∈ graph.frames) (hc : f.Completed graph.grammar graph.frames) :
    graph.Determines f where
  mem_table := (hvalid.sublist f hf).subset
  ascending := List.pairwise_map.2 (hvalid.ascending hf)
  skipClosed r hr A hA hnull r' ha := hvalid.skipClosed f hf r hr r' (Grammar.skip?_eq_some_iff.2 ⟨A, hA, hnull, ha⟩)
  target_iff x := by
    refine ⟨fun ⟨id, hid⟩ => hc.waits x id hid, fun ⟨r, hr, hx⟩ => ?_⟩
    exact Option.ne_none_iff_exists'.1 fun hnone => hc.stays x hnone r hr hx
  target _ _ := hc.target_spec
  prediction_iff := hc.prediction_iff (hvalid.hasRule_of_mem hf) hexplored.rules_ne_nil
  prediction id hid := by
    obtain ⟨-, f', hf', hp, hmem⟩ := hc.predicts id hid
    exact ⟨f', fetch_eq_ok_iff.2 hf', hp, fun r' => (hmem r').trans Grammar.mem_predictions_iff⟩
  lexerRuleIds_ascending := (hexplored.arranged f hf).lexerRuleIds
  mem_lexerRuleIds id := by
    simp only [hc.mem_lexerRuleIds, Grammar.postDotLexerRuleId?, Option.bind_eq_some_iff,
      DottedRule.postDotLexerRule?_eq_some_iff, Grammar.lexerRuleId?_eq_some_iff]
  completed_nodup := (hexplored.arranged f hf).completed
  mem_completed := hc.mem_completed

/-- Compiling a grammar is a subset construction: it starts from the rules of the start
symbol, and every frame has its rules in order and closed under nullable moves, leads over
the letters its rules wait for to what moving the dots over them leads to, and predicts,
unless it is predicted itself, what its rules predict. -/
theorem FrameGraph.subset_construction (g : Grammar) :
    ∃ graph, FrameGraph.ofGrammar g = .ok graph ∧ graph.grammar = g ∧
      (∃ f, graph.frame graph.startFrame = .ok f ∧ f.predicted = false ∧
        ∀ r, r ∈ f.rules ↔ g.SkipReach (· ∈ g.initialRules g.start) r) ∧
      ∀ id f, graph.frame id = .ok f → graph.Determines f := by
  obtain ⟨graph, hgraph, hg, hzero, -, hvalid, hcompleted, hstart, n, hexplored⟩ := ofGrammar_works g
  refine ⟨graph, hgraph, hg, ?_, fun id f hf => ?_⟩
  · obtain ⟨f, hf, hp, hmem⟩ := hstart
    exact ⟨f, fetch_eq_ok_iff.2 (hzero ▸ hf), hp, fun r => (hmem r).trans Grammar.mem_skipClosure_iff⟩
  · have hf : f ∈ graph.frames := List.mem_of_getElem? (fetch_eq_ok_iff.1 hf)
    subst hg
    exact determines_of_completed hvalid hexplored hf (hcompleted f hf)

end ChartParser
