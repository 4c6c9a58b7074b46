import ChartParser.Proofs.Frame.Tracking
import ChartParser.Proofs.Parser.Tracking
/-!
# The expected rules are the tokens that are taken

What a recognizer expects and what it takes are worked out in different ways:
expectations by the places of lexer rules, offers by the types of tokens. They
agree all the same, since both follow the items at the present location
(`expected_iff_taken`).
-/
namespace ChartParser

/-! ## Expected rules and items -/

theorem Grammar.mem_expectedAfter {g : Grammar} {input : List (List Token)} {l : LexerRule} :
    l ∈ g.expectedAfter input ↔ ∃ r i, Deducible g input r i input.length ∧ r.postDotLexerRule? = some l := by
  simp only [expectedAfter, rulesAt, placesAmong, List.mem_filterMap, List.mem_filter, List.mem_range, decide_eq_true_eq,
    ← lexerRuleId?_eq_some_iff]
  constructor
  · rintro ⟨id, ⟨-, -, r, i, hd, hid⟩, hl⟩
    obtain ⟨l', hl', hid'⟩ := Option.bind_eq_some_iff.1 hid
    rw [lexerRuleId?_eq_some_iff] at hl hid'
    cases hl.symm.trans hid'
    exact ⟨r, i, hd, hl'⟩
  · rintro ⟨r, i, hd, hl⟩
    -- A rule after the dot is used by a production, so the grammar lists it.
    obtain ⟨q, hq, -, hrhs⟩ := hd.hasRule.exists_mem
    obtain ⟨rest, hafter⟩ := DottedRule.postDot?_eq_some_iff.1 (DottedRule.postDotLexerRule?_eq_some_iff.1 hl)
    have hmem : l ∈ g.lexerRules := mem_lexerRules.2 ⟨q, hq, by simp [hrhs, hafter]⟩
    obtain ⟨id, hid⟩ := List.mem_iff_getElem?.1 hmem
    rw [← lexerRuleId?_eq_some_iff] at hid
    have hr : g.postDotLexerRuleId? r = some id := by rw [postDotLexerRuleId?, hl, Option.bind_some, hid]
    have hlt := lt_of_postDotLexerRuleId? hr
    exact ⟨id, ⟨hlt, hlt, r, i, hd, hr⟩, hid⟩

theorem continues_iff {g : Grammar} {input : List (List Token)} {tokens : List Token} :
    Continues g input tokens ↔ ∃ t ∈ tokens, ∃ l ∈ g.expectedAfter input, l.tokenType = t.tokenType := by
  simp only [Continues, Expects, Grammar.mem_expectedAfter, DottedRule.postDotLexerRule?_eq_some_iff]
  constructor
  · rintro ⟨t, ht, r, i, l, hd, hl, htype⟩
    exact ⟨t, ht, l, ⟨r, i, hd, hl⟩, htype⟩
  · rintro ⟨t, ht, l, ⟨r, i, hd, hl⟩, htype⟩
    exact ⟨t, ht, r, i, l, hd, hl, htype⟩

/-! ## Recognizers -/

/-- `rules` foretell what `p` takes next: it takes a list of tokens exactly if one of
them has the type of a rule, the rules stand in grammar order, and they are those
that the dotted rules at the present location expect. -/
structure Foretell {P R : Type} [Recognizer P R] (rules : List LexerRule) (p : P) (run : R)
    (Present : DottedRule → Prop) : Prop where
  taken_iff : ∀ tokens, ∃ taken next, Recognizer.offer p run tokens = .ok (taken, next) ∧
    (taken = true ↔ ∃ t ∈ tokens, ∃ l ∈ rules, l.tokenType = t.tokenType)
  inOrder : (Recognizer.grammar p).InOrder rules
  mem_iff : ∀ l, l ∈ rules ↔ ∃ r, Present r ∧ r.postDotLexerRule? = some l

theorem Follows.foretell {P R : Type} [Recognizer P R] {p : P} {Tracks : List (List Token) → R → Prop}
    {input : List (List Token)} {run : R} (hf : Follows p (Recognizer.grammar p) Tracks) (h : Tracks input run)
    (Present : DottedRule → Prop) (hpresent : ∀ r s, r.postDot? = some s →
      (Present r ↔ ∃ i, Deducible (Recognizer.grammar p) input r i input.length)) :
    ∃ rules next, Recognizer.expected p run = .ok (rules, next) ∧ Foretell rules p run Present := by
  obtain ⟨⟨rules, next⟩, hexp, hrules, -⟩ := hf.expected_spec h
  dsimp only at hrules
  subst hrules
  refine ⟨_, next, hexp, fun tokens => ?_, Grammar.inOrder_rulesAt _ _, fun l => ?_⟩
  · obtain ⟨⟨taken, next⟩, hoffer, htaken⟩ := hf.taken_iff h tokens
    exact ⟨taken, next, hoffer, htaken.trans continues_iff⟩
  · rw [Grammar.mem_expectedAfter]
    refine exists_congr fun r => ?_
    constructor
    · rintro ⟨i, hd, hl⟩
      exact ⟨(hpresent r _ (DottedRule.postDotLexerRule?_eq_some_iff.1 hl)).2 ⟨i, hd⟩, hl⟩
    · rintro ⟨hr, hl⟩
      obtain ⟨i, hd⟩ := (hpresent r _ (DottedRule.postDotLexerRule?_eq_some_iff.1 hl)).1 hr
      exact ⟨i, hd, hl⟩

/-- After every session, a chart parser, with or without memoized paths, and a
compiled grammar expect exactly what they would take. -/
theorem expected_iff_taken {σ : Type} (g : Grammar) (calls : List Call) :
    (∀ (leo : Bool) (builder : ForestBuilder σ) (forest : σ), ∃ answers run rules next,
      (do Recognizer.performAll (⟨g, leo, builder⟩ : Parser σ) (← Parser.start ⟨g, leo, builder⟩ forest) calls) =
        .ok (answers, run) ∧
      Parser.expected ⟨g, leo, builder⟩ run = .ok (rules, next) ∧
      Foretell rules (⟨g, leo, builder⟩ : Parser σ) run fun r => ∃ i, run.chart.Holds run.location r i) ∧
    ∃ graph answers run rules next, FrameGraph.ofGrammar g = .ok graph ∧
      (do Recognizer.performAll graph (← graph.start) calls) = .ok (answers, run) ∧
      graph.expected run = .ok (rules, next) ∧
      graph.grammar = g ∧ Foretell rules graph run fun r => ∃ i, graph.Holds run.chart run.location r i := by
  constructor
  · intro leo builder forest
    obtain ⟨⟨answers, run⟩, hrun, _, h⟩ := Parser.session_spec ⟨g, leo, builder⟩ forest calls
    obtain ⟨rules, next, hexp, hrules⟩ := (Parser.follows _).foretell h
      (fun r => ∃ i, run.chart.Holds run.location r i)
      fun r s hs => exists_congr fun i => h.location_eq ▸ h.holds_iff_of_postDot? hs
    exact ⟨answers, run, rules, next, hrun, hexp, hrules⟩
  · obtain ⟨graph, hgraph, hg, hv⟩ := FrameGraph.ofGrammar_spec g
    obtain ⟨⟨answers, run⟩, hrun, _, h⟩ := FrameGraph.session_spec hv calls
    obtain ⟨rules, next, hexp, hrules⟩ := (FrameGraph.follows hv).foretell h
      (fun r => ∃ i, graph.Holds run.chart run.location r i)
      fun r s hs => exists_congr fun i => h.location_eq ▸ h.holds_iff hv
    exact ⟨graph, answers, run, rules, next, hgraph, hrun, hexp, hg, hrules⟩

end ChartParser
