import ChartParser.DottedRule
/-!
# Closures of dotted rules

Moving dots past nullable non-terminals, and the rules that a set of rules
predicts, directly or through other predictions.
-/
namespace ChartParser.Grammar

/-! ## Nullable moves -/

/-- The rule with its dot moved past a nullable non-terminal. -/
def skip? (g : Grammar) (r : DottedRule) : Option DottedRule :=
  match r.postDotNonTerminal? with
  | none => none
  | some A => if g.isNullable A then r.advance? else none

theorem advance?_of_skip? {g : Grammar} {r r' : DottedRule} (h : g.skip? r = some r') :
    r.advance? = some r' := by
  unfold skip? at h
  split at h
  · cases h
  · split at h
    · exact h
    · cases h

/-- A nullable move leaves one symbol less to expect. -/
theorem length_after_of_skip? {g : Grammar} {r r' : DottedRule} (h : g.skip? r = some r') :
    r'.after.length < r.after.length := by
  obtain ⟨s, rest, hr, rfl⟩ := DottedRule.advance?_eq_some_iff.1 (advance?_of_skip? h)
  simp [hr]

/-- The number of symbols that the rules still expect, and one for each rule. -/
def workload (rules : List DottedRule) : Nat := rules.foldr (fun r n => r.after.length + 1 + n) 0

theorem workload_append (u v : List DottedRule) : workload (u ++ v) = workload u + workload v := by
  induction u with
  | nil => simp [workload]
  | cons r u ih =>
    simp only [workload, List.cons_append, List.foldr_cons] at ih ⊢
    rw [ih]
    omega

/-- The nullable moves of the pending rules, added at the end unless they are
there, after the rules that are done. -/
def closeSkips (g : Grammar) (done : List DottedRule) : List DottedRule → List DottedRule
  | [] => done
  | r :: pending =>
    match _h : g.skip? r with
    | none => g.closeSkips (done ++ [r]) pending
    | some r' =>
      if r' ∈ done ++ r :: pending then g.closeSkips (done ++ [r]) pending
      else g.closeSkips (done ++ [r]) (pending ++ [r'])
termination_by pending => workload pending
decreasing_by
  · simp only [workload, List.foldr_cons]
    omega
  · simp only [workload, List.foldr_cons]
    omega
  · have := length_after_of_skip? _h
    rw [workload_append]
    simp only [workload, List.foldr_cons, List.foldr_nil]
    omega

/-- The rules and all that nullable moves make of them. -/
def skipClosure (g : Grammar) (rules : List DottedRule) : List DottedRule := g.closeSkips [] rules

/-- The rule and what nullable moves make of it, in order. -/
def skips (g : Grammar) (r : DottedRule) : List DottedRule :=
  match _h : g.skip? r with
  | none => [r]
  | some r' => r :: g.skips r'
termination_by r.after.length
decreasing_by exact length_after_of_skip? _h

/-! ## Predictions -/

/-- The rules that a prediction of `A` brings in at once: the productions of `A`
and their nullable moves. -/
def leadingRules (g : Grammar) (A : NonTerminal) : List DottedRule := (g.initialRules A).flatMap g.skips

/-- The first non-terminal in line that has productions and was not expanded. -/
def nextExpansion? (g : Grammar) (expanded line : List NonTerminal) : Option NonTerminal :=
  line.find? fun A => A ∉ expanded && defines g.productions A

/-- Brings in the rules of the non-terminals in line and of those that these
rules wait for in turn, the latest first, each once. -/
def expandPredictions (g : Grammar) (expanded line : List NonTerminal) : List DottedRule :=
  match _h : g.nextExpansion? expanded line with
  | none => []
  | some A =>
    g.leadingRules A ++ g.expandPredictions (A :: expanded)
      (((g.leadingRules A).filterMap DottedRule.postDotNonTerminal?).reverse ++ line)
termination_by (unknownIn g.productions expanded).length
decreasing_by
  have h := List.find?_some _h
  simp only [Bool.and_eq_true, decide_eq_true_eq] at h
  obtain ⟨p, hp, rfl⟩ := defines_iff.1 h.2
  exact unknownIn_cons_lt hp h.1

/-- All rules that the given ones predict, directly or through others. -/
def predictions (g : Grammar) (rules : List DottedRule) : List DottedRule :=
  g.expandPredictions [] (rules.filterMap DottedRule.postDotNonTerminal?).reverse

end ChartParser.Grammar
