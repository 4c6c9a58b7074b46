import ChartParser.Grammar.Basic
/-!
# Dotted rules

A production with a dot in its right-hand side. What stands before the dot has
been recognized, what stands after it is still expected.
-/
namespace ChartParser

/-- `lhs -> before . after`, where `production` is the place of the production
`lhs -> before after` in its grammar. -/
structure DottedRule where
  production : ProductionId
  lhs : NonTerminal
  before : List Symbol
  after : List Symbol
deriving DecidableEq

namespace DottedRule

/-- The production with the dot in front. -/
def initial (id : ProductionId) (p : Production) : DottedRule := ⟨id, p.lhs, [], p.rhs⟩

/-- The number of symbols before the dot. -/
def position (r : DottedRule) : Nat := r.before.length

/-- Nothing is expected any more. -/
def isComplete (r : DottedRule) : Bool := r.after.isEmpty

/-- The symbol after the dot. -/
def postDot? (r : DottedRule) : Option Symbol := r.after.head?

/-- The symbol after the dot, if it is a non-terminal. -/
def postDotNonTerminal? (r : DottedRule) : Option NonTerminal := r.postDot?.bind Symbol.nonTerminal?

/-- The symbol after the dot, if it is a terminal. -/
def postDotLexerRule? (r : DottedRule) : Option LexerRule := r.postDot?.bind Symbol.lexerRule?

/-- The dot moved over one symbol; nothing for a complete rule. -/
def advance? (r : DottedRule) : Option DottedRule :=
  match r.after with
  | [] => none
  | s :: rest => some { r with before := r.before ++ [s], after := rest }

def render (r : DottedRule) : String :=
  r.lhs.name ++ " ->" ++ Symbol.renderAll r.before ++ " ." ++ Symbol.renderAll r.after

/-! ## What the operations do to a rule -/

theorem isComplete_iff {r : DottedRule} : r.isComplete = true ↔ r.after = [] := by
  simp [isComplete]

theorem advance?_eq_none_iff {r : DottedRule} : r.advance? = none ↔ r.isComplete = true := by
  unfold advance? isComplete
  split <;> simp_all

theorem advance?_eq_some_iff {r r' : DottedRule} :
    r.advance? = some r' ↔ ∃ s rest, r.after = s :: rest ∧
      r' = { r with before := r.before ++ [s], after := rest } := by
  unfold advance?
  split
  · simp_all
  · rename_i s rest hr
    constructor
    · intro h
      cases h
      exact ⟨s, rest, hr, rfl⟩
    · rintro ⟨s', rest', hr', rfl⟩
      rw [hr, List.cons.injEq] at hr'
      rw [hr'.1, hr'.2]

/-- Moving the dot keeps the production and adds one to the position. -/
theorem advance?_some {r r' : DottedRule} (h : r.advance? = some r') :
    r'.production = r.production ∧ r'.lhs = r.lhs ∧ r'.position = r.position + 1 ∧
      r'.before ++ r'.after = r.before ++ r.after := by
  obtain ⟨s, rest, hr, rfl⟩ := advance?_eq_some_iff.1 h
  simp [position, hr]

theorem postDot?_eq_none_iff {r : DottedRule} : r.postDot? = none ↔ r.isComplete = true := by
  simp [postDot?, isComplete]

theorem postDot?_eq_some_iff {r : DottedRule} {s : Symbol} :
    r.postDot? = some s ↔ ∃ rest, r.after = s :: rest := by
  simp [postDot?, List.head?_eq_some_iff]

theorem postDotNonTerminal?_eq_some_iff {r : DottedRule} {A : NonTerminal} :
    r.postDotNonTerminal? = some A ↔ r.postDot? = some (.nonTerminal A) := by
  simp [postDotNonTerminal?, Option.bind_eq_some_iff]

theorem postDotLexerRule?_eq_some_iff {r : DottedRule} {l : LexerRule} :
    r.postDotLexerRule? = some l ↔ r.postDot? = some (.terminal l) := by
  simp [postDotLexerRule?, Option.bind_eq_some_iff]

/-- A rule that expects a symbol can move over it. -/
theorem exists_advance {r : DottedRule} {s : Symbol} (h : r.postDot? = some s) : ∃ r', r.advance? = some r' := by
  obtain ⟨rest, hr⟩ := postDot?_eq_some_iff.1 h
  exact ⟨_, advance?_eq_some_iff.2 ⟨s, rest, hr, rfl⟩⟩

/-- The symbol that was expected now stands before the dot. -/
theorem before_of_advance? {r r' : DottedRule} {s : Symbol} (hs : r.postDot? = some s) (h : r.advance? = some r') :
    r'.before = r.before ++ [s] := by
  obtain ⟨rest, hr⟩ := postDot?_eq_some_iff.1 hs
  obtain ⟨s', rest', hr', rfl⟩ := advance?_eq_some_iff.1 h
  simp_all

end DottedRule

namespace Grammar

/-- The productions of `A` with the dot in front, in order. -/
def initialRules (g : Grammar) (A : NonTerminal) : List DottedRule :=
  g.productions.zipIdx.filterMap fun (p, i) => if p.lhs = A then some (.initial i p) else none

/-- The place in the grammar of the lexer rule after the dot. -/
def postDotLexerRuleId? (g : Grammar) (r : DottedRule) : Option LexerRuleId :=
  r.postDotLexerRule?.bind g.lexerRuleId?

/-- `r` is one of the grammar's productions with a dot in it. -/
def HasRule (g : Grammar) (r : DottedRule) : Prop :=
  g.productions[r.production]? = some ⟨r.lhs, r.before ++ r.after⟩

theorem mem_initialRules {g : Grammar} {A : NonTerminal} {r : DottedRule} :
    r ∈ g.initialRules A ↔ ∃ i p, g.productions[i]? = some p ∧ p.lhs = A ∧ r = .initial i p := by
  simp only [initialRules, List.mem_filterMap, Prod.exists, List.mk_mem_zipIdx_iff_getElem?]
  constructor
  · rintro ⟨p, i, hi, h⟩
    split at h
    · cases h; exact ⟨i, p, hi, ‹_›, rfl⟩
    · cases h
  · rintro ⟨i, p, hi, rfl, rfl⟩
    exact ⟨p, i, hi, by simp⟩

theorem HasRule.of_mem_initialRules {g : Grammar} {A : NonTerminal} {r : DottedRule}
    (h : r ∈ g.initialRules A) : g.HasRule r ∧ r.lhs = A := by
  obtain ⟨i, p, hi, rfl, rfl⟩ := mem_initialRules.1 h
  exact ⟨by simpa [HasRule, DottedRule.initial] using hi, rfl⟩

theorem HasRule.advance? {g : Grammar} {r r' : DottedRule} (h : g.HasRule r)
    (ha : r.advance? = some r') : g.HasRule r' := by
  obtain ⟨s, rest, hr, rfl⟩ := DottedRule.advance?_eq_some_iff.1 ha
  simpa [HasRule, hr] using h

theorem HasRule.exists_mem {g : Grammar} {r : DottedRule} (h : g.HasRule r) :
    ∃ p ∈ g.productions, p.lhs = r.lhs ∧ p.rhs = r.before ++ r.after :=
  ⟨_, List.mem_of_getElem? h, rfl, rfl⟩

/-- Production and position determine a rule of the grammar. -/
theorem HasRule.ext {g : Grammar} {r r' : DottedRule} (h : g.HasRule r) (h' : g.HasRule r')
    (hp : r.production = r'.production) (hd : r.position = r'.position) : r = r' := by
  obtain ⟨i, A, u, v⟩ := r
  obtain ⟨j, B, u', v'⟩ := r'
  simp only [HasRule, DottedRule.position] at *
  subst hp
  rw [h, Option.some.injEq, Production.mk.injEq] at h'
  obtain ⟨hu, hv⟩ := List.append_inj h'.2 hd
  simp [h'.1, hu, hv]

end Grammar

end ChartParser
