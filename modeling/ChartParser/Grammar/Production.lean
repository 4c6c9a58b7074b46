import ChartParser.LexerRule
/-!
# Productions

A production replaces a non-terminal by a sequence of symbols, each a
terminal (a lexer rule) or again a non-terminal.
-/
namespace ChartParser

/-- A variable of the grammar, known by its name. -/
structure NonTerminal where
  name : String
deriving DecidableEq

/-- What may stand on the right-hand side of a production. -/
inductive Symbol where
  | terminal (rule : LexerRule)
  | nonTerminal (A : NonTerminal)
deriving DecidableEq

namespace Symbol

def nonTerminal? : Symbol → Option NonTerminal
  | .terminal _ => none
  | .nonTerminal A => some A

def lexerRule? : Symbol → Option LexerRule
  | .terminal rule => some rule
  | .nonTerminal _ => none

def render : Symbol → String
  | .terminal rule => rule.render
  | .nonTerminal A => A.name

/-- Each symbol after a blank. -/
def renderAll (symbols : List Symbol) : String := String.join (symbols.map (" " ++ ·.render))

@[simp] theorem nonTerminal?_eq_some {s : Symbol} {A : NonTerminal} :
    s.nonTerminal? = some A ↔ s = .nonTerminal A := by
  cases s <;> simp [nonTerminal?]

@[simp] theorem lexerRule?_eq_some {s : Symbol} {r : LexerRule} :
    s.lexerRule? = some r ↔ s = .terminal r := by
  cases s <;> simp [lexerRule?]

end Symbol

/-- What recognition sees of a symbol: the type of a terminal, or the
non-terminal itself. Terminals of one type are alike to it. -/
inductive Letter where
  | token (t : TokenType)
  | nonTerminal (A : NonTerminal)
deriving DecidableEq

def Symbol.letter : Symbol → Letter
  | .terminal rule => .token rule.tokenType
  | .nonTerminal A => .nonTerminal A

@[simp] theorem Symbol.letter_eq_nonTerminal {s : Symbol} {A : NonTerminal} :
    s.letter = .nonTerminal A ↔ s = .nonTerminal A := by
  cases s <;> simp [letter]

@[simp] theorem Symbol.letter_eq_token {s : Symbol} {t : TokenType} :
    s.letter = .token t ↔ ∃ r, s = .terminal r ∧ r.tokenType = t := by
  cases s <;> simp [letter]

/-- `lhs` may be replaced by the sequence `rhs`, which may be empty. -/
structure Production where
  lhs : NonTerminal
  rhs : List Symbol
deriving DecidableEq

namespace Production

def isEmpty (p : Production) : Bool := p.rhs.isEmpty

def render (p : Production) : String := p.lhs.name ++ " ->" ++ Symbol.renderAll p.rhs

end Production

/-- The place of a production in its grammar. -/
abbrev ProductionId := Nat

/-- The place of a lexer rule in its grammar. -/
abbrev LexerRuleId := Nat

def renderProductionId (id : ProductionId) : String := "p" ++ toString id

def renderLexerRuleId (id : LexerRuleId) : String := "l" ++ toString id

end ChartParser
