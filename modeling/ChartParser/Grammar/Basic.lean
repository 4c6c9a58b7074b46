import ChartParser.Grammar.Nullable
/-!
# Grammars

A context-free grammar: a start symbol and a list of productions in which
every non-terminal that is used is also defined. The nullable non-terminals
and the lexer rules are computed once, when the grammar is built.
-/
namespace ChartParser

/-- Why a list of productions is no grammar. -/
inductive GrammarError where
  | noStartProductions (start : NonTerminal)
  | undefinedNonTerminal (lhs symbol : NonTerminal)
deriving DecidableEq

def GrammarError.message : GrammarError → String
  | .noStartProductions start => "start symbol `" ++ start.name ++ "` has no productions"
  | .undefinedNonTerminal lhs symbol =>
    "a production for `" ++ lhs.name ++ "` refers to `" ++ symbol.name ++ "`, which has no productions"

/-! ## Lists of productions -/

/-- Some production has `A` on its left-hand side. -/
def defines (productions : List Production) (A : NonTerminal) : Bool := productions.any (·.lhs = A)

theorem defines_iff {productions : List Production} {A : NonTerminal} :
    defines productions A = true ↔ ∃ p ∈ productions, p.lhs = A := by
  simp [defines]

/-- The first use of an undefined non-terminal, with the left-hand side of the
production it stands in. -/
def undefinedUse? (productions : List Production) : Option (NonTerminal × NonTerminal) :=
  productions.findSome? fun p => p.rhs.findSome? fun s =>
    match s with
    | .terminal _ => none
    | .nonTerminal A => if defines productions A then none else some (p.lhs, A)

/-- The lexer rules used by the productions, each once, in order of first use. -/
def usedLexerRules (productions : List Production) : List LexerRule :=
  ((productions.flatMap (·.rhs)).filterMap Symbol.lexerRule?).eraseDups

theorem defines_of_undefinedUse?_eq_none {productions : List Production}
    (h : undefinedUse? productions = none) {p : Production} (hp : p ∈ productions) {A : NonTerminal}
    (hA : .nonTerminal A ∈ p.rhs) : defines productions A = true := by
  have h1 := List.findSome?_eq_none_iff.1 h p hp
  have h2 := List.findSome?_eq_none_iff.1 h1 _ hA
  simpa using h2

/-! ## Grammars -/

/-- A context-free grammar. -/
structure Grammar where
  start : NonTerminal
  productions : List Production
  /-- Rules that a tokenizer skips between tokens. -/
  ignored : List LexerRule
  nullable : List NonTerminal
  lexerRules : List LexerRule
  start_defined : defines productions start = true
  rhs_defined : ∀ p ∈ productions, ∀ A, .nonTerminal A ∈ p.rhs → defines productions A = true
  nullable_eq : nullable = nullables productions
  lexerRules_eq : lexerRules = usedLexerRules productions

namespace Grammar

/-- The grammar of the productions. A start symbol without productions is
reported first, then the first use of an undefined non-terminal. -/
def ofProductions (start : NonTerminal) (productions : List Production) : Except GrammarError Grammar :=
  if hs : defines productions start = true then
    match hu : undefinedUse? productions with
    | some (lhs, symbol) => .error (.undefinedNonTerminal lhs symbol)
    | none => .ok {
        start, productions
        ignored := []
        nullable := nullables productions
        lexerRules := usedLexerRules productions
        start_defined := hs
        rhs_defined := fun _ hp _ hA => defines_of_undefinedUse?_eq_none hu hp hA
        nullable_eq := rfl
        lexerRules_eq := rfl }
  else .error (.noStartProductions start)

/-- The grammar with more rules to skip between tokens. -/
def ignoring (g : Grammar) (rules : List LexerRule) : Grammar := { g with ignored := g.ignored ++ rules }

/-- The places of the productions of `A`, in increasing order. -/
def productionIds (g : Grammar) (A : NonTerminal) : List ProductionId :=
  g.productions.zipIdx.filterMap fun (p, i) => if p.lhs = A then some i else none

def isNullable (g : Grammar) (A : NonTerminal) : Bool := A ∈ g.nullable

/-- The place of a lexer rule, if the grammar uses it. -/
def lexerRuleId? (g : Grammar) (rule : LexerRule) : Option LexerRuleId := g.lexerRules.idxOf? rule

/-- The defined non-terminals, each once, ordered by name. -/
def nonTerminals (g : Grammar) : List NonTerminal :=
  (g.productions.map (·.lhs)).eraseDups.mergeSort fun A B => A.name ≤ B.name

/-- The number of ways to put a dot into a production: before, between and
after the symbols of each right-hand side. -/
def dotCount (g : Grammar) : Nat := g.productions.foldr (fun p n => p.rhs.length + 1 + n) 0

theorem mem_productionIds {g : Grammar} {A : NonTerminal} {i : ProductionId} :
    i ∈ g.productionIds A ↔ ∃ p, g.productions[i]? = some p ∧ p.lhs = A := by
  simp only [productionIds, List.mem_filterMap, Prod.exists, List.mk_mem_zipIdx_iff_getElem?]
  constructor
  · rintro ⟨p, j, hj, h⟩
    split at h
    · cases h; exact ⟨p, hj, ‹_›⟩
    · cases h
  · rintro ⟨p, hp, rfl⟩
    exact ⟨p, i, hp, by simp⟩

@[simp] theorem isNullable_iff {g : Grammar} {A : NonTerminal} :
    g.isNullable A = true ↔ A ∈ nullables g.productions := by
  simp [isNullable, g.nullable_eq]

theorem mem_lexerRules {g : Grammar} {r : LexerRule} :
    r ∈ g.lexerRules ↔ ∃ p ∈ g.productions, .terminal r ∈ p.rhs := by
  simp [g.lexerRules_eq, usedLexerRules]

end Grammar

end ChartParser
