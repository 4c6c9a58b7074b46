import ChartParser.Parser.Reduction
import ChartParser.Recognizer
/-!
# Parsing

A parse starts at location 0 with the productions of the start symbol. Each
list of tokens that it is offered either moves it on by one location or is
rejected and changes nothing.
-/
namespace ChartParser

namespace Parser

variable {σ : Type}

/-! ## Starting -/

/-- Empties the chart and starts at location 0. The table of rules, the forest
and the kept answers about expectations stay. -/
def startOver (p : Parser σ) (run : Parse σ) : Except Fault (Parse σ) := do
  let run := { run with chart := .empty, location := 0, memoized := 0 }
  let run ← run.begin .start 0 (p.grammar.initialRules p.grammar.start)
  p.reduce run 0

/-- A new parse, with the forest builder in state `forest`. -/
def start (p : Parser σ) (forest : σ) : Except Fault (Parse σ) :=
  p.startOver {
    table := .empty
    chart := .empty
    location := 0
    forest
    expectations := .ofGrammar p.grammar
    memoized := 0
    journal := #[] }

/-- Gives up all progress and starts again. -/
def restart (p : Parser σ) (run : Parse σ) : Except Fault (Parse σ) :=
  p.startOver { run with journal := run.journal.push (.restarted run.location) }

/-! ## Taking tokens -/

/-- Moves `s` over `t` if it expects a token of that type. -/
def scanState (p : Parser σ) (location : Nat) (t : Token) (run : Parse σ) (s : State) :
    Except Fault (Parse σ) :=
  if s.expects t.tokenType then p.advance run .scan (location + 1) s (.token t) else .ok run

/-- Moves the states at `location` that expect a token of `t`'s type over `t`. -/
def scan (p : Parser σ) (location : Nat) (run : Parse σ) (t : Token) : Except Fault (Parse σ) := do
  let set ← run.chart.get location
  set.scans.toList.foldlM (p.scanState location t) run

/-- Offers the tokens as alternatives for the next location. -/
def offer (p : Parser σ) (run : Parse σ) (tokens : List Token) : Except Fault (Bool × Parse σ) := do
  let run ← tokens.foldlM (p.scan run.location) run
  let next := run.location + 1
  if run.chart.size ≤ next then
    return (false, { run with journal := run.journal.push (.rejected run.location tokens.length) })
  else
    let run ← p.reduce { run with location := next } next
    let set ← run.chart.get next
    return (true, { run with journal := run.journal.push (.advanced next set.size) })

/-! ## Asking -/

/-- The completed start rule that spans the whole input, if there is one. -/
def accepting? (p : Parser σ) (run : Parse σ) : Option State :=
  match run.chart.get? run.location with
  | none => none
  | some set => set.completions.toList.find? fun s => s.origin = 0 && s.rule.lhs = p.grammar.start

def isAccepted (p : Parser σ) (run : Parse σ) : Bool := (p.accepting? run).isSome

/-- The node of the accepted input, if there is one. -/
def root? (p : Parser σ) (run : Parse σ) : Option ForestNode := (p.accepting? run).bind (·.node)

/-- The places of the lexer rules that the states at the present location
expect, in the order of the states. -/
def expectedIds (p : Parser σ) (run : Parse σ) : List LexerRuleId :=
  match run.chart.get? run.location with
  | none => []
  | some set => set.scans.toList.filterMap fun s => p.grammar.postDotLexerRuleId? s.rule

/-- The lexer rules that the next token may have, in grammar order. -/
def expected (p : Parser σ) (run : Parse σ) : Except Fault (List LexerRule × Parse σ) := do
  let (rules, expectations) ← run.expectations.collect p.grammar (p.expectedIds run)
  return (rules, { run with expectations })

instance : Recognizer (Parser σ) (Parse σ) where
  grammar p := p.grammar
  location run := run.location
  offer := offer
  isAccepted := isAccepted
  expected := expected
  restart := restart

end Parser

end ChartParser
