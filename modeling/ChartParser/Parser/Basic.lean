import ChartParser.Chart
import ChartParser.Expectations
import ChartParser.Journal
import ChartParser.RuleTable
/-!
# Chart parsers

A chart parser keeps, for every location of its input, the items that agree
with the input so far. This module has the parser, a parse in progress, and the
two ways in which states come into its chart: dots put in front of productions
and dots moved over a symbol.
-/
namespace ChartParser

/-- A grammar and how to parse with it. -/
structure Parser (σ : Type) where
  grammar : Grammar
  /-- Memoize the paths of completions that have one way to go (Leo's
  optimization), so that right recursion takes linear work. -/
  leo : Bool
  builder : ForestBuilder σ

/-- A parse in progress. -/
structure Parse (σ : Type) where
  /-- The dotted rules that came up, numbered in order of first use. -/
  table : RuleTable
  chart : Chart ItemSet
  /-- The number of tokens taken so far. -/
  location : Nat
  /-- The state of the forest builder. -/
  forest : σ
  expectations : Expectations
  /-- The number of paths memoized since the parse was last started. -/
  memoized : Nat
  journal : Journal Item

namespace Parse

variable {σ : Type}

/-- Inserts a state at `location` and enters it in the journal if it is new;
says whether it was. -/
def insert (run : Parse σ) (operation : Operation) (location : Nat) (s : State) :
    Except Fault (Bool × Parse σ) :=
  match run.chart.insert location s with
  | (.error e, _) => .error e
  | (.ok false, chart) => .ok (false, { run with chart })
  | (.ok true, chart) =>
    .ok (true, { run with chart, journal := run.journal.push (.inserted operation location s.toItem) })

/-- Inserts a rule that begins at `location`. -/
def beginRule (operation : Operation) (location : Nat) (run : Parse σ) (rule : DottedRule) :
    Except Fault (Parse σ) := do
  let run := { run with table := run.table.intern rule }
  let (_, run) ← run.insert operation location (.normal rule location none)
  return run

/-- Inserts the rules, which begin at `location`, one after the other. -/
def begin (run : Parse σ) (operation : Operation) (location : Nat) (rules : List DottedRule) :
    Except Fault (Parse σ) :=
  rules.foldlM (beginRule operation location) run

end Parse

namespace Parser

variable {σ : Type}

/-- Shows a move to the forest builder and inserts the state after it. -/
def attach (p : Parser σ) (run : Parse σ) (operation : Operation) (move : DotMove) :
    Except Fault (Parse σ) := do
  let (node, forest) := p.builder.attach move run.forest
  let run := { run with forest }
  let (_, run) ← run.insert operation move.location (.normal move.rule move.origin node)
  return run

/-- Moves the dot of `s` over `crossed` and inserts the result at `location`. A
complete rule does not move. -/
def advance (p : Parser σ) (run : Parse σ) (operation : Operation) (location : Nat) (s : State)
    (crossed : Crossing) : Except Fault (Parse σ) :=
  match s.rule.advance? with
  | none => .ok run
  | some rule =>
    p.attach { run with table := run.table.intern rule } operation
      { rule, origin := s.origin, location, parent := s.node, crossed }

end Parser

end ChartParser
