import ChartParser.Parser.Basic
/-!
# Reduction

Closes the set at a location: every prediction brings in the productions it
waits for, and every completion moves the states that waited for it. Both may
add to the set, and the work goes on until nothing is left to do.

A set holds at most one normal state for each dotted rule and origin, which
bounds the number of steps; a run beyond the bound is a fault.
-/
namespace ChartParser

/-- The number of normal states that a set at `location` can hold: one for each
dotted rule and each origin up to the location. -/
def Grammar.stateBound (g : Grammar) (location : Nat) : Nat := g.dotCount * (location + 1)

namespace Parser

variable {σ : Type}

/-! ## Prediction -/

/-- Brings in the productions of the non-terminal that `s` waits for. If it is
nullable, `s` also moves past it at once. -/
def predict (p : Parser σ) (run : Parse σ) (location : Nat) (s : State) : Except Fault (Parse σ) := do
  match s.rule.postDotNonTerminal? with
  | none => return run
  | some A =>
    let run ← run.begin .predict location (p.grammar.initialRules A)
    if p.grammar.isNullable A then p.advance run .predict location s (.empty A) else return run

/-! ## Memoized paths -/

/-- Memoizes in set `k` that completing `A` there completes `rule` from
`origin`. -/
def addTransition (run : Parse σ) (A : NonTerminal) (k : Nat) (rule : DottedRule) (origin : Nat) :
    Except Fault (Parse σ) := do
  let (new, run) ← run.insert .transition k (.transitive A rule origin)
  return if new then { run with memoized := run.memoized + 1 } else run

/-- Follows the completion of `A` in set `k` upwards, as long as exactly one
state waits for it and becomes complete by it, and memoizes the path in every
set it passes. Answers the rule and origin at the top of the path, if there is
a path. A path goes no further than a complete start rule at origin 0, since
that item is what acceptance asks for. -/
def memoize (p : Parser σ) (run : Parse σ) (A : NonTerminal) (k : Nat) :
    Except Fault (Option (DottedRule × Nat) × Parse σ) := do
  let set ← run.chart.get k
  match set.transition? A with
  | some t => return (some (t.rule, t.origin), run)
  | none =>
    match set.soleWaiting? A with
    | none => return (none, run)
    | some s =>
      match s.rule.advance? with
      | none => return (none, run)
      | some rule =>
        let run := { run with table := run.table.intern rule }
        if rule.isComplete then
          let climb :=
            if _h : s.origin < k ∧ ¬(s.origin = 0 ∧ rule.lhs = p.grammar.start) then
              p.memoize run rule.lhs s.origin
            else .ok (none, run)
          let (above, run) ← climb
          let top := above.getD (rule, s.origin)
          let run ← addTransition run A k top.1 top.2
          return (some top, run)
        else return (none, run)
termination_by k

/-! ## Completion -/

/-- Moves the states of set `origin` that wait for `A`, from the `i`th on, over
`crossed` into set `location`. The two sets may be the same one, which then grows
meanwhile. -/
def advanceWaiting (p : Parser σ) (A : NonTerminal) (origin location : Nat) (crossed : Crossing) :
    Nat → Nat → Parse σ → Except Fault (Parse σ)
  | 0, _, _ => throw .unsettled
  | fuel + 1, i, run => do
    let set ← run.chart.get origin
    match (set.waiting A)[i]? with
    | none => return run
    | some s =>
      let run ← p.advance run .complete location s crossed
      p.advanceWaiting A origin location crossed fuel (i + 1) run

/-- Moves all states that waited for the completed `s`, step by step. -/
def completeStepwise (p : Parser σ) (run : Parse σ) (location : Nat) (s : State) :
    Except Fault (Parse σ) :=
  p.advanceWaiting s.rule.lhs s.origin location (.completed s.rule.lhs s.origin s.node)
    (p.grammar.stateBound location + 1) 0 run

/-- Goes from the completed `s` to the top `t` of its memoized path. -/
def jump (p : Parser σ) (run : Parse σ) (location : Nat) (s t : State) : Except Fault (Parse σ) :=
  p.attach run .complete
    { rule := t.rule
      origin := t.origin
      location
      parent := none
      crossed := .transitive s.rule.lhs s.origin s.node }

/-- Passes a completed state on. A state that begins at `location` itself was
completed without input; its set still grows, so there is no path to memoize. -/
def complete (p : Parser σ) (run : Parse σ) (location : Nat) (s : State) : Except Fault (Parse σ) := do
  if p.leo && s.origin < location then
    let (_, run) ← p.memoize run s.rule.lhs s.origin
    let set ← run.chart.get s.origin
    match set.transition? s.rule.lhs with
    | some t => p.jump run location s t
    | none => p.completeStepwise run location s
  else p.completeStepwise run location s

/-! ## The closure of a set -/

/-- Passes on the completions from the `c`th on and the predictions from the
`q`th on, completions first, until both queues are used up. -/
def reduceFrom (p : Parser σ) (location : Nat) : Nat → Nat → Nat → Parse σ → Except Fault (Parse σ)
  | 0, _, _, _ => throw .unsettled
  | fuel + 1, c, q, run => do
    let set ← run.chart.get location
    match set.completions.get? c, set.predictions.get? q with
    | some s, _ =>
      let run ← p.complete run location s
      p.reduceFrom location fuel (c + 1) q run
    | none, some s =>
      let run ← p.predict run location s
      p.reduceFrom location fuel c (q + 1) run
    | none, none => return run

/-- Closes the set at `location` under prediction and completion. -/
def reduce (p : Parser σ) (run : Parse σ) (location : Nat) : Except Fault (Parse σ) :=
  p.reduceFrom location (p.grammar.stateBound location + 1) 0 0 run

end Parser

end ChartParser
