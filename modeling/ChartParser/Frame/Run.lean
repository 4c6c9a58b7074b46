import ChartParser.Chart
import ChartParser.Expectations
import ChartParser.Frame.Graph
import ChartParser.Recognizer
/-!
# Parsing with frames

The chart of this parser holds whole frames, each with one origin. Prediction
and empty completions were settled when the graph was compiled. What is left is
to follow token moves when tokens are scanned, and reductions when frames with
an earlier origin hold complete rules.
-/
namespace ChartParser

/-- A frame and where the recognition of its rules began. -/
structure FrameItem where
  frame : FrameId
  origin : Nat
deriving DecidableEq

def FrameItem.render (x : FrameItem) : String :=
  "(" ++ renderFrameId x.frame ++ ", " ++ toString x.origin ++ ")"

/-- The frames at each location. -/
abbrev FrameChart := Chart (Queue FrameItem)

namespace FrameChart

/-- Inserts a frame at `location`; says whether it was new. -/
def insert (c : FrameChart) (location : Nat) (x : FrameItem) : Except Fault Bool × FrameChart :=
  c.update location .empty fun q => .ok (q.insert x)

def totalStates (c : FrameChart) : Nat := c.total Queue.size

def render (c : FrameChart) : String :=
  String.join (c.sets.mapIdx fun location q =>
    "== " ++ toString location ++ " ==\n" ++ String.join (q.toList.map (·.render ++ "\n")))

end FrameChart

/-- A parse with frames in progress. -/
structure FrameParse where
  chart : FrameChart
  /-- The number of tokens taken so far. -/
  location : Nat
  expectations : Expectations
  journal : Journal FrameItem

/-- Inserts a frame and enters it in the journal if it is new; says whether it
was. -/
def FrameParse.insert (run : FrameParse) (operation : Operation) (location : Nat) (x : FrameItem) :
    Except Fault (Bool × FrameParse) :=
  match FrameChart.insert run.chart location x with
  | (.error e, _) => .error e
  | (.ok false, chart) => .ok (false, { run with chart })
  | (.ok true, chart) =>
    .ok (true, { run with chart, journal := run.journal.push (.inserted operation location x) })

namespace FrameGraph

/-- Inserts a frame and, if it is new, the frame of what it predicts, which
begins at `location`. -/
def insert (graph : FrameGraph) (run : FrameParse) (operation : Operation) (location : Nat)
    (x : FrameItem) : Except Fault FrameParse := do
  let (new, run) ← run.insert operation location x
  if new then
    let f ← graph.frame x.frame
    match f.prediction? with
    | none => return run
    | some id =>
      let (_, run) ← run.insert .predict location ⟨id, location⟩
      return run
  else return run

/-! ## Reduction -/

/-- Moves the frame `x` over the completed `A` if it waits for it. -/
def reduceParent (graph : FrameGraph) (location : Nat) (A : NonTerminal) (run : FrameParse)
    (x : FrameItem) : Except Fault FrameParse := do
  let f ← graph.frame x.frame
  match f.reduction? A with
  | none => return run
  | some id => graph.insert run .complete location ⟨id, x.origin⟩

/-- Moves the frames at `origin` that wait for the completed `A`. -/
def reduceSymbol (graph : FrameGraph) (location origin : Nat) (run : FrameParse) (A : NonTerminal) :
    Except Fault FrameParse := do
  let set ← run.chart.get origin
  set.toList.foldlM (graph.reduceParent location A) run

/-- Passes on what the frame `x` completes. A frame that begins at `location`
itself completes only what was settled when the graph was compiled. -/
def reduceItem (graph : FrameGraph) (run : FrameParse) (location : Nat) (x : FrameItem) :
    Except Fault FrameParse := do
  if x.origin = location then return run
  else
    let f ← graph.frame x.frame
    f.completed.foldlM (graph.reduceSymbol location x.origin) run

/-- Passes on the frames at `location` from the `i`th on, until all are. -/
def reduceFrom (graph : FrameGraph) (location : Nat) : Nat → Nat → FrameParse → Except Fault FrameParse
  | 0, _, _ => throw .unsettled
  | fuel + 1, i, run => do
    let set ← run.chart.get location
    match set.get? i with
    | none => return run
    | some x =>
      let run ← graph.reduceItem run location x
      graph.reduceFrom location fuel (i + 1) run

/-- Closes the set at `location` under completion. It holds each frame at most
once for each origin. -/
def reduce (graph : FrameGraph) (run : FrameParse) (location : Nat) : Except Fault FrameParse :=
  graph.reduceFrom location (graph.frames.length * (location + 1) + 1) 0 run

/-! ## Starting -/

/-- Empties the chart and starts at location 0. The kept answers about
expectations stay. -/
def startOver (graph : FrameGraph) (run : FrameParse) : Except Fault FrameParse := do
  let run := { run with chart := .empty, location := 0 }
  let run ← graph.insert run .start 0 ⟨graph.startFrame, 0⟩
  graph.reduce run 0

/-- A new parse. -/
def start (graph : FrameGraph) : Except Fault FrameParse :=
  graph.startOver ⟨.empty, 0, .ofGrammar graph.grammar, #[]⟩

/-- Gives up all progress and starts again. -/
def restart (graph : FrameGraph) (run : FrameParse) : Except Fault FrameParse :=
  graph.startOver { run with journal := run.journal.push (.restarted run.location) }

/-! ## Taking tokens -/

/-- Moves the frame `x` over a token of type `t` if it expects one. -/
def scanItem (graph : FrameGraph) (location : Nat) (t : TokenType) (run : FrameParse) (x : FrameItem) :
    Except Fault FrameParse := do
  let f ← graph.frame x.frame
  match f.tokenMove? t with
  | none => return run
  | some id => graph.insert run .scan (location + 1) ⟨id, x.origin⟩

/-- Moves the frames at `location` that expect a token of `t`'s type. -/
def scan (graph : FrameGraph) (location : Nat) (run : FrameParse) (t : Token) : Except Fault FrameParse := do
  let set ← run.chart.get location
  set.toList.foldlM (graph.scanItem location t.tokenType) run

/-- Offers the tokens as alternatives for the next location. -/
def offer (graph : FrameGraph) (run : FrameParse) (tokens : List Token) :
    Except Fault (Bool × FrameParse) := do
  let run ← tokens.foldlM (graph.scan run.location) run
  let next := run.location + 1
  if run.chart.size ≤ next then
    return (false, { run with journal := run.journal.push (.rejected run.location tokens.length) })
  else
    let run ← graph.reduce { run with location := next } next
    let set ← run.chart.get next
    return (true, { run with journal := run.journal.push (.advanced next set.size) })

/-! ## Asking -/

/-- A frame from origin 0 holds a complete rule of the start symbol. -/
def accepts (graph : FrameGraph) (x : FrameItem) : Bool :=
  x.origin = 0 && (graph.frames[x.frame]?).any (graph.grammar.start ∈ ·.completed)

def isAccepted (graph : FrameGraph) (run : FrameParse) : Bool :=
  (run.chart.get? run.location).any (·.toList.any graph.accepts)

/-- Frames keep no derivations, so there is no forest to give a node of. -/
def root (_ : FrameGraph) (_ : FrameParse) : Except Fault (Option ForestNode) := throw .noForest

/-- The lexer rules that the next token may have, in grammar order. -/
def expected (graph : FrameGraph) (run : FrameParse) : Except Fault (List LexerRule × FrameParse) := do
  let items := ((run.chart.get? run.location).map (·.toList)).getD []
  let frames ← items.mapM fun x => graph.frame x.frame
  let (rules, expectations) ←
    run.expectations.collect graph.grammar (frames.flatMap (·.lexerRuleIds))
  return (rules, { run with expectations })

instance : Recognizer FrameGraph FrameParse where
  grammar graph := graph.grammar
  location run := run.location
  offer := offer
  isAccepted := isAccepted
  expected := expected
  restart := restart

end FrameGraph

end ChartParser
