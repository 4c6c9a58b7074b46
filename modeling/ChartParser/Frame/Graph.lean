import ChartParser.Frame.Basic
import ChartParser.Frame.Closure
import ChartParser.Journal
import ChartParser.RuleTable
/-!
# Frame graphs

A grammar compiled into frames. Nullable moves stay within a frame. What the
rules of a frame predict makes up a frame of its own beside it, and since that
one holds its own predictions too, it needs none beside itself. Moving a dot is
then a look-up.

Two frames of one graph differ in their rules or in being predicted. Frames are
completed in the order in which they were found.
-/
namespace ChartParser

/-- A frame graph under construction. -/
structure FrameDraft where
  table : RuleTable
  frames : List Frame

namespace FrameDraft

/-- The frame of the given rules, found or added, with its rules entered in
the table. -/
def intern (d : FrameDraft) (rules : List DottedRule) (predicted : Bool) : FrameId × FrameDraft :=
  let table := d.table.internAll rules
  let rules := table.inOrder rules
  match d.frames.findIdx? fun f => f.rules = rules && f.predicted = predicted with
  | some id => (id, { d with table })
  | none => (d.frames.length, ⟨table, d.frames ++ [.bare rules predicted]⟩)

/-- The frame with what `f` predicts. -/
def predict (d : FrameDraft) (g : Grammar) (f : Frame) : Option FrameId × FrameDraft :=
  if f.predicted then (none, d)
  else
    match g.predictions f.rules with
    | [] => (none, d)
    | rules =>
      let (id, d) := d.intern rules true
      (some id, d)

/-- The frames that `f` leads to over the given letters. -/
def follow (g : Grammar) (f : Frame) : List Letter → FrameDraft → List (Letter × FrameId) × FrameDraft
  | [], d => ([], d)
  | x :: rest, d =>
    let (id, d) := d.intern (g.skipClosure (f.kernel x)) false
    let (targets, d) := follow g f rest d
    ((x, id) :: targets, d)

/-- Completes the frame `f` at `id`. -/
def complete (d : FrameDraft) (g : Grammar) (id : FrameId) (f : Frame) : FrameDraft :=
  let d := { d with table := d.table.internAll (f.rules.filterMap DottedRule.advance?) }
  let (prediction?, d) := d.predict g f
  let (targets, d) := follow g f f.letters d
  let scanned := f.rules.filterMap g.postDotLexerRuleId?
  let done : Frame := {
    rules := f.rules
    predicted := f.predicted
    tokenMoves := targets.filterMap fun
      | (.token t, next) => some (t, next)
      | (.nonTerminal _, _) => none
    reductions := targets.filterMap fun
      | (.token _, _) => none
      | (.nonTerminal A, next) => some (A, next)
    prediction?
    lexerRuleIds := (List.range g.lexerRules.length).filter (· ∈ scanned)
    completed := ((f.rules.filter (·.isComplete)).map (·.lhs)).eraseDups }
  { d with frames := d.frames.set id done }

/-- Completes the frames from the `id`th on, until none is left. -/
def completeFrom (g : Grammar) : Nat → FrameId → FrameDraft → Except Fault FrameDraft
  | 0, _, _ => throw .unsettled
  | fuel + 1, id, d =>
    match d.frames[id]? with
    | none => return d
    | some f => completeFrom g fuel (id + 1) (d.complete g id f)

end FrameDraft

/-- The number of frames that a grammar can have: a set of dotted rules each,
predicted or not. -/
def Grammar.frameBound (g : Grammar) : Nat := Nat.pow 2 (g.dotCount + 1)

/-- A grammar compiled into frames. -/
structure FrameGraph where
  grammar : Grammar
  table : RuleTable
  frames : List Frame
  startFrame : FrameId

namespace FrameGraph

/-- Compiles a grammar, starting from the productions of its start symbol. -/
def ofGrammar (g : Grammar) : Except Fault FrameGraph := do
  let kernel := g.initialRules g.start
  let (start, d) := FrameDraft.intern ⟨.empty, []⟩ (g.skipClosure kernel) false
  let d ← d.completeFrom g (g.frameBound + 1) 0
  return ⟨g, d.table, d.frames, start⟩

/-- The frame at `id`. -/
def frame (graph : FrameGraph) (id : FrameId) : Except Fault Frame := fetch graph.frames id

/-- What is to be said of the compilation. -/
def report {α : Type} (graph : FrameGraph) : LogEntry α :=
  .compiled graph.frames.length graph.table.size

def render (graph : FrameGraph) : String :=
  String.join (graph.frames.mapIdx fun id f => f.render id)

end FrameGraph

end ChartParser
