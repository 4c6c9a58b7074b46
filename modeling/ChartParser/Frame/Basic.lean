import ChartParser.DottedRule
/-!
# Frames

A frame is a set of dotted rules that always come together with one origin. It
knows which frame it leads to over each token type and each non-terminal, and
which frame holds what it predicts.
-/
namespace ChartParser

/-- The place of a frame in its graph. -/
abbrev FrameId := Nat

def renderFrameId (id : FrameId) : String := "f" ++ toString id

/-- What recognition sees of the symbol after the dot. -/
def DottedRule.postDotLetter? (r : DottedRule) : Option Letter := r.postDot?.map Symbol.letter

/-- Dotted rules that come together. -/
structure Frame where
  /-- The rules, each once, in the order of their places in the graph's table. -/
  rules : List DottedRule
  /-- The frame holds what another frame predicts. -/
  predicted : Bool
  tokenMoves : List (TokenType × FrameId)
  reductions : List (NonTerminal × FrameId)
  /-- The frame of the predicted rules, if there are any. -/
  prediction? : Option FrameId
  /-- The places of the lexer rules that the rules expect, in increasing order. -/
  lexerRuleIds : List LexerRuleId
  /-- The left-hand sides of the complete rules, each once. -/
  completed : List NonTerminal

namespace Frame

/-- A frame that leads nowhere yet. -/
def bare (rules : List DottedRule) (predicted : Bool) : Frame := ⟨rules, predicted, [], [], none, [], []⟩

/-- The frame that a token of type `t` leads to. -/
def tokenMove? (f : Frame) (t : TokenType) : Option FrameId := f.tokenMoves.lookup t

/-- The frame that the completion of `A` leads to. -/
def reduction? (f : Frame) (A : NonTerminal) : Option FrameId := f.reductions.lookup A

/-- The letters that the frame leads over, each once, in order of first use. -/
def letters (f : Frame) : List Letter := (f.rules.filterMap DottedRule.postDotLetter?).eraseDups

/-- The rules that wait for `x`, with their dots moved over it. -/
def kernel (f : Frame) (x : Letter) : List DottedRule :=
  (f.rules.filter (·.postDotLetter? = some x)).filterMap DottedRule.advance?

/-- The rules of the frame and where it leads to, one a line. -/
def render (f : Frame) (id : FrameId) : String :=
  renderFrameId id ++ (if f.predicted then " (predicted)" else "") ++ ":\n" ++
    String.join (f.rules.map fun r => "    " ++ r.render ++ "\n") ++
    String.join (f.tokenMoves.map fun (t, next) => "    scan " ++ t.name ++ " => " ++ renderFrameId next ++ "\n") ++
    String.join (f.reductions.map fun (A, next) => "    reduce " ++ A.name ++ " => " ++ renderFrameId next ++ "\n") ++
    (f.prediction?.map fun next => "    predict => " ++ renderFrameId next ++ "\n").getD ""

end Frame

end ChartParser
