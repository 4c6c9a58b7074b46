import ChartParser.Fault
/-!
# Recognizers

What all parsers have in common: they take tokens one location at a time and
tell whether what they have taken so far is a sentence of their grammar.
-/
namespace ChartParser

/-- A parser of type `P` whose progress is a value of type `R`. -/
class Recognizer (P : Type) (R : outParam Type) where
  grammar : P → Grammar
  /-- The number of tokens taken so far. -/
  location : R → Nat
  /-- Offers the tokens as alternatives for the next location. The answer is
  true if one of them fits; otherwise nothing is taken. -/
  offer : P → R → List Token → Except Fault (Bool × R)
  /-- The tokens taken so far form a sentence. -/
  isAccepted : P → R → Bool
  /-- The lexer rules that the next token may have, in grammar order. -/
  expected : P → R → Except Fault (List LexerRule × R)
  /-- Starts over at location 0. -/
  restart : P → R → Except Fault R

namespace Recognizer

variable {P R : Type} [Recognizer P R]

/-- Offers the tokens one after the other, up to the first that is rejected;
true if all were taken and form a sentence. -/
def recognize (p : P) (run : R) : List Token → Except Fault (Bool × R)
  | [] => return (isAccepted p run, run)
  | t :: rest => do
    let (taken, run) ← offer p run [t]
    if taken then recognize p run rest else return (false, run)

/-- Offers the characters one after the other, each as a token named by the
character, up to the first that is rejected; tells how many were taken. -/
def feed (p : P) (run : R) : List Char → Except Fault (Nat × R)
  | [] => return (0, run)
  | c :: rest => do
    let (taken, run) ← offer p run [Token.ofChar c (location P run)]
    if taken then
      let (n, run) ← feed p run rest
      return (n + 1, run)
    else return (0, run)

/-- The tokens that the grammar's lexer rules make of `c` at the present
location, in grammar order. -/
def readings (p : P) (run : R) (c : Char) : List Token :=
  (grammar p).lexerRules.filterMap (·.token? c (location P run))

/-- Starts over and recognizes the tokens. -/
def recognizeFresh (p : P) (run : R) (tokens : List Token) : Except Fault (Bool × R) := do
  recognize p (← restart p run) tokens

end Recognizer

end ChartParser
