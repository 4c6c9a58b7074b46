import ChartParser.Token
/-!
# Lexer rules

A lexer rule pairs a matcher for single characters with the type of the
tokens it makes. Matchers serve the tokenizer in front of a parser; a parser
compares token types only.
-/
namespace ChartParser

/-- Which characters a lexer rule takes. -/
inductive Matcher where
  | char (c : Char)
  /-- Every character from `lo` to `hi`, both included, by code point. -/
  | range (lo hi : Char)
  /-- The listed characters. Two lists are different matchers even if they
  hold the same characters. -/
  | oneOf (cs : List Char)
  | any
deriving DecidableEq

namespace Matcher

/-- Whether the matcher takes `c`. -/
def accepts : Matcher → Char → Bool
  | .char d, c => c == d
  | .range lo hi, c => lo ≤ c && c ≤ hi
  | .oneOf cs, c => cs.contains c
  | .any, _ => true

def render : Matcher → String
  | .char c => Text.quotedChar c
  | .range lo hi => String.ofList ['[', lo, '-', hi, ']']
  | .oneOf cs => String.ofList ('[' :: cs ++ [']'])
  | .any => "."

end Matcher

/-- A class of tokens of one character. -/
structure LexerRule where
  tokenType : TokenType
  matcher : Matcher
deriving DecidableEq

namespace LexerRule

/-- The rule for one character, with the token type that `Token.ofChar` gives it. -/
def char (c : Char) : LexerRule := ⟨⟨String.singleton c⟩, .char c⟩

/-- The rule for a range of characters, typed by its text. -/
def range (lo hi : Char) : LexerRule := ⟨⟨Matcher.render (.range lo hi)⟩, .range lo hi⟩

/-- The rule for the characters of a text, typed by its text. -/
def oneOf (cs : List Char) : LexerRule := ⟨⟨Matcher.render (.oneOf cs)⟩, .oneOf cs⟩

/-- The rule for every character. -/
def any : LexerRule := ⟨⟨Matcher.render .any⟩, .any⟩

def accepts (r : LexerRule) (c : Char) : Bool := r.matcher.accepts c

/-- The token that the rule makes of `c` at `position`, if it takes `c`. -/
def token? (r : LexerRule) (c : Char) (position : Nat) : Option Token :=
  if r.accepts c then some ⟨String.singleton c, position, r.tokenType⟩ else none

def render (r : LexerRule) : String := r.matcher.render

theorem token?_isSome (r : LexerRule) (c : Char) (n : Nat) : (r.token? c n).isSome = r.accepts c := by
  unfold token?
  split <;> simp_all

theorem tokenType_of_token? {r : LexerRule} {c : Char} {n : Nat} {t : Token} (h : r.token? c n = some t) :
    t.tokenType = r.tokenType := by
  unfold token? at h
  split at h
  · cases h; rfl
  · cases h

/-- The rule for one character makes the token that stands for the character. -/
theorem char_token? (c : Char) (n : Nat) : (char c).token? c n = some (Token.ofChar c n) := by
  simp [token?, accepts, char, Matcher.accepts, Token.ofChar]

end LexerRule

end ChartParser
