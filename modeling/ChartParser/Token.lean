import ChartParser.Text.Quoted
/-!
# Tokens

A token is a lexeme with a type. Recognition looks at the type alone; value
and position are carried along for whoever reads the result.
-/
namespace ChartParser

/-- The class of a token. A terminal matches a token when their types agree. -/
structure TokenType where
  name : String
deriving DecidableEq

/-- A lexeme, where it stands in the input, and its type. -/
structure Token where
  value : String
  position : Nat
  tokenType : TokenType
deriving DecidableEq

namespace Token

/-- A token of one character, whose type is named by the character itself. -/
def ofChar (c : Char) (position : Nat) : Token :=
  ⟨String.singleton c, position, ⟨String.singleton c⟩⟩

/-- The tokens of a text, one a character, at positions 0, 1, 2, ... -/
def ofText (text : String) : List Token := text.toList.mapIdx fun i c => ofChar c i

/-- The quoted value, the position and the name of the type. -/
def render (t : Token) : String :=
  Text.quotedText t.value ++ "@" ++ toString t.position ++ ":" ++ t.tokenType.name

@[simp] theorem ofChar_value (c : Char) (n : Nat) : (ofChar c n).value = String.singleton c := rfl

@[simp] theorem ofChar_tokenType (c : Char) (n : Nat) : (ofChar c n).tokenType = ⟨String.singleton c⟩ := rfl

@[simp] theorem length_ofText (text : String) : (ofText text).length = text.toList.length := by
  simp [ofText]

end Token

end ChartParser
