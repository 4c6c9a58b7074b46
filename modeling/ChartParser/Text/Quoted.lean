import ChartParser.Text.DefaultIgnorable
import ChartParser.Text.ExtendingMark
import ChartParser.Text.Unprintable
/-!
# Quoted text

A character or a text between quote marks. Inside, the mark itself, the
backslash and every character that cannot be shown on its own are written as
escapes.
-/
namespace ChartParser.Text

/-- The two quote marks: one for single characters, one for texts. -/
inductive Quote where
  | single
  | double
deriving DecidableEq

def Quote.mark : Quote → Char
  | .single => '\''
  | .double => '"'

/-- The code point in lower-case hexadecimal, without padding, between braces. -/
def escapeCodePoint (c : Char) : List Char :=
  ['\\', 'u', '\x7b'] ++ Nat.toDigits 16 c.toNat ++ ['\x7d']

/-- A character that a quoted text cannot show as itself, wherever in the text
it stands. -/
def isHidden (c : Char) : Bool := isUnprintable c || isExtendingMark c || isDefaultIgnorable c

/-- How `c` is written between marks `q`. Only the enclosing mark is escaped;
the other one stands for itself. -/
def escape (q : Quote) (c : Char) : List Char :=
  if c = '\x00' then ['\\', '0']
  else if c = '\t' then ['\\', 't']
  else if c = '\r' then ['\\', 'r']
  else if c = '\n' then ['\\', 'n']
  else if c = '\\' || c = q.mark then ['\\', c]
  else if isHidden c then escapeCodePoint c
  else [c]

/-- `text` between marks `q`. -/
def quoted (q : Quote) (text : List Char) : String :=
  String.ofList (q.mark :: text.flatMap (escape q) ++ [q.mark])

/-- A character between single marks. -/
def quotedChar (c : Char) : String := quoted .single [c]

/-- A text between double marks. -/
def quotedText (text : String) : String := quoted .double text.toList

end ChartParser.Text
