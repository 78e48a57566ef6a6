/-!
# Coloured text

Text is painted for a terminal by an escape sequence in front of it and
another one behind it.  Painting is always on, for the empty text too.
-/

namespace LambdaStack.Session

/-- The colours in use. -/
inductive Colour where
  | red
  | green
  | yellow
  | blue
  | cyan
  deriving DecidableEq, Repr

namespace Colour

/-- The number of a colour in an escape sequence. -/
def code : Colour → Nat
  | red => 31
  | green => 32
  | yellow => 33
  | blue => 34
  | cyan => 36

/-- Text in a colour. -/
def paint (colour : Colour) (text : String) : String :=
  s!"\x1b[{colour.code}m{text}\x1b[0m"

end Colour

/-- The same character `count` times. -/
def fill (count : Nat) (c : Char) : String :=
  String.ofList (List.replicate count c)

/-- Spaces. -/
def spaces (count : Nat) : String :=
  fill count ' '

end LambdaStack.Session
