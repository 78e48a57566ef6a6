import LambdaStack.Cluster.Basic
import LambdaStack.Session.Block

/-!
# Lines of input

What is typed into a session is divided at line feeds; a carriage return
in front of one is dropped with it.  A last line without line feed counts
if there is anything in it.

A backspace takes back the cluster typed last, if there is one.  The line
that is left, without backspaces, is what the session sees.

White space at the ends of a line is disregarded when the session looks
for blank lines and for its own command.
-/

namespace LambdaStack.Session

open Cluster

/-- The characters with the property White_Space. -/
def isWhiteSpace (c : Char) : Bool :=
  let n := c.toNat
  (0x9 ≤ n && n ≤ 0xD) || n = 0x20 || n = 0x85 || n = 0xA0 || n = 0x1680
    || (0x2000 ≤ n && n ≤ 0x200A) || n = 0x2028 || n = 0x2029
    || n = 0x202F || n = 0x205F || n = 0x3000

/-- Text without white space at its ends. -/
def trim (text : List Char) : List Char :=
  ((text.dropWhile isWhiteSpace).reverse.dropWhile isWhiteSpace).reverse

/-- Text without a carriage return at its end. -/
def dropReturn (text : List Char) : List Char :=
  if text.getLast? = some '\r' then text.dropLast else text

/-- The lines of a text: it is divided at line feeds, a carriage return in
front of one is dropped with it, and a last line counts if it is not empty. -/
def textLines (text : String) : List String :=
  let pieces := splitLines text.toList
  let ended := pieces.dropLast.map dropReturn
  let last := pieces.getLast?.toList.filter fun piece => !piece.isEmpty
  (ended ++ last).map String.ofList

/-- The character that takes back what was typed before it. -/
def backspace : Char := '\x08'

/-- A line while it is typed. -/
structure Typing where
  /-- what stands in the line, its last character first -/
  back : List Char := []
  /-- how many bytes each backspace takes, the next one first -/
  sizes : List UInt8 := []
  deriving DecidableEq, Repr

namespace Typing

/-- Takes back the cluster typed last.  Its size was kept in one byte, so of
a cluster of 256 bytes or more only the end is taken. -/
def takeBack (typing : Typing) : Typing :=
  match typing.sizes with
  | [] => typing
  | size :: sizes => ⟨(splitBytes size.toNat typing.back).2, sizes⟩

/-- Types a cluster, or takes one back. -/
def press (typing : Typing) (cluster : List Char) : Typing :=
  if cluster = [backspace] then
    typing.takeBack
  else
    ⟨cluster.reverse ++ typing.back,
      UInt8.ofNat (byteWidth cluster) :: typing.sizes⟩

/-- What stands in the line. -/
def text (typing : Typing) : List Char :=
  typing.back.reverse

end Typing

/-- A line after all its backspaces. -/
def typedText (line : List Char) : List Char :=
  ((clusters line).foldl Typing.press {}).text

theorem text_foldl_press (parts : List (List Char)) (typing : Typing)
    (h : ∀ part ∈ parts, part ≠ [backspace]) :
    (parts.foldl Typing.press typing).text = typing.text ++ parts.flatten := by
  induction parts generalizing typing with
  | nil => simp
  | cons part parts ih =>
    rw [List.foldl_cons, ih _ fun p hp => h p (List.mem_cons_of_mem _ hp)]
    simp [Typing.press, Typing.text, h part List.mem_cons_self]

/-- A line without backspaces stays as it is. -/
theorem typedText_eq_self (line : List Char) (h : backspace ∉ line) :
    typedText line = line := by
  have hparts : ∀ part ∈ clusters line, part ≠ [backspace] := by
    rintro part hpart rfl
    apply h
    rw [← flatten_clusters line]
    exact List.mem_flatten.mpr ⟨_, hpart, List.mem_cons_self⟩
  rw [typedText, text_foldl_press _ _ hparts, flatten_clusters]
  rfl

/-- The lines of what was typed. -/
def inputLines (input : String) : List String :=
  (textLines input).map fun line => String.ofList (typedText line.toList)

end LambdaStack.Session
