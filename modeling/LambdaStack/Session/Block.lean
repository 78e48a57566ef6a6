import LambdaStack.Token.Basic
import LambdaStack.Session.Paint

/-!
# Labelled extracts of a text

A **block** shows a line of a text with labels under it.  Each label
covers a stretch of the line, has a text of its own, and is tied to its
stretch by a drawn stroke:

      ╭─[input]
      │
    1 │ a $ b
      ┆   ┬
      ┆   │
      ┆   ╰─── invalid token
    ──╯

Lines are divided at line feeds only.  All widths are counted in bytes.

A label can also cover a line feed.  It then runs from the end of one
line to the beginning of the next, which is drawn in two parts.
-/

namespace LambdaStack.Session

/-- The number of bytes of a text. -/
def byteWidth : List Char → Nat
  | [] => 0
  | c :: cs => c.utf8Size + byteWidth cs

/-- A line of a text. -/
structure Line where
  /-- counted from one -/
  number : Nat
  /-- the bytes in front of it -/
  start : Nat
  text : List Char
  deriving DecidableEq, Repr

namespace Line

/-- The byte behind the last one of the line. -/
def stop (line : Line) : Nat :=
  line.start + byteWidth line.text

end Line

/-- Divides a text at its line feeds. -/
def splitLines : List Char → List (List Char)
  | [] => [[]]
  | c :: cs =>
    if c = '\n' then
      [] :: splitLines cs
    else
      match splitLines cs with
      | [] => [[c]]
      | line :: lines => (c :: line) :: lines

/-- Numbers lines, and finds where each of them begins. -/
def placeLines (number start : Nat) : List (List Char) → List Line
  | [] => []
  | text :: texts =>
    ⟨number, start, text⟩
      :: placeLines (number + 1) (start + byteWidth text + 1) texts

/-- The lines of a text. -/
def linesOf (text : String) : List Line :=
  placeLines 1 0 (splitLines text.toList)

/-- A stretch of text with something to be said about it. -/
structure Label where
  span : Span
  /-- the colour of the stretch and of the stroke -/
  colour : Colour
  /-- what is said, painted already -/
  text : String
  deriving DecidableEq, Repr

/-- A part of a line, with its label if it has one. -/
structure Part where
  text : List Char
  label : Option Label
  deriving DecidableEq, Repr

namespace Part

/-- The number of bytes of a part. -/
def width (part : Part) : Nat :=
  byteWidth part.text

/-- How far into its stretch a stroke stands. -/
def left (part : Part) : Nat :=
  part.width / 2

/-- How much of its stretch lies behind a stroke. -/
def right (part : Part) : Nat :=
  part.width - (part.left + 1)

/-- The part as text. -/
def painted (part : Part) : String :=
  match part.label with
  | none => String.ofList part.text
  | some label => label.colour.paint (String.ofList part.text)

/-- A drawing as wide as the part: `edge`, a `stroke` in the middle, and
`edge` again if the part has a label, spaces if it has none. -/
def draw (part : Part) (edge stroke : Char) : String :=
  match part.label with
  | none => spaces part.width
  | some label =>
    label.colour.paint
      (fill part.left edge ++ stroke.toString ++ fill part.right edge)

end Part

/-- The number of bytes of all parts together. -/
def partsWidth : List Part → Nat
  | [] => 0
  | part :: parts => part.width + partsWidth parts

/-- The first characters that fit into `width` bytes, and the others. -/
def splitBytes : Nat → List Char → List Char × List Char
  | _, [] => ([], [])
  | width, c :: cs =>
    if c.utf8Size ≤ width then
      let (front, back) := splitBytes (width - c.utf8Size) cs
      (c :: front, back)
    else
      ([], c :: cs)

/-- A part without label, left out if there is nothing in it. -/
def plainPart (text : List Char) : List Part :=
  if text.isEmpty then [] else [⟨text, none⟩]

/-- Cuts a text that begins at byte `start` at its labels, which are in
order and do not overlap. -/
def cutParts (start : Nat) (text : List Char) : List Label → List Part
  | [] => plainPart text
  | label :: labels =>
    let (before, text) := splitBytes (label.span.start - start) text
    let (covered, text) :=
      splitBytes (label.span.stop - label.span.start) text
    plainPart before ++ ⟨covered, some label⟩
      :: cutParts label.span.stop text labels

/-- What stands in front of a line of the text. -/
def lineMargin (margin number : Nat) : String :=
  let digits := toString number
  s!"{spaces (margin - digits.length)}{digits} │"

/-- What stands in front of a drawn line. -/
def drawnMargin (margin : Nat) : String :=
  s!"{spaces margin} ┆"

/-- The two drawn lines of each label: the strokes from it on, and its
text.  `before` is the width of the parts in front. -/
def labelRows (margin before : Nat) : List Part → List String
  | [] => []
  | part :: parts =>
    let rest := labelRows margin (before + part.width) parts
    match part.label with
    | none => rest
    | some label =>
      let strokes := String.join
        ((part :: parts).map fun part => part.draw ' ' '│')
      let arm := label.colour.paint
        ("╰" ++ fill (part.right + partsWidth parts + 1) '─')
      let indent := spaces (before + part.left)
      s!"{drawnMargin margin} {spaces before}{strokes}"
        :: s!"{drawnMargin margin} {indent}{arm} {label.text}"
        :: rest

/-- A block with its frame. -/
def frameRows (name : String) (margin : Nat) (rows : List String) :
    List String :=
  s!"{spaces margin} ╭─[{name}]" :: s!"{spaces margin} │"
    :: rows ++ [fill (margin + 1) '─' ++ "╯"]

/-- The block of labels that lie on one line. -/
def lineBlock (name : String) (line : Line) (labels : List Label) :
    List String :=
  let margin := (toString line.number).length
  let parts := cutParts line.start line.text labels
  let code := String.join (parts.map Part.painted)
  let strokes := String.join (parts.map fun part => part.draw '─' '┬')
  frameRows name margin
    (s!"{lineMargin margin line.number} {code}"
      :: s!"{drawnMargin margin} {strokes}"
      :: labelRows margin 0 parts)

/-- The block of a label that covers the line feed behind `line`, where
the next line is empty. -/
def breakBlock (name : String) (line : Line) (label : Label) :
    List String :=
  let paint := label.colour.paint
  let margin := (toString (line.number + 1)).length
  let width := byteWidth line.text
  let code := String.ofList line.text
  let blank := paint ""
  let arrow := paint "▲"
  let stroke := paint "│"
  let turn := paint ("╭" ++ fill (width + 1) '─' ++ "╯")
  let foot := paint "╰┴─"
  frameRows name margin
    [s!"{lineMargin margin line.number}   {code}{blank}",
      s!"{drawnMargin margin}   {spaces width}{arrow}",
      s!"{drawnMargin margin} {turn}",
      s!"{lineMargin margin (line.number + 1)} {stroke} {blank}",
      s!"{drawnMargin margin} {stroke}{arrow}",
      s!"{drawnMargin margin} {stroke}{stroke}",
      s!"{drawnMargin margin} {foot} {label.text}"]

/-- The line that a byte of the text belongs to; a line feed belongs to
the line that it ends. -/
def lineAt? (lines : List Line) (offset : Nat) : Option Line :=
  lines.find? fun line => line.start ≤ offset ∧ offset ≤ line.stop

/-- The block of a single label, if the label lies in the text. -/
def labelBlock? (name : String) (lines : List Line) (label : Label) :
    Option (List String) :=
  (lineAt? lines label.span.start).map fun line =>
    if label.span.stop ≤ line.stop then lineBlock name line [label]
    else breakBlock name line label

end LambdaStack.Session
