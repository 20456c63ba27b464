/-!
# Cursors

A place in a text, with its line and column. A line ends with a line feed, a carriage return, both,
or one of the three line breaks of Unicode.
-/

namespace Haptics.Yaml

def isBreak (c : Char) : Bool :=
  c == '\n' || c == '\r' || c == '\u0085' || c == '\u2028' || c == '\u2029'

def isBlank (c : Char) : Bool := c == ' ' || c == '\t'

/-- The characters of names of anchors, directives and tag handles. -/
def isWord (c : Char) : Bool := c.isAlphanum || c == '_' || c == '-'

/-- The characters that may stand in a text. -/
def isAllowed (c : Char) : Bool :=
  c == '\t' || c == '\n' || c == '\r' || (' ' ≤ c && c ≤ '~') || c == '\u0085' ||
    ('\u00a0' ≤ c && c.toNat ≤ 0xfffd) || 0x10000 ≤ c.toNat

/-- What a line break contributes to a scalar: all count as a line feed but for the two that
Unicode made for nothing else. -/
def breakText (c : Char) : Char := if c == '\u2028' || c == '\u2029' then c else '\n'

/-- A place in a text. -/
structure Cursor where
  /-- What comes next. -/
  rest : List Char
  index : Nat := 0
  line : Nat := 0
  column : Nat := 0

namespace Cursor

def peek? (c : Cursor) : Option Char := c.rest.head?

/-- The character `n` places ahead. -/
def ahead? (c : Cursor) (n : Nat) : Option Char := c.rest[n]?

def isAtEnd (c : Cursor) : Bool := c.rest.isEmpty

/-- Whether a certain character comes next. -/
def sees (c : Cursor) (x : Char) : Bool := c.peek? == some x

def seesBlank (c : Cursor) : Bool := c.peek?.any isBlank

def seesBreak (c : Cursor) : Bool := c.peek?.any isBreak

/-- Whether a line break or the end comes next. -/
def seesLineEnd (c : Cursor) : Bool := c.peek?.all isBreak

/-- Whether a blank, a line break or the end is `n` places ahead. -/
def hasGapAt (c : Cursor) (n : Nat) : Bool := (c.ahead? n).all fun x => isBlank x || isBreak x

/-- Moves past `n` characters of one line. -/
def skip (c : Cursor) (n : Nat) : Cursor :=
  let n := (c.rest.take n).length
  { c with rest := c.rest.drop n, index := c.index + n, column := c.column + n }

/-- Moves past a line break. -/
def skipBreak (c : Cursor) : Cursor :=
  match c.rest with
  | '\r' :: '\n' :: rest => ⟨rest, c.index + 2, c.line + 1, 0⟩
  | _ :: rest => ⟨rest, c.index + 1, c.line + 1, 0⟩
  | [] => c

/-- The characters up to the first that fails a test, which all lie on one line. -/
def span (c : Cursor) (p : Char → Bool) : List Char × Cursor :=
  let taken := c.rest.takeWhile p
  (taken, c.skip taken.length)

def skipWhile (c : Cursor) (p : Char → Bool) : Cursor := (c.span p).2

def skipBlanks (c : Cursor) : Cursor := c.skipWhile isBlank

/-- Moves past a comment, if one begins here. -/
def skipComment (c : Cursor) : Cursor :=
  if c.sees '#' then c.skipWhile fun x => !isBreak x else c

/-- Whether three of a kind begin a line and stand alone, which separates documents. -/
def seesDocumentMark (c : Cursor) (x : Char) : Bool :=
  c.column == 0 && (c.rest.take 3 == [x, x, x]) && c.hasGapAt 3

def seesDocumentEdge (c : Cursor) : Bool := c.seesDocumentMark '-' || c.seesDocumentMark '.'

end Cursor

/-! ## Gaps -/

/-- Blanks and line breaks between two parts of a scalar. -/
structure Gap where
  /-- The blanks before the first line break. -/
  blanks : List Char := []
  first : Option Char := none
  /-- The line breaks after the first. -/
  more : List Char := []

namespace Gap

def isBroken (g : Gap) : Bool := g.first.isSome

/-- What a gap contributes to a scalar. A single line break becomes a space, and of several the
first is dropped. -/
def folded (g : Gap) : List Char :=
  match g.first, g.more with
  | none, _ => g.blanks
  | some '\n', [] => [' ']
  | some '\n', more => more
  | some x, more => x :: more

/-- Reads a gap in at most `n` moves. After a line break, no tab may stand left of column
`indent`. -/
def read (indent : Nat) : Nat → Gap → Cursor → Option (Gap × Cursor)
  | 0, g, c => some (g, c)
  | n + 1, g, c =>
    match c.peek? with
    | none => some (g, c)
    | some x =>
      if isBlank x then
        if g.isBroken then
          if c.column < indent ∧ x = '\t' then none else read indent n g (c.skip 1)
        else read indent n { g with blanks := g.blanks ++ [x] } (c.skip 1)
      else if isBreak x then
        let g := match g.first with
          | none => { g with first := some (breakText x) }
          | some _ => { g with more := g.more ++ [breakText x] }
        read indent n g c.skipBreak
      else some (g, c)

end Gap

/-- Reads the gap that begins here. -/
def Cursor.gap? (c : Cursor) (indent : Nat) : Option (Gap × Cursor) :=
  Gap.read indent c.rest.length {} c

end Haptics.Yaml
