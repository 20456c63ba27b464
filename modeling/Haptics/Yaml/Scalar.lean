import Haptics.Yaml.Cursor

/-!
# Scalars

A scalar is written plain, in quotes, or as a block of indented lines. The style stays with the
text, because only a plain scalar can mean a number or nothing.
-/

namespace Haptics.Yaml

inductive Style
  | plain | quoted | literal | folded
deriving DecidableEq, Repr

structure Scalar where
  style : Style
  text : String
deriving DecidableEq, Repr

/-- What stands where nothing is written. -/
def Scalar.empty : Scalar := ⟨.plain, ""⟩

/-! ## Plain scalars -/

/-- The characters that end a plain scalar inside brackets. -/
def isFlowMark (c : Char) : Bool := c == ',' || c == '[' || c == ']' || c == '{' || c == '}'

/-- How many characters belong to the part of a plain scalar that begins here. -/
def plainLength (inFlow : Bool) : List Char → Option Nat
  | [] => some 0
  | x :: rest =>
    if isBlank x || isBreak x then some 0
    else
      let next := rest.head?
      if inFlow && x == ':' && next.any (fun y => isFlowMark y || y == '?') then none
      else if x == ':' && next.all (fun y => isBlank y || isBreak y) then some 0
      else if inFlow && isFlowMark x then some 0
      else (plainLength inFlow rest).map (· + 1)

/-- Reads on in a plain scalar, `text` and the gap `g` behind it being read already. Tells whether
the scalar ended in front of a new line, and where it ended. -/
def readPlain (inFlow : Bool) (indent : Nat) :
    Nat → List Char → Gap → Cursor → Option (Scalar × Bool × Cursor)
  | 0, _, _, _ => none
  | n + 1, text, g, c =>
    let done := some (⟨.plain, String.ofList text⟩, g.isBroken, c)
    if c.seesDocumentEdge || c.sees '#' then done
    else do
      let length ← plainLength inFlow c.rest
      let part := c.rest.take length
      let text := if part.isEmpty then text else text ++ g.folded ++ part
      let c := c.skip length
      let g := if part.isEmpty then g else {}
      if c.seesBlank || c.seesBreak then
        let (g, c) ← Gap.read indent c.rest.length g c
        if !inFlow && c.column < indent then
          some (⟨.plain, String.ofList text⟩, g.isBroken, c)
        else readPlain inFlow indent n text g c
      else some (⟨.plain, String.ofList text⟩, g.isBroken, c)

/-! ## Quoted scalars -/

/-- What a letter after a backslash stands for. -/
def escape? : Char → Option Char
  | '0' => some '\x00'
  | 'a' => some '\x07'
  | 'b' => some '\x08'
  | 't' | '\t' => some '\t'
  | 'n' => some '\n'
  | 'v' => some '\x0b'
  | 'f' => some '\x0c'
  | 'r' => some '\r'
  | 'e' => some '\x1b'
  | ' ' => some ' '
  | '"' => some '"'
  | '/' => some '/'
  | '\\' => some '\\'
  | 'N' => some '\u0085'
  | '_' => some '\u00a0'
  | 'L' => some '\u2028'
  | 'P' => some '\u2029'
  | _ => none

/-- How many hexadecimal digits follow a letter after a backslash. -/
def escapeDigits? : Char → Option Nat
  | 'x' => some 2
  | 'u' => some 4
  | 'U' => some 8
  | _ => none

def hexDigit? (c : Char) : Option Nat :=
  if c.isDigit then some (c.toNat - '0'.toNat)
  else if 'a' ≤ c ∧ c ≤ 'f' then some (c.toNat - 'a'.toNat + 10)
  else if 'A' ≤ c ∧ c ≤ 'F' then some (c.toNat - 'A'.toNat + 10)
  else none

/-- The number that digits of a base write. -/
def number? (base : Nat) (digits : List Char) : Option Nat :=
  if digits.isEmpty then none
  else digits.foldlM (fun n c => do
    let d ← hexDigit? c
    if d < base then some (base * n + d) else none) 0

/-- Reads the escape after a backslash. -/
def readEscape (c : Cursor) : Option (Char × Cursor) := do
  let x ← c.peek?
  match escape? x with
  | some y => some (y, c.skip 1)
  | none =>
    let length ← escapeDigits? x
    let digits := (c.rest.drop 1).take length
    let code ← if digits.length = length then number? 16 digits else none
    if h : code.isValidChar then some (Char.ofNatAux code h, c.skip (1 + length)) else none

/-- Reads a part of a quoted scalar up to a gap or the closing quote, in at most `n` moves. Tells
whether a backslash hides the line break that comes next. -/
def readQuotedPart (quote : Char) : Nat → List Char → Cursor → Option (List Char × Bool × Cursor)
  | 0, text, c => some (text, false, c)
  | n + 1, text, c =>
    match c.rest with
    | [] => some (text, false, c)
    | x :: rest =>
      if isBlank x || isBreak x then some (text, false, c)
      else if x = quote then
        if quote = '\'' ∧ rest.head? = some '\'' then
          readQuotedPart quote n (text ++ ['\'']) (c.skip 2)
        else some (text, false, c)
      else if quote = '"' ∧ x = '\\' then
        if rest.head?.any isBreak then some (text, true, (c.skip 1).skipBreak)
        else do
          let (y, c) ← readEscape (c.skip 1)
          readQuotedPart quote n (text ++ [y]) c
      else readQuotedPart quote n (text ++ [x]) (c.skip 1)

/-- Reads on in a quoted scalar up to its closing quote, in at most `n` parts. -/
def readQuoted (quote : Char) : Nat → List Char → Cursor → Option (List Char × Cursor)
  | 0, _, _ => none
  | n + 1, text, c =>
    if c.seesDocumentEdge || c.isAtEnd then none
    else do
      let (text, isHidden, c) ← readQuotedPart quote c.rest.length text c
      if c.sees quote then some (text, c.skip 1)
      else
        let (g, c) ← if isHidden then
            Gap.read 0 c.rest.length { first := some '\n' } c
          else c.gap? 0
        readQuoted quote n (text ++ if isHidden then g.more else g.folded) c

/-! ## Block scalars -/

/-- What happens to the line breaks at the end of a block. -/
inductive Chomping
  | strip | clip | keep
deriving DecidableEq

/-- Reads the signs after the mark of a block: the chomping and the indentation, in any order. -/
def readBlockHeader (c : Cursor) : Option (Chomping × Option Nat × Cursor) :=
  let chomping (c : Cursor) : Option Chomping × Cursor :=
    if c.sees '+' then (some .keep, c.skip 1)
    else if c.sees '-' then (some .strip, c.skip 1)
    else (none, c)
  let indentation (c : Cursor) : Option (Option Nat × Cursor) :=
    match c.peek? with
    | some x =>
      if x = '0' then none
      else if x.isDigit then some (some (x.toNat - '0'.toNat), c.skip 1)
      else some (none, c)
    | none => some (none, c)
  do
    let (before, c) := chomping c
    let (indent, c) ← indentation c
    let (after, c) := if before.isSome then (none, c) else chomping c
    let c := c.skipBlanks.skipComment
    if c.seesLineEnd then some ((before <|> after).getD .clip, indent, c.skipBreak) else none

/-- Reads empty lines of a block, in at most `n` moves. Before the indentation is known, the widest
of them counts for it. -/
def readEmptyLines (indent : Option Nat) :
    Nat → Nat → List Char → Cursor → Option (Nat × List Char × Cursor)
  | 0, widest, breaks, c => some (widest, breaks, c)
  | n + 1, widest, breaks, c =>
    let inside (c : Cursor) : Bool := indent.all (c.column < ·)
    let spaces := (c.rest.takeWhile (· == ' ')).length
    let c := c.skip (match indent with
      | some i => min spaces (i - c.column)
      | none => spaces)
    let widest := max widest c.column
    if inside c && c.sees '\t' then none
    else match c.peek? with
      | some x =>
        if isBreak x then readEmptyLines indent n widest (breaks ++ [breakText x]) c.skipBreak
        else some (widest, breaks, c)
      | none => some (widest, breaks, c)

/-- Reads the lines of a block, in at most `n` lines. `lineBreak` ended the line before, which began
with a blank if `wasBlank`, and `breaks` are the empty lines since. -/
def readBlockLines (isLiteral : Bool) (indent : Nat) :
    Nat → List Char → Option Char → List Char → Bool → Cursor →
      Option (List Char × Option Char × List Char × Cursor)
  | 0, text, lineBreak, breaks, _, c => some (text, lineBreak, breaks, c)
  | n + 1, text, lineBreak, breaks, wasBlank, c =>
    if c.column = indent ∧ !c.isAtEnd then
      let blank := c.seesBlank
      let joined :=
        if !isLiteral && lineBreak == some '\n' && !wasBlank && !blank then
          if breaks.isEmpty then [' '] else breaks
        else lineBreak.toList ++ breaks
      let (line, c) := c.span fun x => !isBreak x
      do
        let lineBreak := c.peek?.map breakText
        let (_, breaks, c) ← readEmptyLines (some indent) (c.rest.length + 1) 0 [] c.skipBreak
        readBlockLines isLiteral indent n (text ++ joined ++ line) lineBreak breaks blank c
    else some (text, lineBreak, breaks, c)

/-- Reads the block after its mark, inside a collection that is indented by `outer`. -/
def readBlock (isLiteral : Bool) (outer : Int) (c : Cursor) : Option (Scalar × Cursor) := do
  let (chomping, increment, c) ← readBlockHeader c
  let given := increment.map fun i => outer.toNat + i
  let (widest, breaks, c) ← readEmptyLines given (c.rest.length + 1) 0 [] c
  let indent := given.getD (max widest (max (outer + 1).toNat 1))
  let (text, lineBreak, breaks, c) ←
    readBlockLines isLiteral indent c.rest.length [] none breaks false c
  let tail := match chomping with
    | .strip => []
    | .clip => lineBreak.toList
    | .keep => lineBreak.toList ++ breaks
  some (⟨if isLiteral then .literal else .folded, String.ofList (text ++ tail)⟩, c)

/-! ## Scalars in a text -/

/-- Reads the plain scalar that begins here, inside a collection that is indented by `outer`. -/
def Cursor.plain? (c : Cursor) (inFlow : Bool) (outer : Int) : Option (Scalar × Bool × Cursor) :=
  readPlain inFlow (outer + 1).toNat (c.rest.length + 1) [] {} c

/-- Reads the quoted scalar whose quote comes next. -/
def Cursor.quoted? (c : Cursor) : Option (Scalar × Cursor) := do
  let quote ← c.peek?
  let (text, c) ← readQuoted quote (c.rest.length + 1) [] (c.skip 1)
  some (⟨.quoted, String.ofList text⟩, c)

/-- Reads the block whose mark comes next, inside a collection that is indented by `outer`. -/
def Cursor.block? (c : Cursor) (outer : Int) : Option (Scalar × Cursor) :=
  readBlock (c.sees '|') outer (c.skip 1)

end Haptics.Yaml
