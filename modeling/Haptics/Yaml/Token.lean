import Haptics.Yaml.Scalar

/-!
# Tokens

A document as the sequence of its marks and scalars. Indentation is made explicit: a block
collection begins and ends with tokens of its own. A mapping key written without a mark is known for
one only at the colon behind it, so its tokens are put in front of it then.
-/

namespace Haptics.Yaml

inductive Token
  | version (major minor : Nat)
  /-- A shorthand for the beginnings of tags. -/
  | shorthand (handle expansion : String)
  | documentStart
  | documentEnd
  | blockSequence
  | blockMapping
  | blockEnd
  | flowSequence
  | flowSequenceEnd
  | flowMapping
  | flowMappingEnd
  | entry
  | comma
  | key
  | value
  | reference (name : String)
  | anchor (name : String)
  | tag (handle suffix : String)
  | scalar (s : Scalar)
deriving DecidableEq, Repr

/-- A place where a mapping key may have begun. -/
structure KeyStart where
  /-- How many tokens there were before. -/
  tokens : Nat
  place : Cursor
  /-- Whether nothing but a key can stand there. -/
  required : Bool

/-- A text that is partly read. -/
structure Lexer where
  cursor : Cursor
  tokens : Array Token := #[]
  /-- The column of the innermost block collection. -/
  indent : Int := -1
  /-- The columns of the block collections around it. -/
  outer : List Int := []
  /-- Where a key may have begun inside the innermost brackets. -/
  keyStart : Option KeyStart := none
  /-- The same for what is around each pair of brackets. -/
  outerKeys : List (Option KeyStart) := []
  /-- Whether a key may begin here. -/
  keyAllowed : Bool := true

namespace Lexer

def inFlow (l : Lexer) : Bool := !l.outerKeys.isEmpty

def push (l : Lexer) (t : Token) : Lexer := { l with tokens := l.tokens.push t }

/-- Moves past `n` characters that make up a token. -/
def mark (l : Lexer) (n : Nat) (t : Token) : Lexer :=
  { l.push t with cursor := l.cursor.skip n }

/-! ## Indentation -/

/-- Ends all block collections that are indented further than a column. -/
def unroll (column : Int) (l : Lexer) : Lexer :=
  if l.inFlow then l else go l.outer l
where
  go : List Int → Lexer → Lexer
    | [], l => l
    | i :: outer, l =>
      if column < l.indent then go outer { l.push .blockEnd with indent := i, outer } else l

/-- Begins a block collection at a column, unless one has begun there. Its token is put at a place
among the tokens. -/
def roll (column : Nat) (place : Nat) (t : Token) (l : Lexer) : Lexer :=
  if !l.inFlow && l.indent < column then
    { l with
      indent := column
      outer := l.indent :: l.outer
      tokens := l.tokens.insertIdxIfInBounds place t }
  else l

/-! ## Keys -/

/-- Gives up the key that may have begun. -/
def dropKey (l : Lexer) : Option Lexer :=
  if l.keyStart.any (·.required) then none else some { l with keyStart := none }

/-- Notes that a key may begin here. -/
def noteKey (l : Lexer) : Option Lexer :=
  if l.keyAllowed then do
    let l ← l.dropKey
    some { l with keyStart := some {
      tokens := l.tokens.size
      place := l.cursor
      required := !l.inFlow && l.indent == l.cursor.column } }
  else some l

/-- A key ends on its line and within 1024 characters. -/
def isStale (c : Cursor) (k : KeyStart) : Bool :=
  k.place.line < c.line || k.place.index + 1024 < c.index

/-- Gives up all keys that went on for too long. -/
def dropStaleKeys (l : Lexer) : Option Lexer :=
  let keys := l.keyStart :: l.outerKeys
  if keys.any fun k => k.any fun k => isStale l.cursor k && k.required then none
  else
    let keep (k : Option KeyStart) : Option KeyStart := k.filter fun k => !isStale l.cursor k
    some { l with keyStart := keep l.keyStart, outerKeys := l.outerKeys.map keep }

/-! ## Space between tokens -/

/-- Moves to the next token, past at most `n` lines. -/
def skipSpace : Nat → Lexer → Lexer
  | 0, l => l
  | n + 1, l =>
    let c := if l.cursor.column = 0 ∧ l.cursor.sees '\ufeff' then l.cursor.skip 1 else l.cursor
    let tabs := l.inFlow || !l.keyAllowed
    let c := (c.skipWhile fun x => x == ' ' || (tabs && x == '\t')).skipComment
    if c.seesBreak then
      skipSpace n { l with cursor := c.skipBreak, keyAllowed := l.keyAllowed || !l.inFlow }
    else { l with cursor := c }

/-! ## Directives, anchors and tags -/

/-- Reads a number of at most nine digits. -/
def readVersionNumber (c : Cursor) : Option (Nat × Cursor) := do
  let (digits, c) := c.span Char.isDigit
  let n ← if digits.length ≤ 9 then number? 10 digits else none
  some (n, c)

/-- The marks that may stand in a tag beside letters, digits and `%`. -/
def tagMarks : List Char :=
  [';', '/', '?', ':', '@', '&', '=', '+', '$', '.', '!', '~', '*', '\'', '(', ')']

/-- Reads percent-encoded bytes that make up one character. -/
def readEncoded (c : Cursor) : Option (Char × Cursor) := do
  let byte (c : Cursor) : Option (Nat × Cursor) := do
    let digits := (c.rest.drop 1).take 2
    if c.sees '%' ∧ digits.length = 2 then some (← number? 16 digits, c.skip 3) else none
  let (first, c) ← byte c
  let (length, bits) ←
    if first < 0x80 then some (0, first)
    else if first / 0x20 = 6 then some (1, first % 0x20)
    else if first / 0x10 = 14 then some (2, first % 0x10)
    else if first / 8 = 30 then some (3, first % 8)
    else none
  let (code, c) ← (List.range length).foldlM (fun (code, c) _ => do
    let (b, c) ← byte c
    if b / 0x40 = 2 then some (code * 0x40 + b % 0x40, c) else none) (bits, c)
  if h : code.isValidChar then some (Char.ofNatAux code h, c) else none

/-- Reads characters of a tag, in at most `n` moves. -/
def readTagText (verbatim : Bool) : Nat → List Char → Cursor → Option (List Char × Cursor)
  | 0, text, c => some (text, c)
  | n + 1, text, c =>
    match c.peek? with
    | none => some (text, c)
    | some x =>
      if x = '%' then do
        let (y, c) ← readEncoded c
        readTagText verbatim n (text ++ [y]) c
      else if isWord x || tagMarks.contains x || (verbatim && [',', '[', ']'].contains x) then
        readTagText verbatim n (text ++ [x]) (c.skip 1)
      else some (text, c)

/-- Reads the handle of a tag: an exclamation mark, or a name between two of them. What follows a
single one may belong to the suffix. -/
def readHandle (c : Cursor) : Option (List Char × Cursor) :=
  if c.sees '!' then
    let (name, c) := (c.skip 1).span isWord
    if c.sees '!' then some ('!' :: name ++ ['!'], c.skip 1) else some ('!' :: name, c)
  else none

/-- Reads a tag. -/
def readTag (c : Cursor) : Option (Token × Cursor) :=
  if c.ahead? 1 == some '<' then do
    let c := c.skip 2
    let (text, c) ← readTagText true c.rest.length [] c
    if c.sees '>' ∧ !text.isEmpty then some (.tag "" (String.ofList text), c.skip 1) else none
  else do
    let (handle, c) ← readHandle c
    if 2 ≤ handle.length ∧ handle.getLast? = some '!' then
      let (text, c) ← readTagText false c.rest.length [] c
      if text.isEmpty then none
      else some (.tag (String.ofList handle) (String.ofList text), c)
    else
      let (text, c) ← readTagText false c.rest.length (handle.drop 1) c
      if text.isEmpty then some (.tag "" "!", c) else some (.tag "!" (String.ofList text), c)

/-- Reads a line that gives a directive. -/
def directive (l : Lexer) : Option Lexer := do
  let (name, c) := (l.cursor.skip 1).span isWord
  if name.isEmpty ∨ !c.hasGapAt 0 then none
  else
    let c := c.skipBlanks
    let (t, c) ← match String.ofList name with
      | "YAML" => do
        let (major, c) ← readVersionNumber c
        let (minor, c) ← if c.sees '.' then readVersionNumber (c.skip 1) else none
        some (Token.version major minor, c)
      | "TAG" => do
        let (handle, c) ← readHandle c
        if handle.length ≠ 1 ∧ handle.getLast? ≠ some '!' ∨ !c.seesBlank then none
        else
          let c := c.skipBlanks
          let (text, c) ← readTagText true c.rest.length [] c
          if text.isEmpty ∨ !c.hasGapAt 0 then none
          else some (.shorthand (String.ofList handle) (String.ofList text), c)
      | _ => none
    let c := c.skipBlanks.skipComment
    if c.seesLineEnd then some { l.push t with cursor := c.skipBreak } else none

/-- Reads the name of an anchor. -/
def readName (c : Cursor) : Option (String × Cursor) :=
  let (name, c) := (c.skip 1).span isWord
  let ends := c.hasGapAt 0 ||
    c.peek?.any fun x => ['?', ':', ',', ']', '}', '%', '@', '`'].contains x
  if name.isEmpty ∨ !ends then none else some (String.ofList name, c)

/-! ## The next token -/

/-- Begins or ends a document. -/
def documentMark (l : Lexer) (t : Token) : Option Lexer := do
  let l ← (l.unroll (-1)).dropKey
  some { l.mark 3 t with keyAllowed := false }

def openFlow (l : Lexer) (t : Token) : Option Lexer := do
  let l ← l.noteKey
  some { l.mark 1 t with
    keyStart := none, outerKeys := l.keyStart :: l.outerKeys, keyAllowed := true }

def closeFlow (l : Lexer) (t : Token) : Option Lexer := do
  let l ← l.dropKey
  let l := match l.outerKeys with
    | k :: outerKeys => { l with keyStart := k, outerKeys }
    | [] => l
  some { l.mark 1 t with keyAllowed := false }

def comma (l : Lexer) : Option Lexer := do
  let l ← l.dropKey
  some { l.mark 1 .comma with keyAllowed := true }

/-- An entry of a block sequence. -/
def entry (l : Lexer) : Option Lexer :=
  if l.inFlow || l.keyAllowed then do
    let l ← (l.roll l.cursor.column l.tokens.size .blockSequence).dropKey
    some { l.mark 1 .entry with keyAllowed := true }
  else none

/-- A key with a mark. -/
def key (l : Lexer) : Option Lexer :=
  if l.inFlow || l.keyAllowed then do
    let l ← (l.roll l.cursor.column l.tokens.size .blockMapping).dropKey
    some { l.mark 1 .key with keyAllowed := !l.inFlow }
  else none

/-- A colon makes what may have been a key a key. -/
def value (l : Lexer) : Option Lexer :=
  match l.keyStart with
  | some k =>
    let l := { l with tokens := l.tokens.insertIdxIfInBounds k.tokens .key }
    let l := l.roll k.place.column k.tokens .blockMapping
    some { l.mark 1 .value with keyStart := none, keyAllowed := false }
  | none =>
    if l.inFlow || l.keyAllowed then
      let l := l.roll l.cursor.column l.tokens.size .blockMapping
      some { l.mark 1 .value with keyAllowed := !l.inFlow }
    else none

/-- Something that may be a key. -/
def keyLike (l : Lexer) (read : Cursor → Option (Token × Cursor)) : Option Lexer := do
  let l ← l.noteKey
  let (t, cursor) ← read l.cursor
  some { l.push t with cursor, keyAllowed := false }

def plain (l : Lexer) : Option Lexer := do
  let l ← l.noteKey
  let (s, keyAllowed, cursor) ← l.cursor.plain? l.inFlow l.indent
  some { l.push (.scalar s) with cursor, keyAllowed }

def block (l : Lexer) : Option Lexer := do
  let l ← l.dropKey
  let (s, cursor) ← l.cursor.block? l.indent
  some { l.push (.scalar s) with cursor, keyAllowed := true }

/-- The marks that no plain scalar begins with. -/
def startMarks : List Char := ['#', '&', '*', '!', '|', '>', '\'', '"', '%', '@', '`']

/-- Whether a plain scalar begins with a character, if the next one is or is not a gap. -/
def beginsPlain (inFlow : Bool) (x : Char) (gapNext blankNext : Bool) : Bool :=
  if x == '-' then !blankNext
  else if x == '?' || x == ':' then !inFlow && !gapNext
  else !(isBlank x || isBreak x || isFlowMark x || startMarks.contains x)

/-- Reads the next token, which begins with `x`. -/
def token (l : Lexer) (x : Char) : Option Lexer :=
  let c := l.cursor
  if c.column = 0 ∧ x = '%' then do
    let l ← (l.unroll (-1)).dropKey
    { l with keyAllowed := false }.directive
  else if c.seesDocumentMark '-' then l.documentMark .documentStart
  else if c.seesDocumentMark '.' then l.documentMark .documentEnd
  else if x = '[' then l.openFlow .flowSequence
  else if x = '{' then l.openFlow .flowMapping
  else if x = ']' then l.closeFlow .flowSequenceEnd
  else if x = '}' then l.closeFlow .flowMappingEnd
  else if x = ',' then l.comma
  else if x = '-' ∧ c.hasGapAt 1 then l.entry
  else if x = '?' ∧ (l.inFlow || c.hasGapAt 1) then l.key
  else if x = ':' ∧ (l.inFlow || c.hasGapAt 1) then l.value
  else if x = '*' then
    l.keyLike fun c => (readName c).map fun (name, c) => (.reference name, c)
  else if x = '&' then
    l.keyLike fun c => (readName c).map fun (name, c) => (.anchor name, c)
  else if x = '!' then
    l.keyLike fun c => (readTag c).filter fun (_, c) =>
      c.hasGapAt 0 || (l.inFlow && c.sees ',')
  else if (x = '|' ∨ x = '>') ∧ !l.inFlow then l.block
  else if x = '\'' ∨ x = '"' then
    l.keyLike fun c => c.quoted?.map fun (s, c) => (.scalar s, c)
  else if beginsPlain l.inFlow x (c.hasGapAt 1) ((c.ahead? 1).any isBlank) then l.plain
  else none

/-- Reads on to the end of the text, through at most `n` tokens. -/
def read : Nat → Lexer → Option (List Token)
  | 0, _ => none
  | n + 1, l => do
    let l := l.skipSpace (l.cursor.rest.length + 1)
    let l ← l.dropStaleKeys
    let l := l.unroll l.cursor.column
    match l.cursor.peek? with
    | some x => read n (← l.token x)
    | none =>
      let l ← (l.unroll (-1)).dropKey
      some l.tokens.toList

end Lexer

/-- The tokens of a text. -/
def Token.scan? (s : String) : Option (List Token) :=
  let cs := s.toList
  if cs.all isAllowed then Lexer.read (cs.length + 1) { cursor := { rest := cs } } else none

end Haptics.Yaml
