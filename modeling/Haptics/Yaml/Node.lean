import Haptics.Yaml.Token

/-!
# Nodes

A document as a tree of scalars, sequences and mappings. A node with an anchor can be referred to
further on, even from inside itself, so references are numbers and the document keeps the nodes they
stand for.
-/

namespace Haptics.Yaml

inductive Node
  | scalar (tag : Option String) (s : Scalar)
  | sequence (items : List Node)
  | mapping (pairs : List (Node × Node))
  | reference (target : Nat)

def Node.empty : Node := .scalar none .empty

structure Document where
  root : Node
  /-- The nodes that have anchors. -/
  targets : List (Nat × Node) := []

/-- The node that a reference stands for. -/
def Document.follow (d : Document) : Node → Node
  | .reference target => (d.targets.lookup target).getD .empty
  | x => x

/-! ## Reading tokens -/

/-- What is left of the tokens of a document, and the names its anchors have given. -/
structure Unread where
  tokens : List Token
  shorthands : List (String × String)
  /-- What the anchors refer to, the latest first. -/
  anchors : List (String × Nat) := []
  targets : List (Nat × Node) := []

abbrev Reading := StateT Unread Option

namespace Reading

def peek? : Reading (Option Token) := do return (← get).tokens.head?

def skip : Reading Unit := modify fun u => { u with tokens := u.tokens.drop 1 }

/-- Whether one of some tokens, or nothing, comes next. -/
def seesAny (ts : List Token) : Reading Bool := do return (← peek?).all ts.contains

/-- Moves past a token, which has to come next. -/
def expect (t : Token) : Reading Unit := do
  if (← peek?) = some t then skip else failure

/-- The node an anchor refers to. -/
def lookUp (name : String) : Reading Node := do
  match (← get).anchors.lookup name with
  | some target => return .reference target
  | none => failure

/-- Notes an anchor. Its number is returned. -/
def declare (name : String) : Reading Nat := do
  let u ← get
  let target := u.anchors.length
  set { u with anchors := (name, target) :: u.anchors }
  return target

/-- Notes the node that an anchor refers to. -/
def define (target : Nat) (x : Node) : Reading Unit :=
  modify fun u => { u with targets := (target, x) :: u.targets }

/-- The full text of a tag. -/
def resolveTag (handle suffix : String) : Reading String := do
  if handle.isEmpty then return suffix
  match (← get).shorthands.lookup handle with
  | some expansion => return expansion ++ suffix
  | none => failure

def anchor? : Reading (Option Nat) := do
  match ← peek? with
  | some (.anchor name) => skip; some <$> declare name
  | _ => return none

def tag? : Reading (Option String) := do
  match ← peek? with
  | some (.tag handle suffix) => skip; some <$> resolveTag handle suffix
  | _ => return none

/-- An anchor and a tag, in any order, either of which may be missing. -/
def properties : Reading (Option Nat × Option String) := do
  match ← anchor? with
  | some target => return (some target, ← tag?)
  | none =>
    let tag ← tag?
    return (← if tag.isSome then anchor? else pure none, tag)

mutual

/-- Reads a node. Block collections are read only if `inBlock`, and a block sequence at the column
of the mapping around it only if `isValue`. -/
def node : Nat → Bool → Bool → Reading Node
  | 0, _, _ => failure
  | n + 1, inBlock, isValue => do
    match ← peek? with
    | some (.reference name) => skip; lookUp name
    | _ =>
      let (target, tag) ← properties
      let x ← content n inBlock isValue tag (target.isSome || tag.isSome)
      if let some target := target then define target x
      return x

/-- Reads a node behind its properties. -/
def content : Nat → Bool → Bool → Option String → Bool → Reading Node
  | 0, _, _, _, _ => failure
  | n + 1, inBlock, isValue, tag, hasProperties => do
    match ← peek?, inBlock, isValue with
    | some (.scalar s), _, _ => skip; return .scalar tag s
    | some .flowSequence, _, _ => skip; .sequence <$> flowItems n true
    | some .flowMapping, _, _ => skip; .mapping <$> flowPairs n true
    | some .blockSequence, true, _ => skip; .sequence <$> blockItems n
    | some .blockMapping, true, _ => skip; .mapping <$> blockPairs n
    | some .entry, _, true => .sequence <$> looseItems n
    | _, _, _ => if hasProperties then return .scalar tag .empty else failure

/-- Reads a node unless one of some tokens comes next, which means that nothing is written. -/
def nodeBefore : Nat → List Token → Bool → Bool → Reading Node
  | 0, _, _, _ => failure
  | n + 1, ends, inBlock, isValue => do
    if ← seesAny ends then return .empty else node n inBlock isValue

/-- Reads the entries of a block sequence and its end. -/
def blockItems : Nat → Reading (List Node)
  | 0 => failure
  | n + 1 => do
    match ← peek? with
    | some .entry =>
      skip
      let x ← nodeBefore n [.entry, .blockEnd] true false
      return x :: (← blockItems n)
    | _ => expect .blockEnd; return []

/-- Reads the entries of a block sequence that has no end of its own. -/
def looseItems : Nat → Reading (List Node)
  | 0 => failure
  | n + 1 => do
    match ← peek? with
    | some .entry =>
      skip
      let x ← nodeBefore n [.entry, .key, .value, .blockEnd] true false
      return x :: (← looseItems n)
    | _ => return []

/-- Reads the pairs of a block mapping and its end. A key or a value may be missing. -/
def blockPairs : Nat → Reading (List (Node × Node))
  | 0 => failure
  | n + 1 => do
    match ← peek? with
    | some .key =>
      skip
      let k ← nodeBefore n [.key, .value, .blockEnd] true true
      let v ← valueBefore n [.key, .value, .blockEnd] true
      return (k, v) :: (← blockPairs n)
    | _ => expect .blockEnd; return []

/-- Reads the value of a pair, if there is one. -/
def valueBefore : Nat → List Token → Bool → Reading Node
  | 0, _, _ => failure
  | n + 1, ends, inBlock => do
    if (← peek?) = some .value then
      skip
      nodeBefore n ends inBlock inBlock
    else return .empty

/-- Reads the items of a flow sequence and its end. An item may be a single pair. -/
def flowItems : Nat → Bool → Reading (List Node)
  | 0, _ => failure
  | n + 1, isFirst => do
    match ← peek? with
    | some .flowSequenceEnd => skip; return []
    | _ =>
      if !isFirst then expect .comma
      match ← peek? with
      | some .flowSequenceEnd => skip; return []
      | some .key =>
        skip
        let k ← nodeBefore n [.value, .comma, .flowSequenceEnd] false false
        let v ← valueBefore n [.comma, .flowSequenceEnd] false
        return .mapping [(k, v)] :: (← flowItems n false)
      | _ =>
        let x ← node n false false
        return x :: (← flowItems n false)

/-- Reads the pairs of a flow mapping and its end. A key without a mark has no value. -/
def flowPairs : Nat → Bool → Reading (List (Node × Node))
  | 0, _ => failure
  | n + 1, isFirst => do
    match ← peek? with
    | some .flowMappingEnd => skip; return []
    | _ =>
      if !isFirst then expect .comma
      match ← peek? with
      | some .flowMappingEnd => skip; return []
      | some .key =>
        skip
        let k ← nodeBefore n [.value, .comma, .flowMappingEnd] false false
        let v ← valueBefore n [.comma, .flowMappingEnd] false
        return (k, v) :: (← flowPairs n false)
      | _ =>
        let k ← node n false false
        return (k, .empty) :: (← flowPairs n false)

end

/-- Reads the directives in front of a document. At most one names a version, and no two shorthands
have one handle. -/
def directives : Nat → Bool → Reading Bool
  | 0, hasVersion => return hasVersion
  | n + 1, hasVersion => do
    match ← peek? with
    | some (.version major minor) =>
      if hasVersion || major ≠ 1 || (minor ≠ 1 && minor ≠ 2) then failure
      skip
      directives n true
    | some (.shorthand handle expansion) =>
      let u ← get
      if (u.shorthands.lookup handle).isSome then failure
      set { u with shorthands := (handle, expansion) :: u.shorthands }
      skip
      directives n hasVersion
    | _ => return hasVersion

/-- The shorthands every document has unless it gives them another meaning. -/
def standardShorthands : List (String × String) := [("!", "!"), ("!!", "tag:yaml.org,2002:")]

/-- Reads a document to its end. It begins with directives and a mark, or with its root. -/
def document : Reading Document := do
  let size := (← get).tokens.length
  let root ← match ← peek? with
    | none => pure .empty
    | some (.version _ _) | some (.shorthand _ _) | some .documentStart =>
      let _ ← directives size false
      expect .documentStart
      modify fun u => { u with shorthands := u.shorthands ++ standardShorthands }
      nodeBefore (4 * size) [.documentStart, .documentEnd] true false
    | some _ =>
      modify fun u => { u with shorthands := standardShorthands }
      node (4 * size) true false
  if (← peek?) = some .documentEnd then skip
  return ⟨root, (← get).targets⟩

end Reading

/-- The document a text holds. Further documents may not follow. -/
def Document.read? (s : String) : Option Document := do
  let tokens ← Token.scan? s
  let (d, u) ← Reading.document.run { tokens, shorthands := [] }
  if u.tokens.all (· == .documentEnd) then some d else none

end Haptics.Yaml
