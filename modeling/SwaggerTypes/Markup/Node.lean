import SwaggerTypes.Markup.Token
/-!
The nodes of a text: scalars, sequences, mappings and references to anchored nodes.
-/
namespace SwaggerTypes.Markup

/-- What stands before a node: an anchor, which makes it the target of references, and a tag. -/
structure Properties where
  anchor : Option Nat := none
  tag : Option TagBytes := none

inductive Node where
  | scalar (properties : Properties) (text : String) (plain : Bool)
  | sequence (properties : Properties) (items : List Node)
  | mapping (properties : Properties) (entries : List (Node × Node))
  | reference (target : Nat)

namespace Node

def empty : Node := scalar {} "" true

def properties : Node → Properties
  | scalar p _ _ | sequence p _ | mapping p _ => p
  | reference _ => {}

mutual

def anchored (node : Node) : List (Nat × Node) :=
  let here := match node.properties.anchor with
    | some n => [(n, node)]
    | none => []
  match node with
  | scalar .. | reference _ => here
  | sequence _ items => here ++ anchoredItems items
  | mapping _ entries => here ++ anchoredEntries entries
termination_by structural node

def anchoredItems (items : List Node) : List (Nat × Node) :=
  match items with
  | [] => []
  | item :: rest => anchored item ++ anchoredItems rest
termination_by structural items

def anchoredEntries (entries : List (Node × Node)) : List (Nat × Node) :=
  match entries with
  | [] => []
  | e :: rest => anchored e.1 ++ (anchored e.2 ++ anchoredEntries rest)
termination_by structural entries

end

mutual

/-- The number of scalars and references, and twice the number of the other nodes. -/
def weight (node : Node) : Nat :=
  match node with
  | scalar .. | reference _ => 1
  | sequence _ items => weightItems items + 2
  | mapping _ entries => weightEntries entries + 2
termination_by structural node

def weightItems (items : List Node) : Nat :=
  match items with
  | [] => 0
  | item :: rest => weight item + weightItems rest
termination_by structural items

def weightEntries (entries : List (Node × Node)) : Nat :=
  match entries with
  | [] => 0
  | e :: rest => weight e.1 + (weight e.2 + weightEntries rest)
termination_by structural entries

end

structure State where
  tokens : List Token
  anchors : List (String × Nat) := []
  handles : List (String × TagBytes) := []

abbrev Reader := StateT State Option

def next? : Reader (Option Token) := return (← get).tokens.head?

def advance : Reader Unit := modify fun s => { s with tokens := s.tokens.drop 1 }

def expect (t : Token) : Reader Unit := do
  if (← next?) = some t then advance else failure

def accept (t : Token) : Reader Bool := do
  if (← next?) = some t then advance; return true else return false

/-- Reads a node, but nothing before a token that ends it. -/
def readUnless (ends : List Token) (read : Reader Node) : Reader Node := do
  if (← next?).any (· ∈ ends) then return empty else read

def addAnchor (name : String) : Reader Nat := do
  let s ← get
  let number := s.anchors.length
  set { s with anchors := (name, number) :: s.anchors.filter fun a => a.1 ≠ name }
  return number

def readAnchor : Reader (Option String) := do
  match ← next? with
  | some (.anchor name) => advance; return some name
  | _ => return none

/-- A tag in full. A handle stands for what the document says, `!` and `!!` otherwise for
themselves and for the tags of the core schema. -/
def readTag : Reader (Option TagBytes) := do
  match ← next? with
  | some (.tag t) =>
    advance
    if t.handle = "" then return some t.suffix
    let handles := (← get).handles ++
      [("!", .ofText "!"), ("!!", .ofText "tag:yaml.org,2002:")]
    match handles.lookup t.handle with
    | some start => return some (start ++ t.suffix)
    | none => failure
  | _ => return none

def readProperties : Reader (Option String × Option TagBytes) := do
  match ← readAnchor with
  | some name => return (some name, ← readTag)
  | none =>
    let tag ← readTag
    let anchor ← if tag.isSome then readAnchor else pure none
    return (anchor, tag)

/-- Whether the tokens between the brackets of a flow collection go on with an entry. Entries are
separated by commas, and one may stand behind the last. -/
def moreEntries (first : Bool) (closing : Token) : Reader Bool := do
  if ← accept closing then return false
  if first then return true
  expect .flowEntry
  return !(← accept closing)

mutual

/-- Reads a node. `block` tells whether blocks may begin here, and `indentless` whether the
entries of a sequence may stand no deeper than the key before them. -/
def read (fuel : Nat) (block indentless : Bool) : Reader Node :=
  match fuel with
  | 0 => failure
  | fuel + 1 => do
    match ← next? with
    | some (.reference name) =>
      advance
      match (← get).anchors.lookup name with
      | some n => return reference n
      | none => failure
    | _ =>
      let (anchor, tag) ← readProperties
      let properties : Reader Properties := return { anchor := ← anchor.mapM addAnchor, tag }
      match ← next? with
      | some (.scalar text plain) =>
        advance
        return scalar (← properties) text plain
      | some .flowSequenceStart =>
        advance
        return sequence (← properties) (← readFlowItems fuel true)
      | some .flowMappingStart =>
        advance
        return mapping (← properties) (← readFlowEntries fuel true)
      | next =>
        if indentless && next = some .blockEntry then
          return sequence (← properties) (← readIndentlessItems fuel)
        else if block && next = some .blockSequenceStart then
          advance
          return sequence (← properties) (← readBlockItems fuel)
        else if block && next = some .blockMappingStart then
          advance
          return mapping (← properties) (← readBlockEntries fuel)
        else if anchor.isSome || tag.isSome then return scalar (← properties) "" true
        else failure
termination_by structural fuel

def readBlockItems (fuel : Nat) : Reader (List Node) :=
  match fuel with
  | 0 => failure
  | fuel + 1 => do
    if ← accept .blockEnd then return []
    expect .blockEntry
    let item ← readUnless [.blockEntry, .blockEnd] (read fuel true false)
    return item :: (← readBlockItems fuel)
termination_by structural fuel

def readIndentlessItems (fuel : Nat) : Reader (List Node) :=
  match fuel with
  | 0 => failure
  | fuel + 1 => do
    if !(← accept .blockEntry) then return []
    let item ← readUnless [.blockEntry, .key, .value, .blockEnd] (read fuel true false)
    return item :: (← readIndentlessItems fuel)
termination_by structural fuel

def readBlockEntries (fuel : Nat) : Reader (List (Node × Node)) :=
  match fuel with
  | 0 => failure
  | fuel + 1 => do
    if ← accept .blockEnd then return []
    expect .key
    let ends := [.key, .value, .blockEnd]
    let key ← readUnless ends (read fuel true true)
    let value ← if ← accept .value then readUnless ends (read fuel true true) else pure empty
    return (key, value) :: (← readBlockEntries fuel)
termination_by structural fuel

/-- Items of a flow sequence. A key with its value makes a mapping of one entry; a token right
behind the sign of a key that ends it is passed over with it. -/
def readFlowItems (fuel : Nat) (first : Bool) : Reader (List Node) :=
  match fuel with
  | 0 => failure
  | fuel + 1 => do
    if !(← moreEntries first .flowSequenceEnd) then return []
    let item ← if ← accept .key then do
        let key ← if (← next?).any (· ∈ [.value, .flowEntry, .flowSequenceEnd]) then do
            advance; pure empty
          else read fuel false false
        let value ← if ← accept .value then
            readUnless [.flowEntry, .flowSequenceEnd] (read fuel false false)
          else pure empty
        pure (mapping {} [(key, value)])
      else read fuel false false
    return item :: (← readFlowItems fuel false)
termination_by structural fuel

def readFlowEntries (fuel : Nat) (first : Bool) : Reader (List (Node × Node)) :=
  match fuel with
  | 0 => failure
  | fuel + 1 => do
    if !(← moreEntries first .flowMappingEnd) then return []
    let ends := [.flowEntry, .flowMappingEnd]
    let entry ← if ← accept .key then do
        let key ← readUnless (.value :: ends) (read fuel false false)
        let value ← if ← accept .value then readUnless ends (read fuel false false) else pure empty
        pure (key, value)
      else pure (← read fuel false false, empty)
    return entry :: (← readFlowEntries fuel false)
termination_by structural fuel

end

/-- Reads the directives before a document: a version, which is 1.1 or 1.2, and tag handles, all
at most once. -/
def readDirectives : (versioned : Bool) → (fuel : Nat) → Reader Unit
  | _, 0 => failure
  | versioned, fuel + 1 => do
    match ← next? with
    | some (.directive (.version major minor)) =>
      if versioned || major ≠ 1 || (minor ≠ 1 && minor ≠ 2) then failure
      advance
      readDirectives true fuel
    | some (.directive (.tagHandle handle start)) =>
      let s ← get
      if (s.handles.lookup handle).isSome then failure
      set { s with handles := s.handles ++ [(handle, start)] }
      advance
      readDirectives versioned fuel
    | _ => return ()

def skipDocumentEnds (fuel : Nat) : Reader Unit :=
  match fuel with
  | 0 => return ()
  | fuel + 1 => do if ← accept .documentEnd then skipDocumentEnds fuel

def readDocument (fuel : Nat) : Reader Node := do
  match ← next? with
  | none => return empty
  | some (.directive _) | some .documentStart =>
    readDirectives false fuel
    expect .documentStart
    if (← next?).isNone then return empty
    finish (← readUnless [.documentStart, .documentEnd] (read fuel true false))
  | _ => finish (← read fuel true false)
where
  finish (node : Node) : Reader Node := do
    skipDocumentEnds fuel
    if (← next?).isSome then failure else return node

/-- The node of a text. Two rounds of reading are enough for each token. -/
def ofText? (text : String) : Option Node := do
  let tokens ← Token.ofText? text
  ((readDocument (2 * tokens.length + 4)).run' { tokens })

end Node

end SwaggerTypes.Markup
