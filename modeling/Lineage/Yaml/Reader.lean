/-
Lineage.Yaml.Reader — reading YAML documents.

The reader follows the grammar of the tokens: block and flow sequences
and mappings; entries, keys and values that are left out are absent
nodes.  A text holds one document at most.  The place of a sequence or a
mapping is the number of tokens behind the one that starts it.
-/
import Lineage.Yaml.Node
import Lineage.Yaml.Token

namespace Lineage.Yaml

/-- A reading: a result and the tokens behind it. -/
abbrev Reading (α : Type) := Except Fault (α × List Token)

/-- The next token starts the content of a node. -/
def startsContent (block unindented : Bool) : List Token → Bool
  | .plain _ :: _ => true
  | .quoted _ :: _ => true
  | .flowSequenceStart :: _ => true
  | .flowMappingStart :: _ => true
  | .sequenceStart :: _ => block
  | .mappingStart :: _ => block
  | .entry :: _ => unindented
  | _ => false

/-- The next token is one of these. -/
def nextIs (ts : List Token) (among : List Token) : Bool :=
  match ts with
  | t :: _ => among.contains t
  | [] => true

mutual

/-- Reads a node.  In a block it may be a block; directly below a key it
may be a sequence whose entries are not indented. -/
def readNode (fuel : Nat) (block unindented : Bool) (ts : List Token) : Reading Node :=
  match fuel with
  | 0 => .error .grammar
  | fuel + 1 =>
    match ts with
    | .plain cs :: rest => .ok (.plain cs, rest)
    | .quoted t :: rest => .ok (.quoted t, rest)
    | .alias name :: rest => .ok (.alias name, rest)
    | .anchor name :: rest =>
      if startsContent block unindented rest then
        (readNode fuel block unindented rest).map fun (node, r) => (.anchored name node, r)
      else .ok (.anchored name .absent, rest)
    | .flowSequenceStart :: rest =>
      (readFlowItems fuel true rest).map fun (items, r) => (.sequence rest.length items, r)
    | .flowMappingStart :: rest =>
      (readFlowFields fuel true rest).map fun (fs, r) => (.mapping rest.length fs, r)
    | .sequenceStart :: rest =>
      if block then
        (readEntries fuel true rest).map fun (items, r) => (.sequence rest.length items, r)
      else .error .grammar
    | .mappingStart :: rest =>
      if block then (readFields fuel rest).map fun (fs, r) => (.mapping rest.length fs, r)
      else .error .grammar
    | .entry :: rest =>
      if unindented then
        (readEntries fuel false (.entry :: rest)).map fun (items, r) =>
          (.sequence rest.length items, r)
      else .error .grammar
    | _ => .error .grammar

/-- Reads a node, which is absent where one of these tokens follows. -/
def readOptional (fuel : Nat) (block unindented : Bool) (among : List Token)
    (ts : List Token) : Reading Node :=
  match fuel with
  | 0 => .error .grammar
  | fuel + 1 =>
    if nextIs ts among then .ok (.absent, ts) else readNode fuel block unindented ts

/-- Reads the entries of a block sequence, up to its end if it is
indented. -/
def readEntries (fuel : Nat) (indented : Bool) (ts : List Token) : Reading (List Node) :=
  match fuel with
  | 0 => .error .grammar
  | fuel + 1 =>
    match ts with
    | .entry :: rest =>
      let among : List Token :=
        if indented then [.entry, .blockEnd] else [.entry, .key, .value, .blockEnd]
      match readOptional fuel true false among rest with
      | .error f => .error f
      | .ok (item, rest) =>
        (readEntries fuel indented rest).map fun (items, r) => (item :: items, r)
    | .blockEnd :: rest => .ok ([], if indented then rest else .blockEnd :: rest)
    | ts => if indented then .error .grammar else .ok ([], ts)

/-- Reads the fields of a block mapping up to its end. -/
def readFields (fuel : Nat) (ts : List Token) : Reading (List (Node × Node)) :=
  match fuel with
  | 0 => .error .grammar
  | fuel + 1 =>
    match ts with
    | .blockEnd :: rest => .ok ([], rest)
    | .key :: rest =>
      match readOptional fuel true true [.key, .value, .blockEnd] rest with
      | .error f => .error f
      | .ok (key, rest) =>
        let value :=
          match rest with
          | .value :: rest => readOptional fuel true true [.key, .value, .blockEnd] rest
          | rest => .ok (.absent, rest)
        match value with
        | .error f => .error f
        | .ok (value, rest) =>
          (readFields fuel rest).map fun (fs, r) => ((key, value) :: fs, r)
    | _ => .error .grammar

/-- Reads the key and the value of a field between brackets. -/
def readPair (fuel : Nat) (close : Token) (ts : List Token) : Reading (Node × Node) :=
  match fuel with
  | 0 => .error .grammar
  | fuel + 1 =>
    match readOptional fuel false false [.value, .flowEntry, close] ts with
    | .error f => .error f
    | .ok (key, rest) =>
      let value :=
        match rest with
        | .value :: rest => readOptional fuel false false [.flowEntry, close] rest
        | rest => .ok (.absent, rest)
      value.map fun (value, rest) => ((key, value), rest)

/-- Reads the items of a sequence in brackets; `first`: none was read
yet. -/
def readFlowItems (fuel : Nat) (first : Bool) (ts : List Token) : Reading (List Node) :=
  match fuel with
  | 0 => .error .grammar
  | fuel + 1 =>
    match ts with
    | .flowSequenceEnd :: rest => .ok ([], rest)
    | ts =>
      let behind : Except Fault (List Token) :=
        if first then .ok ts
        else
          match ts with
          | .flowEntry :: rest => .ok rest
          | _ => .error .grammar
      match behind with
      | .error f => .error f
      | .ok (.flowSequenceEnd :: rest) => .ok ([], rest)
      | .ok (.key :: rest) =>
        match readPair fuel .flowSequenceEnd rest with
        | .error f => .error f
        | .ok (p, after) =>
          (readFlowItems fuel false after).map fun (items, r) =>
            (.mapping rest.length [p] :: items, r)
      | .ok ts =>
        match readNode fuel false false ts with
        | .error f => .error f
        | .ok (item, rest) =>
          (readFlowItems fuel false rest).map fun (items, r) => (item :: items, r)

/-- Reads the fields of a mapping in braces; `first`: none was read
yet. -/
def readFlowFields (fuel : Nat) (first : Bool) (ts : List Token) :
    Reading (List (Node × Node)) :=
  match fuel with
  | 0 => .error .grammar
  | fuel + 1 =>
    match ts with
    | .flowMappingEnd :: rest => .ok ([], rest)
    | ts =>
      let behind : Except Fault (List Token) :=
        if first then .ok ts
        else
          match ts with
          | .flowEntry :: rest => .ok rest
          | _ => .error .grammar
      match behind with
      | .error f => .error f
      | .ok (.flowMappingEnd :: rest) => .ok ([], rest)
      | .ok (.key :: rest) =>
        match readPair fuel .flowMappingEnd rest with
        | .error f => .error f
        | .ok (p, rest) =>
          (readFlowFields fuel false rest).map fun (fs, r) => (p :: fs, r)
      | .ok ts =>
        match readNode fuel false false ts with
        | .error f => .error f
        | .ok (key, rest) =>
          (readFlowFields fuel false rest).map fun (fs, r) => ((key, .absent) :: fs, r)

end

/-- Without the lines that end documents. -/
def skipEnds (ts : List Token) : List Token :=
  ts.dropWhile (· = .documentEnd)

/-- Reads a node and the lines that end its document. -/
def readContent (explicit : Bool) (ts : List Token) : Except Fault Node :=
  let among : List Token := if explicit then [.documentStart, .documentEnd] else []
  match readOptional (4 * ts.length + 4) true false among ts with
  | .error f => .error f
  | .ok (node, rest) => if (skipEnds rest).isEmpty then .ok node else .error .grammar

/-- Reads the one document of the tokens; without tokens it is absent.
Only a document with a line that starts it may be empty. -/
def readDocument : List Token → Except Fault Node
  | [] => .ok .absent
  | .documentStart :: rest => readContent true rest
  | ts => readContent false ts

/-- Reads the document that a text holds. -/
def read (cs : List Char) : Except Fault Graph :=
  match tokens cs with
  | .error f => .error f
  | .ok ts => (readDocument ts).bind (Node.toGraph ts.length)

end Lineage.Yaml
