/-
Lineage.Yaml.Token — the tokens of a YAML document.

Indentation is made explicit: a block sequence or mapping starts with a
token of its own and ends with `blockEnd`.  A scalar or a bracket may
turn out to be a key only when the colon behind it is found; its place is
remembered until then (`Candidate`), and the colon puts the key token,
and if need be the start of a mapping, before it.  Tags, directives and
block scalars are not part of the subset read here.
-/
import Lineage.Yaml.Scalar

namespace Lineage.Yaml

/-- A token. -/
inductive Token where
  | plain (cs : List Char)
  | quoted (t : Text)
  /-- The name of the node that follows. -/
  | anchor (name : List Char)
  /-- The node of a name. -/
  | alias (name : List Char)
  | sequenceStart
  | mappingStart
  | blockEnd
  | entry
  | key
  | value
  | flowSequenceStart
  | flowSequenceEnd
  | flowMappingStart
  | flowMappingEnd
  | flowEntry
  | documentStart
  | documentEnd
  deriving DecidableEq, Repr

/-- A token that may turn out to be a key: the number of tokens before
it, whether it must be one, and where it starts. -/
structure Candidate where
  tokens : Nat
  required : Bool
  index : Nat
  line : Nat
  column : Nat
  deriving Repr

/-- The state of the reading of tokens: what is left and where it
starts, the open indentations, the depth of brackets, whether a key may
start here, and the candidates of the bracket depths. -/
structure Scan where
  rest : List Char
  index : Nat := 0
  line : Nat := 0
  column : Nat := 0
  indents : List Int := [-1]
  flow : Nat := 0
  keyAllowed : Bool := true
  candidates : List (Nat × Candidate) := []
  tokens : Array Token := #[]

/-- A character that ends a line. -/
def isBreak (c : Char) : Bool :=
  c = '\n' || c = '\r' || c = '\x85' || c = '\u2028' || c = '\u2029'

/-- A space, a tab or a character that ends a line. -/
def isGap (c : Char) : Bool :=
  c = ' ' || c = '\t' || isBreak c

/-- The text ends, or a space, tab or line end follows. -/
def gapFollows : List Char → Bool
  | [] => true
  | c :: _ => isGap c

/-- A line consists of three dashes or of three points, possibly with
more behind a space. -/
def isSeparatorLine : List Char → Bool
  | '-' :: '-' :: '-' :: rest => gapFollows rest
  | '.' :: '.' :: '.' :: rest => gapFollows rest
  | _ => false

/-- Characters that a document may hold. -/
def isPrintable (c : Char) : Bool :=
  let n := c.toNat
  n == 9 || n == 10 || n == 13 || (0x20 ≤ n && n ≤ 0x7E) || n == 0x85
    || (0xA0 ≤ n && n ≤ 0xFFFD) || 0x10000 ≤ n

namespace Scan

/-- The innermost indentation. -/
def indent (s : Scan) : Int :=
  s.indents.headD (-1)

/-- Passes one character. -/
def pass (s : Scan) : Scan :=
  match s.rest with
  | [] => s
  | c :: rest =>
    if isBreak c then
      { s with rest := rest, index := s.index + 1, line := s.line + 1, column := 0 }
    else if c = '\uFEFF' then { s with rest := rest, index := s.index + 1 }
    else { s with rest := rest, index := s.index + 1, column := s.column + 1 }

/-- Passes a number of characters. -/
def passMany : Nat → Scan → Scan
  | 0, s => s
  | n + 1, s => passMany n s.pass

/-- Passes the characters of a class. -/
def passWhile (class? : Char → Bool) (s : Scan) : Scan :=
  passMany (s.rest.takeWhile class?).length s

/-- Adds a token. -/
def emit (s : Scan) (t : Token) : Scan :=
  { s with tokens := s.tokens.push t }

/-- Passes spaces, comments and line ends. -/
def passGaps (fuel : Nat) (s : Scan) : Scan :=
  match fuel with
  | 0 => s
  | fuel + 1 =>
    let s := s.passWhile (· = ' ')
    let s := if s.rest.head? = some '#' then s.passWhile (fun c => !isBreak c) else s
    match s.rest with
    | c :: _ =>
      if isBreak c then
        let s := s.pass
        passGaps fuel (if s.flow = 0 then { s with keyAllowed := true } else s)
      else s
    | [] => s

/-! ## Candidates for keys -/

/-- Gives up the candidate of the current bracket depth, which must not
be one that has to be a key. -/
def dropCandidate (s : Scan) : Except Fault Scan :=
  match s.candidates.lookup s.flow with
  | none => .ok s
  | some c =>
    if c.required then .error .grammar
    else .ok { s with candidates := s.candidates.filter (·.1 ≠ s.flow) }

/-- Remembers that the token that starts here may be a key. -/
def saveCandidate (s : Scan) : Except Fault Scan :=
  if s.keyAllowed then
    let required := s.flow = 0 && s.indent = s.column
    s.dropCandidate.map fun (s : Scan) =>
      { s with candidates :=
          (s.flow, ⟨s.tokens.size, required, s.index, s.line, s.column⟩) :: s.candidates }
  else .ok s

/-- Gives up the candidates of earlier lines and those too far back. -/
def dropStale (s : Scan) : Except Fault Scan :=
  let stale (c : Candidate) : Bool := c.line ≠ s.line || 1024 < s.index - c.index
  if s.candidates.any fun c => stale c.2 && c.2.required then .error .grammar
  else .ok { s with candidates := s.candidates.filter fun c => !stale c.2 }

/-! ## Indentation -/

/-- Ends the blocks that are indented more than a column. -/
def unwind (column : Int) (s : Scan) : Scan :=
  if s.flow ≠ 0 then s
  else
    let open? := s.indents.takeWhile fun i => column < i
    { s with
      indents := s.indents.drop open?.length
      tokens := s.tokens ++ Array.replicate open?.length Token.blockEnd }

/-- Opens an indentation at a column, if it is a deeper one. -/
def indentTo? (s : Scan) (column : Nat) : Option Scan :=
  if s.indent < column then some { s with indents := (column : Int) :: s.indents } else none

/-! ## Scalars -/

/-- A character ends an unquoted scalar. -/
def endsPlain (flow : Nat) (c : Char) (rest : List Char) : Bool :=
  isGap c
    || (c = ':' && (gapFollows rest
      || (flow ≠ 0 && rest.head?.any fun d => d ∈ [',', '[', ']', '\x7b', '\x7d'])))
    || (flow ≠ 0 && c ∈ [',', '?', '[', ']', '\x7b', '\x7d'])

/-- The number of characters up to the end of an unquoted scalar. -/
def plainLength (flow : Nat) : List Char → Nat
  | [] => 0
  | c :: rest => if endsPlain flow c rest then 0 else plainLength flow rest + 1

/-- The line end as it counts in a scalar. -/
def breakText (c : Char) : Char :=
  if c = '\u2028' || c = '\u2029' then c else '\n'

/-- Passes the blank lines within an unquoted scalar: their ends, or
`none` at a line that separates documents. -/
def plainBreaks (fuel : Nat) (s : Scan) : Scan × Option (List Char) :=
  match fuel with
  | 0 => (s, some [])
  | fuel + 1 =>
    let s := s.passWhile (· = ' ')
    match s.rest with
    | c :: _ =>
      if isBreak c then
        let s := s.pass
        if isSeparatorLine s.rest then (s, none)
        else
          let (s, more) := plainBreaks fuel s
          (s, more.map (breakText c :: ·))
      else (s, some [])
    | [] => (s, some [])

/-- Folds line ends: a single line feed counts as a space. -/
def foldBreaks (first : Char) (more : List Char) : List Char :=
  if first ≠ '\n' then first :: more else if more.isEmpty then [' '] else more

/-- Passes the space between the words of an unquoted scalar: the space
as it counts, or nothing where the scalar ends. -/
def plainSpace (fuel : Nat) (s : Scan) : Scan × List Char :=
  let blanks := s.rest.takeWhile (· = ' ')
  let s := s.passMany blanks.length
  match s.rest with
  | c :: _ =>
    if isBreak c then
      let s := { s.pass with keyAllowed := true }
      if isSeparatorLine s.rest then (s, [])
      else
        match plainBreaks fuel s with
        | (s, none) => (s, [])
        | (s, some more) => (s, foldBreaks (breakText c) more)
    else (s, blanks)
  | [] => (s, blanks)

/-- Reads an unquoted scalar, behind what has been read of it. -/
def readPlain (fuel : Nat) (indent : Int) (read space : List Char) (s : Scan) :
    Scan × List Char :=
  match fuel with
  | 0 => (s, read)
  | fuel + 1 =>
    if s.rest.head? = some '#' then (s, read)
    else
      match plainLength s.flow s.rest with
      | 0 => (s, read)
      | n =>
        let read := read ++ space ++ s.rest.take n
        let s := passMany n { s with keyAllowed := false }
        let (s, space) := plainSpace fuel s
        if space.isEmpty || s.rest.head? = some '#' || (s.flow = 0 && s.column < indent) then
          (s, read)
        else readPlain fuel indent read space s

/-- Passes blank lines within a quoted scalar: their ends. -/
def quotedBreaks (fuel : Nat) (s : Scan) : Except Fault (Scan × List Char) :=
  match fuel with
  | 0 => .ok (s, [])
  | fuel + 1 =>
    if isSeparatorLine s.rest then .error .grammar
    else
      let s := s.passWhile fun c => c = ' ' || c = '\t'
      match s.rest with
      | c :: _ =>
        if isBreak c then
          (quotedBreaks fuel s.pass).map fun (s, more) => (s, breakText c :: more)
        else .ok (s, [])
      | [] => .ok (s, [])

/-- Passes the space within a quoted scalar: the space as it counts. -/
def quotedSpace (fuel : Nat) (s : Scan) : Except Fault (Scan × List Char) :=
  let blanks := s.rest.takeWhile fun c => c = ' ' || c = '\t'
  let s := s.passMany blanks.length
  match s.rest with
  | [] => .error .grammar
  | c :: _ =>
    if isBreak c then
      (quotedBreaks fuel s.pass).map fun (s, more) => (s, foldBreaks (breakText c) more)
    else .ok (s, blanks)

/-- The character that a letter behind a backslash stands for. -/
def shortEscape? : Char → Option Char
  | '0' => some '\x00'
  | 'a' => some '\x07'
  | 'b' => some '\x08'
  | 't' => some '\t'
  | '\t' => some '\t'
  | 'n' => some '\n'
  | 'v' => some '\x0b'
  | 'f' => some '\x0c'
  | 'r' => some '\r'
  | 'e' => some '\x1b'
  | ' ' => some ' '
  | '"' => some '"'
  | '\\' => some '\\'
  | '/' => some '/'
  | 'N' => some '\u0085'
  | '_' => some '\u00a0'
  | 'L' => some '\u2028'
  | 'P' => some '\u2029'
  | _ => none

/-- The number of hexadecimal digits behind an escape letter. -/
def escapeWidth? : Char → Option Nat
  | 'x' => some 2
  | 'u' => some 4
  | 'U' => some 8
  | _ => none

/-- The code point of an escape. -/
def escapedPoint (code : Nat) : Except Fault CodePoint :=
  if code < 0x110000 then .ok (CodePoint.ofCode code) else .error (.badEscape code)

/-- Reads a quoted scalar up to its closing quote, behind what has been
read of it, its end first. -/
def readQuoted (fuel : Nat) (double : Bool) (read : Text) (s : Scan) :
    Except Fault (Scan × Text) :=
  match fuel with
  | 0 => .error .grammar
  | fuel + 1 =>
    match s.rest with
    | [] => .error .grammar
    | c :: rest =>
      if isGap c then
        match quotedSpace fuel s with
        | .error f => .error f
        | .ok (s, space) => readQuoted fuel double ((Text.ofChars space).reverse ++ read) s
      else if !double && c = '\x27' then
        if rest.head? = some '\x27' then readQuoted fuel double (.char c :: read) (s.passMany 2)
        else .ok (s.pass, read.reverse)
      else if double && c = '"' then .ok (s.pass, read.reverse)
      else if double && c = '\\' then
        match rest with
        | [] => .error .grammar
        | e :: digits =>
          match shortEscape? e, escapeWidth? e with
          | some x, _ => readQuoted fuel double (.char x :: read) (s.passMany 2)
          | none, some width =>
            let code := digits.take width
            if code.length = width && code.all (fun d => (digitValue? 16 d).isSome) then
              match escapedPoint (digitsIn 16 code) with
              | .error f => .error f
              | .ok p => readQuoted fuel double (p :: read) (s.passMany (width + 2))
            else .error .grammar
          | none, none =>
            if isBreak e then
              match quotedBreaks fuel (s.passMany 2) with
              | .error f => .error f
              | .ok (s, more) => readQuoted fuel double ((Text.ofChars more).reverse ++ read) s
            else .error .grammar
      else readQuoted fuel double (.char c :: read) s.pass

/-! ## Tokens -/

/-- A character of the name of a node. -/
def isNameChar (c : Char) : Bool :=
  c.isAlphanum || c = '-' || c = '_'

/-- A character that may follow the name of a node. -/
def endsName : List Char → Bool
  | [] => true
  | c :: _ => isGap c || "?:,]\x7d%@`".toList.contains c

/-- Reads the name of a node, behind its mark. -/
def readName (token : List Char → Token) (s : Scan) : Except Fault Scan :=
  let name := s.rest.takeWhile isNameChar
  let s := s.passMany name.length
  if name.isEmpty || !endsName s.rest then .error .grammar else .ok (s.emit (token name))

/-- An unquoted scalar may start here. -/
def startsPlain (s : Scan) : Bool :=
  match s.rest with
  | [] => false
  | c :: rest =>
    (!isGap c && !("-?:,[]\x7b\x7d#&*!|>\x27\"%@`".toList.contains c))
      || (!gapFollows rest && (c = '-' || (s.flow = 0 && (c = '?' || c = ':'))))

/-- Reads the colon that ends a key or starts a value. -/
def readColon (s : Scan) : Except Fault Scan :=
  match s.candidates.lookup s.flow with
  | some c =>
    let s := { s with candidates := s.candidates.filter (·.1 ≠ s.flow) }
    let s := { s with tokens := s.tokens.insertIdxIfInBounds c.tokens .key }
    let s :=
      if s.flow = 0 then
        match s.indentTo? c.column with
        | some s => { s with tokens := s.tokens.insertIdxIfInBounds c.tokens .mappingStart }
        | none => s
      else s
    .ok ({ s with keyAllowed := false }.pass.emit .value)
  | none =>
    if s.flow = 0 && !s.keyAllowed then .error .grammar
    else
      let s :=
        if s.flow = 0 then
          match s.indentTo? s.column with
          | some s => s.emit .mappingStart
          | none => s
        else s
      ({ s with keyAllowed := s.flow = 0 }).dropCandidate.map fun (s : Scan) => s.pass.emit .value

/-- Reads the mark of an entry of a block sequence, or of a key. -/
def readMark (start mark : Token) (s : Scan) : Except Fault Scan :=
  if s.flow = 0 && !s.keyAllowed then .error .grammar
  else
    let s :=
      if s.flow = 0 then
        match s.indentTo? s.column with
        | some s => s.emit start
        | none => s
      else s
    let allowed := mark = .entry || s.flow = 0
    ({ s with keyAllowed := allowed }).dropCandidate.map fun (s : Scan) => s.pass.emit mark

/-- Reads the line that starts or ends a document. -/
def readSeparator (t : Token) (s : Scan) : Except Fault Scan :=
  (s.unwind (-1)).dropCandidate.map fun (s : Scan) =>
    ({ s with keyAllowed := false }.passMany 3).emit t

/-- Reads the next token that is no separator of documents. -/
def readToken (fuel : Nat) (s : Scan) (c : Char) (rest : List Char) : Except Fault Scan :=
  let opening (t : Token) : Except Fault Scan :=
    s.saveCandidate.map fun (s : Scan) =>
      { s with flow := s.flow + 1, keyAllowed := true }.pass.emit t
  let closing (t : Token) : Except Fault Scan :=
    if s.flow = 0 then .error .grammar
    else
      s.dropCandidate.map fun (s : Scan) =>
        { s with flow := s.flow - 1, keyAllowed := false }.pass.emit t
  let named (token : List Char → Token) : Except Fault Scan :=
    match s.saveCandidate with
    | .error f => .error f
    | .ok s => readName token { s with keyAllowed := false }.pass
  let quoted (double : Bool) : Except Fault Scan :=
    match s.saveCandidate with
    | .error f => .error f
    | .ok s =>
      (readQuoted fuel double [] { s with keyAllowed := false }.pass).map fun (s, t) =>
        s.emit (.quoted t)
  if c = '[' then opening .flowSequenceStart
  else if c = '\x7b' then opening .flowMappingStart
  else if c = ']' then closing .flowSequenceEnd
  else if c = '\x7d' then closing .flowMappingEnd
  else if c = ',' then
    ({ s with keyAllowed := true }).dropCandidate.map fun (s : Scan) => s.pass.emit .flowEntry
  else if c = '-' && gapFollows rest then s.readMark .sequenceStart .entry
  else if c = '?' && (s.flow ≠ 0 || gapFollows rest) then s.readMark .mappingStart .key
  else if c = ':' && (s.flow ≠ 0 || gapFollows rest) then s.readColon
  else if c = '&' then named .anchor
  else if c = '*' then named .alias
  else if c = '\x27' then quoted false
  else if c = '"' then quoted true
  else if s.startsPlain then
    s.saveCandidate.map fun (s : Scan) =>
      let (s, cs) := readPlain fuel (s.indent + 1) [] [] { s with keyAllowed := false }
      s.emit (.plain cs)
  else .error .grammar

/-- Reads all tokens.  Every token takes up at least one character, so
fuel that exceeds the number of characters left suffices for the rest as
well as for each token. -/
def run (fuel : Nat) (s : Scan) : Except Fault Scan :=
  match fuel with
  | 0 => .error .grammar
  | fuel + 1 =>
    match (s.passGaps fuel).dropStale with
    | .error f => .error f
    | .ok s =>
      let s := s.unwind s.column
      match s.rest with
      | [] => (s.unwind (-1)).dropCandidate
      | c :: rest =>
        let next :=
          if s.column = 0 && isSeparatorLine s.rest then
            s.readSeparator (if c = '-' then .documentStart else .documentEnd)
          else readToken fuel s c rest
        match next with
        | .error f => .error f
        | .ok s => run fuel s

end Scan

/-- The tokens of a document. -/
def tokens (cs : List Char) : Except Fault (List Token) :=
  if cs.all isPrintable then
    let body := match cs with
      | '\uFEFF' :: rest => rest
      | cs => cs
    (Scan.run (cs.length + 2) { rest := body }).map fun (s : Scan) => s.tokens.toList
  else .error .grammar

end Lineage.Yaml
