/-
Lineage.Command.Arguments — reading the arguments of command lines.

Two conventions are read.  `Exact`: options have a long name and
possibly a letter, letters may be run together, an option takes the next
argument whatever it looks like, and names are written in full.
`Abbreviated`: long names may be shortened as long as they are
unmistakable, what looks like an option is never taken as a value, and
plain arguments stand together.
-/
import Lineage.Text.Basic
import Lineage.Text.Digits

namespace Lineage

/-- Why arguments are not those of a command. -/
inductive ArgumentEnd where
  /-- They do not fit its usage. -/
  | usage
  /-- They ask for its help. -/
  | help
  deriving DecidableEq, Repr

/-- What stands before the first equals sign, and what behind it. -/
def splitAtEquals : Text → Option (Text × Text)
  | [] => none
  | p :: rest =>
    if p = .char '=' then some ([], rest)
    else (splitAtEquals rest).map fun (before, after) => (p :: before, after)

/-! ## Names in full -/

namespace Exact

/-- An option: its long name, its letter, and whether it takes a value. -/
structure OptionSpec where
  long : Text
  letter : Option Char
  takesValue : Bool
  deriving Repr

/-- What was read: options with their values, in order, and plain
arguments. -/
structure Reading where
  options : List (Text × Text) := []
  plain : List Text := []
  deriving Repr

namespace Reading

/-- The values of an option, in order. -/
def valuesOf (r : Reading) (long : Text) : List Text :=
  (r.options.filter fun o => o.1 == long).map (·.2)

/-- The last value of an option. -/
def lastOf (r : Reading) (long : Text) : Option Text :=
  (r.valuesOf long).getLast?

/-- The option was given. -/
def has (r : Reading) (long : Text) : Bool :=
  r.options.any fun o => o.1 == long

end Reading

/-- The option that every command has. -/
def helpSpec : OptionSpec := ⟨"--help", none, false⟩

/-- Reads options run together by their letters: the options, and the
arguments behind those that were taken as values. -/
def readLetters (specs : List OptionSpec) (rest : List Text) :
    Text → Except ArgumentEnd (List (Text × Text) × List Text)
  | [] => .ok ([], rest)
  | p :: more =>
    match specs.find? fun s => s.letter.map CodePoint.char == some p with
    | none => .error .usage
    | some spec =>
      if spec.takesValue then
        match more, rest with
        | [], [] => .error .usage
        | [], value :: rest => .ok ([(spec.long, value)], rest)
        | value, rest => .ok ([(spec.long, value)], rest)
      else
        match readLetters specs rest more with
        | .error e => .error e
        | .ok (options, rest) => .ok ((spec.long, []) :: options, rest)

/-- Reads one argument that looks like an option. -/
def readOption (specs : List OptionSpec) (argument : Text) (rest : List Text) :
    Except ArgumentEnd (List (Text × Text) × List Text) :=
  let (name, value) : Text × Option Text :=
    match splitAtEquals argument with
    | some (n, v) => (n, some v)
    | none => (argument, none)
  match specs.find? fun s => s.long == name with
  | some spec =>
    match spec.takesValue, value, rest with
    | true, some v, rest => .ok ([(spec.long, v)], rest)
    | true, none, v :: rest => .ok ([(spec.long, v)], rest)
    | true, none, [] => .error .usage
    | false, some _, _ => .error .usage
    | false, none, rest => .ok ([(spec.long, [])], rest)
  | none =>
    match argument with
    | .char '-' :: .char '-' :: _ => .error .usage
    | _ :: letters => readLetters specs rest letters
    | [] => .error .usage

/-- Reads arguments; unless they may be mixed with options, the first
plain argument ends the options.  `fuel` bounds the number of arguments. -/
def readArguments (fuel : Nat) (specs : List OptionSpec) (mixed : Bool) (args : List Text) :
    Except ArgumentEnd Reading :=
  match fuel, args with
  | 0, _ => .ok {}
  | _, [] => .ok {}
  | fuel + 1, argument :: rest =>
    if argument = ("--" : Text) then .ok { plain := rest }
    else if argument.head? = some (.char '-') && 1 < argument.length then
      match readOption specs argument rest with
      | .error e => .error e
      | .ok (options, rest) =>
        (readArguments fuel specs mixed rest).map fun r =>
          { r with options := options ++ r.options }
    else if mixed then
      (readArguments fuel specs mixed rest).map fun r => { r with plain := argument :: r.plain }
    else .ok { plain := argument :: rest }

/-- Reads the arguments of a command. -/
def read (specs : List OptionSpec) (mixed : Bool) (args : List Text) :
    Except ArgumentEnd Reading :=
  match readArguments args.length (helpSpec :: specs) mixed args with
  | .error e => .error e
  | .ok r => if r.has helpSpec.long then .error .help else .ok r

end Exact

/-! ## Shortened names -/

namespace Abbreviated

/-- What an argument is. -/
inductive Argument where
  /-- A value or a plain argument. -/
  | value (t : Text)
  /-- An option, with the value it was written with. -/
  | option (long : Text) (value : Option Text)
  | help
  /-- The help option with a value, which it cannot have. -/
  | misused
  /-- An option that there is not. -/
  | unknown
  /-- The mark behind which everything is plain. -/
  | mark
  deriving DecidableEq, Repr

/-- A text without a line end behind it. -/
def dropLineEnd (t : Text) : Text :=
  if t.getLast? = some (.char '\n') then t.dropLast else t

/-- A decimal digit of some script. -/
def isDigit (p : CodePoint) : Bool :=
  p.isIn Text.isDecimalDigit

/-- A text is a negative number, possibly with a line end behind it. -/
def isNegativeNumber (t : Text) : Bool :=
  match dropLineEnd t with
  | .char '-' :: rest =>
    let whole := rest.takeWhile isDigit
    match rest.drop whole.length with
    | [] => !whole.isEmpty
    | .char '.' :: fraction => !fraction.isEmpty && fraction.all isDigit
    | _ => false
  | _ => false

/-- The option of a full name. -/
def named (long : Text) (value : Option Text) : Argument :=
  if long = ("--help" : Text) then (if value.isNone then .help else .misused)
  else .option long value

/-- The help option by its letter: what follows the letter, or an equals
sign behind it, may only be that letter again. -/
def helpLetter : Text → Argument
  | [] => .help
  | p :: rest =>
    let letters := if p = .char '=' then rest else p :: rest
    if !letters.isEmpty && letters.all (· = .char 'h') then .help else .misused

/-- What an argument is, among options that all take a value. -/
def classify (longs : List Text) (t : Text) : Except ArgumentEnd Argument :=
  match t with
  | .char '-' :: p :: more =>
    let (name, value) : Text × Option Text :=
      match splitAtEquals t with
      | some (n, v) => (n, some v)
      | none => (t, none)
    let known := ("--help" : Text) :: longs
    if p = .char 'h' then .ok (helpLetter more)
    else if known.contains name then .ok (named name value)
    else
      let found := if p = .char '-' then known.filter fun long => name.isPrefixOf long else []
      match found with
      | [long] => .ok (named long value)
      | _ :: _ :: _ => .error .usage
      | [] =>
        if isNegativeNumber t || t.contains (.char ' ') then .ok (.value t)
        else .ok .unknown
  | _ => .ok (.value t)

/-- What the arguments are; behind a mark everything is plain. -/
def classifyAll (longs : List Text) : List Text → Except ArgumentEnd (List Argument)
  | [] => .ok []
  | t :: rest =>
    if t = ("--" : Text) then .ok (.mark :: rest.map .value)
    else
      match classify longs t with
      | .error e => .error e
      | .ok a => (classifyAll longs rest).map (a :: ·)

/-- What was read: options with their values, in order, the plain
arguments that stand together, and whether anything was left over. -/
structure Reading where
  options : List (Text × Text) := []
  plain : Option (List Text) := none
  leftOver : Bool := false
  deriving Repr

/-- The text of a plain argument. -/
def Argument.plain? : Argument → Option Text
  | .value t => some t
  | _ => none

/-- An argument is plain, or the mark before plain ones. -/
def Argument.isPlain : Argument → Bool
  | .value _ => true
  | .mark => true
  | _ => false

/-- Reads classified arguments, of which the options only take accepted
values.  `fuel` bounds their number. -/
def readAll (accepts : Text → Text → Bool) (fuel : Nat) (read : Reading)
    (args : List Argument) : Except ArgumentEnd Reading :=
  match fuel, args with
  | 0, _ => .ok read
  | _, [] => .ok read
  | _, .help :: _ => .error .help
  | _, .misused :: _ => .error .usage
  | fuel + 1, .unknown :: rest => readAll accepts fuel { read with leftOver := true } rest
  | fuel + 1, .option long (some v) :: rest =>
    if accepts long v then
      readAll accepts fuel { read with options := read.options ++ [(long, v)] } rest
    else .error .usage
  | fuel + 1, .option long none :: .value v :: rest =>
    if accepts long v then
      readAll accepts fuel { read with options := read.options ++ [(long, v)] } rest
    else .error .usage
  | _, .option _ none :: _ => .error .usage
  | fuel + 1, args =>
    let together := args.takeWhile Argument.isPlain
    let rest := args.drop together.length
    let values := together.filterMap Argument.plain?
    if read.plain.isNone && !values.isEmpty then
      readAll accepts fuel { read with plain := some values } rest
    else readAll accepts fuel { read with leftOver := true } rest

/-- Reads the arguments of a command whose options all take a value that
is accepted for their name. -/
def read (longs : List Text) (accepts : Text → Text → Bool) (args : List Text) :
    Except ArgumentEnd Reading :=
  match classifyAll longs args with
  | .error e => .error e
  | .ok classified => readAll accepts classified.length {} classified

end Abbreviated

end Lineage
