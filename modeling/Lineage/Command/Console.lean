/-
Lineage.Command.Console — what a command line printed, as lines of a
plain console: without the marks of weight and colour, trees indented,
tables with tabs between their columns.
-/
import Lineage.Command.Explore

namespace Lineage.Explore

/-- The marks of weight and colour. -/
def marks : List String :=
  ["[bold red]", "[/bold red]", "[bold]", "[/bold]", "[dim]", "[/dim]", "[cyan]", "[/cyan]"]

/-- A text as a string, where a surrogate gives way to the character
that stands for what cannot be shown. -/
def readable (t : Text) : String :=
  String.ofList (t.map fun
    | .char c => c
    | .surrogate _ => '\uFFFD')

/-- A text without marks. -/
def unmarked (t : Text) : String :=
  marks.foldl (fun s mark => s.replace mark "") (readable t)

mutual

/-- The lines of a tree of labels, indented to a level. -/
def labelLines (level : Nat) : View.Label → List String
  | .node t children =>
    (String.ofList (List.replicate (2 * level) ' ') ++ unmarked t)
      :: labelsLines (level + 1) children

/-- The lines of the trees of a list. -/
def labelsLines (level : Nat) : List View.Label → List String
  | [] => []
  | l :: rest => labelLines level l ++ labelsLines level rest

end

/-- The lines of what was printed. -/
def Printed.lines : Printed → List String
  | .text t => [unmarked t]
  | .tree label => labelLines 0 label
  | .table title columns rows =>
    unmarked title :: (columns :: rows).map fun cells => "\t".intercalate (cells.map readable)

/-- The exit code of a command line, whichever way it ended. -/
def Ending.code : Ending → UInt32
  | .done => 0
  | .refused .help => 0
  | .troubled _ => 2
  | .refused .usage => 2
  | _ => 1

/-- What is told about faults of a record. -/
def rejectionLines : Schema.Rejection → List String
  | .faults model items =>
    (toString items.length ++ " faults in " ++ model.name)
      :: items.map fun f => "  " ++ readable f.complaint.message
  | .misfit m => [readable m.message]

/-- What is told about an end that is no success. -/
def Ending.lines : Ending → List String
  | .troubled (.invalid rejection) => rejectionLines rejection
  | .failed (.rejected rejection) => rejectionLines rejection
  | .failed failure => [readable failure.message]
  | .refused .usage => ["usage: lineage [options] show|members ..."]
  | .homeless => ["no home directory"]
  | _ => []

end Lineage.Explore
