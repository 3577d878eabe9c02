/-
Lineage.Command.Printing — what a command line prints, and what tells of
trouble.

What is printed goes to a console, which may refuse it: marks of weight
and colour stand in square brackets, so that a text in which a mark is
closed that was not opened is none that it can show, nor is one with a
character that it cannot write.  The console is a package, of which
nothing more is asked (`Console`).  What comes behind something refused
is not printed.
-/
import Lineage.Config.Layers

namespace Lineage.Explore

/-- A problem that is told to the user: in a line of text, or as the
faults of a record. -/
inductive Trouble where
  | told (text : Text)
  | invalid (rejection : Schema.Rejection)

/-- What is printed for the user to read. -/
inductive Printed where
  | text (t : Text)
  | tree (label : View.Label)
  | table (title : Text) (columns : List Text) (rows : List (List Text))

/-- The line that tells of trouble. -/
def Trouble.printed : Trouble → List Printed
  | .told text => [.text ("[bold red]error[/bold red] " ++ text)]
  | .invalid _ => []

/-- The console on which a command line prints. -/
class Console where
  /-- Why something cannot be printed. -/
  refuses : Printed → Option Failure
  /-- Why the faults of a record cannot be told, which is done with what
  the record held, as it came from files and arguments. -/
  refusesFaults : Surroundings → List Text → Schema.Rejection → Option Failure

variable [Console]

/-- Why one of these cannot be printed. -/
def refusal? (printed : List Printed) : Option Failure :=
  printed.findSome? Console.refuses

/-- What is printed before something is refused. -/
def shownOf (printed : List Printed) : List Printed :=
  printed.takeWhile fun p => (Console.refuses p).isNone

end Lineage.Explore
