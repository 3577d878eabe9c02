/-
Lineage.Usual — what programs are run on usually.

There is room for so many calls as an interpreter has that ends programs
at a thousand.  YAML is read by the reader of this project, which knows
no tags, directives and texts in blocks.  Arguments with names of the
package are laid over the variables like all others, and everything can
be printed.
-/
import Lineage.Command.Printing
import Lineage.Config.Settings
import Lineage.Yaml.Reader

namespace Lineage

instance : Stack where
  room _ := Json.maxNesting

instance : YamlReader where
  read := Yaml.read

instance : SettingsReader where
  gather s arguments := Settings.gatherFields s.vars arguments
  gather_plain _ _ _ := rfl

instance : Explore.Console where
  refuses _ := none
  refusesFaults _ _ _ := none

end Lineage
