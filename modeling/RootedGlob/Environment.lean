import RootedGlob.Disk
import RootedGlob.Path.Ancestors

/-!
# Environments

What a run depends on besides its arguments: a disk with a current directory, and the directories
that the variables of the environment name.
-/

namespace RootedGlob

structure Environment where
  disk : Disk := {}
  /-- The home directory. -/
  home : Option Text := none
  /-- The value of the variable that names the directory of configuration files. -/
  configHome : Option Text := none

namespace Environment

/-- The directory below the home directory that holds configuration files. -/
def homeConfig? (env : Environment) : Option Text :=
  env.home.map fun home => Path.under home ".config".toList

/-- The directory of configuration files; a relative one does not count. -/
def configDirectory? (env : Environment) : Option Text :=
  (env.configHome.filter Path.isAbsolute).or env.homeConfig?

end Environment

end RootedGlob
