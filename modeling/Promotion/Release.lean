/-!
# `Promotion.Release`: what the program says about itself
-/

set_option autoImplicit false

namespace Promotion.Release

/-- The name of the program. -/
def name : String := "promoter"

/-- The name and the version of the program. -/
def title : String := s!"{name} 0.3.0"

/-- What the program tells about how it was built. -/
def buildLines : List String :=
  [title, "", "Build info:", "  Minimum Rust version: 1.85", "  Target: x86_64-linux",
    "  Profile: debug"]

/-- How the program is used. -/
def usage : String :=
  "Usage: " ++ name ++ " [-w DIR] [-v] COMMAND\n\n"
    ++ "Commands:\n"
    ++ "  sync         -s FILE -d FILE [--strategy NAME] [-o FILE] [--format FORMAT]\n"
    ++ "  bundle       -n NAME [-r DIR] [-o DIR] [--descriptor FILE] [--payload DIR]\n"
    ++ "               [--extension EXT] [--direct] [--dry-run]\n"
    ++ "  compare      LEFT RIGHT\n"
    ++ "  completions  SHELL\n"
    ++ "  help         [COMMAND]\n"

end Promotion.Release
