/-
# Files needed to start

Before anything else the program makes sure that the files it needs are there,
and names the missing ones.

Key definitions: `Startup.required`, `Startup.missing`, `Startup.lines`,
`Startup.exitCode`.
-/

namespace NumericAnswer
namespace Startup

def required : List String :=
  ["UI.py", "MathEngine.py", "Normalizer.py", "ScientificEngine.py", "config_manager.py",
   "config.json"]

/-- The needed files that are not present, in order. -/
def missing (present : List String) : List String :=
  required.filter fun name => !present.contains name

def lines (present : List String) : List String :=
  if (missing present).isEmpty then []
  else
    "Error: The following files are missing or in the wrong location:" ::
      (missing present).map fun name => "- " ++ name

/-- The exit code, if the program cannot start. -/
def exitCode (present : List String) : Option Nat :=
  if (missing present).isEmpty then none else some 1

end Startup
end NumericAnswer
