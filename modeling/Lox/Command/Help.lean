import Lox.Text

/-!
# Help

The texts that explain the command line.
-/

namespace Lox

/-- What the help says of the flags. -/
def optionLines : List String :=
  ["   --config value     settings file (default ~/.treeloxrc.yaml)",
   "   --color            color diagnostics (default: false)",
   "   --trace            print call frames of runtime errors (default: false)",
   "   --max-depth value  maximum call depth (default: 0)",
   "   --cpuprofile FILE  write a CPU profile to FILE [$CPUPROFILE]",
   "   --print-ast        print the syntax tree instead of running (default: false)",
   "   --dump-ast         dump the raw syntax tree instead of running (default: false)",
   "   --verbose          log interpreter activity to stderr (default: false)",
   "   --help, -h         show help (default: false)"]

/-- The lines of a help on the program, with its usage and the heading of its flags. -/
def programLines (usage options : String) : List String :=
  ["NAME:",
   "   tree_lox - tree-walking Lox interpreter",
   "",
   "USAGE:",
   "   tree_lox " ++ usage,
   "",
   "COMMANDS:",
   "   help, h  Shows a list of commands or help for one command",
   "",
   options ++ ":"] ++ optionLines

def helpCommandLines : List String :=
  ["NAME:",
   "    - Shows a list of commands or help for one command",
   "",
   "USAGE:",
   "    [command options] [command]",
   "",
   "OPTIONS:",
   "   --help, -h  show help (default: false)",
   "   "]

def textOfLines (lines : List String) : Text := lines.flatMap fun l => text (l ++ "\n")

def helpText : Text :=
  textOfLines (programLines "[global options] command [command options] [script]" "GLOBAL OPTIONS")

/-- The help on the command without a name, which is the program itself. -/
def namelessHelpText : Text :=
  textOfLines (programLines "command [command options] [script]" "OPTIONS" ++ ["   "])

def helpCommandText : Text := textOfLines helpCommandLines

end Lox
