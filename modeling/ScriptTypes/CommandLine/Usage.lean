/-!  -/

namespace ScriptTypes.CommandLine

/-- Lines, each with its end. -/
def unlines (lines : List String) : String := String.join (lines.map (· ++ "\n"))

def programName : String := "jsinfer"

def versionText : String := "jsinfer 0.1.0\n"

def mainUsage : String := unlines
  ["usage: jsinfer [-h] [-V] [--log-level \x7bDEBUG,INFO,WARNING,ERROR\x7d]",
    "               [--max-type-depth MAX_TYPE_DEPTH]",
    "               \x7bidentifiers,ids,outline\x7d ..."]

def mainHelp : String := mainUsage ++ unlines
  ["",
    "jsinfer - heuristic type inference for JavaScript programs",
    "",
    "positional arguments:",
    "  \x7bidentifiers,ids,outline\x7d",
    "                        Available commands",
    "    identifiers (ids)   List defined identifiers and their inferred types",
    "    outline             Print the node-kind tree of a file",
    "",
    "options:",
    "  -h, --help            show this help message and exit",
    "  -V, --version         show program's version number and exit",
    "  --log-level \x7bDEBUG,INFO,WARNING,ERROR\x7d",
    "                        Logging verbosity (default: WARNING)",
    "  --max-type-depth MAX_TYPE_DEPTH",
    "                        Never record descriptors nested deeper than this"]

def identifiersUsage : String := "usage: jsinfer identifiers [-h] [-r] [--json] input\n"

def identifiersHelp : String := identifiersUsage ++ unlines
  ["",
    "positional arguments:",
    "  input            Input JavaScript file",
    "",
    "options:",
    "  -h, --help       show this help message and exit",
    "  -r, --recursive  Nest identifiers defined inside functions under the",
    "                   function",
    "  --json           Output as JSON"]

def outlineUsage : String := "usage: jsinfer outline [-h] input\n"

def outlineHelp : String := outlineUsage ++ unlines
  ["",
    "positional arguments:",
    "  input       Input JavaScript file",
    "",
    "options:",
    "  -h, --help  show this help message and exit"]

end ScriptTypes.CommandLine
