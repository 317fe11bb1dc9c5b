/-
AssetAudit/CommandLine/Help.lean

What the program says about itself.
-/
import AssetAudit.CommandLine.Request

namespace AssetAudit.CommandLine

/-- Lines of text, each ended. -/
def unlines (lines : List String) : Text :=
  lines.flatMap fun l => l.toList ++ ['\n']

/-- The name and version of the program. -/
def versionText : Text :=
  unlines ["ios-image-audit 0.1.0"]

/-- The lines on the options that both commands have. -/
def sharedOptions : List String :=
  ["  -r, --root <ROOT>          Project root to scan [default: .]",
    "  -e, --exclude <EXCLUDE>    Glob patterns for directories/files to exclude (e.g., \"Pods\", \"Vendor/*\"). By default, entries starting with `.` are excluded",
    "      --no-default-excludes  Disable default exclusion of `.` prefixed entries"]

/-- Help on a topic. -/
def helpText : Topic → Text
  | .program => unlines <|
    ["Audit image assets and their references in iOS projects",
      "",
      "Usage: ios-image-audit [OPTIONS] [COMMAND]",
      "",
      "Commands:",
      "  scan  List files that would be scanned without processing them",
      "  help  Print this message or the help of the given subcommand(s)",
      "",
      "Options:"] ++
    sharedOptions ++
    ["      --json                 Emit JSON instead of human-readable output",
      "  -v, --verbose              Print additional diagnostics to stderr, also alongside `--json`",
      "  -h, --help                 Print help",
      "  -V, --version              Print version"]
  | .scan => unlines <|
    ["List files that would be scanned without processing them",
      "",
      "Usage: ios-image-audit scan [OPTIONS]",
      "",
      "Options:"] ++
    sharedOptions ++
    ["  -h, --help                 Print help"]
  | .help => unlines
    ["Print this message or the help of the given subcommand(s)",
      "",
      "Usage: ios-image-audit help [COMMAND]...",
      "",
      "Arguments:",
      "  [COMMAND]...  Print help for the subcommand(s)"]

end AssetAudit.CommandLine
