import RelQuery.CommandLine.Arguments

/-!
# Help

The texts that the program prints about itself.
-/

namespace RelQuery.CommandLine

def versionLine : String :=
  "relat 0.1.0\n"

/-- One entry of a list in a help text: a word and what it means. -/
structure HelpEntry where
  word : String
  meaning : String

/-- A list of entries whose meanings start in one column. -/
def renderEntries (entries : List HelpEntry) : String :=
  let width := (entries.map fun entry => entry.word.length).foldl max 0
  String.join (entries.map fun entry =>
    "  " ++ entry.word ++ String.ofList (List.replicate (width - entry.word.length + 2) ' ')
      ++ entry.meaning ++ "\n")

def Flag.helpEntry : Flag → HelpEntry
  | .config =>
    ⟨"-c, --config <FILE>",
      "Configuration file (default: relat.toml, relat.local.toml, RELAT_* env)"⟩
  | .input => ⟨"-i, --input <NAME=FILE>", "Input relation, as NAME=FILE.json (repeatable)"⟩
  | .noComments => ⟨"    --no-comments", "Omit the per-relation source comments"⟩
  | .solver => ⟨"    --souffle <PATH>", "Souffle binary (overrides engine.souffle_path)"⟩
  | .help => ⟨"-h, --help", "Print help"⟩
  | .version => ⟨"-V, --version", "Print version"⟩

def renderOptions (verb : Option Verb) : String :=
  "Options:\n" ++ renderEntries ((Flag.known verb).map Flag.helpEntry)

namespace Verb

def name : Verb → String
  | parse => "parse"
  | compile => "translate"
  | run => "run"

def about : Verb → String
  | parse => "Print the parsed expression tree"
  | compile => "Print the Datalog program for a query"
  | run => "Evaluate a query with Souffle and print the result as JSON"

def all : List Verb :=
  [parse, compile, run]

end Verb

def helpAbout : String :=
  "Print this message or the help of the given subcommand(s)"

def Topic.text : Topic → String
  | program =>
    "Relat: relational queries compiled to Souffle Datalog\n\nUsage: relat [OPTIONS] <COMMAND>\n\n"
      ++ "Commands:\n"
      ++ renderEntries (Verb.all.map (fun verb => ⟨verb.name, verb.about⟩) ++ [⟨"help", helpAbout⟩])
      ++ "\n" ++ renderOptions none
  | verb v =>
    v.about ++ "\n\nUsage: relat " ++ v.name ++ " [OPTIONS] <QUERY>\n\nArguments:\n"
      ++ renderEntries [⟨"<QUERY>", "Relat query"⟩] ++ "\n" ++ renderOptions (some v)
  | help =>
    helpAbout ++ "\n\nUsage: relat help [COMMAND]...\n\nArguments:\n"
      ++ renderEntries [⟨"[COMMAND]...", "Print help for the subcommand(s)"⟩]

end RelQuery.CommandLine
