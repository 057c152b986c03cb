import PatternTable.Command.Generate
import PatternTable.Command.Scopes

/-!
# Running the program

A run of the program ends with an exit code and with what it prints. The code is 0 for a success, 1
for a failure, 2 for arguments that are wrong and 101 for a table that cannot be laid out.
-/

namespace PatternTable

/-- What a run of the program ends with. -/
structure Outcome where
  code : Nat
  /-- What is printed as the result. -/
  output : String := ""
  /-- What is printed as messages. -/
  messages : String := ""
  /-- The notices that were given on the way. -/
  notices : List Notice := []

namespace Outcome

/-- The code of a run whose command gave up. -/
def faultCode : CommandFault → Nat
  | .tooWide => 101
  | _ => 1

/-- The outcome of a command that gave up. -/
def ofFault (fault : CommandFault) (notices : List Notice) : Outcome where
  code := faultCode fault
  messages := "error: " ++ fault.message ++ "\n"
  notices := notices

/-- The outcome of a run of `generate`: the findings, then the files that were written and those
    that are stale. -/
def ofGenerated (palette : Palette) (generated : Generated) (notices : List Notice) : Outcome where
  code := if generated.isSuccess then 0 else 1
  messages :=
    Finding.printAll palette generated.compilation.findings ++
      String.join (generated.summary.written.map fun path => "wrote " ++ path ++ "\n") ++
      String.join (generated.summary.stale.map fun path => "stale " ++ path ++ "\n")
  notices := notices

/-- How the program is used. -/
def usage : String :=
  "Generate TypeScript token pattern tables from TextMate grammars\n\n" ++
    "Usage:\n" ++
    "  tokpat generate <PATH> [-o <DIR>]\n" ++
    "  tokpat generate <PATH> --check\n" ++
    "  tokpat scopes <FILES>...\n" ++
    "  tokpat scopes -n <SCOPE>...\n"

/-- The text of a fault in the arguments. -/
def usageMessage : UsageFault → String
  | .noArguments => ""
  | .helpWanted => ""
  | .unknownCommand => "error: unrecognized subcommand\n\n"
  | .unknownArgument => "error: unexpected argument\n\n"
  | .missingOperand => "error: a required argument was not provided\n\n"
  | .invalidValue => "error: invalid value for an option\n\n"
  | .conflict => "error: an option cannot be used multiple times\n\n"
  | .flagWithValue => "error: unexpected value for a flag\n\n"

/-- The outcome of arguments that are wrong, or that ask for help. -/
def ofUsage : UsageFault → Outcome
  | .helpWanted => { code := 0, output := usage }
  | fault => { code := 2, messages := usageMessage fault ++ usage }

end Outcome

/-- Does what the program is asked to do, at a time. Messages go to a terminal or not. -/
def Command.run {m : Type → Type} [Monad m] (files : FileAccess m) (now : Calendar.Time)
    (terminal : Bool) : Command → m Outcome
  | .generate options => do
    let (result, notices) ← PatternTable.generate files options now
    match result with
    | .error fault => return .ofFault fault notices
    | .ok generated =>
      return .ofGenerated (.ofEnabled (options.color.isColored terminal)) generated notices
  | .scopes options => do
    let (result, notices) ← scopesReport files options
    match result with
    | .error fault => return .ofFault fault notices
    | .ok report => return { code := 0, output := report, notices }

/-- Runs the program on its arguments, at a time. -/
def runProgram {m : Type → Type} [Monad m] (files : FileAccess m) (now : Calendar.Time)
    (terminal : Bool) (arguments : List String) : m Outcome :=
  match Command.read arguments with
  | .error fault => return .ofUsage fault
  | .ok command => command.run files now terminal

end PatternTable
