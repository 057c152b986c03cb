import PatternTable.Command.Arguments
import PatternTable.Config

/-!
# The commands of the program

The program has two commands. `generate` compiles a directory of grammars, or a single one, and
writes the artifacts; `scopes` reports the token types of scope names. `help` describes them.
-/

namespace PatternTable

/-- When messages are colored. -/
inductive ColorChoice where
  /-- When they go to a terminal. -/
  | auto
  | always
  | never
  deriving DecidableEq, Repr

/-- The name of a choice of colors. -/
def ColorChoice.name : ColorChoice → String
  | auto => "auto"
  | always => "always"
  | never => "never"

/-- Whether messages are colored, given whether they go to a terminal. -/
def ColorChoice.isColored (terminal : Bool) : ColorChoice → Bool
  | auto => terminal
  | always => true
  | never => false

/-- What `generate` is told. -/
structure GenerateOptions where
  /-- A directory of grammars, or a single grammar file. -/
  path : String
  /-- Where the artifacts are written, if not next to the grammars. -/
  outDirectory : Option String := none
  /-- Whether artifacts are only compared and not written. -/
  check : Bool := false
  tokensModule : Option String := none
  typesModule : Option String := none
  /-- The ids of documents whose modules are written by hand. -/
  handwritten : List String := []
  /-- Whether the first of several scopes is classified. -/
  firstScope : Bool := false
  /-- Whether POSIX classes are kept. -/
  keepClasses : Bool := false
  color : ColorChoice := .auto
  deriving DecidableEq, Repr

/-- What `scopes` is told. -/
structure ScopesOptions where
  /-- The grammar files whose scope names are reported. -/
  files : List String := []
  /-- Scope names that are reported first. -/
  names : List String := []
  /-- Whether the first of several scopes is classified. -/
  firstScope : Bool := false
  json : Bool := false
  deriving DecidableEq, Repr

/-- What the program is asked to do. -/
inductive Command where
  | generate (options : GenerateOptions)
  | scopes (options : ScopesOptions)
  deriving DecidableEq, Repr

/-- The classifier that classifies the first or the last of several scopes. -/
def selecting (first : Bool) : Scope.Classifier :=
  { selection := if first then .first else .last }

/-- The settings of the compilation that `generate` runs. -/
def GenerateOptions.config (options : GenerateOptions) : Config :=
  let standard : Config := {}
  { standard with
    tokensModule := options.tokensModule.getD standard.tokensModule
    typesModule := options.typesModule.getD standard.typesModule
    classifier := selecting options.firstScope
    expandClasses := !options.keepClasses
    handwritten := options.handwritten.map Document.mk }

/-- The settings of the compilation that `scopes` runs. -/
def ScopesOptions.config (options : ScopesOptions) : Config :=
  { classifier := selecting options.firstScope }

/-! ## Interfaces -/

/-- Whether a value can be a path. -/
def isPath (text : String) : Bool :=
  !text.isEmpty

/-- The switch that asks for help. -/
def helpSwitch : Arguments.Switch :=
  ⟨"help", some 'h', .help⟩

/-- What `generate` takes. -/
def generateInterface : Arguments.Interface where
  switches :=
    [⟨"out-dir", some 'o', .value false isPath⟩, ⟨"check", none, .flag⟩,
      ⟨"tokens-module", none, .value false fun _ => true⟩,
      ⟨"types-module", none, .value false fun _ => true⟩,
      ⟨"extern", none, .value true fun _ => true⟩, ⟨"first-scope", none, .flag⟩,
      ⟨"no-posix", none, .flag⟩,
      ⟨"color", none, .value false ["auto", "always", "never"].contains⟩, helpSwitch]
  manyOperands := false
  acceptsOperand := isPath

/-- What `scopes` takes. -/
def scopesInterface : Arguments.Interface where
  switches :=
    [⟨"name", some 'n', .value true fun _ => true⟩, ⟨"first-scope", none, .flag⟩,
      ⟨"json", none, .flag⟩, helpSwitch]
  manyOperands := true
  acceptsOperand := isPath

/-- The choice of colors with a name. -/
def ColorChoice.ofName (name : String) : ColorChoice :=
  if name = "always" then always else if name = "never" then never else auto

/-- What `generate` is told by its arguments. -/
def GenerateOptions.ofGiven (given : Arguments.Given) : GenerateOptions where
  path := given.operands.headD ""
  outDirectory := given.value? "out-dir"
  check := given.hasFlag "check"
  tokensModule := given.value? "tokens-module"
  typesModule := given.value? "types-module"
  handwritten := given.all "extern"
  firstScope := given.hasFlag "first-scope"
  keepClasses := given.hasFlag "no-posix"
  color := ((given.value? "color").map ColorChoice.ofName).getD .auto

/-- What `scopes` is told by its arguments. -/
def ScopesOptions.ofGiven (given : Arguments.Given) : ScopesOptions where
  files := given.operands
  names := given.all "name"
  firstScope := given.hasFlag "first-scope"
  json := given.hasFlag "json"

namespace Command

/-- The names of the commands. -/
def names : List String :=
  ["generate", "scopes", "help"]

/-- What is wrong with arguments that ask for help on a command. There is help on every command, and
    none on anything below one. -/
def helpFault : List String → UsageFault
  | [] => .helpWanted
  | [name] => if names.contains name then .helpWanted else .unknownCommand
  | _ => .unknownCommand

/-- What is wrong with arguments whose first one is not the name of a command. -/
def leadFault (argument : String) (rest : List String) : UsageFault :=
  match argument.toList with
  | ['-', '-'] =>
    match rest with
    | [] => .noArguments
    | next :: _ => if names.contains next then .unknownArgument else .unknownCommand
  | '-' :: '-' :: text =>
    match Arguments.splitLong text with
    | ("help", none) => .helpWanted
    | ("help", some _) => .flagWithValue
    | _ => .unknownArgument
  | '-' :: c :: _ => if c = 'h' then .helpWanted else .unknownArgument
  | _ => .unknownCommand

/-- What the program is asked to do by its arguments. -/
def read : List String → Except UsageFault Command
  | [] => .error .noArguments
  | "generate" :: arguments =>
    (Arguments.read generateInterface arguments).map fun given => .generate (.ofGiven given)
  | "scopes" :: arguments =>
    (Arguments.read scopesInterface arguments).map fun given => .scopes (.ofGiven given)
  | "help" :: arguments => .error (helpFault arguments)
  | argument :: arguments => .error (leadFault argument arguments)

end Command

end PatternTable
