/-!
# Command-line arguments

A command takes switches and operands. A switch is a flag or has a value, which is the next argument
or attached to the switch: `--name value`, `--name=value`, `-n value`, `-nvalue` or `-n=value`.
Flags with short names may share a hyphen. After `--` every argument is an operand.

Arguments are read from left to right. A value that is an argument of its own is looked at only when
the next switch or operand begins, so a fault in a later argument may come before one in a value.
-/

namespace PatternTable

/-- What is wrong with the arguments of a program, or that they ask for help. -/
inductive UsageFault where
  /-- There are no arguments. -/
  | noArguments
  | helpWanted
  | unknownCommand
  /-- A switch that there is not, or one operand too many. -/
  | unknownArgument
  | missingOperand
  /-- A value that a switch does not take, or none. -/
  | invalidValue
  /-- A switch that is given twice. -/
  | conflict
  /-- A flag with a value. -/
  | flagWithValue
  deriving DecidableEq, Repr

namespace Arguments

/-- What a switch takes. -/
inductive SwitchKind where
  | flag
  /-- A flag that asks for help. -/
  | help
  /-- A value that it accepts; more than one if `repeatable`. -/
  | value (repeatable : Bool) (accepts : String → Bool)

/-- A switch of a command. -/
structure Switch where
  long : String
  short : Option Char := none
  kind : SwitchKind

/-- What a command takes. -/
structure Interface where
  switches : List Switch
  /-- Whether the command takes any number of operands, or exactly one. -/
  manyOperands : Bool
  acceptsOperand : String → Bool

/-- What has been given: flags without a value, switches with theirs, and operands. -/
structure Given where
  flags : List String := []
  values : List (String × String) := []
  operands : List String := []
  deriving DecidableEq, Repr

/-- What has been read but not looked at. -/
inductive Pending where
  | nothing
  /-- A switch whose value is the next argument, and the value once it has been read. -/
  | switch (name : String) (repeatable : Bool) (accepts : String → Bool) (value : Option String)
  /-- Operands that follow each other. -/
  | operands (texts : List String)

/-- The state of reading arguments. -/
structure State where
  given : Given := {}
  pending : Pending := .nothing
  /-- Whether an operand has been read. -/
  hasOperand : Bool := false
  /-- Whether every argument that follows is an operand. -/
  operandsOnly : Bool := false

/-- Gives a switch a value. -/
def State.giveValue (state : State) (name : String) (repeatable : Bool)
    (accepts : String → Bool) (value : String) : Except UsageFault State :=
  if !repeatable && (state.given.values.lookup name).isSome then .error .conflict
  else if !accepts value then .error .invalidValue
  else
    .ok { state with given := { state.given with values := state.given.values ++ [(name, value)] } }

/-- Looks at what is pending. -/
def State.settle (interface : Interface) (state : State) : Except UsageFault State :=
  match state.pending with
  | .nothing => .ok state
  | .switch _ _ _ none => .error .invalidValue
  | .switch name repeatable accepts (some value) =>
    { state with pending := .nothing }.giveValue name repeatable accepts value
  | .operands texts =>
    if texts.all interface.acceptsOperand then
      .ok
        { state with
          given := { state.given with operands := state.given.operands ++ texts }
          pending := .nothing }
    else .error .invalidValue

/-- Takes a flag. -/
def State.takeFlag (interface : Interface) (state : State) (name : String) :
    Except UsageFault State :=
  match state.settle interface with
  | .error fault => .error fault
  | .ok state =>
    if state.given.flags.contains name then .error .conflict
    else .ok { state with given := { state.given with flags := state.given.flags ++ [name] } }

/-- Takes a flag that asks for help. -/
def State.takeHelp (interface : Interface) (state : State) : Except UsageFault State :=
  match state.settle interface with
  | .error fault => .error fault
  | .ok _ => .error .helpWanted

/-- Takes a switch, with the value that is attached to it, if any. -/
def State.takeSwitch (interface : Interface) (state : State) (name : String) (repeatable : Bool)
    (accepts : String → Bool) (attached : Option String) : Except UsageFault State :=
  match state.settle interface with
  | .error fault => .error fault
  | .ok state =>
    match attached with
    | some value => state.giveValue name repeatable accepts value
    | none => .ok { state with pending := .switch name repeatable accepts none }

/-- Takes an operand. -/
def State.takeOperand (interface : Interface) (state : State) (text : String) :
    Except UsageFault State :=
  if state.hasOperand && !interface.manyOperands then .error .unknownArgument
  else
    match state.pending with
    | .operands texts => .ok { state with pending := .operands (texts ++ [text]) }
    | _ =>
      match state.settle interface with
      | .error fault => .error fault
      | .ok state => .ok { state with pending := .operands [text], hasOperand := true }

/-- The name and the attached value of a switch written with its long name. -/
def splitLong (text : List Char) : String × Option String :=
  (String.ofList (text.takeWhile (· != '=')),
    match text.dropWhile (· != '=') with
    | [] => none
    | _ :: value => some (String.ofList value))

/-- Takes a switch written with its long name. -/
def State.takeLong (interface : Interface) (state : State) (text : List Char) :
    Except UsageFault State :=
  let (name, attached) := splitLong text
  match interface.switches.find? fun switch => switch.long == name with
  | none => .error .unknownArgument
  | some switch =>
    match switch.kind, attached with
    | .value repeatable accepts, _ => state.takeSwitch interface name repeatable accepts attached
    | _, some _ => .error .flagWithValue
    | .flag, none => state.takeFlag interface name
    | .help, none => state.takeHelp interface

/-- The value that is attached to a switch written with its short name. -/
def attachedValue : List Char → Option String
  | [] => none
  | '=' :: value => some (String.ofList value)
  | value => some (String.ofList value)

/-- Takes switches written with their short names behind one hyphen. -/
def State.takeShort (interface : Interface) (state : State) : List Char → Except UsageFault State
  | [] => .ok state
  | c :: rest =>
    match interface.switches.find? fun switch => switch.short == some c with
    | none => .error .unknownArgument
    | some switch =>
      match switch.kind with
      | .value repeatable accepts =>
        state.takeSwitch interface switch.long repeatable accepts (attachedValue rest)
      | .help => state.takeHelp interface
      | .flag =>
        match state.takeFlag interface switch.long with
        | .error fault => .error fault
        | .ok state => state.takeShort interface rest

/-- Takes an argument that is not written as a switch: the value of a switch that waits for one, or
    an operand. -/
def State.takeText (interface : Interface) (state : State) (text : String) :
    Except UsageFault State :=
  match state.pending with
  | .switch name repeatable accepts none =>
    .ok { state with pending := .switch name repeatable accepts (some text) }
  | _ => state.takeOperand interface text

/-- Takes an argument. -/
def State.take (interface : Interface) (state : State) (argument : String) :
    Except UsageFault State :=
  if state.operandsOnly then state.takeOperand interface argument
  else
    match argument.toList with
    | ['-', '-'] => .ok { state with operandsOnly := true }
    | '-' :: '-' :: text => state.takeLong interface text
    | '-' :: c :: text => state.takeShort interface (c :: text)
    | _ => state.takeText interface argument

/-- Takes arguments from left to right. -/
def State.takeAll (interface : Interface) (state : State) :
    List String → Except UsageFault State
  | [] => .ok state
  | argument :: arguments =>
    match state.take interface argument with
    | .error fault => .error fault
    | .ok state => state.takeAll interface arguments

/-- What the arguments of a command give. -/
def read (interface : Interface) (arguments : List String) : Except UsageFault Given :=
  match ({} : State).takeAll interface arguments with
  | .error fault => .error fault
  | .ok state =>
    match state.settle interface with
    | .error fault => .error fault
    | .ok state =>
      if state.given.operands.isEmpty && !interface.manyOperands then .error .missingOperand
      else .ok state.given

/-- The values given to a switch. -/
def Given.all (given : Given) (name : String) : List String :=
  given.values.filterMap fun (other, value) => if other = name then some value else none

/-- The value given to a switch that is not repeatable. -/
def Given.value? (given : Given) (name : String) : Option String :=
  given.values.lookup name

/-- Whether a flag is given. -/
def Given.hasFlag (given : Given) (name : String) : Bool :=
  given.flags.contains name

end Arguments

end PatternTable
