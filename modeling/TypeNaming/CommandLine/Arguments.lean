/-
# The arguments of the command line

    [options] names [signature ...] [--file path]
    [options] members [union ...] [--file path]
    [options] fix union member
    [options] completions shell

The options that every command shares may stand before the command and after it;
where one is given on both sides, what comes after the command counts.  An option
with a value takes the next argument or what follows `=`; an argument that begins
with `-` is never taken as a value, and after `--` there are no more options.

Arguments are looked at from left to right, and the first that asks for help or
for the version, or that makes no sense, decides.
-/
import TypeNaming.Signature.Basic

namespace TypeNaming.CommandLine

/-- What the program is asked to do. -/
inductive Command where
  /-- Print the names of the signatures. -/
  | names (signatures : List String) (file : Option String)
  /-- Print the members of the unions. -/
  | members (unions : List String) (file : Option String)
  /-- Print the named form of a positional member of a union. -/
  | fix (union member : String)
  /-- Print the words that a shell can complete. -/
  | completions (shell : String)
  deriving DecidableEq, Repr

/-- A command with the options that every command shares. -/
structure Invocation where
  command : Command
  color : Bool
  context : Context

/-- What the arguments ask for. -/
inductive Request where
  | run (invocation : Invocation)
  | version
  | help
  /-- The arguments make no sense. -/
  | misuse

/-- The name of a command. -/
inductive Verb where
  | names
  | members
  | fix
  | completions
  deriving DecidableEq, Repr

/-- The command that an argument names. -/
def Verb.ofText? : String → Option Verb
  | "names" => some .names
  | "members" => some .members
  | "fix" => some .fix
  | "completions" => some .completions
  | _ => none

/-- The shells that completions are known for. -/
def shells : List String := ["bash", "elvish", "fish", "powershell", "zsh"]

/-! ## Options -/

/-- An option. -/
inductive Flag where
  | noColor
  | valueType
  | typeParam
  | unionName
  | file
  | help
  | version
  deriving DecidableEq, Repr

/-- Whether a value follows the option. -/
def Flag.takesValue : Flag → Bool
  | .valueType => true
  | .typeParam => true
  | .unionName => true
  | .file => true
  | _ => false

/-- The option with the long name, before the command (`none`) or after it. -/
def longFlag? (verb : Option Verb) (name : String) : Option Flag :=
  match name, verb with
  | "no-color", _ => some .noColor
  | "value-type", _ => some .valueType
  | "type-param", _ => some .typeParam
  | "union-name", _ => some .unionName
  | "help", _ => some .help
  | "version", none => some .version
  | "file", some .names => some .file
  | "file", some .members => some .file
  | _, _ => none

/-- The option with the short name, before the command (`none`) or after it. -/
def shortFlag? (verb : Option Verb) (name : Char) : Option Flag :=
  match name, verb with
  | 'h', _ => some .help
  | 'V', none => some .version
  | 'f', some .names => some .file
  | 'f', some .members => some .file
  | _, _ => none

/-- What an argument is by its first characters. -/
inductive Word where
  /-- An option, with the value that is attached to it. -/
  | flag (flag : Flag) (attached : Option String)
  | unknownFlag
  | endOfOptions
  | plain

/-- What stands before the first `=` and, if there is one, after it. -/
def splitValue (cs : List Char) : String × Option String :=
  match cs.dropWhile (· != '=') with
  | [] => (String.ofList cs, none)
  | _ :: value => (String.ofList (cs.takeWhile (· != '=')), some (String.ofList value))

/-- The value that is attached to a short option; an `=` before it is dropped. -/
def attachedValue? : List Char → Option String
  | [] => none
  | '=' :: value => some (String.ofList value)
  | value => some (String.ofList value)

/-- What an argument is, before the command (`none`) or after it. -/
def word (verb : Option Verb) (arg : String) : Word :=
  match arg.toList with
  | ['-'] => .plain
  | ['-', '-'] => .endOfOptions
  | '-' :: '-' :: cs =>
    let (name, value) := splitValue cs
    match longFlag? verb name with
    | some flag => .flag flag value
    | none => .unknownFlag
  | '-' :: c :: cs =>
    match shortFlag? verb c with
    | some .file => .flag .file (attachedValue? cs)
    | some flag => .flag flag none
    | none => .unknownFlag
  | _ => .plain

/-- Whether an argument can be the value of the option before it. -/
def isValue (arg : String) : Bool :=
  arg == "-" || (Text.after? "-" arg).isNone

/-- What was given on one side of the command. -/
structure Given where
  noColor : Bool := false
  valueTypes : List String := []
  typeParams : List String := []
  unionName : Option String := none
  file : Option String := none
  /-- The arguments that are not options. -/
  others : List String := []

namespace Given

/-- Take an option in; some may only be given once. -/
def set? (given : Given) (flag : Flag) (value : String) : Option Given :=
  match flag with
  | .noColor => if given.noColor then none else some { given with noColor := true }
  | .valueType => some { given with valueTypes := given.valueTypes ++ [value] }
  | .typeParam => some { given with typeParams := given.typeParams ++ [value] }
  | .unionName =>
    if given.unionName.isSome then none else some { given with unionName := some value }
  | .file => if given.file.isSome then none else some { given with file := some value }
  | .help => none
  | .version => none

/-- Take in an argument that is not an option, if the command has a place for
it. -/
def add? (given : Given) (verb : Verb) (arg : String) : Option Given :=
  let fits :=
    match verb with
    | .names => true
    | .members => true
    | .fix => given.others.length < 2
    | .completions => given.others.isEmpty && shells.contains arg
  if fits then some { given with others := given.others ++ [arg] } else none

/-- Take in all of the arguments. -/
def addAll? (given : Given) (verb : Verb) (args : List String) : Option Given :=
  args.foldlM (fun given arg => given.add? verb arg) given

end Given

/-! ## Reading the arguments -/

/-- How far the arguments were read. -/
inductive Outcome where
  | stop (request : Request)
  /-- There are no more. -/
  | finish (given : Given)
  /-- An argument that is not an option, before any command. -/
  | command (text : String) (given : Given) (rest : List String)

/-- Read the arguments before the command (`none`) or after it. -/
def readArgs (verb : Option Verb) (given : Given) : List String → Outcome
  | [] => .finish given
  | arg :: rest =>
    match word verb arg with
    | .unknownFlag => .stop .misuse
    | .endOfOptions =>
      match verb.bind fun verb => given.addAll? verb rest with
      | some given => .finish given
      | none => .stop .misuse
    | .plain =>
      match verb with
      | none => .command arg given rest
      | some named =>
        match given.add? named arg with
        | some given => readArgs verb given rest
        | none => .stop .misuse
    | .flag flag attached =>
      if flag.takesValue then
        match attached, rest with
        | some value, rest =>
          match given.set? flag value with
          | some given => readArgs verb given rest
          | none => .stop .misuse
        | none, [] => .stop .misuse
        | none, value :: rest =>
          if isValue value then
            match given.set? flag value with
            | some given => readArgs verb given rest
            | none => .stop .misuse
          else .stop .misuse
      else if attached.isSome then .stop .misuse
      else if flag = .help then .stop .help
      else if flag = .version then .stop .version
      else
        match given.set? flag "" with
        | some given => readArgs verb given rest
        | none => .stop .misuse

/-- The command, when all that it needs was given. -/
def Given.command? (given : Given) (verb : Verb) : Option Command :=
  match verb, given.others, given.file with
  | .names, [], none => none
  | .names, signatures, file => some (.names signatures file)
  | .members, [], none => none
  | .members, unions, file => some (.members unions file)
  | .fix, [union, member], _ => some (.fix union member)
  | .completions, [shell], _ => some (.completions shell)
  | _, _, _ => none

/-- What counts when options are given before a command and after it. -/
def later (before after : List String) : List String :=
  if after.isEmpty then before else after

/-- The invocation of a command, from what was given before it and after it. -/
def invocation? (verb : Verb) (before after : Given) : Option Invocation :=
  (after.command? verb).map fun command =>
    { command := command
      color := !(before.noColor || after.noColor)
      context :=
        { valueTypes := later before.valueTypes after.valueTypes
          typeParams := later before.typeParams after.typeParams
          unionName := ((after.unionName.or before.unionName).getD "OneOf") } }

/-- The arguments of a request for help about a command. -/
def helpRequest : List String → Request
  | [] => .help
  | [topic] => if topic = "help" ∨ (Verb.ofText? topic).isSome then .help else .misuse
  | _ => .misuse

/-- What the arguments ask for. -/
def parse (args : List String) : Request :=
  match readArgs none {} args with
  | .stop request => request
  | .finish _ => .misuse
  | .command text before rest =>
    match Verb.ofText? text with
    | none => if text = "help" then helpRequest rest else .misuse
    | some verb =>
      match readArgs (some verb) {} rest with
      | .stop request => request
      | .finish after => ((invocation? verb before after).map Request.run).getD .misuse
      | .command _ _ _ => .misuse

end TypeNaming.CommandLine
