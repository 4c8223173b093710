/-
# Running a command

What the program prints for an invocation, and whether it succeeds.  The outer
layer reads the file that the invocation names and hands over its content, or
the reason why it cannot be read; all else is done here.
-/
import TypeNaming.CommandLine.Arguments
import TypeNaming.Drawing.Report
import TypeNaming.Positional
import TypeNaming.Register
import TypeNaming.UnionType

namespace TypeNaming.CommandLine

/-- What a run leaves behind. -/
structure Output where
  /-- The text of the answers. -/
  answers : String := ""
  /-- The drawings of failures and warnings. -/
  remarks : String := ""
  /-- Whether something was refused. -/
  failed : Bool := false
  deriving DecidableEq, Repr

namespace Output

/-- One output after the other. -/
def append (a b : Output) : Output :=
  ⟨a.answers ++ b.answers, a.remarks ++ b.remarks, a.failed || b.failed⟩

instance : Append Output := ⟨append⟩

/-- An answer. -/
def answer (text : String) : Output := { answers := text }

/-- A drawing of something that is not held against the run. -/
def warning (color : Bool) (failure : Failure) : Output :=
  { remarks := Drawing.draw { color := color } failure }

/-- A drawing of something that was refused. -/
def failure (color : Bool) (failure : Failure) : Output :=
  { remarks := Drawing.draw { color := color } failure, failed := true }

end Output

/-! ## What there is to work on -/

/-- Why a file cannot be read. -/
inductive Unreadable where
  | missing
  | directory
  | notDirectory
  | nameTooLong
  | denied
  | notText
  | other (reason : String)
  deriving DecidableEq, Repr

/-- The reason in words. -/
def Unreadable.message : Unreadable → String
  | .missing => "No such file or directory (os error 2)"
  | .directory => "Is a directory (os error 21)"
  | .notDirectory => "Not a directory (os error 20)"
  | .nameTooLong => "File name too long (os error 36)"
  | .denied => "Permission denied (os error 13)"
  | .notText => "stream did not contain valid UTF-8"
  | .other reason => reason

/-- A text to work on, and the file it is from. -/
structure Input where
  text : String
  file : Option String
  deriving DecidableEq, Repr

/-- The lines of a file that are to be worked on: blank lines and comments are
passed over. -/
def inputLines (content : String) : List String :=
  ((Text.lines content).map Text.trim).filter fun line =>
    !line.isEmpty && (Text.after? "//" line).isNone

/-- How a file is called in remarks. -/
def fileTitle (path : String) : String :=
  if path = "-" then "<stdin>" else path

/-- The arguments, and after them the lines of the file. -/
def inputs (args : List String) (file : Option String) (content : Except Unreadable String) :
    Except Failure (List Input) :=
  let given := args.map fun arg => ⟨Text.trim arg, none⟩
  match file, content with
  | none, _ => .ok given
  | some path, .error reason => .error (.misuse (fileTitle path ++ ": " ++ reason.message))
  | some path, .ok content =>
    .ok (given ++ (inputLines content).map fun line => ⟨line, some (fileTitle path)⟩)

/-- The file that has to be read for the invocation. -/
def Invocation.file? (invocation : Invocation) : Option String :=
  match invocation.command with
  | .names _ file => file
  | .members _ file => file
  | .fix _ _ => none
  | .completions _ => none

/-! ## Names -/

/-- The names of a signature, line by line. -/
def namesText (source : String) (tree : NameTree) : String :=
  let namespaces :=
    if tree.namespaces.isEmpty then "-" else ", ".intercalate tree.namespaces
  source ++ "\n  readable:    " ++ tree.readable
    ++ "\n  declaration: " ++ tree.declaration
    ++ "\n  hint:        " ++ tree.hint
    ++ "\n  namespaces:  " ++ namespaces ++ "\n"

/-- The names of one input. -/
def runNames (context : Context) (color : Bool) (input : Input) : Output :=
  match Signature.read context input.text with
  | .ok signature => .answer (namesText input.text signature.toNameTree)
  | .error fault => .failure color ((fault.failure input.text).inFile input.file)

/-! ## Members -/

/-- The members of one alternative, in one line. -/
def alternativeText (index : Nat) (tree : NameTree) : String :=
  "  T" ++ toString index ++ " " ++ tree.declaration ++ ": "
    ++ ", ".intercalate ((Alternatives.membersAt index tree).map (·.name)) ++ "\n"

/-- The members of a union, line by line. -/
def membersText (source : String) (alternatives : Alternatives) : String :=
  let namespaces := alternatives.namespaces
  let imports :=
    if namespaces.isEmpty then "" else "  using: " ++ ", ".intercalate namespaces ++ "\n"
  source ++ "\n  hint: " ++ alternatives.hint ++ "\n" ++ imports
    ++ String.join (alternatives.toList.zipIdx.map fun (tree, index) => alternativeText index tree)

/-- The unions that were printed so far. -/
structure Printed where
  register : Register
  /-- The texts of the registered unions, in the order of their numbers. -/
  sources : List String

/-- Nothing was printed yet. -/
def Printed.empty : Printed := ⟨Register.empty, []⟩

/-- Print a union, or the text of an equal one that was printed before. -/
def Printed.print (printed : Printed) (source : String) (alternatives : Alternatives) :
    String × Printed :=
  match printed.register.enter alternatives with
  | (some number, register) =>
    (source ++ "\n  duplicate of " ++ (printed.sources[number]?).getD "" ++ "\n",
      ⟨register, printed.sources⟩)
  | (none, register) =>
    (membersText source alternatives, ⟨register, printed.sources ++ [source]⟩)

/-- The members of all inputs, after those that were printed so far. -/
def runMembers (context : Context) (color : Bool) (printed : Printed) : List Input → Output
  | [] => {}
  | input :: rest =>
    match UnionType.read context input.text with
    | .error failure =>
      .failure color (failure.inFile input.file) ++ runMembers context color printed rest
    | .ok union =>
      let warnings :=
        match union.warnings? with
        | some failure => .warning color (failure.inFile input.file)
        | none => {}
      let (text, printed) := printed.print input.text union.alternatives
      warnings ++ .answer text ++ runMembers context color printed rest

/-! ## The fix of a positional member -/

/-- The failure of a name that is not positional. -/
def notPositional (member : String) : Failure :=
  .misuse ("`" ++ member ++ "` is not a positional member; expected IsT<n>, AsT<n>, MapT<n> or "
    ++ "TryPickT<n>")

/-- The failure of a position past the last alternative. -/
def outOfRange (positional : Positional) (alternatives : Alternatives) : Failure :=
  .misuse ("`" ++ positional.toText ++ "` is out of range for a union of "
    ++ toString alternatives.size ++ " alternatives")

/-- What to write in place of a member of a union. -/
def fixed (context : Context) (source member : String) : Except Failure NamedForm := do
  let union ← UnionType.read context source
  let member := Text.trim member
  match Positional.ofText? member with
  | none => .error (notPositional member)
  | some positional =>
    match union.alternatives.namedForm? positional with
    | none => .error (outOfRange positional union.alternatives)
    | some form => .ok form

/-! ## Every command -/

/-- What the program prints for the invocation.  `content` is what is in the
file that it names. -/
def Invocation.output (invocation : Invocation) (content : Except Unreadable String) : Output :=
  let color := invocation.color
  let context := invocation.context
  match invocation.command with
  | .names signatures file =>
    match inputs signatures file content with
    | .error failure => .failure color failure
    | .ok inputs => (inputs.map (runNames context color)).foldl (· ++ ·) {}
  | .members unions file =>
    match inputs unions file content with
    | .error failure => .failure color failure
    | .ok inputs => runMembers context color Printed.empty inputs
  | .fix union member =>
    match fixed context union member with
    | .error failure => .failure color failure
    | .ok form => .answer (form.toText ++ "\n")
  | .completions _ => .answer "names\nmembers\nfix\ncompletions\nhelp\n"

/-! ## The whole program -/

/-- What is left when the program ends. -/
structure Response where
  exitCode : UInt32
  stdout : String
  stderr : String

/-- The name and the version of the program. -/
def versionText : String := "unionname 0.1.0\n"

/-- How the program is used. -/
def usage : String :=
  "Usage: unionname [OPTIONS] <COMMAND>\n\n"
    ++ "Commands:\n"
    ++ "  names [SIGNATURES]... [--file <FILE>]   print the names of type signatures\n"
    ++ "  members [UNIONS]... [--file <FILE>]     print the members of unions\n"
    ++ "  fix <UNION> <MEMBER>                    print the named form of a member\n"
    ++ "  completions <SHELL>                     print the words to complete\n\n"
    ++ "Options:\n"
    ++ "  --no-color            draw without colors\n"
    ++ "  --value-type <NAME>   a name of a value type; may be repeated\n"
    ++ "  --type-param <NAME>   a name of an open type parameter; may be repeated\n"
    ++ "  --union-name <NAME>   the simple name of the union type [default: OneOf]\n"

/-- The file that has to be read before the answer to the request. -/
def Request.file? : Request → Option String
  | .run invocation => invocation.file?
  | _ => none

/-- The answer to the request. -/
def Request.answer (request : Request) (content : Except Unreadable String) : Response :=
  match request with
  | .version => ⟨0, versionText, ""⟩
  | .help => ⟨0, usage, ""⟩
  | .misuse => ⟨2, "", usage⟩
  | .run invocation =>
    let output := invocation.output content
    ⟨if output.failed then 1 else 0, output.answers, output.remarks⟩

end TypeNaming.CommandLine
