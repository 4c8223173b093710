/-
# Failures and what they point at

A diagnostic is a remark about a part of a text, with further places that belong
to it and advice.  A failure is what an operation answers when it cannot do what
it was asked: either it was used wrongly, or a text was refused, with the
diagnostics that say why.
-/
import TypeNaming.Signature.Fault

namespace TypeNaming

/-- How serious a remark is. -/
inductive Severity where
  | error
  | warning
  | info
  deriving DecidableEq, Repr

/-- A further place that a diagnostic refers to. -/
structure Related where
  span : Span
  message : String
  deriving DecidableEq, Repr

/-- A remark about a part of a text. -/
structure Diagnostic where
  severity : Severity
  message : String
  span : Span
  related : List Related := []
  advice : List String := []
  code : Option String := none
  deriving DecidableEq, Repr

/-- Why an operation has no answer. -/
inductive Failure where
  /-- What was asked makes no sense. -/
  | misuse (message : String)
  /-- The text was refused, or is suspicious. -/
  | rejected (diagnostics : List Diagnostic) (source : String) (file : Option String)
  deriving DecidableEq, Repr

namespace Failure

/-- The remarks that come with the failure. -/
def diagnostics : Failure → List Diagnostic
  | .misuse _ => []
  | .rejected diagnostics _ _ => diagnostics

/-- The name of the file that the text is from, when it is known. -/
def file : Failure → Option String
  | .misuse _ => none
  | .rejected _ _ file => file

/-- The failure of a text from the file, if one is named. -/
def inFile (file : Option String) : Failure → Failure
  | .misuse message => .misuse message
  | .rejected diagnostics source known => .rejected diagnostics source (file.or known)

/-- The failure in one line: the only diagnostic, or how many errors there are. -/
def message : Failure → String
  | .misuse message => "API error: " ++ message
  | .rejected [only] _ _ => only.message
  | .rejected diagnostics _ _ =>
    let errors := diagnostics.filter fun d => d.severity == .error
    "signature rejected with " ++ toString errors.length ++ " error(s)"

end Failure

/-- The one diagnostic of a fault in a signature. -/
def Signature.Fault.diagnostic (fault : Signature.Fault) : Diagnostic where
  severity := .error
  message := fault.cause.message
  span := fault.span
  advice := fault.cause.advice.toList
  code := some fault.cause.code

/-- The failure of a text that is not a signature. -/
def Signature.Fault.failure (fault : Signature.Fault) (source : String) : Failure :=
  .rejected [fault.diagnostic] source none

end TypeNaming
