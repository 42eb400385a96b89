import PolicyMend.Config.Project
import PolicyMend.Fix.Edit
import PolicyMend.Violation

/-!
Failures of a command. Each part of the program has errors of its own; for the user they fall into
four classes, each with an exit code.
-/

namespace PolicyMend

inductive Failure where
  | invalidArguments (message : String)
  | fileNotFound (path : String)
  | apply (message : String) (file : Option String)
  | internal (message : String)
  deriving DecidableEq

namespace Failure

def message : Failure → String
  | invalidArguments message => "invalid arguments: " ++ message
  | fileNotFound path => "file not found: " ++ path
  | apply message _ => "apply error: " ++ message
  | internal message => "internal error: " ++ message

def file? : Failure → Option String
  | fileNotFound path => some path
  | apply _ file => file
  | _ => none

def code : Failure → Nat
  | invalidArguments _ => 2
  | fileNotFound _ => 3
  | apply _ _ => 4
  | internal _ => 10

end Failure

structure ReadError where
  path : String
  cause : Disk.Error
  deriving DecidableEq

def ReadError.message (e : ReadError) : String :=
  "failed to read " ++ e.path ++ ": " ++ e.cause.text

def ReadError.toFailure (e : ReadError) : Failure :=
  if e.cause.kind = .notFound then .fileNotFound e.path
  else .internal ("IO error reading " ++ e.path ++ ": " ++ e.cause.text)

def Fix.Error.toFailure (e : Fix.Error) : Failure := .invalidArguments e.message

def Config.Error.toFailure (e : Config.Error) : Failure :=
  match e with
  | .unreadable _ _ => .internal e.message
  | .invalid _ _ | .badPatterns _ => .invalidArguments e.message

def Violation.Error.toFailure (e : Violation.Error) : Failure := .invalidArguments e.message

end PolicyMend
