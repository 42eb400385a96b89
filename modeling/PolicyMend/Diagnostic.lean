import PolicyMend.Location

/-!
Issues reported in a file. The code of a diagnostic names the rule that found it, and with it the
fixer that may mend it.
-/

namespace PolicyMend

inductive Severity where
  | error
  | warning
  | information
  | hint
  deriving DecidableEq, Inhabited

namespace Severity

def name : Severity → String
  | error => "error"
  | warning => "warning"
  | information => "information"
  | hint => "hint"

/-- All severities, the gravest first. -/
def all : List Severity := [error, warning, information, hint]

def ofName? (name : String) : Option Severity :=
  all.find? fun s => s.name = name

def toJson (s : Severity) : Json := .string s.name

def reader : Json.Reader Severity := Json.Reader.choice ofName?

end Severity

structure Diagnostic where
  code : String
  category : String := ""
  message : String
  location : Location
  severity : Severity := .error
  deriving DecidableEq, Inhabited

def Diagnostic.toJson (d : Diagnostic) : Json :=
  .object [("code", .string d.code), ("category", .string d.category),
    ("message", .string d.message), ("location", d.location.toJson),
    ("severity", d.severity.toJson)]

open Json in
def Diagnostic.reader : Reader Diagnostic :=
  (Shape.field "code" Reader.string <| .field "category" Reader.string <|
    .field "message" Reader.string <| .field "location" Location.reader <|
    .field "severity" Severity.reader <| .done).record .skipped
    fun (code, category, message, location, severity, _) => do
      return {
        code := ← code
        category := category.getD ""
        message := ← message
        location := ← location
        severity := severity.getD .error }

end PolicyMend
