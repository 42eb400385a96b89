import PolicyMend.Glob.Expression
import PolicyMend.Glob.Matching
import PolicyMend.Glob.Method
import PolicyMend.Glob.Parser
import PolicyMend.Path

/-!
Which files are kept out of fixing: those whose path under the project root matches a pattern.
-/

namespace PolicyMend

structure Ignore where
  root : String
  patterns : List (List Glob.Token)

namespace Ignore

/-- Why patterns cannot be used: one cannot be read, or nests too deep. The latter shows only when
all have been read. Patterns that ask for an extension are then taken one by one, and named by their
regular expression; the others are taken together, and named by their place among themselves. -/
inductive Error where
  | unreadable (pattern : String) (cause : Glob.Error)
  | extensionTooDeep (expression : String)
  | tooDeep (place : Nat)
  deriving DecidableEq

/-- The pattern that an error names, empty if all have been read. -/
def Error.pattern : Error → String
  | unreadable pattern _ => pattern
  | extensionTooDeep _ | tooDeep _ => ""

def Error.cause : Error → String
  | unreadable pattern cause => cause.message pattern
  | extensionTooDeep expression =>
    "error parsing glob '" ++ expression ++ "': error parsing pattern 0"
  | tooDeep place => "error parsing pattern " ++ String.ofList (Nat.toDigits 10 place)

def Error.message (e : Error) : String :=
  "invalid ignore pattern '" ++ e.pattern ++ "': " ++ e.cause

def tooDeep? (patterns : List (List Glob.Token)) : Option Error :=
  let decidedBy (m : Glob.Method) := patterns.filter fun tokens => Glob.method tokens = m
  match (decidedBy .fileExtension).find? Glob.isTooDeep with
  | some tokens => some (.extensionTooDeep (Glob.expression tokens))
  | none => ((decidedBy .general).findIdx? Glob.isTooDeep).map .tooDeep

def ofPatterns (root : String) (patterns : List String) : Except Error Ignore := do
  let read ← patterns.mapM fun pattern => (Glob.parse pattern).mapError (.unreadable pattern)
  match tooDeep? read with
  | some e => .error e
  | none => return ⟨root, read⟩

def isEmpty (i : Ignore) : Bool := i.patterns.isEmpty

/-- Whether a path is to be left alone. A path that is not under the root is matched as it is. -/
def isIgnored (i : Ignore) (path : String) : Bool :=
  let shown := (Path.relativeTo? path i.root).getD path
  i.patterns.any fun pattern => Glob.isMatch pattern shown

end Ignore

end PolicyMend
