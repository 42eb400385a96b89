import PolicyMend.Fix.SpanRemoval
import PolicyMend.Fix.Substitution
import PolicyMend.Package

/-!
Fixers and the registry in which a run looks them up. A fixer goes by the code of the diagnostics it
mends. The built-in fixers make at most one edit a file, and fail only without options.
-/

namespace PolicyMend.Fix

structure Fixer where
  name : String
  fix : Candidate → Option Options → Except Error (List Edit)

namespace Fixer

def describe (f : Fixer) : String := "Fixer(" ++ f.name ++ ")"

/-- A fixer that needs options and makes at most one edit. -/
def requiring (name : String) (edit : Candidate → Options → Option Edit) : Fixer where
  name := name
  fix candidate
    | none => .error (.missingOptions name)
    | some options => .ok (edit candidate options).toList

def editing (name : String) (edit : String → List Location → Option String) : Fixer :=
  requiring name fun candidate options =>
    (edit candidate.contents options.locations).map fun contents =>
      { title := name, root := options.baseDir, contents
        sourceHash := .compute candidate.contents }

end Fixer

/-- The fixers that are built in. The last one moves files and may let a test live beside what it
tests. -/
inductive Builtin where
  | useAssignmentOperator
  | preferEqualsComparison
  | noWhitespaceComment
  | constantCondition
  | redundantExistenceCheck
  | directoryPackageMismatch (besideTested : Bool)
  deriving DecidableEq

namespace Builtin

def name : Builtin → String
  | useAssignmentOperator => "use-assignment-operator"
  | preferEqualsComparison => "prefer-equals-comparison"
  | noWhitespaceComment => "no-whitespace-comment"
  | constantCondition => "constant-condition"
  | redundantExistenceCheck => "redundant-existence-check"
  | directoryPackageMismatch _ => "directory-package-mismatch"

def remove (emptied : Emptied) (contents : String) (locations : List Location) : Option String :=
  (SpanRemoval.edited? emptied contents locations).filter (· ≠ contents)

def relocate (besideTested : Bool) (candidate : Candidate) (options : Options) : Option Edit := do
  let home ← Package.home? besideTested options.baseDir candidate.filename candidate.contents
  if Path.same home candidate.filename then none
  else
    return {
      title := (directoryPackageMismatch besideTested).name
      root := options.baseDir
      contents := candidate.contents
      rename := some ⟨candidate.filename, home⟩
      sourceHash := .compute candidate.contents }

def fixer (b : Builtin) : Fixer :=
  match b with
  | useAssignmentOperator => .editing b.name Substitution.assignment.edited?
  | preferEqualsComparison => .editing b.name Substitution.comparison.edited?
  | noWhitespaceComment => .editing b.name Substitution.spacedComment.edited?
  | constantCondition => .editing b.name (remove .dropped)
  | redundantExistenceCheck => .editing b.name (remove .kept)
  | directoryPackageMismatch besideTested => .requiring b.name (relocate besideTested)

/-- All built-in fixers, those that edit contents first and the one that moves files last. -/
def all : List Builtin :=
  [useAssignmentOperator, preferEqualsComparison, noWhitespaceComment, constantCondition,
    redundantExistenceCheck, directoryPackageMismatch true]

end Builtin

/-- The fixers of a run, in the order in which they were registered. -/
structure Registry where
  fixers : List Fixer := []

namespace Registry

def unregister (r : Registry) (name : String) : Registry :=
  ⟨r.fixers.filter fun f => f.name ≠ name⟩

/-- Adds a fixer at the end, in place of the one of the same name. -/
def register (r : Registry) (f : Fixer) : Registry :=
  ⟨(r.unregister f.name).fixers ++ [f]⟩

def defaults : Registry :=
  Builtin.all.foldl (fun r b => r.register b.fixer) {}

def get? (r : Registry) (name : String) : Option Fixer :=
  r.fixers.find? fun f => f.name = name

def require (r : Registry) (name : String) : Except Error Fixer :=
  match r.get? name with
  | some f => .ok f
  | none => .error (.unknownFixer name)

def names (r : Registry) : List String := r.fixers.map (·.name)

def describe (r : Registry) : String :=
  "FixerRegistry \x7b fixers: [" ++ ", ".intercalate (r.fixers.map (·.describe)) ++ "] \x7d"

end Registry

end PolicyMend.Fix
