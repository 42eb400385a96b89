import PolicyMend.Command.Fix
import PolicyMend.Command.Line

/-!
Carrying out a command line. The answer holds what is printed, and the failure if there is one; a
run with conflicts prints its report and fails. `unprinted?` says what becomes of a command whose
text cannot be printed.
-/

namespace PolicyMend.Command

variable {m : Type → Type} [Monad m] [MonadDisk m]

inductive Problem where
  | usage (error : UsageError)
  | failure (failure : Failure)

structure Answer where
  output : String := ""
  problem : Option Problem := none

def Answer.exitCode (a : Answer) : Nat :=
  match a.problem with
  | none => 0
  | some (.usage _) => 2
  | some (.failure failure) => failure.code

def failureLine (failure : Failure) : String := "error: " ++ failure.message

def versionText : String := "regolith 0.1.0\n"

def workspaceRoot (g : Globals) : ExceptT Failure m String :=
  match g.workspace with
  | some path => return path
  | none => diskOp MonadDisk.current fun e =>
      .internal ("cannot determine current directory: " ++ e.text)

def configuration (g : Globals) (environment : Option String) (overrides : Config.Overrides) :
    ExceptT Failure m Config.Resolved := do
  let root ← workspaceRoot g
  (Config.Resolved.load root environment overrides).adapt Config.Error.toFailure

def FixReport.print (r : FixReport) : Format → String
  | .text => r.text
  | .json => r.toJson.renderIndented ++ "\n"

/-- The failure of a run with conflicts. -/
def FixReport.failure? (r : FixReport) : Option Failure :=
  let l := r.outcome.ledger
  if l.hasConflicts then
    some (.apply (toString l.conflictedPaths.length ++
      " paths are involved in conflicting moves") none)
  else none

def executeFix (environment : Option String) (a : FixArguments) : ExceptT Failure m Answer := do
  let config ← configuration a.globals environment
    { baseDir := a.baseDir, disabled := a.disabled, ignore := a.ignore }
  let report ← runFix { paths := a.paths, violations := a.violations, dryRun := a.dryRun, config }
  return { output := report.print (a.format.getD .text), problem := report.failure?.map .failure }

def executeFixers (environment : Option String) (g : Globals) : ExceptT Failure m Answer := do
  let config ← configuration g environment {}
  return { output := String.join (config.registry.names.map (· ++ "\n")) }

/-- Carries out a command line. `environment` is the value of the variable that names the project
root, if it is set. -/
def execute (environment : Option String) (arguments : List String) : m Answer := do
  let result ←
    match Invocation.parse arguments with
    | .error e => pure (.ok { problem := some (.usage e) })
    | .ok .version => pure (.ok { output := versionText })
    -- The text that explains the command line is left out.
    | .ok .help => pure (.ok {})
    | .ok (.fix a) => (executeFix environment a).run
    | .ok (.fixers g) => (executeFixers environment g).run
  match result with
  | .ok answer => return answer
  | .error failure => return { problem := some (.failure failure) }

/-- The problem of a command line whose text could not be printed. A report or a list that is lost
is a failure, which is told in place of conflicts; the version may be lost. -/
def unprinted? (arguments : List String) (cause : Disk.Error) : Option Problem :=
  match Invocation.parse arguments with
  | .ok (.fix _) | .ok (.fixers _) => some (.failure (.internal cause.text))
  | _ => none

end PolicyMend.Command
