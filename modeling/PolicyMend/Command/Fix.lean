import PolicyMend.Command.Files
import PolicyMend.Commit
import PolicyMend.Config.Resolved
import PolicyMend.Ledger.Report

/-!
The command that fixes files. It loads the policy files, attaches the violations it was given to
them as diagnostics, runs the fixers, and, unless the run is dry, commits the outcome and writes the
committed files to the disk.
-/

namespace PolicyMend.Command

variable {m : Type → Type} [Monad m] [MonadDisk m]

/-- What is to be fixed, and how. Without paths the whole project is loaded. -/
structure FixRequest where
  paths : List String := []
  violations : List Violation := []
  dryRun : Bool := false
  config : Config.Resolved

structure FixReport where
  text : String
  written : List FixedFile
  outcome : Outcome
  dryRun : Bool

/-! ### Violations -/

/-- Finds the file of a violation. A violation in an ignored file is passed over. -/
def locateViolation (cache : Cache) (registry : Fix.Registry) (v : Violation) :
    ExceptT Failure m (Option String) := do
  let _ ← liftExcept ((registry.require v.fixer).mapError Fix.Error.toFailure)
  let uri ← canonical v.path
  if cache.contents.contains uri then return some uri
  else if cache.ignored.contains uri then return none
  else throw (.invalidArguments (v.path ++ " is not among the files being fixed"))

def gatherViolation (cache : Cache) (registry : Fix.Registry)
    (gathered : OrderedMap String (List Diagnostic)) (v : Violation) :
    ExceptT Failure m (OrderedMap String (List Diagnostic)) := do
  match ← locateViolation cache registry v with
  | none => return gathered
  | some uri =>
    let diagnostic := { code := v.fixer, message := "fix requested", location := v.location }
    return gathered.alter uri fun known => known.getD [] ++ [diagnostic]

/-- Attaches violations to their files. Each must name a known fixer and a file that was loaded. -/
def attachViolations (cache : Cache) (registry : Fix.Registry) (violations : List Violation) :
    ExceptT Failure m Cache := do
  let gathered ← violations.foldlM (gatherViolation cache registry) ∅
  return gathered.entries.foldl (fun cache (uri, found) => cache.setDiagnostics uri found) cache

/-! ### Writing -/

def writeFile (f : FixedFile) : ExceptT Failure m Unit := do
  let failed (e : Disk.Error) : Failure :=
    .apply ("failed to write " ++ f.dest ++ ": " ++ e.text) (some f.dest)
  match Path.parent? f.dest with
  | some parent => diskOp (MonadDisk.createDirs parent) failed
  | none => pure ()
  diskOp (MonadDisk.writeText f.dest f.contents) failed
  if f.isMove then
    diskOp (MonadDisk.removeFile f.source) fun e =>
      .apply ("failed to remove " ++ f.source ++ ": " ++ e.text) (some f.source)

def writeFiles (files : List FixedFile) : ExceptT Failure m Unit :=
  files.forM writeFile

/-! ### The command -/

/-- Loads what a request names and computes its outcome. Nothing is written. -/
def prepare (request : FixRequest) : ExceptT Failure m (Cache × Outcome) := do
  let baseDir ← canonical request.config.baseDir.value
  let patterns := request.config.ignore.map (·.value)
  let ignore ← liftExcept ((Ignore.ofPatterns baseDir patterns).mapError
    fun cause => (Config.Error.badPatterns cause).toFailure)
  let files ← policyFiles (if request.paths.isEmpty then [baseDir] else request.paths)
  let loaded ← loadFiles ignore files
  let registry := request.config.registry
  let cache ← attachViolations loaded registry request.violations
  return (cache, run registry baseDir cache)

/-- Fixes files. Conflicts are reported and are no failure here. -/
def runFix (request : FixRequest) : ExceptT Failure m FixReport := do
  let (cache, outcome) ← prepare request
  let text := outcome.ledger.report
  if request.dryRun then
    return { text, written := [], outcome, dryRun := true }
  else
    let (_, summary) := outcome.commit cache
    writeFiles summary.applied
    return { text, written := summary.applied, outcome, dryRun := false }

def FixReport.toJson (r : FixReport) : Json :=
  let l := r.outcome.ledger
  .object [
    ("status", .string (if l.hasConflicts then "conflict" else "ok")),
    ("dry_run", .boolean r.dryRun),
    ("total_fixes", Json.ofNat l.total),
    ("failures", Json.ofNat r.outcome.failures),
    ("files", .array (r.outcome.files.map fun f => .object [
      ("source", .string f.source),
      ("dest", .string f.dest),
      ("fixes", Json.ofStrings (l.titlesOf f.dest)),
      ("written", .boolean (r.written.any (·.source = f.source)))])),
    ("conflicts", Json.ofStrings l.conflictedPaths)]

end PolicyMend.Command
