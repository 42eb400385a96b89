import PolicyMend.Command.Execute
import PolicyMend.Proofs.FixOnDisk
import PolicyMend.Proofs.HeldBack

/-!
Dry runs against real ones. Both prepare in the same way, and only the real one writes, so they
differ in nothing but what is written. Main statement: a dry run leaves the disk alone and tells
what the real run will do, and a real run that fails before it writes leaves the disk alone too.
-/

namespace PolicyMend

/-- A failure while files are written, or a conflict. -/
def Failure.IsApply (failure : Failure) : Prop := ∃ message file, failure = .apply message file

namespace Command

open Disk (Tree)

theorem exec_prepare (request : FixRequest) (t : Tree) :
    exec (prepare request) t = ((exec (prepare request) t).1, t) :=
  Prod.ext rfl (prepare_readsOnly request t)

/-! ### Both kinds of run -/

def forecast (o : Outcome) : FixReport where
  text := o.ledger.report
  written := []
  outcome := o
  dryRun := true

def achieved (cache : Cache) (o : Outcome) : FixReport where
  text := o.ledger.report
  written := (o.commit cache).2.applied
  outcome := o
  dryRun := false

theorem exec_runFix_dry {request : FixRequest} (dry : request.dryRun = true) (t : Tree) :
    exec (runFix request) t =
      ((exec (prepare request) t).1.map fun (_, o) => forecast o, t) := by
  rw [runFix, exec_bind, exec_prepare request t]
  cases (exec (prepare request) t).1 with
  | error failure => rfl
  | ok prepared =>
    obtain ⟨cache, o⟩ := prepared
    dsimp only
    rw [if_pos dry]
    rfl

theorem exec_runFix_real {request : FixRequest} (real : request.dryRun = false) (t : Tree) :
    exec (runFix request) t =
      match (exec (prepare request) t).1 with
      | .error failure => (.error failure, t)
      | .ok (cache, o) =>
        ((exec (writeFiles (o.commit cache).2.applied) t).1.map fun _ => achieved cache o,
          (exec (writeFiles (o.commit cache).2.applied) t).2) := by
  rw [runFix, exec_bind, exec_prepare request t]
  cases (exec (prepare request) t).1 with
  | error failure => rfl
  | ok prepared =>
    obtain ⟨cache, o⟩ := prepared
    dsimp only
    rw [if_neg (by simp [real]), exec_bind]
    rcases exec (writeFiles (o.commit cache).2.applied) t with ⟨result, after⟩
    cases result with
    | error failure => rfl
    | ok done => rfl

/-! ### Failures while writing -/

/-- A command that fails only by what it cannot apply. -/
def FailsInApplying {α : Type} (command : ExceptT Failure (StateM Tree) α) : Prop :=
  ∀ t failure, (exec command t).1 = .error failure → failure.IsApply

theorem failsInApplying_pure {α : Type} (a : α) : FailsInApplying (pure a) := by
  intro t failure failed
  cases failed

theorem FailsInApplying.bind {α β : Type} {x : ExceptT Failure (StateM Tree) α}
    {f : α → ExceptT Failure (StateM Tree) β} (first : FailsInApplying x)
    (rest : ∀ a, FailsInApplying (f a)) : FailsInApplying (x >>= f) := by
  intro t failure failed
  have earlier := first t
  rw [exec_bind] at failed
  generalize exec x t = done at earlier failed
  obtain ⟨result, middle⟩ := done
  cases result with
  | error cause =>
    cases failed
    exact earlier failure rfl
  | ok a => exact rest a middle failure failed

theorem failsInApplying_diskOp {α : Type} (op : StateM Tree (Except Disk.Error α))
    {fail : Disk.Error → Failure} (applies : ∀ e, (fail e).IsApply) :
    FailsInApplying (diskOp op fail) := by
  intro t failure failed
  rw [exec_diskOp] at failed
  cases result : (op.run t).1 with
  | error e =>
    rw [result] at failed
    cases failed
    exact applies e
  | ok a =>
    rw [result] at failed
    cases failed

theorem writeFile_failsInApplying (f : FixedFile) : FailsInApplying (writeFile f) := by
  have writing : ∀ e : Disk.Error, Failure.IsApply
      (.apply ("failed to write " ++ f.dest ++ ": " ++ e.text) (some f.dest)) := fun e =>
    ⟨_, _, rfl⟩
  have removing : ∀ e : Disk.Error, Failure.IsApply
      (.apply ("failed to remove " ++ f.source ++ ": " ++ e.text) (some f.source)) := fun e =>
    ⟨_, _, rfl⟩
  have rest : FailsInApplying (do
      diskOp (MonadDisk.writeText f.dest f.contents) fun e =>
        .apply ("failed to write " ++ f.dest ++ ": " ++ e.text) (some f.dest)
      if f.isMove then
        diskOp (MonadDisk.removeFile f.source) fun e =>
          .apply ("failed to remove " ++ f.source ++ ": " ++ e.text) (some f.source)) := by
    refine (failsInApplying_diskOp _ writing).bind fun _ => ?_
    split
    · exact failsInApplying_diskOp _ removing
    · exact failsInApplying_pure ()
  unfold writeFile
  dsimp only
  split
  · exact (failsInApplying_diskOp _ writing).bind fun _ => rest
  · exact rest

theorem writeFiles_failsInApplying (files : List FixedFile) :
    FailsInApplying (writeFiles files) := by
  induction files with
  | nil => exact failsInApplying_pure ()
  | cons f files ih => exact (writeFile_failsInApplying f).bind fun _ => ih

theorem runFix_real_ok {request : FixRequest} {report : FixReport} {t : Tree}
    (real : request.dryRun = false) (ran : (exec (runFix request) t).1 = .ok report) :
    ∃ cache o, (exec (prepare request) t).1 = .ok (cache, o) ∧ report = achieved cache o := by
  rw [exec_runFix_real real] at ran
  split at ran
  · cases ran
  · next cache o prepared =>
    obtain ⟨_, -, rfl⟩ := map_eq_ok ran
    exact ⟨cache, o, prepared, rfl⟩

theorem runFix_real_error {request : FixRequest} {failure : Failure} {t : Tree}
    (real : request.dryRun = false) (ran : (exec (runFix request) t).1 = .error failure) :
    failure.IsApply ∨
      (exec (prepare request) t).1 = .error failure ∧ (exec (runFix request) t).2 = t := by
  rw [exec_runFix_real real] at ran ⊢
  split at ran
  · next cause prepared =>
    cases ran
    exact .inr ⟨prepared, rfl⟩
  · next cache o prepared =>
    have failed := map_eq_error ran
    exact .inl (writeFiles_failsInApplying (o.commit cache).2.applied t failure failed)

/-! ### The command line -/

theorem loadProject_run (root : String) (t : Tree) :
    (StateT.run (Config.Project.load root : ExceptT Config.Error (StateM Tree) _).run t).2 = t := by
  have reads : (liftM (MonadDisk.readText (m := StateM Tree) (Path.join root Config.fileName)) :
      ExceptT Config.Error (StateM Tree) _).run.run t =
        (.ok (t.readText (Path.join root Config.fileName)), t) := rfl
  unfold Config.Project.load
  dsimp only
  rw [ExceptT.run_bind, StateT.run_bind, reads]
  cases t.readText (Path.join root Config.fileName) with
  | ok text =>
    show (StateT.run (ExceptT.run (liftExcept (Config.Project.parse _ text) >>= fun p =>
      (pure (some p) : ExceptT Config.Error (StateM Tree) _))) t).2 = t
    cases Config.Project.parse (Path.join root Config.fileName) text with
    | error e => rfl
    | ok p => rfl
  | error cause =>
    show (StateT.run (ExceptT.run (if cause.kind = .notFound then pure none
      else throw (.unreadable _ cause) :
        ExceptT Config.Error (StateM Tree) (Option Config.Project))) t).2 = t
    split <;> rfl

theorem configuration_readsOnly (g : Globals) (environment : Option String)
    (overrides : Config.Overrides) :
    ReadsOnly (configuration g environment overrides : ExceptT Failure (StateM Tree) _) := by
  refine ReadsOnly.bind ?_ fun root t => ?_
  · unfold workspaceRoot
    split
    · exact readsOnly_pure _
    · exact readsOnly_diskOp _ fun _ => rfl
  · have reads := loadProject_run root t
    show (StateT.run (Except.mapError Config.Error.toFailure <$>
      (Config.Resolved.load root environment overrides :
        ExceptT Config.Error (StateM Tree) _).run) t).2 = t
    rw [StateT.run_map, Config.Resolved.load, ExceptT.run_bind, StateT.run_bind]
    generalize StateT.run (Config.Project.load root :
      ExceptT Config.Error (StateM Tree) _).run t = done at reads ⊢
    obtain ⟨result, after⟩ := done
    obtain rfl : after = t := reads
    cases result with
    | error e => rfl
    | ok p => rfl

/-- A command line that comes down to a request, once its configuration has been read. -/
def Asks (environment : Option String) (arguments : List String) (t : Tree)
    (request : FixRequest) : Prop :=
  ∃ a config, Invocation.parse arguments = .ok (.fix a) ∧
    (exec (configuration a.globals environment
      { baseDir := a.baseDir, disabled := a.disabled, ignore := a.ignore }) t).1 = .ok config ∧
    request = { paths := a.paths, violations := a.violations, dryRun := a.dryRun, config }

theorem exitCode_of_report (output : String) (report : FixReport) :
    Answer.exitCode { output, problem := report.failure?.map .failure } = 0 ↔
      report.outcome.ledger.hasConflicts = false := by
  unfold FixReport.failure?
  dsimp only
  split
  · next conflicts => simp [Answer.exitCode, Failure.code, conflicts]
  · next clean => simp [Answer.exitCode, clean]

theorem execute_fix {arguments : List String} {a : FixArguments}
    (parsed : Invocation.parse arguments = .ok (.fix a)) (environment : Option String) (t : Tree) :
    (execute environment arguments : StateM Tree Answer).run t =
      match exec (executeFix environment a) t with
      | (.ok answer, after) => (answer, after)
      | (.error failure, after) => ({ problem := some (.failure failure) }, after) := by
  unfold execute exec
  rw [parsed, StateT.run_bind]
  dsimp only
  rcases StateT.run (executeFix environment a).run t with ⟨result, after⟩
  cases result with
  | error failure => rfl
  | ok answer => rfl

/-- A command line that asks for a request does to the disk what the request does, and succeeds if
and only if the request does and finds no conflict. -/
theorem Asks.execute {environment : Option String} {arguments : List String} {t : Tree}
    {request : FixRequest} (asks : Asks environment arguments t request) :
    let ran := (execute environment arguments : StateM Tree Answer).run t
    ran.2 = (exec (runFix request) t).2 ∧
      (ran.1.exitCode = 0 ↔ ∃ report, (exec (runFix request) t).1 = .ok report ∧
        report.outcome.ledger.hasConflicts = false) := by
  obtain ⟨a, config, parsed, configured, rfl⟩ := asks
  intro ran
  have unchanged := configuration_readsOnly a.globals environment
    { baseDir := a.baseDir, disabled := a.disabled, ignore := a.ignore } t
  have fixed := execute_fix parsed environment t
  rw [executeFix, exec_bind] at fixed
  generalize exec (configuration a.globals environment _) t = loaded at configured unchanged fixed
  obtain ⟨settings, after⟩ := loaded
  obtain rfl : after = t := unchanged
  obtain rfl : settings = .ok config := configured
  dsimp only at fixed
  rw [exec_bind] at fixed
  generalize exec (runFix _) after = done at fixed ⊢
  obtain ⟨result, after'⟩ := done
  cases result with
  | error failure =>
    rw [show ran = _ from fixed]
    refine ⟨rfl, fun succeeded => absurd succeeded ?_, ?_⟩
    · cases failure <;> simp [Answer.exitCode, Failure.code]
    · rintro ⟨report, found, -⟩
      cases found
  | ok report =>
    rw [show ran = _ from fixed]
    refine ⟨rfl, (exitCode_of_report _ report).trans ⟨fun clean => ⟨report, rfl, clean⟩, ?_⟩⟩
    rintro ⟨found, same, clean⟩
    cases same
    exact clean

/-! ### Predictions -/

/-- A commit of a run applies all of its files if and only if no conflict was found. -/
theorem applied_perm_iff (registry : Fix.Registry) (baseDir : String) (cache : Cache) :
    ((run registry baseDir cache).commit cache).2.applied.Perm (run registry baseDir cache).files ↔
      (run registry baseDir cache).ledger.hasConflicts = false := by
  have sorted := Commit.order_perm (run registry baseDir cache).files
  rw [Commit.commit_run_summary, Bool.eq_false_iff, ne_eq, ← Commit.exists_reached_iff]
  constructor
  · rintro complete ⟨f, member, reached⟩
    have applied := complete.mem_iff.mpr member
    exact (Commit.mem_verdict_applied.mp applied).2 reached
  · intro clear
    have all : (Commit.verdict (run registry baseDir cache).ledger
        (Commit.order (run registry baseDir cache).files)).applied =
          Commit.order (run registry baseDir cache).files := by
      simp only [Commit.verdict, List.filter_eq_self, decide_eq_true_eq]
      intro f member reached
      exact clear ⟨f, sorted.mem_iff.mp member, reached⟩
    rw [all]
    exact sorted

/-- A dry run leaves the disk alone. If the real run comes to an end, the dry run shows its report;
all files of the report are written if and only if there is no conflict, which is when the command
line succeeds. If the real run fails before it writes, the disk is as it was and the dry run fails
in the same way. -/
theorem dryRun_predicts (request : FixRequest) (t : Tree) :
    let dry := exec (runFix { request with dryRun := true }) t
    let real := exec (runFix { request with dryRun := false }) t
    dry.2 = t ∧
      (∀ report, real.1 = .ok report →
        (∃ shown, dry.1 = .ok shown ∧ shown.text = report.text ∧
          shown.outcome.files = report.outcome.files ∧
          shown.outcome.ledger = report.outcome.ledger) ∧
        (report.written.Perm report.outcome.files ↔
          report.outcome.ledger.hasConflicts = false)) ∧
      (∀ environment arguments, Asks environment arguments t { request with dryRun := false } →
        let ran := (execute environment arguments : StateM Tree Answer).run t
        ran.2 = real.2 ∧ (ran.1.exitCode = 0 ↔
          ∃ report, real.1 = .ok report ∧ report.written.Perm report.outcome.files)) ∧
      (∀ failure, real.1 = .error failure → ¬failure.IsApply →
        real.2 = t ∧ dry.1 = .error failure) := by
  intro dry real
  have shown : dry = ((exec (prepare request) t).1.map fun (_, o) => forecast o, t) :=
    exec_runFix_dry rfl t
  have decided : ∀ report, real.1 = .ok report →
      (∃ shown, dry.1 = .ok shown ∧ shown.text = report.text ∧
        shown.outcome.files = report.outcome.files ∧
        shown.outcome.ledger = report.outcome.ledger) ∧
      (report.written.Perm report.outcome.files ↔
        report.outcome.ledger.hasConflicts = false) := by
    intro report done
    obtain ⟨cache, o, prepared, rfl⟩ := runFix_real_ok rfl done
    have prepared' : exec (prepare request) t = (.ok (cache, o), t) := by
      rw [exec_prepare]
      exact Prod.ext prepared rfl
    obtain ⟨-, baseDir, computed⟩ := prepare_ok prepared'
    refine ⟨⟨forecast o, ?_, rfl, rfl, rfl⟩, ?_⟩
    · rw [shown, prepared']
      rfl
    · show (o.commit cache).2.applied.Perm o.files ↔ o.ledger.hasConflicts = false
      rw [computed]
      exact applied_perm_iff _ baseDir cache
  refine ⟨by rw [shown], decided, ?_, ?_⟩
  · intro environment arguments asks
    obtain ⟨disk, succeeds⟩ := asks.execute
    refine ⟨disk, succeeds.trans (exists_congr fun report => and_congr_right fun done => ?_)⟩
    exact (decided report done).2.symm
  · intro failure failed early
    obtain applied | ⟨refused, unchanged⟩ := runFix_real_error rfl failed
    · exact absurd applied early
    · have refused' : (exec (prepare request) t).1 = .error failure := refused
      refine ⟨unchanged, ?_⟩
      rw [shown, refused']
      rfl

def rivalTree : Tree where
  root := .directory [("a.rego", .file "package p\n".toUTF8),
    ("b", .directory [("a.rego", .file "package p\n".toUTF8)]),
    ("c.rego", .file "package c\n".toUTF8)]

def rivalLine : List String :=
  ["fix", "--violation", "directory-package-mismatch=/a.rego:1:1",
    "--violation", "directory-package-mismatch=/b/a.rego:1:1",
    "--violation=directory-package-mismatch=/c.rego:1:1"]

def rivalRequest : FixRequest where
  violations := [⟨"directory-package-mismatch", "/a.rego", ⟨1, 1, none⟩⟩,
    ⟨"directory-package-mismatch", "/b/a.rego", ⟨1, 1, none⟩⟩,
    ⟨"directory-package-mismatch", "/c.rego", ⟨1, 1, none⟩⟩]
  config := .defaults "/"

def lostRequest : FixRequest where
  violations := [⟨"directory-package-mismatch", "/lost.rego", ⟨1, 1, none⟩⟩]
  config := .defaults "/"

theorem asks_rivalLine : Asks none rivalLine rivalTree rivalRequest := by
  refine ⟨{ violations := rivalRequest.violations }, .defaults "/", by decide +kernel, ?_, rfl⟩
  rfl

theorem exec_rivalRequest :
    ∃ report, (exec (runFix rivalRequest) rivalTree).1 = .ok report ∧
      report.written.map (·.source) = ["/c.rego"] ∧
      report.outcome.ledger.hasConflicts = true := by
  have evaluated : (match (exec (runFix rivalRequest) rivalTree).1 with
      | .ok report => decide (report.written.map (·.source) = ["/c.rego"]) &&
          report.outcome.ledger.hasConflicts
      | .error _ => false) = true := by
    decide +kernel
  split at evaluated
  · next report ran =>
    obtain ⟨written, conflicts⟩ := Bool.and_eq_true_iff.mp evaluated
    exact ⟨report, ran, of_decide_eq_true written, conflicts⟩
  · cases evaluated

theorem exec_lostRequest :
    (exec (runFix lostRequest) rivalTree).1 = .error (.fileNotFound "/lost.rego") := by
  have evaluated : (match (exec (runFix lostRequest) rivalTree).1 with
      | .ok _ => false
      | .error failure => decide (failure = .fileNotFound "/lost.rego")) = true := by
    decide +kernel
  split at evaluated
  · cases evaluated
  · next failure failed => rw [failed, of_decide_eq_true evaluated]

theorem dryRun_predicts_rivals :
    ∃ report shown, (exec (runFix rivalRequest) rivalTree).1 = .ok report ∧
      exec (runFix { rivalRequest with dryRun := true }) rivalTree = (.ok shown, rivalTree) ∧
      shown.text = report.text ∧ shown.outcome.files = report.outcome.files ∧
      ¬report.written.Perm report.outcome.files ∧
      Asks none rivalLine rivalTree rivalRequest ∧
      ((execute none rivalLine : StateM Tree Answer).run rivalTree).1.exitCode ≠ 0 ∧
      exec (runFix lostRequest) rivalTree = (.error (.fileNotFound "/lost.rego"), rivalTree) ∧
      (exec (runFix { lostRequest with dryRun := true }) rivalTree).1 =
        .error (.fileNotFound "/lost.rego") := by
  obtain ⟨report, ran, -, conflicts⟩ := exec_rivalRequest
  obtain ⟨unchanged, decided, commanded, -⟩ := dryRun_predicts rivalRequest rivalTree
  obtain ⟨⟨shown, done, text, files, -⟩, complete⟩ := decided report ran
  have partly : ¬report.written.Perm report.outcome.files := by
    rw [complete, conflicts]
    decide
  obtain ⟨-, succeeds⟩ := commanded none rivalLine asks_rivalLine
  have early : ¬Failure.IsApply (.fileNotFound "/lost.rego") := by
    rintro ⟨message, file, same⟩
    cases same
  obtain ⟨-, -, -, refused⟩ := dryRun_predicts lostRequest rivalTree
  obtain ⟨disk, same⟩ := refused _ exec_lostRequest early
  refine ⟨report, shown, ran, Prod.ext done unchanged, text, files, partly, asks_rivalLine, ?_,
    Prod.ext exec_lostRequest disk, same⟩
  intro zero
  obtain ⟨found, ran', perm⟩ := succeeds.mp zero
  cases ran.symm.trans ran'
  exact partly perm

end Command

end PolicyMend
