import PolicyMend.Config.Project
import PolicyMend.Fix.Registry

/-!
The configuration of a run, from the defaults, the project's file, the environment and the command
line. A later source takes precedence over an earlier one: the project root is the one of highest
precedence; disabled fixers and patterns add up.
-/

namespace PolicyMend.Config

/-- Sources of settings, lowest precedence first. -/
inductive Source where
  | default
  | project
  | environment
  | commandLine
  deriving DecidableEq, Inhabited

def Source.rank : Source → Nat
  | default => 0
  | project => 1
  | environment => 2
  | commandLine => 3

structure Setting (α : Type) where
  value : α
  source : Source
  deriving DecidableEq

/-- The setting of higher precedence, and of equal ones the second. -/
def Setting.merge {α : Type} (a b : Setting α) : Setting α :=
  if a.source.rank ≤ b.source.rank then b else a

structure Overrides where
  baseDir : Option String := none
  disabled : List String := []
  ignore : List String := []

structure Resolved where
  baseDir : Setting String
  disabled : List (Setting String) := []
  ignore : List (Setting String) := []

namespace Resolved

def defaults (workspace : String) : Resolved where
  baseDir := ⟨workspace, .default⟩

def extend (r : Resolved) (source : Source) (baseDir : Option String)
    (disabled ignore : List String) : Resolved where
  baseDir :=
    match baseDir with
    | some dir => r.baseDir.merge ⟨dir, source⟩
    | none => r.baseDir
  disabled := r.disabled ++ disabled.map fun name => ⟨name, source⟩
  ignore := r.ignore ++ ignore.map fun pattern => ⟨pattern, source⟩

/-- Combines all sources. The project root of a configuration file is relative to the workspace. -/
def combine (workspace : String) (project : Option Project) (environment : Option String)
    (overrides : Overrides) : Resolved :=
  let project := project.getD {}
  (((defaults workspace).extend .project (project.baseDir.map (Path.join workspace))
      project.disabled project.ignore).extend .environment environment [] []).extend
    .commandLine overrides.baseDir overrides.disabled overrides.ignore

def isDisabled (r : Resolved) (name : String) : Bool :=
  r.disabled.any (·.value = name)

def registry (r : Resolved) : Fix.Registry :=
  r.disabled.foldl (fun registry name => registry.unregister name.value) .defaults

/-- Reads the configuration of a workspace. `environment` is the value of the variable that names
the project root, if it is set. -/
def load {m : Type → Type} [Monad m] [MonadDisk m] (workspace : String)
    (environment : Option String) (overrides : Overrides) : ExceptT Error m Resolved := do
  let project ← Project.load workspace
  return combine workspace project environment overrides

end Resolved

end PolicyMend.Config
