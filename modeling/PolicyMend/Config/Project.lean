import PolicyMend.Disk.Access
import PolicyMend.Ignore
import PolicyMend.Json.Printer
import PolicyMend.Json.Record
import PolicyMend.Path

/-!
The configuration file of a project. It is looked for in the workspace, and a workspace without one
is no failure.
-/

namespace PolicyMend.Config

def fileName : String := ".regolith.json"

def baseDirVariable : String := "REGOLITH_BASE_DIR"

inductive Error where
  | unreadable (path : String) (cause : Disk.Error)
  | invalid (path : String) (fault : Json.Fault)
  | badPatterns (cause : Ignore.Error)
  deriving DecidableEq

def Error.message : Error → String
  | unreadable path cause => "failed to read " ++ path ++ ": " ++ cause.text
  | invalid path _ => "invalid configuration in " ++ path ++ ": "
  | badPatterns cause => cause.message

/-- What a configuration file says: fixers that must not run, patterns of files to leave alone, and
the project root. -/
structure Project where
  disabled : List String := []
  ignore : List String := []
  baseDir : Option String := none
  deriving DecidableEq, Inhabited

namespace Project

def toJson (p : Project) : Json :=
  .object ([("disabled", Json.ofStrings p.disabled), ("ignore", Json.ofStrings p.ignore)] ++
    p.baseDir.toList.map fun baseDir => ("base_dir", .string baseDir))

open Json in
/-- Reads a configuration. Every field may be absent, and no other field may be there. -/
def reader : Reader Project :=
  (Shape.field "disabled" (Reader.list Reader.string) <|
    .field "ignore" (Reader.list Reader.string) <|
    .field "base_dir" (Reader.optional Reader.string) <| .done).record .refused
    fun (disabled, ignore, baseDir, _) =>
      some {
        disabled := disabled.getD []
        ignore := ignore.getD []
        baseDir := baseDir.getD none }

def parse (path text : String) : Except Error Project :=
  (reader.whole text).mapError (.invalid path)

/-- Reads the configuration file of a workspace, if there is one. -/
def load {m : Type → Type} [Monad m] [MonadDisk m] (workspace : String) :
    ExceptT Error m (Option Project) := do
  let path := Path.join workspace fileName
  match ← liftM (MonadDisk.readText (m := m) path) with
  | .ok text => return some (← liftExcept (parse path text))
  | .error cause => if cause.kind = .notFound then return none else throw (.unreadable path cause)

end Project

end PolicyMend.Config
