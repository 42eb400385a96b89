import PolicyMend.Cache
import PolicyMend.Failure
import PolicyMend.Ignore
import PolicyMend.Sorting

/-!
Finding policy files on a disk and loading them into a cache.
-/

namespace PolicyMend.Command

variable {m : Type → Type} [Monad m] [MonadDisk m]

def policyExtension : String := "rego"

def diskOp {α : Type} (op : m (Except Disk.Error α)) (fail : Disk.Error → Failure) :
    ExceptT Failure m α :=
  ExceptT.mk do return (← op).mapError fail

/-- The absolute path of an existing file or directory. -/
def canonical (path : String) : ExceptT Failure m String :=
  diskOp (MonadDisk.resolve path) fun e =>
    if e.kind = .notFound then .fileNotFound path
    else .internal ("cannot resolve " ++ path ++ ": " ++ e.text)

/-- The policy files at or below one path. A file that is named is taken whatever its extension. -/
def policyFilesAt (path : String) : ExceptT Failure m (List String) := do
  let root ← canonical path
  if ← liftM (MonadDisk.isFile (m := m) root) then return [root]
  else
    let files ← diskOp (MonadDisk.filesBelow root) fun e => .internal e.text
    return files.filter fun file => Path.extension? file = some policyExtension

/-- The policy files at or below some paths, each once, in the order of their components. -/
def policyFiles (paths : List String) : ExceptT Failure m (List String) := do
  let found ← paths.mapM policyFilesAt
  return sortDistinct (fun a b => !Path.le b a) found.flatten

/-- Takes a file into the cache from the disk, and says whether its contents are news. -/
def refreshFromDisk (cache : Cache) (uri path : String) :
    ExceptT ReadError m (Bool × String × Cache) :=
  ExceptT.mk do
    match ← MonadDisk.readText path with
    | .ok contents =>
      let (changed, cache) := cache.refresh uri contents
      return .ok (changed, contents, cache)
    | .error cause => return .error ⟨path, cause⟩

/-- Loads one file; an ignored one goes to the store of ignored contents. -/
def loadFile (ignore : Ignore) (cache : Cache) (path : String) : ExceptT Failure m Cache := do
  if ignore.isIgnored path then
    let contents ← diskOp (MonadDisk.readText path) fun e => .internal (path ++ ": " ++ e.text)
    return cache.setIgnored path contents
  else
    let (_, _, cache) ← (refreshFromDisk cache path path).adapt ReadError.toFailure
    return cache

def loadFiles (ignore : Ignore) (files : List String) : ExceptT Failure m Cache :=
  files.foldlM (loadFile ignore) {}

end PolicyMend.Command
