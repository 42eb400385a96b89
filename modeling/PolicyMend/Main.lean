import PolicyMend.Command.Execute

/-!
The program: commands on the disk of the machine.
-/

namespace PolicyMend

def Disk.Error.ofSystem : IO.Error → Disk.Error
  | .noFileOrDirectory _ _ _ => .notFound
  | .alreadyExists _ _ _ => .alreadyExists
  | .permissionDenied _ _ _ => ⟨.permissionDenied, "Permission denied (os error 13)"⟩
  | .inappropriateType _ 20 _ => .notADirectory
  | .inappropriateType _ 21 _ => .isADirectory
  | .invalidArgument _ 36 _ => .nameTooLong
  | e => ⟨.other, toString e⟩

def onSystem {α : Type} (op : IO α) : IO (Except Disk.Error α) := do
  try
    return .ok (← op)
  catch e => return .error (.ofSystem e)

/-- An operation of the system on a path, which must not hold a NUL byte. -/
def onPath {α : Type} (path : String) (op : IO α) : IO (Except Disk.Error α) :=
  if '\x00' ∈ path.toList then return .error .nulByte else onSystem op

/-- The files below a directory, as absolute paths. -/
partial def systemFilesBelow (path : String) : IO (List String) := do
  let mut found := []
  for entry in ← (← IO.FS.realPath path).readDir do
    let inner := path ++ (if path.endsWith "/" then "" else "/") ++ entry.fileName
    match (← entry.path.symlinkMetadata).type with
    | .file => found := inner :: found
    | .dir => found := (← systemFilesBelow inner) ++ found
    | _ => pure ()
  return found

instance : MonadDisk IO where
  current := onSystem do return toString (← IO.currentDir)
  resolve path := onPath path do return toString (← IO.FS.realPath path)
  isFile path := do
    match ← onPath path do return (← (← IO.FS.realPath path).metadata).type with
    | .ok .file => return true
    | _ => return false
  filesBelow path := onPath path (systemFilesBelow path)
  readText path := do
    match ← onPath path (IO.FS.readBinFile path) with
    | .error e => return .error e
    | .ok data =>
      match String.fromUTF8? data with
      | some text => return .ok text
      | none => return .error .notText
  createDirs path := onPath path (IO.FS.createDirAll path)
  writeText path contents := onPath path (IO.FS.writeFile path contents)
  removeFile path := onPath path (IO.FS.removeFile path)

def Command.Answer.print (a : Answer) (arguments : List String) : IO Answer := do
  if a.output.isEmpty then return a
  let printed ← onSystem do
    let output ← IO.getStdout
    output.putStr a.output
    output.flush
  match printed with
  | .ok () => return a
  | .error cause => return { a with problem := unprinted? arguments cause }

end PolicyMend

open PolicyMend in
def main (arguments : List String) : IO UInt32 := do
  let answer ← Command.execute (← IO.getEnv Config.baseDirVariable) arguments
  let answer ← answer.print arguments
  match answer.problem with
  | none => pure ()
  | some (.usage e) => IO.eprintln ("error: " ++ e.message)
  | some (.failure f) => IO.eprintln (Command.failureLine f)
  return UInt32.ofNat answer.exitCode
