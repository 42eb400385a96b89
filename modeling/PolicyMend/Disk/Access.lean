/-!
What a command needs of a disk, and how a disk fails. Commands are written over any monad with
these operations, so that they run on a real disk and are reasoned about on a modelled one.
-/

namespace PolicyMend

namespace Disk

inductive Kind where
  | notFound
  | permissionDenied
  | alreadyExists
  | notADirectory
  | isADirectory
  | invalidData
  | invalidInput
  | invalidName
  | other
  deriving DecidableEq, Inhabited

structure Error where
  kind : Kind
  text : String
  deriving DecidableEq, Inhabited

namespace Error

def notFound : Error := ⟨.notFound, "No such file or directory (os error 2)"⟩

def alreadyExists : Error := ⟨.alreadyExists, "File exists (os error 17)"⟩

def notADirectory : Error := ⟨.notADirectory, "Not a directory (os error 20)"⟩

def isADirectory : Error := ⟨.isADirectory, "Is a directory (os error 21)"⟩

def nulByte : Error := ⟨.invalidInput, "file name contained an unexpected NUL byte"⟩

def nameTooLong : Error := ⟨.invalidName, "File name too long (os error 36)"⟩

def notText : Error := ⟨.invalidData, "stream did not contain valid UTF-8"⟩

end Error

end Disk

open Disk in
class MonadDisk (m : Type → Type) where
  /-- The directory from which relative paths start. -/
  current : m (Except Error String)
  /-- The absolute path of what a path names, without `.`, `..` and repeated separators. -/
  resolve : String → m (Except Error String)
  isFile : String → m Bool
  /-- The paths of all files below a directory, in any order. -/
  filesBelow : String → m (Except Error (List String))
  readText : String → m (Except Error String)
  /-- Creates a directory and those above it that are missing. -/
  createDirs : String → m (Except Error Unit)
  /-- Makes a text the contents of a file, which need not exist. -/
  writeText : String → String → m (Except Error Unit)
  removeFile : String → m (Except Error Unit)

end PolicyMend
