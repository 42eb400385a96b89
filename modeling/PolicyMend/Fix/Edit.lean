import PolicyMend.Digest
import PolicyMend.Location

/-!
What a fixer is given and what it returns: a candidate file with options, and edits of it.
-/

namespace PolicyMend.Fix

structure Candidate where
  filename : String
  contents : String
  deriving DecidableEq, Inhabited

/-- The project root of a file and the places to act on, in the order in which they were reported.
-/
structure Options where
  baseDir : String
  locations : List Location := []
  deriving DecidableEq, Inhabited

structure Rename where
  source : String
  dest : String
  deriving DecidableEq, Inhabited

/-- A mended file: its whole contents, where it should go, and the hash of what it was made from. -/
structure Edit where
  title : String
  root : String
  contents : String
  rename : Option Rename := none
  sourceHash : ContentHash
  deriving DecidableEq, Inhabited

inductive Error where
  | missingOptions (fixer : String)
  | mismatch (m : Json.Mismatch)
  | unknownFixer (name : String)
  deriving DecidableEq

def Error.message : Error → String
  | missingOptions fixer => fixer ++ ": runtime options are required"
  | mismatch m => m.message
  | unknownFixer name => "no fixer registered for '" ++ name ++ "'"

/-! ### Written form -/

def Options.toJson (o : Options) : Json :=
  .object [("base_dir", .string o.baseDir), ("locations", .array (o.locations.map Location.toJson))]

def Rename.toJson (r : Rename) : Json :=
  .object [("from", .string r.source), ("to", .string r.dest)]

def Edit.toJson (e : Edit) : Json :=
  .object ([("title", .string e.title), ("root", .string e.root),
      ("contents", .string e.contents)] ++
    e.rename.toList.map (fun rename => ("rename", rename.toJson)) ++
    [("source_hash", .string e.sourceHash.hex)])

open Json in
def Options.reader : Reader Options :=
  (Shape.field "base_dir" Reader.string <|
    .field "locations" (Reader.list Location.reader) <| .done).record .skipped
    fun (baseDir, locations, _) => do
      return { baseDir := ← baseDir, locations := locations.getD [] }

open Json in
def Rename.reader : Reader Rename :=
  (Shape.field "from" Reader.string <| .field "to" Reader.string <| .done).record .skipped
    fun (source, dest, _) => do return { source := ← source, dest := ← dest }

open Json in
def Edit.reader : Reader Edit :=
  (Shape.field "title" Reader.string <| .field "root" Reader.string <|
    .field "contents" Reader.string <| .field "rename" (Reader.optional Rename.reader) <|
    .field "source_hash" Reader.string <| .done).record .skipped
    fun (title, root, contents, rename, sourceHash, _) => do
      return {
        title := ← title
        root := ← root
        contents := ← contents
        rename := rename.getD none
        sourceHash := ⟨← sourceHash⟩ }

end PolicyMend.Fix
