import PolicyMend.Disk.Access
import PolicyMend.Disk.Node
import PolicyMend.Path

/-!
A disk as a value: what stands at every absolute location. Paths are followed piece by piece from
the root or the current directory; every piece asks for a directory before it, `..` goes up, and
there are no links. A path with a NUL byte and one that is too long are refused unseen.
-/

namespace PolicyMend.Disk

/-- A disk from its root down, and the current directory. -/
structure Tree where
  root : Node := .directory []
  current : Spot := []

namespace Tree

def at? (t : Tree) (spot : Spot) : Option Entry := (t.root.at? spot).map Node.entry

/-- All entries with their locations, the root apart. -/
def entries (t : Tree) : List (Spot × Entry) := t.root.entriesBelow []

def spotText (spot : Spot) : String := "/" ++ "/".intercalate spot

/-! ### Following paths -/

/-- The greatest number of bytes of a name. -/
def greatestName : Nat := 255

def greatestPath : Nat := 4095

def isTooLong (piece : List Char) : Bool := greatestName < (String.ofList piece).utf8ByteSize

def follow (t : Tree) (spot : Spot) (piece : List Char) : Except Error Spot :=
  match t.at? spot with
  | none => .error .notFound
  | some (.file _) => .error .notADirectory
  | some .directory =>
    if Path.isIdle piece then .ok spot
    else if piece = ['.', '.'] then .ok spot.dropLast
    else if isTooLong piece then .error .nameTooLong
    else
      let next := spot ++ [String.ofList piece]
      if (t.at? next).isSome then .ok next else .error .notFound

def followAll (t : Tree) (spot : Spot) (pieces : List (List Char)) : Except Error Spot :=
  pieces.foldlM t.follow spot

def start (t : Tree) (path : String) : Spot :=
  if Path.isAbsolute path then [] else t.current

def pieces (path : String) : Except Error (List (List Char)) :=
  if '\x00' ∈ path.toList then .error .nulByte
  else if path.isEmpty then .error .notFound
  else .ok (path.toList.splitOn '/')

/-- The pieces of a path that can be used as a whole. -/
def wholePieces (path : String) : Except Error (List (List Char)) := do
  let found ← pieces path
  if greatestPath < path.utf8ByteSize then .error .nameTooLong else return found

def find (t : Tree) (path : String) : Except Error Spot := do
  t.followAll (t.start path) (← wholePieces path)

/-- The directory in which a path names an entry, and the last piece of the path, which need not
exist. -/
def findParent (t : Tree) (path : String) : Except Error (Spot × List Char) := do
  let found ← wholePieces path
  let spot ← t.followAll (t.start path) found.dropLast
  match t.at? spot with
  | some .directory => return (spot, found.getLastD [])
  | some (.file _) => .error .notADirectory
  | none => .error .notFound

/-! ### Reading -/

/-- The absolute path of what a path names. The path is taken piece by piece, so it may be of any
length. -/
def resolve (t : Tree) (path : String) : Except Error String := do
  return spotText (← t.followAll (t.start path) (← pieces path))

def isFile (t : Tree) (path : String) : Bool :=
  match t.find path with
  | .ok spot =>
    match t.at? spot with
    | some (.file _) => true
    | _ => false
  | .error _ => false

def isDirectory (t : Tree) (path : String) : Bool :=
  match t.find path with
  | .ok spot => (t.at? spot).any Entry.isDirectory
  | .error _ => false

def filesBelow (t : Tree) (path : String) : Except Error (List String) := do
  let spot ← t.find path
  let below := ((t.root.at? spot).map (Node.entriesBelow spot)).getD []
  return below.filterMap fun
    | (spot, .file _) => some (spotText spot)
    | (_, .directory) => none

def readText (t : Tree) (path : String) : Except Error String := do
  let spot ← t.find path
  match t.at? spot with
  | some (.file data) =>
    match String.fromUTF8? data with
    | some text => .ok text
    | none => .error .notText
  | some .directory => .error .isADirectory
  | none => .error .notFound

/-! ### Writing -/

def put (t : Tree) (spot : Spot) (entry : Entry) : Tree :=
  { t with root := t.root.put entry spot }

def erase (t : Tree) (spot : Spot) : Tree :=
  { t with root := t.root.erase spot }

def createDir (t : Tree) (path : String) : Except Error Tree := do
  let trimmed := String.ofList (path.toList.reverse.dropWhile (· = '/')).reverse
  if trimmed.isEmpty then .error (if path.isEmpty then .notFound else .alreadyExists)
  else
    let (spot, piece) ← t.findParent trimmed
    let next := spot ++ [String.ofList piece]
    if isTooLong piece then .error .nameTooLong
    else if Path.isIdle piece ∨ piece = ['.', '.'] ∨ (t.at? next).isSome then .error .alreadyExists
    else return t.put next .directory

/-- Creates a directory, and first the one above it if that is missing. What has been created stays
if a later step fails. A path has no more parents than characters, which is fuel enough. -/
def createDirsUp : Nat → Tree → String → Except Error Unit × Tree
  | 0, t, _ => (.ok (), t)
  | fuel + 1, t, path =>
    if path.isEmpty then (.ok (), t)
    else
      match t.createDir path with
      | .ok made => (.ok (), made)
      | .error e =>
        if e.kind ≠ .notFound then (if t.isDirectory path then .ok () else .error e, t)
        else
          match Path.parent? path with
          | none => (.error ⟨.other, "failed to create whole tree"⟩, t)
          | some parent =>
            match createDirsUp fuel t parent with
            | (.error e, t) => (.error e, t)
            | (.ok (), t) =>
              match t.createDir path with
              | .ok made => (.ok (), made)
              | .error e => (if t.isDirectory path then .ok () else .error e, t)

def createDirs (t : Tree) (path : String) : Except Error Unit × Tree :=
  createDirsUp (path.length + 1) t path

def writeText (t : Tree) (path contents : String) : Except Error Tree := do
  let (spot, piece) ← t.findParent path
  let next := spot ++ [String.ofList piece]
  if isTooLong piece then .error .nameTooLong
  else if Path.isIdle piece ∨ piece = ['.', '.'] ∨ (t.at? next).any Entry.isDirectory then
    .error .isADirectory
  else return t.put next (.file contents.toUTF8)

def removeFile (t : Tree) (path : String) : Except Error Tree := do
  let spot ← t.find path
  match t.at? spot with
  | some (.file _) => return t.erase spot
  | some .directory => .error .isADirectory
  | none => .error .notFound

end Tree

/-- A change of the tree that may fail and then changes nothing. -/
def attempt (change : Tree → Except Error Tree) : StateM Tree (Except Error Unit) := fun t =>
  match change t with
  | .ok changed => (.ok (), changed)
  | .error e => (.error e, t)

instance : MonadDisk (StateM Tree) where
  current t := (.ok (Tree.spotText t.current), t)
  resolve path t := (t.resolve path, t)
  isFile path t := (t.isFile path, t)
  filesBelow path t := (t.filesBelow path, t)
  readText path t := (t.readText path, t)
  createDirs path t := t.createDirs path
  writeText path contents := attempt fun t => t.writeText path contents
  removeFile path := attempt fun t => t.removeFile path

end PolicyMend.Disk
