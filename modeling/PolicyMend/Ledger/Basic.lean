import PolicyMend.Fix.Edit
import PolicyMend.OrderedMap
import PolicyMend.Sorting

/-!
The ledger of a run: which fixes landed on which file, where moved files come from, and which moves
cannot be carried out. Conflicts are reported and never resolved.
-/

namespace PolicyMend

/-- The fixes of one file, and the project root under which they are reported. -/
structure FileFixes where
  root : String
  titles : List String
  deriving DecidableEq

/-- Two paths that stand in each other's way: `other` would move onto `path`. -/
structure Conflict where
  root : String
  path : String
  other : String
  deriving DecidableEq

/-- Fixes by destination, moves from source to destination, and the conflicts of the moves: those
with a file that stays, and those among moves to one place. -/
structure Ledger where
  roots : List String := []
  fixes : OrderedMap String FileFixes := ∅
  moves : OrderedMap String String := ∅
  sourceFile : List Conflict := []
  manyToOne : List Conflict := []

namespace Ledger

/-! ### Recording -/

/-- An element at the end of a list, unless the list has it. -/
def addNew {α : Type} [DecidableEq α] (known : List α) (a : α) : List α :=
  if a ∈ known then known else known ++ [a]

def seeRoot (l : Ledger) (root : String) : Ledger :=
  { l with roots := addNew l.roots root }

/-- Records a fix of a file. The first fix decides under which root the file is reported. -/
def addFix (l : Ledger) (dest title root : String) : Ledger :=
  { l.seeRoot root with
    fixes := l.fixes.alter dest fun
      | some known => { known with titles := known.titles ++ [title] }
      | none => ⟨root, [title]⟩ }

/-- Moves the fixes of one path to another, after those that are there. -/
def mergeFixes (l : Ledger) (new old : String) : Ledger :=
  if new = old then l
  else
    match l.fixes.get? old with
    | none => l
    | some moved =>
      { l with
        fixes := (l.fixes.erase old).alter new fun
          | some known => { known with titles := known.titles ++ moved.titles }
          | none => moved }

/-- Records where a file ends up. A later record for the same file replaces an earlier one, and a
file that ends up where it was does not move. -/
def registerMove (l : Ledger) (new old : String) : Ledger :=
  if new = old then { l with moves := l.moves.erase old }
  else { l with moves := l.moves.insert old new }

def registerManyToOne (l : Ledger) (root old new : String) : Ledger :=
  { l.seeRoot root with manyToOne := addNew l.manyToOne ⟨root, new, old⟩ }

def registerSourceFile (l : Ledger) (root existing incoming : String) : Ledger :=
  { l.seeRoot root with sourceFile := addNew l.sourceFile ⟨root, existing, incoming⟩ }

/-! ### Files and roots -/

def rootOf? (l : Ledger) (path : String) : Option String :=
  (l.fixes.get? path).map (·.root)

def files (l : Ledger) : List String := l.fixes.keys

def filesIn (l : Ledger) (root : String) : List String :=
  ascending ((l.fixes.entries.filter fun entry => entry.2.root = root).map Prod.fst)

def titlesOf (l : Ledger) (path : String) : List String :=
  ((l.fixes.get? path).map (·.titles)).getD []

def countTitles (fixes : List FileFixes) : Nat :=
  fixes.foldr (fun file count => file.titles.length + count) 0

def total (l : Ledger) : Nat := countTitles l.fixes.values

def totalIn (l : Ledger) (root : String) : Nat :=
  countTitles (l.fixes.values.filter fun fixes => fixes.root = root)

/-! ### Moves -/

def sourcesOf (l : Ledger) (dest : String) : List String :=
  (l.moves.entries.filter fun move => move.2 = dest).map Prod.fst

/-- Where the file at a path comes from, if exactly one file moves there. -/
def sourceOf? (l : Ledger) (dest : String) : Option String :=
  match l.sourcesOf dest with
  | [source] => some source
  | _ => none

def destinations (l : Ledger) : List String :=
  l.moves.values.foldl addNew []

/-! ### Conflicts -/

def hasConflicts (l : Ledger) : Bool :=
  !l.sourceFile.isEmpty || !l.manyToOne.isEmpty

def hasConflictsIn (l : Ledger) (root : String) : Bool :=
  l.sourceFile.any (·.root = root) || l.manyToOne.any (·.root = root)

/-- The conflicts under a root: each path with the paths that collide with it, all in ascending
order. -/
def grouped (conflicts : List Conflict) (root : String) : List (String × List String) :=
  let here := conflicts.filter (·.root = root)
  (ascending (here.map (·.path))).map fun path =>
    (path, ascending ((here.filter (·.path = path)).map (·.other)))

def conflictedPaths (l : Ledger) : List String :=
  ascending ((l.sourceFile ++ l.manyToOne).flatMap fun conflict => [conflict.path, conflict.other])

/-! ### Detection

Moves of several files to one path are in each other's way. A move onto a path is also in conflict
if a file is there that does not move away, or if the moves lead back to where they started. -/

/-- Whether following the moves leads to `start` within the given number of steps. -/
def leadsTo (l : Ledger) (start : String) : Nat → String → Bool
  | 0, _ => false
  | steps + 1, current =>
    match l.moves.get? current with
    | some next => next = start || l.leadsTo start steps next
    | none => false

def inCycle (l : Ledger) (start : String) : Bool :=
  l.leadsTo start l.moves.size start

/-- Records the conflicts of the moves onto one path; `existing` are the paths that hold files. -/
def detectAt (existing : List String) (l : Ledger) (dest : String) : Ledger :=
  let sources := l.sourcesOf dest
  let root := (l.rootOf? dest).getD ""
  let vacated := l.moves.contains dest
  let crowding := if sources.length > 1 then sources else []
  let overwriting := if dest ∈ existing && !vacated then sources else []
  let cycling := sources.filter fun source => vacated && l.inCycle source
  let l := crowding.foldl (fun l source => l.registerManyToOne root source dest) l
  (overwriting ++ cycling).foldl (fun l source => l.registerSourceFile root dest source) l

def detect (l : Ledger) (existing : List String) : Ledger :=
  l.destinations.foldl (detectAt existing) l

end Ledger

end PolicyMend
