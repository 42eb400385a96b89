import PolicyMend.Ledger.Basic
import PolicyMend.Path

/-!
The report of a ledger as text. The roots come in the order in which they were seen, with an empty
line between them. A root with conflicts lists these and nothing else; any other root lists its
fixes, file by file.
-/

namespace PolicyMend.Ledger

def shown (root path : String) : String :=
  if root.isEmpty then path else (Path.relativeTo? path root).getD path

def fixesHeader (root : String) (count : Nat) : String :=
  toString count ++ (if count = 1 then " fix" else " fixes") ++ " applied in " ++ root ++ ":"

def fileLines (l : Ledger) (root path : String) : List String :=
  let header :=
    match l.sourceOf? path with
    | some source => shown root source ++ " -> " ++ shown root path ++ ":"
    | none => shown root path ++ ":"
  header :: (l.titlesOf path).map ("- " ++ ·)

def fixLines (l : Ledger) (root : String) : List String :=
  fixesHeader root (l.totalIn root) :: [""].intercalate ((l.filesIn root).map (l.fileLines root))

/-- The conflicts of one kind under a root, if there are any. -/
def conflictGroup (title reason root : String) (conflicts : List Conflict) : List String :=
  match grouped conflicts root with
  | [] => []
  | groups =>
    "" :: title :: groups.flatMap fun (path, others) =>
      (shown root path ++ " (" ++ reason ++ "):") ::
        others.map fun other => "- " ++ shown root other

def conflictLines (l : Ledger) (root : String) : List String :=
  ("Fixes not applied in " ++ root ++ ":") ::
    (conflictGroup "Source file conflicts:" "cannot overwrite existing file" root l.sourceFile ++
      conflictGroup "Many to one conflicts:" "would receive more than one file" root l.manyToOne)

def rootLines (l : Ledger) (root : String) : List String :=
  if l.hasConflictsIn root then l.conflictLines root else l.fixLines root

def reportLines (l : Ledger) : List String :=
  if l.roots.isEmpty then ["No fixes to apply."] else [""].intercalate (l.roots.map l.rootLines)

def report (l : Ledger) : String :=
  String.join (l.reportLines.map (· ++ "\n"))

end PolicyMend.Ledger
