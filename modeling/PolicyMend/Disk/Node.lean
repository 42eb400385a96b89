import PolicyMend.OrderedMap

/-!
Files and directories. A directory holds what is in it by name, so everything above an entry is a
directory. Look-up goes down one name at a time; `at?_append` says that it may stop on the way.
-/

namespace PolicyMend.Disk

inductive Entry where
  | file (data : ByteArray)
  | directory

def Entry.isDirectory : Entry → Bool
  | file _ => false
  | directory => true

/-- The names from the root down to an entry. -/
abbrev Spot := List String

inductive Node where
  | file (data : ByteArray)
  | directory (children : List (String × Node))

namespace Node

def entry : Node → Entry
  | file data => .file data
  | directory _ => .directory

def child? (name : String) : Node → Option Node
  | file _ => none
  | directory children => OrderedMap.lookup name children

def at? : Spot → Node → Option Node
  | [], node => some node
  | name :: spot, node => (node.child? name).bind (at? spot)

/-- Makes an entry of a node. A directory keeps what is in it. -/
def become : Entry → Node → Node
  | .file data, _ => file data
  | .directory, directory children => directory children
  | .directory, file _ => directory []

/-- Puts an entry at the end of some names, with the directories that lead to it. Nothing can be put
below a file. -/
def put (entry : Entry) : Spot → Node → Node
  | [], node => node.become entry
  | _ :: _, file data => file data
  | name :: spot, directory children =>
    let child := (OrderedMap.lookup name children).getD (directory [])
    directory (OrderedMap.put name (put entry spot child) children)

def erase : Spot → Node → Node
  | [], node => node
  | _ :: _, file data => file data
  | [name], directory children => directory (OrderedMap.drop name children)
  | name :: spot, directory children =>
    match OrderedMap.lookup name children with
    | some child => directory (OrderedMap.put name (erase spot child) children)
    | none => directory children

mutual

/-- All entries below a node, whose own location is given. -/
def entriesBelow (spot : Spot) : Node → List (Spot × Entry)
  | file _ => []
  | directory children => entriesIn spot children

def entriesIn (spot : Spot) : List (String × Node) → List (Spot × Entry)
  | [] => []
  | (name, node) :: rest =>
    let own := spot ++ [name]
    (own, node.entry) :: (node.entriesBelow own ++ entriesIn spot rest)

end

@[simp] theorem at?_nil (node : Node) : node.at? [] = some node := rfl

theorem at?_append (upper lower : Spot) (node : Node) :
    node.at? (upper ++ lower) = (node.at? upper).bind (at? lower) := by
  induction upper generalizing node with
  | nil => rfl
  | cons name upper ih =>
    simp only [List.cons_append, at?]
    cases node.child? name with
    | none => rfl
    | some child => exact ih child

end Node

end PolicyMend.Disk
