/-!
Paths with `/` between their components. A path keeps its text as written, and is compared by
components: empty pieces and inner `.` are passed over, a leading `.` is a component of its own, and
`..` is never resolved.
-/

namespace PolicyMend.Path

inductive Component where
  | root
  | here
  | parent
  | name (text : List Char)
  deriving DecidableEq, Inhabited

/-- A path as what it starts with and the pieces between the separators after that. -/
structure Layout where
  lead : Option Component
  body : List (List Char)

def leadText : Option Component → List Char
  | some .root => ['/']
  | some .here => ['.']
  | _ => []

def layout : List Char → Layout
  | '/' :: rest => ⟨some .root, rest.splitOn '/'⟩
  | ['.'] => ⟨some .here, [[]]⟩
  | '.' :: '/' :: rest => ⟨some .here, [] :: rest.splitOn '/'⟩
  | text => ⟨none, text.splitOn '/'⟩

def Layout.text (l : Layout) : List Char :=
  leadText l.lead ++ ['/'].intercalate l.body

/-- Whether a piece is passed over. -/
def isIdle (piece : List Char) : Bool := piece = [] || piece = ['.']

def pieceComponent (piece : List Char) : Component :=
  if piece = ['.', '.'] then .parent else .name piece

def Layout.components (l : Layout) : List Component :=
  l.lead.toList ++ (l.body.filter fun piece => !isIdle piece).map pieceComponent

def components (path : String) : List Component :=
  (layout path.toList).components

def same (a b : String) : Bool := components a = components b

def isAbsolute (path : String) : Bool := path.toList.head? = some '/'

/-- The last component, if it is a name. -/
def fileName? (path : String) : Option String :=
  match (components path).getLast? with
  | some (.name text) => some (String.ofList text)
  | _ => none

/-- What follows the last dot of the file name, if something stands before the dot. -/
def extension? (path : String) : Option String := do
  let name ← fileName? path
  let reversed := name.toList.reverse
  match reversed.dropWhile (· ≠ '.') with
  | _ :: _ :: _ => some (String.ofList (reversed.takeWhile (· ≠ '.')).reverse)
  | _ => none

/-- A path followed by another; an absolute path replaces the first. -/
def join (base other : String) : String :=
  if isAbsolute other || base.isEmpty then other
  else if base.toList.getLast? = some '/' then base ++ other
  else base ++ "/" ++ other

/-! ### Parts of a path -/

def trimEnd (body : List (List Char)) : List (List Char) :=
  (body.reverse.dropWhile isIdle).reverse

/-- Drops pieces up to and with the given number of pieces that count. -/
def dropCounting : Nat → List (List Char) → List (List Char)
  | 0, body => body
  | _ + 1, [] => []
  | n + 1, piece :: body => if isIdle piece then dropCounting (n + 1) body else dropCounting n body

/-- What is left of a path after the components of another, if it starts with them. -/
def relativeTo? (path root : String) : Option String :=
  let l := layout path.toList
  let start := components root
  if start.isPrefixOf l.components then
    if start.isEmpty then
      some (String.ofList (leadText l.lead ++ ['/'].intercalate (trimEnd l.body)))
    else
      let left := dropCounting (start.length - l.lead.toList.length) l.body
      some (String.ofList (['/'].intercalate (trimEnd (left.dropWhile isIdle))))
  else none

/-- The path without its last component, unless that is the root or nothing. -/
def parent? (path : String) : Option String :=
  let l := layout path.toList
  match trimEnd l.body with
  | [] => if l.lead = some .here then some "" else none
  | piece :: pieces =>
    let left := trimEnd (piece :: pieces).dropLast
    some (String.ofList (leadText l.lead ++ ['/'].intercalate left))

/-! ### Order -/

/-- The place of a component in the order: the root, `.`, `..`, then names by code points. -/
def Component.sortKey : Component → List Nat
  | .root => [0]
  | .here => [1]
  | .parent => [2]
  | .name text => 3 :: text.map Char.toNat

def le (a b : String) : Bool :=
  !((components b).map Component.sortKey < (components a).map Component.sortKey)

end PolicyMend.Path
