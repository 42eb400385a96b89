import PolicyMend.Json.Reader

/-!
Records and choices in JSON text. A record has named fields in a fixed order and is read from an
object, whose keys may come in any order, or from a list of its fields in theirs. What was found is
kept as one optional value for each field; whether that makes a record is decided at the end.
-/

namespace PolicyMend.Json

/-- The fields of a record. The index is the type of what has been found: one option a field. -/
inductive Shape : Type → Type 1 where
  | done : Shape Unit
  | field {α δ : Type} (name : String) (read : Reader α) (rest : Shape δ) : Shape (Option α × δ)

inductive Unknown where
  | skipped
  | refused
  deriving DecidableEq

namespace Shape

def start {δ : Type} : Shape δ → δ
  | .done => ()
  | .field _ _ rest => (none, rest.start)

/-- Reads the value after a key. A key of a field already found is refused at once. -/
def put {δ : Type} (unknown : Unknown) (name : String) : Shape δ → δ → Reader δ
  | .done, found, text =>
    match unknown with
    | .refused => .error .mismatched
    | .skipped => do
      let text ← dropMark ':' text
      let (_, text) ← Reader.skip text
      return (found, text)
  | .field own read rest, (found, others), text =>
    if own = name then
      match found with
      | some _ => .error .mismatched
      | none => do
        let text ← dropMark ':' text
        let (value, text) ← read text
        return ((some value, others), text)
    else do
      let (others, text) ← put unknown name rest others text
      return ((found, others), text)

/-- Reads one member of an object, after the opening quote of its key. -/
def member {δ : Type} (unknown : Unknown) (shape : Shape δ) (found : δ) : Reader δ := fun text => do
  let (name, text) ← stringBody text
  shape.put unknown name found text

/-- Reads fields in their order up to the closing bracket, which may come early. -/
def inOrder {δ : Type} : Shape δ → Bool → Reader δ
  | .done, _, text => return ((), text)
  | .field _ read rest, first, text => do
    let (more, text) ← elementAhead first text
    if more then
      let (value, text) ← read text
      let (others, text) ← inOrder rest false text
      return ((some value, others), text)
    else return ((none, rest.start), text)

def record {δ ρ : Type} (shape : Shape δ) (unknown : Unknown) (make : δ → Option ρ) : Reader ρ :=
  fun text => do
    let (c, rest) ← next text
    if c = '{' then
      let (found, rest) ← objectBody (shape.member unknown) shape.start rest
      match make found with
      | some made => return (made, rest)
      | none => .error .mismatched
    else if c = '[' then
      let (found, rest) ← shape.inOrder true rest
      match make found with
      | some made =>
        let rest ← dropMark ']' rest
        return (made, rest)
      | none => .error .mismatched
    else Reader.refuse text

end Shape

/-- Reads one of several named choices: its name, or an object that gives the name a null. -/
def Reader.choice {α : Type} (named : String → Option α) : Reader α := fun text => do
  let (c, rest) ← next text
  if c = '"' then
    let (name, rest) ← stringBody rest
    match named name with
    | some chosen => return (chosen, rest)
    | none => .error .mismatched
  else if c = '{' then
    let rest ← dropMark '"' rest
    let (name, rest) ← stringBody rest
    match named name with
    | some chosen =>
      let rest ← dropMark ':' rest
      let (_, rest) ← Reader.null rest
      let rest ← dropMark '}' rest
      return (chosen, rest)
    | none => .error .mismatched
  else .error .malformed

end PolicyMend.Json
