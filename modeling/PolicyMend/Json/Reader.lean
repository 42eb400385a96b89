import PolicyMend.Json.Scanner

/-!
Reading JSON values. One grammar serves every use: a `Builder` says what is made of the parts, so
that a value which is kept and a value which is only skipped are recognised alike. Lists and
objects are read by loops of at most one step for each character that is left. A step takes at least
one, so only a text that ends too early uses them up.
-/

namespace PolicyMend.Json

/-- The next character that is no blank, and what follows it. -/
def next (text : List Char) : Except Fault (Char × List Char) :=
  match dropSpace text with
  | [] => .error .truncated
  | c :: rest => .ok (c, rest)

def dropMark (mark : Char) (text : List Char) : Except Fault (List Char) := do
  let (c, rest) ← next text
  if c = mark then .ok rest else .error .malformed

/-! ### Lists and objects -/

/-- Whether a list goes on, with the text from its next element or from its closing bracket. -/
def elementAhead (first : Bool) (text : List Char) : Except Fault (Bool × List Char) := do
  let (c, rest) ← next text
  if c = ']' then return (false, c :: rest)
  else if first then return (true, c :: rest)
  else if c = ',' then
    let (c, rest) ← next rest
    if c = ']' then .error .malformed else return (true, c :: rest)
  else .error .malformed

/-- Whether an object goes on, with the text after the opening quote of its next key or from its
closing brace. -/
def keyAhead (first : Bool) (text : List Char) : Except Fault (Bool × List Char) := do
  let (c, rest) ← next text
  if c = '}' then return (false, c :: rest)
  else if first then
    if c = '"' then return (true, rest) else .error .malformed
  else if c = ',' then
    let (c, rest) ← next rest
    if c = '"' then return (true, rest) else .error .malformed
  else .error .malformed

variable {α σ : Type}

/-- Reads the elements of a list up to its closing bracket. The first list bounds the steps. -/
def elements (read : Reader α) : List Char → Bool → Reader (List α)
  | [], _, _ => .error .truncated
  | _ :: bound, first, text => do
    let (more, text) ← elementAhead first text
    if more then
      let (element, text) ← read text
      let (rest, text) ← elements read bound false text
      return (element :: rest, text)
    else
      let text ← dropMark ']' text
      return ([], text)

/-- Reads the members of an object up to its closing brace. Each step starts after the opening quote
of a key and takes what was gathered before. The first list bounds the steps. -/
def members (step : σ → Reader σ) : List Char → Bool → σ → Reader σ
  | [], _, _, _ => .error .truncated
  | _ :: bound, first, gathered, text => do
    let (more, text) ← keyAhead first text
    if more then
      let (gathered, text) ← step gathered text
      members step bound false gathered text
    else
      let text ← dropMark '}' text
      return (gathered, text)

def listBody (read : Reader α) : Reader (List α) := fun text =>
  elements read text true text

def objectBody (step : σ → Reader σ) (start : σ) : Reader σ := fun text =>
  members step text true start text

/-! ### Values -/

structure Builder (α : Type) where
  null : α
  boolean : Bool → α
  number : Bool → Reader α
  string : Reader α
  key : Reader String
  array : List α → α
  object : List (String × α) → α

/-- Reads a value that is no list and no object, whose first character is given. -/
def Builder.scalar (b : Builder α) (c : Char) (rest : List Char) : Except Fault (α × List Char) :=
  if c = 'n' then (dropWord ['u', 'l', 'l'] rest).map (b.null, ·)
  else if c = 't' then (dropWord ['r', 'u', 'e'] rest).map (b.boolean true, ·)
  else if c = 'f' then (dropWord ['a', 'l', 's', 'e'] rest).map (b.boolean false, ·)
  else if c = '-' then b.number true rest
  else if c.isDigit then b.number false (c :: rest)
  else if c = '"' then b.string rest
  else .error .malformed

/-- Reads one member of an object; a key that is read again keeps its place. -/
def Builder.member (b : Builder α) (read : Reader α) (gathered : List (String × α)) :
    Reader (List (String × α)) := fun text => do
  let (key, text) ← b.key text
  let text ← dropMark ':' text
  let (value, text) ← read text
  return (OrderedMap.put key value gathered, text)

/-- Reads a value of at most the given depth of lists and objects. -/
def Builder.value (b : Builder α) : Nat → Reader α
  | 0, text => do
    let (c, rest) ← next text
    b.scalar c rest
  | depth + 1, text => do
    let (c, rest) ← next text
    if c = '[' then
      let (found, rest) ← listBody (b.value depth) rest
      return (b.array found, rest)
    else if c = '{' then
      let (found, rest) ← objectBody (b.member (b.value depth)) [] rest
      return (b.object found, rest)
    else b.scalar c rest

def keeping : Builder Json where
  null := .null
  boolean := .boolean
  number negative text := (numberBody negative text).map fun (n, rest) => (.number n, rest)
  string text := (stringBody text).map fun (s, rest) => (.string s, rest)
  key := stringBody
  array := .array
  object := .object

/-- Keeps no part of a value: numbers of any size and surrogates without partner pass, and a number
that is cut off is malformed. -/
def skipping : Builder Unit where
  null := ()
  boolean _ := ()
  number _ text := (numeral .malformed text).map fun (_, rest) => ((), rest)
  string text := (skipString text).map ((), ·)
  key text := (skipString text).map ("", ·)
  array _ := ()
  object _ := ()

/-- The greatest number of lists and objects that may stand inside one another. -/
def greatestDepth : Nat := 127

namespace Reader

def value : Reader Json := keeping.value greatestDepth

def skip : Reader Unit := fun text => skipping.value text.length text

/-! ### Values of a known kind -/

/-- The fault of a value of another kind than the one expected: its own fault if it is a word, a
number or a string that cannot be read. -/
def refuse : Reader α := fun text => do
  let (c, rest) ← next text
  if c = '[' ∨ c = '{' then .error .mismatched
  else
    let _ ← keeping.scalar c rest
    .error .mismatched

def string : Reader String := fun text => do
  let (c, rest) ← next text
  if c = '"' then stringBody rest else refuse text

def word32 : Reader UInt32 := fun text => do
  let (c, rest) ← next text
  if c = '-' ∨ c.isDigit then
    let (n, rest) ← if c = '-' then numberBody true rest else numberBody false (c :: rest)
    match n with
    | .integer n =>
      if 0 ≤ n ∧ n.toNat < UInt32.size then return (UInt32.ofNat n.toNat, rest)
      else .error .mismatched
    | .float _ => .error .mismatched
  else refuse text

def optional (read : Reader α) : Reader (Option α) := fun text => do
  let (c, rest) ← next text
  if c = 'n' then
    let rest ← dropWord ['u', 'l', 'l'] rest
    return (none, rest)
  else
    let (found, rest) ← read text
    return (some found, rest)

def list (read : Reader α) : Reader (List α) := fun text => do
  let (c, rest) ← next text
  if c = '[' then listBody read rest else refuse text

def null : Reader Unit := fun text => do
  let (c, rest) ← next text
  if c = 'n' then
    let rest ← dropWord ['u', 'l', 'l'] rest
    return ((), rest)
  else refuse text

/-! ### Whole texts -/

/-- Reads a text that holds one value and nothing else. -/
def whole (read : Reader α) (text : String) : Except Fault α := do
  let (found, rest) ← read text.toList
  if dropSpace rest = [] then return found else .error .malformed

end Reader

def parse (text : String) : Except Fault Json := Reader.whole Reader.value text

end PolicyMend.Json
