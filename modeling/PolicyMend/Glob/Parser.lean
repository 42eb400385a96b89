import PolicyMend.Glob.Pattern

/-!
Reading patterns from left to right. Groups may stand inside groups, and a comma divides a group
only. Two stars stand for whole directories where they fill the room between separators, and else
for any bytes.
-/

namespace PolicyMend.Glob

/-- An open group: the branch before it and its finished alternatives, both last first. -/
structure OpenGroup where
  before : List Token
  finished : List (List Token)

/-- A pattern while it is read: the tokens of the current branch, last first, and the open groups,
innermost first. -/
structure Draft where
  branch : List Token := []
  open_ : List OpenGroup := []

namespace Draft

def inGroup (d : Draft) : Bool := !d.open_.isEmpty

def push (d : Draft) (t : Token) : Draft := { d with branch := t :: d.branch }

/-- Replaces the separator at the end of the current branch by a wildcard for directories. A
wildcard that already takes in what is left or what follows stays. -/
def pushDirectories (d : Draft) (t : Token) : Draft :=
  match d.branch with
  | .leading :: _ | .trailing :: _ => d
  | _ :: before => { d with branch := t :: before }
  | [] => d.push t

def openGroup (d : Draft) : Draft := ⟨[], ⟨d.branch, []⟩ :: d.open_⟩

def nextBranch (d : Draft) : Draft :=
  match d.open_ with
  | [] => d.push (.literal ',')
  | group :: outer => ⟨[], { group with finished := d.branch.reverse :: group.finished } :: outer⟩

def closeGroup (d : Draft) : Except Error Draft :=
  match d.open_ with
  | [] => .error .unopenedGroup
  | group :: outer =>
    let alternatives := (d.branch.reverse :: group.finished).reverse
    .ok ⟨.group alternatives :: group.before, outer⟩

def finish (d : Draft) : Except Error (List Token) :=
  if d.inGroup then .error .unclosedGroup else .ok d.branch.reverse

/-- Reads two stars. `prev` stands before them and `rest` after them; returned are the character
that now stands before the rest, and the rest. -/
def doubleStar (d : Draft) (prev : Option Char) (rest : List Char) :
    Draft × Option Char × List Char :=
  let plain := ((d.push .anyBytes).push .anyBytes, some '*', rest)
  if d.branch.isEmpty then
    match rest with
    | [] => (d.push .leading, some '*', [])
    | '/' :: rest => (d.push .leading, some '/', rest)
    | _ => plain
  else if prev = some '/' || (d.inGroup && (prev = some ',' || prev = some '{')) then
    match rest with
    | [] => (d.pushDirectories .trailing, some '*', [])
    | '/' :: rest => (d.pushDirectories .between, some '/', rest)
    | c :: _ =>
      if d.inGroup && (c = ',' || c = '}') then (d.pushDirectories .trailing, some '*', rest)
      else plain
  else plain

end Draft

/-- Reads the ranges of a class up to its closing bracket. A bracket or a dash in the first place
stands for itself, and so does a dash in the last. `ranges` holds what was read before, last first,
and `pending` says that a dash waits for the end of the last range. -/
def ranges : Bool → Bool → List (Char × Char) → List Char →
    Except Error (List (Char × Char) × List Char)
  | _, _, _, [] => .error .unclosedClass
  | first, pending, found, c :: rest =>
    if c = ']' ∧ ¬first then
      .ok ((if pending then ('-', '-') :: found else found).reverse, rest)
    else if c = '-' ∧ ¬first ∧ ¬pending then ranges false true found rest
    else
      match pending, found with
      | true, (low, _) :: others =>
        if c < low then .error (.invalidRange low c)
        else ranges false false ((low, c) :: others) rest
      | _, _ => ranges false false ((c, c) :: found) rest

def characterClass (text : List Char) : Except Error (Token × List Char) :=
  let (negated, text) :=
    match text with
    | '!' :: rest | '^' :: rest => (true, rest)
    | _ => (false, text)
  (ranges true false [] text).map fun (found, rest) => (.oneOf negated found, rest)

/-- Reads the rest of a pattern; `prev` is the character before it. Every step takes a character, so
the length of the text is fuel enough. -/
def parseRest : Nat → Draft → Option Char → List Char → Except Error (List Token)
  | _, d, _, [] => d.finish
  | 0, d, _, _ :: _ => d.finish
  | fuel + 1, d, prev, c :: rest =>
    match c, rest with
    | '?', _ => parseRest fuel (d.push .anyByte) (some c) rest
    | '*', '*' :: rest =>
      let (d, prev, rest) := d.doubleStar prev rest
      parseRest fuel d prev rest
    | '*', _ => parseRest fuel (d.push .anyBytes) (some c) rest
    | '[', _ => do
      let (token, rest) ← characterClass rest
      parseRest fuel (d.push token) (some ']') rest
    | '{', _ => parseRest fuel d.openGroup (some c) rest
    | '}', _ => do
      let d ← d.closeGroup
      parseRest fuel d (some c) rest
    | ',', _ => parseRest fuel d.nextBranch (some c) rest
    | '\\', [] => .error .danglingEscape
    | '\\', escaped :: rest => parseRest fuel (d.push (.literal escaped)) (some escaped) rest
    | _, _ => parseRest fuel (d.push (.literal c)) (some c) rest

def parse (pattern : String) : Except Error (List Token) :=
  parseRest pattern.length {} none pattern.toList

end PolicyMend.Glob
