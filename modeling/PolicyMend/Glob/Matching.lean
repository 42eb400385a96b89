import PolicyMend.Digest
import PolicyMend.Glob.Expression
import PolicyMend.Glob.Method

/-!
Matching of patterns against the bytes of a path. Tokens take parts from the front of a path, and
all the ways to do so are followed at once: a list of marks says which front parts can be taken.
-/

namespace PolicyMend.Glob

def separator : UInt8 := 0x2F

/-- Whether a byte is in the range of two characters. The range is over bytes: from the last byte of
the first character to the first byte of the last one, with their other bytes. -/
def inRange (b : UInt8) (range : Char × Char) : Bool :=
  let first := charBytes range.1
  let last := charBytes range.2
  if range.1 = range.2 then b ∈ first
  else
    b ∈ first.dropLast || b ∈ last.tail ||
      (first.getLast?.any (· ≤ b) && last.head?.any (b ≤ ·))

def inClass (negated : Bool) (ranges : List (Char × Char)) (b : UInt8) : Bool :=
  ranges.any (inRange b) != negated

mutual

/-- Whether a token can take nothing but nothing, because it is a group without alternatives. -/
def Token.isVoid : Token → Bool
  | .group alternatives => areVoid alternatives
  | _ => false

def isVoidBranch : List Token → Bool
  | [] => true
  | t :: rest => t.isVoid && isVoidBranch rest

def areVoid : List (List Token) → Bool
  | [] => true
  | branch :: rest => isVoidBranch branch && areVoid rest

end

/-- Which front parts of a path can be taken: the mark at `i` is that of the first `i` bytes. A path
has one mark more than it has bytes. -/
abbrev Marks := List Bool

def nowhere (path : List UInt8) : Marks := false :: path.map fun _ => false

def atStart (path : List UInt8) : Marks := true :: path.map fun _ => false

def either (marks others : Marks) : Marks := List.zipWith (· || ·) marks others

def afterByte (test : UInt8 → Bool) (path : List UInt8) (marks : Marks) : Marks :=
  false :: List.zipWith (fun b mark => mark && test b) path marks

def afterBytes (bytes path : List UInt8) (marks : Marks) : Marks :=
  bytes.foldl (fun marks b => afterByte (· = b) path marks) marks

/-- The marks after any more bytes, also none: all from the first mark on. -/
def afterAny : Marks → Marks
  | [] => []
  | true :: marks => true :: marks.map fun _ => true
  | false :: marks => false :: afterAny marks

def afterSeparator (path : List UInt8) (marks : Marks) : Marks :=
  afterByte (· = separator) path marks

mutual

def Token.advance (path : List UInt8) : Token → Marks → Marks
  | .literal c, marks => afterBytes (charBytes c) path marks
  | .anyByte, marks => afterByte (fun _ => true) path marks
  | .anyBytes, marks => afterAny marks
  | .leading, marks => either marks (afterSeparator path (afterAny marks))
  | .trailing, marks => afterAny (afterSeparator path marks)
  | .between, marks =>
    let inner := afterSeparator path marks
    either inner (afterSeparator path (afterAny inner))
  | .oneOf negated ranges, marks => afterByte (inClass negated ranges) path marks
  | .group alternatives, marks =>
    if areVoid alternatives then marks else advanceGroup path alternatives marks

def advanceBranch (path : List UInt8) : List Token → Marks → Marks
  | [], marks => marks
  | t :: branch, marks => advanceBranch path branch (t.advance path marks)

/-- The marks after one of the alternatives of a group. An empty alternative is passed over. -/
def advanceGroup (path : List UInt8) : List (List Token) → Marks → Marks
  | [], _ => nowhere path
  | branch :: rest, marks =>
    let others := advanceGroup path rest marks
    if isVoidBranch branch then others else either (advanceBranch path branch marks) others

end

/-- Whether the last component of a path is a step up. Such a path names no file. -/
def endsInStepUp (path : List Char) : Bool :=
  match path.reverse with
  | ['.', '.'] => true
  | '.' :: '.' :: '/' :: _ => true
  | _ => false

/-- Whether a pattern matches the whole of a path. One that is decided by the name of a file matches
no path that names none. -/
def isMatch (tokens : List Token) (path : String) : Bool :=
  match tokens with
  | [.leading] => true
  | _ =>
    if (method tokens).asksForName && endsInStepUp path.toList then false
    else
      let bytes := utf8Bytes path
      (advanceBranch bytes tokens (atStart bytes)).getLast?.any id

end PolicyMend.Glob
