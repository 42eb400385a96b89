import PolicyMend.Glob.Pattern
import PolicyMend.Text.Characters

/-!
Patterns as regular expressions over bytes. The text of an expression is shown when it cannot be
used, and its depth decides whether it can: an expression may not nest deeper than
`greatestDepth`. Both are read off the same parts.
-/

namespace PolicyMend.Glob

def charBytes (c : Char) : List UInt8 := String.utf8EncodeChar c

/-- A part of a regular expression. A sequence is a list of parts, and a class counts its items. -/
inductive Part where
  | one (text : List Char)
  | repeated (text : List Char)
  | class_ (text : List Char) (items : Nat)
  | group (alternatives : List (List Part))

def reserved : List Char :=
  ['\\', '.', '+', '*', '?', '(', ')', '|', '[', ']', '{', '}', '^', '$', '#', '&', '-', '~']

def byteText (b : UInt8) : List Char :=
  let c := Char.ofNat b.toNat
  if 0x80 ≤ b then '\\' :: 'x' :: Text.toHex [b]
  else if c ∈ reserved then ['\\', c]
  else [c]

def charText (c : Char) : List Char := (charBytes c).flatMap byteText

def rangeText (range : Char × Char) : List Char :=
  if range.1 = range.2 then charText range.1
  else charText range.1 ++ '-' :: charText range.2

/-- The items of a range: its bytes, of which the two around a dash make one. -/
def rangeItems (range : Char × Char) : Nat :=
  if range.1 = range.2 then (charBytes range.1).length
  else (charBytes range.1).length + (charBytes range.2).length - 1

def Part.anyBytes : Part := .repeated ['.', '*']

def Part.separator : Part := .one ['/']

mutual

/-- The parts of a token. A group keeps its alternatives that are not empty. -/
def Token.parts : Token → List Part
  | .literal c => (charBytes c).map fun b => .one (byteText b)
  | .anyByte => [.one ['.']]
  | .anyBytes => [.anyBytes]
  | .leading => [.group [[.repeated ['/', '?']], [.anyBytes, .separator]]]
  | .trailing => [.separator, .anyBytes]
  | .between => [.group [[.separator], [.separator, .anyBytes, .separator]]]
  | .oneOf negated ranges =>
    let start := if negated then ['[', '^'] else ['[']
    [.class_ (start ++ ranges.flatMap rangeText ++ [']'])
      (ranges.foldl (fun n range => n + rangeItems range) 0)]
  | .group alternatives =>
    match groupParts alternatives with
    | [] => []
    | kept => [.group kept]

def branchParts : List Token → List Part
  | [] => []
  | t :: branch => t.parts ++ branchParts branch

def groupParts : List (List Token) → List (List Part)
  | [] => []
  | branch :: rest =>
    match branchParts branch with
    | [] => groupParts rest
    | kept => kept :: groupParts rest

end

/-! ### Text -/

mutual

def Part.text : Part → List Char
  | .one text | .repeated text | .class_ text _ => text
  | .group alternatives => ['(', '?', ':'] ++ alternativesText alternatives ++ [')']

def sequenceText : List Part → List Char
  | [] => []
  | part :: rest => part.text ++ sequenceText rest

def alternativesText : List (List Part) → List Char
  | [] => []
  | [branch] => sequenceText branch
  | branch :: rest => sequenceText branch ++ '|' :: alternativesText rest

end

def expression (tokens : List Token) : String :=
  let body :=
    match tokens with
    | [.leading] => ['.', '*']
    | _ => sequenceText (branchParts tokens)
  "(?-u)^" ++ String.ofList body ++ "$"

/-! ### Depth -/

/-- One level more, if there are several things on it. -/
def levelOf {α : Type} (things : List α) : Nat := if 2 ≤ things.length then 1 else 0

mutual

def Part.depth : Part → Nat
  | .one _ => 0
  | .repeated _ => 1
  | .class_ _ items => if 2 ≤ items then 2 else 1
  | .group alternatives => 1 + levelOf alternatives + alternativesDepth alternatives

def partsDepth : List Part → Nat
  | [] => 0
  | part :: rest => max part.depth (partsDepth rest)

def alternativesDepth : List (List Part) → Nat
  | [] => 0
  | branch :: rest => max (levelOf branch + partsDepth branch) (alternativesDepth rest)

end

/-- How deep the regular expression of a pattern nests. With its two ends it is a sequence. -/
def depth (tokens : List Token) : Nat := 1 + partsDepth (branchParts tokens)

def greatestDepth : Nat := 250

def isTooDeep (tokens : List Token) : Bool := greatestDepth < depth tokens

end PolicyMend.Glob
