import PolicyMend.Json.Shortest
import PolicyMend.Json.Value
import PolicyMend.Text.Characters

/-!
JSON values as text, in a compact form without spaces and in an indented form. A string escapes
the quote, the backslash and the control characters, and nothing else.
-/

namespace PolicyMend.Json

def escape (c : Char) : List Char :=
  if c = '"' then ['\\', '"']
  else if c = '\\' then ['\\', '\\']
  else if c = '\x08' then ['\\', 'b']
  else if c = '\x0c' then ['\\', 'f']
  else if c = '\n' then ['\\', 'n']
  else if c = '\r' then ['\\', 'r']
  else if c = '\t' then ['\\', 't']
  else if c.toNat < 0x20 then
    ['\\', 'u', '0', '0', Text.hexDigit (c.toNat / 16), Text.hexDigit (c.toNat % 16)]
  else [c]

def quoted (text : String) : List Char :=
  '"' :: (text.toList.flatMap escape ++ ['"'])

def integerText (n : Int) : List Char :=
  if n < 0 then '-' :: Nat.toDigits 10 n.natAbs else Nat.toDigits 10 n.natAbs

def Number.text : Number → List Char
  | .integer n => integerText n
  | .float x => x.text

mutual

def compact : Json → List Char
  | .null => ['n', 'u', 'l', 'l']
  | .boolean true => ['t', 'r', 'u', 'e']
  | .boolean false => ['f', 'a', 'l', 's', 'e']
  | .number n => n.text
  | .string s => quoted s
  | .array elements => '[' :: (compactElements elements ++ [']'])
  | .object fields => '{' :: (compactFields fields ++ ['}'])

def compactElements : List Json → List Char
  | [] => []
  | [element] => compact element
  | element :: next :: rest => compact element ++ ',' :: compactElements (next :: rest)

def compactFields : List (String × Json) → List Char
  | [] => []
  | [(name, value)] => quoted name ++ ':' :: compact value
  | (name, value) :: next :: rest =>
    quoted name ++ ':' :: (compact value ++ ',' :: compactFields (next :: rest))

end

def newline (depth : Nat) : List Char :=
  '\n' :: List.replicate (2 * depth) ' '

mutual

/-- A value with two spaces of indentation for each level; empty collections stay on one line. -/
def indented (depth : Nat) : Json → List Char
  | .array [] => ['[', ']']
  | .array (element :: rest) =>
    '[' :: (indentedElements (depth + 1) (element :: rest) ++ newline depth ++ [']'])
  | .object [] => ['{', '}']
  | .object (field :: rest) =>
    '{' :: (indentedFields (depth + 1) (field :: rest) ++ newline depth ++ ['}'])
  | .null => compact .null
  | .boolean b => compact (.boolean b)
  | .number n => n.text
  | .string s => quoted s

def indentedElements (depth : Nat) : List Json → List Char
  | [] => []
  | [element] => newline depth ++ indented depth element
  | element :: next :: rest =>
    newline depth ++ indented depth element ++ ',' :: indentedElements depth (next :: rest)

def indentedFields (depth : Nat) : List (String × Json) → List Char
  | [] => []
  | [(name, value)] => newline depth ++ quoted name ++ ':' :: ' ' :: indented depth value
  | (name, value) :: next :: rest =>
    newline depth ++ quoted name ++ ':' :: ' ' :: (indented depth value ++
      ',' :: indentedFields depth (next :: rest))

end

def render (value : Json) : String := String.ofList (compact value)

def renderIndented (value : Json) : String := String.ofList (indented 0 value)

/-! ### Mismatches

A field whose value has the wrong kind, as it is told to the caller. -/

/-- The kind of a value in words; numbers are shown. -/
def kind : Json → String
  | .null => "null"
  | .boolean _ => "boolean"
  | .number n => "number " ++ String.ofList n.text
  | .string _ => "string"
  | .array _ => "array"
  | .object _ => "object"

structure Mismatch where
  field : String
  expected : String
  found : String
  deriving DecidableEq

/-- The mismatch of a field with a value, or with its absence. -/
def Mismatch.of (field expected : String) (found : Option Json) : Mismatch :=
  ⟨field, expected, (found.map kind).getD "nothing"⟩

def Mismatch.message (m : Mismatch) : String :=
  m.field ++ ": expected " ++ m.expected ++ ", found " ++ m.found

end PolicyMend.Json
