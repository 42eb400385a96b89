/-!
Patterns for the paths of files. A pattern is a list of tokens; a group holds alternatives, each a
list of tokens again.
-/

namespace PolicyMend.Glob

/-- A part of a pattern. The last three wildcards stand for whole directories: at the start of a
pattern, after a separator at its end, and between two separators. -/
inductive Token where
  | literal (c : Char)
  | anyByte
  | anyBytes
  | leading
  | trailing
  | between
  | oneOf (negated : Bool) (ranges : List (Char × Char))
  | group (alternatives : List (List Token))

inductive Error where
  | unclosedClass
  | invalidRange (first last : Char)
  | unopenedGroup
  | unclosedGroup
  | danglingEscape
  deriving DecidableEq

def Error.detail : Error → String
  | unclosedClass => "unclosed character class; missing ']'"
  | invalidRange first last =>
    "invalid range; '" ++ first.toString ++ "' > '" ++ last.toString ++ "'"
  | unopenedGroup =>
    "unopened alternate group; missing '\x7b' (maybe escape '\x7d' with '[\x7d]'?)"
  | unclosedGroup =>
    "unclosed alternate group; missing '\x7d' (maybe escape '\x7b' with '[\x7b]'?)"
  | danglingEscape => "dangling '\\'"

def Error.message (e : Error) (pattern : String) : String :=
  "error parsing glob '" ++ pattern ++ "': " ++ e.detail

end PolicyMend.Glob
