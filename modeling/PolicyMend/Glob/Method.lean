import PolicyMend.Glob.Pattern

/-!
How a pattern is decided. Many patterns are settled by literal text at one place of a path, and no
regular expression is made of them.
-/

namespace PolicyMend.Glob

/-- What a pattern is decided by: the file name, the whole path, the extension of the file name, the
start of the path, its end, the extension and then a regular expression, or that alone. -/
inductive Method where
  | fileName
  | wholePath
  | extension
  | start
  | ending
  | fileExtension
  | general
  deriving DecidableEq

def literals? : List Token → Option (List Char)
  | [] => some []
  | .literal c :: rest => (literals? rest).map (c :: ·)
  | _ :: _ => none

def withoutLeading : List Token → List Token
  | .leading :: rest => rest
  | tokens => tokens

def isFileName : List Token → Bool
  | .leading :: rest => (literals? rest).any fun cs => cs ≠ [] && '/' ∉ cs
  | _ => false

def isWholePath (tokens : List Token) : Bool := (literals? tokens).any (· ≠ [])

def isExtension (tokens : List Token) : Bool :=
  match withoutLeading tokens with
  | .anyBytes :: .literal '.' :: rest => (literals? rest).any fun cs => '.' ∉ cs && '/' ∉ cs
  | _ => false

/-- Whether a pattern is literal up to a wildcard for all that follows. -/
def isStart (tokens : List Token) : Bool :=
  match tokens.getLast? with
  | some .anyBytes => (literals? tokens.dropLast).any (· ≠ [])
  | some .trailing => (literals? tokens.dropLast).isSome
  | _ => false

/-- Whether a pattern is literal after a wildcard for all that stands before. -/
def isEnding : List Token → Bool
  | .leading :: .anyBytes :: rest | .anyBytes :: rest =>
    (literals? rest).any fun cs => cs ≠ [] && cs ≠ ['/']
  | .leading :: rest => (literals? rest).any (· ≠ [])
  | _ => false

/-- Whether reversed tokens start with a literal file extension. -/
def startsInExtension : List Token → Bool
  | .literal c :: rest => c = '.' || (c ≠ '/' && startsInExtension rest)
  | _ => false

/-- What a pattern is decided by: the first that fits. -/
def method (tokens : List Token) : Method :=
  if isFileName tokens then .fileName
  else if isWholePath tokens then .wholePath
  else if isExtension tokens then .extension
  else if isStart tokens then .start
  else if isEnding tokens then .ending
  else if startsInExtension tokens.reverse then .fileExtension
  else .general

def Method.asksForName : Method → Bool
  | fileName | extension | fileExtension => true
  | _ => false

end PolicyMend.Glob
