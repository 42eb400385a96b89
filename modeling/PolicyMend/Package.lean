import PolicyMend.Path
import PolicyMend.Text.Characters

/-!
Package declarations, and where they send a file. A declaration is the word `package` at the start
of a line, after spaces and tabs, followed by a reference such as `a.b["c-d"].e`. `Reference.find?`
captures the first reference that is declared in a text, and `scanSegments` reads the segments off
the captured text. A file belongs under the project root, in a directory for each segment.
-/

namespace PolicyMend.Package

/-! ### References -/

/-- Whether a character may stand in a run of dotted names. -/
def isRunChar (c : Char) : Bool := Text.isWord c || c = '.'

def isGap (c : Char) : Bool := c = ' ' || c = '\t'

/-- A quoted key in brackets, with the run of dotted names after it. -/
structure QuotedKey where
  key : List Char
  run : List Char
  whole : '"' ∉ key
  dotted : ∀ c ∈ run, isRunChar c = true
  deriving DecidableEq

/-- A package reference: a letter or an underscore, a run of dotted names, then quoted keys. -/
structure Reference where
  start : Char
  run : List Char
  keys : List QuotedKey
  starts : Text.isWordStart start = true
  dotted : ∀ c ∈ run, isRunChar c = true
  deriving DecidableEq

def QuotedKey.text (k : QuotedKey) : List Char :=
  '[' :: '"' :: (k.key ++ '"' :: ']' :: k.run)

/-- The text that a reference was captured from. -/
def Reference.text (r : Reference) : List Char :=
  r.start :: (r.run ++ r.keys.flatMap QuotedKey.text)

def quotedKey? : List Char → Option (QuotedKey × List Char)
  | '[' :: '"' :: rest =>
    match rest.dropWhile (· ≠ '"') with
    | '"' :: ']' :: after =>
      some ({
        key := rest.takeWhile (· ≠ '"')
        run := after.takeWhile isRunChar
        whole := fun inside => by simpa using List.all_eq_true.mp List.all_takeWhile '"' inside
        dotted := List.all_eq_true.mp List.all_takeWhile }, after.dropWhile isRunChar)
    | _ => none
  | _ => none

theorem quotedKey?_eq_some {text after : List Char} {key : QuotedKey}
    (found : quotedKey? text = some (key, after)) : text = key.text ++ after := by
  unfold quotedKey? at found
  split at found
  · next rest =>
    split at found
    · next tail closing =>
      obtain ⟨rfl, rfl⟩ := Prod.mk.inj (Option.some.inj found)
      have split := @List.takeWhile_append_dropWhile _ (· ≠ '"') rest
      rw [closing] at split
      simp only [QuotedKey.text, List.cons_append, List.append_assoc,
        List.takeWhile_append_dropWhile, split]
    · cases found
  · cases found

def quotedKeys (text : List Char) : List QuotedKey :=
  match _found : quotedKey? text with
  | some (key, after) => key :: quotedKeys after
  | none => []
termination_by text.length
decreasing_by
  have split := congrArg List.length (quotedKey?_eq_some _found)
  simp only [QuotedKey.text, List.length_append, List.length_cons] at split
  omega

def Reference.parse? : List Char → Option Reference
  | c :: rest =>
    if starts : Text.isWordStart c = true then
      some {
        start := c
        run := rest.takeWhile isRunChar
        keys := quotedKeys (rest.dropWhile isRunChar)
        starts
        dotted := List.all_eq_true.mp List.all_takeWhile }
    else none
  | [] => none

/-! ### Declarations -/

def dropWord? : List Char → List Char → Option (List Char)
  | [], text => some text
  | c :: word, d :: text => if c = d then dropWord? word text else none
  | _ :: _, [] => none

/-- The reference of a declaration that stands at the front of a text. -/
def declaration? (text : List Char) : Option Reference := do
  let rest ← dropWord? ['p', 'a', 'c', 'k', 'a', 'g', 'e'] (text.dropWhile isGap)
  match rest with
  | c :: rest => if isGap c then Reference.parse? (rest.dropWhile isGap) else none
  | [] => none

def afterNewlines : List Char → List (List Char)
  | [] => []
  | c :: rest => if c = '\n' then rest :: afterNewlines rest else afterNewlines rest

def Reference.find? (text : List Char) : Option Reference :=
  (text :: afterNewlines text).findSome? declaration?

/-! ### Segments -/

def flush (current : List Char) : List (List Char) := if current = [] then [] else [current]

/-- The segments of a reference, read off its text character by character. A dot ends the segment
before it. So does a quoted key, which is a segment as it stands, an empty one too. -/
def scanSegments (current : List Char) : List Char → List (List Char)
  | [] => flush current
  | '.' :: rest => flush current ++ scanSegments [] rest
  | '[' :: '"' :: rest =>
    let key := rest.takeWhile (· ≠ '"')
    -- The quote and the bracket that close a key are dropped unseen.
    flush current ++ key :: scanSegments [] ((rest.dropWhile (· ≠ '"')).drop 2)
  | c :: rest => scanSegments (current ++ [c]) rest
termination_by text => text.length
decreasing_by
  · simp
  · have shorter := (List.dropWhile_suffix (l := rest) (· ≠ '"')).length_le
    simp only [List.length_drop, List.length_cons]
    omega
  · simp

/-! ### Homes -/

def testSuffix : List Char := ['_', 't', 'e', 's', 't']

def withoutSuffix (segment : List Char) : List Char :=
  if testSuffix.isSuffixOf segment then segment.take (segment.length - testSuffix.length)
  else segment

/-- The directories of a package. A test may live beside what it tests. -/
def directories (besideTested : Bool) (segments : List (List Char)) : List (List Char) :=
  let named :=
    match segments.getLast? with
    | some last => if besideTested then segments.dropLast ++ [withoutSuffix last] else segments
    | none => []
  named.filter (· ≠ [])

/-- The path at which a file belongs, if it declares a package and has a name. -/
def home? (besideTested : Bool) (baseDir filename contents : String) : Option String := do
  let reference ← Reference.find? contents.toList
  let name ← Path.fileName? filename
  let dir := (directories besideTested (scanSegments [] reference.text)).foldl
    (fun path segment => Path.join path (String.ofList segment)) baseDir
  return Path.join dir name

end PolicyMend.Package
