import PolicyMend.Proofs.PackageHome

/-!
Package declarations read back. A package is written as an identifier and segments after it, bare
ones behind a dot and quoted ones in brackets. Main statement: the first line that declares a
package sends a file to the segments as they were written, whatever stands before and after that
line.
-/

namespace PolicyMend.Package

/-- A segment after the first one: word characters, or any text without a quote. -/
inductive Segment where
  | bare (name : List Char) (filled : name ≠ []) (words : ∀ c ∈ name, Text.isWord c = true)
  | quoted (key : List Char) (whole : '"' ∉ key)

namespace Segment

def text : Segment → List Char
  | bare name _ _ => name
  | quoted key _ => key

def written : Segment → List Char
  | bare name _ _ => '.' :: name
  | quoted key _ => '[' :: '"' :: (key ++ ['"', ']'])

end Segment

structure Naming where
  start : Char
  word : List Char
  others : List Segment
  starts : Text.isWordStart start = true
  words : ∀ c ∈ word, Text.isWord c = true

namespace Naming

def segments (n : Naming) : List (List Char) := (n.start :: n.word) :: n.others.map Segment.text

def written (n : Naming) : List Char := n.start :: (n.word ++ n.others.flatMap Segment.written)

end Naming

/-! ### Captured texts -/

theorem isRunChar_of_isWord {c : Char} (word : Text.isWord c = true) : isRunChar c = true := by
  rw [isRunChar, word, Bool.true_or]

theorem plain_of_isWord {c : Char} (word : Text.isWord c = true) : c ≠ '.' ∧ c ≠ '[' :=
  ⟨ne_of_apply_ne Text.isWord (by rw [word]; decide +kernel),
    ne_bracket_of_isRunChar (isRunChar_of_isWord word)⟩

theorem isGap_eq_false_of_isWordStart {c : Char} (starts : Text.isWordStart c = true) :
    isGap c = false := by
  have space : c ≠ ' ' := ne_of_isWordStart starts (by decide)
  have tab : c ≠ '\t' := ne_of_isWordStart starts (by decide)
  simp [isGap, space, tab]

theorem quotedKeys_of_some {text after : List Char} {key : QuotedKey}
    (found : quotedKey? text = some (key, after)) : quotedKeys text = key :: quotedKeys after := by
  rw [quotedKeys]
  split
  · rename_i found'
    obtain ⟨rfl, rfl⟩ := Prod.mk.inj (Option.some.inj (found'.symm.trans found))
    rfl
  · rename_i none
    rw [none] at found
    cases found

theorem quotedKeys_of_none {text : List Char} (none : quotedKey? text = none) :
    quotedKeys text = [] := by
  rw [quotedKeys]
  split
  · rename_i found
    rw [none] at found
    cases found
  · rfl

theorem quotedKey?_written {key : List Char} (whole : '"' ∉ key) (rest : List Char) :
    quotedKey? ('[' :: '"' :: (key ++ '"' :: ']' :: rest)) =
      some (⟨key, rest.takeWhile isRunChar, whole, List.all_eq_true.mp List.all_takeWhile⟩,
        rest.dropWhile isRunChar) := by
  simp only [quotedKey?, Text.dropWhile_ne_append whole, Text.takeWhile_ne_append whole]

def EndsLine (rest : List Char) : Prop := rest = [] ∨ ∃ more, rest = '\n' :: more

/-- What a reference captures after its first character. -/
def captured (text : List Char) : List Char :=
  text.takeWhile isRunChar ++ (quotedKeys (text.dropWhile isRunChar)).flatMap QuotedKey.text

theorem parse?_of_isWordStart {c : Char} (starts : Text.isWordStart c = true) (rest : List Char) :
    ∃ reference, Reference.parse? (c :: rest) = some reference ∧
      reference.text = c :: captured rest :=
  ⟨_, dif_pos starts, rfl⟩

theorem captured_run {run : List Char} (dotted : ∀ c ∈ run, isRunChar c = true)
    (text : List Char) : captured (run ++ text) = run ++ captured text := by
  rw [captured, List.takeWhile_append_of_pos dotted, List.dropWhile_append_of_pos dotted,
    List.append_assoc]
  rfl

theorem captured_quoted {key : List Char} (whole : '"' ∉ key) (text : List Char) :
    captured ('[' :: '"' :: (key ++ '"' :: ']' :: text)) =
      '[' :: '"' :: (key ++ '"' :: ']' :: captured text) := by
  have bracket : ¬isRunChar '[' = true := by decide +kernel
  rw [captured, List.takeWhile_cons_of_neg bracket, List.dropWhile_cons_of_neg bracket,
    quotedKeys_of_some (quotedKey?_written whole text)]
  simp [captured, QuotedKey.text]

theorem EndsLine.captured {rest : List Char} (ends : EndsLine rest) : captured rest = [] := by
  rcases ends with rfl | ⟨more, rfl⟩
  · rw [Package.captured, List.dropWhile_nil, quotedKeys_of_none rfl]
    rfl
  · have newline : ¬isRunChar '\n' = true := by decide +kernel
    rw [Package.captured, List.takeWhile_cons_of_neg newline, List.dropWhile_cons_of_neg newline,
      quotedKeys_of_none rfl]
    rfl

theorem Segment.written_quoted_append (key : List Char) (whole : '"' ∉ key) (rest : List Char) :
    (Segment.quoted key whole).written ++ rest = '[' :: '"' :: (key ++ '"' :: ']' :: rest) := by
  simp [written]

/-- The capture ends where the segments end. -/
theorem captured_written {rest : List Char} (ends : EndsLine rest) (others : List Segment) :
    captured (others.flatMap Segment.written ++ rest) = others.flatMap Segment.written := by
  induction others with
  | nil => exact ends.captured
  | cons segment others ih =>
    rw [List.flatMap_cons, List.append_assoc]
    cases segment with
    | bare name filled words =>
      have dotted : ∀ c ∈ '.' :: name, isRunChar c = true := by
        intro c member
        rcases List.mem_cons.mp member with rfl | later
        · decide +kernel
        · exact isRunChar_of_isWord (words c later)
      exact (captured_run dotted _).trans (congrArg _ ih)
    | quoted key whole =>
      rw [Segment.written_quoted_append, captured_quoted whole, ih,
        ← Segment.written_quoted_append key whole]

theorem parse?_written (n : Naming) {rest : List Char} (ends : EndsLine rest) :
    ∃ reference, Reference.parse? (n.written ++ rest) = some reference ∧
      reference.text = n.written := by
  obtain ⟨reference, parsed, text⟩ := parse?_of_isWordStart n.starts
    (n.word ++ (n.others.flatMap Segment.written ++ rest))
  refine ⟨reference, ?_, ?_⟩
  · rw [← parsed, Naming.written, List.cons_append, List.append_assoc]
  · rw [text, captured_run fun c member => isRunChar_of_isWord (n.words c member),
      captured_written ends]
    rfl

/-! ### Scanned segments -/

/-- A segment that was begun is ended by the segments after it, of which each is read as it was
written. -/
theorem scanSegments_segments (current : List Char) (others : List Segment) :
    scanSegments current (others.flatMap Segment.written) =
      flush current ++ others.map Segment.text := by
  induction others generalizing current with
  | nil => simp [scanSegments]
  | cons segment others ih =>
    rw [List.flatMap_cons, List.map_cons]
    cases segment with
    | bare name filled words =>
      show scanSegments current ('.' :: (name ++ _)) = _
      rw [scanSegments, scanSegments_word fun c member => plain_of_isWord (words c member), ih,
        List.nil_append, flush_of_ne_nil filled]
      rfl
    | quoted key whole =>
      rw [Segment.written_quoted_append, scanSegments_quoted whole, ih]
      rfl

theorem scanSegments_written (n : Naming) : scanSegments [] n.written = n.segments := by
  have plain : ∀ c ∈ n.start :: n.word, c ≠ '.' ∧ c ≠ '[' := by
    intro c member
    rcases List.mem_cons.mp member with rfl | later
    · exact ⟨ne_of_isWordStart n.starts (by decide), ne_of_isWordStart n.starts (by decide)⟩
    · exact plain_of_isWord (n.words c later)
  show scanSegments [] ((n.start :: n.word) ++ _) = _
  rw [scanSegments_word plain, scanSegments_segments, List.nil_append,
    flush_of_ne_nil (List.cons_ne_nil _ _)]
  rfl

/-! ### Lines -/

def keyword : List Char := ['p', 'a', 'c', 'k', 'a', 'g', 'e']

theorem dropWord?_eq_some_iff {word text rest : List Char} :
    dropWord? word text = some rest ↔ text = word ++ rest := by
  induction word generalizing text with
  | nil => simp [dropWord?]
  | cons c word ih =>
    cases text with
    | nil => simp [dropWord?]
    | cons d text =>
      rw [dropWord?]
      split
      · rename_i same
        rw [ih, same]
        simp
      · rename_i other
        simp [Ne.symm other]

/-- A line that starts, after blanks, with the opening word and another blank. -/
def Announces (line : List Char) : Prop :=
  ∃ gap blank rest, (∀ c ∈ gap, isGap c = true) ∧ isGap blank = true ∧
    line = gap ++ keyword ++ blank :: rest

def announces? (line : List Char) : Bool :=
  match dropWord? keyword (line.dropWhile isGap) with
  | some (blank :: _) => isGap blank
  | _ => false

theorem announces?_iff {line : List Char} : announces? line = true ↔ Announces line := by
  constructor
  · intro found
    unfold announces? at found
    split at found
    · rename_i blank rest dropped
      rw [dropWord?_eq_some_iff] at dropped
      refine ⟨line.takeWhile isGap, blank, rest, fun c => List.mem_takeWhile_imp, found, ?_⟩
      rw [List.append_assoc, ← dropped, List.takeWhile_append_dropWhile]
    · cases found
  · rintro ⟨gap, blank, rest, gaps, isBlank, rfl⟩
    have stops : (keyword ++ blank :: rest).dropWhile isGap = keyword ++ blank :: rest := rfl
    rw [announces?, List.append_assoc, List.dropWhile_append_of_pos gaps, stops,
      dropWord?_eq_some_iff.mpr rfl]
    exact isBlank

instance (line : List Char) : Decidable (Announces line) := decidable_of_iff _ announces?_iff

theorem quotedKeys_isPrefix (text : List Char) :
    (quotedKeys text).flatMap QuotedKey.text <+: text := by
  induction text using quotedKeys.induct with
  | case1 text key after found ih =>
    rw [quotedKeys_of_some found, List.flatMap_cons, quotedKey?_eq_some found]
    exact (List.prefix_append_right_inj _).mpr ih
  | case2 text none =>
    rw [quotedKeys_of_none none]
    exact List.nil_prefix

theorem captured_isPrefix (text : List Char) : captured text <+: text := by
  have keys := quotedKeys_isPrefix (text.dropWhile isRunChar)
  have whole := (List.prefix_append_right_inj (text.takeWhile isRunChar)).mpr keys
  rwa [List.takeWhile_append_dropWhile] at whole

theorem parse?_isPrefix {text : List Char} {reference : Reference}
    (parsed : Reference.parse? text = some reference) : reference.text <+: text := by
  cases text with
  | nil => cases parsed
  | cons c rest =>
    rw [Reference.parse?] at parsed
    split at parsed
    · obtain rfl := Option.some.inj parsed
      exact (List.prefix_cons_inj c).mpr (captured_isPrefix rest)
    · cases parsed

/-- What a declaration captures stands after the opening word and blanks. -/
theorem declaration?_eq_some {text : List Char} {reference : Reference}
    (declared : declaration? text = some reference) :
    ∃ gap blank more rest, (∀ c ∈ gap, isGap c = true) ∧ isGap blank = true ∧
      (∀ c ∈ more, isGap c = true) ∧
      text = gap ++ keyword ++ blank :: (more ++ reference.text ++ rest) := by
  unfold declaration? at declared
  obtain ⟨after, dropped, declared⟩ := Option.bind_eq_some_iff.mp declared
  have front := dropWord?_eq_some_iff.mp dropped
  split at declared
  · next blank tail =>
    split at declared
    · next isBlank =>
      obtain ⟨rest, captured⟩ := parse?_isPrefix declared
      refine ⟨text.takeWhile isGap, blank, tail.takeWhile isGap, rest,
        fun c => List.mem_takeWhile_imp, isBlank, fun c => List.mem_takeWhile_imp, ?_⟩
      calc text = text.takeWhile isGap ++ text.dropWhile isGap :=
            List.takeWhile_append_dropWhile.symm
        _ = text.takeWhile isGap ++ (keyword ++ blank :: tail) := by
          rw [front]
          rfl
        _ = _ := by
          rw [List.append_assoc, List.append_assoc, captured, List.takeWhile_append_dropWhile]
    · cases declared
  · cases declared

/-- A front without a newline is in the first line. -/
theorem exists_of_append_eq {line front rest tail : List Char} (whole : '\n' ∉ front)
    (split : line ++ '\n' :: rest = front ++ tail) : ∃ more, line = front ++ more := by
  rcases List.append_eq_append_iff.mp split with ⟨more, rfl, newline⟩ | ⟨more, rfl, -⟩
  · cases more with
    | nil => exact ⟨[], by simp⟩
    | cons c more =>
      obtain ⟨rfl, -⟩ := List.cons.inj newline
      exact absurd (by simp) whole
  · exact ⟨more, rfl⟩

theorem Announces.of_line {line rest : List Char} (announces : Announces (line ++ '\n' :: rest)) :
    Announces line := by
  obtain ⟨gap, blank, tail, gaps, isBlank, split⟩ := announces
  have notGap : ¬isGap '\n' = true := by decide
  have whole : '\n' ∉ gap ++ keyword ++ [blank] := by
    simp only [List.mem_append, List.mem_singleton, not_or]
    refine ⟨⟨fun inside => notGap (gaps '\n' inside), by decide⟩, ?_⟩
    rintro rfl
    exact notGap isBlank
  have front : line ++ '\n' :: rest = gap ++ keyword ++ [blank] ++ tail := by
    rw [split]
    simp
  obtain ⟨more, rfl⟩ := exists_of_append_eq whole front
  exact ⟨gap, blank, more, gaps, isBlank, by simp⟩

theorem afterNewlines_line {line : List Char} (whole : '\n' ∉ line) (rest : List Char) :
    afterNewlines (line ++ '\n' :: rest) = rest :: afterNewlines rest := by
  induction line with
  | nil => simp [afterNewlines]
  | cons c line ih =>
    rw [List.mem_cons, not_or] at whole
    rw [List.cons_append, afterNewlines, if_neg (Ne.symm whole.1), ih whole.2]

theorem find?_line {line : List Char} (whole : '\n' ∉ line) (idle : ¬Announces line)
    (rest : List Char) : Reference.find? (line ++ '\n' :: rest) = Reference.find? rest := by
  have none : declaration? (line ++ '\n' :: rest) = none := by
    rw [Option.eq_none_iff_forall_ne_some]
    intro reference declared
    obtain ⟨gap, blank, more, tail, gaps, isBlank, -, split⟩ := declaration?_eq_some declared
    exact idle (Announces.of_line ⟨gap, blank, _, gaps, isBlank, split⟩)
  rw [Reference.find?, List.findSome?_cons, none, afterNewlines_line whole]
  rfl

theorem find?_lines {lines : List (List Char)}
    (idle : ∀ line ∈ lines, '\n' ∉ line ∧ ¬Announces line) (rest : List Char) :
    Reference.find? (lines.flatMap (· ++ ['\n']) ++ rest) = Reference.find? rest := by
  induction lines with
  | nil => rfl
  | cons line lines ih =>
    obtain ⟨whole, quiet⟩ := idle line List.mem_cons_self
    rw [List.flatMap_cons, List.append_assoc, List.append_assoc, List.singleton_append,
      find?_line whole quiet]
    exact ih fun other member => idle other (List.mem_cons_of_mem line member)

theorem find?_declared (n : Naming) {rest : List Char} (ends : EndsLine rest) :
    ∃ reference, Reference.find? (keyword ++ ' ' :: (n.written ++ rest)) = some reference ∧
      reference.text = n.written := by
  obtain ⟨reference, parsed, same⟩ := parse?_written n ends
  have starts : (n.written ++ rest).dropWhile isGap = n.written ++ rest := by
    rw [Naming.written, List.cons_append,
      List.dropWhile_cons_of_neg (by simp [isGap_eq_false_of_isWordStart n.starts])]
  have declared : declaration? (keyword ++ ' ' :: (n.written ++ rest)) = some reference := by
    show (if isGap ' ' then Reference.parse? ((n.written ++ rest).dropWhile isGap) else none) = _
    rw [starts, if_pos (by decide), parsed]
  refine ⟨reference, ?_, same⟩
  rw [Reference.find?, List.findSome?_cons, declared]

/-! ### Directories -/

/-- The directory of the last segment, where a test may live beside what it tests. -/
def LastDirectory (besideTested : Bool) (segment dir : List Char) : Prop :=
  if besideTested ∧ testSuffix <:+ segment then segment = dir ++ testSuffix else dir = segment

theorem directories_concat {besideTested : Bool} {last dir : List Char}
    (isLast : LastDirectory besideTested last dir) (front : List (List Char)) :
    directories besideTested (front ++ [last]) = (front ++ [dir]).filter (· ≠ []) := by
  unfold directories
  unfold LastDirectory at isLast
  rw [List.getLast?_concat, List.dropLast_concat]
  cases besideTested with
  | false =>
    obtain rfl : dir = last := by simpa using isLast
    rfl
  | true =>
    have shortened : withoutSuffix last = dir := by
      unfold withoutSuffix
      by_cases suffix : testSuffix <:+ last
      · rw [if_pos ⟨rfl, suffix⟩] at isLast
        subst isLast
        simp
      · rw [if_neg fun both => suffix both.2] at isLast
        rw [if_neg (by simpa using suffix), isLast]
    simp only [if_true, shortened]

def declaring (lines : List (List Char)) (n : Naming) (rest : List Char) : List Char :=
  lines.flatMap (· ++ ['\n']) ++ (keyword ++ ' ' :: (n.written ++ rest))

/-- What is captured of the first declaration is the package as it was written, to its end and no
further, and the scanner splits it where the segments were set apart. A file goes to these segments:
from the project root on, one directory for each that is not empty, the last one without the ending
of a test if that may live beside what it tests. -/
theorem home?_declared (n : Naming) {lines : List (List Char)}
    (idle : ∀ line ∈ lines, '\n' ∉ line ∧ ¬Announces line) {rest : List Char}
    (ends : EndsLine rest) {front : List (List Char)} {last dir : List Char}
    (segments : n.segments = front ++ [last]) {besideTested : Bool}
    (isLast : LastDirectory besideTested last dir) (baseDir : String) {filename name : String}
    (named : Path.fileName? filename = some name) :
    (∃ reference, Reference.find? (declaring lines n rest) = some reference ∧
        reference.text = n.written ∧ scanSegments [] reference.text = n.segments) ∧
      home? besideTested baseDir filename (String.ofList (declaring lines n rest)) =
        some (Path.join (Path.descend baseDir ((front ++ [dir]).filter (· ≠ []))) name) := by
  obtain ⟨reference, declared, text⟩ := find?_declared n ends
  have found : Reference.find? (declaring lines n rest) = some reference := by
    rw [declaring, find?_lines idle, declared]
  have scanned : scanSegments [] reference.text = n.segments := by
    rw [text, scanSegments_written]
  refine ⟨⟨reference, found, text, scanned⟩, ?_⟩
  rw [home?, String.toList_ofList, found, named, ← directories_concat isLast, ← segments,
    ← scanned]
  rfl

/-- A package with a quoted segment of two lines, an empty one and a last one of a test. -/
def quotedNaming : Naming where
  start := 'a'
  word := ['1']
  others := [.quoted "c.d]\n".toList (by decide), .quoted [] (by decide),
    .bare "é_test".toList (by decide) (List.all_eq_true.mp (by decide +kernel))]
  starts := by decide
  words := List.all_eq_true.mp (by decide +kernel)

def quotedContents : String :=
  "# package x\n\tpackage\npackages x\npackage a1[\"c.d]\n\"][\"\"].é_test\npackage q\n"

theorem home?_declared_quotedNaming :
    (Reference.find? quotedContents.toList).map Reference.text =
        some "a1[\"c.d]\n\"][\"\"].é_test".toList ∧
      home? true "/work" "in/m.rego" quotedContents = some "/work/a1/c.d]\n/é/m.rego" := by
  have lines : ∀ line ∈ ["# package x", "\tpackage", "packages x"].map String.toList,
      '\n' ∉ line ∧ ¬Announces line := by
    decide
  obtain ⟨⟨reference, found, text, -⟩, home⟩ :=
    @home?_declared quotedNaming _ lines "\npackage q\n".toList (.inr ⟨_, rfl⟩)
      [['a', '1'], "c.d]\n".toList, []] "é_test".toList ['é'] rfl true
      (by unfold LastDirectory; decide) "/work" "in/m.rego" "m.rego" (by decide +kernel)
  exact ⟨(congrArg (Option.map Reference.text) found).trans (congrArg some text), home⟩

end PolicyMend.Package
