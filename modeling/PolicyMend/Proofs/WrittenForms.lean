import PolicyMend.Config.Project
import PolicyMend.Diagnostic
import PolicyMend.Fix.Edit
import PolicyMend.Hint
import PolicyMend.Proofs.JsonRecords

/-!
The written forms of the values that are exchanged with other tools. Each is a record of JSON whose
absent options are left out. Main statement: every value is read back from its written form, and a
location also by the looser reading of values from elsewhere.
-/

namespace PolicyMend

open Json

/-- Every value is read back from the text that is written for it. -/
def ReadsBack {α : Type} (read : Reader α) (toJson : α → Json) : Prop :=
  ∀ a, read.whole (toJson a).render = .ok a

theorem readsBack_of_reads {α : Type} {read : Reader α} {toJson : α → Json}
    (reads : ∀ a, Reads read (compact (toJson a)) a) : ReadsBack read toJson :=
  fun a => (reads a).whole

/-! ### Places -/

theorem reads_wordToJson (n : UInt32) : Reads Reader.word32 (compact (wordToJson n)) n := by
  rw [wordToJson, compact_ofNat]
  exact reads_word n

theorem Position.reads (p : Position) : Reads Position.reader (compact p.toJson) p :=
  Shape.Written.reads (.present (reads_wordToJson p.row) (.present (reads_wordToJson p.col) .done))
    (by decide) rfl

theorem Location.reads (l : Location) : Reads Location.reader (compact l.toJson) l := by
  obtain ⟨row, col, stop⟩ := l
  cases stop with
  | none =>
    exact Shape.Written.reads
      (.present (reads_wordToJson row) (.present (reads_wordToJson col) (.absent .done)))
      (by decide) rfl
  | some stop =>
    exact Shape.Written.reads
      (.present (reads_wordToJson row) (.present (reads_wordToJson col)
        (.present stop.reads.optional .done)))
      (by decide) rfl

theorem Severity.reads (s : Severity) : Reads Severity.reader (compact s.toJson) s :=
  reads_choice (by cases s <;> rfl)

theorem Diagnostic.reads (d : Diagnostic) : Reads Diagnostic.reader (compact d.toJson) d :=
  Shape.Written.reads
    (.present (reads_string d.code) (.present (reads_string d.category)
      (.present (reads_string d.message) (.present d.location.reads
        (.present d.severity.reads .done)))))
    (by decide) rfl

theorem BuiltinHint.reads (h : BuiltinHint) : Reads BuiltinHint.reader (compact h.toJson) h :=
  Shape.Written.reads
    (.present (reads_string h.builtin) (.present (reads_wordToJson h.line)
      (.present (reads_wordToJson h.start) (.present (reads_wordToJson h.stop) .done))))
    (by decide) rfl

theorem KeywordHint.reads (h : KeywordHint) : Reads KeywordHint.reader (compact h.toJson) h :=
  Shape.Written.reads
    (.present (reads_string h.name) (.present (reads_wordToJson h.line)
      (.present (reads_wordToJson h.start) (.present (reads_wordToJson h.stop) .done))))
    (by decide) rfl

/-! ### Fixes -/

theorem Fix.Options.reads (o : Options) : Reads Options.reader (compact o.toJson) o :=
  Shape.Written.reads
    (.present (reads_string o.baseDir)
      (.present (reads_list fun location _ => location.reads) .done))
    (by decide) rfl

theorem Fix.Rename.reads (r : Rename) : Reads Rename.reader (compact r.toJson) r :=
  Shape.Written.reads (.present (reads_string r.source) (.present (reads_string r.dest) .done))
    (by decide) rfl

theorem Fix.Edit.reads (e : Edit) : Reads Edit.reader (compact e.toJson) e := by
  obtain ⟨title, root, contents, rename, sourceHash⟩ := e
  cases rename with
  | none =>
    exact Shape.Written.reads
      (.present (reads_string title) (.present (reads_string root)
        (.present (reads_string contents) (.absent
          (.present (reads_string sourceHash.hex) .done)))))
      (by decide) rfl
  | some rename =>
    exact Shape.Written.reads
      (.present (reads_string title) (.present (reads_string root)
        (.present (reads_string contents) (.present rename.reads.optional
          (.present (reads_string sourceHash.hex) .done)))))
      (by decide) rfl

theorem reads_ofStrings (texts : List String) :
    Reads (Reader.list Reader.string) (compact (Json.ofStrings texts)) texts :=
  reads_list fun text _ => reads_string text

theorem Config.Project.reads (p : Project) : Reads Project.reader (compact p.toJson) p := by
  obtain ⟨disabled, ignore, baseDir⟩ := p
  cases baseDir with
  | none =>
    exact Shape.Written.reads
      (.present (reads_ofStrings disabled) (.present (reads_ofStrings ignore) (.absent .done)))
      (by decide) rfl
  | some baseDir =>
    exact Shape.Written.reads
      (.present (reads_ofStrings disabled) (.present (reads_ofStrings ignore)
        (.present (reads_string baseDir).optional .done)))
      (by decide) rfl

/-! ### Locations from elsewhere -/

theorem reads_value_word (n : UInt32) (depth : Nat) :
    Reads (keeping.value depth) (compact (wordToJson n)) (wordToJson n) := by
  have bounded := n.toNat_lt
  exact reads_value_number (by rw [greatestSignificand]; omega) depth

theorem Position.reads_value (p : Position) (depth : Nat) :
    Reads (keeping.value (depth + 1)) (compact p.toJson) p.toJson := by
  refine reads_value_object ?_ (by simp)
  simp only [List.forall_mem_cons]
  exact ⟨reads_value_word p.row depth, reads_value_word p.col depth, fun _ none => nomatch none⟩

theorem Location.reads_value (l : Location) (depth : Nat) :
    Reads (keeping.value (depth + 2)) (compact l.toJson) l.toJson := by
  obtain ⟨row, col, stop⟩ := l
  have word := fun n => reads_value_word n (depth + 1)
  cases stop with
  | none =>
    refine reads_value_object ?_ (by simp)
    simp only [List.cons_append, List.nil_append, List.forall_mem_cons]
    exact ⟨word row, word col, fun _ none => nomatch none⟩
  | some stop =>
    refine reads_value_object ?_ (by simp)
    simp only [Option.toList, List.map_cons, List.cons_append, List.nil_append,
      List.forall_mem_cons]
    exact ⟨word row, word col, stop.reads_value depth, fun _ none => nomatch none⟩

theorem wordField_eq {fields : List (String × Json)} {name : String} {n : UInt32}
    (found : Json.field? fields name = some (wordToJson n)) (path : String) :
    wordField fields name path = .ok n := by
  have bounded := n.toNat_lt
  have inRange : (0 : Int) ≤ n.toNat ∧ (n.toNat : Int).toNat < UInt32.size := by
    rw [UInt32.size]
    omega
  rw [wordField, found]
  exact (if_pos inRange).trans (congrArg Except.ok n.ofNat_toNat)

theorem Position.ofFields_eq {fields : List (String × Json)} {p : Position}
    (row : Json.field? fields "row" = some (wordToJson p.row))
    (col : Json.field? fields "col" = some (wordToJson p.col)) (path : String) :
    Position.ofFields fields path = .ok p := by
  have present : (Json.field? fields "col").isSome = true := by rw [col]; rfl
  rw [Position.ofFields, wordField_eq row, ok_bind]
  dsimp only
  rw [if_pos present, wordField_eq col]
  rfl

theorem Location.ofJson_toJson (l : Location) : Location.ofJson l.toJson = .ok l := by
  obtain ⟨row, col, stop⟩ := l
  cases stop with
  | none =>
    have start := @Position.ofFields_eq [("row", wordToJson row), ("col", wordToJson col)]
      ⟨row, col⟩ rfl rfl "location"
    rw [Location.toJson, Location.ofJson, Option.toList, List.map_nil, List.append_nil, start]
    rfl
  | some stop =>
    have start := @Position.ofFields_eq
      [("row", wordToJson row), ("col", wordToJson col), ("end", stop.toJson)]
      ⟨row, col⟩ rfl rfl "location"
    have finish := @Position.ofFields_eq
      [("row", wordToJson stop.row), ("col", wordToJson stop.col)] stop rfl rfl "location.end"
    rw [Location.toJson, Location.ofJson, Option.toList, List.map_cons, List.map_nil,
      List.cons_append, List.cons_append, List.nil_append, start, ok_bind]
    show (do
      let stop ← Position.ofFields _ "location.end"
      return { row, col, stop := some stop } : Except Json.Mismatch Location) = _
    rw [finish]
    rfl

/-- Every value is read back from its written form, and a location also from the value that its
written form is parsed to. -/
theorem written_forms_readBack :
    ReadsBack Position.reader Position.toJson ∧
    ReadsBack Location.reader Location.toJson ∧
    ReadsBack Severity.reader Severity.toJson ∧
    ReadsBack Diagnostic.reader Diagnostic.toJson ∧
    ReadsBack BuiltinHint.reader BuiltinHint.toJson ∧
    ReadsBack KeywordHint.reader KeywordHint.toJson ∧
    ReadsBack Fix.Options.reader Fix.Options.toJson ∧
    ReadsBack Fix.Rename.reader Fix.Rename.toJson ∧
    ReadsBack Fix.Edit.reader Fix.Edit.toJson ∧
    ReadsBack Config.Project.reader Config.Project.toJson ∧
    ∀ l : Location, ∃ value, Json.parse l.toJson.render = .ok value ∧
      Location.ofJson value = .ok l :=
  ⟨readsBack_of_reads Position.reads, readsBack_of_reads Location.reads,
    readsBack_of_reads Severity.reads, readsBack_of_reads Diagnostic.reads,
    readsBack_of_reads BuiltinHint.reads, readsBack_of_reads KeywordHint.reads,
    readsBack_of_reads Fix.Options.reads, readsBack_of_reads Fix.Rename.reads,
    readsBack_of_reads Fix.Edit.reads, readsBack_of_reads Config.Project.reads,
    fun l => ⟨l.toJson, (l.reads_value 125).whole, l.ofJson_toJson⟩⟩

end PolicyMend
