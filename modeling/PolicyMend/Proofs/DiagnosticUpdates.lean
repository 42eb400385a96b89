import PolicyMend.Proofs.CacheRecord

/-!
Partial updates of the diagnostics of a file, made by callers that know nothing of each other. An
update replaces what is known for the rules it names and adds what it brings. Main statement: what
is known of a rule comes from the last update that names it and from those after it, so callers with
rules of their own may take turns in any order.
-/

namespace PolicyMend

structure DiagnosticUpdate where
  codes : List String
  found : List Diagnostic
  deriving DecidableEq

namespace DiagnosticUpdate

def ofRule (u : DiagnosticUpdate) (code : String) : List Diagnostic :=
  u.found.filter (·.code = code)

/-- The codes of an update, those it names and those of the diagnostics it brings. -/
def mentioned (u : DiagnosticUpdate) : List String := u.codes ++ u.found.map (·.code)

def mentions (code : String) (u : DiagnosticUpdate) : Bool := code ∈ u.mentioned

theorem ofRule_eq_nil {u : DiagnosticUpdate} {code : String} (other : code ∉ u.mentioned) :
    u.ofRule code = [] := by
  rw [ofRule, List.filter_eq_nil_iff]
  intro d member same
  have named : code ∈ u.found.map (·.code) := List.mem_map.mpr ⟨d, member, of_decide_eq_true same⟩
  exact other (List.mem_append_right _ named)

end DiagnosticUpdate

namespace Cache

def ruleDiagnostics (c : Cache) (uri code : String) : List Diagnostic :=
  ((c.diagnostics.get? uri).getD []).filter (·.code = code)

def updateRules (uri : String) (c : Cache) (u : DiagnosticUpdate) : Cache :=
  c.setDiagnosticsForRules uri u.codes u.found

def updateAll (c : Cache) (uri : String) (updates : List DiagnosticUpdate) : Cache :=
  updates.foldl (updateRules uri) c

variable {c : Cache} {uri code : String}

/-! ### One update -/

theorem record_updateRules_of_ne {other : String} (different : other ≠ uri)
    (u : DiagnosticUpdate) : (updateRules uri c u).record other = c.record other := by
  simp only [record, updateRules, setDiagnosticsForRules, Store.update, Store.get?_set,
    if_neg different]

theorem ruleDiagnostics_updateRules (c : Cache) (uri code : String) (u : DiagnosticUpdate) :
    (updateRules uri c u).ruleDiagnostics uri code =
      (if code ∈ u.codes then [] else c.ruleDiagnostics uri code) ++ u.ofRule code := by
  simp only [ruleDiagnostics, updateRules, setDiagnosticsForRules, Store.update, Store.get?_set,
    if_true, Option.getD_some, List.filter_append, List.filter_filter]
  refine congrArg (· ++ u.ofRule code) ?_
  generalize (c.diagnostics.get? uri).getD [] = known
  split
  · next named =>
    rw [List.filter_eq_nil_iff]
    intro d _ kept
    obtain ⟨same, stays⟩ := Bool.and_eq_true_iff.mp kept
    exact of_decide_eq_true stays (of_decide_eq_true same ▸ named)
  · next unnamed =>
    refine List.filter_congr fun d _ => ?_
    by_cases same : d.code = code
    · simp [same, unnamed]
    · simp [same]

theorem ruleDiagnostics_updateRules_of_other {u : DiagnosticUpdate} (other : code ∉ u.mentioned) :
    (updateRules uri c u).ruleDiagnostics uri code = c.ruleDiagnostics uri code := by
  have unnamed : code ∉ u.codes := fun named => other (List.mem_append_left _ named)
  rw [ruleDiagnostics_updateRules, if_neg unnamed, DiagnosticUpdate.ofRule_eq_nil other,
    List.append_nil]

theorem ruleDiagnostics_updateRules_congr {c' : Cache}
    (same : c'.ruleDiagnostics uri code = c.ruleDiagnostics uri code) (u : DiagnosticUpdate) :
    (updateRules uri c' u).ruleDiagnostics uri code =
      (updateRules uri c u).ruleDiagnostics uri code := by
  rw [ruleDiagnostics_updateRules, ruleDiagnostics_updateRules, same]

/-! ### Updates one after the other -/

theorem record_updateAll_of_ne {other : String} (different : other ≠ uri)
    (updates : List DiagnosticUpdate) : (c.updateAll uri updates).record other = c.record other :=
  List.foldlRecOn (motive := fun c' : Cache => c'.record other = c.record other) updates _ rfl
    fun _ same u _ => (record_updateRules_of_ne different u).trans same

theorem ruleDiagnostics_updateAll_of_unnamed {updates : List DiagnosticUpdate}
    (unnamed : ∀ u ∈ updates, code ∉ u.codes) :
    (c.updateAll uri updates).ruleDiagnostics uri code =
      c.ruleDiagnostics uri code ++ updates.flatMap (·.ofRule code) := by
  induction updates generalizing c with
  | nil => simp [updateAll]
  | cons u updates ih =>
    have first := unnamed u List.mem_cons_self
    have rest : ∀ v ∈ updates, code ∉ v.codes := fun v member =>
      unnamed v (List.mem_cons_of_mem u member)
    show ((updateRules uri c u).updateAll uri updates).ruleDiagnostics uri code = _
    rw [ih rest, ruleDiagnostics_updateRules, if_neg first, List.flatMap_cons, List.append_assoc]

theorem ruleDiagnostics_updateAll_of_last {before after : List DiagnosticUpdate}
    {u : DiagnosticUpdate} (named : code ∈ u.codes) (last : ∀ v ∈ after, code ∉ v.codes) :
    (c.updateAll uri (before ++ u :: after)).ruleDiagnostics uri code =
      (u :: after).flatMap (·.ofRule code) := by
  have split : c.updateAll uri (before ++ u :: after) =
      (updateRules uri (c.updateAll uri before) u).updateAll uri after := by
    simp only [updateAll, List.foldl_append, List.foldl_cons]
  rw [split, ruleDiagnostics_updateAll_of_unnamed last, ruleDiagnostics_updateRules, if_pos named,
    List.nil_append, List.flatMap_cons]

/-- What is known of a rule comes from the updates that mention it. -/
theorem ruleDiagnostics_updateAll_filter {c' : Cache}
    (same : c'.ruleDiagnostics uri code = c.ruleDiagnostics uri code)
    (updates : List DiagnosticUpdate) :
    (c'.updateAll uri updates).ruleDiagnostics uri code =
      (c.updateAll uri (updates.filter (DiagnosticUpdate.mentions code))).ruleDiagnostics uri
        code := by
  induction updates generalizing c c' with
  | nil => exact same
  | cons u updates ih =>
    by_cases mentions : u.mentions code = true
    · rw [List.filter_cons_of_pos mentions]
      exact ih (ruleDiagnostics_updateRules_congr same u)
    · rw [List.filter_cons_of_neg mentions]
      have other : code ∉ u.mentioned := fun listed => mentions (decide_eq_true listed)
      exact ih ((ruleDiagnostics_updateRules_of_other other).trans same)

end Cache

/-! ### Callers that take turns -/

/-- A sequence made of the sequences of several callers, who take turns in any order. -/
inductive Interleaves {α : Type} : List (List α) → List α → Prop where
  | done {callers : List (List α)} (finished : ∀ caller ∈ callers, caller = []) :
      Interleaves callers []
  | turn {before after : List (List α)} {a : α} {rest trace : List α}
      (next : Interleaves (before ++ rest :: after) trace) :
      Interleaves (before ++ (a :: rest) :: after) (a :: trace)

/-- No code is mentioned by two callers. -/
def Separate (callers : List (List DiagnosticUpdate)) : Prop :=
  callers.Pairwise fun first second =>
    ∀ u ∈ first, ∀ v ∈ second, ∀ code ∈ u.mentioned, code ∉ v.mentioned

instance (callers : List (List DiagnosticUpdate)) : Decidable (Separate callers) :=
  inferInstanceAs (Decidable (List.Pairwise _ _))

theorem Separate.turn {before after : List (List DiagnosticUpdate)} {u : DiagnosticUpdate}
    {rest : List DiagnosticUpdate} (separate : Separate (before ++ (u :: rest) :: after)) :
    Separate (before ++ rest :: after) := by
  unfold Separate at separate ⊢
  rw [List.pairwise_append, List.pairwise_cons] at separate ⊢
  obtain ⟨front, ⟨here, back⟩, across⟩ := separate
  refine ⟨front, ⟨?_, back⟩, ?_⟩
  · intro second member v inside
    exact here second member v (List.mem_cons_of_mem u inside)
  · intro first member second member' v inside w inside'
    rcases List.mem_cons.mp member' with rfl | later
    · exact across first member _ List.mem_cons_self v inside w (List.mem_cons_of_mem u inside')
    · exact across first member second (List.mem_cons_of_mem _ later) v inside w inside'

/-- The updates that mention a code are all of one caller, so every interleaving has them in that
caller's order. -/
theorem Interleaves.filter_mentioned {callers : List (List DiagnosticUpdate)}
    {trace : List DiagnosticUpdate} (interleaves : Interleaves callers trace)
    (separate : Separate callers) (code : String) :
    trace.filter (DiagnosticUpdate.mentions code) =
      callers.flatten.filter (DiagnosticUpdate.mentions code) := by
  induction interleaves with
  | done finished =>
    rw [List.flatten_eq_nil_iff.mpr finished]
  | @turn before after u rest trace next ih =>
    have later := ih separate.turn
    simp only [List.flatten_append, List.flatten_cons, List.filter_append] at later ⊢
    by_cases mentions : u.mentions code = true
    · -- Nobody else mentions the code, so nothing stands before this update.
      have alone : before.flatten.filter (DiagnosticUpdate.mentions code) = [] := by
        rw [List.filter_eq_nil_iff]
        intro v inside mentions'
        obtain ⟨first, member, listed⟩ := List.mem_flatten.mp inside
        have apart := (List.pairwise_append.mp separate).2.2 first member _ List.mem_cons_self
        exact apart v listed u List.mem_cons_self code (of_decide_eq_true mentions')
          (of_decide_eq_true mentions)
      rw [alone, List.nil_append] at later ⊢
      rw [List.filter_cons_of_pos mentions, List.filter_cons_of_pos mentions, later,
        List.cons_append]
    · rw [List.filter_cons_of_neg mentions, List.filter_cons_of_neg mentions, later]

/-- After any updates of a file, what is known of a rule is what the last update that names it and
those after it bring, or all of them on top of what there was if none names it. If no code is
mentioned by two callers, the order in which they take turns makes no difference to any rule. Other
files are left as they are. -/
theorem ruleDiagnostics_after_updates (cache : Cache) (uri : String) :
    (∀ code before u after, code ∈ u.codes → (∀ v ∈ after, code ∉ v.codes) →
      (cache.updateAll uri (before ++ u :: after)).ruleDiagnostics uri code =
        (u :: after).flatMap (·.ofRule code)) ∧
    (∀ code updates, (∀ u ∈ updates, code ∉ u.codes) →
      (cache.updateAll uri updates).ruleDiagnostics uri code =
        cache.ruleDiagnostics uri code ++ updates.flatMap (·.ofRule code)) ∧
    (∀ callers trace trace', Separate callers → Interleaves callers trace →
      Interleaves callers trace' → ∀ code,
        (cache.updateAll uri trace).ruleDiagnostics uri code =
          (cache.updateAll uri trace').ruleDiagnostics uri code) ∧
    ∀ updates other, other ≠ uri →
      (cache.updateAll uri updates).record other = cache.record other := by
  refine ⟨?_, ?_, ?_, ?_⟩
  · intro code before u after named last
    exact Cache.ruleDiagnostics_updateAll_of_last named last
  · intro code updates unnamed
    exact Cache.ruleDiagnostics_updateAll_of_unnamed unnamed
  · intro callers trace trace' separate first second code
    rw [Cache.ruleDiagnostics_updateAll_filter rfl trace, first.filter_mentioned separate,
      Cache.ruleDiagnostics_updateAll_filter rfl trace', second.filter_mentioned separate]
  · intro updates other different
    exact Cache.record_updateAll_of_ne different updates

def foundAt (code : String) (row : UInt32) : Diagnostic :=
  { code, message := "", location := ⟨row, 1, none⟩ }

def sharedFile : Cache :=
  ({} : Cache).setDiagnostics "/work/p.rego" [foundAt "opa-fmt" 1, foundAt "todo-comment" 1]

/-- One caller evaluates a rule twice and finds nothing the second time, another evaluates two rules
at once. -/
def twoCallers : List (List DiagnosticUpdate) :=
  [[⟨["opa-fmt"], [foundAt "opa-fmt" 2]⟩, ⟨["opa-fmt"], []⟩],
    [⟨["line-length", "todo-comment"], [foundAt "line-length" 3, foundAt "line-length" 4]⟩]]

def firstThenSecond : List DiagnosticUpdate :=
  [⟨["opa-fmt"], [foundAt "opa-fmt" 2]⟩, ⟨["opa-fmt"], []⟩,
    ⟨["line-length", "todo-comment"], [foundAt "line-length" 3, foundAt "line-length" 4]⟩]

def secondBetween : List DiagnosticUpdate :=
  [⟨["opa-fmt"], [foundAt "opa-fmt" 2]⟩,
    ⟨["line-length", "todo-comment"], [foundAt "line-length" 3, foundAt "line-length" 4]⟩,
    ⟨["opa-fmt"], []⟩]

theorem interleaves_twoCallers :
    Interleaves twoCallers firstThenSecond ∧ Interleaves twoCallers secondBetween := by
  have finished : Interleaves [[], []] ([] : List DiagnosticUpdate) := .done (by simp)
  constructor
  · exact @Interleaves.turn _ [] _ _ _ _ (@Interleaves.turn _ [] _ _ _ _
      (@Interleaves.turn _ [[]] [] _ _ _ finished))
  · exact @Interleaves.turn _ [] _ _ _ _ (@Interleaves.turn _ [_] [] _ _ _
      (@Interleaves.turn _ [] _ _ _ _ finished))

theorem ruleDiagnostics_after_updates_twoCallers :
    Separate twoCallers ∧
      (∀ code, (sharedFile.updateAll "/work/p.rego" firstThenSecond).ruleDiagnostics
          "/work/p.rego" code =
        (sharedFile.updateAll "/work/p.rego" secondBetween).ruleDiagnostics "/work/p.rego" code) ∧
      (sharedFile.updateAll "/work/p.rego" secondBetween).ruleDiagnostics "/work/p.rego"
        "line-length" = [foundAt "line-length" 3, foundAt "line-length" 4] := by
  obtain ⟨named, -, turns, -⟩ := ruleDiagnostics_after_updates sharedFile "/work/p.rego"
  obtain ⟨first, second⟩ := interleaves_twoCallers
  have separate : Separate twoCallers := by decide
  refine ⟨separate, turns _ _ _ separate first second, ?_⟩
  exact named "line-length" [⟨["opa-fmt"], [foundAt "opa-fmt" 2]⟩]
    ⟨["line-length", "todo-comment"], [foundAt "line-length" 3, foundAt "line-length" 4]⟩
    [⟨["opa-fmt"], []⟩] (by decide) (by decide)

end PolicyMend
