import PolicyMend.Proofs.CacheRecord
import PolicyMend.Proofs.CommitOrder

/-!
What a commit does with one file, and what follows for every outcome and every cache, however little
the two have to do with each other. Main statement: nothing is overwritten or removed but the files
that the outcome was computed from, and every file of the outcome is accounted for once.
-/

namespace PolicyMend.Commit

def IsFresh (cache : Cache) (f : FixedFile) : Prop :=
  (cache.contents.get? f.source).map ContentHash.compute = some f.sourceHash

instance (cache : Cache) (f : FixedFile) : Decidable (IsFresh cache f) :=
  inferInstanceAs (Decidable (_ = _))

def IsHeld (conflicted : List String) (cache : Cache) (f : FixedFile) : Prop :=
  f.source ∈ conflicted ∨ f.dest ∈ conflicted ∨
    (IsFresh cache f ∧ f.isMove = true ∧ isOccupied cache f.dest = true)

def write (cache : Cache) (f : FixedFile) : Cache :=
  (if f.isMove then cache.rename f.source f.dest else cache).setContents f.dest f.contents

inductive Step (conflicted : List String) (cache : Cache) (s : CommitSummary) (f : FixedFile) :
    Cache × CommitSummary → Prop where
  | held (reason : IsHeld conflicted cache f) :
      Step conflicted cache s f (cache, { s with conflicted := s.conflicted ++ [f.source] })
  | late (source : f.source ∉ conflicted) (dest : f.dest ∉ conflicted)
      (changed : ¬IsFresh cache f) :
      Step conflicted cache s f (cache, { s with stale := s.stale ++ [f.source] })
  | written (source : f.source ∉ conflicted) (dest : f.dest ∉ conflicted)
      (fresh : IsFresh cache f) (vacant : f.isMove = true → isOccupied cache f.dest = false) :
      Step conflicted cache s f (write cache f, { s with applied := s.applied ++ [f] })

theorem step_spec (conflicted : List String) (cache : Cache) (s : CommitSummary) (f : FixedFile) :
    Step conflicted cache s f (step conflicted (cache, s) f) := by
  simp only [step]
  split
  · next named =>
    exact .held (named.elim .inl fun dest => .inr (.inl dest))
  · next unnamed =>
    obtain ⟨source, dest⟩ := not_or.mp unnamed
    split
    · next changed => exact .late source dest changed
    · next fresh =>
      have isFresh : IsFresh cache f := Decidable.not_not.mp fresh
      split
      · next taken => exact .held (.inr (.inr ⟨isFresh, taken.1, taken.2⟩))
      · next free =>
        exact .written source dest isFresh fun moves =>
          Bool.eq_false_iff.mpr fun occupied => free ⟨moves, occupied⟩

theorem isOccupied_eq (cache : Cache) (uri : String) :
    isOccupied cache uri = (cache.record uri).isOccupied := rfl

/-- Writing a file lays its record over what is at the destination, gives it the new contents, and
leaves nothing at its source. A file that stays is written over itself. -/
theorem record_write (cache : Cache) (f : FixedFile) (uri : String) :
    (write cache f).record uri =
      if uri = f.dest then
        { (cache.record f.source).overlay (cache.record f.dest) with contents := some f.contents }
      else if uri = f.source then {}
      else cache.record uri := by
  rw [write, Cache.record_setContents]
  by_cases moves : f.isMove = true
  · have different := FixedFile.isMove_iff.mp moves
    simp only [if_pos moves, Cache.record_rename, ↓reduceIte]
    by_cases atDest : uri = f.dest
    · simp only [if_pos atDest]
    · simp only [if_neg atDest]
  · have same := FixedFile.source_eq_dest moves
    simp only [if_neg moves, same, Record.overlay_self]
    by_cases atDest : uri = f.dest
    · simp only [if_pos atDest]
    · simp only [if_neg atDest]

/-! ### Every file is accounted for -/

theorem foldl_step_summary (conflicted : List String) (files : List FixedFile)
    (cache : Cache) (s : CommitSummary) :
    ∃ applied held late : List FixedFile,
      (files.foldl (step conflicted) (cache, s)).2 =
        { applied := s.applied ++ applied
          conflicted := s.conflicted ++ held.map (·.source)
          stale := s.stale ++ late.map (·.source) } ∧
      (applied ++ held ++ late).Perm files := by
  induction files generalizing cache s with
  | nil => exact ⟨[], [], [], by simp, by simp⟩
  | cons f files ih =>
    rw [List.foldl_cons]
    have taken := step_spec conflicted cache s f
    generalize step conflicted (cache, s) f = next at taken ⊢
    cases taken with
    | held reason =>
      obtain ⟨applied, held, late, summary, perm⟩ :=
        ih cache { s with conflicted := s.conflicted ++ [f.source] }
      refine ⟨applied, f :: held, late, by simp [summary], ?_⟩
      rw [List.append_assoc] at perm ⊢
      exact List.perm_middle.trans (perm.cons f)
    | late source dest changed =>
      obtain ⟨applied, held, late, summary, perm⟩ :=
        ih cache { s with stale := s.stale ++ [f.source] }
      exact ⟨applied, held, f :: late, by simp [summary], List.perm_middle.trans (perm.cons f)⟩
    | written source dest fresh vacant =>
      obtain ⟨applied, held, late, summary, perm⟩ :=
        ih (write cache f) { s with applied := s.applied ++ [f] }
      exact ⟨f :: applied, held, late, by simp [summary], perm.cons f⟩

/-! ### Nothing else is lost -/

/-- A commit has so far left an address as it was, or has written the file that was there. -/
def Spared (start : Cache) (uri : String) (state : Cache × CommitSummary) : Prop :=
  state.1.record uri = start.record uri ∨
    ∃ f ∈ state.2.applied, f.source = uri ∧
      ∃ contents, start.contents.get? uri = some contents ∧
        f.sourceHash = ContentHash.compute contents

theorem step_spared {start : Cache} {uri : String} (occupied : isOccupied start uri = true)
    {conflicted : List String} {cache : Cache} {s : CommitSummary} (f : FixedFile)
    (spared : Spared start uri (cache, s)) :
    Spared start uri (step conflicted (cache, s) f) := by
  have taken := step_spec conflicted cache s f
  generalize step conflicted (cache, s) f = next at taken ⊢
  cases taken with
  | held reason => exact spared
  | late source dest changed => exact spared
  | written source dest fresh vacant =>
    rcases spared with same | ⟨g, applied, found⟩
    · by_cases atSource : uri = f.source
      · -- The step reads what was there at the start, so the hash it compares is of that.
        subst atSource
        have read : cache.contents.get? f.source = start.contents.get? f.source :=
          congrArg Record.contents same
        rw [IsFresh, read, Option.map_eq_some_iff] at fresh
        obtain ⟨contents, found, hash⟩ := fresh
        exact .inr ⟨f, by simp, rfl, contents, found, hash.symm⟩
      · have notDest : uri ≠ f.dest := by
          rintro rfl
          have moves := FixedFile.isMove_iff.mpr (Ne.symm atSource)
          have free := vacant moves
          rw [isOccupied_eq, same, ← isOccupied_eq, occupied] at free
          exact absurd free (by simp)
        refine .inl ?_
        rw [record_write, if_neg notDest, if_neg atSource]
        exact same
    · exact .inr ⟨g, List.mem_append_left _ applied, found⟩

theorem foldl_step_spared {start : Cache} {uri : String} (occupied : isOccupied start uri = true)
    (conflicted : List String) (files : List FixedFile) {state : Cache × CommitSummary}
    (spared : Spared start uri state) :
    Spared start uri (files.foldl (step conflicted) state) := by
  induction files generalizing state with
  | nil => exact spared
  | cons f files ih => exact ih (step_spared occupied f spared)

end PolicyMend.Commit

namespace PolicyMend

open Commit in
/-- A commit of any outcome to any cache leaves an address with contents of either kind as it is,
unless it writes a file from there whose fixes were computed from just these contents. And every
file of the outcome is applied, held back or found stale, as often as the outcome has it. -/
theorem Outcome.commit_spares_and_accounts (o : Outcome) (cache : Cache) :
    (∀ uri, isOccupied cache uri = true →
      (o.commit cache).1.record uri = cache.record uri ∨
      ∃ f ∈ (o.commit cache).2.applied, f.source = uri ∧
        ∃ contents, cache.contents.get? uri = some contents ∧
          f.sourceHash = ContentHash.compute contents) ∧
    ∃ held late : List FixedFile,
      (o.commit cache).2.conflicted = held.map (·.source) ∧
      (o.commit cache).2.stale = late.map (·.source) ∧
      ((o.commit cache).2.applied ++ held ++ late).Perm o.files := by
  refine ⟨fun uri occupied => foldl_step_spared occupied _ _ (.inl rfl), ?_⟩
  obtain ⟨applied, held, late, summary, perm⟩ :=
    foldl_step_summary o.ledger.conflictedPaths (order o.files) cache {}
  refine ⟨held, late, ?_, ?_, ?_⟩
  · simp [Outcome.commit, summary]
  · simp [Outcome.commit, summary]
  · rw [Outcome.commit, summary]
    exact perm.trans (order_perm o.files)

def rivalFiles : Outcome where
  files := [⟨"/a", "/b", "moved", .compute "old"⟩, ⟨"/a", "/a", "mended", .compute "old"⟩,
    ⟨"/a", "/a", "mended again", .compute "old"⟩]

def besideIgnored : Cache := (({} : Cache).setContents "/a" "old").setIgnored "/b" "other"

theorem Outcome.commit_spares_and_accounts_rivalFiles :
    let committed := rivalFiles.commit besideIgnored
    committed.2 = ⟨[⟨"/a", "/a", "mended", .compute "old"⟩], ["/a"], ["/a"]⟩ ∧
      Commit.isOccupied besideIgnored "/b" = true ∧
      (committed.1.record "/b" = besideIgnored.record "/b" ∨
        ∃ f ∈ committed.2.applied, f.source = "/b" ∧
          ∃ contents, besideIgnored.contents.get? "/b" = some contents ∧
            f.sourceHash = ContentHash.compute contents) := by
  have occupied : Commit.isOccupied besideIgnored "/b" = true := by decide
  exact ⟨by decide +kernel, occupied,
    (Outcome.commit_spares_and_accounts rivalFiles besideIgnored).1 "/b" occupied⟩

end PolicyMend
