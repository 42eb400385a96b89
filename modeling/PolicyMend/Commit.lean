import PolicyMend.Run

/-!
Writing the outcome of a run back into the cache. A file is held back if it is part of a conflict,
if its contents have changed since the run, or if its destination is taken when its turn comes.
Files that wait for others to leave their destination come after these.
-/

namespace PolicyMend

/-- What a commit did: files written, and sources that were held back. -/
structure CommitSummary where
  applied : List FixedFile := []
  conflicted : List String := []
  stale : List String := []
  deriving DecidableEq

namespace Commit

/-- Whether a file has to wait for one of the pending ones. -/
def isBlocked (pending : List FixedFile) (f : FixedFile) : Bool :=
  f.isMove && pending.any (·.source = f.dest)

/-- Orders files in rounds: those that wait for none come first, each round in the given order.
Moves that wait for each other go last. -/
def rounds : Nat → List FixedFile → List FixedFile
  | 0, pending => pending
  | fuel + 1, pending =>
    let ready := pending.filter fun f => !isBlocked pending f
    if ready.isEmpty then pending
    else ready ++ rounds fuel (pending.filter (isBlocked pending))

/-- The order in which files are committed. Every round but the last takes a file out, so there are
at most as many rounds as files. -/
def order (files : List FixedFile) : List FixedFile :=
  rounds files.length files

/-- Whether an address has contents of either kind. -/
def isOccupied (cache : Cache) (uri : String) : Bool :=
  cache.contents.contains uri || cache.ignored.contains uri

def step (conflicted : List String) (state : Cache × CommitSummary) (f : FixedFile) :
    Cache × CommitSummary :=
  let (cache, summary) := state
  if f.source ∈ conflicted ∨ f.dest ∈ conflicted then
    (cache, { summary with conflicted := summary.conflicted ++ [f.source] })
  else if (cache.contents.get? f.source).map ContentHash.compute ≠ some f.sourceHash then
    (cache, { summary with stale := summary.stale ++ [f.source] })
  else if f.isMove ∧ isOccupied cache f.dest then
    (cache, { summary with conflicted := summary.conflicted ++ [f.source] })
  else
    let moved := if f.isMove then cache.rename f.source f.dest else cache
    (moved.setContents f.dest f.contents, { summary with applied := summary.applied ++ [f] })

end Commit

def Outcome.commit (o : Outcome) (cache : Cache) : Cache × CommitSummary :=
  (Commit.order o.files).foldl (Commit.step o.ledger.conflictedPaths) (cache, {})

end PolicyMend
