import PolicyMend.Cache
import PolicyMend.Fix.Registry
import PolicyMend.Ledger.Basic

/-!
One run of fixers over the cache. Files are taken in ascending order of their addresses. The
diagnostics of a file are grouped by code, and every registered fixer that goes by one of these
codes works on what the fixers before it have left. A run changes nothing; its outcome can be
committed.
-/

namespace PolicyMend

structure FixedFile where
  source : String
  dest : String
  contents : String
  sourceHash : ContentHash
  deriving DecidableEq, Inhabited

def FixedFile.isMove (f : FixedFile) : Bool := f.source ≠ f.dest

/-- The result of a run: its ledger, the files that were fixed, and how many fixers failed. -/
structure Outcome where
  ledger : Ledger := {}
  files : List FixedFile := []
  failures : Nat := 0

namespace Run

/-- Locations by code, in the order in which they were reported. -/
def locationsByCode (diagnostics : List Diagnostic) : OrderedMap String (List Location) :=
  diagnostics.foldl
    (fun groups d => groups.alter d.code fun known => known.getD [] ++ [d.location]) ∅

/-- A file while fixers work on it: where it is, what it holds, and the edits made so far. -/
structure Progress where
  path : String
  contents : String
  edits : List Fix.Edit := []
  failures : Nat := 0

def Progress.accept (p : Progress) (edit : Fix.Edit) : Progress :=
  { p with
    path := (edit.rename.map (·.dest)).getD p.path
    contents := edit.contents
    edits := p.edits ++ [edit] }

/-- Lets one fixer work on a file, if it has locations there. -/
def Progress.step (baseDir : String) (locations : OrderedMap String (List Location))
    (p : Progress) (fixer : Fix.Fixer) : Progress :=
  match locations.get? fixer.name with
  | none => p
  | some found =>
    match fixer.fix ⟨p.path, p.contents⟩ (some ⟨baseDir, found⟩) with
    | .ok edits => edits.foldl Progress.accept p
    | .error _ => { p with failures := p.failures + 1 }

def mend (registry : Fix.Registry) (baseDir uri contents : String)
    (locations : OrderedMap String (List Location)) : Progress :=
  registry.fixers.foldl (Progress.step baseDir locations) { path := uri, contents }

/-- Records the moves and the fixes of a file. Titles go to the path where the file ends up. -/
def Progress.record (p : Progress) (uri : String) (l : Ledger) : Ledger :=
  let l := (p.edits.filterMap (·.rename)).foldl (fun l rename => l.registerMove rename.dest uri) l
  p.edits.foldl (fun l edit => l.addFix p.path edit.title edit.root) l

def Progress.addTo (p : Progress) (uri contents : String) (o : Outcome) : Outcome where
  ledger := p.record uri o.ledger
  files :=
    if p.edits.isEmpty then o.files
    else o.files ++ [⟨uri, p.path, p.contents, .compute contents⟩]
  failures := o.failures + p.failures

def visit (registry : Fix.Registry) (baseDir : String) (cache : Cache) (o : Outcome)
    (uri : String) : Outcome :=
  match cache.contents.get? uri with
  | none => o
  | some contents =>
    let locations := locationsByCode (cache.shownDiagnostics uri)
    (mend registry baseDir uri contents locations).addTo uri contents o

end Run

def run (registry : Fix.Registry) (baseDir : String) (cache : Cache) : Outcome :=
  let uris := cache.contents.entries.keys
  let outcome := (ascending uris).foldl (Run.visit registry baseDir cache) {}
  { outcome with ledger := outcome.ledger.detect (uris ++ cache.ignored.entries.keys) }

end PolicyMend
