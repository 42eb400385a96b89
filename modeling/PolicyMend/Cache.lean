import PolicyMend.Aggregate
import PolicyMend.Diagnostic
import PolicyMend.Hint
import PolicyMend.Store

/-!
The state of all open files: nine stores, each keyed by the address of a file. Every store can be
changed on its own; `delete` and `rename` act on one address in all of them.
-/

namespace PolicyMend

abbrev BuiltinRows := OrderedMap UInt32 (List BuiltinHint)

abbrev KeywordRows := OrderedMap UInt32 (List KeywordHint)

structure Cache where
  contents : Store String String := { name := "file_contents" }
  ignored : Store String String := { name := "ignored_file_contents" }
  modules : Store String Json := { name := "modules" }
  aggregates : Aggregate.Store := {}
  diagnostics : Store String (List Diagnostic) := { name := "file_diagnostics" }
  parseErrors : Store String (List Diagnostic) := { name := "parse_errors" }
  builtins : Store String BuiltinRows := { name := "builtin_positions" }
  keywords : Store String KeywordRows := { name := "keyword_locations" }
  lineCounts : Store String UInt32 := { name := "successful_parse_line_counts" }

namespace Cache

/-! ### Contents and modules -/

def setContents (c : Cache) (uri contents : String) : Cache :=
  { c with contents := c.contents.set uri contents }

/-- Takes contents read from a disk, and says whether they are news. -/
def refresh (c : Cache) (uri contents : String) : Bool × Cache :=
  let (changed, store) := c.contents.setIfChanged uri contents
  (changed, { c with contents := store })

def setIgnored (c : Cache) (uri contents : String) : Cache :=
  { c with ignored := c.ignored.set uri contents }

def deleteIgnored (c : Cache) (uri : String) : Cache :=
  { c with ignored := c.ignored.delete uri }

def setModule (c : Cache) (uri : String) (value : Json) : Cache :=
  { c with modules := c.modules.set uri value }

def contentsAndModule? (c : Cache) (uri : String) : Option (String × Json) := do
  return (← c.contents.get? uri, ← c.modules.get? uri)

/-! ### Aggregates -/

def setAggregates (c : Cache) (uri : String) (data : Aggregate.Data) : Cache :=
  { c with aggregates := c.aggregates.set uri data }

def deleteAggregates (c : Cache) (uri : String) : Cache :=
  { c with aggregates := c.aggregates.delete uri }

def setAllAggregates (c : Cache) (composite : Aggregate.Composite) : Cache :=
  { c with aggregates := .ofComposite composite }

/-- What some files contribute; no files stand for all. -/
def aggregatesOf (c : Cache) (uris : List String) : Aggregate.Composite :=
  if uris.isEmpty then c.aggregates.composite else c.aggregates.keep uris

/-! ### Diagnostics -/

def setDiagnostics (c : Cache) (uri : String) (diagnostics : List Diagnostic) : Cache :=
  { c with diagnostics := c.diagnostics.set uri diagnostics }

/-- Replaces the diagnostics of some rules: those of other rules stay, and the new ones follow. -/
def setDiagnosticsForRules (c : Cache) (uri : String) (codes : List String)
    (diagnostics : List Diagnostic) : Cache :=
  { c with
    diagnostics := c.diagnostics.update uri fun current =>
      ((current.getD []).filter fun d => d.code ∉ codes) ++ diagnostics }

def clearDiagnostics (c : Cache) : Cache :=
  { c with diagnostics := c.diagnostics.clear }

def setParseErrors (c : Cache) (uri : String) (diagnostics : List Diagnostic) : Cache :=
  { c with parseErrors := c.parseErrors.set uri diagnostics }

/-- The diagnostics to show for a file: its parse errors if there are any, else what the rules
found. -/
def shownDiagnostics (c : Cache) (uri : String) : List Diagnostic :=
  match c.parseErrors.get? uri with
  | some (first :: rest) => first :: rest
  | _ => (c.diagnostics.get? uri).getD []

/-! ### Hints -/

def setBuiltins (c : Cache) (uri : String) (rows : BuiltinRows) : Cache :=
  { c with builtins := c.builtins.set uri rows }

def setKeywords (c : Cache) (uri : String) (rows : KeywordRows) : Cache :=
  { c with keywords := c.keywords.set uri rows }

def setLineCount (c : Cache) (uri : String) (count : UInt32) : Cache :=
  { c with lineCounts := c.lineCounts.set uri count }

/-! ### All stores -/

def delete (c : Cache) (uri : String) : Cache where
  contents := c.contents.delete uri
  ignored := c.ignored.delete uri
  modules := c.modules.delete uri
  aggregates := c.aggregates.delete uri
  diagnostics := c.diagnostics.delete uri
  parseErrors := c.parseErrors.delete uri
  builtins := c.builtins.delete uri
  keywords := c.keywords.delete uri
  lineCounts := c.lineCounts.delete uri

/-- Moves what is known of a file to another address, store by store. A store that knows nothing of
the file keeps what it had under the new address. -/
def rename (c : Cache) (old new : String) : Cache where
  contents := c.contents.rename old new
  ignored := c.ignored.rename old new
  modules := c.modules.rename old new
  aggregates := c.aggregates.rename old new
  diagnostics := c.diagnostics.rename old new
  parseErrors := c.parseErrors.rename old new
  builtins := c.builtins.rename old new
  keywords := c.keywords.rename old new
  lineCounts := c.lineCounts.rename old new

end Cache

end PolicyMend
