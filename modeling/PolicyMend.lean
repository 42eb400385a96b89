import PolicyMend.Aggregate
import PolicyMend.Cache
import PolicyMend.Command.Execute
import PolicyMend.Command.Files
import PolicyMend.Command.Fix
import PolicyMend.Command.Line
import PolicyMend.Commit
import PolicyMend.Config.Project
import PolicyMend.Config.Resolved
import PolicyMend.Diagnostic
import PolicyMend.Digest
import PolicyMend.Disk.Access
import PolicyMend.Disk.Node
import PolicyMend.Disk.Tree
import PolicyMend.Failure
import PolicyMend.Fix.Edit
import PolicyMend.Fix.Registry
import PolicyMend.Fix.SpanRemoval
import PolicyMend.Fix.Substitution
import PolicyMend.Glob.Expression
import PolicyMend.Glob.Matching
import PolicyMend.Glob.Method
import PolicyMend.Glob.Parser
import PolicyMend.Glob.Pattern
import PolicyMend.Hint
import PolicyMend.Ignore
import PolicyMend.Json.Binary64
import PolicyMend.Json.Printer
import PolicyMend.Json.Reader
import PolicyMend.Json.Record
import PolicyMend.Json.Scanner
import PolicyMend.Json.Shortest
import PolicyMend.Json.Value
import PolicyMend.Ledger.Basic
import PolicyMend.Ledger.Report
import PolicyMend.Location
import PolicyMend.Main
import PolicyMend.OrderedMap
import PolicyMend.Package
import PolicyMend.Path
import PolicyMend.Proofs.AggregateOrder
import PolicyMend.Proofs.Attribution
import PolicyMend.Proofs.Basic
import PolicyMend.Proofs.CacheOperations
import PolicyMend.Proofs.CacheRecord
import PolicyMend.Proofs.CommitOrder
import PolicyMend.Proofs.CommitSteps
import PolicyMend.Proofs.Convergence
import PolicyMend.Proofs.DeclaredSegments
import PolicyMend.Proofs.DecodedTrees
import PolicyMend.Proofs.Deletions
import PolicyMend.Proofs.Detection
import PolicyMend.Proofs.DiagnosticUpdates
import PolicyMend.Proofs.DiskChanges
import PolicyMend.Proofs.DiskLookups
import PolicyMend.Proofs.DryRun
import PolicyMend.Proofs.FixOnDisk
import PolicyMend.Proofs.FixerTurns
import PolicyMend.Proofs.HeldBack
import PolicyMend.Proofs.Insertions
import PolicyMend.Proofs.JsonFigures
import PolicyMend.Proofs.JsonRecords
import PolicyMend.Proofs.JsonTrees
import PolicyMend.Proofs.LedgerRoots
import PolicyMend.Proofs.LocationReaders
import PolicyMend.Proofs.MarkedSpans
import PolicyMend.Proofs.MendedText
import PolicyMend.Proofs.MoveChains
import PolicyMend.Proofs.MoveConflicts
import PolicyMend.Proofs.OrderedMap
import PolicyMend.Proofs.PackageHome
import PolicyMend.Proofs.PathJoins
import PolicyMend.Proofs.PathPieces
import PolicyMend.Proofs.Relocation
import PolicyMend.Proofs.RemovedSpans
import PolicyMend.Proofs.ReportedFixes
import PolicyMend.Proofs.RowBytes
import PolicyMend.Proofs.RowCounts
import PolicyMend.Proofs.RunFiles
import PolicyMend.Proofs.SettledSubstitutions
import PolicyMend.Proofs.Sorting
import PolicyMend.Proofs.SpanCuts
import PolicyMend.Proofs.Substitutions
import PolicyMend.Proofs.ViolationNotation
import PolicyMend.Proofs.WrittenFiles
import PolicyMend.Proofs.WrittenForms
import PolicyMend.Run
import PolicyMend.Sorting
import PolicyMend.Store
import PolicyMend.Text.Characters
import PolicyMend.Text.Rows
import PolicyMend.Violation
