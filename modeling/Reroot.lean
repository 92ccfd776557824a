import Reroot.Analyzer
import Reroot.Change.Apply
import Reroot.Change.Basic
import Reroot.Command.Arguments
import Reroot.Command.Console
import Reroot.Command.RenameImports
import Reroot.Command.Restructure
import Reroot.Config
import Reroot.Double
import Reroot.Error
import Reroot.Files.Tree
import Reroot.Glob
import Reroot.Json.Fault
import Reroot.Json.Print
import Reroot.Main
import Reroot.Name
import Reroot.Path
import Reroot.Plan
import Reroot.Project.Module
import Reroot.Project.Scan
import Reroot.Project.Snapshot
import Reroot.Proofs.Change.Additions
import Reroot.Proofs.Change.Atomicity
import Reroot.Proofs.Change.Conservation
import Reroot.Proofs.Change.Edits
import Reroot.Proofs.Change.Perform
import Reroot.Proofs.Change.Success
import Reroot.Proofs.Change.Variation
import Reroot.Proofs.Command.RenameImports
import Reroot.Proofs.Files.Links
import Reroot.Proofs.Files.Making
import Reroot.Proofs.Files.Operations
import Reroot.Proofs.Files.Resolve
import Reroot.Proofs.Files.Tidy
import Reroot.Proofs.Files.View
import Reroot.Proofs.Name
import Reroot.Proofs.Name.Grammar
import Reroot.Proofs.Name.Prefix
import Reroot.Proofs.Path
import Reroot.Proofs.Path.Order
import Reroot.Proofs.Plan
import Reroot.Proofs.Project.Discovery
import Reroot.Proofs.Project.Index
import Reroot.Proofs.Project.Markers
import Reroot.Proofs.Project.Naming
import Reroot.Proofs.Project.Relocation
import Reroot.Proofs.Project.Scan
import Reroot.Proofs.Project.Unlinked
import Reroot.Proofs.Python.Absence
import Reroot.Proofs.Python.Apart
import Reroot.Proofs.Python.Blocks
import Reroot.Proofs.Python.Capture
import Reroot.Proofs.Python.Chains
import Reroot.Proofs.Python.Course
import Reroot.Proofs.Python.Declared
import Reroot.Proofs.Python.Exactness
import Reroot.Proofs.Python.Flow
import Reroot.Proofs.Python.Headers
import Reroot.Proofs.Python.Imports
import Reroot.Proofs.Python.Landing
import Reroot.Proofs.Python.Listing
import Reroot.Proofs.Python.Lookup
import Reroot.Proofs.Python.Orphans
import Reroot.Proofs.Python.Owners
import Reroot.Proofs.Python.Patterns
import Reroot.Proofs.Python.Placement
import Reroot.Proofs.Python.Planning
import Reroot.Proofs.Python.Reaching
import Reroot.Proofs.Python.Resolution
import Reroot.Proofs.Python.Scopes
import Reroot.Proofs.Python.Shape
import Reroot.Proofs.Python.Sites
import Reroot.Proofs.Python.Spelling
import Reroot.Proofs.Python.Splice
import Reroot.Proofs.Python.Splitting
import Reroot.Proofs.Python.Statements
import Reroot.Proofs.Python.Substitution
import Reroot.Proofs.Python.Tour
import Reroot.Proofs.Python.Uses
import Reroot.Proofs.Python.Visits
import Reroot.Proofs.Run.Accounting
import Reroot.Proofs.Run.Agreement
import Reroot.Proofs.Run.Checks
import Reroot.Proofs.Run.Consent
import Reroot.Proofs.Run.Contents
import Reroot.Proofs.Run.Convergence
import Reroot.Proofs.Run.Conversion
import Reroot.Proofs.Run.Exclusion
import Reroot.Proofs.Run.Journal
import Reroot.Proofs.Run.Modes
import Reroot.Proofs.Run.References
import Reroot.Proofs.Run.Script
import Reroot.Proofs.Run.Staleness
import Reroot.Proofs.Run.Syntax
import Reroot.Proofs.Run.Trace
import Reroot.Proofs.Run.Transfer
import Reroot.Proofs.Run.Visibility
import Reroot.Proofs.Survey
import Reroot.Proofs.Text.Bytes
import Reroot.Proofs.Text.Split
import Reroot.Python.Analyzer
import Reroot.Python.Cursor
import Reroot.Python.Edit
import Reroot.Python.Gram
import Reroot.Python.Grammar
import Reroot.Python.Imports
import Reroot.Python.Node
import Reroot.Python.Parse
import Reroot.Python.Rename
import Reroot.Python.Scope
import Reroot.Python.Site
import Reroot.Report
import Reroot.Run.Basic
import Reroot.Run.Operator
import Reroot.Run.Outcome
import Reroot.Run.Session
import Reroot.Survey
import Reroot.Text.Basic
import Reroot.Text.Identifier
import Reroot.Text.Quoted
import Reroot.Toml.Document
import Reroot.Toml.Item
import Reroot.Toml.Printer
import Reroot.Toml.Quoted
import Reroot.Toml.Scalar
