import TreeTidy.Engine.Script
import TreeTidy.Files.Store
import TreeTidy.Main
import TreeTidy.Proofs.Engine.Accounts
import TreeTidy.Proofs.Engine.Calls
import TreeTidy.Proofs.Engine.NormalForm
import TreeTidy.Proofs.Engine.Reports
import TreeTidy.Proofs.Engine.Rewording
import TreeTidy.Proofs.Engine.Stops
import TreeTidy.Proofs.Engine.Timetable
import TreeTidy.Proofs.Engine.Unchanged
import TreeTidy.Proofs.Meaning.Comparisons
import TreeTidy.Proofs.Meaning.Folding
import TreeTidy.Proofs.Resolve.Typing
import TreeTidy.Proofs.Rules.Clear
import TreeTidy.Proofs.Rules.Grouping
import TreeTidy.Proofs.Rules.Imports
import TreeTidy.Proofs.Rules.Informed
import TreeTidy.Proofs.Rules.Names
import TreeTidy.Proofs.Rules.Nested
import TreeTidy.Proofs.Rules.Reproducible
import TreeTidy.Proofs.Rules.Tidied
import TreeTidy.Proofs.Source.HaltingUnits
import TreeTidy.Proofs.Source.Operators
import TreeTidy.Proofs.Tree.Holes
import TreeTidy.Proofs.Tree.Refinement
import TreeTidy.Proofs.Tree.Succession
import TreeTidy.Proofs.Types.Methods
import TreeTidy.Proofs.Unit.Pool
import TreeTidy.Source.Trial
