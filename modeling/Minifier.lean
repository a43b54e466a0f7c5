import Minifier.Json.Reader
import Minifier.Json.Writer
import Minifier.Text.Blank
import Minifier.Text.Units
import Minifier.Name
import Minifier.Tree.Document
import Minifier.Edit.Walk
import Minifier.Value.Operator
import Minifier.Native
import Minifier.Naming.Symbol
import Minifier.Scope.Reference
import Minifier.Scope.Resolve
import Minifier.Mangle.Rename
import Minifier.Optimize.Evaluate
import Minifier.Optimize.Optimizer
import Minifier.Command.Execute
import Minifier.Main
import Minifier.Proofs.Edit.Surroundings
import Minifier.Proofs.Edit.Sweep
import Minifier.Proofs.Tree.Outline
import Minifier.Proofs.Scope.Enumeration
import Minifier.Proofs.Scope.Binders
import Minifier.Proofs.Scope.InScope
import Minifier.Proofs.Scope.Likeness
import Minifier.Proofs.Naming.Symbol
import Minifier.Proofs.Mangle.Assignment
import Minifier.Proofs.Mangle.Sites
import Minifier.Proofs.Mangle.Progress
import Minifier.Proofs.Mangle.Resolution
import Minifier.Proofs.Mangle.References
import Minifier.Proofs.Mangle.Declarations
import Minifier.Proofs.Edit.Fold
import Minifier.Proofs.Mangle.Editing
import Minifier.Proofs.Mangle.Lockstep
import Minifier.Proofs.Mangle.Seed
import Minifier.Proofs.Mangle.Spelling
import Minifier.Proofs.Value.Double
import Minifier.Proofs.Optimize.Constant
import Minifier.Proofs.Optimize.Placement
import Minifier.Proofs.Optimize.Reduction
import Minifier.Proofs.Optimize.Turn
import Minifier.Proofs.Optimize.Simulation
import Minifier.Proofs.Optimize.Evaluation
import Minifier.Proofs.Optimize.Execution
import Minifier.Proofs.Optimize.Hoisting
import Minifier.Proofs.Optimize.Shadowing
import Minifier.Proofs.Json.RoundTrip
import Minifier.Proofs.Tree.Conversion
import Minifier.Proofs.Tree.Emission
import Minifier.Proofs.Entries
import Minifier.Proofs.Scope.Grammar
import Minifier.Proofs.Scope.Ownership
import Minifier.Proofs.Optimize.NormalForm
import Minifier.Proofs.Edit.Observation
import Minifier.Proofs.Edit.Canonical
import Minifier.Proofs.Edit.History
import Minifier.Proofs.Edit.Persistence
import Minifier.Proofs.Edit.Interruption
import Minifier.Proofs.Mangle.Interface
import Minifier.Proofs.Mangle.Markup
import Minifier.Proofs.Mangle.Shorthand
import Minifier.Proofs.Optimize.Visit
import Minifier.Proofs.Optimize.Directive
import Minifier.Proofs.Optimize.Prologue
import Minifier.Proofs.Optimize.Root
import Minifier.Proofs.Edit.Absorption
import Minifier.Proofs.Edit.Merge
import Minifier.Proofs.Value.Expression
import Minifier.Proofs.Mangle.Plan
import Minifier.Proofs.Value.Quotation
import Minifier.Proofs.Value.Rounding
import Minifier.Proofs.Value.Literal
import Minifier.Proofs.Value.Numeric
import Minifier.Proofs.Decimal.Interval
import Minifier.Proofs.Decimal.Shortest
import Minifier.Proofs.Decimal.Layout
import Minifier.Proofs.Naming.Draws
import Minifier.Proofs.Naming.Numeration
import Minifier.Proofs.Value.Bitwise
import Minifier.Proofs.Value.Comparison
import Minifier.Proofs.Scope.Climb
import Minifier.Proofs.Identity.Tree
import Minifier.Proofs.Identity.Position
import Minifier.Proofs.Identity.Forest
import Minifier.Proofs.Identity.Patch
import Minifier.Proofs.Identity.Script
import Minifier.Proofs.Identity.Walk
import Minifier.Proofs.Identity.Passage
import Minifier.Proofs.Identity.Place
import Minifier.Proofs.Identity.Reading
import Minifier.Proofs.Identity.Lifetime
