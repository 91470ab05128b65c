import TermGraph.Bits.Anf
import TermGraph.Bits.Basic
import TermGraph.Bits.Word
import TermGraph.Eval.BitBlast
import TermGraph.Eval.Builtin
import TermGraph.Eval.Error
import TermGraph.Eval.Evaluate
import TermGraph.Eval.Machine
import TermGraph.Eval.Primitive
import TermGraph.Name.Ident
import TermGraph.Name.Sanitize
import TermGraph.Name.Variant
import TermGraph.Order.Ascending
import TermGraph.Order.Unique
import TermGraph.Proofs.Bits.Anf
import TermGraph.Proofs.Bits.Arithmetic
import TermGraph.Proofs.Bits.Canonical
import TermGraph.Proofs.Bits.Circuits
import TermGraph.Proofs.Bits.InRange
import TermGraph.Proofs.Bits.Literals
import TermGraph.Proofs.Bits.Support
import TermGraph.Proofs.Bits.Valuation
import TermGraph.Proofs.Bits.Word
import TermGraph.Proofs.Eval.BitBlast
import TermGraph.Proofs.Eval.Builtins
import TermGraph.Proofs.Eval.Complete
import TermGraph.Proofs.Eval.Conditional
import TermGraph.Proofs.Eval.Conversions
import TermGraph.Proofs.Eval.Elements
import TermGraph.Proofs.Eval.Follow
import TermGraph.Proofs.Eval.Fuel
import TermGraph.Proofs.Eval.Grow
import TermGraph.Proofs.Eval.InForce
import TermGraph.Proofs.Eval.InRange
import TermGraph.Proofs.Eval.Independent
import TermGraph.Proofs.Eval.Inputs
import TermGraph.Proofs.Eval.Memoization
import TermGraph.Proofs.Eval.Naturals
import TermGraph.Proofs.Eval.Nodes
import TermGraph.Proofs.Eval.Operations
import TermGraph.Proofs.Eval.Packed
import TermGraph.Proofs.Eval.Plain
import TermGraph.Proofs.Eval.Primitives
import TermGraph.Proofs.Eval.Records
import TermGraph.Proofs.Eval.Reference
import TermGraph.Proofs.Eval.Refines
import TermGraph.Proofs.Eval.Returns
import TermGraph.Proofs.Eval.SameEnd
import TermGraph.Proofs.Eval.Selection
import TermGraph.Proofs.Eval.Simulate
import TermGraph.Proofs.Eval.Sound
import TermGraph.Proofs.Eval.Stretch
import TermGraph.Proofs.Eval.Symbolic
import TermGraph.Proofs.Eval.Vectors
import TermGraph.Proofs.Eval.WordLiterals
import TermGraph.Proofs.Name.Dots
import TermGraph.Proofs.Name.Fresh
import TermGraph.Proofs.Name.Readable
import TermGraph.Proofs.Target.Arrows
import TermGraph.Proofs.Target.BinderNames
import TermGraph.Proofs.Target.Layout
import TermGraph.Proofs.Target.Reading
import TermGraph.Proofs.Target.Resolve
import TermGraph.Proofs.Target.Substitute
import TermGraph.Proofs.Target.Template
import TermGraph.Proofs.Target.Tokens
import TermGraph.Proofs.Term.FreeVariables
import TermGraph.Proofs.Term.Growth
import TermGraph.Proofs.Term.LooseVars
import TermGraph.Proofs.Term.Occurrences
import TermGraph.Proofs.Term.Reach
import TermGraph.Proofs.Term.Shift
import TermGraph.Proofs.Term.Tally
import TermGraph.Proofs.Term.Within
import TermGraph.Proofs.Translate.Again
import TermGraph.Proofs.Translate.Append
import TermGraph.Proofs.Translate.Binders
import TermGraph.Proofs.Translate.ChosenNames
import TermGraph.Proofs.Translate.Complete
import TermGraph.Proofs.Translate.Context
import TermGraph.Proofs.Translate.Decides
import TermGraph.Proofs.Translate.Distinct
import TermGraph.Proofs.Translate.Entered
import TermGraph.Proofs.Translate.FreeNames
import TermGraph.Proofs.Translate.Guarded
import TermGraph.Proofs.Translate.Handled
import TermGraph.Proofs.Translate.Ledger
import TermGraph.Proofs.Translate.Lexical
import TermGraph.Proofs.Translate.Lifting
import TermGraph.Proofs.Translate.Marks
import TermGraph.Proofs.Translate.Moves
import TermGraph.Proofs.Translate.Names
import TermGraph.Proofs.Translate.Naming
import TermGraph.Proofs.Translate.Natural
import TermGraph.Proofs.Translate.NoErrors
import TermGraph.Proofs.Translate.Outline
import TermGraph.Proofs.Translate.Pairing
import TermGraph.Proofs.Translate.Parameters
import TermGraph.Proofs.Translate.Places
import TermGraph.Proofs.Translate.Records
import TermGraph.Proofs.Translate.Run
import TermGraph.Proofs.Translate.Scoping
import TermGraph.Proofs.Translate.Session
import TermGraph.Proofs.Translate.SharedOnce
import TermGraph.Proofs.Translate.Step
import TermGraph.Proofs.Translate.Succeed
import TermGraph.Proofs.Translate.Units
import TermGraph.Proofs.Translate.Unlift
import TermGraph.Proofs.Value.Choice
import TermGraph.Proofs.Value.Data
import TermGraph.Proofs.Value.Fields
import TermGraph.Proofs.Value.Heap
import TermGraph.Proofs.Value.InRange
import TermGraph.Proofs.Value.IndexTrie
import TermGraph.Proofs.Value.Merge
import TermGraph.Proofs.Value.Packed
import TermGraph.Proofs.Value.Read
import TermGraph.Proofs.Value.Shape
import TermGraph.Proofs.Value.Similar
import TermGraph.Proofs.Value.Words
import TermGraph.Target.Expr
import TermGraph.Target.Render
import TermGraph.Target.Reserved
import TermGraph.Target.Template
import TermGraph.Target.Writer
import TermGraph.Term.Build
import TermGraph.Term.Inspect
import TermGraph.Term.Lift
import TermGraph.Term.Loose
import TermGraph.Term.Node
import TermGraph.Term.Occurrences
import TermGraph.Term.Store
import TermGraph.Text.Blank
import TermGraph.Text.Quoted
import TermGraph.Toml.Decode
import TermGraph.Toml.Document
import TermGraph.Toml.Inline
import TermGraph.Toml.Lexical
import TermGraph.Toml.Parse
import TermGraph.Toml.Scalar
import TermGraph.Toml.Value
import TermGraph.Translate.ConfigError
import TermGraph.Translate.Error
import TermGraph.Translate.Module
import TermGraph.Translate.Node
import TermGraph.Translate.Options
import TermGraph.Translate.Prelude
import TermGraph.Translate.Scope
import TermGraph.Translate.Sharing
import TermGraph.Translate.Treatment
import TermGraph.Translate.TreatmentConfig
import TermGraph.Value.Basic
import TermGraph.Value.Heap
import TermGraph.Value.IndexTrie
import TermGraph.Value.Mux
