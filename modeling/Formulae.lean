import Formulae.Expression.Assignment
import Formulae.Expression.Source
import Formulae.Expression.Template
import Formulae.Standard.Basic
import Formulae.Proofs.Evaluation.ReadOnly
import Formulae.Proofs.Evaluation.Slot
import Formulae.Proofs.Evaluation.Target
import Formulae.Proofs.Evaluation.Assignment
import Formulae.Proofs.Evaluation.Place
import Formulae.Proofs.Evaluation.Atomicity
import Formulae.Proofs.Evaluation.Element
import Formulae.Proofs.Evaluation.Lens
import Formulae.Proofs.Evaluation.Confinement
import Formulae.Proofs.Evaluation.Simulation
import Formulae.Proofs.Evaluation.Flavors
import Formulae.Proofs.Evaluation.Overlay
import Formulae.Proofs.Evaluation.Layers
import Formulae.Proofs.Evaluation.Run
import Formulae.Proofs.Expression.History
import Formulae.Proofs.Tree.Node
import Formulae.Proofs.Grammar.Derivation
import Formulae.Proofs.Grammar.Completeness
import Formulae.Proofs.Grammar.Soundness
import Formulae.Proofs.Grammar.Limit
import Formulae.Proofs.Grammar.Unambiguity
import Formulae.Proofs.Grammar.Exactness
import Formulae.Proofs.Spelling.Lexing
import Formulae.Proofs.Spelling.Negation
import Formulae.Proofs.Spelling.Operand
import Formulae.Proofs.Spelling.Genuine
import Formulae.Proofs.Spelling.FreeText
import Formulae.Proofs.Spelling.Stream
import Formulae.Proofs.Spelling.Opening
import Formulae.Proofs.Spelling.Respelling
import Formulae.Proofs.Spelling.Reparsing
import Formulae.Proofs.Spelling.Word
import Formulae.Proofs.Spelling.Alike
import Formulae.Proofs.Spelling.Misreading
import Formulae.Proofs.Spelling.Joined
import Formulae.Proofs.Spelling.Meaning
import Formulae.Proofs.Spelling.RoundTrip
import Formulae.Proofs.Spelling.Reprinting
import Formulae.Proofs.Grammar.Nesting
import Formulae.Proofs.Grammar.Lookahead
import Formulae.Proofs.Grammar.Start
import Formulae.Proofs.Grammar.Rejection
import Formulae.Proofs.Token.Locality
import Formulae.Proofs.Token.Trace
import Formulae.Proofs.Token.Tiling
import Formulae.Proofs.Token.Context
import Formulae.Proofs.Token.Agreement
import Formulae.Proofs.Token.Excerpt
import Formulae.Proofs.Token.Layout
import Formulae.Proofs.Grammar.Use
import Formulae.Proofs.Grammar.Respan
import Formulae.Proofs.Grammar.Unplaced
import Formulae.Proofs.Grammar.Extent
import Formulae.Proofs.Tree.Faithfulness
import Formulae.Proofs.Token.Extension
import Formulae.Proofs.Tree.Shape
import Formulae.Proofs.Grammar.Quotation
import Formulae.Proofs.Expression.Enclosed
import Formulae.Proofs.Grammar.Binding
import Formulae.Proofs.Number.Power
import Formulae.Proofs.Evaluation.Arithmetic
import Formulae.Proofs.Evaluation.Step
import Formulae.Proofs.Value.Member
import Formulae.Proofs.Grammar.Conservativity
import Formulae.Proofs.Token.Failure
import Formulae.Proofs.Expression.Escaped
import Formulae.Proofs.Expression.Quoted
import Formulae.Proofs.Expression.Integer
import Formulae.Proofs.Color.Layout
import Formulae.Proofs.Host.Binding
import Formulae.Proofs.Standard.Reading
