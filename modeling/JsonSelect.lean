import JsonSelect.Main
import JsonSelect.Text.Place
import JsonSelect.Proofs.Selector.WellFormed
import JsonSelect.Proofs.Selector.Written
import JsonSelect.Proofs.RoundTrip.Quoted
import JsonSelect.Proofs.RoundTrip.Indexer
import JsonSelect.Proofs.RoundTrip.Comparison
import JsonSelect.Proofs.RoundTrip.Path
import JsonSelect.Proofs.Grammar.Within
import JsonSelect.Proofs.Grammar.Compiled
import JsonSelect.Proofs.Evaluation.Items
import JsonSelect.Proofs.Evaluation.DepthFirst
import JsonSelect.Proofs.Evaluation.Strictness
import JsonSelect.Proofs.Grammar.Position
import JsonSelect.Proofs.Grammar.DepthLimit
import JsonSelect.Proofs.Evaluation.CompiledPath
import JsonSelect.Proofs.Grammar.Locality
import JsonSelect.Proofs.Grammar.Tokens
import JsonSelect.Proofs.Grammar.Refusal
import JsonSelect.Proofs.Grammar.Finality
import JsonSelect.Proofs.Grammar.Unfinished
import JsonSelect.Proofs.Literal.Order
import JsonSelect.Proofs.Evaluation.DocumentOrder
import JsonSelect.Proofs.Evaluation.Multiplicity
import JsonSelect.Proofs.Json.Places
import JsonSelect.Proofs.Json.Names
import JsonSelect.Proofs.Grammar.ArrayIndexer
import JsonSelect.Proofs.Grammar.Surrounding
import JsonSelect.Proofs.Evaluation.NamedDescent
import JsonSelect.Proofs.Numeric.Magnitude
import JsonSelect.Proofs.Numeric.Nearest
import JsonSelect.Proofs.Numeric.CorrectRounding
import JsonSelect.Proofs.Numeric.ScaledValue
import JsonSelect.Proofs.Literal.TrueOrder
import JsonSelect.Proofs.Evaluation.LastNote
import JsonSelect.Proofs.Evaluation.SingleMatch
import JsonSelect.Proofs.Evaluation.IndexLookup
import JsonSelect.Proofs.Evaluation.SingularPath
import JsonSelect.Proofs.Grammar.RootPath
import JsonSelect.Proofs.Evaluation.EmptySelection
import JsonSelect.Proofs.Literal.Sign
import JsonSelect.Proofs.Grammar.Conjunction
import JsonSelect.Proofs.Grammar.NumberWord
import JsonSelect.Proofs.Check
import JsonSelect.Proofs.Command
import JsonSelect.Proofs.Evaluation.Comparison
import JsonSelect.Proofs.Numeric.ShortestDecimal
import JsonSelect.Proofs.RoundTrip.PositionalText
import JsonSelect.Proofs.RoundTrip.FloatLiteral
import JsonSelect.Proofs.Cursor.Discipline
