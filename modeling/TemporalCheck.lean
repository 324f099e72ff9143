import TemporalCheck.OrdSet
import TemporalCheck.OrdMap
import TemporalCheck.Letter
import TemporalCheck.Search
import TemporalCheck.Text.Ranges
import TemporalCheck.Text.Blank
import TemporalCheck.Text.Invisible
import TemporalCheck.Text.Combining
import TemporalCheck.Text.Quoted
import TemporalCheck.Formula.Basic
import TemporalCheck.Formula.Order
import TemporalCheck.Formula.Normal
import TemporalCheck.Formula.Evaluation
import TemporalCheck.Formula.Semantics
import TemporalCheck.Formula.Token
import TemporalCheck.Formula.Grammar
import TemporalCheck.Formula.Parser
import TemporalCheck.Automaton.Basic
import TemporalCheck.Automaton.Language
import TemporalCheck.Automaton.Merge
import TemporalCheck.Automaton.Builder
import TemporalCheck.Automaton.Built
import TemporalCheck.Automaton.Degeneralize
import TemporalCheck.Automaton.Product
import TemporalCheck.Automaton.Lasso
import TemporalCheck.Tableau.Node
import TemporalCheck.Tableau.Expansion
import TemporalCheck.Tableau.ToAutomaton
import TemporalCheck.Json.Value
import TemporalCheck.Json.Reader
import TemporalCheck.Json.Printer
import TemporalCheck.Kripke.Basic
import TemporalCheck.Kripke.Document
import TemporalCheck.Kripke.Lift
import TemporalCheck.Verification
import TemporalCheck.Proofs.Fold
import TemporalCheck.Proofs.Draft
import TemporalCheck.Proofs.Json
import TemporalCheck.Proofs.Document
import TemporalCheck.Proofs.Builder
import TemporalCheck.Proofs.Recurrence
import TemporalCheck.Proofs.Merge
import TemporalCheck.Proofs.WellFormed
import TemporalCheck.Proofs.MergeStable
import TemporalCheck.Proofs.Labels
import TemporalCheck.Proofs.Search
import TemporalCheck.Proofs.Product
import TemporalCheck.Proofs.ProductGraph
import TemporalCheck.Proofs.Lasso
import TemporalCheck.Proofs.Shortest
import TemporalCheck.Proofs.Degeneralize
import TemporalCheck.Proofs.Normal
import TemporalCheck.Proofs.Tableau.Node
import TemporalCheck.Proofs.Tableau.Expansion
import TemporalCheck.Proofs.Tableau.Termination
import TemporalCheck.Proofs.Tableau.Letters
import TemporalCheck.Proofs.Tableau.Language
import TemporalCheck.Proofs.Generalize
import TemporalCheck.Proofs.Lift
import TemporalCheck.Proofs.Verification
import TemporalCheck.Proofs.Rewriting
import TemporalCheck.Proofs.Alphabet
import TemporalCheck.Proofs.Limit
import TemporalCheck.Proofs.Produced
import TemporalCheck.Proofs.Grammar
import TemporalCheck.Proofs.ViablePrefix
import TemporalCheck.Proofs.Printing
import TemporalCheck.Proofs.Declarations
import TemporalCheck.Proofs.Tiling
import TemporalCheck.Proofs.Tableau.Masks
import TemporalCheck.Proofs.Tableau.Saturation
import TemporalCheck.Proofs.Unambiguous
import TemporalCheck.Proofs.Tableau.Enumeration
