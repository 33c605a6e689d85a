import LpcSymbols.Tree.Event
import LpcSymbols.Tree.Phrase
import LpcSymbols.Analysis.Model
import LpcSymbols.Editor.Decoration
import LpcSymbols.Editor.Navigation
import LpcSymbols.Editor.Outline
import LpcSymbols.Proofs.Accounting
import LpcSymbols.Proofs.Composition
import LpcSymbols.Proofs.Scoping
import LpcSymbols.Proofs.Trivia
import LpcSymbols.Proofs.Integrity
import LpcSymbols.Proofs.Lineage
import LpcSymbols.Proofs.Preorder
import LpcSymbols.Proofs.Balance
import LpcSymbols.Proofs.Ranges
import LpcSymbols.Proofs.Safety
import LpcSymbols.Proofs.Nesting
import LpcSymbols.Proofs.Significance
import LpcSymbols.Proofs.Positions
import LpcSymbols.Proofs.SourceOrder
import LpcSymbols.Proofs.Innermost
import LpcSymbols.Proofs.Outline
import LpcSymbols.Proofs.Branching
import LpcSymbols.Proofs.Labels
import LpcSymbols.Proofs.Highlights
import LpcSymbols.Proofs.Overlaps
import LpcSymbols.Proofs.Fading
import LpcSymbols.Proofs.Transparency
import LpcSymbols.Proofs.Links
import LpcSymbols.Proofs.Selections
import LpcSymbols.Proofs.Folds
import LpcSymbols.Proofs.Declarations
import LpcSymbols.Proofs.References
import LpcSymbols.Proofs.Places
import LpcSymbols.Proofs.Spellings
import LpcSymbols.Proofs.Assembly
