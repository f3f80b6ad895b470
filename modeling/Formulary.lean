import Formulary.Session
import Formulary.Proofs.Forest.Frame
import Formulary.Proofs.Forest.FullTree
import Formulary.Proofs.Forest.Reference
import Formulary.Proofs.Forest.Machine
import Formulary.Proofs.Forest.Reads
import Formulary.Proofs.Forest.Evaluation
import Formulary.Proofs.Forest.Layout
import Formulary.Proofs.Infix.Assembly
import Formulary.Proofs.Forest.Rewind
import Formulary.Proofs.Forest.Search
import Formulary.Proofs.Forest.Apart
import Formulary.Proofs.Infix.Yard
import Formulary.Proofs.Reading.Frame
import Formulary.Proofs.Session.Layout
import Formulary.Proofs.Symbols.Catalog
import Formulary.Proofs.Reading.Outcome
import Formulary.Proofs.Reading.Phrase
import Formulary.Proofs.Reading.Soundness
import Formulary.Proofs.Reading.Completeness
import Formulary.Proofs.Infix.Tree
import Formulary.Proofs.Infix.Grouping
import Formulary.Proofs.Infix.Pushing
import Formulary.Proofs.Reading.Building
import Formulary.Proofs.Session.Acceptance
import Formulary.Proofs.Forest.Counting
import Formulary.Proofs.Reading.Trail
import Formulary.Proofs.Session.Refusal
import Formulary.Proofs.Forest.Locality
import Formulary.Proofs.Forest.Rewound
import Formulary.Proofs.Forest.Passes
import Formulary.Proofs.Reading.Alike
import Formulary.Proofs.Reading.Mention
import Formulary.Proofs.Session.Lasting
import Formulary.Proofs.Session.Independence
import Formulary.Proofs.Session.Elementwise
import Formulary.Proofs.Session.Starting
import Formulary.Proofs.Symbols.Shadow
import Formulary.Proofs.Reading.Steps
import Formulary.Proofs.Reading.Widening
import Formulary.Proofs.Reading.Nesting
import Formulary.Proofs.Reading.Viability
import Formulary.Proofs.Session.Options
import Formulary.Proofs.Session.Diagnosis
import Formulary.Proofs.Reading.Sketch
import Formulary.Proofs.Session.Knowledge
import Formulary.Proofs.Infix.Polish
import Formulary.Proofs.Infix.Writing
import Formulary.Proofs.Reading.Breadth
import Formulary.Proofs.Session.Recall
import Formulary.Proofs.Session.Confinement
import Formulary.Proofs.Reading.Unambiguous
import Formulary.Proofs.Reading.Width
import Formulary.Proofs.Session.Width
import Formulary.Proofs.Reading.Blanks
import Formulary.Proofs.Session.Blanks
import Formulary.Proofs.Symbols.Table
import Formulary.Proofs.Reading.Lexeme
import Formulary.Proofs.Session.Lexeme
import Formulary.Proofs.Forest.Diagram
import Formulary.Proofs.Session.Outline
import Formulary.Proofs.Json.Spelling
import Formulary.Proofs.Json.Reading
import Formulary.Proofs.Json.Codec
import Formulary.Proofs.Options
import Formulary.Proofs.Infix.Conservation
import Formulary.Proofs.Reading.Return
import Formulary.Proofs.Session.Return
