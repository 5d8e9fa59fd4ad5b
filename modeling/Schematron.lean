import Schematron.Text.Blank
import Schematron.Text.Case
import Schematron.Text.Quoted
import Schematron.Text.Word
import Schematron.XPath.Token
import Schematron.XPath.Tokenize
import Schematron.XPath.Grammar
import Schematron.Query.Slot
import Schematron.Schema.Compiled
import Schematron.Xml.Location
import Schematron.Xml.Traversal
import Schematron.Xml.Instance
import Schematron.Xml.Expanding
import Schematron.Schema.Reader
import Schematron.Number.Shortest
import Schematron.Number.Reading
import Schematron.XPath.Strict
import Schematron.Evaluation.Evaluate
import Schematron.Validation.Run
import Schematron.Files.Path
import Schematron.Files.Glob
import Schematron.Files.Disk
import Schematron.Loading.Reference
import Schematron.Loading.Loader
import Schematron.Batch.Run
import Schematron.Batch.Pool
import Schematron.Rendering.Render
import Schematron.Data.Json
import Schematron.Data.Toml.Document
import Schematron.Config.File
import Schematron.Config.Environment
import Schematron.Command.Run
import Schematron.Main
import Schematron.Proofs.Success
import Schematron.Proofs.Reading
import Schematron.Proofs.Histories
import Schematron.Proofs.Schema.Inheritance
import Schematron.Proofs.XPath.Syntax
import Schematron.Proofs.XPath.Soundness
import Schematron.Proofs.Validation.Meaning
import Schematron.Proofs.Validation.Run
import Schematron.Proofs.Validation.Calls
import Schematron.Proofs.XPath.Exposure
import Schematron.Proofs.XPath.Clashes
import Schematron.Proofs.XPath.Trimming
import Schematron.Proofs.XPath.Quotes
import Schematron.Proofs.XPath.Literals
import Schematron.Proofs.XPath.Offsets
import Schematron.Proofs.XPath.Rewriting
import Schematron.Proofs.Query.Acceptance
import Schematron.Proofs.Query.Histories
import Schematron.Proofs.Schema.Scoping
import Schematron.Proofs.XPath.Derivation
import Schematron.Proofs.XPath.Variables
import Schematron.Proofs.XPath.Marking
import Schematron.Proofs.XPath.Operands
import Schematron.Proofs.Schema.FixedPoint
import Schematron.Proofs.Schema.Activation
import Schematron.Proofs.Schema.Cycles
import Schematron.Proofs.Schema.References
import Schematron.Proofs.Schema.Substitution
import Schematron.Proofs.Schema.Supply
import Schematron.Proofs.Validation.Phases
import Schematron.Proofs.Validation.Leniency
import Schematron.Proofs.Validation.Discipline
import Schematron.Proofs.Validation.Sharing
import Schematron.Proofs.Xml.Naming
import Schematron.Proofs.Xml.Order
import Schematron.Proofs.Xml.Location
import Schematron.Proofs.Xml.Address
import Schematron.Proofs.Xml.Preorder
import Schematron.Proofs.Evaluation.Steps
import Schematron.Proofs.Evaluation.Selection
import Schematron.Proofs.Evaluation.Current
import Schematron.Proofs.Loading.Attributes
import Schematron.Proofs.Loading.Prolog
import Schematron.Proofs.Loading.Retries
import Schematron.Proofs.Loading.Memo
import Schematron.Proofs.Batch.Independence
import Schematron.Proofs.Files.Folding
import Schematron.Proofs.Files.Discovery
import Schematron.Proofs.Loading.Resolution
import Schematron.Proofs.Schema.Layout
