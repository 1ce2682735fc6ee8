import Dcpu16.CommandLine.FileTree
import Dcpu16.CommandLine.Invocation
import Dcpu16.CommandLine.Run
import Dcpu16.Diagnostic
import Dcpu16.Error
import Dcpu16.Evaluation
import Dcpu16.Image
import Dcpu16.Isa.Instruction
import Dcpu16.Isa.Mode
import Dcpu16.Isa.Opcode
import Dcpu16.Isa.Register
import Dcpu16.Isa.Word
import Dcpu16.Listing
import Dcpu16.Main
import Dcpu16.NameTable
import Dcpu16.ObjectFile.Basic
import Dcpu16.ObjectFile.FunctionSpans
import Dcpu16.ObjectFile.Labels
import Dcpu16.ObjectFile.Lines
import Dcpu16.ObjectFile.Records
import Dcpu16.ObjectFile.Session
import Dcpu16.Options.Basic
import Dcpu16.Options.File
import Dcpu16.Proofs.Addressing
import Dcpu16.Proofs.Appending
import Dcpu16.Proofs.Atomicity
import Dcpu16.Proofs.Binding
import Dcpu16.Proofs.BindingStability
import Dcpu16.Proofs.CanonicalForm
import Dcpu16.Proofs.Capacity
import Dcpu16.Proofs.Codec
import Dcpu16.Proofs.Declarations
import Dcpu16.Proofs.Decoding
import Dcpu16.Proofs.Disassembly
import Dcpu16.Proofs.EmptyOperands
import Dcpu16.Proofs.ErrorPlaces
import Dcpu16.Proofs.Extension
import Dcpu16.Proofs.Families
import Dcpu16.Proofs.Faults
import Dcpu16.Proofs.FileTable
import Dcpu16.Proofs.Filling
import Dcpu16.Proofs.FunctionSpans
import Dcpu16.Proofs.Grammar
import Dcpu16.Proofs.Hiding
import Dcpu16.Proofs.Histories
import Dcpu16.Proofs.IndexSafety
import Dcpu16.Proofs.Invariant
import Dcpu16.Proofs.KeepGoing
import Dcpu16.Proofs.LabelPlacement
import Dcpu16.Proofs.LabelReferences
import Dcpu16.Proofs.Labels
import Dcpu16.Proofs.Layout
import Dcpu16.Proofs.LinkedStore
import Dcpu16.Proofs.Linking
import Dcpu16.Proofs.Listing
import Dcpu16.Proofs.LiteralSums
import Dcpu16.Proofs.MangledNames
import Dcpu16.Proofs.NameTable
import Dcpu16.Proofs.Numerals
import Dcpu16.Proofs.NumericData
import Dcpu16.Proofs.Objects
import Dcpu16.Proofs.Operands
import Dcpu16.Proofs.Placement
import Dcpu16.Proofs.Printing
import Dcpu16.Proofs.Privacy
import Dcpu16.Proofs.Reading
import Dcpu16.Proofs.Records
import Dcpu16.Proofs.Redefinition
import Dcpu16.Proofs.References
import Dcpu16.Proofs.Relinking
import Dcpu16.Proofs.Relocation
import Dcpu16.Proofs.Reports
import Dcpu16.Proofs.Resolution
import Dcpu16.Proofs.RoundTrip
import Dcpu16.Proofs.Runs
import Dcpu16.Proofs.Scoping
import Dcpu16.Proofs.Session
import Dcpu16.Proofs.Settling
import Dcpu16.Proofs.Shifting
import Dcpu16.Proofs.Stages
import Dcpu16.Proofs.Stopping
import Dcpu16.Proofs.StringData
import Dcpu16.Proofs.SymbolLabels
import Dcpu16.Proofs.SymbolStore
import Dcpu16.Proofs.Tidying
import Dcpu16.Proofs.Unambiguity
import Dcpu16.Proofs.Unveiling
import Dcpu16.Proofs.Veiling
import Dcpu16.Record
import Dcpu16.Source.Data
import Dcpu16.Source.Directive
import Dcpu16.Source.Expr.Basic
import Dcpu16.Source.Expr.Parser
import Dcpu16.Source.Expr.Printer
import Dcpu16.Source.Statement
import Dcpu16.Symbol.Basic
import Dcpu16.Symbol.Program
import Dcpu16.Text.Blank
import Dcpu16.Text.Cut
import Dcpu16.Text.Numeral
import Dcpu16.Text.Styled
import Dcpu16.Text.Tidy
import Dcpu16.Yaml.Line
import Dcpu16.Yaml.Mapping
import Dcpu16.Yaml.Quoted
import Dcpu16.Yaml.Scalar
