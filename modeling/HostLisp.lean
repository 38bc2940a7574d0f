import HostLisp.Compiler.Codegen
import HostLisp.Compiler.Imports
import HostLisp.Compiler.Program
import HostLisp.Compiler.SymbolTable
import HostLisp.Error
import HostLisp.Evaluator
import HostLisp.Form.Basic
import HostLisp.Form.Depth
import HostLisp.Form.Document
import HostLisp.Form.Printer
import HostLisp.Host.Expr
import HostLisp.Host.Identifier
import HostLisp.Host.Renaming
import HostLisp.Job
import HostLisp.Keyword
import HostLisp.Number.Basic
import HostLisp.Number.Decimal
import HostLisp.Number.Numeral
import HostLisp.Number.Printer
import HostLisp.Reader
import HostLisp.Scope
import HostLisp.Special.Basic
import HostLisp.Special.Fault
import HostLisp.Store
import HostLisp.Text.Blank
import HostLisp.Text.Hex
import HostLisp.Text.Quoted
import HostLisp.Text.Span
import HostLisp.Token.Basic
import HostLisp.Token.Lexer
import HostLisp.Value.Basic
import HostLisp.Value.Printer
import HostLisp.Proofs.Renaming
import HostLisp.Proofs.Declarations
import HostLisp.Proofs.CodegenRules
import HostLisp.Proofs.DeclaredTargets
import HostLisp.Proofs.Hygiene
import HostLisp.Proofs.Realms
import HostLisp.Proofs.Scoping
import HostLisp.Proofs.StaticSoundness
import HostLisp.Proofs.Sessions
import HostLisp.Proofs.Correspondence
import HostLisp.Proofs.DepthLimit
import HostLisp.Proofs.Frame
import HostLisp.Proofs.History
import HostLisp.Proofs.Exhaustion
import HostLisp.Proofs.Numerals
import HostLisp.Proofs.Measuring
import HostLisp.Proofs.Grammar
import HostLisp.Proofs.Lexing
import HostLisp.Proofs.ReadBack
import HostLisp.Proofs.Recognition
import HostLisp.Proofs.Rereading
import HostLisp.Proofs.ImportWalk
import HostLisp.Proofs.Inlining
import HostLisp.Proofs.FlatPrograms
import HostLisp.Proofs.LateTable
import HostLisp.Proofs.Placement
import HostLisp.Proofs.HostSemantics
import HostLisp.Proofs.Fragment
import HostLisp.Proofs.Worlds
import HostLisp.Proofs.Simulation
import HostLisp.Proofs.Preservation
import HostLisp.Proofs.Tiling
import HostLisp.Proofs.Levels
import HostLisp.Proofs.CompilationDepth
import HostLisp.Proofs.Subexpressions
import HostLisp.Proofs.FreshTargets
import HostLisp.Proofs.QuotedSymbols
import HostLisp.Proofs.TableUse
import HostLisp.Proofs.Growth
import HostLisp.Proofs.Concatenation
import HostLisp.Proofs.Stepwise
import HostLisp.Proofs.Layout
import HostLisp.Proofs.NumeralGrammar
import HostLisp.Proofs.Diagnostics
import HostLisp.Proofs.TemplateCode
import HostLisp.Proofs.BuiltRenamings
import HostLisp.Proofs.PlainTemplates
import HostLisp.Proofs.Positional
import HostLisp.Proofs.Indentation
import HostLisp.Proofs.QuotedData
