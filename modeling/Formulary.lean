import Formulary.Alphabet.Basic
import Formulary.Alphabet.Validate
import Formulary.CommandLine.Arguments
import Formulary.CommandLine.Command
import Formulary.CommandLine.Help
import Formulary.Definition
import Formulary.Diagnostics.Event
import Formulary.Diagnostics.Record
import Formulary.Failure
import Formulary.Formula.Error
import Formulary.Formula.Lookahead
import Formulary.Formula.Parser
import Formulary.Formula.Structure
import Formulary.Formula.Token
import Formulary.Grammar.Description
import Formulary.Grammar.Production
import Formulary.Main
import Formulary.Path
import Formulary.Pipeline
import Formulary.Proofs.Alphabet.Legal
import Formulary.Proofs.Alphabet.Precedence
import Formulary.Proofs.CommandLine.Outcome
import Formulary.Proofs.Definition.Draft
import Formulary.Proofs.Definition.Layout
import Formulary.Proofs.Definition.LineEnds
import Formulary.Proofs.Definition.Spelling
import Formulary.Proofs.Derivation.Formula
import Formulary.Proofs.Derivation.Readability
import Formulary.Proofs.Derivation.Tree
import Formulary.Proofs.Diagnostics.Log
import Formulary.Proofs.Diagnostics.Plain
import Formulary.Proofs.Diagnostics.Timestamp
import Formulary.Proofs.Dot.Faithful
import Formulary.Proofs.Dot.Quoted
import Formulary.Proofs.Grammar.Display
import Formulary.Proofs.Grammar.Language
import Formulary.Proofs.Grammar.Terminals
import Formulary.Proofs.Json.Readable
import Formulary.Proofs.Json.Report
import Formulary.Proofs.Lookahead
import Formulary.Proofs.Outputs
import Formulary.Proofs.Parser.Accepts
import Formulary.Proofs.Parser.Blames
import Formulary.Proofs.Parser.Complaints
import Formulary.Proofs.Parser.Completes
import Formulary.Proofs.Parser.Consumes
import Formulary.Proofs.Parser.Draws
import Formulary.Proofs.Parser.Horizon
import Formulary.Proofs.Parser.Limits
import Formulary.Proofs.Parser.Locates
import Formulary.Proofs.Parser.Nodes
import Formulary.Proofs.Parser.Openings
import Formulary.Proofs.Parser.Peeks
import Formulary.Proofs.Parser.Reads
import Formulary.Proofs.Parser.Script
import Formulary.Proofs.Parser.Solvent
import Formulary.Proofs.Parser.Steps
import Formulary.Proofs.Parser.Trace
import Formulary.Proofs.Parser.Unreachable
import Formulary.Proofs.Path.Components
import Formulary.Proofs.Pipeline.Accepts
import Formulary.Proofs.Renaming.Basic
import Formulary.Proofs.Renaming.Checks
import Formulary.Proofs.Renaming.Parser
import Formulary.Proofs.Storage.Journal
import Formulary.Proofs.Structure.Arity
import Formulary.Proofs.Structure.Deviation
import Formulary.Proofs.Structure.Reckoning
import Formulary.Proofs.Structure.Sentence
import Formulary.Proofs.Text.Code
import Formulary.Proofs.Text.Count
import Formulary.Proofs.Text.Plain
import Formulary.Proofs.Token.Doubling
import Formulary.Proofs.Token.Layout
import Formulary.Proofs.Tree.Arena
import Formulary.Proofs.Tree.Built
import Formulary.Proofs.Tree.Edges
import Formulary.Proofs.Tree.Order
import Formulary.Proofs.Tree.Outline
import Formulary.Proofs.Tree.Traversal
import Formulary.Report
import Formulary.Storage.Cause
import Formulary.Storage.Disk
import Formulary.Storage.Files
import Formulary.Symbol
import Formulary.Text
import Formulary.Tree
