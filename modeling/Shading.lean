import Shading.Basic
import Shading.Binary.Basic
import Shading.Binary.Decode
import Shading.Binary.Dump
import Shading.Binary.Fault
import Shading.Binary.Instruction
import Shading.Binary.Layout
import Shading.Binary.Validity
import Shading.Binary.Version
import Shading.Command.Arguments
import Shading.Command.Basic
import Shading.Command.Session
import Shading.Config.Basic
import Shading.Config.Report
import Shading.Config.Settings
import Shading.Files.Path
import Shading.Files.Search
import Shading.Files.Tree
import Shading.Grammar.Block
import Shading.Grammar.Expression
import Shading.Grammar.Name
import Shading.Grammar.Operator
import Shading.Grammar.Production
import Shading.Grammar.Recovery
import Shading.Grammar.Unit
import Shading.Include.Expansion
import Shading.Lower.Problem
import Shading.Lower.Program
import Shading.Lower.Types
import Shading.Main
import Shading.Message.Basic
import Shading.Message.Excerpt
import Shading.Message.Render
import Shading.Parser.Basic
import Shading.Parser.Productions
import Shading.Proofs.Binary.Alignment
import Shading.Proofs.Binary.Bodies
import Shading.Proofs.Binary.Building
import Shading.Proofs.Binary.Delimiting
import Shading.Proofs.Binary.Lossless
import Shading.Proofs.Binary.Reading
import Shading.Proofs.Binary.RoundTrip
import Shading.Proofs.Binary.Streams
import Shading.Proofs.Binary.Validation
import Shading.Proofs.Files.Keys
import Shading.Proofs.Grammar.Acceptance
import Shading.Proofs.Grammar.Attributes
import Shading.Proofs.Grammar.Building
import Shading.Proofs.Grammar.Children
import Shading.Proofs.Grammar.Concatenation
import Shading.Proofs.Grammar.Containment
import Shading.Proofs.Grammar.Height
import Shading.Proofs.Grammar.Layout
import Shading.Proofs.Grammar.Lexemes
import Shading.Proofs.Grammar.Locality
import Shading.Proofs.Grammar.Measures
import Shading.Proofs.Grammar.Meets
import Shading.Proofs.Grammar.Nesting
import Shading.Proofs.Grammar.Phrases
import Shading.Proofs.Grammar.Places
import Shading.Proofs.Grammar.Precedence
import Shading.Proofs.Grammar.Reads
import Shading.Proofs.Grammar.RoundTrip
import Shading.Proofs.Grammar.Rules
import Shading.Proofs.Grammar.Skipping
import Shading.Proofs.Grammar.Soundness
import Shading.Proofs.Grammar.Statements
import Shading.Proofs.Grammar.Syntax
import Shading.Proofs.Include.Exits
import Shading.Proofs.Include.Options
import Shading.Proofs.Include.Reach
import Shading.Proofs.Include.Reports
import Shading.Proofs.Include.Splice
import Shading.Proofs.Include.Termination
import Shading.Proofs.Lists
import Shading.Proofs.Lower.Blocks
import Shading.Proofs.Lower.Bodies
import Shading.Proofs.Lower.Capabilities
import Shading.Proofs.Lower.History
import Shading.Proofs.Lower.Ids
import Shading.Proofs.Lower.Inventory
import Shading.Proofs.Lower.Names
import Shading.Proofs.Lower.Omissions
import Shading.Proofs.Lower.Options
import Shading.Proofs.Lower.Reachability
import Shading.Proofs.Lower.Reports
import Shading.Proofs.Lower.Sections
import Shading.Proofs.Lower.Sharing
import Shading.Proofs.Lower.Transcript
import Shading.Proofs.Lower.WordCounts
import Shading.Proofs.Message.Caret
import Shading.Proofs.Message.Underline
import Shading.Proofs.Parser.Agreement
import Shading.Proofs.Parser.Follows
import Shading.Proofs.Parser.Progress
import Shading.Proofs.Source.Lookup
import Shading.Proofs.Spirv.Alternatives
import Shading.Proofs.Spirv.Definite
import Shading.Proofs.Spirv.Edits
import Shading.Proofs.Spirv.Framing
import Shading.Proofs.Spirv.Ids
import Shading.Proofs.Spirv.Maximal
import Shading.Proofs.Spirv.Preamble
import Shading.Proofs.Spirv.Requirements
import Shading.Proofs.Spirv.Texts
import Shading.Proofs.Stage.Sites
import Shading.Proofs.Stage.Verdict
import Shading.Proofs.Token.Automaton
import Shading.Proofs.Token.Bytes
import Shading.Proofs.Token.Coverage
import Shading.Proofs.Token.Lexicon
import Shading.Proofs.Token.Lines
import Shading.Proofs.Token.LongestMatch
import Shading.Proofs.Token.Places
import Shading.Proofs.Token.Positions
import Shading.Proofs.Token.Stability
import Shading.Source.CharKind
import Shading.Source.Map
import Shading.Source.Point
import Shading.Spirv.Capability
import Shading.Spirv.Code
import Shading.Spirv.Enumeration
import Shading.Spirv.Module
import Shading.Spirv.Op
import Shading.Spirv.Requirement
import Shading.Stage
import Shading.Text.Quoted
import Shading.Token.Basic
import Shading.Token.Scan
import Shading.Toml.Document
import Shading.Toml.Moment
import Shading.Toml.Number
import Shading.Toml.Quoted
import Shading.Toml.Value
import Shading.Tree.Node
