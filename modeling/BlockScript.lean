import BlockScript.Graph.Construction
import BlockScript.Graph.Codec
import BlockScript.Service
import BlockScript.Proofs.Decimal.Digits
import BlockScript.Proofs.Decimal.Plain
import BlockScript.Proofs.Binary64.Rounding
import BlockScript.Proofs.Binary64.Shortest
import BlockScript.Proofs.Json.Quoted
import BlockScript.Proofs.Json.Tokens
import BlockScript.Proofs.Json.Document
import BlockScript.Proofs.Json.Spelling
import BlockScript.Proofs.Json.Variation
import BlockScript.Proofs.Json.Codec
import BlockScript.Proofs.Block.Codec
import BlockScript.Proofs.Configuration.Codec
import BlockScript.Proofs.Graph.Codec
import BlockScript.Proofs.Graph.PreOrder
import BlockScript.Proofs.Graph.Referent
import BlockScript.Proofs.Graph.Chain
import BlockScript.Proofs.Graph.Grammar
import BlockScript.Proofs.Graph.Entered
import BlockScript.Proofs.Graph.Fault
import BlockScript.Proofs.Graph.ClearTexts
import BlockScript.Proofs.Graph.PostOrder
import BlockScript.Proofs.Graph.Turn
import BlockScript.Proofs.Graph.Holds
import BlockScript.Proofs.Graph.Linking
import BlockScript.Proofs.Graph.Building
import BlockScript.Proofs.Numbering.Walk
import BlockScript.Proofs.Numbering.Program
import BlockScript.Proofs.Numbering.Turns
import BlockScript.Proofs.Numbering.Forward
import BlockScript.Proofs.Numbering.Sequence
import BlockScript.Proofs.Numbering.RootOrder
import BlockScript.Proofs.Numbering.Building
import BlockScript.Proofs.Script.Names
import BlockScript.Proofs.Script.Blocks
import BlockScript.Proofs.Script.Zones
import BlockScript.Proofs.Script.ClearTexts
import BlockScript.Proofs.Script.Comments
import BlockScript.Proofs.Script.CallRecords
import BlockScript.Proofs.Script.Indentation
import BlockScript.Proofs.Emission.Sequence
import BlockScript.Proofs.Emission.Equations
import BlockScript.Proofs.Emission.Lines
import BlockScript.Proofs.Emission.Numbers
import BlockScript.Proofs.Emission.Acceptance
import BlockScript.Proofs.Emission.Renaming
import BlockScript.Proofs.Emission.Sites
import BlockScript.Proofs.Emission.Layout
import BlockScript.Proofs.Emission.Binding
import BlockScript.Proofs.Emission.Regular
import BlockScript.Proofs.Emission.Advance
import BlockScript.Proofs.Emission.ClearTexts
import BlockScript.Proofs.Emission.Indentation
import BlockScript.Proofs.Emission.Evaluation
import BlockScript.Proofs.Emission.Options
import BlockScript.Proofs.Emission.Traces
import BlockScript.Proofs.Emission.CallRecords
import BlockScript.Proofs.Emission.Guards
import BlockScript.Proofs.Emission.Repeats
import BlockScript.Proofs.Emission.Globals
import BlockScript.Proofs.Script.Skeleton
import BlockScript.Proofs.Script.Marks
import BlockScript.Proofs.Graph.Skeleton
import BlockScript.Proofs.Emission.Skeleton
import BlockScript.Proofs.Emission.Handlers
import BlockScript.Proofs.Request.Answer
import BlockScript.Proofs.Request.Acceptance
import BlockScript.Proofs.Request.Renaming
import BlockScript.Proofs.Request.Binding
import BlockScript.Proofs.Request.Faults
import BlockScript.Proofs.Request.Termination
import BlockScript.Proofs.Request.ClearTexts
import BlockScript.Proofs.Request.Indentation
import BlockScript.Proofs.Request.Options
import BlockScript.Proofs.Request.CallRecords
import BlockScript.Proofs.Request.Comments
import BlockScript.Proofs.Request.Repeats
import BlockScript.Proofs.Request.RootOrder
import BlockScript.Proofs.Numbering.Names
import BlockScript.Proofs.Graph.Renaming
import BlockScript.Proofs.Numbering.Renaming
import BlockScript.Proofs.FileTree.Walk
import BlockScript.Proofs.FileTree.Paths
import BlockScript.Proofs.FileTree.Writing
import BlockScript.Proofs.Compiler.Run
import BlockScript.Proofs.Service.Sequential
import BlockScript.Proofs.Service.Abandonment
import BlockScript.Proofs.Text.Quoted
