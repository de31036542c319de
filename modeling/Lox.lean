import Lox.Text
import Lox.Text.Printable
import Lox.Text.Quoted
import Lox.Number
import Lox.Number.Decimal
import Lox.Number.Shortest
import Lox.Token
import Lox.Diagnostic
import Lox.Token.Chunk
import Lox.Token.Scan
import Lox.Tree
import Lox.Tree.Printed
import Lox.Tree.Cursor
import Lox.Tree.Expression
import Lox.Tree.Program
import Lox.Table
import Lox.Tree.References
import Lox.Binding
import Lox.Value
import Lox.Heap.Forest
import Lox.Heap
import Lox.Native
import Lox.Log
import Lox.RuntimeError
import Lox.Machine
import Lox.Machine.Step
import Lox.Console
import Lox.Session
import Lox.Text.Integer
import Lox.Text.Control
import Lox.File
import Lox.Text.Base64
import Lox.Yaml.Source
import Lox.Yaml.Malformed
import Lox.Yaml.Folding
import Lox.Yaml.Scalar
import Lox.Yaml.Token
import Lox.Yaml.Stream
import Lox.Yaml.Node
import Lox.Yaml.Timestamp
import Lox.Yaml.Meaning
import Lox.Settings.Field
import Lox.Settings.Problem
import Lox.Settings.Document
import Lox.Settings
import Lox.Tree.Dumped
import Lox.Command.Flags
import Lox.Command.Help
import Lox.Command.History
import Lox.Command
import Lox.Main
import Lox.Proofs.Characters
import Lox.Proofs.Rounding
import Lox.Proofs.LexicalGrammar
import Lox.Proofs.Chunks
import Lox.Proofs.Scanning
import Lox.Proofs.Grammar
import Lox.Proofs.Production
import Lox.Proofs.ExpressionReading
import Lox.Proofs.ExpressionAccepted
import Lox.Proofs.ProgramReading
import Lox.Proofs.ProgramAccepted
import Lox.Proofs.ReferenceSites
import Lox.Proofs.Walk
import Lox.Proofs.Resolution
import Lox.Proofs.Frames
import Lox.Proofs.SoundHeap
import Lox.Proofs.SoundStore
import Lox.Proofs.SoundMachine
import Lox.Proofs.SoundSession
import Lox.Proofs.Renaming
import Lox.Proofs.DepthLimit
import Lox.Proofs.Verdict
import Lox.Proofs.Pieces
import Lox.Proofs.BoundMethods
import Lox.Proofs.LocalNames
import Lox.Proofs.Origins
import Lox.Proofs.Traces
import Lox.Proofs.Restoration
import Lox.Proofs.Chains
import Lox.Proofs.Misuses
import Lox.Proofs.CallLog
import Lox.Proofs.LexicalDistances
import Lox.Proofs.LookupByName
import Lox.Proofs.ScopeNames
import Lox.Proofs.SideBySide
import Lox.Proofs.Confinement
import Lox.Proofs.OnDemand
import Lox.Proofs.QuotedText
import Lox.Proofs.Shapes
import Lox.Proofs.ShortestDecimal
import Lox.Proofs.Spelling
import Lox.Proofs.PrintedTrees
import Lox.Proofs.Relocation
import Lox.Proofs.DirectBinding
import Lox.Proofs.MirroredHeap
import Lox.Proofs.ThinnedHeap
import Lox.Proofs.ThinnedStore
import Lox.Proofs.ThinnedRun
import Lox.Proofs.DirectLoop
import Lox.Proofs.ForLoops
import Lox.Proofs.ForestUpdates
import Lox.Proofs.Attributes
import Lox.Proofs.Spacing
import Lox.Proofs.NumberLiterals
import Lox.Proofs.Hierarchy
import Lox.Proofs.Construction
import Lox.Proofs.ScopeStack
import Lox.Proofs.Places
