import LambdaStack.Token.Basic
import LambdaStack.Token.Scan
import LambdaStack.Token.Source
import LambdaStack.Term.Graph
import LambdaStack.Term.Rendering
import LambdaStack.Program.Symbols
import LambdaStack.Program.Instruction
import LambdaStack.Program.Basic
import LambdaStack.Automaton.Stack
import LambdaStack.Automaton.Tables
import LambdaStack.Automaton.Run
import LambdaStack.Automaton.Transcript
import LambdaStack.Grammar.Tables
import LambdaStack.Grammar.Meaning
import LambdaStack.Grammar.Reading
import LambdaStack.Bytecode.Command
import LambdaStack.Bytecode.Decode
import LambdaStack.Bytecode.Names
import LambdaStack.Bytecode.Lowering
import LambdaStack.Log
import LambdaStack.Cluster.JoinClass
import LambdaStack.Cluster.Basic
import LambdaStack.Session.Paint
import LambdaStack.Session.Block
import LambdaStack.Session.Input
import LambdaStack.Session.Basic
import LambdaStack.Main
import LambdaStack.Proofs.Derivation
import LambdaStack.Proofs.Items
import LambdaStack.Proofs.Trace
import LambdaStack.Proofs.Watching
import LambdaStack.Proofs.StackPath
import LambdaStack.Proofs.Phrase
import LambdaStack.Proofs.Walk
import LambdaStack.Proofs.Halting
import LambdaStack.Proofs.Recognition
import LambdaStack.Proofs.WellFormed
import LambdaStack.Proofs.Reachable
import LambdaStack.Proofs.Descent
import LambdaStack.Proofs.Elaboration
import LambdaStack.Proofs.Locality
import LambdaStack.Proofs.ViablePrefix
import LambdaStack.Proofs.Blame
import LambdaStack.Proofs.Typing
import LambdaStack.Proofs.Uses
import LambdaStack.Proofs.Scope
import LambdaStack.Proofs.Undefined
import LambdaStack.Proofs.Bindings
import LambdaStack.Proofs.Functions
import LambdaStack.Proofs.Marker
import LambdaStack.Proofs.Script
import LambdaStack.Proofs.Budget
import LambdaStack.Proofs.Joining
import LambdaStack.Proofs.Resumption
import LambdaStack.Proofs.Unfolding
import LambdaStack.Proofs.RoundTrip
import LambdaStack.Proofs.Tiling
import LambdaStack.Proofs.Range
import LambdaStack.Proofs.Spelling
import LambdaStack.Proofs.Capacity
import LambdaStack.Proofs.Growth
import LambdaStack.Proofs.Shown
import LambdaStack.Proofs.Conservation
import LambdaStack.Proofs.Renaming
import LambdaStack.Proofs.Restart
import LambdaStack.Proofs.InPlace
import LambdaStack.Proofs.Extension
import LambdaStack.Proofs.Batches
import LambdaStack.Proofs.Interning
import LambdaStack.Proofs.Decoding
import LambdaStack.Proofs.QuietSpell
import LambdaStack.Proofs.Positions
import LambdaStack.Proofs.Recovery
import LambdaStack.Proofs.Spacing
import LambdaStack.Proofs.WorkList
import LambdaStack.Proofs.Lookups
import LambdaStack.Proofs.Register
import LambdaStack.Proofs.Columns
