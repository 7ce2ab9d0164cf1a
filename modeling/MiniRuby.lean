import MiniRuby.Syntax.Outline
import MiniRuby.Main
import MiniRuby.Proofs.Frames
import MiniRuby.Proofs.Jumps
import MiniRuby.Proofs.TypeSafety
import MiniRuby.Proofs.Faults
import MiniRuby.Proofs.Termination
import MiniRuby.Proofs.Incomplete
import MiniRuby.Proofs.Inspect
import MiniRuby.Proofs.Grammar.Moves
import MiniRuby.Proofs.Token.Reads
import MiniRuby.Proofs.Totality
import MiniRuby.Proofs.Grammar.Complete
import MiniRuby.Proofs.Completion
import MiniRuby.Proofs.Evaluator.Locals
import MiniRuby.Proofs.Lines
import MiniRuby.Proofs.Sessions
import MiniRuby.Proofs.Lookup
import MiniRuby.Proofs.Registry
import MiniRuby.Proofs.Located
import MiniRuby.Proofs.Guards
import MiniRuby.Proofs.Loops
import MiniRuby.Proofs.Constants
import MiniRuby.Proofs.Interning
import MiniRuby.Proofs.Grammar.Targets
import MiniRuby.Proofs.Grammar.Operand
import MiniRuby.Proofs.Grammar.Signs
import MiniRuby.Proofs.Grammar.Chains
import MiniRuby.Proofs.Sending
import MiniRuby.Proofs.Token.Partition
import MiniRuby.Proofs.Arithmetic
import MiniRuby.Proofs.IntegerText
import MiniRuby.Proofs.Listing
import MiniRuby.Proofs.Parameters
import MiniRuby.Proofs.Power
import MiniRuby.Proofs.Sequence
import MiniRuby.Proofs.Reflection
import MiniRuby.Proofs.Nesting
import MiniRuby.Proofs.Accessors
import MiniRuby.Proofs.Identity
import MiniRuby.Proofs.Carets
import MiniRuby.Proofs.Rendering
import MiniRuby.Proofs.Dump
import MiniRuby.Proofs.Positions
import MiniRuby.Proofs.Lexical
import MiniRuby.Proofs.Boot
