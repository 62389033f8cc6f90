import Scriptlet.Ast.Parser
import Scriptlet.Ast.Printer
import Scriptlet.Bytecode.Listing
import Scriptlet.Compilation
import Scriptlet.Evaluation
import Scriptlet.Machine
import Scriptlet.Token.Reader
import Scriptlet.Proofs.Layout
import Scriptlet.Proofs.Layout.Bytes
import Scriptlet.Proofs.Layout.Emission
import Scriptlet.Proofs.Layout.Patching
import Scriptlet.Proofs.Symbols
import Scriptlet.Proofs.Layout.Compiled
import Scriptlet.Proofs.Symbols.Bounds
import Scriptlet.Proofs.Symbols.Scopes
import Scriptlet.Proofs.Symbols.Scoping
import Scriptlet.Proofs.Layout.Decoding
import Scriptlet.Proofs.Alignment
import Scriptlet.Proofs.Layout.Reach
import Scriptlet.Proofs.Depth.Typed
import Scriptlet.Proofs.Values
import Scriptlet.Proofs.Machine.Perform
import Scriptlet.Proofs.Machine.Effects
import Scriptlet.Proofs.Depth.Flow
import Scriptlet.Proofs.Depth.Maps
import Scriptlet.Proofs.Machine.Invariant
import Scriptlet.Proofs.Machine.Preservation
import Scriptlet.Proofs.Safety
import Scriptlet.Proofs.Agreement
import Scriptlet.Proofs.Balance
import Scriptlet.Proofs.Residue
import Scriptlet.Proofs.WellFormed
import Scriptlet.Proofs.Variables
import Scriptlet.Proofs.WellFormed.Instructions
import Scriptlet.Proofs.Syntax
import Scriptlet.Proofs.Syntax.Terse
import Scriptlet.Proofs.Symbols.Globals
import Scriptlet.Proofs.Jumps.Stray
import Scriptlet.Proofs.Jumps.Evaluated
import Scriptlet.Proofs.Jumps
import Scriptlet.Proofs.Sessions.Kept
import Scriptlet.Proofs.Sessions.Compiled
import Scriptlet.Proofs.Sessions
import Scriptlet.Proofs.Symbols.Tables
import Scriptlet.Proofs.Symbols.Slots
import Scriptlet.Proofs.Names.Labels
import Scriptlet.Proofs.Names.Occurrences
import Scriptlet.Proofs.Names.Echo
import Scriptlet.Proofs.Depth.Starts
import Scriptlet.Proofs.Names.Sources
import Scriptlet.Proofs.Names.Calls
import Scriptlet.Proofs.Names
import Scriptlet.Proofs.Syntax.Spelling
import Scriptlet.Proofs.Syntax.Positions
import Scriptlet.Proofs.Layout.Listing
import Scriptlet.Proofs.Syntax.Progress
import Scriptlet.Proofs.Scopes.Forest
import Scriptlet.Proofs.Hashes
import Scriptlet.Proofs.Arithmetic
import Scriptlet.Proofs.Sequences
import Scriptlet.Proofs.Evaluation.Recording
import Scriptlet.Proofs.Machine.Values
import Scriptlet.Proofs.CallDepth
import Scriptlet.Proofs.Evaluation.Parts
import Scriptlet.Proofs.Sessions.Evaluated
import Scriptlet.Proofs.Machine.Literals
import Scriptlet.Proofs.Identity
