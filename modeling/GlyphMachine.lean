import GlyphMachine.Opcode.Decode
import GlyphMachine.Program.Parse
import GlyphMachine.Program.Printer
import GlyphMachine.Code.Compile
import GlyphMachine.Code.Printer
import GlyphMachine.Machine.Dispatch
import GlyphMachine.Film
import GlyphMachine.Settings
import GlyphMachine.Main
import GlyphMachine.Stack.Lemmas
import GlyphMachine.Proofs.Blocks
import GlyphMachine.Proofs.Fusion
import GlyphMachine.Proofs.Links
import GlyphMachine.Proofs.Structured
import GlyphMachine.Proofs.Stacks
import GlyphMachine.Proofs.StructuredRuns
import GlyphMachine.Proofs.Literals
import GlyphMachine.Proofs.RoundTrip
import GlyphMachine.Proofs.Passes
import GlyphMachine.Proofs.Sessions
import GlyphMachine.Proofs.VisibleState
import GlyphMachine.Proofs.Quiet
import GlyphMachine.Proofs.Films
import GlyphMachine.Proofs.Commands
import GlyphMachine.Proofs.RenderOrder
import GlyphMachine.Proofs.Visits
import GlyphMachine.Proofs.Windows
import GlyphMachine.Proofs.PassEnds
import GlyphMachine.Proofs.WriteLog
import GlyphMachine.Proofs.Termination
import GlyphMachine.Proofs.AddressSpace
import GlyphMachine.Proofs.NearestOpeners
import GlyphMachine.Proofs.Relocation
import GlyphMachine.Proofs.Expressions
import GlyphMachine.Proofs.Loading
import GlyphMachine.Proofs.MaximalMunch
import GlyphMachine.Proofs.Trails
import GlyphMachine.Proofs.CountedLoops
import GlyphMachine.Proofs.Subroutines
import GlyphMachine.Proofs.FrameFiles
import GlyphMachine.Proofs.Listings
import GlyphMachine.Proofs.Spellings
import GlyphMachine.Proofs.CheckedStacks
import GlyphMachine.Proofs.CheckedRuns
import GlyphMachine.Proofs.FixedPoint
import GlyphMachine.Proofs.StackAlgebra
import GlyphMachine.Proofs.EntryTable
import GlyphMachine.Proofs.Residues
import GlyphMachine.Proofs.FileSystems
