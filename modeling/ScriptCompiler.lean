import ScriptCompiler.Program
import ScriptCompiler.Tree.Equality
import ScriptCompiler.Tree.Json
import ScriptCompiler.Proofs.Resolution
import ScriptCompiler.Proofs.Assembly
import ScriptCompiler.Proofs.Interning
import ScriptCompiler.Proofs.Routine
import ScriptCompiler.Proofs.Plan
import ScriptCompiler.Proofs.Segment
import ScriptCompiler.Proofs.Emission
import ScriptCompiler.Proofs.Discipline
import ScriptCompiler.Proofs.Pending
import ScriptCompiler.Proofs.Context
import ScriptCompiler.Proofs.Performance
import ScriptCompiler.Proofs.Declaring
import ScriptCompiler.Proofs.Recording
import ScriptCompiler.Proofs.Carrying
import ScriptCompiler.Proofs.Generation
import ScriptCompiler.Proofs.Compilation
import ScriptCompiler.Proofs.ClosedCode
import ScriptCompiler.Proofs.Bounds
import ScriptCompiler.Proofs.StackHeight
import ScriptCompiler.Proofs.Addressing
import ScriptCompiler.Proofs.Evaluation
import ScriptCompiler.Proofs.Decoding
import ScriptCompiler.Proofs.Location
import ScriptCompiler.Proofs.Expressions
import ScriptCompiler.Proofs.Statements
import ScriptCompiler.Proofs.Meaning
import ScriptCompiler.Proofs.BinaryForm
import ScriptCompiler.Proofs.Site
import ScriptCompiler.Proofs.Entries
import ScriptCompiler.Proofs.Labels
import ScriptCompiler.Proofs.Grammar
import ScriptCompiler.Proofs.Acceptance
import ScriptCompiler.Proofs.Nesting
import ScriptCompiler.Proofs.StringTable
import ScriptCompiler.Proofs.Closures
import ScriptCompiler.Proofs.Cutoff
import ScriptCompiler.Proofs.Simulation
import ScriptCompiler.Proofs.Levels
import ScriptCompiler.Proofs.Renaming
import ScriptCompiler.Proofs.Truncation
import ScriptCompiler.Proofs.Disassembly
import ScriptCompiler.Proofs.UniqueLabels
import ScriptCompiler.Proofs.Hoisting
import ScriptCompiler.Proofs.Restoration
import ScriptCompiler.Proofs.Scoping
import ScriptCompiler.Proofs.Sectioning
import ScriptCompiler.Proofs.Pooling
import ScriptCompiler.Proofs.Flattening
import ScriptCompiler.Proofs.WrittenForm
