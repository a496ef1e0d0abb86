import ScriptCompiler.Config
import ScriptCompiler.Generator.Code
import ScriptCompiler.Image

/-!
# Compiling a program

## Main definitions

* `Program.generate`: the state of code generation after a whole program
* `Program.compile`: the image of a program
* `Program.compileEach`: the images of several programs
-/

namespace ScriptCompiler

namespace Program

/-- Code generation for a whole program, whose top level is the section numbered zero. -/
def generator (limit : Nat) (program : Program) : Generator SectionId :=
  Generator.inSection do
    Generator.declareAll limit program.body
    Generator.bindAll limit [] 0 program.body
    Generator.statements limit [] 0 program.body
    Generator.emitEnd

/-- The state of code generation after a whole program. -/
def generate (limit : Nat) (program : Program) : Except CompileError State :=
  (·.2) <$> (program.generator limit).run {}

/-- **The image of a program**, or why it has none. -/
def compile (config : Config) (program : Program) : Except CompileError Image := do
  let state ← program.generate config.maxDepth
  let sections ← state.sections.finish.mapError .unresolvedLabel
  return { sections, strings := state.strings.toList }

/-- The images of several programs, each compiled by itself. -/
def compileEach (config : Config) (programs : List Program) : List (Except CompileError Image) :=
  programs.map (compile config)

end Program

end ScriptCompiler
