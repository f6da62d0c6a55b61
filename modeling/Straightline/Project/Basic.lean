import Straightline.Project.Compiling
import Straightline.Project.Declaring

/-!
# Projects and their units

A project grows by units of source. A unit is taken in two phases: first all its declarations, then
the bodies of its functions, methods before the others. The second phase comes back to each body by the
name of its function, and takes the offset at which it resumes out of the record.

A unit that fails is undone. Both phases only ever add to the tables of the project and of the
module under construction, so cutting the tables back to where they were is enough.
-/

set_option autoImplicit false

namespace Straightline

/-- A named source text. -/
structure SourceUnit where
  name : String
  bytes : List UInt8
deriving DecidableEq, Repr

/-- What has been declared so far, and the module that holds its code. -/
structure Project where
  name : String
  declarations : Declarations := {}
  builder : IR.Builder
deriving DecidableEq, Repr

namespace Declare

/-- Compiles a body from the cursor on, with the names that are declared by now. -/
def compile {α : Type} (pass : Compile α) : Declare α := fun s =>
  match pass ⟨⟨s.builder, s.log⟩, s.cursor⟩ with
  | .ok value t =>
    .ok value { s with cursor := t.cursor, builder := t.builder, log := t.log }
  | .error fault t =>
    .error ⟨fault, t.cursor.offset⟩ { s with cursor := t.cursor, builder := t.builder, log := t.log }

/-- Takes the body of `name` out of its record, if it is still there. -/
def takeBody (name : CallableName) : Declare (Option PendingBody) := fun s =>
  .ok (s.declarations.pendingBody? name) { s with declarations := s.declarations.withoutResume name }

/-- Goes back to where the body of `name` resumes and compiles it. A body that was taken before is
passed over. -/
def compileNext (source : List UInt8) (name : CallableName) : Declare Unit := do
  match ← takeBody name with
  | none => return ()
  | some body =>
    report (.bodyStarted body.name body.resume)
    modify fun s => { s with cursor := .seek source body.resume }
    compile ((← declarations).compileBody body)

/-- The second phase: compiles the bodies that were put off. -/
def compileBodies (source : List UInt8) (pending : Pending) : Declare Unit := do
  report (.bodiesStarted pending.methods.length pending.functions.length)
  pending.names.forM (compileNext source)

/-- Takes both phases of a unit. -/
def takeUnit (source : List UInt8) : Declare Unit := do
  compileBodies source (← declareAll)

end Declare

namespace Project

/-- An empty project. -/
def start (name : String) : Project := { name, builder := IR.Builder.start name }

/-- What became of a unit: its events, and the project with or without it. -/
structure Outcome where
  result : Except Refusal Unit
  log : List Event
  project : Project

/-- The state in which the declarations of a unit begin to be taken. -/
def opening (p : Project) (unit : SourceUnit) : Declaring where
  cursor := .start unit.bytes
  declarations := p.declarations
  builder := p.builder
  log := [.unitStarted p.name unit.name unit.bytes.length]

/-- Takes both phases of a unit. The project they leave is kept, complete or not. -/
def takeUnit (p : Project) (unit : SourceUnit) : Outcome :=
  let after := fun s : Declaring => { p with declarations := s.declarations, builder := s.builder }
  match Declare.takeUnit unit.bytes (p.opening unit) with
  | .error refusal s => ⟨.error refusal, s.log, after s⟩
  | .ok () s => ⟨.ok (), s.log, after s⟩

/-- Cuts the project back to where `earlier` was. -/
def rollback (p earlier : Project) : Project :=
  { p with
    declarations := p.declarations.truncate earlier.declarations.counts
    builder := p.builder.rollback earlier.builder.checkpoint }

/-- Compiles a unit. If it is refused, what it declared is taken back. -/
def compileUnit (p : Project) (unit : SourceUnit) : Outcome :=
  let outcome := p.takeUnit unit
  match outcome.result with
  | .ok () => outcome
  | .error refusal =>
    { outcome with
      log := outcome.log ++ [.unitRolledBack unit.name refusal.fault]
      project := outcome.project.rollback p }

end Project

end Straightline
