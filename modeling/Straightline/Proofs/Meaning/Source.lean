import Straightline.Project.Declarations
import Straightline.Proofs.Trees.Body
import Straightline.Ty.Literal

/-!
# What programs mean

Bodies are evaluated as they were read, without instructions, addresses or slots. A binding holds its
value, so that binding, passing and returning a struct copies it, and an assignment changes nothing but
the binding that the name stands for. The value of a model is a reference, and its contents are in the
store, as those of globals are.

An evaluation that comes to no result tells why: calls were nested too deep, or a value is not what its
place calls for. The latter is what a body that was accepted can only come to by arguments or contents
that are not of their types.
-/

set_option autoImplicit false

namespace Straightline.Meaning

/-- Why there is no result. -/
inductive Stop where
  /-- Calls are nested deeper than is allowed. -/
  | depth
  /-- A value is not what its place calls for. -/
  | stuck
deriving DecidableEq, Repr

section Stopping

variable {σ α β : Type}

def stuck : EStateM Stop σ α := throw .stuck

/-- What is there, if it is. -/
def known : Option α → EStateM Stop σ α
  | some a => pure a
  | none => stuck

theorem known_bind (a : α) (k : α → EStateM Stop σ β) : (known (some a) >>= k) = k a := rfl

end Stopping

/-! ## Values -/

/-- Which model: the contents of a global, or one of those that were made by running. -/
inductive Ref where
  | global (index : Nat)
  | made (index : Nat)
deriving DecidableEq, Repr

inductive Value where
  | int (value : Int)
  | struct (fields : List Value)
  | model (ref : Ref)
deriving Repr

namespace Value

mutual

def decEq : (a b : Value) → Decidable (a = b)
  | .int m, .int n => if h : m = n then .isTrue (by rw [h]) else .isFalse (by simp [h])
  | .model r, .model r' => if h : r = r' then .isTrue (by rw [h]) else .isFalse (by simp [h])
  | .struct as, .struct bs =>
    match decEqList as bs with
    | .isTrue h => .isTrue (by rw [h])
    | .isFalse h => .isFalse (by simp [h])
  | .int _, .struct _ | .int _, .model _ | .struct _, .int _ | .struct _, .model _ | .model _, .int _
  | .model _, .struct _ => .isFalse (by simp)

def decEqList : (as bs : List Value) → Decidable (as = bs)
  | [], [] => .isTrue rfl
  | [], _ :: _ | _ :: _, [] => .isFalse (by simp)
  | a :: as, b :: bs =>
    match decEq a b with
    | .isTrue h =>
      match decEqList as bs with
      | .isTrue hs => .isTrue (by rw [h, hs])
      | .isFalse hs => .isFalse (by simp [hs])
    | .isFalse h => .isFalse (by simp [h])

end

instance : DecidableEq Value := decEq

/-- Field `index` of a struct. -/
def field? : Value → Nat → Option Value
  | struct fields, index => fields[index]?
  | _, _ => none

/-- A struct with another value in field `index`, which has to be there. -/
def setField? : Value → Nat → Value → Option Value
  | struct fields, index, value =>
    if index < fields.length then some (struct (fields.set index value)) else none
  | _, _, _ => none

end Value

/-- The contents of the globals and of the models made so far. -/
structure Store where
  globals : List Value
  models : List Value
deriving DecidableEq, Repr

namespace Store

def read? (s : Store) : Ref → Option Value
  | .global index => s.globals[index]?
  | .made index => s.models[index]?

def set (s : Store) (value : Value) : Ref → Store
  | .global index => { s with globals := s.globals.set index value }
  | .made index => { s with models := s.models.set index value }

end Store

abbrev Run := EStateM Stop Store

def read (ref : Ref) : Run Value := do
  let s ← get
  known (s.read? ref)

/-- Replaces contents that are there. -/
def write (ref : Ref) (value : Value) : Run Unit := do
  discard <| read ref
  modify fun s => s.set value ref

/-- A new model with these contents. -/
def make (contents : Value) : Run Value := fun s =>
  .ok (.model (.made s.models.length)) { s with models := s.models ++ [contents] }

/-! ## Names -/

/-- A name with its type and what it holds. -/
structure Local where
  name : String
  ty : Ty
  value : Value
deriving Repr

/-- The bindings of an activation, newest first. -/
abbrev Locals := List Local

namespace Locals

/-- The binding that `name` stands for. -/
def lookup (locals : Locals) (name : String) : Option Local :=
  locals.find? fun l => l.name == name

/-- Gives the binding that `name` stands for another value. -/
def assign (locals : Locals) (name : String) (value : Value) : Locals :=
  match locals with
  | [] => []
  | l :: rest => if l.name == name then { l with value } :: rest else l :: assign rest name value

/-- Binds parameters to arguments, later ones over earlier ones. There have to be as many. -/
def enter : Locals → List (String × Ty) → List Value → Option Locals
  | locals, [], [] => some locals
  | locals, (name, ty) :: parameters, value :: args =>
    enter (⟨name, ty, value⟩ :: locals) parameters args
  | _, _, _ => none

theorem lookup_cons (l : Local) (locals : Locals) (name : String) :
    Locals.lookup (l :: locals) name
      = if l.name = name then some l else locals.lookup name := by
  unfold lookup
  rw [List.find?_cons]
  by_cases h : l.name = name
  · rw [if_pos h, beq_iff_eq.mpr h]
  · rw [if_neg h, beq_false_of_ne h]

theorem lookup_assign (locals : Locals) (name name' : String) (value : Value) :
    (locals.assign name value).lookup name'
      = if name = name' then (locals.lookup name).map fun l => { l with value }
        else locals.lookup name' := by
  induction locals with
  | nil => simp [assign, lookup]
  | cons l rest ih =>
    unfold assign
    by_cases hl : l.name = name
    · subst hl
      rw [if_pos BEq.rfl, lookup_cons, lookup_cons, lookup_cons, if_pos rfl]
      by_cases hname : l.name = name'
      · rw [if_pos hname, if_pos hname]
        rfl
      · rw [if_neg hname, if_neg hname, if_neg hname]
    · have hne : (l.name == name) = false := beq_false_of_ne hl
      simp only [hne, Bool.false_eq_true, if_false]
      rw [lookup_cons, ih, lookup_cons, lookup_cons, if_neg hl]
      by_cases hl' : l.name = name'
      · have hname : name ≠ name' := fun h => hl (hl'.trans h.symm)
        rw [if_pos hl', if_neg hname, if_pos hl']
      · rw [if_neg hl', if_neg hl']

theorem name_of_lookup {locals : Locals} {name : String} {l : Local}
    (h : locals.lookup name = some l) : l.name = name := by
  unfold lookup at h
  simpa using List.find?_some h

end Locals

/-- What a name stands for. -/
inductive Place where
  /-- A binding that holds this value. -/
  | held (value : Value)
  | global (index : Nat)
deriving Repr

/-- A binding comes before a global of the same name. -/
def place? (names : Declarations) (locals : Locals) (name : String) : Option (Ty × Place) :=
  match locals.lookup name with
  | some l => some (l.ty, .held l.value)
  | none => do
    let index ← names.globals.indexOf? name
    let entry ← names.globals.entries[index]?
    return (entry.2.ty, .global index)

/-- A name that is not bound stands for the global that it is found to be. -/
theorem place?_of_find? {names : Declarations} {locals : Locals} {name : String}
    {record : GlobalRecord} (hfree : locals.lookup name = none)
    (hfind : names.globals.find? name = some record) :
    ∃ index, names.globals.entries[index]? = some (name, record) ∧
      place? names locals name = some (record.ty, .global index) := by
  unfold SymbolTable.find? at hfind
  obtain ⟨entry, hfound, rfl⟩ := Option.map_eq_some_iff.mp hfind
  have hname : entry.1 = name := by simpa using List.find?_some hfound
  rw [List.find?_eq_bind_findIdx?_getElem?] at hfound
  obtain ⟨index, hindex, hentry⟩ := Option.bind_eq_some_iff.mp hfound
  refine ⟨index, hname ▸ hentry, ?_⟩
  unfold place? SymbolTable.indexOf?
  rw [hfree, hindex]
  simp only [Option.bind_eq_bind, Option.bind_some, hentry]
  rfl

/-- The value of a place of type `ty`: a model is a reference, everything else a copy. -/
def Place.value (ty : Ty) : Place → Run Value
  | held value => pure value
  | global index =>
    match ty.passing with
    | .byValue => read (.global index)
    | .byAddress => pure (.model (.global index))

/-- The model that a value refers to. -/
def target : Value → Run Ref
  | .model ref => pure ref
  | _ => stuck

/-- The fields of a place of type `ty`, those of a model being its contents. -/
def Place.fields (ty : Ty) (place : Place) : Run Value := do
  let value ← place.value ty
  match ty.passing with
  | .byValue => return value
  | .byAddress =>
    let ref ← target value
    read ref

/-! ## Terms -/

/-- What calls do. A function is known by its number. -/
abbrev Calls := IR.FunctionId → List Value → Run (Option Value)

/-- A value of the aggregate `ty`. -/
def construct (ty : Ty) (fields : List Value) : Run Value :=
  match ty.passing with
  | .byValue => pure (.struct fields)
  | .byAddress => make (.struct fields)

/-- The width of a value of the type. -/
def width : Ty → Nat
  | .primitive p => p.bits
  | .aggregate .. => 0

def apply : Operator → Int → Int → Int
  | .add, a, b => a + b
  | .sub, a, b => a - b

/-- An operation on two's complement numbers of the width of `ty`. -/
def combine (ty : Ty) (operator : Operator) : Value → Value → Run Value
  | .int a, .int b => pure (.int ((apply operator a b).bmod (Nat.pow 2 (width ty))))
  | _, _ => stuck

section Terms

variable (names : Declarations) (calls : Calls) (locals : Locals)

def callFunction (callee : String) (arguments : List Ty → Run (List Value)) :
    Run (Option Value) := do
  let record ← known (names.functions.find? callee)
  let args ← arguments record.signature.argumentTypes
  calls record.function args

/-- Calls a method of what `target` stands for, which is evaluated before the arguments. -/
def callMethod (target member : String) (arguments : List Ty → Run (List Value)) :
    Run (Option Value) := do
  let (ty, place) ← known (place? names locals target)
  let record ← known (names.methods.find? (Declarations.methodKey ty member))
  let receiver ← place.value ty
  let args ← arguments record.signature.argumentTypes
  calls record.function (receiver :: args)

/-- A word in a place that calls for a value of type `expected`. -/
def evalWord (expected : Ty) (text : String) : Run Value :=
  match expected.literal? text with
  | some value => pure (.int value)
  | none => do
    let (ty, place) ← known (place? names locals text)
    place.value ty

def evalField (target member : String) : Run Value := do
  let (ty, place) ← known (place? names locals target)
  let (index, _) ← known (ty.field? member)
  let fields ← place.fields ty
  known (fields.field? index)

mutual

def evalTerm (expected : Ty) : Term → Run Value
  | .word text _ => evalWord names locals expected text
  | .field target member _ => evalField names locals target member
  | .call callee _ arguments _ =>
    match names.types.find? callee with
    | some ty => do
      let fields ← evalArguments ty.fieldTypes arguments
      construct ty fields
    | none => do
      let result ← callFunction names calls callee fun types => evalArguments types arguments
      known result
  | .methodCall target member _ arguments _ => do
    let result ←
      callMethod names calls locals target member fun types => evalArguments types arguments
    known result

/-- The steps of an expression, folded from the left into `value`. -/
def evalSteps (expected : Ty) (value : Value) : List Step → Run Value
  | [] => pure value
  | .mk operator _ operand :: rest => do
    let right ← evalTerm expected operand
    let result ← combine expected operator value right
    evalSteps expected result rest

def evalExpression (expected : Ty) : Expression → Run Value
  | .mk first steps _ => do
    let value ← evalTerm expected first
    evalSteps expected value steps

/-- Arguments from left to right. -/
def evalArguments : List Ty → List Argument → Run (List Value)
  | [], [] => pure []
  | ty :: types, .mk _ _ value :: rest => do
    let first ← evalExpression ty value
    let others ← evalArguments types rest
    return first :: others
  | _, _ => stuck

end

end Terms

/-! ## Statements -/

/-- How a statement ends: with the bindings for the next one, or with what the body returns. -/
inductive Flow where
  | next (locals : Locals)
  | returned (value : Option Value)
deriving Repr

section Statements

variable (names : Declarations) (calls : Calls) (result : Ty) (locals : Locals)

/-- Assigns to a name. A global model is not assigned to. -/
def evalAssign (name : String) (value : Expression) : Run Locals := do
  let (ty, place) ← known (place? names locals name)
  let value ← evalExpression names calls locals ty value
  match place with
  | .held _ => return locals.assign name value
  | .global index =>
    match ty.passing with
    | .byValue =>
      write (.global index) value
      return locals
    | .byAddress => stuck

/-- Changes field `index` of contents. -/
def writeField (ref : Ref) (index : Nat) (value : Value) : Run Unit := do
  let contents ← read ref
  let contents ← known (contents.setField? index value)
  write ref contents

/-- Assigns to a field. Which model it is of is found before the value is evaluated. -/
def evalAssignField (name member : String) (value : Expression) : Run Locals := do
  let (ty, place) ← known (place? names locals name)
  let (index, fieldTy) ← known (ty.field? member)
  match ty.passing with
  | .byAddress =>
    let model ← place.value ty
    let value ← evalExpression names calls locals fieldTy value
    let ref ← target model
    writeField ref index value
    return locals
  | .byValue =>
    let value ← evalExpression names calls locals fieldTy value
    match place with
    | .held fields =>
      let fields ← known (fields.setField? index value)
      return locals.assign name fields
    | .global global =>
      writeField (.global global) index value
      return locals

/-- Returns. Where nothing is returned, a value that is given is not evaluated. -/
def evalReturn (value : Option Expression) : Run (Option Value) :=
  match result.isVoid, value with
  | true, _ => pure none
  | false, none => stuck
  | false, some value => do
    let value ← evalExpression names calls locals result value
    return some value

def evalStatement : Statement → Run Flow
  | .ret value _ => do
    let value ← evalReturn names calls result locals value
    return .returned value
  | .cond .. => stuck
  | .call callee _ arguments _ => do
    discard <| callFunction names calls callee fun types =>
      evalArguments names calls locals types arguments
    return .next locals
  | .methodCall target member _ arguments _ => do
    discard <| callMethod names calls locals target member fun types =>
      evalArguments names calls locals types arguments
    return .next locals
  | .assignField target member _ value => do
    let locals ← evalAssignField names calls locals target member value
    return .next locals
  | .declare name typeName _ value =>
    match Ty.resolve names.types typeName with
    | .ok ty => do
      -- The name is not yet bound in its own initializer.
      let value ← evalExpression names calls locals ty value
      return .next (⟨name, ty, value⟩ :: locals)
    | .error _ => stuck
  | .assign name _ value => do
    let locals ← evalAssign names calls locals name value
    return .next locals

/-- Statements in order, up to the one that returns. -/
def evalLines : Locals → List Line → Run (Option Value)
  | _, [] => stuck
  | locals, .mk _ statement :: rest => do
    let flow ← evalStatement names calls result locals statement
    match flow with
    | .next locals => evalLines locals rest
    | .returned value => return value

end Statements

/-! ## Programs -/

/-- A function as it was written, with the names that it can refer to. -/
structure Definition where
  function : IR.FunctionId
  names : Declarations
  parameters : List (String × Ty)
  result : Ty
  body : List Line

/-- Evaluates a function on arguments. -/
def Definition.evaluate (d : Definition) (calls : Calls) (args : List Value) :
    Run (Option Value) := do
  let locals ← known (Locals.enter [] d.parameters args)
  evalLines d.names calls d.result locals d.body

abbrev Program := List Definition

namespace Program

def find? (program : Program) (id : IR.FunctionId) : Option Definition :=
  List.find? (fun d => d.function == id) program

/-- Calls a function, with calls nested less than `depth` deep. -/
def callWithin (program : Program) : (depth : Nat) → Calls
  | 0, _, _ => throw .depth
  | depth + 1, id, args => do
    let d ← known (program.find? id)
    d.evaluate (callWithin program depth) args

end Program

end Straightline.Meaning
