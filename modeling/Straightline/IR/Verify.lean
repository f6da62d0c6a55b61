import Straightline.IR.Builder

/-!
# Checking a module

A module passes if nothing went wrong while it was built, every global holds a constant of its type,
and every function has a body whose blocks end in their only return and whose instructions use
values of the types they call for. The first defect is reported, in the order of the module.

Whether the handle of a value is one of the function that uses it is not checked.
-/

set_option autoImplicit false

namespace Straightline.IR

/-- Requires that a value found to be of one type is of another. -/
def expectType (found expected : IRType) (what : String) : Except Problem Unit :=
  if found = expected then .ok () else .error (.unexpectedType what expected found)

/-- Requires each of `values` to be of the type at its place. -/
def expectTypes (what : String) (expected : List IRType) (values : List Value) :
    Except Problem Unit :=
  (expected.zip values).forM fun pair => expectType pair.2.ty pair.1 what

namespace Module

mutual

/-- Requires `constant` to be a value of type `ty`. -/
def checkConstant (m : Module) (ty : IRType) : Constant → Except Problem Unit
  | .int _ => if ty.isInt then .ok () else .error (.constantMisfit ty)
  | .struct values =>
    match ty with
    | .struct name =>
      match m.structDef? name with
      | none => .error (.unknownStruct name)
      | some d =>
        if d.fields.length ≠ values.length then .error (.fieldCount name d.fields.length)
        else m.checkConstants d.fields values
    | _ => .error (.constantMisfit ty)

def checkConstants (m : Module) : List IRType → List Constant → Except Problem Unit
  | ty :: tys, value :: values => do
    m.checkConstant ty value
    m.checkConstants tys values
  | _, _ => .ok ()

end

def verifyInst (m : Module) (f : Function) (inst : Inst) : Except Problem Unit :=
  match inst.op with
  | .alloca .. | .heapAlloc _ | .load _ | .fieldAddr .. => .ok ()
  | .store value ptr => expectType (.ptr value.ty) ptr.ty "store"
  | .add lhs rhs | .sub lhs rhs =>
    if lhs.ty.isInt then expectType rhs.ty lhs.ty "arithmetic"
    else .error (.arithmeticOn lhs.ty)
  | .call callee args =>
    match m.function? callee with
    | none => .error (.unknownCallee callee)
    | some target =>
      if target.params.length ≠ args.length then
        .error (.argumentCount target.name target.params.length args.length)
      else expectTypes "call argument" target.params args
  | .aggregate fields =>
    match inst.ty with
    | .struct name =>
      match m.structDef? name with
      | none => .error (.unknownStruct name)
      | some d =>
        if d.fields.length ≠ fields.length then .error (.fieldCount name d.fields.length)
        else expectTypes "field" d.fields fields
    | ty => .error (.aggregateOf ty)
  | .ret none => expectType .void f.ret "return"
  | .ret (some value) => expectType value.ty f.ret "return"

/-- Checks the instructions of a block in order; none but the last may be a return. -/
def verifyInsts (m : Module) (f : Function) (label : String) : List Inst → Except Problem Unit
  | [] => .ok ()
  | [inst] => m.verifyInst f inst
  | inst :: rest => do
    if inst.op.isRet then throw (.afterReturn label)
    m.verifyInst f inst
    m.verifyInsts f label rest

def verifyBlock (m : Module) (f : Function) (block : Block) : Except Problem Unit :=
  match block.insts.getLast? with
  | none => .error (.emptyBlock block.label)
  | some last =>
    if last.op.isRet then m.verifyInsts f block.label block.insts
    else .error (.noTerminator block.label)

def verifyFunction (m : Module) (f : Function) : Except Problem Unit :=
  if f.blocks.isEmpty then .error .noBody
  else f.blocks.forM (m.verifyBlock f)

def verifyGlobal (m : Module) (g : Global) : Except Problem Unit :=
  (m.checkConstant g.ty g.init).mapError (.inGlobal g.name)

/-- Checks a module in the order in which its parts are written. -/
def verify (m : Module) : Except Defect Unit := do
  m.globals.forM fun g => (m.verifyGlobal g).mapError fun p => ⟨none, p⟩
  m.functions.forM fun f => (m.verifyFunction f).mapError fun p => ⟨some f.name, p⟩

end Module

namespace Builder

/-- Reports the first defect of the module built: one met on the way, or else one found in it. -/
def verify (b : Builder) : Except Defect Unit :=
  match b.defects with
  | defect :: _ => .error defect
  | [] => b.module.verify

end Builder

end Straightline.IR
