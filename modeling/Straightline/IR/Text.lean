import Straightline.IR.Module

/-!
# The textual form of a module

One line for each structure, global and instruction, in the order of the module. Values are named
rather than numbered in sequence: `%p0` is the first parameter, `%t3` the result of instruction 3.
Names that are no plain identifiers are written in double quotes; methods are among them, for the
dot.

Two instructions take several lines. Heap storage is measured, requested from `malloc` and given its
type, and a structure of computed fields is filled in field by field. `malloc` is declared at the
end of a module that uses it.
-/

set_option autoImplicit false

namespace Straightline.IR

/-- Items with commas between them. -/
def commaSeparated (items : List String) : String := String.intercalate ", " items

/-- A list between braces. -/
def braced (items : List String) : String := "\x7b " ++ commaSeparated items ++ " \x7d"

/-- Whether a name needs no quotes: ASCII letters, digits and underscores only. -/
def isPlainName (name : String) : Bool :=
  name.toList.all fun c => c.isAlphanum || c == '_'

/-- The name of a global or a function as an operand. -/
def symbol (name : String) : String :=
  if isPlainName name then "@" ++ name else "@\"" ++ name ++ "\""

namespace Module

mutual

/-- A constant of type `ty`. -/
def constantText (m : Module) (ty : IRType) : Constant → String
  | .int value =>
    if ty = .int 1 then (if value = 0 then "false" else "true") else toString value
  | .struct values =>
    match ty with
    | .struct name => braced (m.constantTexts ((m.structDef? name).elim [] StructDef.fields) values)
    | _ => "undef"

/-- Constants with their types in front. -/
def constantTexts (m : Module) : List IRType → List Constant → List String
  | ty :: tys, value :: values =>
    (ty.text ++ " " ++ m.constantText ty value) :: m.constantTexts tys values
  | _, _ => []

end

def operandText (m : Module) (v : Value) : String :=
  match v.source with
  | .param index => s!"%p{index}"
  | .inst id => s!"%t{id}"
  | .const c => m.constantText v.ty c
  | .global index =>
    match m.globals[index]? with
    | some g => symbol g.name
    | none => s!"@global{index}"

/-- A value with its type in front. -/
def typedText (m : Module) (v : Value) : String := v.ty.text ++ " " ++ m.operandText v

def calleeText (m : Module) (id : FunctionId) : String :=
  match m.function? id with
  | some f => symbol f.name
  | none => s!"@fn{id}"

/-- The lines that fill in the fields of a structure of type `ty` from field `index` on, where
`previous` is the structure so far. The last line defines `result` itself. -/
def insertLines (m : Module) (ty : IRType) (result : String) :
    (index : Nat) → (previous : String) → List Value → List String
  | _, _, [] => []
  | index, previous, field :: rest =>
    let name := if rest.isEmpty then result else s!"{result}.{index}"
    s!"  {name} = insertvalue {ty.text} {previous}, {m.typedText field}, {index}"
      :: m.insertLines ty result (index + 1) name rest

def instLines (m : Module) (inst : Inst) : List String :=
  let result := s!"%t{inst.id}"
  match inst.op with
  | .alloca ty (some name) => [s!"  {result} = alloca {ty.text} ; {name}"]
  | .alloca ty none => [s!"  {result} = alloca {ty.text}"]
  | .heapAlloc ty =>
    let ptr := inst.ty.text
    [s!"  {result}.end = getelementptr {ty.text}, {ptr} null, i32 1",
      s!"  {result}.size = ptrtoint {ptr} {result}.end to i64",
      s!"  {result}.raw = call i8* @malloc(i64 {result}.size)",
      s!"  {result} = bitcast i8* {result}.raw to {ptr}"]
  | .store value ptr => [s!"  store {m.typedText value}, {m.typedText ptr}"]
  | .load ptr => [s!"  {result} = load {inst.ty.text}, {m.typedText ptr}"]
  | .call callee args =>
    let target := m.calleeText callee
    let operands := commaSeparated (args.map m.typedText)
    if inst.ty.isVoid then [s!"  call void {target}({operands})"]
    else [s!"  {result} = call {inst.ty.text} {target}({operands})"]
  | .add lhs rhs =>
    [s!"  {result} = add {inst.ty.text} {m.operandText lhs}, {m.operandText rhs}"]
  | .sub lhs rhs =>
    [s!"  {result} = sub {inst.ty.text} {m.operandText lhs}, {m.operandText rhs}"]
  | .fieldAddr ptr index =>
    let pointee := (ptr.ty.pointee?.getD .void).text
    [s!"  {result} = getelementptr inbounds {pointee}, {m.typedText ptr}, i32 0, i32 {index}"]
  | .aggregate fields => m.insertLines inst.ty result 0 "undef" fields
  | .ret none => ["  ret void"]
  | .ret (some value) => [s!"  ret {m.typedText value}"]

def blockLines (m : Module) (block : Block) : List String :=
  (block.label ++ ":") :: block.insts.flatMap m.instLines

/-- A function with its body, or its declaration if it has none. -/
def functionLines (m : Module) (f : Function) : List String :=
  if f.blocks.isEmpty then
    let params := commaSeparated (f.params.map IRType.text)
    [s!"declare {f.ret.text} {symbol f.name}({params})"]
  else
    let params := commaSeparated (f.params.mapIdx fun index ty => s!"{ty.text} %p{index}")
    (s!"define {f.ret.text} {symbol f.name}({params}) " ++ "\x7b")
      :: f.blocks.flatMap m.blockLines ++ ["\x7d"]

def structLine (d : StructDef) : String :=
  s!"%{d.name} = type " ++ braced (d.fields.map IRType.text)

def globalLine (m : Module) (g : Global) : String :=
  s!"{symbol g.name} = global {g.ty.text} {m.constantText g.ty g.init}"

def usesHeap (m : Module) : Bool :=
  m.functions.any fun f => f.insts.any fun inst =>
    match inst.op with
    | .heapAlloc _ => true
    | _ => false

/-- Lines with an empty line in front, unless there are none. -/
def section? (lines : List String) : List String :=
  if lines.isEmpty then [] else "" :: lines

def lines (m : Module) : List String :=
  [s!"; ModuleID = \"{m.name}\"", s!"source_filename = \"{m.name}\""]
    ++ section? (m.structs.map structLine)
    ++ section? (m.globals.map m.globalLine)
    ++ m.functions.flatMap (fun f => "" :: m.functionLines f)
    ++ (if m.usesHeap then ["", "declare i8* @malloc(i64)"] else [])

/-- The textual form of a module; every line ends in a line feed. -/
def text (m : Module) : String := String.join (m.lines.map fun line => line ++ "\n")

end Module

end Straightline.IR
