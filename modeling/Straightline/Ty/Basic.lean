import Straightline.IR.Type
import Straightline.Symbol.Table

/-!
# Types of the language

A type is one of six primitives or a declared aggregate with its fields. The two kinds of aggregate
share a layout and differ in how their values travel: a `struct` is copied, a `model` is handled
through its address.

An aggregate carries its fields, not only its name, so two types are the same when they are equal
all the way down. `DecidableEq` says so; it looks at addresses first, since comparing the fields of
a type with itself would take time exponential in the nesting.
-/

set_option autoImplicit false

namespace Straightline

/-- The types that need no declaration. -/
inductive Primitive where
  | void
  | bool
  | int8
  | int16
  | int32
  | int64
deriving DecidableEq, Repr

namespace Primitive

def all : List Primitive := [void, bool, int8, int16, int32, int64]

def name : Primitive → String
  | void => "Void"
  | bool => "Bool"
  | int8 => "Int8"
  | int16 => "Int16"
  | int32 => "Int32"
  | int64 => "Int64"

/-- The width of a value; nothing is stored for `Void`. -/
def bits : Primitive → Nat
  | void => 0
  | bool => 1
  | int8 => 8
  | int16 => 16
  | int32 => 32
  | int64 => 64

/-- Whether decimal numbers are values of the type, and `+` and `-` apply to it. -/
def isInteger : Primitive → Bool
  | void | bool => false
  | int8 | int16 | int32 | int64 => true

/-- Whether `true` and `false` are values of the type. -/
def isTruth : Primitive → Bool
  | bool => true
  | _ => false

def ofName? (name : String) : Option Primitive :=
  all.find? fun p => p.name == name

end Primitive

/-- The two kinds of aggregate. -/
inductive AggregateKind where
  | struct
  | model
deriving DecidableEq, Repr

namespace AggregateKind

def keyword : AggregateKind → String
  | struct => "struct"
  | model => "model"

def ofKeyword? (word : String) : Option AggregateKind :=
  if word = struct.keyword then some struct
  else if word = model.keyword then some model
  else none

end AggregateKind

inductive Ty where
  | primitive (p : Primitive)
  | aggregate (name : String) (kind : AggregateKind) (fields : List (String × Ty))
deriving Repr

/-- How values of a type travel between bindings. -/
inductive Passing where
  | byValue
  | byAddress
deriving DecidableEq, Repr

namespace Ty

mutual

def decEq : (a b : Ty) → Decidable (a = b)
  | .primitive p, .primitive q =>
    if h : p = q then .isTrue (by rw [h]) else .isFalse (by simp [h])
  | .primitive _, .aggregate .. => .isFalse (by simp)
  | .aggregate .., .primitive _ => .isFalse (by simp)
  | .aggregate n k fs, .aggregate m l gs =>
    if h : n = m ∧ k = l then
      match decEqFields fs gs with
      | .isTrue hf => .isTrue (by rw [h.1, h.2, hf])
      | .isFalse hf => .isFalse (by simp [hf])
    else .isFalse (by simp only [aggregate.injEq]; exact fun he => h ⟨he.1, he.2.1⟩)

def decEqFields : (fs gs : List (String × Ty)) → Decidable (fs = gs)
  | [], [] => .isTrue rfl
  | [], _ :: _ => .isFalse (by simp)
  | _ :: _, [] => .isFalse (by simp)
  | (n, a) :: fs, (m, b) :: gs =>
    if h : n = m then
      match decEq a b with
      | .isTrue ha =>
        match decEqFields fs gs with
        | .isTrue hf => .isTrue (by rw [h, ha, hf])
        | .isFalse hf => .isFalse (by simp [hf])
      | .isFalse ha => .isFalse (by simp [ha])
    else .isFalse (by simp [h])

end

instance : DecidableEq Ty := fun a b => withPtrEqDecEq a b fun _ => decEq a b

def name : Ty → String
  | primitive p => p.name
  | aggregate name _ _ => name

def isVoid : Ty → Bool
  | primitive .void => true
  | _ => false

/-- Whether `+` and `-` apply. -/
def isInteger : Ty → Bool
  | primitive p => p.isInteger
  | aggregate .. => false

def isAggregate : Ty → Bool
  | primitive _ => false
  | aggregate .. => true

/-- The fields of an aggregate, in the order of their declaration. -/
def fields : Ty → List (String × Ty)
  | primitive _ => []
  | aggregate _ _ fields => fields

def fieldTypes (ty : Ty) : List Ty := ty.fields.map Prod.snd

/-- The position and type of the field called `member`. -/
def field? (ty : Ty) (member : String) : Option (Nat × Ty) :=
  match ty.fields.findIdx? (fun f => f.1 == member), ty.fields.find? (fun f => f.1 == member) with
  | some index, some f => some (index, f.2)
  | _, _ => none

def passing : Ty → Passing
  | aggregate _ .model _ => .byAddress
  | _ => .byValue

/-- What storage for a value's contents holds: an aggregate's fields, or a plain integer. -/
def layoutType : Ty → IRType
  | primitive .void => .void
  | primitive p => .int p.bits
  | aggregate name _ _ => .struct name

/-- How a value is represented: a model is a pointer to its contents. -/
def irType (ty : Ty) : IRType :=
  match ty.passing with
  | .byValue => ty.layoutType
  | .byAddress => .ptr ty.layoutType

/-- Refuses a type that has no values to store under `binding`. -/
def requireStorable (ty : Ty) (binding : String) : Except Fault Unit :=
  if ty.isVoid then .error (.invalidMember binding) else .ok ()

/-- The type called `name`: a declared one, or else a primitive. -/
def resolve (types : SymbolTable Ty) (name : String) : Except Fault Ty :=
  match types.find? name with
  | some ty => .ok ty
  | none =>
    match Primitive.ofName? name with
    | some p => .ok (.primitive p)
    | none => .error (.unknownType name)

end Ty

end Straightline
