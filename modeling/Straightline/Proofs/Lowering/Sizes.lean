import Mathlib.Data.List.Induction
import Mathlib.Data.Nat.Basic
import Mathlib.Order.Basic
import Straightline.Lowering.Function
import Straightline.Proofs.IR.Typed

/-!
# Sizes without a bound

Layouts, static data, frames and requests to the heap are computed in 32-bit words, which may not do for
them. Here the same sizes and offsets are taken in the natural numbers, where nothing overflows. A module
fits (`IR.Module.Fits`) when none of them reaches `2 ^ 32`.

The sizes of structures are a function of their names, and an unknown name has no size: no step can fail
here. Where structures are declared before they are used, each is the whole of its fields
(`IR.Module.space_struct`), whatever was declared later.
-/

set_option autoImplicit false

namespace Straightline

/-! ## Multiples -/

/-- The least multiple of `align` not below `n`. -/
def roundUp (n align : Nat) : Nat := (n + (align - 1)) / align * align

section RoundUp

variable {n n' align : Nat}

theorem le_roundUp (h : 0 < align) : n ≤ roundUp n align := by
  have hdiv := Nat.div_add_mod (n + (align - 1)) align
  have hlt := Nat.mod_lt (n + (align - 1)) h
  rw [Nat.mul_comm] at hdiv
  unfold roundUp
  omega

theorem roundUp_zero (align : Nat) : roundUp 0 align = 0 := by
  cases align with
  | zero => rfl
  | succ n =>
    rw [roundUp, Nat.zero_add, Nat.add_sub_cancel, Nat.div_eq_of_lt n.lt_succ_self, Nat.zero_mul]

theorem roundUp_eq (h : 0 < align) :
    roundUp n align = (if n % align = 0 then n / align else n / align + 1) * align := by
  unfold roundUp
  congr 1
  have hdiv := Nat.div_add_mod n align
  split
  case isTrue h0 =>
    rw [Nat.div_eq_of_lt_le]
    · rw [Nat.mul_comm]; omega
    · rw [Nat.add_mul, Nat.mul_comm]; omega
  case isFalse h0 =>
    have hlt := Nat.mod_lt n h
    rw [Nat.div_eq_of_lt_le]
    · rw [Nat.add_mul, Nat.mul_comm]; omega
    · rw [Nat.add_mul, Nat.add_mul, Nat.mul_comm]; omega

end RoundUp

/-! ## Spaces -/

/-- How many bytes something takes and what its address is a multiple of. -/
structure Space where
  size : Nat
  align : Nat
deriving DecidableEq, Repr

namespace Space

/-- Where something is placed whose place is not to begin below `offset`. -/
def start (offset : Nat) (s : Space) : Nat := roundUp offset s.align

/-- The first offset behind it. -/
def stop (offset : Nat) (s : Space) : Nat := s.start offset + s.size

/-- The first offset behind things that are placed one after the other. -/
def stops (offset : Nat) (spaces : List Space) : Nat := spaces.foldl stop offset

/-- Where things begin that are placed one after the other. -/
def offsets : (offset : Nat) → List Space → List Nat
  | _, [] => []
  | offset, s :: rest => s.start offset :: offsets (s.stop offset) rest

/-- The largest alignment. -/
def widest (align : Nat) (spaces : List Space) : Nat := spaces.foldl (fun a s => max a s.align) align

/-- The space of fields that are placed one after the other, as often as it is repeated. -/
def whole (fields : List Space) : Space :=
  ⟨roundUp (stops 0 fields) (widest 1 fields), widest 1 fields⟩

/-- The space of a value of type `ty`. -/
def ofType (structs : String → Space) : IRType → Space
  | .int bits => ⟨max 1 (bits / 8), max 1 (bits / 8)⟩
  | .ptr _ => ⟨4, 4⟩
  | .struct name => structs name
  | .void => ⟨0, 1⟩

/-- The spaces of structures in the order of their declaration. -/
def ofStructs (structs : List IR.StructDef) : String → Space :=
  structs.foldl (fun known d name =>
    if name = d.name then whole (d.fields.map (ofType known)) else known name) fun _ => ⟨0, 1⟩

end Space

/-! ## Modules -/

/-- Each structure has a name of its own, and contains only structures that stand before it. -/
structure IR.DeclaredInOrder (structs : List IR.StructDef) : Prop where
  names : (structs.map IR.StructDef.name).Nodup
  earlier : ∀ (i : Nat) (d : IR.StructDef), structs[i]? = some d → ∀ name, .struct name ∈ d.fields →
    ∃ j d', j < i ∧ structs[j]? = some d' ∧ d'.name = name

namespace IR.Module

/-- The space of a value of type `ty`. -/
def space (m : Module) (ty : IRType) : Space := .ofType (.ofStructs m.structs) ty

/-- How many bytes a value of type `ty` takes. -/
def sizeOf (m : Module) (ty : IRType) : Nat := (m.space ty).size

/-- The offsets of the fields of a structure. -/
def fieldOffsets (m : Module) (d : StructDef) : List Nat := Space.offsets 0 (d.fields.map m.space)

/-- The type and the constant of a structure constant. -/
def structConstant? (v : Value) : Option (IRType × Constant) :=
  match v.source with
  | .const c => if c.isStruct then some (v.ty, c) else none
  | _ => none

/-- Puts what is not in a list at its end. -/
def addNew (pool : List (IRType × Constant)) (c : IRType × Constant) : List (IRType × Constant) :=
  if c ∈ pool then pool else pool ++ [c]

/-- The structure constants that instructions use, each once. -/
def pool (m : Module) : List (IRType × Constant) :=
  ((Lowering.DataImage.operands m).filterMap structConstant?).foldl addNew []

/-- What the static data consists of, in order. -/
def statics (m : Module) : List (IRType × Constant) :=
  m.globals.map (fun g => (g.ty, g.init)) ++ m.pool

/-- The space of a constant. -/
def constantSpace (m : Module) (item : IRType × Constant) : Space := m.space item.1

/-- The first address behind the static data. -/
def dataStop (m : Module) : Nat :=
  Space.stops Lowering.nullGuard.toNat (m.statics.map m.constantSpace)

/-- Where the shadow stack may begin. -/
def dataEnd (m : Module) : Nat := roundUp m.dataStop Lowering.frameAlign.toNat

/-- The instructions that keep something in the frame, by number, and its type. -/
def slotted (insts : List Inst) : List (Nat × IRType) :=
  insts.filterMap fun inst => (Lowering.storedType? inst).map fun ty => (inst.id, ty)

/-- The space of what an instruction keeps in the frame. -/
def slotSpace (m : Module) (slot : Nat × IRType) : Space := m.space slot.2

/-- How much of the shadow stack a function takes. -/
def frameSize (m : Module) (f : Function) : Nat :=
  roundUp (Space.stops 0 ((slotted f.insts).map m.slotSpace)) Lowering.frameAlign.toNat

/-- How much of the heap the storage of one `ty` takes. -/
def modelSize (m : Module) (ty : IRType) : Nat :=
  roundUp (max (m.sizeOf ty) 1) Lowering.heapAlign.toNat

/-- The types of what instructions take from the heap. -/
def heapTypes (insts : List Inst) : List IRType :=
  insts.filterMap fun inst =>
    match inst.op with
    | .heapAlloc ty => some ty
    | _ => none

/-- No size or offset in the code of a function is too large for a 32-bit word: neither its frame, nor what
it takes from the heap at once. -/
structure FunctionFits (m : Module) (f : Function) : Prop where
  frame : m.frameSize f < UInt32.size
  heap : ∀ ty ∈ heapTypes f.insts, m.modelSize ty < UInt32.size

/-- No size or offset of a structure or of the static data is too large for a 32-bit word. -/
structure StaticFits (m : Module) : Prop where
  structs : ∀ d ∈ m.structs, m.sizeOf (.struct d.name) < UInt32.size
  data : m.dataEnd < UInt32.size

/-- No size or offset is too large for a 32-bit word: none of a structure, of the static data, of a frame or
of what is taken from the heap. -/
structure Fits (m : Module) : Prop extends StaticFits m where
  functions : ∀ f ∈ m.functions, m.FunctionFits f

instance (m : Module) (f : Function) : Decidable (m.FunctionFits f) :=
  decidable_of_iff (m.frameSize f < UInt32.size ∧
      ∀ ty ∈ heapTypes f.insts, m.modelSize ty < UInt32.size)
    ⟨fun h => ⟨h.1, h.2⟩, fun h => ⟨h.frame, h.heap⟩⟩

instance (m : Module) : Decidable m.Fits :=
  decidable_of_iff ((∀ d ∈ m.structs, m.sizeOf (.struct d.name) < UInt32.size) ∧
      m.dataEnd < UInt32.size ∧ ∀ f ∈ m.functions, m.FunctionFits f)
    ⟨fun h => ⟨⟨h.1, h.2.1⟩, h.2.2⟩, fun h => ⟨h.structs, h.data, h.functions⟩⟩

end IR.Module

/-! ## One after the other -/

namespace Space

variable {s : Space} {spaces spaces' : List Space} {offset : Nat}

/-- Every alignment is positive. -/
def Aligned (spaces : List Space) : Prop := ∀ s ∈ spaces, 0 < s.align

theorem le_start (h : 0 < s.align) : offset ≤ s.start offset := le_roundUp h

theorem le_stop (h : 0 < s.align) : offset ≤ s.stop offset :=
  (le_start h).trans (Nat.le_add_right _ _)

@[simp] theorem stops_nil : stops offset [] = offset := rfl

@[simp] theorem stops_cons : stops offset (s :: spaces) = stops (s.stop offset) spaces := rfl

@[simp] theorem stops_append :
    stops offset (spaces ++ spaces') = stops (stops offset spaces) spaces' := List.foldl_append

/-- Things that take no space end where the first begins. -/
theorem stops_of_empty (h : ∀ s ∈ spaces, s.size = 0) : stops 0 spaces = 0 := by
  induction spaces with
  | nil => rfl
  | cons s rest ih =>
    obtain ⟨hs, hrest⟩ := List.forall_mem_cons.mp h
    have hstop : s.stop 0 = 0 := by rw [stop, start, roundUp_zero, hs]
    rw [stops_cons, hstop]
    exact ih hrest

theorem le_stops (h : Aligned spaces) : offset ≤ stops offset spaces := by
  induction spaces generalizing offset with
  | nil => exact Nat.le_refl _
  | cons s rest ih =>
    exact (le_stop (h s List.mem_cons_self)).trans (ih fun s' hs' => h s' (List.mem_cons_of_mem _ hs'))

@[simp] theorem length_offsets : (offsets offset spaces).length = spaces.length := by
  induction spaces generalizing offset with
  | nil => rfl
  | cons s rest ih => simp [offsets, ih]

theorem offsets_append :
    offsets offset (spaces ++ spaces') =
      offsets offset spaces ++ offsets (stops offset spaces) spaces' := by
  induction spaces generalizing offset with
  | nil => rfl
  | cons s rest ih => simp [offsets, ih]

/-- What is placed lies between where placing began and where it ended. -/
theorem offsets_bounds (h : Aligned spaces) {i start : Nat} (hs : spaces[i]? = some s)
    (hstart : (offsets offset spaces)[i]? = some start) :
    offset ≤ start ∧ start + s.size ≤ stops offset spaces := by
  induction spaces generalizing offset i with
  | nil => simp at hs
  | cons s' rest ih =>
    have hrest : Aligned rest := fun s hs => h s (List.mem_cons_of_mem _ hs)
    have hs' := h s' List.mem_cons_self
    cases i with
    | zero =>
      cases hs
      cases hstart
      exact ⟨le_start hs', le_stops hrest⟩
    | succ i =>
      obtain ⟨hlow, hhigh⟩ := ih hrest hs hstart
      exact ⟨(le_stop hs').trans hlow, hhigh⟩

/-- What is placed earlier ends before what is placed later. -/
theorem offsets_disjoint (h : Aligned spaces) {i j start start' : Nat} (hij : i < j)
    (hs : spaces[i]? = some s) (hstart : (offsets offset spaces)[i]? = some start)
    (hstart' : (offsets offset spaces)[j]? = some start') : start + s.size ≤ start' := by
  induction spaces generalizing offset i j with
  | nil => simp at hs
  | cons s' rest ih =>
    have hrest : Aligned rest := fun s hs => h s (List.mem_cons_of_mem _ hs)
    cases j with
    | zero => omega
    | succ j =>
      cases i with
      | zero =>
        cases hs
        cases hstart
        have hj : j < rest.length := by
          have := (List.getElem?_eq_some_iff.mp hstart').1
          simpa [offsets] using this
        exact (offsets_bounds hrest (List.getElem?_eq_getElem hj) hstart').1
      | succ i => exact ih hrest (by omega) hs hstart hstart'

theorem le_widest {align : Nat} : align ≤ widest align spaces := by
  induction spaces generalizing align with
  | nil => exact Nat.le_refl _
  | cons s rest ih => exact (Nat.le_max_left _ _).trans ih

theorem whole_align_pos (fields : List Space) : 0 < (whole fields).align := le_widest

theorem stops_le_whole (fields : List Space) : stops 0 fields ≤ (whole fields).size :=
  le_roundUp le_widest

/-! ## Structures -/

theorem ofType_align_pos {structs : String → Space} (h : ∀ name, 0 < (structs name).align)
    (ty : IRType) : 0 < (ofType structs ty).align := by
  cases ty with
  | int bits => exact Nat.lt_of_lt_of_le Nat.one_pos (Nat.le_max_left _ _)
  | ptr => exact Nat.succ_pos 3
  | struct name => exact h name
  | void => exact Nat.one_pos

theorem ofStructs_concat (structs : List IR.StructDef) (d : IR.StructDef) (name : String) :
    ofStructs (structs ++ [d]) name =
      if name = d.name then whole (d.fields.map (ofType (ofStructs structs)))
      else ofStructs structs name := by
  simp [ofStructs, List.foldl_append]

theorem ofStructs_align_pos (structs : List IR.StructDef) (name : String) :
    0 < (ofStructs structs name).align := by
  induction structs using List.reverseRecOn with
  | nil => exact Nat.one_pos
  | append_singleton structs d ih =>
    rw [ofStructs_concat]
    split
    · exact whole_align_pos _
    · exact ih

/-- What is declared later under other names changes nothing. -/
theorem ofStructs_append {structs later : List IR.StructDef} {name : String}
    (h : name ∉ later.map IR.StructDef.name) :
    ofStructs (structs ++ later) name = ofStructs structs name := by
  induction later using List.reverseRecOn with
  | nil => rw [List.append_nil]
  | append_singleton later d ih =>
    rw [List.map_append, List.mem_append, not_or] at h
    rw [← List.append_assoc, ofStructs_concat, if_neg fun he => h.2 (by simp [he]), ih h.1]

end Space

namespace IR.Module

variable {m : Module} {kinds : Kinds}

theorem space_align_pos (m : Module) (ty : IRType) : 0 < (m.space ty).align :=
  Space.ofType_align_pos (Space.ofStructs_align_pos _) ty

theorem aligned_constants (m : Module) (items : List (IRType × Constant)) :
    Space.Aligned (items.map m.constantSpace) := by
  intro s hs
  obtain ⟨item, _, rfl⟩ := List.mem_map.mp hs
  exact m.space_align_pos item.1

/-- Constants that follow others end no earlier. -/
theorem stops_le_append (m : Module) (items more : List (IRType × Constant)) {offset : Nat} :
    Space.stops offset (items.map m.constantSpace) ≤
      Space.stops offset ((items ++ more).map m.constantSpace) := by
  rw [List.map_append, Space.stops_append]
  exact Space.le_stops (m.aligned_constants more)

theorem aligned_slots (m : Module) (slots : List (Nat × IRType)) :
    Space.Aligned (slots.map m.slotSpace) := by
  intro s hs
  obtain ⟨slot, _, rfl⟩ := List.mem_map.mp hs
  exact m.space_align_pos slot.2

theorem aligned (m : Module) (tys : List IRType) : Space.Aligned (tys.map m.space) := by
  intro s hs
  obtain ⟨ty, _, rfl⟩ := List.mem_map.mp hs
  exact m.space_align_pos ty

/-- A structure is the whole of its fields, whose types were declared before. -/
theorem space_struct (h : DeclaredInOrder m.structs) {i : Nat} {d : StructDef}
    (hd : m.structs[i]? = some d) :
    m.space (.struct d.name) = .whole (d.fields.map m.space) := by
  obtain ⟨earlier, later, hsplit, rfl⟩ :
      ∃ earlier later, m.structs = earlier ++ d :: later ∧ earlier.length = i := by
    obtain ⟨hi, rfl⟩ := List.getElem?_eq_some_iff.mp hd
    refine ⟨m.structs.take i, m.structs.drop (i + 1), ?_, List.length_take_of_le (Nat.le_of_lt hi)⟩
    rw [List.getElem_cons_drop, List.take_append_drop]
  have hnames := h.names
  rw [hsplit, List.map_append, List.nodup_append, List.map_cons, List.nodup_cons] at hnames
  obtain ⟨_, ⟨hself, _⟩, hdisjoint⟩ := hnames
  have hwhole : m.space (.struct d.name) =
      .whole (d.fields.map (Space.ofType (.ofStructs earlier))) := by
    change Space.ofStructs m.structs _ = _
    rw [hsplit, List.append_cons, Space.ofStructs_append hself, Space.ofStructs_concat, if_pos rfl]
  rw [hwhole]
  congr 1
  refine List.map_congr_left fun ty hty => ?_
  cases ty with
  | int | ptr | void => rfl
  | struct name =>
    obtain ⟨j, d', hj, hd', rfl⟩ := h.earlier _ d hd _ hty
    rw [hsplit, List.getElem?_append_left hj] at hd'
    have hmem := List.mem_map_of_mem (f := StructDef.name) (List.mem_of_getElem? hd')
    change Space.ofStructs earlier _ = Space.ofStructs m.structs _
    rw [hsplit, Space.ofStructs_append fun hlater => hdisjoint _ hmem _ hlater rfl]

theorem Typed.declaredInOrder (h : m.Typed kinds) : DeclaredInOrder m.structs :=
  ⟨h.names, fun i d hd name hname => ((h.structs i d hd).2 _ hname).2 name rfl⟩

theorem Typed.space_struct (h : m.Typed kinds) {i : Nat} {d : StructDef}
    (hd : m.structs[i]? = some d) :
    m.space (.struct d.name) = .whole (d.fields.map m.space) :=
  IR.Module.space_struct h.declaredInOrder hd

end IR.Module

end Straightline
