import Mathlib.Logic.Equiv.Basic
import Straightline.Proofs.Declaring.Rounds
import Straightline.Proofs.Units.Independence

/-!
# Functions that are declared in another order

Two units may declare the same functions in another order. `Declaring.Twin` relates the states of their first
phases: the tables say the same of the same names, but for the numbers of functions, the module holds the same
under these numbers, and the same bodies are put off. A round that reads the same declaration on both sides
keeps the states twins (`Declaring.Twin.take`), and so do two rounds that read two functions, one after the
other on the one side and the other way round on the other (`Declaring.Twin.exchange`).
-/

set_option autoImplicit false

namespace Straightline

open IR (FunctionId)

/-! ## What a declaration adds -/

/-- Whether a name is free does not depend on bodies. -/
theorem Declarations.free_settled {d : Declarations} {found : Scan.Found} : d.settled.Free found ↔ d.Free found := by
  cases found with
  | type | global => rfl
  | function | method =>
    simp only [Free, settled, SymbolTable.contains_eq_isSome, SymbolTable.find?_map, Option.isSome_map]

namespace Scan.Found

/-- What the table of functions has for the declaration under `key`, but for its body, if it is the function
`id`. -/
def functionRecord? (id : FunctionId) (key : String) : Found → Option FunctionRecord
  | .function name signature _ => if name == key then some ⟨signature, id, none⟩ else none
  | .type .. | .global .. | .method .. => none

/-- What the table of methods has for the declaration under `key`, but for its body, if it is the function
`id`. -/
def methodRecord? (id : FunctionId) (key : String) : Found → Option MethodRecord
  | .method name receiver owner signature _ =>
    if Declarations.methodKey owner name == key then some ⟨owner, receiver, signature, id, none⟩ else none
  | .type .. | .global .. | .function .. => none

/-- The body that is put off for the declaration, if it is the function `id`. -/
def pendingBody? (id : FunctionId) : Found → Option PendingBody
  | .function name signature body =>
    some ⟨name, id, signature.arguments, signature.result, body.offset⟩
  | .method name receiver owner signature body =>
    some ⟨Declarations.methodKey owner name, id, (receiver, owner) :: signature.arguments,
      signature.result, body.offset⟩
  | .type .. | .global .. => none

variable (found : Found) (id : FunctionId) (key : String) (body : Cursor) (σ : FunctionId → FunctionId)

@[simp] theorem functionRecord?_withBody :
    (found.withBody body).functionRecord? id key = found.functionRecord? id key := by
  cases found <;> rfl

@[simp] theorem methodRecord?_withBody :
    (found.withBody body).methodRecord? id key = found.methodRecord? id key := by
  cases found <;> rfl

theorem functionRecord?_renumber :
    found.functionRecord? (σ id) key = (found.functionRecord? id key).map (FunctionRecord.renumber σ) := by
  cases found with
  | type | global | method => rfl
  | function name signature body => cases h : name == key <;> simp [functionRecord?, h, FunctionRecord.renumber]

theorem methodRecord?_renumber :
    found.methodRecord? (σ id) key = (found.methodRecord? id key).map (MethodRecord.renumber σ) := by
  cases found with
  | type | global | function => rfl
  | method name receiver owner signature body =>
    cases h : Declarations.methodKey owner name == key <;> simp [methodRecord?, h, MethodRecord.renumber]

/-- A function that keeps its number keeps its entry. -/
theorem functionRecord?_fixed (hid : ∀ body, found.body? = some body → σ id = id) :
    (found.functionRecord? id key).map (FunctionRecord.renumber σ) = found.functionRecord? id key := by
  rw [← functionRecord?_renumber]
  cases found with
  | type | global | method => rfl
  | function name signature body => rw [hid body rfl]

theorem methodRecord?_fixed (hid : ∀ body, found.body? = some body → σ id = id) :
    (found.methodRecord? id key).map (MethodRecord.renumber σ) = found.methodRecord? id key := by
  rw [← methodRecord?_renumber]
  cases found with
  | type | global | function => rfl
  | method name receiver owner signature body => rw [hid body rfl]

@[simp] theorem body?_withBody :
    (found.withBody body).body? = found.body?.map fun _ => body := by
  cases found <;> rfl

variable {found body}

/-- What is put off depends on where the body begins in its offset alone. -/
theorem pendingBody?_of_body (h : found.body? = some body) :
    ∃ name parameters result,
      (∀ id, found.pendingBody? id = some ⟨name, id, parameters, result, body.offset⟩) ∧
      ∀ body' id, (found.withBody body').pendingBody? id
        = some ⟨name, id, parameters, result, body'.offset⟩ := by
  cases found with
  | type | global => cases h
  | function name signature body =>
    cases h
    exact ⟨_, _, _, fun _ => rfl, fun _ _ => rfl⟩
  | method name receiver owner signature body =>
    cases h
    exact ⟨_, _, _, fun _ => rfl, fun _ _ => rfl⟩

end Scan.Found

namespace Declaring

variable {s : Declaring} {found : Scan.Found} {c : Cursor}

theorem find?_functions_take (key : String) :
    (s.take found c).declarations.settled.functions.find? key
      = (s.declarations.settled.functions.find? key).or (found.functionRecord? s.nextFunction key) := by
  cases found with
  | type | global | method => exact (Option.or_none ..).symm
  | function name signature body =>
    simp only [take, withFunction, Declarations.settled, SymbolTable.find?_map, SymbolTable.find?_concat,
      Option.map_or]
    congr 1
    cases h : name == key <;> simp [Scan.Found.functionRecord?, h, FunctionRecord.settled]

theorem find?_methods_take (key : String) :
    (s.take found c).declarations.settled.methods.find? key
      = (s.declarations.settled.methods.find? key).or (found.methodRecord? s.nextFunction key) := by
  cases found with
  | type | global | function => exact (Option.or_none ..).symm
  | method name receiver owner signature body =>
    simp only [take, withMethod, Declarations.settled, SymbolTable.find?_map, SymbolTable.find?_concat,
      Option.map_or]
    congr 1
    cases h : Declarations.methodKey owner name == key <;>
      simp [Scan.Found.methodRecord?, h, MethodRecord.settled]

theorem bodies_take (hs : s.Listed) (hfree : s.declarations.Free found) :
    (s.take found c).bodies.Perm (s.bodies ++ (found.pendingBody? s.nextFunction).toList) := by
  cases found with
  | type | global => exact .of_eq (List.append_nil _).symm
  | function => exact bodies_withFunction hfree (hs.unlisted_function hfree) _ _
  | method => exact bodies_withMethod hfree (hs.unlisted_method hfree) _ _

theorem Listed.take (hs : s.Listed) (hfree : s.declarations.Free found) : (s.take found c).Listed := by
  cases found with
  | type | global => exact ⟨hs.found, hs.distinct⟩
  | function => exact hs.withFunction hfree _ _
  | method => exact hs.withMethod hfree _ _

@[simp] theorem cursor_take : (s.take found c).cursor = c := by
  cases found <;> rfl

end Declaring

/-! ## Modules with functions more -/

namespace IR

/-- The function that is declared for a body, as long as it has none. -/
def Function.awaiting (body : PendingBody) : Function :=
  ⟨body.name, body.parameters.map fun p => p.2.irType, body.result.irType, []⟩

/-- The module with functions more. -/
def Module.adding (m : Module) (more : List Function) : Module :=
  { m with functions := m.functions ++ more }

theorem Module.adding_adding (m : Module) (more others : List Function) :
    (m.adding more).adding others = m.adding (more ++ others) := by
  simp [adding]

/-- The numbers below `n` stay below it, and the others do not come there. -/
def KeepsBelow (σ : FunctionId → FunctionId) (n : Nat) : Prop := ∀ id : Nat, (σ id : Nat) < n ↔ id < n

variable {σ : FunctionId → FunctionId} {m m' : Module}

theorem KeepsBelow.eq {n : Nat} (h : KeepsBelow σ n) (h' : KeepsBelow σ (n + 1)) : σ n = n := by
  have hge := mt (h n).mp (Nat.lt_irrefl n)
  have hle := (h' n).mpr (Nat.lt_succ_self n)
  exact Nat.le_antisymm (Nat.le_of_lt_succ hle) (Nat.le_of_not_lt hge)

/-- Functions may be added on both sides, the same under the new numbers. -/
theorem Module.Renumbered.adding {more more' : List Function} (h : m.Renumbered σ m')
    (hbelow : KeepsBelow σ m.functions.length) (hcount : more'.length = more.length)
    (hmore : ∀ id : Nat, m.functions.length ≤ id → more'[σ id - m.functions.length]?
      = (more[id - m.functions.length]?).map (Function.renumber σ)) :
    (m.adding more).Renumbered σ (m'.adding more') where
  name := h.name
  structs := h.structs
  globals := h.globals
  count := by simp only [Module.adding, List.length_append, h.count, hcount]
  functions id := by
    have hold := h.functions id
    simp only [Module.function?, Module.adding] at hold ⊢
    rcases Nat.lt_or_ge id m.functions.length with hid | hid
    · have hid' := h.count ▸ (hbelow id).mpr hid
      rw [List.getElem?_append_left hid, List.getElem?_append_left hid']
      exact hold
    · have hid' := Nat.le_of_not_lt (mt (hbelow id).mp (Nat.not_lt_of_le hid))
      rw [List.getElem?_append_right hid, List.getElem?_append_right (h.count ▸ hid'), h.count]
      exact hmore id hid

/-- The same function comes next on both sides. -/
theorem Module.Renumbered.addingOne (h : m.Renumbered σ m')
    (hbelow : KeepsBelow σ m.functions.length) (hnext : KeepsBelow σ (m.functions.length + 1))
    (body : PendingBody) :
    (m.adding [.awaiting body]).Renumbered σ (m'.adding [.awaiting body]) := by
  refine h.adding hbelow rfl fun id hid => ?_
  rcases Nat.eq_or_lt_of_le hid with rfl | hlt
  · rw [hbelow.eq hnext]
    simp [Function.renumber, Function.awaiting]
  · have hlt' := Nat.le_of_not_lt (mt (hnext id).mp (Nat.not_lt_of_le hlt))
    rw [List.getElem?_eq_none (by simp; omega), List.getElem?_eq_none (by simp; omega)]
    rfl

/-- Two functions come next, on the other side the other way round. -/
theorem Module.Renumbered.addingTwo (h : m.Renumbered σ m')
    (hbelow : KeepsBelow σ m.functions.length) (habove : KeepsBelow σ (m.functions.length + 2))
    (hfirst : σ m.functions.length = m.functions.length + 1)
    (hsecond : σ (m.functions.length + 1) = m.functions.length) (first second : PendingBody) :
    (m.adding [.awaiting first, .awaiting second]).Renumbered σ
      (m'.adding [.awaiting second, .awaiting first]) := by
  refine h.adding hbelow rfl fun id hid => ?_
  generalize m.functions.length = n at *
  obtain rfl | rfl | hge : id = n ∨ id = n + 1 ∨ n + 2 ≤ id := by omega
  · simp [hfirst, Function.renumber, Function.awaiting]
  · simp [hsecond, Function.renumber, Function.awaiting]
  · have hge' := Nat.le_of_not_lt (mt (habove id).mp (Nat.not_lt_of_le hge))
    rw [List.getElem?_eq_none (Nat.le_sub_of_add_le' hge'),
      List.getElem?_eq_none (Nat.le_sub_of_add_le' hge)]
    rfl

end IR

namespace Declaring

/-- In the first phases of two units the same was declared, under other numbers for functions. -/
structure Twin (σ : FunctionId → FunctionId) (source source' : List UInt8) (s s' : Declaring) :
    Prop where
  declarations : s.declarations.settled.Renumbered σ s'.declarations.settled
  module : s.builder.module.Renumbered σ s'.builder.module
  bodies : PendingBody.Twins σ source source' s.bodies s'.bodies
  listed : s.Listed
  listed' : s'.Listed
  reached : (Cursor.start source).Reaches s.cursor
  reached' : (Cursor.start source').Reaches s'.cursor

variable {σ : FunctionId → FunctionId} {source source' : List UInt8} {s s' : Declaring}
  {found : Scan.Found} {body c c' : Cursor}

theorem Twin.types (h : s.Twin σ source source' s') : s'.declarations.types = s.declarations.types :=
  h.declarations.types

/-- What may be declared on the one side may be declared on the other. -/
theorem Twin.free (h : s.Twin σ source source' s') (body : Cursor) (hfree : s.declarations.Free found) :
    s'.declarations.Free (found.withBody body) := by
  rw [← Declarations.free_settled] at hfree ⊢
  cases found with
  | type | global =>
    simp only [Declarations.Free, Scan.Found.withBody, h.declarations.types, h.declarations.globals] at hfree ⊢
    exact hfree
  | function | method =>
    simp only [Declarations.Free, Scan.Found.withBody, SymbolTable.contains_eq_isSome, h.declarations.functions,
      h.declarations.methods, Option.isSome_map] at hfree ⊢
    exact hfree

/-- A place in the source is found again from its offset. -/
theorem Twin.sameBlock {body' : Cursor} (h : s.Twin σ source source' s') (hbody : s.cursor.Reaches body)
    (hbody' : s'.cursor.Reaches body') (hsame : Scan.SameBlock body body') :
    Scan.SameBlock (.seek source body.offset) (.seek source' body'.offset) := by
  rw [← (h.reached.trans hbody).eq_seek, ← (h.reached'.trans hbody').eq_seek]
  exact hsame

/-- A body that is put off on both sides is the same. -/
theorem Twin.pendingBody? (h : s.Twin σ source source' s') (body' : Cursor) (id : FunctionId)
    (hbody : ∀ body, found.body? = some body →
      s.cursor.Reaches body ∧ s'.cursor.Reaches body' ∧ Scan.SameBlock body body') :
    PendingBody.Twins σ source source' (found.pendingBody? id).toList
      ((found.withBody body').pendingBody? (σ id)).toList := by
  cases hfound : found.body? with
  | none =>
    cases found with
    | type | global => exact .nil
    | function | method => cases hfound
  | some body =>
    obtain ⟨hreach, hreach', hsame⟩ := hbody body hfound
    obtain ⟨name, parameters, result, hpending, hpending'⟩ :=
      Scan.Found.pendingBody?_of_body hfound
    rw [hpending, hpending']
    exact .one ⟨rfl, rfl, rfl, rfl, h.sameBlock hreach hreach' hsame⟩

theorem module_take {awaited : PendingBody}
    (h : found.pendingBody? s.nextFunction = some awaited) :
    (s.take found c).builder.module = s.builder.module.adding [.awaiting awaited] := by
  cases found with
  | type | global => cases h
  | function | method =>
    cases h
    rfl

theorem Twin.nextFunction (h : s.Twin σ source source' s') : s'.nextFunction = s.nextFunction :=
  h.module.count

/-- The tables say the same after a declaration, as its function has the same number on both sides. -/
theorem Twin.declarations_take (h : s.Twin σ source source' s') (body' : Cursor)
    (hnext : ∀ body, found.body? = some body → σ s.nextFunction = s.nextFunction) :
    (s.take found c).declarations.settled.Renumbered σ
      (s'.take (found.withBody body') c').declarations.settled := by
  refine ⟨?_, ?_, fun key => ?_, fun key => ?_⟩
  · have htypes := h.types
    cases found <;> simp [Declaring.take, Scan.Found.withBody, withType, withGlobal, withFunction,
      withMethod, Declarations.settled, htypes]
  · have hglobals : s'.declarations.globals = s.declarations.globals := h.declarations.globals
    have hmodule := h.module.globals
    cases found <;> simp [Declaring.take, Scan.Found.withBody, withType, withGlobal, withFunction,
      withMethod, Declarations.settled, hglobals, IR.Build.addGlobal, IR.Value.constant?, hmodule]
  · rw [find?_functions_take, find?_functions_take, h.declarations.functions, h.nextFunction,
      Option.map_or, Scan.Found.functionRecord?_withBody, Scan.Found.functionRecord?_fixed _ _ _ _ hnext]
  · rw [find?_methods_take, find?_methods_take, h.declarations.methods, h.nextFunction,
      Option.map_or, Scan.Found.methodRecord?_withBody, Scan.Found.methodRecord?_fixed _ _ _ _ hnext]

/-- The modules hold the same after a declaration. -/
theorem Twin.module_take (h : s.Twin σ source source' s') (body' : Cursor)
    (hbelow : ∀ body, found.body? = some body →
      IR.KeepsBelow σ s.nextFunction ∧ IR.KeepsBelow σ (s.nextFunction + 1)) :
    (s.take found c).builder.module.Renumbered σ (s'.take (found.withBody body') c').builder.module := by
  cases hfound : found.body? with
  | none =>
    have hold := h.module
    cases found with
    | type name kind fields =>
      exact ⟨hold.name, congrArg (· ++ _) hold.structs, hold.globals, hold.count, hold.functions⟩
    | global name ty contents =>
      exact ⟨hold.name, hold.structs, congrArg (· ++ _) hold.globals, hold.count, hold.functions⟩
    | function | method => cases hfound
  | some body =>
    obtain ⟨name, parameters, result, hpending, hpending'⟩ := Scan.Found.pendingBody?_of_body hfound
    obtain ⟨hbelow, hnext⟩ := hbelow body hfound
    rw [Declaring.module_take (hpending _), Declaring.module_take (hpending' body' _)]
    exact h.module.addingOne hbelow hnext _

/-- A declaration that is read on both sides is declared on both. -/
theorem Twin.take (h : s.Twin σ source source' s') (body' : Cursor) (hfree : s.declarations.Free found)
    (hreach : s.cursor.Reaches c) (hreach' : s'.cursor.Reaches c')
    (hbody : ∀ body, found.body? = some body →
      s.cursor.Reaches body ∧ s'.cursor.Reaches body' ∧ Scan.SameBlock body body')
    (hbelow : ∀ body, found.body? = some body →
      IR.KeepsBelow σ s.nextFunction ∧ IR.KeepsBelow σ (s.nextFunction + 1)) :
    (s.take found c).Twin σ source source' (s'.take (found.withBody body') c') where
  declarations := h.declarations_take body' fun body hmem => (hbelow body hmem).1.eq (hbelow body hmem).2
  module := h.module_take body' hbelow
  bodies := by
    have hawaited := h.pendingBody? body' s.nextFunction hbody
    refine (h.bodies.append hawaited).perm (bodies_take h.listed hfree)
      ((bodies_take h.listed' (h.free body' hfree)).trans ?_)
    rw [h.nextFunction]
    cases found with
    | type | global => rfl
    | function | method => rw [(hbelow _ rfl).1.eq (hbelow _ rfl).2]
  listed := h.listed.take hfree
  listed' := h.listed'.take (h.free body' hfree)
  reached := by
    rw [cursor_take]
    exact h.reached.trans hreach
  reached' := by
    rw [cursor_take]
    exact h.reached'.trans hreach'

/-! ## Two functions in either order -/

theorem nextFunction_take (h : found.body? = some body) :
    (s.take found c).nextFunction = s.nextFunction + 1 := by
  cases found with
  | type | global => cases h
  | function | method => simp [Declaring.take]

theorem types_take (h : found.body? = some body) :
    (s.take found c).declarations.types = s.declarations.types ∧
      (s.take found c).declarations.globals = s.declarations.globals := by
  cases found with
  | type | global => cases h
  | function | method => exact ⟨rfl, rfl⟩

end Declaring

/-- A name under which something is declared that was free was not in the table of functions. -/
theorem Declarations.Free.functions {d : Declarations} {found : Scan.Found} {id : FunctionId}
    {key : String} {record : FunctionRecord} (h : d.Free found)
    (hrecord : found.functionRecord? id key = some record) : d.settled.functions.find? key = none := by
  cases found with
  | type | global | method => cases hrecord
  | function name signature body =>
    dsimp only [Scan.Found.functionRecord?] at hrecord
    split at hrecord
    · rename_i hkey
      have hfree : d.functions.contains name = false := h
      rw [beq_iff_eq.mp hkey] at hfree
      rw [settled, SymbolTable.find?_map, SymbolTable.find?_of_free _ hfree, Option.map_none]
    · cases hrecord

theorem Declarations.Free.methods {d : Declarations} {found : Scan.Found} {id : FunctionId}
    {key : String} {record : MethodRecord} (h : d.Free found)
    (hrecord : found.methodRecord? id key = some record) : d.settled.methods.find? key = none := by
  cases found with
  | type | global | function => cases hrecord
  | method name receiver owner signature body =>
    dsimp only [Scan.Found.methodRecord?] at hrecord
    split at hrecord
    · rename_i hkey
      have hfree : d.methods.contains (methodKey owner name) = false := h
      rw [beq_iff_eq.mp hkey] at hfree
      rw [settled, SymbolTable.find?_map, SymbolTable.find?_of_free _ hfree, Option.map_none]
    · cases hrecord

/-- Of two entries at most one of which is there, either may be added first, and all may be renamed before
or after that. -/
theorem Option.map_or_exchange {α β : Type} (f : α → β) {old first second : Option α}
    (happart : ∀ x, second = some x → first = none) :
    ((old.map f).or (second.map f)).or (first.map f) = ((old.or first).or second).map f := by
  cases second with
  | none => simp [Option.map_or]
  | some x => simp [happart x rfl]

namespace Declaring

variable {σ : FunctionId → FunctionId} {source source' : List UInt8} {s s' : Declaring}
  {first second : Scan.Found} {b₁ b₂ b₁' b₂' c₁ c₂ c₁' c₂' : Cursor}

/-- What may be declared behind a function has no entry where that function has one. -/
theorem functionRecord?_apart (hfree : (s.take first c₁).declarations.Free second) {id : FunctionId}
    {key : String} {record : FunctionRecord} (hrecord : second.functionRecord? id key = some record) :
    first.functionRecord? s.nextFunction key = none := by
  have hnone := hfree.functions hrecord
  rw [find?_functions_take, Option.or_eq_none_iff] at hnone
  exact hnone.2

theorem methodRecord?_apart (hfree : (s.take first c₁).declarations.Free second) {id : FunctionId}
    {key : String} {record : MethodRecord} (hrecord : second.methodRecord? id key = some record) :
    first.methodRecord? s.nextFunction key = none := by
  have hnone := hfree.methods hrecord
  rw [find?_methods_take, Option.or_eq_none_iff] at hnone
  exact hnone.2

/-- The tables say the same of two functions in either order, as each has the other's number on the other
side. -/
theorem Twin.declarations_exchange (h : s.Twin σ source source' s')
    (hnext : σ s.nextFunction = s.nextFunction + 1) (hnext' : σ (s.nextFunction + 1) = s.nextFunction)
    (hfirst : first.body? = some b₁) (hsecond : second.body? = some b₂)
    (hfree : (s.take first c₁).declarations.Free second) :
    ((s.take first c₁).take second c₂).declarations.settled.Renumbered σ
      ((s'.take (second.withBody b₂') c₁').take (first.withBody b₁') c₂').declarations.settled := by
  have hfirst' : (first.withBody b₁').body? = some b₁' := by simp [hfirst]
  have hsecond' : (second.withBody b₂').body? = some b₂' := by simp [hsecond]
  have hcount := h.nextFunction
  have hn : (s.take first c₁).nextFunction = s.nextFunction + 1 := nextFunction_take hfirst
  have hn' : (s'.take (second.withBody b₂') c₁').nextFunction = s.nextFunction + 1 :=
    (nextFunction_take hsecond').trans (congrArg (· + 1) hcount)
  have htypes := types_take (s := s.take first c₁) (c := c₂) hsecond
  have htypes₁ := types_take (s := s) (c := c₁) hfirst
  have htypes' := types_take (s := s'.take (second.withBody b₂') c₁') (c := c₂') hfirst'
  have htypes₁' := types_take (s := s') (c := c₁') hsecond'
  refine ⟨?_, ?_, fun key => ?_, fun key => ?_⟩
  · exact (htypes'.1.trans htypes₁'.1).trans (h.declarations.types.trans (htypes.1.trans htypes₁.1).symm)
  · exact (htypes'.2.trans htypes₁'.2).trans (h.declarations.globals.trans (htypes.2.trans htypes₁.2).symm)
  -- At most one of the two has an entry under a name, so which was declared first does not matter.
  · have hfirst := first.functionRecord?_renumber s.nextFunction key σ
    have hsecond := second.functionRecord?_renumber (s.nextFunction + 1) key σ
    rw [hnext] at hfirst
    rw [hnext'] at hsecond
    simp only [find?_functions_take, hn, hn', hcount, h.declarations.functions,
      Scan.Found.functionRecord?_withBody, hfirst, hsecond]
    exact Option.map_or_exchange _ fun _ => functionRecord?_apart hfree
  · have hfirst := first.methodRecord?_renumber s.nextFunction key σ
    have hsecond := second.methodRecord?_renumber (s.nextFunction + 1) key σ
    rw [hnext] at hfirst
    rw [hnext'] at hsecond
    simp only [find?_methods_take, hn, hn', hcount, h.declarations.methods,
      Scan.Found.methodRecord?_withBody, hfirst, hsecond]
    exact Option.map_or_exchange _ fun _ => methodRecord?_apart hfree

/-- Two functions that are declared one after the other, and the other way round. -/
theorem Twin.exchange (h : s.Twin σ source source' s')
    (hnext : σ s.nextFunction = s.nextFunction + 1) (hnext' : σ (s.nextFunction + 1) = s.nextFunction)
    (hbelow : IR.KeepsBelow σ s.nextFunction) (habove : IR.KeepsBelow σ (s.nextFunction + 2))
    (hfirst : first.body? = some b₁) (hsecond : second.body? = some b₂)
    (hfree₁ : s.declarations.Free first) (hfree₂ : (s.take first c₁).declarations.Free second)
    (hfree₂' : s'.declarations.Free (second.withBody b₂'))
    (hfree₁' : (s'.take (second.withBody b₂') c₁').declarations.Free (first.withBody b₁'))
    (hreach : s.cursor.Reaches c₂) (hreach' : s'.cursor.Reaches c₂')
    (hb₁ : s.cursor.Reaches b₁ ∧ s'.cursor.Reaches b₁' ∧ Scan.SameBlock b₁ b₁')
    (hb₂ : s.cursor.Reaches b₂ ∧ s'.cursor.Reaches b₂' ∧ Scan.SameBlock b₂ b₂') :
    ((s.take first c₁).take second c₂).Twin σ source source'
      ((s'.take (second.withBody b₂') c₁').take (first.withBody b₁') c₂') where
  declarations := h.declarations_exchange hnext hnext' hfirst hsecond hfree₂
  module := by
    obtain ⟨_, _, _, hpending₁, hpending₁'⟩ := Scan.Found.pendingBody?_of_body hfirst
    obtain ⟨_, _, _, hpending₂, hpending₂'⟩ := Scan.Found.pendingBody?_of_body hsecond
    rw [Declaring.module_take (hpending₂ _), Declaring.module_take (hpending₁ _),
      Declaring.module_take (hpending₁' b₁' _), Declaring.module_take (hpending₂' b₂' _),
      IR.Module.adding_adding, IR.Module.adding_adding]
    exact h.module.addingTwo hbelow habove hnext hnext' _ _
  bodies := by
    have hn : (s.take first c₁).nextFunction = s.nextFunction + 1 := nextFunction_take hfirst
    have hbody' : (second.withBody b₂').body? = some b₂' := by simp [hsecond]
    have hn' : (s'.take (second.withBody b₂') c₁').nextFunction = s'.nextFunction + 1 :=
      nextFunction_take hbody'
    have hpending₁ := h.pendingBody? b₁' s.nextFunction fun body hbody => by
      cases hfirst.symm.trans hbody
      exact hb₁
    have hpending₂ := h.pendingBody? b₂' (s.nextFunction + 1) fun body hbody => by
      cases hsecond.symm.trans hbody
      exact hb₂
    rw [hnext] at hpending₁
    rw [hnext'] at hpending₂
    -- Both sides put off the same two bodies, and in which order does not matter for twins.
    refine ((h.bodies.append hpending₁).append hpending₂).perm ?_ ?_
    · rw [← hn]
      exact (bodies_take (h.listed.take hfree₁) hfree₂).trans ((bodies_take h.listed hfree₁).append_right _)
    · refine ((bodies_take (h.listed'.take hfree₂') hfree₁').trans
        ((bodies_take h.listed' hfree₂').append_right _)).trans ?_
      rw [hn', h.nextFunction, List.append_assoc, List.append_assoc]
      exact List.perm_append_comm.append_left _
  listed := (h.listed.take hfree₁).take hfree₂
  listed' := (h.listed'.take hfree₂').take hfree₁'
  reached := by
    rw [cursor_take]
    exact h.reached.trans hreach
  reached' := by
    rw [cursor_take]
    exact h.reached'.trans hreach'

end Declaring

end Straightline
