import Straightline.Proofs.Emission.Typing
import Straightline.Proofs.Meaning.Execution

/-!
# Bindings and where they live

While a body is compiled a scope says where each name lives; while it is evaluated the name holds a
value. At every point the place holds the value: a slot of the frame has it, or it is used directly. No
two names share a slot (`Tracks`), so assigning to one name changes no other, and whichever way a name
gets a new value, by a declaration, by an assignment or by the first assignment to a parameter, it is the
one slot of that name that is stored to (`Tracks.rebind`).
-/

set_option autoImplicit false

namespace Straightline.Meaning

open IR (Datum operand)

/-! ## Places in the frame -/

namespace Activation

/-- What lives in `storage` is the value `v`. -/
def Holds (act : Activation) (pt : Point) (v : Value) : Storage IR.Value → Prop
  | .slot address => ∃ k, operand act.params pt.results address = some (.ptr (act.slot k)) ∧
      pt.frame[k]? = some (some v.datum)
  | .direct value => operand act.params pt.results value = some v.datum

/-- The name lives in slot `k`. -/
def LivesIn (act : Activation) (scope : Scope IR.Value) (pt : Point) (name : String) (k : Nat) :
    Prop :=
  ∃ b address, scope.lookup name = some b ∧ b.storage = .slot address ∧
    operand act.params pt.results address = some (.ptr (act.slot k))

/-- The bindings in scope are those of the evaluation, and live where they hold their values, each name
in a slot of its own. -/
structure Tracks (act : Activation) (scope : Scope IR.Value) (locals : Locals) (pt : Point) :
    Prop where
  bound : ∀ name b, scope.lookup name = some b →
    ∃ l, locals.lookup name = some l ∧ l.ty = b.ty ∧ act.Holds pt l.value b.storage
  free : ∀ name, scope.lookup name = none → locals.lookup name = none
  apart : ∀ name name' k, act.LivesIn scope pt name k → act.LivesIn scope pt name' k → name = name'

variable {act : Activation} {pt pt' : Point} {v : Value} {storage : Storage IR.Value}
  {scope scope' : Scope IR.Value} {locals locals' : Locals} {name : String} {ty : Ty}
  {address value : IR.Value} {k : Nat}

theorem slot_inj {k k' : Nat} (h : Datum.ptr (act.slot k) = .ptr (act.slot k')) : k = k' := by
  unfold slot at h
  simp only [Datum.ptr.injEq, IR.Address.mk.injEq, IR.Base.slot.injEq, and_true] at h
  exact Nat.add_left_cancel h

/-- A value goes on living where it does while filled slots keep what they hold. -/
theorem Holds.later (h : act.Holds pt v storage) (hle : pt.results.Le pt'.results)
    (hframe : ∀ (k : Nat) (d : Datum), pt.frame[k]? = some (some d) →
      pt'.frame[k]? = some (some d)) :
    act.Holds pt' v storage := by
  cases storage with
  | slot address =>
    obtain ⟨k, hk, hv⟩ := h
    exact ⟨k, IR.operand_le hle hk, hframe k _ hv⟩
  | direct value => exact IR.operand_le hle h

/-- And while another slot is stored to. -/
theorem Holds.elsewhere {d : Option Datum} (h : act.Holds pt v storage) (hle : pt.results.Le pt'.results)
    (hframe : pt'.frame = pt.frame.set k d)
    (hother : ∀ address k', storage = .slot address →
      operand act.params pt.results address = some (.ptr (act.slot k')) → k ≠ k') :
    act.Holds pt' v storage := by
  cases storage with
  | slot address =>
    obtain ⟨k', hk', hv⟩ := h
    refine ⟨k', IR.operand_le hle hk', ?_⟩
    rw [hframe, List.getElem?_set_ne (hother address k' rfl hk')]
    exact hv
  | direct value => exact IR.operand_le hle h

namespace LivesIn

/-- A name lives where its binding says. -/
theorem of_lookup_eq (h : act.LivesIn scope' pt name k) (hname : scope'.lookup name = scope.lookup name) :
    act.LivesIn scope pt name k := by
  obtain ⟨b, address, hb, hrest⟩ := h
  exact ⟨b, address, hname.symm.trans hb, hrest⟩

theorem eq_slot {k' : Nat} {name' : String} (h : act.LivesIn scope pt name k')
    (hb : scope.lookup name = some ⟨name', ty, .slot address⟩)
    (haddress : operand act.params pt.results address = some (.ptr (act.slot k))) : k' = k := by
  obtain ⟨b, address', hb', hstorage, hk'⟩ := h
  cases hb'.symm.trans hb
  cases hstorage
  exact slot_inj (Option.some.inj (hk'.symm.trans haddress))

end LivesIn

namespace Tracks

/-- A slot that a name lives in is filled. -/
theorem filled (h : act.Tracks scope locals pt) (hk : act.LivesIn scope pt name k) :
    ∃ l, locals.lookup name = some l ∧ pt.frame[k]? = some (some l.value.datum) := by
  obtain ⟨b, address, hb, hstorage, hk⟩ := hk
  obtain ⟨l, hl, _, hholds⟩ := h.bound name b hb
  rw [hstorage] at hholds
  obtain ⟨k', hk', hv⟩ := hholds
  rw [hk] at hk'
  rw [slot_inj (Option.some.inj hk')]
  exact ⟨l, hl, hv⟩

/-- No name comes to live in another slot when more results are known. -/
theorem livesIn_of_le (h : act.Tracks scope locals pt) (hle : pt.results.Le pt'.results)
    (hk : act.LivesIn scope pt' name k) : act.LivesIn scope pt name k := by
  obtain ⟨b, address, hb, hstorage, hk⟩ := hk
  obtain ⟨l, _, _, hholds⟩ := h.bound name b hb
  rw [hstorage] at hholds
  obtain ⟨k', hk', _⟩ := hholds
  have hsame := IR.operand_le hle hk'
  rw [hk] at hsame
  rw [slot_inj (Option.some.inj hsame)]
  exact ⟨b, address, hb, hstorage, hk'⟩

theorem later (h : act.Tracks scope locals pt) (hle : pt.results.Le pt'.results)
    (hframe : ∀ (k : Nat) (d : Datum), pt.frame[k]? = some (some d) →
      pt'.frame[k]? = some (some d)) :
    act.Tracks scope locals pt' where
  bound := by
    intro name b hb
    obtain ⟨l, hl, hty, hholds⟩ := h.bound name b hb
    exact ⟨l, hl, hty, hholds.later hle hframe⟩
  free := h.free
  apart := fun name name' k hk hk' =>
    h.apart name name' k (h.livesIn_of_le hle hk) (h.livesIn_of_le hle hk')

/-- A name comes to hold another value, in a slot that no other name lives in. -/
theorem rebind {l : Local} (h : act.Tracks scope locals pt) (hle : pt.results.Le pt'.results)
    (hscope : ∀ name', scope'.lookup name'
      = if name = name' then some ⟨name, l.ty, .slot address⟩ else scope.lookup name')
    (hlocals : ∀ name', locals'.lookup name'
      = if name = name' then some l else locals.lookup name')
    (haddress : operand act.params pt'.results address = some (.ptr (act.slot k)))
    (hk : k < pt.frame.length) (hframe : pt'.frame = pt.frame.set k (some l.value.datum))
    (hown : ∀ name', act.LivesIn scope pt name' k → name = name') :
    act.Tracks scope' locals' pt' := by
  -- The other names live where they did, and that is elsewhere.
  have hother : ∀ name' k', name ≠ name' → act.LivesIn scope' pt' name' k' →
      act.LivesIn scope pt name' k' ∧ k ≠ k' := by
    intro name' k' hname hlives
    have hbefore : act.LivesIn scope pt name' k' :=
      h.livesIn_of_le hle (hlives.of_lookup_eq ((hscope name').trans (if_neg hname)))
    refine ⟨hbefore, ?_⟩
    rintro rfl
    exact hname (hown name' hbefore)
  have hself : ∀ k', act.LivesIn scope' pt' name k' → k' = k := fun k' hlives =>
    hlives.eq_slot ((hscope name).trans (if_pos rfl)) haddress
  constructor
  case bound =>
    intro name' b hb
    rw [hscope] at hb
    rw [hlocals]
    split at hb
    · rename_i hname
      cases hb
      refine ⟨l, if_pos hname, rfl, k, haddress, ?_⟩
      rw [hframe, List.getElem?_set_self hk]
    · rename_i hname
      obtain ⟨l', hl', hty, hholds⟩ := h.bound name' b hb
      refine ⟨l', (if_neg hname).trans hl', hty, hholds.elsewhere hle hframe ?_⟩
      rintro address' _ hstorage hk' rfl
      exact hname (hown name' ⟨b, address', hb, hstorage, hk'⟩)
  case free =>
    intro name' hb
    rw [hscope] at hb
    rw [hlocals]
    split at hb
    · cases hb
    · rename_i hname
      exact (if_neg hname).trans (h.free name' hb)
  case apart =>
    intro name₁ name₂ k' h₁ h₂
    by_cases hname₁ : name = name₁
    · subst hname₁
      by_cases hname₂ : name = name₂
      · exact hname₂
      · exact absurd (hself k' h₁).symm (hother name₂ k' hname₂ h₂).2
    · obtain ⟨hbefore₁, hne⟩ := hother name₁ k' hname₁ h₁
      by_cases hname₂ : name = name₂
      · subst hname₂
        exact absurd (hself k' h₂).symm hne
      · exact h.apart name₁ name₂ k' hbefore₁ (hother name₂ k' hname₂ h₂).1

/-- A name is bound to a value that is used directly. -/
theorem declare_direct (h : act.Tracks scope locals pt)
    (hvalue : operand act.params pt.results value = some v.datum) :
    act.Tracks (scope.declare name ty (.direct value)) (⟨name, ty, v⟩ :: locals) pt := by
  have hlives : ∀ name' k, act.LivesIn (scope.declare name ty (.direct value)) pt name' k →
      act.LivesIn scope pt name' k := by
    intro name' k h
    rcases h with ⟨b, address, hb, hstorage, hk⟩
    rw [Scope.lookup_declare] at hb
    split at hb
    · cases hb
      cases hstorage
    · exact ⟨b, address, hb, hstorage, hk⟩
  refine ⟨fun name' b hb => ?_, fun name' hb => ?_, fun name₁ name₂ k h₁ h₂ =>
    h.apart name₁ name₂ k (hlives name₁ k h₁) (hlives name₂ k h₂)⟩
  · rw [Scope.lookup_declare] at hb
    rw [Locals.lookup_cons]
    split at hb
    · rename_i hname
      cases hb
      exact ⟨_, if_pos hname, rfl, hvalue⟩
    · rename_i hname
      rw [if_neg hname]
      exact h.bound name' b hb
  · rw [Scope.lookup_declare] at hb
    rw [Locals.lookup_cons]
    split at hb
    · cases hb
    · rename_i hname
      rw [if_neg hname]
      exact h.free name' hb

/-- A name is bound in a slot in which nothing was yet. -/
theorem declare_slot (h : act.Tracks scope locals pt) (hle : pt.results.Le pt'.results)
    (haddress : operand act.params pt'.results address = some (.ptr (act.slot k)))
    (hempty : pt.frame[k]? = some none)
    (hframe : pt'.frame = pt.frame.set k (some v.datum))
    (hlocals : ∀ name', locals'.lookup name'
      = if name = name' then some ⟨name, ty, v⟩ else locals.lookup name') :
    act.Tracks (scope.declare name ty (.slot address)) locals' pt' := by
  refine h.rebind (l := ⟨name, ty, v⟩) hle (fun name' => Scope.lookup_declare ..) hlocals haddress
    (List.getElem?_eq_some_iff.mp hempty).1 hframe fun name' hlives => ?_
  obtain ⟨l, _, hfilled⟩ := h.filled hlives
  rw [hempty] at hfilled
  cases hfilled

/-- A name is bound in a slot that is added to the frame with what it holds. -/
theorem declare_new (h : act.Tracks scope locals pt) (hle : pt.results.Le pt'.results)
    (hframe : pt'.frame = pt.frame ++ [some v.datum])
    (haddress : operand act.params pt'.results address = some (.ptr (act.slot pt.frame.length)))
    (hlocals : ∀ name', locals'.lookup name'
      = if name = name' then some ⟨name, ty, v⟩ else locals.lookup name') :
    act.Tracks (scope.declare name ty (.slot address)) locals' pt' := by
  have hopened : act.Tracks scope locals ⟨pt.results, pt.frame ++ [none]⟩ :=
    h.later (.refl _) fun k d hk =>
      (List.getElem?_append_left (List.getElem?_eq_some_iff.mp hk).1).trans hk
  refine hopened.declare_slot hle haddress ?_ ?_ hlocals
  · simp
  · rw [hframe]
    simp

/-- A name that lives in a slot is assigned to. -/
theorem assign {b : Binding IR.Value} (h : act.Tracks scope locals pt)
    (hle : pt.results.Le pt'.results) (hb : scope.lookup name = some b)
    (hstorage : b.storage = .slot address)
    (haddress : operand act.params pt.results address = some (.ptr (act.slot k)))
    (hframe : pt'.frame = pt.frame.set k (some v.datum)) :
    act.Tracks scope (locals.assign name v) pt' := by
  have hlives : act.LivesIn scope pt name k := ⟨b, address, hb, hstorage, haddress⟩
  obtain ⟨l, hl, hfilled⟩ := h.filled hlives
  obtain ⟨l', hl', hty, _⟩ := h.bound name b hb
  rw [hl] at hl'
  cases hl'
  have hname : b.name = name := by
    unfold Scope.lookup at hb
    simpa using List.find?_some hb
  refine h.rebind (l := { l with value := v }) hle (fun name' => ?_) (fun name' => ?_)
    (IR.operand_le hle haddress) (List.getElem?_eq_some_iff.mp hfilled).1 hframe
    fun name' hlives' => h.apart name name' k hlives hlives'
  · split
    · rename_i hname'
      subst hname'
      rw [hb, hty, ← hstorage, ← hname]
    · rfl
  · rw [Locals.lookup_assign, hl]
    rfl

end Tracks

/-! ## What names stand for -/

/-- What a name stands for while it is evaluated lives where it is compiled to live. -/
def Stands (act : Activation) (pt : Point) (ty : Ty) (storage : Storage IR.Value) : Place → Prop
  | .held v => act.Holds pt v storage
  | .global index =>
    storage = Declaring.globalStorage ty ⟨.global index, .ptr ty.layoutType⟩

section Places

variable {ctx : BodyContext} {w : IR.Site}

theorem place?_bound (names : Declarations) {b : Binding IR.Value} (h : act.Tracks scope locals pt)
    (hb : scope.lookup name = some b) :
    ∃ l, locals.lookup name = some l ∧ place? names locals name = some (b.ty, .held l.value) ∧
      act.Holds pt l.value b.storage := by
  obtain ⟨l, hl, hty, hholds⟩ := h.bound name b hb
  refine ⟨l, hl, ?_, hholds⟩
  unfold place?
  rw [hl, ← hty]

theorem place?_global (hctx : ctx.Fits w) (h : act.Tracks scope locals pt)
    (hfree : scope.lookup name = none)
    (hlookup : ctx.lookup? scope name = some (ty, storage)) :
    ∃ index, place? ctx.declarations locals name = some (ty, .global index) ∧
      storage = Declaring.globalStorage ty ⟨.global index, .ptr ty.layoutType⟩ := by
  obtain ⟨record, hfind, rfl, rfl⟩ := BodyContext.lookup?_global hfree hlookup
  obtain ⟨index, hentry, hplace⟩ := place?_of_find? (h.free name hfree) hfind
  exact ⟨index, hplace, (hctx.declarations.globals index _ hentry).stored⟩

/-- A name that was looked up stands for something. -/
theorem place?_of_lookup? (hctx : ctx.Fits w) (h : act.Tracks scope locals pt)
    (hlookup : ctx.lookup? scope name = some (ty, storage)) :
    ∃ place, place? ctx.declarations locals name = some (ty, place) ∧
      act.Stands pt ty storage place := by
  cases hb : scope.lookup name with
  | some b =>
    obtain ⟨l, _, hplace, hholds⟩ := place?_bound ctx.declarations h hb
    obtain ⟨rfl, rfl⟩ := BodyContext.lookup?_local hb hlookup
    exact ⟨.held l.value, hplace, hholds⟩
  | none =>
    obtain ⟨index, hplace, hstorage⟩ := place?_global hctx h hb hlookup
    exact ⟨.global index, hplace, hstorage⟩

end Places

end Activation

end Straightline.Meaning
