import Straightline.Proofs.Lowering.Activation

/-!
# Operands

What the code does that an instruction begins with: it pushes the words of values, and writes values to
addresses. Pushing reads nothing but locals, so operands are the same whatever has been written since.
-/

set_option autoImplicit false

namespace Straightline.Lowering

open IR (Address Datum Held Inst Kept Kinds Op Results Value operand)
open Wasm (Config Engine Instance Instr Invoke Pushes Runs Val)

/-! ## Addresses -/

section Words

variable {m : IR.Module} {p : Places} {byte : Nat → UInt8} {quiet : Nat → Prop} {ty : IRType}
variable {d : Datum} {v : Val}

/-- The word for an address is the address. -/
theorem word_ptr (ty : IRType) (a : UInt32) : word (.ptr ty) a.toNat = .i32 a :=
  congrArg Val.i32 (ofInt32_toNat a)

theorem Represents.of_resolves {a : Address} {target : UInt32} (h : p.Resolves m a ty target.toNat) :
    Represents m p byte quiet (.ptr ty) (.ptr a) (.i32 target) := by
  rw [← word_ptr ty]
  exact .scalar (.ptr h target.toNat_lt)

theorem Represents.ptr_inv (h : Represents m p byte quiet (.ptr ty) d v) :
    ∃ (a : Address) (target : UInt32), d = .ptr a ∧ v = .i32 target ∧
      p.Resolves m a ty target.toNat := by
  obtain ⟨n, hn, rfl⟩ := h.scalar_inv rfl
  cases hn with
  | @ptr _ a target hresolves hlt =>
    have htoNat : (UInt32.ofNat target).toNat = target := Nat.mod_eq_of_lt hlt
    refine ⟨a, UInt32.ofNat target, rfl, ?_, htoNat.symm ▸ hresolves⟩
    rw [← word_ptr ty, htoNat]

end Words

namespace Activation.At

variable {a : Activation} {m : IR.Module} {kinds : Kinds} {before rest : List Inst} {inst : Inst}
variable {results : Results} {mem : IR.Memory} {p : Places} {s s' : Instance} {locals : List Val}
variable {hp : UInt32} {v : Value} {d : Datum} {code : List Instr}

/-! ## Pushing -/

/-- A value that is there is pushed. -/
theorem pushValue (ha : a.Proper m kinds) (h : a.At m kinds before results mem p s locals hp)
    (hv : v ∈ DataImage.operands m) (hscoped : v.Scoped m a.f.params before) (hcode : a.ctx.pushValue v = .ok code)
    (hd : operand a.args results v = some d) :
    ∃ w, Represents m p s.memory.byte (a.Quiet m before) v.ty d w ∧ Pushes code locals w := by
  unfold operand at hd
  cases pushed_of_pushValue hcode with
  | @param index ty =>
    cases hscoped with
    | param hty =>
      obtain ⟨d', w, hd', hw, hrepresents⟩ := h.params index ty hty
      cases hd.symm.trans hd'
      exact ⟨w, hrepresents, fun _ _ _ _ => .localGet hw⟩
  | @inst id place ty hplace =>
    cases hscoped with
    | @inst _ inst hinst hvoid =>
      obtain ⟨d', w, place', hd', hplace', hw, hrepresents⟩ := h.results id inst hinst hvoid
      cases hd.symm.trans hd'
      cases hplace.symm.trans hplace'
      exact ⟨w, hrepresents, fun _ _ _ _ => .localGet hw⟩
  | @wide n =>
    cases hscoped with
    | const hfits =>
      cases hd
      cases hfits with
      | int hbits hn => exact ⟨_, .scalar (.int hbits hn), fun _ _ _ _ => .i64Const⟩
  | @word n ty hty =>
    cases hscoped with
    | const hfits =>
      cases hd
      cases hfits with
      | @int bits _ hbits hn =>
        refine ⟨word (.int bits) n, .scalar (.int hbits hn), fun _ _ _ _ => ?_⟩
        rw [word, if_neg hty]
        exact .i32Const
  | @struct fields ty address haddress =>
    cases hscoped with
    | const hfits =>
      cases hd
      cases hfits with
      | struct =>
        -- A structure that is constant lies in the static data, which is spared.
        obtain ⟨address', i, haddress', hitem, hi, hoffset⟩ := ha.suits.addressOf? hv rfl rfl
        cases haddress.symm.trans haddress'
        refine ⟨.i32 address, .struct (h.world.constants i _ _ hi hitem hoffset) fun x hlow hhigh => ?_,
          fun _ _ _ _ => .i32Const⟩
        exact .inl (constant_spared h.world.laid.data hi hitem hoffset ⟨hlow, hhigh⟩)
  | @global index ty address haddress =>
    cases hscoped with
    | @global _ g hg =>
      cases hd
      refine ⟨.i32 address, .of_resolves ⟨g.ty, address.toNat, 0, ?_, .nil, rfl⟩,
        fun _ _ _ _ => .i32Const⟩
      obtain ⟨start, hplace, hstart⟩ := IR.Module.globalPlaces_of hg
      have haddresses := congrArg (fun l => l[index]?) ha.suits.data.addresses
      have hlt := (List.getElem?_eq_some_iff.mp haddress).1
      rw [List.getElem?_map, List.getElem?_append_left hlt, haddress] at haddresses
      cases haddresses.trans hstart
      exact (congrArg (fun l => l[index]?) h.world.laid.globals).trans hplace

/-- The arguments of a call are pushed in their order. -/
theorem pushes (ha : a.Proper m kinds) (h : a.At m kinds before results mem p s locals hp)
    {args : List Value} (hmem : ∀ v ∈ args, v ∈ DataImage.operands m)
    (hscoped : ∀ v ∈ args, v.Scoped m a.f.params before) {codes : List (List Instr)}
    (hcodes : args.mapM a.ctx.pushValue = .ok codes) {data : List Datum}
    (hdata : args.mapM (operand a.args results) = some data) :
    ∃ words, RepresentAll m p s.memory.byte (a.Quiet m before) (args.map Value.ty) data words ∧
      ∀ (engine : Engine) (invoke : Invoke) (stack : List Val),
        Runs engine invoke codes.flatten ⟨s, locals, stack⟩
          ⟨s, locals, words.reverse ++ stack⟩ := by
  induction args generalizing codes data with
  | nil =>
    cases hcodes
    cases hdata
    exact ⟨[], .nil, fun _ _ _ => .nil⟩
  | cons v args ih =>
    rw [List.mapM_cons] at hcodes hdata
    obtain ⟨code, hcode, hcodes⟩ := Except.bind_ok hcodes
    obtain ⟨others, hothers, hcodes⟩ := Except.bind_ok hcodes
    cases hcodes
    obtain ⟨d, hd, hdata⟩ := Option.bind_eq_some_iff.mp hdata
    obtain ⟨ds, hds, hdata⟩ := Option.bind_eq_some_iff.mp hdata
    cases hdata
    obtain ⟨w, hw, hpush⟩ := h.pushValue ha (hmem v List.mem_cons_self)
      (hscoped v List.mem_cons_self) hcode hd
    obtain ⟨words, hwords, hpushes⟩ := ih (fun v' hv' => hmem v' (List.mem_cons_of_mem _ hv'))
      (fun v' hv' => hscoped v' (List.mem_cons_of_mem _ hv')) hothers hds
    refine ⟨w :: words, .cons hw hwords, fun engine invoke stack => ?_⟩
    rw [List.flatten_cons, List.reverse_cons, List.append_assoc]
    exact (hpush engine invoke s stack).append (hpushes engine invoke (w :: stack))

/-! ## Writing -/

theorem size_le (h : a.At m kinds before results mem p s locals hp) : s.memory.size ≤ UInt32.size := by
  have := h.world.pages
  unfold Wasm.Memory.size Wasm.pageBytes UInt32.size
  unfold Wasm.maxPages at this
  omega

/-- The bytes of a structure in hand are in memory. -/
theorem source_room (ha : a.Proper m kinds) (h : a.At m kinds before results mem p s locals hp)
    (hsplit : a.f.insts = before ++ inst :: rest) {ty : IRType} (hsized : Sized m.structs ty)
    {source : Nat} (hquiet : ∀ x, source ≤ x → x < source + m.sizeOf ty → a.Quiet m before x) :
    source + m.sizeOf ty ≤ s.memory.size := by
  have hsize := hsized.size_ne_zero ha.solid
  have hlast := h.quiet_lt ha hsplit (hquiet (source + m.sizeOf ty - 1) (by omega) (by omega))
  have := h.world.laid.heap
  have := h.world.room
  omega

/-- A value that is there can be stored. -/
theorem ready (ha : a.Proper m kinds) (h : a.At m kinds before results mem p s locals hp)
    (hsplit : a.f.insts = before ++ inst :: rest) (hv : v ∈ DataImage.operands m)
    (hscoped : v.Scoped m a.f.params before) (hkept : Kept kinds v.ty)
    (hd : operand a.args results v = some d) :
    Ready a.ctx m p s.memory.byte (a.Quiet m before) s.memory.size locals v d := by
  have hsized := Sized.of_kept ha.suits.typed hkept
  constructor
  case held =>
    intro push hpush
    obtain ⟨w, hw, hpushes⟩ := h.pushValue ha hv hscoped hpush hd
    refine ⟨w, hw, hpushes, fun source hstruct hsource => ?_⟩
    obtain ⟨source', rfl, _, hquiet⟩ := hw.struct_inv hstruct
    cases hsource
    exact h.source_room ha hsplit hsized hquiet
  case lasting => exact fun n hn => h.world.laid.numbered ha.suits.typed hkept hn
  case extent =>
    intro e he
    obtain ⟨e', he', his⟩ := ha.suits.layouts.extent hsized
    cases he.symm.trans he'
    exact his.size

end Activation.At

end Straightline.Lowering
