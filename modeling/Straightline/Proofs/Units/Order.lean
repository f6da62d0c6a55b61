import Straightline.Proofs.Declaring.Exchange

/-!
# The order of functions does not matter

Two functions that stand next to each other in a unit may be exchanged: the unit is accepted as before, and
what it leaves is the same, but for the numbers of the two functions (`Project.functions_exchange`).

The first phase declares the same on both sides, the two functions under each other's numbers. In the second
every body is compiled on its own, to the same instructions with their calls renumbered, so that one of the
units has a body that is refused if and only if the other has. What was there before the unit keeps its
numbers, and calls nothing that is renumbered.
-/

set_option autoImplicit false

namespace Straightline

open IR (FunctionId)

/-! ## What was there before -/

namespace IR

variable {m : Module} {σ : FunctionId → FunctionId}

/-- A finished function calls functions of its module. -/
theorem Module.Finishes.callee_lt {f : Function} {inst : Inst} {callee : Nat} {args : List Value}
    (h : m.Finishes f) (hinst : inst ∈ f.insts) (hop : inst.op = .call callee args) :
    callee < m.functions.length := by
  obtain ⟨label, init, last, hblocks, _, _, hinsts⟩ := h.body
  have hmem : inst ∈ init ++ [last] := by simpa [Function.insts, hblocks] using hinst
  have hverify := hinsts inst hmem
  refine Nat.lt_of_not_le fun hle => ?_
  have hnone : m.function? callee = none := List.getElem?_eq_none hle
  simp only [Module.verifyInst, hop, hnone] at hverify
  cases hverify

/-- A module stays as it is where none of its functions is renumbered. -/
theorem Module.Renumbered.self (hfinishes : ∀ f ∈ m.functions, m.Finishes f)
    (hσ : ∀ id : Nat, id < m.functions.length → σ id = id)
    (hbelow : KeepsBelow σ m.functions.length) : m.Renumbered σ m where
  name := rfl
  structs := rfl
  globals := rfl
  count := rfl
  functions id := by
    rcases Nat.lt_or_ge id m.functions.length with hid | hid
    · have hf : m.function? id = some m.functions[id] := List.getElem?_eq_getElem hid
      have hfinishes := hfinishes _ (List.getElem_mem hid)
      rw [hσ id hid, hf, Option.map_some,
        Function.renumber_eq_self fun inst hinst callee args hop =>
          hσ callee (hfinishes.callee_lt hinst hop)]
    · have hid' := Nat.le_of_not_lt (mt (hbelow id).mp (Nat.not_lt_of_le hid))
      have hnone : m.function? id = none := List.getElem?_eq_none hid
      have hnone' : m.function? (σ id) = none := List.getElem?_eq_none hid'
      rw [hnone, hnone']
      rfl

end IR

namespace Declarations

variable {d : Declarations} {m : IR.Module} {σ : FunctionId → FunctionId}

theorem Renumbered.self (h : d.Matches m) (hσ : ∀ id : Nat, id < m.functions.length → σ id = id) :
    d.Renumbered σ d where
  types := rfl
  globals := rfl
  functions name := by
    cases hfind : d.functions.find? name with
    | none => rfl
    | some r =>
      have hheader := h.functions _ (SymbolTable.mem_of_find? hfind)
      obtain ⟨hlt, _⟩ := List.getElem?_eq_some_iff.mp hheader
      rw [IR.Module.headers, List.length_map] at hlt
      rw [Option.map_some, FunctionRecord.renumber, hσ _ hlt]
  methods key := by
    cases hfind : d.methods.find? key with
    | none => rfl
    | some r =>
      have hheader := h.methods _ (SymbolTable.mem_of_find? hfind)
      obtain ⟨hlt, _⟩ := List.getElem?_eq_some_iff.mp hheader
      rw [IR.Module.headers, List.length_map] at hlt
      rw [Option.map_some, MethodRecord.renumber, hσ _ hlt]

end Declarations

/-! ## The first phase -/

/-- The state in which the first declaration of a unit is looked for. -/
def Project.declaring (p : Project) (unit : SourceUnit) : Declaring :=
  { p.opening unit with log := (p.opening unit).log ++ [.declarationsStarted] }

theorem Declare.declareAll_iff {p : Project} {unit : SourceUnit} {pending : Pending} {s : Declaring} :
    declareAll (p.opening unit) = .ok pending s ↔
      declareWithin (unit.bytes.length + 1) (p.declaring unit) = .ok () s ∧ pending = s.pending := by
  have hunfold : declareAll (p.opening unit) = (declareWithin (unit.bytes.length + 1) >>= fun _ =>
      get >>= fun s => pure s.pending) (p.declaring unit) := rfl
  rw [hunfold]
  constructor
  · intro h
    obtain ⟨_, s₁, hok, hrest⟩ := bind_ok h
    cases hrest
    exact ⟨hok, rfl⟩
  · rintro ⟨hok, rfl⟩
    rw [bind_of_ok hok]
    rfl

/-- Two units begin with the same declared, if nothing of that is renumbered. -/
theorem Project.Corresponds.twin {p : Project} {σ : FunctionId → FunctionId} (h : p.Corresponds)
    (hσ : ∀ id : Nat, id < p.builder.module.functions.length → σ id = id)
    (hbelow : IR.KeepsBelow σ p.builder.module.functions.length) (unitName : String)
    (source source' : List UInt8) :
    (p.declaring ⟨unitName, source⟩).Twin σ source source' (p.declaring ⟨unitName, source'⟩) where
  declarations := .self (d := p.declarations.settled) (h.matching.of_settled p.declarations.settled_settled) hσ
  module := .self (fun _ hf => Project.Sound.finishes h.awaits hf) hσ hbelow
  bodies := .nil
  listed := (p.listed_opening _).elsewhere
  listed' := (p.listed_opening _).elsewhere
  reached := .refl _
  reached' := .refl _

/-! ## The second phase -/

namespace Declaring

variable {σ : FunctionId → FunctionId} {source source' : List UInt8} {t t' : Declaring}

/-- Where no body is refused none is under other numbers, and every function is compiled to the same. -/
theorem Twin.emits {log log' : List Event} {e : Emission} (h : t.Twin σ source source' t')
    (hσ : Function.Injective σ) (hawaits : t.declarations.Awaits t.builder t.bodies)
    (hawaits' : t'.declarations.Awaits t'.builder t'.bodies)
    (hskips : ∀ body ∈ t.bodies,
      ∃ c, Scan.skipBlock (.seek source body.resume) = .ok () c)
    (hskips' : ∀ body ∈ t'.bodies,
      ∃ c, Scan.skipBlock (.seek source' body.resume) = .ok () c)
    (hok : t.bodies.forM (BodyContext.emitPending t.declarations source) ⟨t.builder, log⟩
      = .ok () e) :
    ∃ e', t'.bodies.forM (BodyContext.emitPending t'.declarations source')
      ⟨t'.builder, log'⟩ = .ok () e' ∧ e.builder.module.Renumbered σ e'.builder.module := by
  have hsimilar : t.builder.Similar σ t'.builder :=
    ⟨h.module.structs, fun id => by
      rw [h.module.functions]
      cases t.builder.module.function? id <;> rfl⟩
  have hcompiled : ∀ {body body' : PendingBody}, body ∈ t.bodies →
      body.Twin σ source source' body' →
      BodyContext.compiled t'.declarations source' ⟨t'.builder, log'⟩ body'
        = (BodyContext.compiled t.declarations source ⟨t.builder, log⟩ body).map
          (IR.Function.renumber σ) := by
    intro body body' hbody htwin
    obtain ⟨⟨f, hf, _⟩, _⟩ := hawaits.ready body hbody
    refine BodyContext.compiled_twin h.declarations htwin hsimilar hf ?_
    exact (h.module.functions _).trans (congrArg _ hf)
  -- Each loop compiles a body to what it would be compiled to at the start, so the order of the bodies is
  -- of no account.
  have hleft := BodyContext.forM_compiled (s := ⟨t.builder, log⟩) hawaits hskips
    (⟨rfl, fun _ => rfl⟩ : t.builder.Similar id t.builder) fun _ _ => rfl
  have hright := BodyContext.forM_compiled (s := ⟨t'.builder, log'⟩) hawaits' hskips'
    (⟨rfl, fun _ => rfl⟩ : t'.builder.Similar id t'.builder) fun _ _ => rfl
  rw [hok] at hleft
  cases hloop : t'.bodies.forM (BodyContext.emitPending t'.declarations source')
    ⟨t'.builder, log'⟩ with
  | error refusal e' =>
    rw [hloop] at hright
    obtain ⟨body', hbody', hnone⟩ := hright
    obtain ⟨body, hbody, htwin⟩ := h.bodies.back body' hbody'
    obtain ⟨f, hf, _⟩ := hleft.compiled body hbody
    rw [hcompiled hbody htwin, hf] at hnone
    cases hnone
  | ok _ e' =>
    rw [hloop] at hright
    refine ⟨e', rfl, hright.name.trans (h.module.name.trans hleft.name.symm),
      hright.structs.trans (h.module.structs.trans hleft.structs.symm),
      hright.globals.trans (h.module.globals.trans hleft.globals.symm),
      hright.count.trans (h.module.count.trans hleft.count.symm), fun id => ?_⟩
    -- A function of the unit was compiled on both sides; any other is what it was when it was declared.
    by_cases hid : ∃ body ∈ t.bodies, body.function = id
    · obtain ⟨body, hbody, rfl⟩ := hid
      obtain ⟨body', hbody', htwin⟩ := h.bodies.forth body hbody
      obtain ⟨f, hf, hplaced⟩ := hleft.compiled body hbody
      obtain ⟨f', hf', hplaced'⟩ := hright.compiled body' hbody'
      rw [hcompiled hbody htwin, hf] at hf'
      rw [← htwin.function, hplaced, hplaced', ← hf', Option.map_some]
    · have hother : ∀ body ∈ t.bodies, body.function ≠ id :=
        fun body hbody he => hid ⟨body, hbody, he⟩
      have hother' : ∀ body' ∈ t'.bodies, body'.function ≠ σ id := by
        intro body' hbody' he
        obtain ⟨body, hbody, htwin⟩ := h.bodies.back body' hbody'
        exact hother body hbody (hσ (htwin.function.symm.trans he))
      rw [hleft.others id hother, hright.others _ hother', h.module.functions]

end Declaring

/-! ## Both phases -/

namespace Project

variable {p : Project} {unitName : String} {before first second after : List UInt8} {s : Declaring}

theorem takeUnit_of_ok {unit : SourceUnit} {t : Declaring} {made : Emission}
    (hdeclare : Declare.declareAll (p.opening unit) = .ok t.pending t)
    (hemit : t.bodies.forM (BodyContext.emitPending t.declarations unit.bytes) t.begun = .ok () made) :
    (p.takeUnit unit).result = .ok () ∧
      (p.takeUnit unit).project = { p with
        declarations := t.declarations.withoutResumes t.pending.names
        builder := made.builder } := by
  have hends := takeUnit_ends p unit
  simp only [hdeclare, hemit] at hends
  rw [hends.2]
  exact ⟨rfl, rfl⟩

/-- Before the two functions the units declare the same. -/
theorem Corresponds.reachesExchange (h : p.Corresponds)
    (hrounds : Declare.Rounds
      (p.declaring ⟨unitName, before ++ (first ++ (second ++ after))⟩) s)
    (hfaces : s.cursor.Faces (first ++ (second ++ after)))
    (hfirst : first.head? = some Byte.lineFeed) (hsecond : second.head? = some Byte.lineFeed) :
    ∃ s', Declare.Rounds (p.declaring ⟨unitName, before ++ (second ++ (first ++ after))⟩) s' ∧
      s.Twin (Equiv.swap s.nextFunction (s.nextFunction + 1))
        (before ++ (first ++ (second ++ after))) (before ++ (second ++ (first ++ after))) s' ∧
      s'.cursor.Faces (second ++ (first ++ after)) := by
  obtain ⟨first, rfl⟩ := List.head?_eq_some_iff.mp hfirst
  obtain ⟨second, rfl⟩ := List.head?_eq_some_iff.mp hsecond
  obtain ⟨gap, hgap, hrest⟩ := hfaces
  let w : Fork := ⟨Byte.lineFeed, first ++ (Byte.lineFeed :: second ++ after),
    second ++ (Byte.lineFeed :: first ++ after), 0, 0⟩
  have hgrown : p.builder.module.functions.length ≤ s.nextFunction := hrounds.nextFunction_le
  have hopening := h.twin (fun id hid => ?_) (IR.keepsBelow_swap (.inl hgrown)) unitName
    (before ++ Byte.lineFeed :: w.left) (before ++ Byte.lineFeed :: w.right)
  · obtain ⟨s', hrounds', htwin, agreed, k, hleft, hright⟩ := hrounds.twin (w := w) hopening
      ⟨before, 0, rfl, rfl⟩ (by simp [Fork.Ahead, w, hrest]; omega) fun n hn => IR.keepsBelow_swap (.inl hn)
    refine ⟨s', hrounds', htwin, agreed, ?_, by rw [hright]; rfl⟩
    rw [hleft] at hrest
    obtain rfl := List.append_cancel_right hrest
    exact hgap
  · have hlt := Nat.lt_of_lt_of_le hid hgrown
    exact Equiv.swap_apply_of_ne_of_ne (Nat.ne_of_lt hlt) (Nat.ne_of_lt (Nat.lt_succ_of_lt hlt))

/-- Where the one unit is accepted the other is, and it leaves the same. -/
theorem Corresponds.exchange (h : p.Corresponds)
    (hrounds : Declare.Rounds
      (p.declaring ⟨unitName, before ++ (first ++ (second ++ after))⟩) s)
    (hfaces : s.cursor.Faces (first ++ (second ++ after)))
    (hfirst : Scan.WholeFunction s.declarations.types first)
    (hsecond : Scan.WholeFunction s.declarations.types second)
    (hok : (p.compileUnit ⟨unitName, before ++ (first ++ (second ++ after))⟩).result = .ok ()) :
    let outcome := p.compileUnit ⟨unitName, before ++ (first ++ (second ++ after))⟩
    let exchanged := p.compileUnit ⟨unitName, before ++ (second ++ (first ++ after))⟩
    exchanged.result = .ok () ∧ exchanged.project.name = outcome.project.name ∧
      outcome.project.declarations.settled.Renumbered (Equiv.swap s.nextFunction (s.nextFunction + 1))
        exchanged.project.declarations.settled ∧
      outcome.project.builder.module.Renumbered (Equiv.swap s.nextFunction (s.nextFunction + 1))
        exchanged.project.builder.module := by
  intro outcome exchanged
  have htaken : (p.takeUnit ⟨unitName, before ++ (first ++ (second ++ after))⟩).result = .ok () := by
    cases hresult : (p.takeUnit ⟨unitName, before ++ (first ++ (second ++ after))⟩).result with
    | ok _ => rfl
    | error refusal =>
      rw [(compileUnit_of_error hresult).1] at hok
      cases hok
  obtain ⟨t, e, hdeclare, hloop, hproject⟩ := takeUnit_ok htaken
  obtain ⟨hwithin, _⟩ := Declare.declareAll_iff.mp hdeclare
  -- The first phase
  obtain ⟨s', hrounds', htwin, hfaces'⟩ := h.reachesExchange hrounds hfaces hfirst.1 hsecond.1
  obtain ⟨_, _, heq⟩ := hrounds.declareWithin (Nat.lt_succ_self _)
  obtain ⟨_, hbound', heq'⟩ := hrounds'.declareWithin (Nat.lt_succ_self _)
  obtain ⟨t', hwithin', htwin'⟩ := htwin.declareWithin_exchanged (by simp; omega) hfirst hsecond hfaces
    hfaces' (heq ▸ hwithin) hbound'
  have hdeclare' := Declare.declareAll_iff.mpr ⟨heq'.trans hwithin', rfl⟩
  -- The second phase
  obtain ⟨e', hloop', hmodule⟩ := htwin'.emits (Equiv.injective _) (h.declareAll hdeclare).awaits
    (h.declareAll hdeclare').awaits (Declare.declareAll_resumable hdeclare)
    (Declare.declareAll_resumable hdeclare') hloop
  obtain ⟨hresult, hproject'⟩ := takeUnit_of_ok hdeclare' hloop'
  have houtcome : outcome.project = _ := congrArg Outcome.project (compileUnit_of_ok htaken)
  have hexchanged : exchanged.project = _ := congrArg Outcome.project (compileUnit_of_ok hresult)
  rw [houtcome, hexchanged, hproject, hproject']
  refine ⟨(congrArg Outcome.result (compileUnit_of_ok hresult)).trans hresult, rfl, ?_, hmodule⟩
  rw [Declarations.settled_withoutResumes, Declarations.settled_withoutResumes]
  exact htwin'.declarations

/-- Two functions or methods that stand next to each other in a unit may be exchanged. Let blanks at most be
left before them when rounds of the first phase have taken what comes earlier, let each begin with a line
feed and be one declaration as a whole, and let anything follow. Then the unit is accepted if and only if it
is accepted with the two the other way round. If so, both leave the same types and globals, functions and
methods of the same names and signatures, and modules that differ in the numbers of the two functions, where
they stand and where they are called, and in nothing else. The two may call each other, and whatever follows
may call both. -/
theorem functions_exchange (name : String) (units : List SourceUnit) (unitName : String)
    (before first second after : List UInt8) (s : Declaring)
    (hrounds : Declare.Rounds
      (((start name).run units).declaring ⟨unitName, before ++ first ++ second ++ after⟩) s)
    (hfaces : s.cursor.Faces (first ++ second ++ after))
    (hfirst : Scan.WholeFunction s.declarations.types first)
    (hsecond : Scan.WholeFunction s.declarations.types second) :
    let outcome := ((start name).run units).compileUnit ⟨unitName, before ++ first ++ second ++ after⟩
    let exchanged := ((start name).run units).compileUnit ⟨unitName, before ++ second ++ first ++ after⟩
    (outcome.result = .ok () ↔ exchanged.result = .ok ()) ∧
    (outcome.result = .ok () →
      exchanged.project.name = outcome.project.name ∧
      outcome.project.declarations.Renumbered (Equiv.swap s.nextFunction (s.nextFunction + 1))
        exchanged.project.declarations ∧
      outcome.project.builder.module.Renumbered (Equiv.swap s.nextFunction (s.nextFunction + 1))
        exchanged.project.builder.module) := by
  simp only [List.append_assoc] at hrounds hfaces ⊢
  have h := (corresponds_start name).run units
  -- No body is left in the tables when a unit has been compiled.
  have hsettled : ∀ unit, (((start name).run units).compileUnit unit).project.declarations.settled
      = (((start name).run units).compileUnit unit).project.declarations := fun unit =>
    Settled.settled
      (compileUnit_invariant Settled.of_sameTables Settled.takeUnit ((settled_start name).run units) unit)
      (compileUnit_invariant Corresponds.of_sameTables Corresponds.takeUnit h unit).matching
  refine ⟨⟨fun hok => (h.exchange hrounds hfaces hfirst hsecond hok).1, fun hok => ?_⟩, fun hok => ?_⟩
  · obtain ⟨s', hrounds', htwin, hfaces'⟩ := h.reachesExchange hrounds hfaces hfirst.1 hsecond.1
    rw [← htwin.types] at hfirst hsecond
    exact (h.exchange hrounds' hfaces' hsecond hfirst hok).1
  · have hexchanged := (h.exchange hrounds hfaces hfirst hsecond hok).2
    rwa [hsettled, hsettled] at hexchanged

def asciiBytes (text : String) : List UInt8 := text.toList.map Char.toUInt8

/-- A function that calls `pong`, on lines of its own. -/
def ping : List UInt8 := asciiBytes "\nping: (n: Int32) -> Int32 = \x7b\n  return pong(n)\n\x7d"

def pong : List UInt8 := asciiBytes "\npong: (n: Int32) -> Int32 = \x7b\n  return ping(n)\n\x7d"

/-- Two functions that call each other may be exchanged. -/
theorem functions_exchange_mutual :
    (((start "m").run []).compileUnit
      ⟨"u", asciiBytes "limit: Int32 = 9" ++ ping ++ pong ++ [Byte.lineFeed]⟩).result = .ok () ∧
    (((start "m").run []).compileUnit
      ⟨"u", asciiBytes "limit: Int32 = 9" ++ pong ++ ping ++ [Byte.lineFeed]⟩).result = .ok () ∧
    (((start "m").run []).compileUnit
      ⟨"u", asciiBytes "limit: Int32 = 9" ++ ping ++ pong ++ [Byte.lineFeed]⟩).project.builder.module.Renumbered
      (Equiv.swap 0 1) (((start "m").run []).compileUnit
        ⟨"u", asciiBytes "limit: Int32 = 9" ++ pong ++ ping ++ [Byte.lineFeed]⟩).project.builder.module := by
  have hok : (((start "m").run []).compileUnit
      ⟨"u", asciiBytes "limit: Int32 = 9" ++ ping ++ pong ++ [Byte.lineFeed]⟩).result = .ok () := by
    decide +kernel
  -- The first round takes the global.
  have hheader : Scan.declaration .empty
      (.start (asciiBytes "limit: Int32 = 9" ++ ping ++ pong ++ [Byte.lineFeed]))
      = .ok (.global "limit" (.primitive .int32))
        ⟨asciiBytes " = 9" ++ ping ++ pong ++ [Byte.lineFeed], 12⟩ := by rfl
  have hcontents : Scan.contents .empty (.primitive .int32)
      ⟨asciiBytes " = 9" ++ ping ++ pong ++ [Byte.lineFeed], 12⟩
      = .ok (.int 9) ⟨ping ++ pong ++ [Byte.lineFeed], 16⟩ := by rfl
  let s := ((start "m").run []).declaring
    ⟨"u", asciiBytes "limit: Int32 = 9" ++ ping ++ pong ++ [Byte.lineFeed]⟩
  have hround : Declare.round s = .ok () (s.take (.global "limit" (.primitive .int32) (.int 9))
      ⟨ping ++ pong ++ [Byte.lineFeed], 16⟩) :=
    Declare.round_iff.mpr ⟨_, _, .global hheader hcontents, rfl, rfl⟩
  have hping : Scan.WholeFunction .empty ping := ⟨rfl, _, _, _, .function rfl rfl rfl, rfl, rfl⟩
  have hpong : Scan.WholeFunction .empty pong := ⟨rfl, _, _, _, .function rfl rfl rfl, rfl, rfl⟩
  have hall := functions_exchange "m" [] "u" (asciiBytes "limit: Int32 = 9") ping pong
    [Byte.lineFeed] _ (.more hround .none) (Cursor.faces_rest _) hping hpong
  exact ⟨hok, hall.1.mp hok, (hall.2 hok).2.2⟩

end Project

end Straightline
