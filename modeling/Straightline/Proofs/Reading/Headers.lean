import Straightline.Proofs.Reading.Names

/-!
# What headers are made of

A header that is read is one of four (`Scan.Header`), for a type, a global, a function or a method. Its
parts were read by the readers of such parts, and have passed the checks that they have to pass. What is
said of headers elsewhere is said of these four, and the readers of headers are not opened again.
-/

set_option autoImplicit false

namespace Straightline

namespace Scan

variable {α : Type} {types : SymbolTable Ty}

/-! ## Checks -/

theorem check_ok {outcome : Except Fault α} {c c' : Cursor} {a : α}
    (h : check outcome c = .ok a c') : outcome = .ok a ∧ c' = c := by
  cases outcome with
  | ok value =>
    cases h
    exact ⟨rfl, rfl⟩
  | error fault => cases h

theorem require_iff {holds : Bool} {fault : Fault} {c c' : Cursor} :
    require holds fault c = .ok () c' ↔ holds = true ∧ c' = c := by
  cases holds with
  | true => exact ⟨fun h => by cases h; exact ⟨rfl, rfl⟩, fun h => by rw [h.2]; rfl⟩
  | false => exact ⟨fun h => (nomatch h), fun h => (nomatch h.1)⟩

theorem require_ok {holds : Bool} {fault : Fault} {c c' : Cursor}
    (h : require holds fault c = .ok () c') : holds = true :=
  (require_iff.mp h).1

/-! ## Parts -/

/-- Somewhere the reader answers with `a`. -/
def Gives (reader : Scan α) (a : α) : Prop := ∃ c c', reader c = .ok a c'

theorem Gives.holds {reader : Scan α} {a : α} {P : α → Prop} (h : Gives reader a)
    (hreader : Ensures reader fun _ a _ => P a) : P a := by
  obtain ⟨c, c', hread⟩ := h
  exact hreader c a c' hread

/-- What follows the arrow of a method: further arguments with a result, or a result alone. -/
inductive MethodSignature (types : SymbolTable Ty) : Signature → Prop
  | further {s : Signature} : Gives (signature types) s → MethodSignature types s
  | alone {result : Ty} : Gives (type types) result → MethodSignature types ⟨[], result⟩

/-- What a header may be read as. -/
inductive Header (types : SymbolTable Ty) : Declaration → Prop
  | type {name : String} (kind : AggregateKind) : Gives nonemptyWord name →
      Header types (.type name kind)
  | global {name typeName : String} {ty : Ty} : Gives nonemptyWord name →
      Ty.resolve types typeName = .ok ty → ty.requireStorable name = .ok () →
      Header types (.global name ty)
  | function {name : String} {s : Signature} : Gives nonemptyWord name → Gives (signature types) s →
      Header types (.function name s)
  | method {name receiver ownerName : String} {owner : Ty} {s : Signature} : Gives nonemptyWord name →
      Gives nonemptyWord receiver → Ty.resolve types ownerName = .ok owner → owner.isAggregate = true →
      MethodSignature types s → Header types (.method name receiver owner s)

theorem header_methodHeader (types : SymbolTable Ty) (ownerName : String) :
    Ensures (methodHeader types ownerName) fun _ d _ => Header types d := by
  intro c d c' h
  obtain ⟨name, c₁, hname, h⟩ := bind_ok h
  revert h
  refine (?_ : Ensures _ fun _ d _ => Header types d) c₁ d c'
  -- The colon and the opening bracket
  iterate 5 refine ensures_after fun _ => ?_
  intro c d c' h
  obtain ⟨receiver, c₂, hreceiver, h⟩ := bind_ok h
  revert h
  refine (?_ : Ensures _ fun _ d _ => Header types d) c₂ d c'
  -- The owner's name once more, the closing bracket and the arrow
  iterate 9 refine ensures_after fun _ => ?_
  intro c d c' h
  obtain ⟨owner, c₃, howner, h⟩ := bind_ok h
  obtain ⟨_, c₄, haggregate, h⟩ := bind_ok h
  have hheader : ∀ s, MethodSignature types s → Header types (.method name receiver owner s) :=
    fun s hs => .method ⟨_, _, hname⟩ ⟨_, _, hreceiver⟩ (check_ok howner).1 (require_ok haggregate) hs
  obtain ⟨_, c₅, _, h⟩ := bind_ok h
  obtain ⟨more, c₆, _, h⟩ := bind_ok h
  cases more with
  | true =>
    obtain ⟨_, c₇, _, h⟩ := bind_ok h
    obtain ⟨s, c₈, hs, h⟩ := bind_ok h
    cases h
    exact hheader s (.further ⟨_, _, hs⟩)
  | false =>
    obtain ⟨result, c₇, hresult, h⟩ := bind_ok h
    cases h
    exact hheader _ (.alone ⟨_, _, hresult⟩)

theorem header_plainHeader (types : SymbolTable Ty) {name : String} (hname : Gives nonemptyWord name) :
    Ensures (plainHeader types name) fun _ d _ => Header types d := by
  intro c d c' h
  obtain ⟨typeName, c₁, _, h⟩ := bind_ok h
  cases hkind : AggregateKind.ofKeyword? typeName with
  | some kind =>
    rw [hkind] at h
    cases h
    exact .type kind hname
  | none =>
    rw [hkind] at h
    obtain ⟨ty, c₂, hty, h⟩ := bind_ok h
    obtain ⟨_, c₃, hstorable, h⟩ := bind_ok h
    cases h
    exact .global hname (check_ok hty).1 (check_ok hstorable).1

/-- Every header that is read is one of the four. -/
theorem header_declaration (types : SymbolTable Ty) :
    Ensures (declaration types) fun _ d _ => Header types d := by
  intro c d c' h
  obtain ⟨_, c₁, _, h⟩ := bind_ok h
  obtain ⟨name, c₂, hname, h⟩ := bind_ok h
  obtain ⟨dot, c₃, _, h⟩ := bind_ok h
  cases dot with
  | true =>
    obtain ⟨_, c₄, _, h⟩ := bind_ok h
    exact header_methodHeader types name _ _ _ h
  | false =>
    obtain ⟨_, c₄, _, h⟩ := bind_ok h
    obtain ⟨colon, c₅, _, h⟩ := bind_ok h
    obtain ⟨_, c₆, _, h⟩ := bind_ok h
    obtain ⟨_, c₇, _, h⟩ := bind_ok h
    obtain ⟨_, c₈, _, h⟩ := bind_ok h
    obtain ⟨paren, c₉, _, h⟩ := bind_ok h
    cases paren with
    | true =>
      obtain ⟨_, c₁₀, _, h⟩ := bind_ok h
      obtain ⟨s, c₁₁, hs, h⟩ := bind_ok h
      cases h
      exact .function ⟨_, _, hname⟩ ⟨_, _, hs⟩
    | false => exact header_plainHeader types ⟨_, _, hname⟩ _ _ _ h

end Scan

end Straightline
