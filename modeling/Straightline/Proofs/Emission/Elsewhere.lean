import Straightline.Proofs.Emission.Renumbering
import Straightline.Proofs.TwoPasses

/-!
# The same body at two places

A body that can be skipped can be read from its own bytes alone (`Scan.block_alone`), and from there it is read
wherever these bytes stand (`Scan.block_anywhere`). A body is compiled as its tree is, so what is made of it
at one place is made of it at any other, and an offset that it is warned or refused at is as far from where it begins
(`BodyContext.body_movable`).
-/

set_option autoImplicit false

namespace Straightline

/-- Where bytes follow, a place is at the offset asked for. -/
theorem Cursor.seek_eq {source bytes more : List UInt8} {offset : Nat} (hbytes : 0 < bytes.length)
    (h : source.drop offset = bytes ++ more) : Cursor.seek source offset = ⟨bytes ++ more, offset⟩ := by
  have hlength := congrArg List.length h
  rw [List.length_drop, List.length_append] at hlength
  rw [seek, h, Nat.min_eq_left (by omega)]

namespace Scan

/-! ## A block by itself -/

variable {c c₁ : Cursor} {tree : Block} {bytes : List UInt8}

theorem closes_block : Closes Byte.closeBrace block :=
  (Fork.closed_block (w := ⟨Byte.closeBrace, [], [], 0, 0⟩) (N := 0) rfl).closes

theorem advances_block : Advances block :=
  fun c _ _ h => advances_skipBlock c () _ (BodyContext.skipBlock_of_ok h)

/-- Reading a block takes bytes of which the last is its brace. -/
theorem block_bytes (h : block c = .ok tree c₁) :
    ∃ agreed, c.rest = agreed ++ Byte.closeBrace :: c₁.rest ∧
      c₁.offset = c.offset + (agreed ++ [Byte.closeBrace]).length := by
  obtain ⟨agreed, hrest⟩ := closes_block _ _ _ h
  obtain ⟨taken, htaken, hoffset⟩ := advances_block _ _ _ h
  refine ⟨agreed, hrest, ?_⟩
  have htwice : taken ++ c₁.rest = agreed ++ [Byte.closeBrace] ++ c₁.rest := by
    rw [← htaken, hrest, List.append_assoc]
    rfl
  rw [hoffset, List.append_cancel_right htwice]

/-- The bytes of a block may be followed by others and begin at another offset. -/
theorem block_followed {agreed left : List UInt8} {start stop : Nat}
    (h : block ⟨agreed ++ Byte.closeBrace :: left, start⟩ = .ok tree ⟨left, stop⟩)
    (right : List UInt8) (start' : Nat) :
    block ⟨agreed ++ Byte.closeBrace :: right, start'⟩
      = .ok (tree.relocate fun offset => start' + (offset - start)) ⟨right, start' + (stop - start)⟩ := by
  let w : Fork := ⟨Byte.closeBrace, left, right, start, start'⟩
  have hbefore : w.Before ⟨agreed ++ Byte.closeBrace :: left, start⟩
      ⟨agreed ++ Byte.closeBrace :: right, start'⟩ := ⟨agreed, 0, rfl, rfl⟩
  obtain ⟨c₁, hblock, k, hleft, rfl⟩ :=
    (Fork.closed_block rfl).follows hbefore (Nat.lt_succ_self _) h rfl
  cases hleft
  rw [Nat.add_sub_cancel_left]
  exact hblock

/-- A block that can be read can be read from its own bytes alone. -/
theorem block_alone (h : block c = .ok tree c₁) :
    ∃ bytes alone, 0 < bytes.length ∧ c.rest = bytes ++ c₁.rest ∧ c₁.offset = c.offset + bytes.length ∧
      block ⟨bytes, 0⟩ = .ok alone ⟨[], bytes.length⟩ := by
  obtain ⟨agreed, hrest, hoffset⟩ := block_bytes h
  obtain ⟨rest, start⟩ := c
  obtain ⟨rest₁, stop⟩ := c₁
  dsimp only at hrest hoffset
  subst hrest hoffset
  have halone := block_followed h [] 0
  rw [Nat.zero_add, Nat.add_sub_cancel_left] at halone
  exact ⟨agreed ++ [Byte.closeBrace], _, by simp, by rw [List.append_assoc]; rfl, rfl, halone⟩

/-- A block that is read from its own bytes is read wherever they stand. -/
theorem block_anywhere (h : block ⟨bytes, 0⟩ = .ok tree ⟨[], bytes.length⟩) (more : List UInt8)
    (start : Nat) :
    block ⟨bytes ++ more, start⟩ = .ok (tree.relocate (start + ·)) ⟨more, start + bytes.length⟩ := by
  obtain ⟨agreed, hrest⟩ := closes_block _ _ _ h
  dsimp only at hrest
  subst hrest
  rw [List.append_assoc]
  exact block_followed h more start

end Scan

/-! ## What is compiled of it -/

/-- The two runs end alike, the first from `s` and the second from `s'`: with the same value or the same
refusal, with the same builder, and with the same events after those that were there. Offsets count from `p` in
the first and from `q` in the second. -/
inductive Emit.EndsAlike {α : Type} (p q : Nat) (s s' : Emission) :
    EStateM.Result Refusal Emission α → EStateM.Result Refusal Emission α → Prop where
  | ok {a : α} {t t' : Emission} (events : List Event) (builder : t'.builder = t.builder)
      (log : t.log = s.log ++ events.map (Event.relocate (p + ·)))
      (log' : t'.log = s'.log ++ events.map (Event.relocate (q + ·))) :
      EndsAlike p q s s' (.ok a t) (.ok a t')
  | error {refusal : Refusal} {t t' : Emission} (events : List Event) (builder : t'.builder = t.builder)
      (log : t.log = s.log ++ events.map (Event.relocate (p + ·)))
      (log' : t'.log = s'.log ++ events.map (Event.relocate (q + ·))) :
      EndsAlike p q s s' (.error (refusal.relocate (p + ·)) t) (.error (refusal.relocate (q + ·)) t')

namespace Compile

/-- Two passes that began with `s` and `s'` have come equally far, counted from `p` in the first and from `q` in
the second: they have the same builder and the same events after those that were there. -/
structure Level (p q : Nat) (s s' : Emission) (t t' : BodyState) : Prop where
  builder : t'.builder = t.builder
  log : ∃ events : List Event, t.log = s.log ++ events.map (Event.relocate (p + ·)) ∧
    t'.log = s'.log ++ events.map (Event.relocate (q + ·))
  cursor : ∃ far, t.cursor.offset = p + far ∧ t'.cursor.offset = q + far

/-- The two passes end alike, with the same value or the same fault, and equally far. -/
inductive EndsAlike {α : Type} (p q : Nat) (s s' : Emission) :
    EStateM.Result Fault BodyState α → EStateM.Result Fault BodyState α → Prop where
  | ok {a : α} {t t' : BodyState} (level : Level p q s s' t t') : EndsAlike p q s s' (.ok a t) (.ok a t')
  | error {fault : Fault} {t t' : BodyState} (level : Level p q s s' t t') :
      EndsAlike p q s s' (.error fault t) (.error fault t')

end Compile

namespace BodyContext

variable {ctx : BodyContext} {scope : Scope IR.Value} {source source' : List UInt8} {p q : Nat} {c : Cursor}

/-- Two copies of a tree come to the same from the same builder. -/
theorem endsAlike_emitBlock (alone : Block) {s s' : Emission} (hbuilder : s'.builder = s.builder) :
    Emit.EndsAlike p q s s' (ctx.emitBlock scope (alone.relocate (p + ·)) s)
      (ctx.emitBlock scope (alone.relocate (q + ·)) s') := by
  have hmirrors : ∀ f, Emit.Mirrors Eq f (ctx.emitBlock scope alone)
      (ctx.emitBlock scope (alone.relocate f)) := fun f => mirrors_emitBlock .eq (.refl ctx) alone
  have hleft := hmirrors (p + ·) ⟨s.builder, []⟩ s rfl
  have hright := hmirrors (q + ·) ⟨s.builder, []⟩ s' hbuilder.symm
  generalize ctx.emitBlock scope (alone.relocate (p + ·)) s = left at hleft ⊢
  generalize ctx.emitBlock scope (alone.relocate (q + ·)) s' = right at hright ⊢
  generalize ctx.emitBlock scope alone ⟨s.builder, []⟩ = r at hleft hright
  cases hleft with
  | ok more builder fresh log =>
    cases hright with
    | ok more' builder' fresh' log' =>
      obtain rfl : more = more' := fresh.symm.trans fresh'
      exact .ok more (builder'.symm.trans builder) log log'
  | error more builder fresh log =>
    cases hright with
    | error more' builder' fresh' log' =>
      obtain rfl : more = more' := fresh.symm.trans fresh'
      exact .error more (builder'.symm.trans builder) log log'

/-- Two copies of a body are compiled alike. -/
theorem endsAlike_compileBlock {alone : Block} {c c' c₁ c₁' : Cursor} {n : Nat}
    (hblock : Scan.block c = .ok (alone.relocate (p + ·)) c₁) (hend : c₁.offset = p + n)
    (hblock' : Scan.block c' = .ok (alone.relocate (q + ·)) c₁') (hend' : c₁'.offset = q + n)
    {s s' : Emission} (hbuilder : s'.builder = s.builder) :
    Compile.EndsAlike p q s s' (ctx.compileBlock scope ⟨s, c⟩) (ctx.compileBlock scope ⟨s', c'⟩) := by
  have hleft := ctx.follows_compileBlock scope c s
  have hright := ctx.follows_compileBlock scope c' s'
  have halike : Emit.EndsAlike p q s s' (ctx.emitBlock scope (alone.relocate (p + ·)) s)
      (ctx.emitBlock scope (alone.relocate (q + ·)) s') := endsAlike_emitBlock alone hbuilder
  rw [hblock] at hleft
  rw [hblock'] at hright
  generalize ctx.compileBlock scope ⟨s, c⟩ = left at hleft ⊢
  generalize ctx.compileBlock scope ⟨s', c'⟩ = right at hright ⊢
  generalize hemit : ctx.emitBlock scope (alone.relocate (p + ·)) s = emitted at halike
  generalize hemit' : ctx.emitBlock scope (alone.relocate (q + ·)) s' = emitted' at halike
  cases halike with
  | ok events builder log log' =>
    cases hleft with
    | refused refused => cases refused.symm.trans hemit
    | ok emitted =>
      cases hright with
      | refused refused => cases refused.symm.trans hemit'
      | ok emitted' =>
        cases emitted.symm.trans hemit
        cases emitted'.symm.trans hemit'
        exact .ok ⟨builder, ⟨events, log, log'⟩, n, hend, hend'⟩
  | @error refusal _ _ events builder log log' =>
    cases hleft with
    | ok emitted => cases emitted.symm.trans hemit
    | refused refused =>
      cases hright with
      | ok emitted' => cases emitted'.symm.trans hemit'
      | refused refused' =>
        obtain ⟨hfault, hmade⟩ := EStateM.Result.error.inj (refused.symm.trans hemit)
        obtain ⟨hfault', hmade'⟩ := EStateM.Result.error.inj (refused'.symm.trans hemit')
        obtain ⟨rfl, hoffset⟩ := Refusal.mk.inj hfault
        obtain ⟨rfl, hoffset'⟩ := Refusal.mk.inj hfault'
        subst hmade hmade'
        exact .error ⟨builder, ⟨events, log, log'⟩, refusal.offset, hoffset, hoffset'⟩

/-- A body that can be skipped in one source can be skipped wherever its bytes stand, and is compiled to the
same there. -/
theorem body_movable (hskip : Scan.skipBlock (.seek source p) = .ok () c)
    (hsame : (source'.drop q).take (c.offset - p) = (source.drop p).take (c.offset - p)) :
    ∃ c', Scan.skipBlock (.seek source' q) = .ok () c' ∧ c'.offset = q + (c.offset - p) ∧
      ∀ (ctx : BodyContext) (scope : Scope IR.Value) (s s' : Emission), s'.builder = s.builder →
        Compile.EndsAlike p q s s' (ctx.compileBlock scope ⟨s, .seek source p⟩)
          (ctx.compileBlock scope ⟨s', .seek source' q⟩) := by
  obtain ⟨tree, htree⟩ := skipBlock_ok hskip
  obtain ⟨bytes, alone, hlength, hbytes, hoffset, halone⟩ := Scan.block_alone htree
  have hleft := Cursor.seek_eq hlength hbytes
  have hcount : c.offset - p = bytes.length := by
    rw [hoffset, hleft]
    exact Nat.add_sub_cancel_left _ _
  have hright : Cursor.seek source' q = ⟨bytes ++ (source'.drop q).drop bytes.length, q⟩ := by
    refine Cursor.seek_eq hlength ?_
    rw [hcount, show source.drop p = bytes ++ c.rest from hbytes, List.take_left' rfl] at hsame
    calc source'.drop q
        = (source'.drop q).take bytes.length ++ (source'.drop q).drop bytes.length :=
          (List.take_append_drop ..).symm
      _ = bytes ++ (source'.drop q).drop bytes.length := by rw [hsame]
  have htree' := Scan.block_anywhere halone ((source'.drop q).drop bytes.length) q
  rw [← hright] at htree'
  refine ⟨_, skipBlock_of_ok htree', by rw [hcount], fun ctx scope s s' hbuilder => ?_⟩
  have htree := Scan.block_anywhere halone c.rest p
  rw [← hleft] at htree
  exact endsAlike_compileBlock htree rfl htree' rfl hbuilder

/-- A body with a statement after its `return`. -/
def overrun : List UInt8 := "return 1\nreturn 2\n\x7d".toList.map Char.toUInt8

/-- The same body between other bytes. -/
def overrunBehind : List UInt8 :=
  "f() -> Int32 \x7b".toList.map Char.toUInt8 ++ overrun ++ " g".toList.map Char.toUInt8

/-- A statement that is reported at one place is reported at the other. -/
theorem body_movable_overrun :
    ∃ c', Scan.skipBlock (.seek overrunBehind 14) = .ok () c' ∧ c'.offset = 14 + 19 ∧
      ∀ (ctx : BodyContext) (scope : Scope IR.Value) (s s' : Emission), s'.builder = s.builder →
        Compile.EndsAlike 0 14 s s' (ctx.compileBlock scope ⟨s, .seek overrun 0⟩)
          (ctx.compileBlock scope ⟨s', .seek overrunBehind 14⟩) := by
  have hskip : Scan.skipBlock (.seek overrun 0) = .ok () ⟨[], 19⟩ := by rfl
  have hsame : (overrunBehind.drop 14).take 19 = (overrun.drop 0).take 19 := by decide +kernel
  exact body_movable hskip hsame

end BodyContext

end Straightline
