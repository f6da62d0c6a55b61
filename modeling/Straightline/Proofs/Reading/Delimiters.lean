import Mathlib.Order.Bounds.Defs
import Straightline.Proofs.Reading.Unrolling

/-!
# Skipping and counting

The readers that skip follow the grammar and count nothing. They end all the same where counting would have
them: a block with the first brace that closes more than was opened since, an argument list with the first
such parenthesis (`skipping_stops_at_closer`).

For each reader it is said what the bytes it takes are like (`Scan.Spells`). Words, blanks and operators are
bare of brackets, an expression balances its parentheses and has no brace, a statement balances both. What
follows an opening bracket is such bytes and the closing one. A reader that puts the cursor back has taken
none of the bytes it went over, so it does not matter what they are.
-/

set_option autoImplicit false

namespace Straightline

/-! ## Balance -/

/-- Never more of `closes` than of `opens` from the start, and as many in all. -/
structure Balanced (opens closes : UInt8) (bytes : List UInt8) : Prop where
  sane : ∀ before, before <+: bytes → before.count closes ≤ before.count opens
  settled : bytes.count closes = bytes.count opens

namespace Balanced

variable {opens closes : UInt8} {xs ys : List UInt8}

theorem of_free (hopens : opens ∉ xs) (hcloses : closes ∉ xs) : Balanced opens closes xs where
  sane := by
    intro before hbefore
    rw [List.count_eq_zero_of_not_mem fun hmem => hcloses (hbefore.subset hmem)]
    exact Nat.zero_le _
  settled := by rw [List.count_eq_zero_of_not_mem hopens, List.count_eq_zero_of_not_mem hcloses]

theorem append (hx : Balanced opens closes xs) (hy : Balanced opens closes ys) :
    Balanced opens closes (xs ++ ys) where
  sane := by
    intro before hbefore
    -- What reaches into the second part has all of the first before it, where the two counts are the same.
    rcases List.prefix_or_prefix_of_prefix hbefore (List.prefix_append xs ys) with h | ⟨more, rfl⟩
    · exact hx.sane before h
    · have hmore := hy.sane more ((List.prefix_append_right_inj xs).mp hbefore)
      have hsettled := hx.settled
      simp only [List.count_append]
      omega
  settled := by rw [List.count_append, List.count_append, hx.settled, hy.settled]

/-- What is balanced stays so within its brackets. -/
theorem wrap (hne : opens ≠ closes) (hx : Balanced opens closes xs) :
    Balanced opens closes (opens :: xs ++ [closes]) := by
  have hsettled := hx.settled
  refine ⟨fun before hbefore => ?_, ?_⟩
  · rcases List.prefix_concat_iff.mp hbefore with rfl | h
    · simp [hne, hne.symm, hsettled]
    · rcases List.prefix_cons_iff.mp h with rfl | ⟨before, rfl, hinner⟩
      · exact Nat.le_refl _
      · have hle := hx.sane before hinner
        simp only [List.count_cons_of_ne hne, List.count_cons_self]
        omega
  · simp [hne, hne.symm, hsettled]

end Balanced

/-- No bracket among the bytes. -/
structure Bare (bytes : List UInt8) : Prop where
  openParen : Byte.openParen ∉ bytes
  closeParen : Byte.closeParen ∉ bytes
  openBrace : Byte.openBrace ∉ bytes
  closeBrace : Byte.closeBrace ∉ bytes

/-- Bytes as they stand in an expression. -/
structure Inline (bytes : List UInt8) : Prop where
  parens : Balanced Byte.openParen Byte.closeParen bytes
  openBrace : Byte.openBrace ∉ bytes
  closeBrace : Byte.closeBrace ∉ bytes

/-- Bytes as they stand in a block. -/
structure Matched (bytes : List UInt8) : Prop where
  parens : Balanced Byte.openParen Byte.closeParen bytes
  braces : Balanced Byte.openBrace Byte.closeBrace bytes

/-- Bytes of which the last is `stop`, after such as `P` describes. -/
def EndsWith (stop : UInt8) (P : List UInt8 → Prop) (bytes : List UInt8) : Prop :=
  ∃ inner, bytes = inner ++ [stop] ∧ P inner

section Kinds

variable {xs ys : List UInt8}

theorem Bare.inline (h : Bare xs) : Inline xs :=
  ⟨.of_free h.openParen h.closeParen, h.openBrace, h.closeBrace⟩

theorem Inline.matched (h : Inline xs) : Matched xs := ⟨h.parens, .of_free h.openBrace h.closeBrace⟩

theorem Bare.nil : Bare [] := ⟨List.not_mem_nil, List.not_mem_nil, List.not_mem_nil, List.not_mem_nil⟩

theorem Bare.append (hx : Bare xs) (hy : Bare ys) : Bare (xs ++ ys) := by
  constructor <;> rw [List.mem_append, not_or]
  · exact ⟨hx.openParen, hy.openParen⟩
  · exact ⟨hx.closeParen, hy.closeParen⟩
  · exact ⟨hx.openBrace, hy.openBrace⟩
  · exact ⟨hx.closeBrace, hy.closeBrace⟩

/-- Where no byte that is kept is a bracket. -/
theorem Bare.of_forall {keep : UInt8 → Bool} (hkeep : ∀ b ∈ xs, keep b = true)
    (hparens : keep Byte.openParen = false ∧ keep Byte.closeParen = false)
    (hbraces : keep Byte.openBrace = false ∧ keep Byte.closeBrace = false) : Bare xs := by
  have hfree : ∀ b, keep b = false → b ∉ xs := fun b hb hmem => by
    rw [hkeep b hmem] at hb
    cases hb
  exact ⟨hfree _ hparens.1, hfree _ hparens.2, hfree _ hbraces.1, hfree _ hbraces.2⟩

theorem Inline.append (hx : Inline xs) (hy : Inline ys) : Inline (xs ++ ys) := by
  refine ⟨hx.parens.append hy.parens, ?_, ?_⟩ <;> rw [List.mem_append, not_or]
  · exact ⟨hx.openBrace, hy.openBrace⟩
  · exact ⟨hx.closeBrace, hy.closeBrace⟩

theorem Matched.append (hx : Matched xs) (hy : Matched ys) : Matched (xs ++ ys) :=
  ⟨hx.parens.append hy.parens, hx.braces.append hy.braces⟩

theorem EndsWith.prepend {stop : UInt8} {P : List UInt8 → Prop}
    (happend : ∀ {xs ys}, P xs → P ys → P (xs ++ ys)) (hx : P xs) (hy : EndsWith stop P ys) :
    EndsWith stop P (xs ++ ys) := by
  obtain ⟨inner, rfl, hinner⟩ := hy
  exact ⟨xs ++ inner, (List.append_assoc ..).symm, happend hx hinner⟩

/-- A parenthesis and what closes it. -/
theorem EndsWith.call (h : EndsWith Byte.closeParen Inline xs) : Inline (Byte.openParen :: xs) := by
  obtain ⟨inner, rfl, hinner⟩ := h
  have hopen := hinner.openBrace
  have hclose := hinner.closeBrace
  refine ⟨hinner.parens.wrap (by decide), ?_, ?_⟩
  · rw [List.mem_cons, List.mem_append, List.mem_singleton]
    rintro (h | h | h)
    · exact absurd h (by decide)
    · exact hopen h
    · exact absurd h (by decide)
  · rw [List.mem_cons, List.mem_append, List.mem_singleton]
    rintro (h | h | h)
    · exact absurd h (by decide)
    · exact hclose h
    · exact absurd h (by decide)

/-- A brace and what closes it. -/
theorem EndsWith.block (h : EndsWith Byte.closeBrace Matched xs) : Matched (Byte.openBrace :: xs) := by
  obtain ⟨inner, rfl, hinner⟩ := h
  refine ⟨?_, hinner.braces.wrap (by decide)⟩
  have hopen : Balanced Byte.openParen Byte.closeParen [Byte.openBrace] := .of_free (by decide) (by decide)
  have hclose : Balanced Byte.openParen Byte.closeParen [Byte.closeBrace] := .of_free (by decide) (by decide)
  exact hopen.append (hinner.parens.append hclose)

end Kinds

/-! ## Where arguments follow -/

/-- Bytes up to where the arguments of a call begin, or without any bracket. -/
def Begins : Bool → List UInt8 → Prop
  | true => EndsWith Byte.openParen Bare
  | false => Bare

theorem Begins.prepend {call : Bool} {xs ys : List UInt8} (hx : Bare xs) (hy : Begins call ys) :
    Begins call (xs ++ ys) := by
  cases call with
  | true => exact EndsWith.prepend Bare.append hx hy
  | false => exact hx.append hy

/-- What begins a call, and what closes its arguments. -/
theorem Begins.call {xs ys : List UInt8} (hx : Begins true xs) (hy : EndsWith Byte.closeParen Inline ys) :
    Inline (xs ++ ys) := by
  obtain ⟨name, rfl, hname⟩ := hx
  rw [List.append_assoc]
  exact hname.inline.append hy.call

def Scan.Suffix.isCall : Scan.Suffix → Bool
  | .call | .memberCall _ => true
  | .none | .member _ => false

def TermHead.isCall : TermHead → Bool
  | .call _ | .methodCall _ _ => true
  | .word _ | .field _ _ => false

def StatementHead.isCall : StatementHead → Bool
  | .call _ | .methodCall _ _ => true
  | .reserved _ | .assignField _ _ | .declare _ | .assign _ => false

namespace Scan

variable {α β : Type}

/-! ## What is taken -/

/-- The bytes that a success takes are such as `P` describes. -/
def Spells (P : List UInt8 → Prop) (r : Scan α) : Prop :=
  Ensures r fun c _ c' => ∃ taken, c.rest = taken ++ c'.rest ∧ P taken

namespace Spells

variable {P Q R : List UInt8 → Prop} {r r' : Scan α} {k : α → Scan β} {stop : UInt8}

theorem imp (h : Spells P r) (hp : ∀ {bytes}, P bytes → Q bytes) : Spells Q r := by
  intro c a c' hr
  obtain ⟨taken, hrest, htaken⟩ := h c a c' hr
  exact ⟨taken, hrest, hp htaken⟩

theorem throw (fault : Fault) : Spells P (throw fault : Scan α) := Ensures.throw fault

/-- After a success of which something is known. -/
theorem andThen {S : α → List UInt8 → Prop}
    (hr : Ensures r fun c a c' => ∃ taken, c.rest = taken ++ c'.rest ∧ S a taken)
    (hk : ∀ a, Spells (fun ys => ∀ xs, S a xs → R (xs ++ ys)) (k a)) : Spells R (r >>= k) := by
  intro c b c' h
  obtain ⟨a, c₁, hra, hkb⟩ := bind_ok h
  obtain ⟨xs, hxs, hx⟩ := hr c a c₁ hra
  obtain ⟨ys, hys, hy⟩ := hk a c₁ b c' hkb
  exact ⟨xs ++ ys, by rw [hxs, hys, List.append_assoc], hy xs hx⟩

theorem seq (happend : ∀ {xs ys}, P xs → Q ys → R (xs ++ ys)) (hr : Spells P r)
    (hk : ∀ a, Spells Q (k a)) : Spells R (r >>= k) :=
  andThen (S := fun _ => P) hr fun a => (hk a).imp fun hy _ hx => happend hx hy

theorem ite {p : Prop} [Decidable p] (h : Spells P r) (h' : Spells P r') :
    Spells P (if p then r else r') := by
  split
  · exact h
  · exact h'

theorem of_nil (hnil : P []) (hr : ∀ c a c', r c = .ok a c' → c' = c) : Spells P r := by
  intro c a c' h
  exact ⟨[], by rw [hr c a c' h]; rfl, hnil⟩

end Spells

/-! ## Words and heads -/

theorem spells_skip {r : Scan α} (keep : UInt8 → Bool)
    (hr : ∀ c a c', r c = .ok a c' → c' = c.skip keep)
    (hparens : keep Byte.openParen = false ∧ keep Byte.closeParen = false)
    (hbraces : keep Byte.openBrace = false ∧ keep Byte.closeBrace = false) : Spells Bare r := by
  intro c a c' h
  rw [hr c a c' h]
  exact ⟨c.run keep, List.takeWhile_append_dropWhile.symm,
    .of_forall (List.all_eq_true.mp List.all_takeWhile) hparens hbraces⟩

theorem spells_skipSpace (lines : Bool) : Spells Bare (skipSpace lines) :=
  spells_skip (fun b => Byte.isSpace b && (lines || b != Byte.lineFeed))
    (fun c a c' h => by cases h; rfl) ⟨rfl, rfl⟩ ⟨rfl, rfl⟩

theorem spells_word : Spells Bare word :=
  spells_skip (fun b => !Byte.isSpecial b) (fun c a c' h => by cases h; rfl) ⟨rfl, rfl⟩
    ⟨rfl, rfl⟩

theorem spells_pure (a : α) : Spells Bare (pure a : Scan α) := by
  intro c _ c' h
  cases h
  exact ⟨[], rfl, .nil⟩

theorem spells_skipToContent : Spells Bare skipToContent := by
  refine .seq Bare.append (spells_skipSpace true) fun _ => .of_nil .nil fun c a c' h => ?_
  unfold assertMore at h
  split at h <;> cases h
  rfl

theorem spells_nonemptyWord : Spells Bare nonemptyWord :=
  .seq Bare.append spells_word fun _ => .ite (.throw _) (spells_pure _)

theorem spells_peek : Spells Bare peek := .of_nil .nil fun c a c' h => by cases h; rfl

/-- Where a byte is known to stand, it is what is taken. -/
theorem advance_of_peek {c : Cursor} {b : UInt8} (h : c.peek = some b) : c.rest = b :: c.advance.rest := by
  obtain ⟨rest, offset⟩ := c
  cases rest with
  | nil => cases h
  | cons first rest =>
    cases h
    rfl

/-- Where a reader succeeds that refuses the end of the source, a byte comes next. -/
theorem peek_ok {k : Option UInt8 → Scan α} {fault : Fault} (hend : k none = throw fault) {c c' : Cursor}
    {a : α} (h : (peek >>= k) c = .ok a c') : ∃ b, c.peek = some b ∧ k (some b) c = .ok a c' := by
  obtain ⟨next, c₁, hpeek, h⟩ := bind_ok h
  cases hpeek
  cases hnext : c.peek with
  | none =>
    rw [hnext, hend] at h
    cases h
  | some b =>
    rw [hnext] at h
    exact ⟨b, rfl, h⟩

theorem spells_expect (expected : UInt8) : Spells (· = [expected]) (expect expected) := by
  intro c _ c' h
  obtain ⟨b, hnext, h⟩ := peek_ok rfl h
  dsimp only at h
  split at h
  · rename_i hb
    cases h
    exact ⟨[expected], by rw [← eq_of_beq hb]; exact advance_of_peek hnext, rfl⟩
  · cases h

/-- Where a byte stands it is taken and is all, or else what follows is read. -/
theorem spells_delimited {stop : UInt8} {P : List UInt8 → Prop} {r : Scan Unit} (hstop : P [stop])
    (hr : Spells P r) : Spells P (lookingAt stop >>= fun here => if here then advance else r) := by
  intro c x c' h
  obtain ⟨here, c₁, hhere, h⟩ := bind_ok h
  cases hhere
  split at h
  · rename_i hpeek
    cases h
    exact ⟨[stop], advance_of_peek (eq_of_beq hpeek), hstop⟩
  · exact hr _ _ _ h

theorem spells_expressionContinues : Spells Bare expressionContinues := by
  have hmore : Spells Bare moreOnLine := by
    refine .seq Bare.append (spells_skipSpace false) fun _ => .seq Bare.append spells_peek fun next => ?_
    cases next <;> exact spells_pure _
  refine .seq Bare.append hmore fun _ => .ite ?_ (spells_pure _)
  refine .seq Bare.append spells_peek fun next => ?_
  cases next <;> exact spells_pure _

theorem bare_of_mem {b : UInt8}
    (h : b ∈ [Byte.plus, Byte.minus, Byte.comma, Byte.colon, Byte.equals, Byte.dot]) : Bare [b] := by
  simp only [List.mem_cons, List.not_mem_nil, or_false] at h
  rcases h with rfl | rfl | rfl | rfl | rfl | rfl <;> constructor <;> decide

theorem spells_expect_bare {b : UInt8}
    (h : b ∈ [Byte.plus, Byte.minus, Byte.comma, Byte.colon, Byte.equals, Byte.dot]) :
    Spells Bare (expect b) :=
  (spells_expect b).imp fun hbytes => hbytes ▸ bare_of_mem h

/-- One byte is taken, which is the one that the reader went by. -/
theorem spells_advance {c : Cursor} {b : UInt8} (hb : b ∈ [Byte.plus, Byte.minus, Byte.comma, Byte.colon,
    Byte.equals, Byte.dot]) (hpeek : c.peek = some b) :
    ∃ taken, c.rest = taken ++ c.advance.rest ∧ Bare taken :=
  ⟨[b], advance_of_peek hpeek, bare_of_mem hb⟩

theorem spells_operator : Spells Bare operator := by
  intro c o c' h
  obtain ⟨b, hnext, h⟩ := peek_ok rfl h
  dsimp only at h
  split at h
  · rename_i hb
    cases h
    exact spells_advance (by simp) (eq_of_beq hb ▸ hnext)
  · split at h
    · rename_i hb
      cases h
      exact spells_advance (by simp) (eq_of_beq hb ▸ hnext)
    · cases h

theorem spells_nameHead (name : String) :
    Ensures (nameHead name) fun c head c' =>
      ∃ taken, c.rest = taken ++ c'.rest ∧ Bare taken ∧ (head = .declare name ∨ head = .assign name) := by
  intro c head c' h
  obtain ⟨_, c₁, hspace, h⟩ := bind_ok h
  obtain ⟨blanks, hblanks, hbare⟩ := spells_skipSpace _ _ _ _ hspace
  obtain ⟨b, hnext, h⟩ := peek_ok rfl h
  dsimp only at h
  split at h
  · rename_i hb
    cases h
    obtain ⟨taken, htaken, hcolon⟩ := spells_advance (by simp) (eq_of_beq hb ▸ hnext)
    exact ⟨blanks ++ taken, by rw [hblanks, htaken, List.append_assoc], hbare.append hcolon, .inl rfl⟩
  · split at h
    · rename_i hb
      cases h
      obtain ⟨taken, htaken, hequals⟩ := spells_advance (by simp) (eq_of_beq hb ▸ hnext)
      exact ⟨blanks ++ taken, by rw [hblanks, htaken, List.append_assoc], hbare.append hequals, .inr rfl⟩
    · cases h

theorem spells_suffix : Ensures suffix fun c after c' =>
    ∃ taken, c.rest = taken ++ c'.rest ∧ Begins after.isCall taken := by
  intro c after c' h
  obtain ⟨_, c₁, hlooking, h⟩ := bind_ok h
  cases hlooking
  split at h
  · rename_i hparen
    cases h
    exact ⟨[Byte.openParen], advance_of_peek (eq_of_beq hparen), [], rfl, .nil⟩
  obtain ⟨_, c₂, hlooking, h⟩ := bind_ok h
  cases hlooking
  split at h
  · rename_i hdot
    obtain ⟨dot, hdots, hbare⟩ := spells_advance (by simp) (eq_of_beq hdot)
    obtain ⟨_, c₃, hadvance, h⟩ := bind_ok h
    cases hadvance
    obtain ⟨member, c₄, hmember, h⟩ := bind_ok h
    obtain ⟨name, hname, hnameBare⟩ := spells_nonemptyWord _ _ _ hmember
    have hrest : c.rest = (dot ++ name) ++ c₄.rest := by rw [hdots, hname, List.append_assoc]
    obtain ⟨_, c₅, hlooking, h⟩ := bind_ok h
    cases hlooking
    split at h
    · rename_i hparen
      cases h
      refine ⟨(dot ++ name) ++ [Byte.openParen], ?_, dot ++ name, rfl, hbare.append hnameBare⟩
      simp [hrest, advance_of_peek (eq_of_beq hparen)]
    · cases h
      exact ⟨dot ++ name, hrest, hbare.append hnameBare⟩
  · cases h
    exact ⟨[], rfl, .nil⟩

/-- A word and what directly follows it. -/
theorem spells_named {name after : List UInt8} {c c₁ c₂ : Cursor} {call : Bool}
    (hname : c.rest = name ++ c₁.rest ∧ Bare name)
    (hafter : c₁.rest = after ++ c₂.rest ∧ Begins call after) :
    ∃ taken, c.rest = taken ++ c₂.rest ∧ Begins call taken :=
  ⟨name ++ after, by rw [hname.1, hafter.1, List.append_assoc], hafter.2.prepend hname.2⟩

theorem spells_termHead : Ensures termHead fun c head c' =>
    ∃ taken, c.rest = taken ++ c'.rest ∧ Begins head.isCall taken := by
  intro c head c' h
  obtain ⟨text, c₁, htext, h⟩ := bind_ok h
  obtain ⟨name, hname⟩ := spells_nonemptyWord _ _ _ htext
  obtain ⟨suffix, c₂, hsuffix, h⟩ := bind_ok h
  obtain ⟨after, hafter⟩ := spells_suffix _ _ _ hsuffix
  cases suffix <;> cases h <;> exact spells_named hname hafter

theorem spells_statementHead : Ensures statementHead fun c head c' =>
    ∃ taken, c.rest = taken ++ c'.rest ∧ Begins head.isCall taken := by
  intro c head c' h
  obtain ⟨text, c₁, htext, h⟩ := bind_ok h
  obtain ⟨name, hname⟩ := spells_nonemptyWord _ _ _ htext
  cases hreserved : ReservedWord.ofText? text with
  | some word =>
    rw [hreserved] at h
    cases h
    exact ⟨name, hname⟩
  | none =>
    rw [hreserved] at h
    obtain ⟨suffix, c₂, hsuffix, h⟩ := bind_ok h
    obtain ⟨after, hafter⟩ := spells_suffix _ _ _ hsuffix
    cases suffix with
    | none =>
      obtain ⟨sign, hsign, hbare, hhead⟩ := spells_nameHead _ _ _ _ h
      have hcall : head.isCall = false := by rcases hhead with rfl | rfl <;> rfl
      rw [hcall]
      refine spells_named hname ⟨?_, Bare.append hafter.2 hbare⟩
      rw [hafter.1, hsign, List.append_assoc]
    | call | member | memberCall =>
      cases h
      exact spells_named hname hafter

/-! ## Argument lists -/

theorem spells_separator (index : Nat) : Spells Bare (separator index) := by
  cases index with
  | zero => exact spells_pure _
  | succ index => exact .seq Bare.append (spells_expect_bare (by simp)) fun _ => spells_skipToContent

/-- Without a colon nothing is taken, whatever was looked at. -/
theorem spells_label : Spells Bare label := by
  intro c name c' h
  obtain ⟨_, c₁, hget, hrest⟩ := bind_ok h
  cases hget
  obtain ⟨text, c₂, hword, _⟩ := bind_ok hrest
  rw [label_of_word hword] at h
  dsimp only at h
  split at h
  · rename_i hcolon
    cases h
    obtain ⟨first, hfirst, hbare⟩ := spells_nonemptyWord _ _ _ hword
    obtain ⟨blanks, hblanks, hbare'⟩ := spells_skipSpace true c₂ () _ rfl
    obtain ⟨colon, hcolons, hbare''⟩ := spells_advance (by simp) (eq_of_beq hcolon)
    exact ⟨first ++ (blanks ++ colon), by rw [hfirst, hblanks, hcolons]; simp,
      hbare.append (hbare'.append hbare'')⟩
  · cases h
    exact ⟨[], rfl, .nil⟩

theorem Spells.discard {P : List UInt8 → Prop} {r : Scan α} (h : Spells P r) : Spells P (discard r) := by
  intro c _ c' hr
  rw [discard_eq] at hr
  obtain ⟨a, c₁, hra, hpure⟩ := bind_ok hr
  cases hpure
  exact h c a c' hra

section Unrolling

variable {e s a b o : Scan Unit}

theorem spells_termBy (ha : Spells (EndsWith Byte.closeParen Inline) a) : Spells Inline (termBy a) := by
  refine .andThen spells_termHead fun head => ?_
  cases head with
  | word | field => exact (spells_pure ()).imp fun hy xs hx => (Bare.append hx hy).inline
  | call | methodCall => exact ha.imp fun hy xs hx => Begins.call hx hy

theorem spells_stepsBy (hs : Spells Inline s) (ho : Spells Inline o) : Spells Inline (stepsBy s o) := by
  have hbare : ∀ {xs ys}, Bare xs → Inline ys → Inline (xs ++ ys) := fun hx => hx.inline.append
  refine .seq hbare spells_expressionContinues fun _ => .ite ?_ ((spells_pure ()).imp Bare.inline)
  exact .seq hbare spells_operator.discard fun _ => .seq hbare spells_skipToContent fun _ =>
    .seq Inline.append hs fun _ => ho

theorem spells_elementsBy (he : Spells Inline e) (ho : Spells (EndsWith Byte.closeParen Inline) o)
    (index : Nat) : Spells (EndsWith Byte.closeParen Inline) (elementsBy e o index) := by
  have hinline : ∀ {xs ys}, Inline xs → EndsWith Byte.closeParen Inline ys →
      EndsWith Byte.closeParen Inline (xs ++ ys) := EndsWith.prepend Inline.append
  have hbare : ∀ {xs ys}, Bare xs → EndsWith Byte.closeParen Inline ys →
      EndsWith Byte.closeParen Inline (xs ++ ys) := fun hx => hinline hx.inline
  refine .seq hbare spells_skipToContent fun _ => spells_delimited ⟨[], rfl, Bare.nil.inline⟩ ?_
  refine .seq hbare (spells_separator index) fun _ => .seq hbare spells_label.discard fun _ => ?_
  exact .seq hbare spells_skipToContent fun _ => .seq hinline he fun _ => ho

theorem spells_linesBy (hs : Spells Matched s) (ho : Spells (EndsWith Byte.closeBrace Matched) o) :
    Spells (EndsWith Byte.closeBrace Matched) (linesBy s o) := by
  have hmatched : ∀ {xs ys}, Matched xs → EndsWith Byte.closeBrace Matched ys →
      EndsWith Byte.closeBrace Matched (xs ++ ys) := EndsWith.prepend Matched.append
  refine .seq hmatched (spells_skipToContent.imp fun h => h.inline.matched) fun _ => ?_
  exact spells_delimited ⟨[], rfl, Bare.nil.inline.matched⟩ (.seq hmatched hs fun _ => ho)

theorem spells_initializerBy (he : Spells Inline e) : Spells Inline (initializerBy e) := by
  have hbare : ∀ {xs ys}, Bare xs → Inline ys → Inline (xs ++ ys) := fun hx => hx.inline.append
  exact .seq hbare spells_skipToContent fun _ => .seq hbare (spells_expect_bare (by simp)) fun _ =>
    .seq hbare spells_skipToContent fun _ => he

/-- A block with its brace in front. -/
theorem spells_braced (hb : Spells (EndsWith Byte.closeBrace Matched) b) :
    Spells Matched (do
      skipToContent
      expect Byte.openBrace
      b) := by
  refine .seq Matched.append (spells_skipToContent.imp fun h => h.inline.matched) fun _ => ?_
  exact .seq (P := (· = [Byte.openBrace])) (fun hx hy => hx ▸ hy.block) (spells_expect _) fun _ => hb

theorem spells_condBy (he : Spells Inline e) (hb : Spells (EndsWith Byte.closeBrace Matched) b) :
    Spells Matched (condBy e b) := by
  have hthen : condBy e b = (skipToContent >>= fun _ => e >>= fun _ =>
      (skipToContent >>= fun _ => expect Byte.openBrace >>= fun _ => b) >>= fun _ => get >>= fun after =>
        skipSpace true >>= fun _ => word >>= fun text =>
          if text = "else" then skipToContent >>= fun _ => expect Byte.openBrace >>= fun _ => b
          else set after) := by
    simp only [condBy, bind_assoc]
  rw [hthen]
  refine .seq Matched.append (spells_skipToContent.imp fun h => h.inline.matched) fun _ => ?_
  refine .seq Matched.append (he.imp Inline.matched) fun _ => ?_
  refine .seq Matched.append (spells_braced hb) fun _ => ?_
  -- The word is read in any case, but it is only taken if it is `else`; so this is no sequence of parts.
  intro c _ c' h
  obtain ⟨after, c₁, hget, h⟩ := bind_ok h
  cases hget
  obtain ⟨_, c₂, hspace, h⟩ := bind_ok h
  obtain ⟨text, c₃, hword, h⟩ := bind_ok h
  split at h
  · obtain ⟨blanks, hblanks, hbare⟩ := spells_skipSpace _ _ _ _ hspace
    obtain ⟨word, hwords, hbare'⟩ := spells_word _ _ _ hword
    obtain ⟨block, hblock, hmatched⟩ := spells_braced hb _ _ _ h
    exact ⟨(blanks ++ word) ++ block, by rw [hblanks, hwords, hblock]; simp,
      (hbare.append hbare').inline.matched.append hmatched⟩
  · cases h
    exact ⟨[], rfl, Bare.nil.inline.matched⟩

theorem spells_statementBy (he : Spells Inline e) (ha : Spells (EndsWith Byte.closeParen Inline) a)
    (hb : Spells (EndsWith Byte.closeBrace Matched) b) : Spells Matched (statementBy e a b) := by
  have hbare : ∀ {xs ys}, Bare xs → Inline ys → Inline (xs ++ ys) := fun hx => hx.inline.append
  refine .seq Matched.append (spells_skipToContent.imp fun h => h.inline.matched) fun _ => ?_
  refine .andThen spells_statementHead fun head => ?_
  -- Unless it is a call, the head itself is bare, and it is enough to say what the rest is.
  have hrest : ∀ {r : Scan Unit}, Spells Matched r →
      Spells (fun ys => ∀ xs, Bare xs → Matched (xs ++ ys)) r :=
    fun hr => hr.imp fun hy xs hx => hx.inline.matched.append hy
  cases head with
  | reserved word =>
    cases word with
    | ret =>
      have hcontinues := spells_expressionContinues.imp fun h => h.inline.matched
      refine hrest (.seq Matched.append hcontinues fun _ => ?_)
      exact .ite (he.imp Inline.matched) ((spells_pure ()).imp fun h => h.inline.matched)
    | cond => exact hrest (spells_condBy he hb)
  | call | methodCall => exact ha.imp fun hy xs hx => (Begins.call hx hy).matched
  | assignField => exact hrest ((spells_initializerBy he).imp Inline.matched)
  | declare =>
    refine hrest (Spells.imp ?_ Inline.matched)
    exact .seq hbare spells_skipToContent fun _ => .seq hbare spells_nonemptyWord.discard fun _ =>
      spells_initializerBy he
  | assign =>
    exact hrest (Spells.imp (.seq hbare spells_skipToContent fun _ => he) Inline.matched)

end Unrolling

namespace Walk

variable {w : Walk}

/-- Lists take what stands in parentheses and the closing one, blocks what stands in braces. -/
def Closes (w : Walk) : Prop :=
  w.Meets
    (fun c r => ∀ a c', r = .ok a c' →
      ∃ taken, c.rest = taken ++ c'.rest ∧ EndsWith Byte.closeParen Inline taken)
    (fun c r => ∀ a c', r = .ok a c' → ∃ taken, c.rest = taken ++ c'.rest ∧ Inline taken)
    fun c r => ∀ a c', r = .ok a c' →
      ∃ taken, c.rest = taken ++ c'.rest ∧ EndsWith Byte.closeBrace Matched taken

theorem Closes.value (h : w.Closes) : Spells Inline w.value := spells_termBy (h.elements 0)

theorem Closes.expression (h : w.Closes) : Spells Inline w.expression :=
  .seq Inline.append h.value fun _ => h.steps

theorem Closes.statement (h : w.Closes) : Spells Matched w.statement :=
  spells_statementBy h.expression (h.elements 0) h.lines

theorem closes_skippers : skippers.Closes :=
  -- Where the unrollings are cut off nothing succeeds.
  meets_skippers ⟨fun _ => Spells.throw _, Spells.throw _, Spells.throw _⟩ fun w h =>
    have hw : w.Closes := h
    ⟨fun index => spells_elementsBy hw.expression (hw.elements (index + 1)) index,
      spells_stepsBy hw.value hw.steps, spells_linesBy hw.statement hw.lines⟩

end Walk

theorem spells_skipArguments : Spells (EndsWith Byte.closeParen Inline) skipArguments :=
  Walk.closes_skippers.elements 0

theorem spells_skipBlock : Spells (EndsWith Byte.closeBrace Matched) skipBlock :=
  Walk.closes_skippers.lines

end Scan

/-! ## Where counting ends -/

/-- The bytes from `start` up to and without `stop`. -/
def bytesBetween (bytes : List UInt8) (start stop : Nat) : List UInt8 :=
  (bytes.drop start).take (stop - start)

/-- The places from `start` on at which, counted from there, `closes` outnumber `opens`. -/
def overclosed (opens closes : UInt8) (bytes : List UInt8) (start : Nat) : Set Nat :=
  fun q => start ≤ q ∧ q < bytes.length ∧
    (bytesBetween bytes start (q + 1)).count opens < (bytesBetween bytes start (q + 1)).count closes

section Counting

variable {opens closes : UInt8} {P : List UInt8 → Prop} {bytes inner rest : List UInt8} {start : Nat}

/-- Balanced bytes and a closing one end where first more was closed than opened. -/
theorem isLeast_overclosed (hne : opens ≠ closes) (hinner : Balanced opens closes inner)
    (h : bytes.drop start = (inner ++ [closes]) ++ rest) :
    IsLeast (overclosed opens closes bytes start) (start + inner.length) := by
  have hlength := congrArg List.length h
  simp only [List.length_drop, List.length_append, List.length_singleton] at hlength
  constructor
  · refine ⟨Nat.le_add_right _ _, by omega, ?_⟩
    have htaken : bytesBetween bytes start (start + inner.length + 1) = inner ++ [closes] := by
      rw [bytesBetween, h]
      exact List.take_left' (by simp only [List.length_append, List.length_singleton]; omega)
    have hsettled := hinner.settled
    rw [htaken, List.count_append, List.count_append, List.count_singleton_self,
      List.count_singleton]
    simp only [beq_iff_eq, hne.symm, if_false]
    omega
  -- Up to any place before that the bytes are the first of the balanced ones.
  · intro q hq
    obtain ⟨hstart, _, hcount⟩ := hq
    refine Nat.le_of_not_lt fun hlt => Nat.not_le_of_lt hcount ?_
    rw [bytesBetween, h, List.append_assoc, List.take_append_of_le_length (by omega)]
    exact hinner.sane _ (List.take_prefix _ _)

/-- A reader that ends with `closes` after balanced bytes ends behind the place where counting ends. -/
theorem ends_at_closer {r : Scan Unit} {c' : Cursor} (hne : opens ≠ closes)
    (hbalanced : ∀ {inner}, P inner → Balanced opens closes inner)
    (hspells : Scan.Spells (EndsWith closes P) r) (hadvances : Scan.Advances r)
    (h : r (.seek bytes start) = .ok () c') :
    ∃ q inner, c'.offset = q + 1 ∧ IsLeast (overclosed opens closes bytes start) q ∧
      bytesBetween bytes start c'.offset = inner ++ [closes] ∧ P inner := by
  obtain ⟨taken, htaken, inner, rfl, hinner⟩ := hspells _ _ _ h
  obtain ⟨taken', htaken', hoffset⟩ := hadvances _ _ _ h
  obtain rfl : inner ++ [closes] = taken' := List.append_cancel_right (htaken.symm.trans htaken')
  have hdrop : bytes.drop start = (inner ++ [closes]) ++ c'.rest := htaken
  have hlength := congrArg List.length hdrop
  simp only [List.length_drop, List.length_append, List.length_singleton] at hlength
  have hend : c'.offset = start + inner.length + 1 := by
    rw [hoffset, List.length_append, List.length_singleton, Cursor.seek]
    dsimp only
    omega
  refine ⟨start + inner.length, inner, hend, isLeast_overclosed hne (hbalanced hinner) hdrop, ?_, hinner⟩
  rw [bytesBetween, hdrop]
  exact List.take_left' (by simp only [List.length_append, List.length_singleton]; omega)

end Counting

/-- Where a block is skipped the last byte taken is the first at which more braces were closed than opened,
and the parentheses are balanced; where an argument list is, it is so with parentheses, and there is no
brace. -/
theorem skipping_stops_at_closer (bytes : List UInt8) (start : Nat) :
    (∀ c', Scan.skipBlock (.seek bytes start) = .ok () c' →
      ∃ q, c'.offset = q + 1 ∧ IsLeast (overclosed Byte.openBrace Byte.closeBrace bytes start) q ∧
        Balanced Byte.openParen Byte.closeParen (bytesBetween bytes start c'.offset)) ∧
    ∀ c', Scan.skipArguments (.seek bytes start) = .ok () c' →
      ∃ q, c'.offset = q + 1 ∧ IsLeast (overclosed Byte.openParen Byte.closeParen bytes start) q ∧
        Byte.openBrace ∉ bytesBetween bytes start c'.offset ∧
        Byte.closeBrace ∉ bytesBetween bytes start c'.offset := by
  constructor
  · intro c' h
    obtain ⟨q, inner, hend, hleast, htaken, hinner⟩ := ends_at_closer (by decide) Matched.braces
      Scan.spells_skipBlock Scan.advances_skipBlock h
    have hclose : Balanced Byte.openParen Byte.closeParen [Byte.closeBrace] :=
      .of_free (by decide) (by decide)
    exact ⟨q, hend, hleast, htaken ▸ hinner.parens.append hclose⟩
  · intro c' h
    obtain ⟨q, inner, hend, hleast, htaken, hinner⟩ := ends_at_closer (by decide) Inline.parens
      Scan.spells_skipArguments Scan.advances_skipArguments h
    refine ⟨q, hend, hleast, ?_, ?_⟩ <;> rw [htaken, List.mem_append, List.mem_singleton, not_or]
    · exact ⟨hinner.openBrace, by decide⟩
    · exact ⟨hinner.closeBrace, by decide⟩

/-- A block with another inside, in which calls are nested, and its closing brace. -/
def nestedBlock : List UInt8 :=
  "\x7b\n  if n \x7b\n    f(g(1))\n  \x7d\n  return n\n\x7d rest".toList.map Char.toUInt8

/-- The inner block does not end the outer one. -/
theorem skipping_stops_at_closer_nested :
    ∃ c', Scan.skipBlock (.seek nestedBlock 1) = .ok () c' ∧ c'.offset = 39 ∧
      IsLeast (overclosed Byte.openBrace Byte.closeBrace nestedBlock 1) 38 := by
  obtain ⟨_, c', h, hoffset⟩ : ∃ u c', Scan.skipBlock (.seek nestedBlock 1) = .ok u c' ∧ c'.offset = 39 := by
    decide +kernel
  obtain ⟨q, hend, hleast, _⟩ := (skipping_stops_at_closer nestedBlock 1).1 c' h
  obtain rfl : q = 38 := by omega
  exact ⟨c', h, hoffset, hleast⟩

end Straightline
