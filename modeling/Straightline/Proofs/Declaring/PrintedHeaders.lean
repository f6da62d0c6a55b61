import Straightline.Proofs.Declaring.Headers
import Straightline.Proofs.Reading.ArgumentLists

/-!
# Printed headers

A declaration has its header as tokens (`Declaration.Tokens`): an argument may be printed without its
label where that is the name of its type, and a method without arguments in a short shape or in a long
one. The tokens are printed in order with any blanks before each (`Printed`), and the reader of headers
finds the declaration in what was printed (`Scan.accepts_declaration`).
-/

set_option autoImplicit false

namespace Straightline

/-! ## Tokens -/

/-- The tokens in order, with any blanks before each. -/
inductive Printed : List (List UInt8) → List UInt8 → Prop
  | nil : Printed [] []
  | cons {tokens : List (List UInt8)} {text : List UInt8} (gap : Blanks) (token : List UInt8)
      (others : Printed tokens text) : Printed (token :: tokens) (gap.bytes ++ (token ++ text))

namespace Signature

/-- The tokens of an argument, with its label or, if that is the name of its type, without. -/
inductive ArgumentTokens : String × Ty → List (List UInt8) → Prop
  | labelled (name : String) (ty : Ty) :
      ArgumentTokens (name, ty) [Text.toBytes name, [Byte.colon], Text.toBytes ty.name]
  | bare (ty : Ty) : ArgumentTokens (ty.name, ty) [Text.toBytes ty.name]

/-- What follows the first argument: the others, each behind a comma, and the closing parenthesis. -/
inductive OtherTokens : List (String × Ty) → List (List UInt8) → Prop
  | close : OtherTokens [] [[Byte.closeParen]]
  | next {argument : String × Ty} {arguments : List (String × Ty)} {tokens others : List (List UInt8)} :
      ArgumentTokens argument tokens → OtherTokens arguments others →
      OtherTokens (argument :: arguments) ([Byte.comma] :: (tokens ++ others))

/-- The tokens of an argument list behind its opening parenthesis. -/
inductive ListTokens : List (String × Ty) → List (List UInt8) → Prop
  | none : ListTokens [] [[Byte.closeParen]]
  | some {argument : String × Ty} {arguments : List (String × Ty)} {tokens others : List (List UInt8)} :
      ArgumentTokens argument tokens → OtherTokens arguments others →
      ListTokens (argument :: arguments) (tokens ++ others)

/-- The tokens of a signature behind its opening parenthesis. -/
inductive Tokens (s : Signature) : List (List UInt8) → Prop
  | mk {tokens : List (List UInt8)} : ListTokens s.arguments tokens →
      Tokens s (tokens ++ [[Byte.minus, Byte.greater], Text.toBytes s.result.name])

end Signature

namespace Declaration

/-- What every header of a method begins with: its owner and name, its receiver and the arrow. -/
def methodTokens (name receiver : String) (owner : Ty) : List (List UInt8) :=
  [Text.toBytes owner.name ++ Byte.dot :: Text.toBytes name, [Byte.colon], [Byte.openParen],
    Text.toBytes receiver, [Byte.colon], Text.toBytes owner.name, [Byte.closeParen],
    [Byte.minus, Byte.greater]]

/-- The tokens of a header. -/
inductive Tokens : Declaration → List (List UInt8) → Prop
  | type (name : String) (kind : AggregateKind) :
      Tokens (.type name kind) [Text.toBytes name, [Byte.colon], Text.toBytes kind.keyword]
  | global (name : String) (ty : Ty) :
      Tokens (.global name ty) [Text.toBytes name, [Byte.colon], Text.toBytes ty.name]
  | function (name : String) {s : Signature} {tokens : List (List UInt8)} : s.Tokens tokens →
      Tokens (.function name s) (Text.toBytes name :: [Byte.colon] :: [Byte.openParen] :: tokens)
  | short (name receiver : String) (owner result : Ty) :
      Tokens (.method name receiver owner ⟨[], result⟩)
        (methodTokens name receiver owner ++ [Text.toBytes result.name])
  | long (name receiver : String) (owner : Ty) {s : Signature} {tokens : List (List UInt8)} :
      s.Tokens tokens →
      Tokens (.method name receiver owner s)
        (methodTokens name receiver owner ++ [Byte.openParen] :: tokens)

end Declaration

/-! ## What can be declared -/

/-- The arguments are named by words and storable, and all types are in the table under their names. -/
structure Signature.Declarable (types : SymbolTable Ty) (s : Signature) : Prop where
  names : ∀ a ∈ s.arguments, IsWord a.1
  storable : ∀ a ∈ s.arguments, a.2.isVoid = false
  arguments : ∀ a ∈ s.arguments, Ty.resolve types a.2.name = .ok a.2
  result : Ty.resolve types s.result.name = .ok s.result

/-- The declaration is named by words, and its types are in the table under their names. A global has
a storable type, not named like a kind of aggregate, and a method has an aggregate for its owner. -/
def Declaration.Declarable (types : SymbolTable Ty) : Declaration → Prop
  | type name _ => IsWord name
  | global name ty =>
    IsWord name ∧ Ty.resolve types ty.name = .ok ty ∧ ty.isVoid = false
      ∧ AggregateKind.ofKeyword? ty.name = none
  | function name s => IsWord name ∧ s.Declarable types
  | method name receiver owner s =>
    IsWord name ∧ IsWord receiver ∧ Ty.resolve types owner.name = .ok owner ∧ owner.isAggregate = true
      ∧ s.Declarable types

/-- Every type of the table is named by a word. -/
def SymbolTable.Worded (types : SymbolTable Ty) : Prop := ∀ name ∈ types.names, IsWord name

theorem Primitive.isWord_name (p : Primitive) : IsWord p.name := by
  cases p <;> exact ⟨by decide +kernel, by decide +kernel⟩

theorem AggregateKind.isWord_keyword (kind : AggregateKind) : IsWord kind.keyword := by
  cases kind <;> exact ⟨by decide +kernel, by decide +kernel⟩

/-- Whatever a name stands for, it is a word. -/
theorem SymbolTable.Worded.isWord {types : SymbolTable Ty} (h : types.Worded) {name : String} {ty : Ty}
    (hty : Ty.resolve types name = .ok ty) : IsWord name := by
  unfold Ty.resolve at hty
  split at hty
  · rename_i found hfound
    exact h _ (List.mem_map_of_mem (mem_of_find? hfound))
  · split at hty
    · rename_i p hp
      have hname : p.name = name := by simpa using List.find?_some hp
      exact hname ▸ p.isWord_name
    · cases hty

/-! ## Printed tokens -/

namespace Printed

variable {tokens others : List (List UInt8)} {token text : List UInt8}

theorem uncons (h : Printed (token :: tokens) text) :
    ∃ (gap : Blanks) (after : List UInt8), text = gap.bytes ++ (token ++ after) ∧ Printed tokens after := by
  cases h with
  | cons gap _ others => exact ⟨gap, _, rfl, others⟩

/-- In front of a token that ends words a word is over. -/
theorem ended {b : UInt8} (h : Printed ([b] :: tokens) text) (hb : Byte.isSpecial b = true)
    (rest : List UInt8) : Ended (text ++ rest) := by
  obtain ⟨gap, after, rfl, _⟩ := h.uncons
  rw [List.append_assoc]
  exact .blanks (.cons hb)

theorem eq_nil (h : Printed [] text) : text = [] := by
  cases h
  rfl

end Printed

namespace Signature

variable {arguments : List (String × Ty)} {argument : String × Ty}
  {tokens others : List (List UInt8)} {text : List UInt8}

/-- A printed argument is an element, but for the blanks behind it. -/
theorem ArgumentTokens.element (h : ArgumentTokens argument tokens) (hname : IsWord argument.1)
    (htype : IsWord argument.2.name) (hprinted : Printed (tokens ++ others) text) :
    ∃ (e : Element) (after : List UInt8), e.pair = (argument.1, argument.2.name) ∧
      text = e.before.bytes ++ (e.tag ++ (e.body ++ after)) ∧ Printed others after := by
  cases h with
  | labelled name ty =>
    obtain ⟨before, text₁, rfl, h₁⟩ := hprinted.uncons
    obtain ⟨gap, text₂, rfl, h₂⟩ := h₁.uncons
    obtain ⟨gap', after, rfl, h₃⟩ := h₂.uncons
    refine ⟨⟨before, some (.ofName name hname, gap, gap'), .ofName ty.name htype, .none⟩, after, ?_, ?_,
      h₃⟩
    · simp only [Element.pair, Element.name, Word.text_ofName]
    · simp only [Element.tag, Element.body, Element.gap, Word.ofName, List.append_assoc]
  | bare ty =>
    obtain ⟨before, after, rfl, h₁⟩ := hprinted.uncons
    refine ⟨⟨before, none, .ofName ty.name htype, .none⟩, after, ?_, rfl, h₁⟩
    simp only [Element.pair, Element.name, Word.text_ofName]

/-- The other arguments are printed as elements. -/
theorem OtherTokens.elements (h : OtherTokens arguments tokens) (hnames : ∀ a ∈ arguments, IsWord a.1)
    (htypes : ∀ a ∈ arguments, IsWord a.2.name) (hprinted : Printed (tokens ++ others) text)
    (index : Nat) :
    ∃ (gap : Blanks) (es : List Element) (after : List UInt8),
      es.map Element.pair = arguments.map (fun a => (a.1, a.2.name)) ∧
      text = Element.onward (index + 1) gap es ++ after ∧ Printed others after := by
  induction h generalizing text index with
  | close =>
    obtain ⟨gap, after, rfl, h₁⟩ := hprinted.uncons
    exact ⟨gap, [], after, rfl, by simp [Element.onward], h₁⟩
  | @next argument arguments tokens tokens' hargument _ ih =>
    obtain ⟨gap, text₁, rfl, h₁⟩ := hprinted.uncons
    have hsplit : Printed (tokens ++ (tokens' ++ others)) text₁ := List.append_assoc .. ▸ h₁
    obtain ⟨e, text₂, hpair, rfl, h₂⟩ := hargument.element (hnames _ List.mem_cons_self)
      (htypes _ List.mem_cons_self) hsplit
    obtain ⟨gap', es, after, hpairs, rfl, h₃⟩ := ih
      (fun a ha => hnames a (List.mem_cons_of_mem _ ha)) (fun a ha => htypes a (List.mem_cons_of_mem _ ha))
      h₂ (index + 1)
    refine ⟨gap, { e with after := gap' } :: es, after, ?_, ?_, h₃⟩
    · rw [List.map_cons, List.map_cons, hpairs]
      exact congrArg (· :: _) hpair
    · simp only [Element.onward, Element.opening, Element.comma, List.append_assoc]
      rfl

/-- Arguments are printed as a list of elements. -/
theorem ListTokens.elements (h : ListTokens arguments tokens) (hnames : ∀ a ∈ arguments, IsWord a.1)
    (htypes : ∀ a ∈ arguments, IsWord a.2.name) (hprinted : Printed (tokens ++ others) text) :
    ∃ (gap : Blanks) (es : List Element) (after : List UInt8),
      es.map Element.pair = arguments.map (fun a => (a.1, a.2.name)) ∧
      text = Element.list gap es ++ after ∧ Printed others after := by
  cases h with
  | none =>
    obtain ⟨gap, after, rfl, h₁⟩ := hprinted.uncons
    exact ⟨gap, [], after, rfl, by simp [Element.list], h₁⟩
  | some hargument hothers =>
    rw [List.append_assoc] at hprinted
    obtain ⟨e, text₁, hpair, rfl, h₁⟩ := hargument.element (hnames _ List.mem_cons_self)
      (htypes _ List.mem_cons_self) hprinted
    obtain ⟨gap, es, after, hpairs, rfl, h₂⟩ := hothers.elements
      (fun a ha => hnames a (List.mem_cons_of_mem _ ha)) (fun a ha => htypes a (List.mem_cons_of_mem _ ha))
      h₁ 0
    refine ⟨.none, { e with after := gap } :: es, after, ?_, ?_, h₂⟩
    · rw [List.map_cons, List.map_cons, hpairs]
      exact congrArg (· :: _) hpair
    · rw [← Element.onward_zero]
      simp only [Element.onward, Element.opening, Element.comma, List.append_assoc]
      rfl

end Signature

namespace Scan

variable {types : SymbolTable Ty} {rest : List UInt8}

/-! ## Reading the tokens -/

theorem accepts_name {name : String} (h : IsWord name) (hrest : Ended rest) :
    Accepts nonemptyWord (Text.toBytes name) rest name := by
  have hword := accepts_nonemptyWord (.ofName name h) hrest
  rwa [Word.text_ofName] at hword

theorem content_name {name : String} (h : IsWord name) (text rest : List UInt8) :
    Content (Text.toBytes name ++ text ++ rest) := by
  rw [List.append_assoc]
  exact .word (.ofName name h) (text ++ rest)

theorem accepts_require {holds : Bool} (fault : Fault) (h : holds = true) :
    Accepts (require holds fault) [] rest () := by
  rw [h]
  exact .pure () rest

theorem accepts_check {α : Type} {outcome : Except Fault α} {a : α} (h : outcome = .ok a) :
    Accepts (check outcome) [] rest a := by
  rw [h]
  exact .pure a rest

theorem accepts_type {ty : Ty} (hname : IsWord ty.name) (hty : Ty.resolve types ty.name = .ok ty)
    (hrest : Ended rest) : Accepts (type types) (Text.toBytes ty.name) rest ty :=
  .last (accepts_name hname hrest) (accepts_check hty)

theorem accepts_typeElement {e : Element} {ty : Ty} (hname : e.word.text = ty.name)
    (hty : Ty.resolve types ty.name = .ok ty) (hrest : Delimited rest) :
    Accepts (do skipToContent; type types) e.body rest ty := by
  refine .bind (accepts_skipToContent e.gap (.word e.word rest)) ?_
  refine .last (accepts_nonemptyWord e.word hrest.ended) ?_
  rw [hname]
  exact accepts_check hty

theorem readsUntil_types {es : List Element} {arguments : List (String × Ty)} (stop index : Nat)
    (hpairs : es.map Element.pair = arguments.map fun a => (a.1, a.2.name))
    (htypes : ∀ a ∈ arguments, Ty.resolve types a.2.name = .ok a.2) :
    ReadsUntil stop (fun _ => do skipToContent; type types) index es (arguments.map Prod.snd) := by
  induction es generalizing arguments index with
  | nil =>
    cases arguments with
    | nil => exact .nil index
    | cons => cases hpairs
  | cons e es ih =>
    cases arguments with
    | nil => cases hpairs
    | cons a arguments =>
      obtain ⟨hpair, hpairs⟩ := List.cons.inj hpairs
      obtain ⟨hty, htypes⟩ := List.forall_mem_cons.mp htypes
      exact .cons (fun offset _ _ hrest => accepts_typeElement (congrArg Prod.snd hpair) hty hrest offset)
        (ih (index + 1) hpairs htypes)

theorem accepts_typedNames {gap : Blanks} {es : List Element} {arguments : List (String × Ty)}
    (hpairs : es.map Element.pair = arguments.map fun a => (a.1, a.2.name))
    (htypes : ∀ a ∈ arguments, Ty.resolve types a.2.name = .ok a.2) :
    Accepts (typedNames types) (Element.list gap es) rest arguments := by
  have hlist : Accepts (typedNames types) (Element.list gap es) rest _ :=
    accepts_arguments fun stop => readsUntil_types stop 0 hpairs htypes
  have hnames : es.map Element.name = arguments.map Prod.fst := by
    have hfirst := congrArg (List.map Prod.fst) hpairs
    rwa [List.map_map, List.map_map] at hfirst
  rw [hnames, List.zip_map', List.map_id''] at hlist
  · exact hlist
  · exact fun _ => rfl

theorem accepts_signature {s : Signature} {tokens : List (List UInt8)} {text : List UInt8}
    (hwords : types.Worded) (hs : s.Declarable types) (htokens : s.Tokens tokens)
    (hprinted : Printed tokens text) (hrest : Ended rest) : Accepts (signature types) text rest s := by
  obtain ⟨hlist⟩ := htokens
  obtain ⟨gap, es, text₁, hpairs, rfl, h₁⟩ :=
    hlist.elements hs.names (fun a ha => hwords.isWord (hs.arguments a ha)) hprinted
  obtain ⟨gap₁, text₂, rfl, h₂⟩ := h₁.uncons
  obtain ⟨gap₂, text₃, rfl, h₃⟩ := h₂.uncons
  obtain rfl := h₃.eq_nil
  have hname := hwords.isWord hs.result
  have hstorable : s.arguments.forM (fun argument => argument.2.requireStorable argument.1) = .ok () :=
    forM_ok_iff.mpr fun a ha => by rw [Ty.requireStorable, hs.storable a ha]; rfl
  refine .bind (accepts_typedNames hpairs hs.arguments) (.look (accepts_check hstorable) ?_)
  refine .bind (accepts_skipToContent gap₁ (.cons rfl)) (.bind (accepts_arrow _) ?_)
  rw [List.append_nil]
  refine .bind (accepts_skipToContent gap₂ (.word (.ofName _ hname) rest)) ?_
  exact .last (accepts_type hname hs.result hrest) (.pure s rest)

/-- However the tokens are printed, the reader finds what they say behind the blanks before the first. -/
def AcceptsPrinted {α : Type} (r : Scan α) (tokens : List (List UInt8)) (rest : List UInt8) (a : α) : Prop :=
  ∀ text, Printed tokens text → ∃ (gap : Blanks) (after : List UInt8),
    text = gap.bytes ++ after ∧ Content (after ++ rest) ∧ Accepts r after rest a

/-- No name begins with an opening parenthesis. -/
theorem accepts_notParen {name : String} (h : IsWord name) (rest : List UInt8) :
    Accepts (lookingAt Byte.openParen) [] (Text.toBytes name ++ rest) false :=
  accepts_lookingAt_ne ((Word.ofName name h).head_ne rest rfl)

section Shapes

/-! Behind the colon of a header, and behind the arrow of a method, stands either a signature in
parentheses or a single word. -/

variable (declare : Signature → Declaration) {other : Scan Declaration}

theorem acceptsPrinted_signature {s : Signature} {tokens : List (List UInt8)} (hwords : types.Worded)
    (hs : s.Declarable types) (htokens : s.Tokens tokens) (hrest : Ended rest) :
    AcceptsPrinted (do
      if ← lookingAt Byte.openParen then
        advance
        return declare (← signature types)
      else other) ([Byte.openParen] :: tokens) rest (declare s) := by
  intro text hprinted
  obtain ⟨gap, after, rfl, hafter⟩ := hprinted.uncons
  refine ⟨gap, _, rfl, .cons rfl, .look (accepts_lookingAt Byte.openParen _) ?_⟩
  exact .bind (accepts_advance Byte.openParen _)
    (.last (accepts_signature hwords hs htokens hafter hrest) (.pure _ rest))

theorem acceptsPrinted_word {word : String} {d : Declaration} (hword : IsWord word)
    (h : Accepts other (Text.toBytes word) rest d) :
    AcceptsPrinted (do
      if ← lookingAt Byte.openParen then
        advance
        return declare (← signature types)
      else other) [Text.toBytes word] rest d := by
  intro text hprinted
  obtain ⟨gap, after, rfl, hafter⟩ := hprinted.uncons
  obtain rfl := hafter.eq_nil
  refine ⟨gap, _, rfl, content_name hword _ rest, ?_⟩
  rw [List.append_nil]
  exact .look (accepts_notParen hword rest) h

end Shapes

/-- What a method gives is read in either shape behind its arrow. -/
theorem accepts_methodHeader {name receiver : String} {owner : Ty} {d : Declaration}
    {others : List (List UInt8)} {text : List UInt8} (hwords : types.Worded) (hname : IsWord name)
    (hreceiver : IsWord receiver) (howner : Ty.resolve types owner.name = .ok owner)
    (haggregate : owner.isAggregate = true)
    (hprinted : Printed ((Declaration.methodTokens name receiver owner).tail ++ others) text)
    (hresult : AcceptsPrinted (do
      if ← lookingAt Byte.openParen then
        advance
        return .method name receiver owner (← signature types)
      else return .method name receiver owner ⟨[], ← type types⟩) others rest d) :
    Accepts (methodHeader types owner.name) (Text.toBytes name ++ text) rest d := by
  have hownerName := hwords.isWord howner
  obtain ⟨g₁, text₁, rfl, h₁⟩ := hprinted.uncons
  obtain ⟨g₂, text₂, rfl, h₂⟩ := h₁.uncons
  obtain ⟨g₃, text₃, rfl, h₃⟩ := h₂.uncons
  obtain ⟨g₄, text₄, rfl, h₄⟩ := h₃.uncons
  obtain ⟨g₅, text₅, rfl, h₅⟩ := h₄.uncons
  obtain ⟨g₆, text₆, rfl, h₆⟩ := h₅.uncons
  obtain ⟨g₇, text₇, rfl, h₇⟩ := h₆.uncons
  obtain ⟨g₈, text₈, rfl, hcontent, hlast⟩ := hresult _ h₇
  refine .bind (accepts_name hname (hprinted.ended rfl rest)) ?_
  refine .bind (accepts_skipToContent g₁ (.cons rfl)) (.bind (accepts_expect Byte.colon _) ?_)
  refine .bind (accepts_skipToContent g₂ (.cons rfl)) (.bind (accepts_expect Byte.openParen _) ?_)
  refine .bind (accepts_skipToContent g₃ (content_name hreceiver _ rest)) ?_
  refine .bind (accepts_name hreceiver (h₃.ended rfl rest)) ?_
  refine .bind (accepts_skipToContent g₄ (.cons rfl)) (.bind (accepts_expect Byte.colon _) ?_)
  refine .bind (accepts_skipToContent g₅ (content_name hownerName _ rest)) ?_
  refine .bind (accepts_name hownerName (h₅.ended rfl rest)) ?_
  refine .look (accepts_require _ (beq_self_eq_true _)) ?_
  refine .bind (accepts_skipToContent g₆ (.cons rfl)) (.bind (accepts_expect Byte.closeParen _) ?_)
  refine .bind (accepts_skipToContent g₇ (.cons rfl)) (.bind (accepts_arrow _) ?_)
  refine .look (accepts_check howner) (.look (accepts_require _ haggregate) ?_)
  exact .bind (accepts_skipToContent g₈ hcontent) hlast

/-- A header without a dot is read up to its colon, and then by what follows. -/
theorem accepts_plain {name : String} {d : Declaration} {others : List (List UInt8)}
    {text : List UInt8} (hname : IsWord name)
    (hprinted : Printed (Text.toBytes name :: [Byte.colon] :: others) text)
    (hresult : AcceptsPrinted (do
      if ← lookingAt Byte.openParen then
        advance
        return .function name (← signature types)
      else plainHeader types name) others rest d) :
    Accepts (declaration types) text rest d := by
  obtain ⟨g₁, text₁, rfl, h₁⟩ := hprinted.uncons
  obtain ⟨g₂, text₂, rfl, h₂⟩ := h₁.uncons
  obtain ⟨g₃, text₃, rfl, hcontent, hlast⟩ := hresult _ h₂
  have hdot : (g₂.bytes ++ ([Byte.colon] ++ (g₃.bytes ++ text₃)) ++ rest).head? ≠ some Byte.dot := by
    rw [List.append_assoc]
    refine g₂.head_ne rfl ?_
    rintro ⟨⟩
  refine .bind (accepts_skipToContent g₁ (content_name hname _ rest)) ?_
  refine .bind (accepts_name hname (h₁.ended rfl rest)) (.look (accepts_lookingAt_ne hdot) ?_)
  refine .bind (accepts_skipSpace g₂ ?_) ?_
  · rintro b ⟨⟩
    rfl
  refine .look (accepts_lookingAt Byte.colon _) (.look (accepts_require _ rfl) ?_)
  exact .bind (accepts_advance Byte.colon _) (.bind (accepts_skipToContent g₃ hcontent) hlast)

/-- A single word behind the colon is read as the header of a type or a global. -/
theorem accepts_plainHeader {name word : String} {d : Declaration} {text : List UInt8}
    (hname : IsWord name) (hword : IsWord word) (hrest : Ended rest)
    (hprinted : Printed [Text.toBytes name, [Byte.colon], Text.toBytes word] text)
    (hresult : Accepts (match AggregateKind.ofKeyword? word with
      | some kind => pure (.type name kind)
      | none => do
        let ty ← check (Ty.resolve types word)
        check (ty.requireStorable name)
        return .global name ty) [] rest d) :
    Accepts (declaration types) text rest d :=
  accepts_plain hname hprinted
    (acceptsPrinted_word (.function name) hword (.last (accepts_name hword hrest) hresult))

/-- A method is read behind the dot after its owner. -/
theorem accepts_method {name receiver : String} {owner : Ty} {d : Declaration}
    {others : List (List UInt8)} {text : List UInt8} (hwords : types.Worded) (hname : IsWord name)
    (hreceiver : IsWord receiver) (howner : Ty.resolve types owner.name = .ok owner)
    (haggregate : owner.isAggregate = true)
    (hprinted : Printed (Declaration.methodTokens name receiver owner ++ others) text)
    (hresult : AcceptsPrinted (do
      if ← lookingAt Byte.openParen then
        advance
        return .method name receiver owner (← signature types)
      else return .method name receiver owner ⟨[], ← type types⟩) others rest d) :
    Accepts (declaration types) text rest d := by
  obtain ⟨gap, text₁, rfl, h₁⟩ := hprinted.uncons
  have hownerName := hwords.isWord howner
  have hsplit : Text.toBytes owner.name ++ Byte.dot :: Text.toBytes name ++ text₁
      = Text.toBytes owner.name ++ ([Byte.dot] ++ (Text.toBytes name ++ text₁)) :=
    List.append_assoc ..
  rw [hsplit]
  refine .bind (accepts_skipToContent gap (content_name hownerName _ rest)) ?_
  refine .bind (accepts_name hownerName (.cons rfl)) (.look (accepts_lookingAt Byte.dot _) ?_)
  exact .bind (accepts_advance Byte.dot _)
    (accepts_methodHeader hwords hname hreceiver howner haggregate h₁ hresult)

/-- The header of a declaration is read however it is printed. -/
theorem accepts_declaration {d : Declaration} {tokens : List (List UInt8)} {text : List UInt8}
    (hwords : types.Worded) (hd : d.Declarable types) (htokens : d.Tokens tokens)
    (hprinted : Printed tokens text) (hrest : Ended rest) : Accepts (declaration types) text rest d := by
  cases htokens with
  | type name kind =>
    refine accepts_plainHeader hd kind.isWord_keyword hrest hprinted ?_
    rw [show AggregateKind.ofKeyword? kind.keyword = some kind by cases kind <;> decide]
    exact .pure _ rest
  | global name ty =>
    obtain ⟨hname, hty, hstorable, hkeyword⟩ := hd
    refine accepts_plainHeader hname (hwords.isWord hty) hrest hprinted ?_
    have hcheck : ty.requireStorable name = .ok () := by rw [Ty.requireStorable, hstorable]; rfl
    rw [hkeyword]
    exact .look (accepts_check hty) (.look (accepts_check hcheck) (.pure _ rest))
  | function name hs =>
    obtain ⟨hname, hsignature⟩ := hd
    exact accepts_plain hname hprinted
      (acceptsPrinted_signature (.function name) hwords hsignature hs hrest)
  | short name receiver owner result =>
    obtain ⟨hname, hreceiver, howner, haggregate, hsignature⟩ := hd
    have hresult := hwords.isWord hsignature.result
    refine accepts_method hwords hname hreceiver howner haggregate hprinted
      (acceptsPrinted_word (.method name receiver owner) hresult ?_)
    exact .last (accepts_type hresult hsignature.result hrest) (.pure _ rest)
  | long name receiver owner hs =>
    obtain ⟨hname, hreceiver, howner, haggregate, hsignature⟩ := hd
    exact accepts_method hwords hname hreceiver howner haggregate hprinted
      (acceptsPrinted_signature (.method name receiver owner) hwords hsignature hs hrest)

end Scan

end Straightline
