import Mathlib.Data.List.Nodup
import Straightline.IR.Text
import Straightline.Proofs.IR.Typed
import Straightline.Proofs.Reading.Names

/-!
# Symbols of a module

Globals, functions and the allocator share the symbols of the textual form. What a line introduces can be
read off it (`introduced?`): a global's symbol stands at its beginning, a function's behind its result type.
Of a module whose names hold neither blanks nor brackets, the lines introduce one symbol for each global, one
for each function, and that of the allocator if it is used (`introduced_lines`), and no other symbol is used
in its instructions (`references_subset`). As globals and functions are named apart among themselves only,
the symbols are distinct exactly if no global has the name of a function, and nothing that of the allocator
while that is used (`symbols_nodup_iff`).
-/

set_option autoImplicit false

namespace Straightline.IR

/-! ## Names and symbols -/

theorem toList_symbol (name : String) :
    (symbol name).toList =
      if isPlainName name then '@' :: name.toList else '@' :: '"' :: name.toList ++ ['"'] := by
  unfold symbol
  split <;> simp [String.toList_append]

/-- Different names have different symbols: no plain name begins with a quote. -/
theorem symbol_injective {name name' : String} (h : symbol name = symbol name') : name = name' := by
  have hlist := congrArg String.toList h
  have hquote : ∀ text : String, isPlainName text = true → text.toList.head? ≠ some '"' := by
    intro text hplain hhead
    -- A quote is none of the characters of a plain name.
    have hmem := List.mem_of_mem_head? hhead
    exact absurd (List.all_eq_true.mp hplain _ hmem) (by decide)
  simp only [toList_symbol] at hlist
  split at hlist <;> split at hlist
  · exact String.toList_inj.mp (List.cons.inj hlist).2
  case isTrue.isFalse hplain _ =>
    refine absurd ?_ (hquote name hplain)
    rw [(List.cons.inj hlist).2]
    rfl
  case isFalse.isTrue _ hplain =>
    refine absurd ?_ (hquote name' hplain)
    rw [← (List.cons.inj hlist).2]
    rfl
  · exact String.toList_inj.mp (by simpa using hlist)

/-- A function whose lines introduce its symbol: its name and its result type are read as they are, and it
has a body of one block. -/
structure Function.Legible (f : Function) : Prop where
  bracket : '(' ∉ f.name.toList
  ret : ' ' ∉ f.ret.text.toList
  entered : ∃ insts, f.blocks = [⟨"entry", insts⟩]

namespace Module

/-- The names whose symbols the text introduces, in order. -/
def symbolNames (m : Module) : List String :=
  m.globals.map Global.name ++ m.functions.map Function.name ++
    if m.usesHeap then ["malloc"] else []

/-- The symbols that the text introduces: one for each global, one for each function, and that of the
allocator if it is used. -/
def symbols (m : Module) : List String := m.symbolNames.map symbol

variable {m : Module}

/-- When no symbol is introduced twice. -/
theorem symbols_nodup_iff (hglobals : (m.globals.map Global.name).Nodup)
    (hfunctions : (m.functions.map Function.name).Nodup) :
    m.symbols.Nodup ↔
      (∀ g ∈ m.globals, ∀ f ∈ m.functions, g.name ≠ f.name) ∧
      (m.usesHeap = true →
        (∀ g ∈ m.globals, g.name ≠ "malloc") ∧ ∀ f ∈ m.functions, f.name ≠ "malloc") := by
  rw [symbols, List.nodup_map_iff fun _ _ => symbol_injective, symbolNames, List.nodup_append,
    List.nodup_append]
  have hapart : (∀ a ∈ m.globals.map Global.name, ∀ b ∈ m.functions.map Function.name, a ≠ b) ↔
      ∀ g ∈ m.globals, ∀ f ∈ m.functions, g.name ≠ f.name := by
    simp only [List.mem_map, forall_exists_index, and_imp, forall_apply_eq_imp_iff₂]
  cases m.usesHeap with
  | false => simp [hglobals, hfunctions]
  | true => simp [hglobals, hfunctions, or_imp, forall_and]

/-! ## Lines -/

/-- What follows the first blank. -/
def afterBlank (text : List Char) : List Char := (text.dropWhile (· != ' ')).drop 1

/-- The symbol that a line of text introduces, if it introduces one. A global's stands at the beginning and
goes up to a blank, a function's stands behind the keyword and the result type and goes up to a bracket. -/
def introduced? (line : String) : Option String :=
  let text := line.toList
  if text.head? = some '@' then some (.ofList (text.takeWhile (· != ' ')))
  else if "define ".toList.isPrefixOf text || "declare ".toList.isPrefixOf text then
    some (.ofList ((afterBlank (afterBlank text)).takeWhile (· != '(')))
  else none

section Lines

variable {line name ret : String}

theorem afterBlank_append {word rest : List Char} (h : ' ' ∉ word) :
    afterBlank (word ++ ' ' :: rest) = rest := by
  rw [afterBlank, dropWhile_until h]
  rfl

/-- A line that begins with another character introduces nothing. -/
theorem introduced?_none {c : Char} (h : line.toList.head? = some c) (hat : c ≠ '@') (hd : c ≠ 'd') :
    introduced? line = none := by
  obtain ⟨rest, hline⟩ : ∃ rest, line.toList = c :: rest := by
    cases hl : line.toList with
    | nil =>
      rw [hl] at h
      cases h
    | cons c' rest =>
      rw [hl] at h
      cases h
      exact ⟨rest, rfl⟩
  have hdefine : "define ".toList = ['d', 'e', 'f', 'i', 'n', 'e', ' '] := by decide
  have hdeclare : "declare ".toList = ['d', 'e', 'c', 'l', 'a', 'r', 'e', ' '] := by decide
  simp [introduced?, hline, hat, hdefine, hdeclare, hd.symm]

theorem introduced?_symbol (hname : ' ' ∉ name.toList) (rest : List Char)
    (h : line.toList = (symbol name).toList ++ ' ' :: rest) : introduced? line = some (symbol name) := by
  have hblank : ' ' ∉ (symbol name).toList := by
    rw [toList_symbol]
    split <;> simp [hname]
  have hhead : line.toList.head? = some '@' := by
    rw [h, toList_symbol]
    split <;> rfl
  unfold introduced?
  rw [if_pos hhead, h, takeWhile_until hblank, String.ofList_toList]

theorem introduced?_define (hret : ' ' ∉ ret.toList) (hname : '(' ∉ name.toList) (rest : List Char)
    (h : line.toList =
      "define ".toList ++ (ret.toList ++ ' ' :: ((symbol name).toList ++ '(' :: rest))) :
    introduced? line = some (symbol name) := by
  have hbracket : '(' ∉ (symbol name).toList := by
    rw [toList_symbol]
    split <;> simp [hname]
  have hdefine : "define ".toList = "define".toList ++ [' '] := by decide
  have hhead : line.toList.head? ≠ some '@' := by
    rw [h, show "define ".toList = ['d', 'e', 'f', 'i', 'n', 'e', ' '] by decide]
    simp
  have hafter : afterBlank (afterBlank line.toList) = (symbol name).toList ++ '(' :: rest := by
    rw [h, hdefine, List.append_assoc, List.singleton_append, afterBlank_append (by decide),
      afterBlank_append hret]
  unfold introduced?
  rw [if_neg hhead, if_pos, hafter, takeWhile_until hbracket, String.ofList_toList]
  rw [h, Bool.or_eq_true]
  exact .inl (List.isPrefixOf_iff_prefix.mpr (List.prefix_append _ _))

/-- Instructions are indented. -/
theorem head_insertLines (m : Module) (ty : IRType) (result : String) (index : Nat) (previous : String)
    (fields : List Value) :
    ∀ line ∈ m.insertLines ty result index previous fields, line.toList.head? = some ' ' := by
  induction fields generalizing index previous with
  | nil => simp [insertLines]
  | cons field rest ih =>
    rw [insertLines, List.forall_mem_cons]
    refine ⟨?_, ih _ _⟩
    simp [String.toList_append, toString]

theorem head_instLines (m : Module) (inst : Inst) :
    ∀ line ∈ m.instLines inst, line.toList.head? = some ' ' := by
  obtain ⟨id, ty, op⟩ := inst
  unfold instLines
  cases op with
  | alloca allocated name => cases name <;> simp [String.toList_append, toString]
  | call callee args =>
    dsimp only
    split <;> simp [String.toList_append, toString]
  | ret value => cases value <;> simp [String.toList_append, toString]
  | aggregate fields => exact head_insertLines m ty _ 0 _ fields
  | heapAlloc | store | load | add | sub | fieldAddr => simp [String.toList_append, toString]

end Lines

theorem introduced_instLines (m : Module) (insts : List Inst) :
    (insts.flatMap m.instLines).filterMap introduced? = [] := by
  rw [List.filterMap_eq_nil_iff]
  intro line hline
  obtain ⟨inst, _, hline⟩ := List.mem_flatMap.mp hline
  exact introduced?_none (head_instLines m inst line hline) (by decide) (by decide)

/-- The first line of a function with a body. -/
def defineLine (f : Function) : String :=
  let params := commaSeparated (f.params.mapIdx fun index ty => s!"{ty.text} %p{index}")
  s!"define {f.ret.text} {symbol f.name}({params}) " ++ "\x7b"

theorem functionLines_of_entered (m : Module) {f : Function} {insts : List Inst}
    (h : f.blocks = [⟨"entry", insts⟩]) :
    m.functionLines f = defineLine f :: "entry:" :: insts.flatMap m.instLines ++ ["\x7d"] := by
  have hlabel : "entry" ++ ":" = "entry:" := by decide
  simp [functionLines, h, blockLines, defineLine, hlabel]

theorem introduced_functionLines (m : Module) {f : Function} (h : f.Legible) :
    (m.functionLines f).filterMap introduced? = [symbol f.name] := by
  obtain ⟨insts, hblocks⟩ := h.entered
  have hheader : introduced? (defineLine f) = some (symbol f.name) := by
    refine introduced?_define h.ret h.bracket ((commaSeparated (f.params.mapIdx fun index ty =>
      s!"{ty.text} %p{index}")).toList ++ [')', ' ', '\x7b']) ?_
    simp [defineLine, String.toList_append, toString]
  have hentry : introduced? "entry:" = none := by decide
  have hclose : introduced? "\x7d" = none := by decide
  rw [functionLines_of_entered m hblocks, List.filterMap_append, List.filterMap_cons_some hheader,
    List.filterMap_cons_none hentry, introduced_instLines, List.filterMap_cons_none hclose]
  rfl

theorem introduced_section (lines : List String) :
    (section? lines).filterMap introduced? = lines.filterMap introduced? := by
  unfold section?
  split
  case isTrue h => rw [List.isEmpty_iff.mp h]
  case isFalse => rw [List.filterMap_cons_none (by decide)]

theorem introduced_structLines (structs : List StructDef) :
    (structs.map structLine).filterMap introduced? = [] := by
  rw [List.filterMap_eq_nil_iff]
  intro line hline
  obtain ⟨d, _, rfl⟩ := List.mem_map.mp hline
  have hhead : (structLine d).toList.head? = some '%' := by
    simp [structLine, String.toList_append, toString]
  exact introduced?_none hhead (by decide) (by decide)

theorem introduced_globalLines (m : Module) {globals : List Global}
    (h : ∀ g ∈ globals, ' ' ∉ g.name.toList) :
    (globals.map m.globalLine).filterMap introduced? = globals.map fun g => symbol g.name := by
  induction globals with
  | nil => rfl
  | cons g rest ih =>
    rw [List.forall_mem_cons] at h
    have hline : introduced? (m.globalLine g) = some (symbol g.name) := by
      refine introduced?_symbol h.1
        ("= global ".toList ++ g.ty.text.toList ++ ' ' :: (m.constantText g.ty g.init).toList) ?_
      simp [globalLine, String.toList_append, toString]
    rw [List.map_cons, List.filterMap_cons_some hline, ih h.2, List.map_cons]

theorem introduced_functions (m : Module) {functions : List Function}
    (h : ∀ f ∈ functions, f.Legible) :
    (functions.flatMap fun f => "" :: m.functionLines f).filterMap introduced? =
      functions.map fun f => symbol f.name := by
  induction functions with
  | nil => rfl
  | cons f rest ih =>
    rw [List.forall_mem_cons] at h
    have hempty : introduced? "" = none := by decide
    rw [List.flatMap_cons, List.filterMap_append, List.filterMap_cons_none hempty,
      introduced_functionLines m h.1, ih h.2]
    rfl

/-- The lines of the text introduce the symbols of the module, in order. -/
theorem introduced_lines (hglobals : ∀ g ∈ m.globals, ' ' ∉ g.name.toList)
    (hfunctions : ∀ f ∈ m.functions, f.Legible) : m.lines.filterMap introduced? = m.symbols := by
  have hheader : [s!"; ModuleID = \"{m.name}\"", s!"source_filename = \"{m.name}\""].filterMap
      introduced? = [] := by
    rw [List.filterMap_eq_nil_iff]
    simp only [List.forall_mem_cons, List.not_mem_nil, false_imp_iff, implies_true, and_true]
    constructor
    · refine introduced?_none (c := ';') ?_ (by decide) (by decide)
      simp [String.toList_append, toString]
    · refine introduced?_none (c := 's') ?_ (by decide) (by decide)
      simp [String.toList_append, toString]
  have hallocator : (if m.usesHeap then ["", "declare i8* @malloc(i64)"] else []).filterMap introduced?
      = (if m.usesHeap then ["malloc"] else []).map symbol := by
    cases m.usesHeap <;> decide
  unfold lines symbols symbolNames
  simp only [List.filterMap_append, hheader, introduced_section, introduced_structLines,
    introduced_globalLines m hglobals, introduced_functions m hfunctions, hallocator, List.map_append,
    List.map_map, List.nil_append]
  rfl

/-! ## References -/

/-- The symbols that the text of an instruction uses: of the globals among its operands, of the function
that it calls, and of the allocator. -/
def instReferences (m : Module) (inst : Inst) : List String :=
  (inst.op.operands.filterMap fun v =>
    match v.source with
    | .global _ => some (m.operandText v)
    | _ => none) ++
  match inst.op with
  | .call callee _ => [m.calleeText callee]
  | .heapAlloc _ => ["@malloc"]
  | _ => []

/-- The symbols that the instructions of a module use. -/
def references (m : Module) : List String :=
  m.functions.flatMap fun f => f.insts.flatMap m.instReferences

theorem mem_symbols {name : String} (h : name ∈ m.symbolNames) : symbol name ∈ m.symbols :=
  List.mem_map_of_mem h

/-- Whatever is used is introduced. -/
theorem references_subset {kinds : Kinds} (htyped : m.Typed kinds) :
    ∀ name ∈ m.references, name ∈ m.symbols := by
  intro name hname
  obtain ⟨f, hf, hname⟩ := List.mem_flatMap.mp hname
  obtain ⟨inst, hinst, hname⟩ := List.mem_flatMap.mp hname
  obtain ⟨before, hop⟩ := (htyped.functions f hf).chain.typed_of_mem hinst
  -- An operand that is a global is one of the module; the rest is a callee or the allocator.
  rcases List.mem_append.mp hname with hname | hname
  · obtain ⟨v, hv, hname⟩ := List.mem_filterMap.mp hname
    have hscoped := hop.operands v hv
    cases hscoped with
    | global hg =>
      cases hname
      refine (?_ : m.operandText _ ∈ m.symbols)
      simp only [operandText, hg]
      refine mem_symbols (List.mem_append_left _ (List.mem_append_left _ ?_))
      exact List.mem_map_of_mem (List.mem_of_getElem? hg)
    | param | inst | const => cases hname
  · obtain ⟨id, ty, op⟩ := inst
    cases hop with
    | call htarget =>
      obtain rfl := List.mem_singleton.mp hname
      rw [calleeText, htarget]
      refine mem_symbols (List.mem_append_left _ (List.mem_append_right _ ?_))
      exact List.mem_map_of_mem (List.mem_of_getElem? htarget)
    | heapAlloc =>
      obtain rfl := List.mem_singleton.mp hname
      have huses : m.usesHeap = true :=
        List.any_eq_true.mpr ⟨f, hf, List.any_eq_true.mpr ⟨_, hinst, rfl⟩⟩
      have hmalloc : "malloc" ∈ m.symbolNames := by
        rw [symbolNames, huses]
        simp
      exact mem_symbols hmalloc
    | alloca | store | load | add | sub | fieldAddr | aggregate | ret | retValue => cases hname

end Module

end Straightline.IR
