import Mathlib.Data.String.Basic
import Straightline.CommandLine.Sources
import Straightline.Proofs.Reading.Encoding

/-!
# Names of files

Names are sorted as texts, character by character, and that is the order of their bytes in UTF-8
(`Text.toBytes_lt`). A file is a source by its name if something stands before the dot of the extension
(`CommandLine.isSourceName_iff`).
-/

set_option autoImplicit false

namespace Straightline

namespace Text

/-- Of two characters the lesser has the lesser bytes, whatever follows. -/
theorem utf8EncodeChar_lt {c d : Char} (h : c < d) (more more' : List UInt8) :
    String.utf8EncodeChar c ++ more < String.utf8EncodeChar d ++ more' := by
  have hcode : c.val.toNat < d.val.toNat := h
  have hbound : d.val.toNat < 0xD800 ∨ 0xDFFF < d.val.toNat ∧ d.val.toNat < 0x110000 := d.valid
  unfold String.utf8EncodeChar
  simp only
  repeat' split
  all_goals
    simp only [List.cons_append, List.nil_append, List.cons_lt_cons_iff, UInt8.lt_iff_toNat_lt,
      ← UInt8.toNat_inj, UInt8.toNat_ofNat']
    try simp (disch := omega) only [Nat.mod_eq_of_lt]
    omega

theorem flatMap_utf8EncodeChar_lt {cs ds : List Char} (h : cs < ds) :
    cs.flatMap String.utf8EncodeChar < ds.flatMap String.utf8EncodeChar := by
  induction cs generalizing ds with
  | nil =>
    cases ds with
    | nil => exact absurd h (List.lt_irrefl _)
    | cons d ds =>
      obtain ⟨b, bs, hd⟩ := List.exists_cons_of_ne_nil (String.utf8EncodeChar_ne_nil (c := d))
      rw [List.flatMap_cons, hd]
      exact List.nil_lt_cons _ _
  | cons c cs ih =>
    cases ds with
    | nil => exact absurd h (List.not_lt_nil _)
    | cons d ds =>
      rw [List.flatMap_cons, List.flatMap_cons]
      rcases List.cons_lt_cons_iff.mp h with hlt | ⟨rfl, hlt⟩
      · exact utf8EncodeChar_lt hlt _ _
      · exact List.append_left_lt (ih hlt)

/-- The order of texts is the order of their bytes. -/
theorem toBytes_lt {a b : String} (h : a < b) : toBytes a < toBytes b := by
  rw [toBytes_eq, toBytes_eq]
  exact flatMap_utf8EncodeChar_lt (String.lt_iff_toList_lt.mp h)

/-- So is the order of lists of texts. -/
theorem map_toBytes_lt {names others : List String} (h : names < others) :
    names.map toBytes < others.map toBytes := by
  induction names generalizing others with
  | nil =>
    cases others with
    | nil => exact absurd h (List.lt_irrefl _)
    | cons other others => exact List.nil_lt_cons _ _
  | cons name names ih =>
    cases others with
    | nil => exact absurd h (List.not_lt_nil _)
    | cons other others =>
      rw [List.map_cons, List.map_cons, List.cons_lt_cons_iff]
      rcases List.cons_lt_cons_iff.mp h with hlt | ⟨rfl, hlt⟩
      · exact .inl (toBytes_lt hlt)
      · exact .inr ⟨rfl, ih hlt⟩

end Text

namespace CommandLine

/-- The name ends in a dot and the extension, and does not begin there. -/
def HasExtension (extension name : String) : Prop :=
  ∃ stem, stem ≠ "" ∧ name = stem ++ "." ++ extension

theorem isSourceName_iff {name : String} :
    isSourceName name = true ↔ HasExtension sourceExtension name := by
  simp only [isSourceName, Bool.and_eq_true, decide_eq_true_eq, String.endsWith,
    String.Slice.endsWith_string_iff, String.copy_toSlice]
  constructor
  · rintro ⟨⟨stem, hname⟩, hne⟩
    refine ⟨String.ofList stem, ?_, ?_⟩
    · rintro hempty
      obtain rfl : stem = [] := by simpa using congrArg String.toList hempty
      exact hne (String.toList_inj.mp hname.symm)
    · apply String.toList_inj.mp
      rw [String.append_assoc, String.toList_append, String.toList_ofList, hname]
  · rintro ⟨stem, hstem, rfl⟩
    rw [String.append_assoc]
    refine ⟨⟨stem.toList, (String.toList_append ..).symm⟩, fun h => hstem ?_⟩
    simpa using congrArg String.toList h

end CommandLine

end Straightline
