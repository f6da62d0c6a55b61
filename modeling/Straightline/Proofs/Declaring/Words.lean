import Straightline.Proofs.Declaring.Matching
import Straightline.Proofs.Reading.Bindings

/-!
# What is said of every name

Every name that is declared is a word, or the key of a method, which is put together from two. So what holds of
every word and of such keys holds of all names in the tables (`Declaring.named_step`). The parameters of the
bodies that are put off have words for names as well (`Declaring.labelled_step`).
-/

set_option autoImplicit false

namespace Straightline

section Names

variable (P : String → Prop)

/-- `P` holds of the name of everything that is declared. -/
structure Declarations.Named (d : Declarations) : Prop where
  types : ∀ name ∈ d.types.names, P name
  globals : ∀ name ∈ d.globals.names, P name
  keys : ∀ name ∈ d.keys, P name

/-- `P` holds of the names of all parameters, receivers included. -/
def Declaring.Labelled (s : Declaring) : Prop := ∀ body ∈ s.bodies, ∀ p ∈ body.parameters, P p.1

end Names

theorem Declarations.Named.of_settled {P : String → Prop} {d d' : Declarations} (h : d.Named P)
    (hsettled : d'.settled = d.settled) : d'.Named P where
  types := types_of_settled hsettled ▸ h.types
  globals := globals_of_settled hsettled ▸ h.globals
  keys := keys_of_settled hsettled ▸ h.keys

namespace Declaring

variable {P : String → Prop} {s s' : Declaring}

theorem named_step (hword : Ensures Scan.nonemptyWord fun _ name _ => P name)
    (hkey : ∀ (owner : Ty) (name : String), P owner.name → P name → P (Declarations.methodKey owner name))
    (hs : s.Sound) (h : s.declarations.Named P) (hstep : Declare.Step s s') : s'.declarations.Named P := by
  have hheader : ∀ {c c' : Cursor} {d : Declaration} {types : SymbolTable Ty},
      Scan.declaration types c = .ok d c' → P d.name :=
    fun h => Scan.named_declaration hword _ _ _ _ h
  cases hstep with
  | type _ hd => exact ⟨SymbolTable.forall_names_concat h.types (hheader hd), h.globals, h.keys⟩
  | global _ hd => exact ⟨h.types, SymbolTable.forall_names_concat h.globals (hheader hd), h.keys⟩
  | function _ hd =>
    refine ⟨h.types, h.globals, fun name hname => ?_⟩
    rcases List.mem_append.mp hname with hname | hname
    · exact SymbolTable.forall_names_concat (fun n hn => h.keys n (List.mem_append_left _ hn))
        (hheader hd) name hname
    · exact h.keys name (List.mem_append_right _ hname)
  | @method name receiver owner signature _ _ _ _ _ _ hd =>
    -- A method has the name of its owner in its key, which was read when the type was declared.
    have htypes := hs.declarations.types
    obtain ⟨hknown, haggregate, _⟩ := Scan.known_declaration htypes _ _ _ hd
    have howner : P owner.name :=
      h.types _ (List.mem_map_of_mem (SymbolTable.mem_of_find? (hknown haggregate)))
    refine ⟨h.types, h.globals, fun name hname => ?_⟩
    rcases List.mem_append.mp hname with hname | hname
    · exact h.keys name (List.mem_append_left _ hname)
    · exact SymbolTable.forall_names_concat (fun n hn => h.keys n (List.mem_append_right _ hn))
        (hkey owner _ howner (hheader hd)) name hname

theorem labelled_step (hword : Ensures Scan.nonemptyWord fun _ name _ => P name)
    (h : s.Labelled P) (hstep : Declare.Step s s') : s'.Labelled P := by
  cases hstep with
  | type | global => exact h
  | function _ hheader hfree _ _ hunlisted =>
    exact PendingBody.forall_concat (bodies_withFunction hfree hunlisted _ _) h
      (Scan.labels_declaration hword _ _ _ _ hheader)
  | method _ hheader hfree _ _ hunlisted =>
    have hlabels := Scan.labels_declaration hword _ _ _ _ hheader
    exact PendingBody.forall_concat (bodies_withMethod hfree hunlisted _ _) h
      (List.forall_mem_cons.mpr hlabels)

end Declaring

end Straightline
