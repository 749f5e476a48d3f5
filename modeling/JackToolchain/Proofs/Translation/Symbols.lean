import JackToolchain.Proofs.Translation.Image
import JackToolchain.Proofs.Translation.Labels

/-!
# Symbols of classes

What the commands of a class refer to is defined: its branches in the same function, and its calls
wherever the class with the function is.
-/

namespace JackToolchain.Stack

open JackToolchain.Assembly JackToolchain.Assembly.Instruction JackToolchain.Lowering
open JackToolchain.Text JackToolchain.Token

namespace Expander

/-! ## References of functions -/

theorem Expanded.label_mem {t : Expander} {c f : String} {code : List Command}
    {blocks : List (List Assembly.Instruction)} (h : t.Expanded code blocks) (ht : t.Inside c f)
    (hcode : ∀ d ∈ code, InnerCommand d) {mark : String} (hmark : .label mark ∈ code) :
    .label s!"{fullName c f}${mark}" ∈ blocks.flatten := by
  induction h with
  | nil t => cases hmark
  | @cons t t' command block code blocks hexpand hrest ih =>
      obtain ⟨hcommand, hcode⟩ := List.forall_mem_cons.mp hcode
      have hinside : t'.Inside c f := eq_after_of_expand hexpand ▸ ht.after hcommand
      rw [List.flatten_cons, List.mem_append]
      rcases List.mem_cons.mp hmark with rfl | hmark
      · refine .inl (mem_labelsOf.mp ?_)
        rw [labelsOf_of_expand hexpand hinside, formsOf, List.map_singleton, Form.text_branch]
        exact List.mem_singleton_self _
      · exact .inr (ih hinside hcode hmark)

section References

variable {known : String → Prop} {c f : String} {t : Expander}
  {blocks : List (List Assembly.Instruction)}

theorem Expanded.refers_inside {code : List Command} (h : t.Expanded code blocks)
    (ht : t.Inside c f) (hcode : ∀ d ∈ code, InnerCommand d)
    (hregisters : ∀ r ∈ usedRegisters, known r) (hstatics : ∀ i, known (staticName c i))
    (hlabels : ∀ name, .label name ∈ blocks.flatten → known name)
    (hcalls : ∀ name count, .call name count ∈ code → known name)
    (hbranches : ∀ d ∈ code, ∀ mark, targetOf? d = some mark → known s!"{fullName c f}${mark}") :
    Refers known blocks.flatten := by
  induction h with
  | nil t => exact refers_nil
  | @cons t t' command block code blocks hexpand hrest ih =>
      obtain ⟨hcommand, hcode⟩ := List.forall_mem_cons.mp hcode
      obtain ⟨hbranch, hbranches⟩ := List.forall_mem_cons.mp hbranches
      have hinside : t'.Inside c f := eq_after_of_expand hexpand ▸ ht.after hcommand
      rw [List.flatten_cons] at hlabels
      rw [List.flatten_cons, refers_append]
      constructor
      · refine refers_of_expand hexpand hregisters
          (fun name hname => hlabels name (List.mem_append_left _ hname))
          (fun index _ => ht.file ▸ hstatics index.toNat) ?_
          (fun name count hcall => hcalls name count (hcall ▸ List.mem_cons_self))
        intro mark name hgoto hname
        obtain ⟨function, hfunction, rfl⟩ := branchLabel_eq hname
        rw [ht.function] at hfunction
        cases hfunction
        rcases hgoto with rfl | rfl
        · exact hbranch mark rfl
        · exact hbranch mark rfl
      · exact ih hinside hcode (fun name hname => hlabels name (List.mem_append_right _ hname))
          (fun name count hcall => hcalls name count (List.mem_cons_of_mem _ hcall)) hbranches

theorem Expanded.refers_function {code : List Command} (h : t.Expanded code blocks)
    (hfile : t.file = c) (hcode : IsFunction c f code)
    (hregisters : ∀ r ∈ usedRegisters, known r) (hstatics : ∀ i, known (staticName c i))
    (hlabels : ∀ name, .label name ∈ blocks.flatten → known name)
    (hcalls : ∀ name count, .call name count ∈ code → known name) :
    Refers known blocks.flatten := by
  obtain ⟨locals, inner, rfl, hinner, -, hjumps⟩ := hcode.parts
  cases h with
  | @cons t t' command block code blocks hexpand hrest =>
      have hinside : t'.Inside c f := by
        rw [eq_after_of_expand hexpand]
        exact ⟨hfile, rfl⟩
      rw [List.flatten_cons] at hlabels
      rw [List.flatten_cons, refers_append]
      constructor
      · exact refers_of_expand hexpand hregisters
          (fun name hname => hlabels name (List.mem_append_left _ hname)) (by simp) (by simp)
          (by simp)
      · refine hrest.refers_inside hinside hinner hregisters hstatics
          (fun name hname => hlabels name (List.mem_append_right _ hname))
          (fun name count hcall => hcalls name count (List.mem_cons_of_mem _ hcall)) ?_
        intro d hd mark hmark
        refine hlabels _ (List.mem_append_right _ ?_)
        exact hrest.label_mem hinside hinner (hjumps d hd mark hmark)

theorem Expanded.refers_functions {names : List String} {codes : List (List Command)}
    (h : t.Expanded codes.flatten blocks) (hfile : t.file = c)
    (hcodes : List.Forall₂ (IsFunction c) names codes)
    (hregisters : ∀ r ∈ usedRegisters, known r) (hstatics : ∀ i, known (staticName c i))
    (hlabels : ∀ name, .label name ∈ blocks.flatten → known name)
    (hcalls : ∀ name count, .call name count ∈ codes.flatten → known name) :
    Refers known blocks.flatten := by
  induction hcodes generalizing t blocks with
  | nil =>
      cases h
      exact refers_nil
  | @cons f code names codes hcode hcodes ih =>
      obtain ⟨front, back, rfl, hfront, hback⟩ := h.append
      rw [List.flatten_append] at hlabels
      rw [List.flatten_append, refers_append]
      constructor
      · exact hfront.refers_function hfile hcode hregisters hstatics
          (fun name hname => hlabels name (List.mem_append_left _ hname))
          (fun name count hcall => hcalls name count (List.mem_append_left _ hcall))
      · exact ih hback ((file_foldl_after t code).trans hfile)
          (fun name hname => hlabels name (List.mem_append_right _ hname))
          (fun name count hcall => hcalls name count (List.mem_append_right _ hcall))

end References

/-- The name of a function is a label. -/
theorem Expanded.entry_mem {t : Expander} {code : List Command} {name : String} {locals : UInt16}
    {blocks : List (List Assembly.Instruction)} (h : t.Expanded code blocks)
    (hname : .function name locals ∈ code) : .label name ∈ blocks.flatten := by
  induction h with
  | nil t => cases hname
  | @cons t t' command block code blocks hexpand hrest ih =>
      rw [List.flatten_cons, List.mem_append]
      rcases List.mem_cons.mp hname with rfl | hname
      · cases hexpand
        exact .inl List.mem_cons_self
      · exact .inr (ih hname)

end Expander

end JackToolchain.Stack
