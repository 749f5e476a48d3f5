import JackToolchain.Proofs.Stack.Names
import JackToolchain.Proofs.Text.Lines
import JackToolchain.Proofs.Text.Words

/-!
# Fields of a command

A command is written as fields with one space between them. No field of a command with names of
symbols has a blank or a slash in it.
-/

namespace JackToolchain.Stack

open JackToolchain.Text

namespace Command

/-- The words that a command is written with. -/
def fields : Command → List (List Char)
  | push segment index => ["push".toList, segment.text.toList, Nat.toDigits 10 index.toNat]
  | pop segment index => ["pop".toList, segment.text.toList, Nat.toDigits 10 index.toNat]
  | arithmetic op => [op.text.toList]
  | label name => ["label".toList, name.toList]
  | goto name => ["goto".toList, name.toList]
  | ifGoto name => ["if-goto".toList, name.toList]
  | function name locals => ["function".toList, name.toList, Nat.toDigits 10 locals.toNat]
  | call name arguments => ["call".toList, name.toList, Nat.toDigits 10 arguments.toNat]
  | «return» => ["return".toList]

theorem toList_text (c : Command) : c.text.toList = [' '].intercalate c.fields := by
  cases c <;> simp [text, fields, List.intercalate] <;> rfl

end Command

/-! ## Words that are fields -/

theorem field_of_all {word : List Char} (hne : word ≠ [])
    (h : (word.all fun c => c != '/' && !isBlank c && c != '\n' && c != '\r') = true) :
    Field word := by
  refine ⟨hne, fun c hc => ?_⟩
  have hsolid := List.all_eq_true.mp h c hc
  simp only [Bool.and_eq_true, bne_iff_ne, Bool.not_eq_true'] at hsolid
  exact ⟨hsolid.1.1.1, hsolid.1.1.2, hsolid.1.2, hsolid.2⟩

theorem field_of_isName {name : List Char} (h : isName name = true) : Field name := by
  refine ⟨?_, fun c hc => solid_of_isNameChar (isNameChar_of_isName h c hc)⟩
  rintro rfl
  cases h

theorem field_toDigits (n : Nat) : Field (Nat.toDigits 10 n) :=
  ⟨Nat.toDigits_ne_nil, fun _ hc => solid_of_isNameChar (isNameChar_of_mem_toDigits hc)⟩

theorem field_segment (segment : Segment) : Field segment.text.toList :=
  field_of_all (by cases segment <;> decide) (by cases segment <;> decide)

theorem field_arithmetic (op : Arithmetic) : Field op.text.toList :=
  field_of_all (by cases op <;> decide) (by cases op <;> decide)

theorem Command.field_of_mem_fields {c : Command} (h : c.WellNamed) :
    ∀ field ∈ c.fields, Field field := by
  cases c with
  | push segment index =>
      simp only [fields, List.forall_mem_cons]
      exact ⟨field_of_all (by decide) (by decide), field_segment segment, field_toDigits _, by simp⟩
  | pop segment index =>
      simp only [fields, List.forall_mem_cons]
      exact ⟨field_of_all (by decide) (by decide), field_segment segment, field_toDigits _, by simp⟩
  | arithmetic op =>
      simp only [fields, List.forall_mem_cons]
      exact ⟨field_arithmetic op, by simp⟩
  | label name | goto name | ifGoto name =>
      simp only [fields, List.forall_mem_cons]
      exact ⟨field_of_all (by decide) (by decide), field_of_isName h, by simp⟩
  | function name locals | call name locals =>
      simp only [fields, List.forall_mem_cons]
      exact ⟨field_of_all (by decide) (by decide), field_of_isName h, field_toDigits _, by simp⟩
  | «return» =>
      simp only [fields, List.forall_mem_cons]
      exact ⟨field_of_all (by decide) (by decide), by simp⟩

/-! ## Rows of fields -/

/-- Fields with one space between them. -/
theorem row_intercalate {field : List Char} {fields : List (List Char)} :
    Row (field :: fields) ([' '].intercalate (field :: fields)) := by
  induction fields generalizing field with
  | nil =>
      rw [List.intercalate_singleton]
      exact .single field
  | cons next fields ih =>
      rw [List.intercalate_cons_cons]
      exact .cons (by simp [Space]) (by simp) ih

theorem Command.row_text (c : Command) : Row c.fields c.text.toList := by
  rw [toList_text]
  cases c <;> exact row_intercalate

/-- Commands with names of symbols are written on one line. -/
theorem plain_command {command : Command} (h : command.WellNamed) : Plain command.text.toList :=
  command.row_text.forall_mem (Command.field_of_mem_fields h) (fun _ hc => hc.2.2) (by decide)

end JackToolchain.Stack
