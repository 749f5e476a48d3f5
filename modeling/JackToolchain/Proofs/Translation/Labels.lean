import JackToolchain.Proofs.Lists
import JackToolchain.Proofs.Lowering.Readable
import JackToolchain.Proofs.Assembly.Totality
import JackToolchain.Proofs.Translation.Forms
import JackToolchain.Proofs.Translation.References

/-!
# Labels of expansions

The labels of the functions of a file have different forms: returns and comparisons are counted
through, and the branches of a function have labels of their own.
-/

namespace JackToolchain.Stack

open JackToolchain.Assembly JackToolchain.Assembly.Instruction JackToolchain.Lowering
open JackToolchain.Text JackToolchain.Token

@[simp] theorem labelsOf_append (front back : List Assembly.Instruction) :
    labelsOf (front ++ back) = labelsOf front ++ labelsOf back :=
  List.filterMap_append

namespace Form

theorem text_entry (c f : String) : (Form.mk [c, f] none).text = fullName c f := by
  rw [← String.toList_inj, toList_fullName, text, String.toList_ofList, path_cons_cons,
    path_singleton, List.append_nil]

theorem text_branch (c f label : String) :
    (Form.mk [c, f] (some (.branch label))).text = s!"{fullName c f}${label}" := by
  change _ = fullName c f ++ "$" ++ label
  rw [← String.toList_inj, text, String.toList_ofList, path_cons_cons, path_singleton]
  simp [toList_fullName, Suffix.text]

theorem text_call (c f : String) (number : Nat) :
    (Form.mk [c, c, f] (some (.call number))).text = s!"{c}.{fullName c f}$ret.{number}" := by
  change _ = c ++ "." ++ fullName c f ++ "$ret." ++ toString number
  rw [← String.toList_inj, text, String.toList_ofList, path_cons_cons, path_cons_cons,
    path_singleton]
  simp [toList_fullName, Suffix.text]
  rfl

theorem text_ifTrue (c : String) (op : Arithmetic) (number : Nat) :
    (Form.mk [c, "if_" ++ op.text] (some (.comparison number))).text =
      s!"{c}.if_{op.text}${number}" := by
  rw [← String.toList_inj, text, String.toList_ofList, path_cons_cons, path_singleton]
  simp [Suffix.text]
  rfl

theorem text_afterwards (c : String) (op : Arithmetic) (number : Nat) :
    (Form.mk [c, "after_" ++ op.text] (some (.comparison number))).text =
      s!"{c}.after_{op.text}${number}" := by
  rw [← String.toList_inj, text, String.toList_ofList, path_cons_cons, path_singleton]
  simp [Suffix.text]
  rfl

theorem text_static (c : String) (i : Nat) :
    (Form.mk [c, toString i] none).text = staticName c i := by
  rw [← String.toList_inj, toList_staticName, text, String.toList_ofList, path_cons_cons,
    path_singleton, List.append_nil, toList_toString]

/-- The symbol ends with a number that is counted through. -/
def IsNumbered (form : Form) : Prop :=
  match form.suffix with
  | some (.call _) | some (.comparison _) => True
  | some (.branch _) | none => False

end Form

/-! ## Labels of blocks -/

/-- Comparisons have labels. -/
def Arithmetic.compares : Arithmetic → Bool
  | .eq | .gt | .lt => true
  | .neg | .not | .add | .sub | .and | .or => false

namespace Expander

/-- The expansion behind a command. -/
def after (t : Expander) : Command → Expander
  | .function name _ => { t with function := some name }
  | .call .. => { t with calls := t.calls + 1 }
  | .arithmetic op => if op.compares then { t with comparisons := t.comparisons + 1 } else t
  | .push .. | .pop .. | .label _ | .goto _ | .ifGoto _ | .return => t

theorem eq_after_of_expand {t t' : Expander} {command : Command}
    {block : List Assembly.Instruction} (h : t.expand command = .ok (block, t')) :
    t' = t.after command := by
  unfold expand at h
  split at h
  · cases h
  · cases command with
    | arithmetic op =>
        have hrest : (t.arithmetic op).2 = t' := by rw [Except.ok.inj h]
        rw [← hrest]
        cases op <;> rfl
    | label name | goto name | ifGoto name =>
        obtain ⟨target, -, h⟩ := exists_of_bind h
        cases h
        rfl
    | push segment index | pop segment index | function name locals | call name arguments
    | «return» =>
        cases h
        rfl

/-- The next command stands in a function. -/
structure Inside (className name : String) (t : Expander) : Prop where
  file : t.file = className
  function : t.function = some (fullName className name)

/-- The labels of the block of a command in a function. -/
def formsOf (className name : String) (t : Expander) : Command → List Form
  | .label mark => [⟨[className, name], some (.branch mark)⟩]
  | .function .. => [⟨[className, name], none⟩]
  | .call .. => [⟨[className, className, name], some (.call t.calls)⟩]
  | .arithmetic op =>
    if op.compares then
      [⟨[className, "if_" ++ op.text], some (.comparison t.comparisons)⟩,
        ⟨[className, "after_" ++ op.text], some (.comparison t.comparisons)⟩]
    else []
  | .push .. | .pop .. | .goto _ | .ifGoto _ | .return => []

theorem labelsOf_replicate {block : List Assembly.Instruction} (h : labelsOf block = [])
    (count : Nat) : labelsOf (List.replicate count block).flatten = [] := by
  induction count with
  | zero => rfl
  | succ count ih => simp [List.replicate_succ, h, ih]

theorem labelsOf_push (file : String) (segment : Segment) (index : UInt16) :
    labelsOf (pushFrom file segment index) = [] := by
  cases segment <;> rfl

theorem labelsOf_pop (file : String) (segment : Segment) (index : UInt16) :
    labelsOf (popInto file segment index) = [] := by
  cases segment <;> rfl

theorem labelsOf_enterFunction (name : String) (locals : UInt16) :
    labelsOf (enterFunction name locals) = [name] := by
  have hclear : labelsOf (List.replicate locals.toNat [assign "M" "0", assign "A" "A+1"]).flatten =
      [] := labelsOf_replicate rfl _
  rw [enterFunction, labelsOf_append, labelsOf_append, hclear]
  rfl

/-- The labels of a block. -/
theorem labelsOf_of_expand {t t' : Expander} {command : Command} {c f : String}
    {block : List Assembly.Instruction} (h : t.expand command = .ok (block, t'))
    (hinside : t'.Inside c f) : labelsOf block = (formsOf c f t command).map Form.text := by
  have hafter := eq_after_of_expand h
  subst hafter
  unfold expand at h
  split at h
  · cases h
  · cases command with
    | push segment index =>
        cases h
        exact labelsOf_push ..
    | pop segment index =>
        cases h
        exact labelsOf_pop ..
    | arithmetic op =>
        have hblock : (t.arithmetic op).1 = block := by rw [Except.ok.inj h]
        rw [← hblock]
        have hfile : op.compares = true → t.file = c := by
          intro hop
          have hfile := hinside.file
          rw [after, if_pos hop] at hfile
          exact hfile
        cases op
        case eq | gt | lt =>
          simp only [formsOf, Arithmetic.compares, if_true, List.map_cons, List.map_nil,
            Form.text_ifTrue, Form.text_afterwards, ← hfile rfl]
          rfl
        all_goals rfl
    | label name =>
        obtain ⟨target, htarget, h⟩ := exists_of_bind h
        rw [branchLabel, show t.function = some (fullName c f) from hinside.function] at htarget
        cases h
        cases htarget
        simp [formsOf, Form.text_branch, labelsOf]
    | goto name =>
        obtain ⟨target, -, h⟩ := exists_of_bind h
        cases h
        rfl
    | ifGoto name =>
        obtain ⟨target, -, h⟩ := exists_of_bind h
        cases h
        rfl
    | function name locals =>
        cases h
        rw [labelsOf_enterFunction, formsOf, List.map_singleton, Form.text_entry]
        rw [Option.some.inj hinside.function]
    | call name arguments =>
        cases h
        have hfile : t.file = c := hinside.file
        have hfunction : t.function = some (fullName c f) := hinside.function
        rw [hfile, hfunction, formsOf, List.map_singleton, Form.text_call]
        rfl
    | «return» =>
        cases h
        rfl

/-! ## Labels of functions -/

theorem Expanded.append {t : Expander} {code rest : List Command}
    {blocks : List (List Assembly.Instruction)} (h : t.Expanded (code ++ rest) blocks) :
    ∃ front back, blocks = front ++ back ∧ t.Expanded code front ∧
      (code.foldl after t).Expanded rest back := by
  induction code generalizing t blocks with
  | nil => exact ⟨[], blocks, rfl, .nil t, h⟩
  | cons command code ih =>
      cases h with
      | @cons t t' command block code blocks hexpand hrest =>
          obtain ⟨front, back, rfl, hfront, hback⟩ := ih hrest
          rw [eq_after_of_expand hexpand] at hfront hback hexpand
          exact ⟨block :: front, back, rfl, .cons hexpand hfront, hback⟩

/-- The symbols of functions, with numbers from those of `t` to those of `t'`. -/
inductive Belongs (c : String) (names : List String) (t t' : Expander) : Form → Prop
  | entry {f : String} (hf : f ∈ names) : Belongs c names t t' ⟨[c, f], none⟩
  | branch {f : String} (hf : f ∈ names) (m : Mark) :
    Belongs c names t t' ⟨[c, f], some (.branch m.text)⟩
  | call {f : String} (hf : f ∈ names) {number : Nat} (hlow : t.calls ≤ number)
      (hhigh : number < t'.calls) : Belongs c names t t' ⟨[c, c, f], some (.call number)⟩
  | comparison {word : String} (hword : IsPart word) {number : Nat}
      (hlow : t.comparisons ≤ number) (hhigh : number < t'.comparisons) :
    Belongs c names t t' ⟨[c, word], some (.comparison number)⟩

/-- The counters of an expansion grow. -/
structure Grows (t t' : Expander) : Prop where
  calls : t.calls ≤ t'.calls
  comparisons : t.comparisons ≤ t'.comparisons

theorem grows_after (t : Expander) (command : Command) : t.Grows (t.after command) := by
  cases command with
  | arithmetic op =>
      cases op
      case eq | gt | lt => exact ⟨le_refl _, Nat.le_succ _⟩
      all_goals exact ⟨le_refl _, le_refl _⟩
  | _ => exact ⟨by simp [after], by simp [after]⟩

theorem Belongs.mono {c : String} {names all : List String} {s s' t t' : Expander} {form : Form}
    (h : Belongs c names t t' form) (hnames : names ⊆ all) (hlow : s.Grows t)
    (hhigh : t'.Grows s') : Belongs c all s s' form := by
  cases h with
  | entry hf => exact .entry (hnames hf)
  | branch hf m => exact .branch (hnames hf) m
  | call hf hl hh => exact .call (hnames hf) (hlow.calls.trans hl) (hh.trans_le hhigh.calls)
  | comparison hword hl hh =>
      exact .comparison hword (hlow.comparisons.trans hl) (hh.trans_le hhigh.comparisons)

theorem Belongs.exists_name {c : String} {names : List String} {t t' : Expander} {form : Form}
    (h : Belongs c names t t' form) (hnumbered : ¬form.IsNumbered) :
    ∃ f ∈ names, form.words = [c, f] := by
  cases h with
  | entry hf | branch hf m => exact ⟨_, hf, rfl⟩
  | call hf hlow hhigh | comparison hword hlow hhigh => exact absurd trivial hnumbered

/-- The labels of the instructions of functions. -/
structure Labelled (c : String) (names : List String) (t t' : Expander)
    (instructions : List Assembly.Instruction) (forms : List Form) : Prop where
  labels : labelsOf instructions = forms.map Form.text
  nodup : forms.Nodup
  belongs : ∀ form ∈ forms, Belongs c names t t' form
  grows : t.Grows t'

/-- Numbers keep labels apart, and names those that have no number. -/
theorem Labelled.append {c : String} {ns ms all : List String} {t s t' : Expander}
    {front back : List Assembly.Instruction} {fs gs : List Form}
    (hfront : Labelled c ns t s front fs) (hback : Labelled c ms s t' back gs) (hns : ns ⊆ all)
    (hms : ms ⊆ all)
    (hapart : ∀ form ∈ fs, form ∈ gs → form.IsNumbered) :
    Labelled c all t t' (front ++ back) (fs ++ gs) where
  labels := by rw [labelsOf_append, hfront.labels, hback.labels, List.map_append]
  nodup := by
    rw [List.nodup_append]
    refine ⟨hfront.nodup, hback.nodup, ?_⟩
    rintro form hform _ hother rfl
    have hnumbered := hapart form hform hother
    have hfirst := hfront.belongs form hform
    have hsecond := hback.belongs form hother
    cases hfirst with
    | entry hf => exact hnumbered
    | branch hf m => exact hnumbered
    | call hf hlow hhigh =>
        cases hsecond with
        | call hf' hlow' hhigh' => exact absurd hlow' (Nat.not_le.mpr hhigh)
    | comparison hword hlow hhigh =>
        cases hsecond with
        | comparison hword' hlow' hhigh' => exact absurd hlow' (Nat.not_le.mpr hhigh)
  belongs form hform := by
    rcases List.mem_append.mp hform with hform | hform
    · exact (hfront.belongs form hform).mono hns ⟨le_refl _, le_refl _⟩ hback.grows
    · exact (hback.belongs form hform).mono hms hfront.grows ⟨le_refl _, le_refl _⟩
  grows := ⟨hfront.grows.calls.trans hback.grows.calls,
    hfront.grows.comparisons.trans hback.grows.comparisons⟩

theorem Labelled.nil (c : String) (names : List String) (t : Expander) :
    Labelled c names t t [] [] where
  labels := rfl
  nodup := .nil
  belongs := by simp
  grows := ⟨le_refl _, le_refl _⟩

/-- What stands in a function: labels are marks. -/
def InnerCommand : Command → Prop
  | .function .. => False
  | .label mark => ∃ m : Mark, mark = m.text
  | .push .. | .pop .. | .arithmetic _ | .goto _ | .ifGoto _ | .call .. | .return => True

theorem isPart_text (op : Arithmetic) : IsPart op.text := by
  cases op <;> decide

theorem labelled_of_expand {t t' : Expander} {command : Command} {c f : String}
    {block : List Assembly.Instruction} (h : t.expand command = .ok (block, t'))
    (hinside : t'.Inside c f) (hmark : ∀ mark, command = .label mark → ∃ m : Mark, mark = m.text) :
    Labelled c [f] t t' block (formsOf c f t command) where
  labels := labelsOf_of_expand h hinside
  nodup := by
    cases command with
    | arithmetic op =>
        cases op
        case eq | gt | lt => simp [formsOf, Arithmetic.compares]
        all_goals exact .nil
    | push | pop | goto | ifGoto | «return» => exact .nil
    | label | function | call => exact List.nodup_singleton _
  belongs := by
    rw [eq_after_of_expand h]
    cases command with
    | arithmetic op =>
        have hif : IsPart ("if_" ++ op.text) := .append (by decide) (isPart_text op)
        have hafter : IsPart ("after_" ++ op.text) := .append (by decide) (isPart_text op)
        cases op
        case eq | gt | lt =>
          refine List.forall_mem_cons.mpr ⟨?_, List.forall_mem_singleton.mpr ?_⟩
          · exact .comparison hif (le_refl _) (Nat.lt_succ_self _)
          · exact .comparison hafter (le_refl _) (Nat.lt_succ_self _)
        all_goals exact fun form hform => nomatch hform
    | push | pop | goto | ifGoto | «return» => simp [formsOf]
    | label mark =>
        obtain ⟨m, rfl⟩ := hmark mark rfl
        exact List.forall_mem_singleton.mpr (.branch List.mem_cons_self m)
    | function name locals => exact List.forall_mem_singleton.mpr (.entry List.mem_cons_self)
    | call name arguments =>
        exact List.forall_mem_singleton.mpr
          (.call List.mem_cons_self (le_refl _) (Nat.lt_succ_self _))
  grows := eq_after_of_expand h ▸ grows_after t command

theorem Inside.after {t : Expander} {c f : String} (h : t.Inside c f) {command : Command}
    (hinner : InnerCommand command) : (t.after command).Inside c f := by
  cases command with
  | arithmetic op => cases op <;> exact ⟨h.file, h.function⟩
  | function name locals => exact hinner.elim
  | _ => exact ⟨h.file, h.function⟩

theorem label_of_mem_formsOf {t : Expander} {command : Command} {c f : String} {form : Form}
    (hinner : InnerCommand command) (h : form ∈ formsOf c f t command)
    (hnumbered : ¬form.IsNumbered) :
    ∃ mark, command = .label mark ∧ form = ⟨[c, f], some (.branch mark)⟩ := by
  cases command with
  | label mark => exact ⟨mark, rfl, List.mem_singleton.mp h⟩
  | function name locals => exact hinner.elim
  | call name arguments =>
      rw [List.mem_singleton.mp h] at hnumbered
      exact absurd trivial hnumbered
  | arithmetic op =>
      rw [formsOf] at h
      split at h
      · rcases List.mem_pair.mp h with rfl | rfl
        · exact absurd trivial hnumbered
        · exact absurd trivial hnumbered
      · cases h
  | push | pop | goto | ifGoto | «return» => cases h

/-- Commands of one function: its branches have labels of their own. -/
theorem Expanded.labelled_inside {t : Expander} {c f : String} {code : List Command}
    {blocks : List (List Assembly.Instruction)} (h : t.Expanded code blocks) (ht : t.Inside c f)
    (hcode : ∀ d ∈ code, InnerCommand d) (hnodup : (labelsIn code).Nodup) :
    ∃ forms, Labelled c [f] t (code.foldl after t) blocks.flatten forms ∧
      ∀ form ∈ forms, ¬form.IsNumbered →
        ∃ mark ∈ labelsIn code, form = ⟨[c, f], some (.branch mark)⟩ := by
  induction h with
  | nil t => exact ⟨[], .nil c [f] t, by simp⟩
  | @cons t t' command block code blocks hexpand hrest ih =>
      obtain ⟨hcommand, hcode⟩ := List.forall_mem_cons.mp hcode
      have hsplit : labelsIn (command :: code) = labelsIn [command] ++ labelsIn code :=
        labelsIn_append [command] code
      rw [hsplit, List.nodup_append] at hnodup
      obtain ⟨-, hothers, hapart⟩ := hnodup
      have hafter := eq_after_of_expand hexpand
      have hinside : t'.Inside c f := hafter ▸ ht.after hcommand
      have hmark : ∀ mark, command = .label mark → ∃ m : Mark, mark = m.text := by
        rintro mark rfl
        exact hcommand
      have hown := labelled_of_expand hexpand hinside hmark
      obtain ⟨forms, hforms, hmarks⟩ := ih hinside hcode hothers
      refine ⟨formsOf c f t command ++ forms, ?_, ?_⟩
      · rw [List.foldl_cons, ← hafter]
        refine hown.append hforms (List.Subset.refl _) (List.Subset.refl _) ?_
        intro form hfirst hsecond
        by_contra hnumbered
        obtain ⟨mark, rfl, rfl⟩ := label_of_mem_formsOf hcommand hfirst hnumbered
        obtain ⟨mark', hmem, heq⟩ := hmarks _ hsecond hnumbered
        cases heq
        exact hapart mark List.mem_cons_self mark hmem rfl
      · intro form hform hnumbered
        rw [hsplit]
        rcases List.mem_append.mp hform with hform | hform
        · obtain ⟨mark, rfl, rfl⟩ := label_of_mem_formsOf hcommand hform hnumbered
          exact ⟨mark, List.mem_append_left _ List.mem_cons_self, rfl⟩
        · obtain ⟨mark, hmem, rfl⟩ := hmarks form hform hnumbered
          exact ⟨mark, List.mem_append_right _ hmem, rfl⟩

/-- The commands of a function. -/
structure IsFunction (c f : String) (code : List Command) : Prop where
  parts : ∃ locals inner, code = .function (fullName c f) locals :: inner ∧
    (∀ d ∈ inner, InnerCommand d) ∧ (labelsIn inner).Nodup ∧ JumpsInto inner inner

theorem Expanded.labelled_function {t : Expander} {c f : String} {code : List Command}
    {blocks : List (List Assembly.Instruction)} (h : t.Expanded code blocks) (hfile : t.file = c)
    (hcode : IsFunction c f code) :
    ∃ forms, Labelled c [f] t (code.foldl after t) blocks.flatten forms := by
  obtain ⟨locals, inner, rfl, hinner, hnodup, -⟩ := hcode.parts
  cases h with
  | @cons t t' command block code blocks hexpand hrest =>
      have hafter := eq_after_of_expand hexpand
      have hinside : t'.Inside c f := by
        rw [hafter]
        exact ⟨hfile, rfl⟩
      have hown := labelled_of_expand hexpand hinside (by simp)
      obtain ⟨forms, hforms, hmarks⟩ := hrest.labelled_inside hinside hinner hnodup
      refine ⟨formsOf c f t (.function (fullName c f) locals) ++ forms, ?_⟩
      rw [List.foldl_cons, ← hafter]
      refine hown.append hforms (List.Subset.refl _) (List.Subset.refl _) ?_
      intro form hfirst hsecond
      by_contra hnumbered
      obtain ⟨mark, -, rfl⟩ := hmarks form hsecond hnumbered
      cases List.mem_singleton.mp hfirst

@[simp] theorem file_after (t : Expander) (command : Command) :
    (t.after command).file = t.file := by
  cases command with
  | arithmetic op => cases op <;> rfl
  | _ => rfl

theorem file_foldl_after (t : Expander) (code : List Command) :
    (code.foldl after t).file = t.file := by
  induction code generalizing t with
  | nil => rfl
  | cons command code ih => rw [List.foldl_cons, ih, file_after]

/-- Functions with different names have different labels. -/
theorem Expanded.labelled_functions {t : Expander} {c : String} {names : List String}
    {codes : List (List Command)} {blocks : List (List Assembly.Instruction)}
    (h : t.Expanded codes.flatten blocks) (hfile : t.file = c)
    (hcodes : List.Forall₂ (IsFunction c) names codes) (hnames : names.Nodup) :
    ∃ forms, Labelled c names t (codes.flatten.foldl after t) blocks.flatten forms := by
  induction hcodes generalizing t blocks with
  | nil =>
      cases h
      exact ⟨[], .nil c [] t⟩
  | @cons f code names codes hcode hcodes ih =>
      obtain ⟨hnew, hnames⟩ := List.nodup_cons.mp hnames
      obtain ⟨front, back, rfl, hfront, hback⟩ := h.append
      obtain ⟨fs, hfs⟩ := hfront.labelled_function hfile hcode
      obtain ⟨gs, hgs⟩ := ih hback ((file_foldl_after t code).trans hfile) hnames
      refine ⟨fs ++ gs, ?_⟩
      rw [List.flatten_cons, List.foldl_append, List.flatten_append]
      refine hfs.append hgs (by simp) (List.subset_cons_self f names) ?_
      intro form hfirst hsecond
      by_contra hnumbered
      obtain ⟨g, hg, hwords⟩ := (hfs.belongs form hfirst).exists_name hnumbered
      obtain ⟨g', hg', hwords'⟩ := (hgs.belongs form hsecond).exists_name hnumbered
      have hsame : g = g' := by
        have heq := hwords.symm.trans hwords'
        simpa using heq
      exact hnew (List.mem_singleton.mp hg ▸ hsame ▸ hg')

end Expander

end JackToolchain.Stack
