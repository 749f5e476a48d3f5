import JackToolchain.Proofs.Stack.Fields

/-!
# Reading what was written

The text of commands that can be written is read back as these commands, with any spaces, tabs,
empty lines and comments put into it, and commands that are read can be written.
-/

namespace JackToolchain.Stack

open JackToolchain.Text

/-- A text of commands: each on a line of its own, with spaces and tabs around and between its
fields and perhaps a comment behind it, and between them lines without any command. -/
inductive Written : List Command → List Char → Prop
  | nil : Written [] []
  | blank {commands : List Command} {gap remark text : List Char} (hgap : Space gap)
      (hremark : Remark remark) (h : Written commands text) :
      Written commands (gap ++ remark ++ '\n' :: text)
  | command {c : Command} {commands : List Command} {before row after remark text : List Char}
      (hbefore : Space before) (hrow : Row c.fields row) (hafter : Space after)
      (hremark : Remark remark) (h : Written commands text) :
      Written (c :: commands) (before ++ row ++ after ++ remark ++ '\n' :: text)

/-! ## Commands from their fields -/

theorem readNumber_toDigits (n : UInt16) : readNumber (Nat.toDigits 10 n.toNat) = .ok n := by
  have hbound : n.toNat ≤ 65535 := Nat.le_of_lt_succ n.toNat_lt
  rw [readNumber, readDigits?_toDigits hbound]
  simp

theorem readName_toList {name : String} (h : isName name.toList = true) :
    readName name.toList = .ok name := by
  rw [readName, if_pos h, String.ofList_toList]

theorem readSegment_text (segment : Segment) : readSegment segment.text.toList = .ok segment := by
  rw [readSegment, String.ofList_toList, Segment.ofText?_text]

theorem readAccess_fields {segment : Segment} {index : UInt16} {pops : Bool}
    (h : segment.violation? index pops = none) :
    readAccess pops segment.text.toList (Nat.toDigits 10 index.toNat) =
      .ok (if pops then .pop segment index else .push segment index) := by
  simp only [readAccess, readSegment_text, readNumber_toDigits, bind, Except.bind, h]
  rfl

/-- A line with the fields of a command is read as the command. -/
theorem readCommand_of_words {c : Command} (hc : c.WellFormed) {text : List Char}
    (htext : words text = c.fields) : readCommand text = .ok c := by
  unfold readCommand
  simp only [htext]
  cases c with
  | push segment index => exact readAccess_fields hc.access
  | pop segment index => exact readAccess_fields hc.access
  | arithmetic op => cases op <;> rfl
  | label name => simp [Command.fields, readName_toList hc.named, Functor.map, Except.map]
  | goto name => simp [Command.fields, readName_toList hc.named, Functor.map, Except.map]
  | ifGoto name => simp [Command.fields, readName_toList hc.named, Functor.map, Except.map]
  | function name locals =>
      simp only [Command.fields, readName_toList hc.named, readNumber_toDigits]
      rfl
  | call name arguments =>
      simp only [Command.fields, readName_toList hc.named, readNumber_toDigits]
      rfl
  | «return» => simp [Command.fields]

/-- A line with the fields of a command is not empty. -/
theorem trimmed_of_words {c : Command} {text : List Char} (htext : words text = c.fields) :
    words (trimChars text) = c.fields ∧ (trimChars text).isEmpty = false := by
  have hwords : words (trimChars text) = c.fields := by rw [words_trimChars, htext]
  refine ⟨hwords, ?_⟩
  cases htrim : trimChars text with
  | nil =>
      rw [htrim, words_nil] at hwords
      cases c <;> cases hwords
  | cons d rest => rfl

theorem readLine_of_words {c : Command} (hc : c.WellFormed) {raw : List Char}
    (hraw : words (beforeSlashes raw) = c.fields) (line : Nat) :
    readLine (String.ofList raw) line = .ok (some c) := by
  obtain ⟨hwords, hne⟩ := trimmed_of_words hraw
  simp [readLine, hne, readCommand_of_words hc hwords]

theorem readLine_of_blanks {raw : List Char} (hraw : Blanks (beforeSlashes raw)) (line : Nat) :
    readLine (String.ofList raw) line = .ok none := by
  simp [readLine, trimChars_blanks hraw]

/-- A line with the fields of a push that means nothing is refused. -/
theorem readLine_of_violation {segment : Segment} {index : UInt16} {v : Violation}
    (hv : segment.violation? index false = some v) {raw : List Char}
    (hraw : words (beforeSlashes raw) = (Command.push segment index).fields) (line : Nat) :
    ∃ e, readLine (String.ofList raw) line = .error e ∧ e.fault = .illegalAccess v := by
  obtain ⟨hwords, hne⟩ := trimmed_of_words hraw
  have hread : readCommand (trimChars (beforeSlashes raw)) = .error (.illegalAccess v) := by
    unfold readCommand
    simp only [hwords, Command.fields]
    simp only [String.ofList_toList, readAccess, readSegment_text, readNumber_toDigits, bind,
      Except.bind, hv]
    rfl
  simp [readLine, hne, hread]

/-! ## Texts of commands -/

theorem plain_of_space {text : List Char} (h : Space text) : Plain text := by
  intro c hc
  rcases h c hc with rfl | rfl <;> decide

theorem not_mem_of_space {text : List Char} (h : Space text) : '/' ∉ text := by
  intro hc
  rcases h _ hc with h | h <;> cases h

theorem readLines_of_written {commands : List Command} {text : List Char}
    (h : Written commands text) (hcommands : ∀ c ∈ commands, c.WellFormed) (done : List Command)
    (line : Nat) : readLines done line (linesFrom [] [] text) = .ok (done.reverse ++ commands) := by
  induction h generalizing done line with
  | nil => simp [linesFrom, readLines]
  | blank hgap hremark _ ih =>
      obtain ⟨raw, hlines, hraw⟩ :=
        linesFrom_remark _ (plain_of_space hgap) (not_mem_of_space hgap) hremark
      have hblanks : Blanks (beforeSlashes raw) := hraw ▸ blanks_of_space hgap
      rw [hlines, readLines, readLine_of_blanks hblanks]
      exact ih hcommands done (line + 1)
  | @command c commands before row after remark text hbefore hrow hafter hremark _ ih =>
      have hc := hcommands c List.mem_cons_self
      have hfields := Command.field_of_mem_fields hc.named
      have hslash : '/' ∉ before ++ row ++ after := by
        have hmem := hrow.forall_mem hfields (P := (· ≠ '/')) (fun _ hd => hd.1) (by decide)
        simp only [List.mem_append, not_or]
        exact ⟨⟨not_mem_of_space hbefore, fun hd => hmem _ hd rfl⟩, not_mem_of_space hafter⟩
      have hplain : Plain (before ++ row ++ after) :=
        plain_append (plain_append (plain_of_space hbefore)
          (hrow.forall_mem hfields (fun _ hd => hd.2.2) (by decide))) (plain_of_space hafter)
      obtain ⟨raw, hlines, hraw⟩ := linesFrom_remark text hplain hslash hremark
      have hwords : words (beforeSlashes raw) = c.fields := by
        rw [hraw, words_append_blanks _ (blanks_of_space hafter),
          words_blanks_append (blanks_of_space hbefore), words_row hrow hfields]
      rw [hlines, readLines, readLine_of_words hc hwords,
        List.append_cons, ← List.reverse_cons]
      exact ih (fun d hd => hcommands d (List.mem_cons_of_mem _ hd)) (c :: done) (line + 1)

theorem toList_render_cons (c : Command) (commands : List Command) :
    (render (c :: commands)).toList = c.text.toList ++ '\n' :: (render commands).toList := by
  have hfold (text : String) (rest : List Command) :
      (rest.foldl (fun text command => text ++ command.text ++ "\n") text).toList =
        text.toList ++ (render rest).toList := by
    induction rest generalizing text with
    | nil => simp [render]
    | cons d rest ih =>
        rw [render, List.foldl_cons, List.foldl_cons, ih, ih ("" ++ d.text ++ "\n")]
        simp
  rw [render, List.foldl_cons, hfold]
  simp

/-- Rendered commands are a text of these commands. -/
theorem written_render (commands : List Command) : Written commands (render commands).toList := by
  induction commands with
  | nil => exact .nil
  | cons c commands ih =>
      have hempty : Space [] := by simp [Space]
      have hline : Written (c :: commands)
          ([] ++ c.text.toList ++ [] ++ [] ++ '\n' :: (render commands).toList) :=
        .command hempty c.row_text hempty .none ih
      rw [toList_render_cons]
      simpa using hline

theorem read_of_written {commands : List Command} (hcommands : ∀ c ∈ commands, c.WellFormed)
    {text : List Char} (h : Written commands text) : read (String.ofList text) = .ok commands := by
  rw [read, lines, String.toList_ofList]
  exact readLines_of_written h hcommands [] 1

theorem read_of_render {commands : List Command} (hcommands : ∀ c ∈ commands, c.WellFormed) :
    read (render commands) = .ok commands := by
  have h := read_of_written hcommands (written_render commands)
  rwa [String.ofList_toList] at h

/-- A push that means nothing among rendered commands keeps them from being read. -/
theorem read_render_of_violation {segment : Segment} {index : UInt16} {v : Violation}
    (hv : segment.violation? index false = some v) {commands : List Command}
    (hcommands : ∀ c ∈ commands, c.WellFormed ∨ c = .push segment index)
    (hmem : .push segment index ∈ commands) :
    ∃ e, read (render commands) = .error e ∧ e.fault = .illegalAccess v := by
  rw [read, lines]
  generalize 1 = line
  generalize [] = done
  induction commands generalizing done line with
  | nil => cases hmem
  | cons c commands ih =>
      have hnamed : c.WellNamed := by
        rcases hcommands c List.mem_cons_self with hc | rfl
        · exact hc.named
        · trivial
      have hfields := Command.field_of_mem_fields hnamed
      have hslash : '/' ∉ c.text.toList := fun hd =>
        c.row_text.forall_mem (P := (· ≠ '/')) hfields (fun _ hd => hd.1) (by decide) _ hd rfl
      have hwords : words (beforeSlashes c.text.toList) = c.fields := by
        rw [beforeSlashes_of_not_mem hslash]
        exact words_row c.row_text hfields
      rw [toList_render_cons, linesFrom_cons _ (plain_command hnamed), readLines]
      rcases hcommands c List.mem_cons_self with hc | rfl
      · have hne : c ≠ .push segment index := by
          rintro rfl
          have haccess : segment.violation? index false = none := hc.access
          rw [hv] at haccess
          cases haccess
        have hrest : .push segment index ∈ commands :=
          (List.mem_cons.mp hmem).resolve_left (Ne.symm hne)
        rw [readLine_of_words hc hwords]
        exact ih (fun d hd => hcommands d (List.mem_cons_of_mem _ hd)) hrest _ _
      · obtain ⟨e, he, hfault⟩ := readLine_of_violation hv hwords line
        rw [he]
        exact ⟨e, rfl, hfault⟩

/-- Commands can be written exactly if they are read from some text. Then their own text is read as
these commands, and so is every text with spaces, tabs, empty lines and comments put into it. -/
theorem wellFormed_iff_read (commands : List Command) :
    ((∀ c ∈ commands, c.WellFormed) ↔ ∃ text, read text = .ok commands) ∧
    (∀ text, read text = .ok commands → read (render commands) = .ok commands) ∧
    Written commands (render commands).toList ∧
    ((∀ c ∈ commands, c.WellFormed) → read (render commands) = .ok commands ∧
      ∀ text, Written commands text → read (String.ofList text) = .ok commands) := by
  refine ⟨⟨fun h => ⟨_, read_of_render h⟩, ?_⟩, fun text h => ?_, written_render commands,
    fun h => ?_⟩
  · rintro ⟨text, h⟩
    exact wellFormed_of_read h
  · exact read_of_render (wellFormed_of_read h)
  · exact ⟨read_of_render h, fun text htext => read_of_written h htext⟩

/-- A label with the name of a command, and a push with a tab, three spaces and a comment. -/
theorem read_spaced :
    (∀ c ∈ [Command.label "push", .push .constant 7], c.WellFormed) ∧
    read "label push\n\n\tpush   constant 7 // seven\n" =
      .ok [.label "push", .push .constant 7] := by
  have hwell : ∀ c ∈ [Command.label "push", .push .constant 7], c.WellFormed := by
    simp only [List.forall_mem_cons]
    exact ⟨⟨rfl, rfl⟩, ⟨trivial, rfl⟩, by simp⟩
  have hpush : Written [.push .constant 7]
      (['\t'] ++ ("push".toList ++ "   ".toList ++ ("constant".toList ++ [' '] ++ ['7'])) ++ [' '] ++
        "// seven".toList ++ '\n' :: []) :=
    .command (by simp [Space])
      (.cons (by simp [Space]) (by simp) (.cons (by simp [Space]) (by simp) (.single _)))
      (by simp [Space]) (.slashes (by decide)) .nil
  have hlabel : Written [.label "push", .push .constant 7]
      ([] ++ ("label".toList ++ [' '] ++ "push".toList) ++ [] ++ [] ++ '\n' :: ([] ++ [] ++ '\n' ::
        (['\t'] ++ ("push".toList ++ "   ".toList ++ ("constant".toList ++ [' '] ++ ['7'])) ++ [' '] ++
          "// seven".toList ++ '\n' :: []))) :=
    .command (by simp [Space]) (.cons (by simp [Space]) (by simp) (.single _)) (by simp [Space])
      .none (.blank (by simp [Space]) .none hpush)
  exact ⟨hwell, ((wellFormed_iff_read _).2.2.2 hwell).2 _ hlabel⟩

end JackToolchain.Stack
