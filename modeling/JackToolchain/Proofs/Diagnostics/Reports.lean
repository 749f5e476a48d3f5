import JackToolchain.Diagnostics.Report
import JackToolchain.Proofs.Files.Order
import Mathlib.Algebra.Ring.Nat
import Mathlib.Data.List.Basic

/-!
# What a report tells

A report keeps the events of each file in their order, as many as the cap admits, and counts the
others. A file has failed if there is an error among the events that are kept; the totals and the
text count the files by that. An error behind the cap is not told.
-/

namespace JackToolchain.Diagnostics

open JackToolchain.Files

/-- What a run enters into its report. -/
inductive Entry
  | begin (path : Path)
  | record (path : Path) (event : Event)

namespace Entry

def path : Entry → Path
  | begin path => path
  | record path _ => path

/-- What an entry does to the record of its file. -/
def change : Entry → FileRecord → FileRecord
  | begin _ => id
  | record _ event => (·.add event)

end Entry

/-- The events that some entries record for a file. -/
def recorded (path : Path) (entries : List Entry) : List Event :=
  entries.filterMap fun
    | .begin _ => none
    | .record p e => if path.compare p = .eq then some e else none

/-- The record of a file after some events. -/
def FileRecord.ofEvents (events : List Event) : FileRecord := events.foldl add {}

theorem FileRecord.foldl_add (r : FileRecord) (events : List Event)
    (h : r.events.size ≤ Limits.maxEventsPerFile) :
    (events.foldl add r).events.toList =
        r.events.toList ++ events.take (Limits.maxEventsPerFile - r.events.size) ∧
      (events.foldl add r).dropped =
        r.dropped + (events.length - (Limits.maxEventsPerFile - r.events.size)) := by
  induction events generalizing r with
  | nil => simp
  | cons e rest ih =>
      rw [List.foldl_cons, add]
      split
      · rename_i hroom
        obtain ⟨hevents, hdropped⟩ := ih { r with events := r.events.push e }
          (by rw [Array.size_push]; exact hroom)
        have hleft : Limits.maxEventsPerFile - r.events.size =
            (Limits.maxEventsPerFile - (r.events.size + 1)) + 1 := by omega
        simp only [Array.size_push] at hevents hdropped
        rw [hevents, hdropped, hleft, List.length_cons]
        exact ⟨by simp, by omega⟩
      · rename_i hfull
        obtain ⟨hevents, hdropped⟩ := ih { r with dropped := r.dropped + 1 } h
        have hleft : Limits.maxEventsPerFile - r.events.size = 0 := by omega
        simp only [hleft] at hevents hdropped
        rw [hevents, hdropped, hleft, List.length_cons]
        exact ⟨by simp, by omega⟩

theorem FileRecord.events_ofEvents (events : List Event) :
    (ofEvents events).events.toList = events.take Limits.maxEventsPerFile := by
  simpa [ofEvents] using (foldl_add {} events (Nat.zero_le _)).1

theorem FileRecord.dropped_ofEvents (events : List Event) :
    (ofEvents events).dropped = events.length - Limits.maxEventsPerFile := by
  simpa [ofEvents] using (foldl_add {} events (Nat.zero_le _)).2

namespace Report

/-! ## Records of files -/

/-- Each file is known once, in the order of the paths. -/
def Sorted (files : List (Path × FileRecord)) : Prop :=
  files.Pairwise fun a b => a.1.compare b.1 = .lt

/-- The record of a file, if the file is known. -/
def record? (files : List (Path × FileRecord)) (path : Path) : Option FileRecord :=
  (files.find? fun (p, _) => path.compare p == .eq).map (·.2)

theorem record?_cons (p : Path) (r : FileRecord) (rest : List (Path × FileRecord)) (path : Path) :
    record? ((p, r) :: rest) path = if path.compare p = .eq then some r else record? rest path := by
  by_cases heq : path.compare p = .eq
  · simp [record?, heq]
  · simp [record?, heq]

theorem record?_of_behind {files : List (Path × FileRecord)} {p path : Path}
    (h : ∀ file ∈ files, p.compare file.1 = .lt) (heq : path.compare p = .eq) :
    record? files path = none := by
  rw [record?, Option.map_eq_none_iff, List.find?_eq_none]
  rintro ⟨q, r⟩ hfile
  have hlt : path.compare q = .lt := by
    rw [Std.TransCmp.congr_left heq]
    exact h (q, r) hfile
  simp [hlt]

theorem record?_updateFile {files : List (Path × FileRecord)} (h : Sorted files) (p : Path)
    (f : FileRecord → FileRecord) (path : Path) :
    record? (updateFile p f files) path =
      if path.compare p = .eq then some (f ((record? files path).getD {}))
      else record? files path := by
  induction files with
  | nil => rw [updateFile, record?_cons]; rfl
  | cons file rest ih =>
      obtain ⟨q, r⟩ := file
      obtain ⟨hfirst, hrest⟩ := List.pairwise_cons.mp h
      rw [updateFile]
      cases hpq : p.compare q with
      | lt =>
          have hbehind : ∀ file ∈ (q, r) :: rest, p.compare file.1 = .lt := by
            intro file hfile
            rcases List.mem_cons.mp hfile with rfl | hfile
            · exact hpq
            · exact Std.TransCmp.lt_trans hpq (hfirst file hfile)
          rw [record?_cons]
          by_cases heq : path.compare p = .eq
          · rw [if_pos heq, if_pos heq, record?_of_behind hbehind heq]
            rfl
          · rw [if_neg heq, if_neg heq]
      | eq =>
          have hsame : path.compare p = path.compare q := Std.TransCmp.congr_right hpq
          simp only [record?_cons, hsame]
          by_cases heq : path.compare q = .eq
          · simp [heq]
          · simp [heq]
      | gt =>
          simp only [record?_cons, ih hrest]
          by_cases heq : path.compare q = .eq
          · have hne : path.compare p ≠ .eq := by
              intro hp
              rw [Std.TransCmp.congr_left hp, hpq] at heq
              cases heq
            rw [if_pos heq, if_neg hne, if_pos heq]
          · simp [heq]

theorem mem_updateFile {files : List (Path × FileRecord)} {p : Path}
    {f : FileRecord → FileRecord} {file : Path × FileRecord} (h : file ∈ updateFile p f files) :
    file.1 = p ∨ ∃ r, (file.1, r) ∈ files := by
  induction files with
  | nil =>
      rw [List.mem_singleton.mp h]
      exact .inl rfl
  | cons head rest ih =>
      obtain ⟨q, r⟩ := head
      rw [updateFile] at h
      cases hpq : p.compare q with
      | lt =>
          simp only [hpq] at h
          rcases List.mem_cons.mp h with rfl | h
          · exact .inl rfl
          · exact .inr ⟨file.2, h⟩
      | eq =>
          simp only [hpq] at h
          rcases List.mem_cons.mp h with rfl | h
          · exact .inr ⟨r, List.mem_cons_self⟩
          · exact .inr ⟨file.2, List.mem_cons_of_mem _ h⟩
      | gt =>
          simp only [hpq] at h
          rcases List.mem_cons.mp h with rfl | h
          · exact .inr ⟨r, List.mem_cons_self⟩
          · obtain hp | ⟨s, hs⟩ := ih h
            · exact .inl hp
            · exact .inr ⟨s, List.mem_cons_of_mem _ hs⟩

theorem Sorted.updateFile {files : List (Path × FileRecord)} (h : Sorted files) (p : Path)
    (f : FileRecord → FileRecord) : Sorted (updateFile p f files) := by
  induction files with
  | nil => exact List.pairwise_singleton _ _
  | cons file rest ih =>
      obtain ⟨q, r⟩ := file
      obtain ⟨hfirst, hrest⟩ := List.pairwise_cons.mp h
      rw [Report.updateFile]
      cases hpq : p.compare q with
      | lt =>
          refine List.pairwise_cons.mpr ⟨fun file hfile => ?_, h⟩
          rcases List.mem_cons.mp hfile with rfl | hfile
          · exact hpq
          · exact Std.TransCmp.lt_trans hpq (hfirst file hfile)
      | eq => exact List.pairwise_cons.mpr ⟨hfirst, hrest⟩
      | gt =>
          refine List.pairwise_cons.mpr ⟨fun file hfile => ?_, ih hrest⟩
          rcases mem_updateFile hfile with hp | ⟨s, hs⟩
          · rw [hp]
            exact Std.OrientedCmp.lt_of_gt hpq
          · exact hfirst (file.1, s) hs

theorem record?_of_mem {files : List (Path × FileRecord)} (h : Sorted files) {p : Path}
    {r : FileRecord} (hmem : (p, r) ∈ files) : record? files p = some r := by
  induction files with
  | nil => cases hmem
  | cons file rest ih =>
      obtain ⟨q, s⟩ := file
      obtain ⟨hfirst, hrest⟩ := List.pairwise_cons.mp h
      rw [record?_cons]
      rcases List.mem_cons.mp hmem with heq | hmem
      · cases heq
        rw [if_pos Std.ReflCmp.compare_self]
      · have hgt : p.compare q ≠ .eq := by
          rw [Std.OrientedCmp.gt_of_lt (hfirst _ hmem)]
          decide
        rw [if_neg hgt, ih hrest hmem]

theorem exists_of_record? {files : List (Path × FileRecord)} {path : Path} :
    (record? files path).isSome = true ↔ ∃ p ∈ files.map Prod.fst, path.compare p = .eq := by
  simp [record?, List.find?_isSome]

/-! ## Reports of runs -/

def enter (report : Report) : Entry → Report
  | .begin path => report.begin path
  | .record path e => report.record path e

/-- The report of a run. -/
def ofEntries (entries : List Entry) : Report := entries.foldl enter {}

theorem files_enter (report : Report) (entry : Entry) :
    (report.enter entry).files = updateFile entry.path entry.change report.files := by
  cases entry with
  | begin path => rfl
  | record path e => rfl

theorem recorded_eq_nil {path : Path} {entries : List Entry}
    (h : ¬∃ entry ∈ entries, path.compare entry.path = .eq) : recorded path entries = [] := by
  rw [recorded, List.filterMap_eq_nil_iff]
  intro entry hentry
  cases entry with
  | begin p => rfl
  | record p e => exact if_neg fun heq => h ⟨_, hentry, heq⟩

theorem ofEvents_recorded_append {path : Path} {entries : List Entry} {entry : Entry}
    (h : path.compare entry.path = .eq) :
    FileRecord.ofEvents (recorded path (entries ++ [entry])) =
      entry.change (FileRecord.ofEvents (recorded path entries)) := by
  rw [recorded, List.filterMap_append]
  cases entry with
  | begin p => simp [recorded, Entry.change]
  | record p e =>
      have hp : path.compare p = .eq := h
      simp [recorded, Entry.change, hp, FileRecord.ofEvents]

theorem recorded_append_of_ne {path : Path} {entries : List Entry} {entry : Entry}
    (h : path.compare entry.path ≠ .eq) :
    recorded path (entries ++ [entry]) = recorded path entries := by
  rw [recorded, List.filterMap_append]
  cases entry with
  | begin p => simp [recorded]
  | record p e =>
      have hp : path.compare p ≠ .eq := h
      simp [recorded, hp]

open scoped Classical in
/-- A file is known if an entry names it, with the record of its events. -/
theorem record?_ofEntries (entries : List Entry) : Sorted (ofEntries entries).files ∧
    ∀ path, record? (ofEntries entries).files path =
      if ∃ entry ∈ entries, path.compare entry.path = .eq then
        some (FileRecord.ofEvents (recorded path entries))
      else none := by
  induction entries using List.reverseRecOn with
  | nil => exact ⟨List.Pairwise.nil, fun path => by simp [ofEntries, record?]⟩
  | append_singleton entries entry ih =>
      obtain ⟨hsorted, hrecord⟩ := ih
      have hfiles : (ofEntries (entries ++ [entry])).files =
          updateFile entry.path entry.change (ofEntries entries).files := by
        rw [ofEntries, List.foldl_append, List.foldl_cons, List.foldl_nil, files_enter]
        rfl
      rw [hfiles]
      refine ⟨hsorted.updateFile _ _, fun path => ?_⟩
      rw [record?_updateFile hsorted, hrecord]
      by_cases heq : path.compare entry.path = .eq
      · have hknown : ∃ other ∈ entries ++ [entry], path.compare other.path = .eq :=
          ⟨entry, by simp, heq⟩
        rw [if_pos heq, if_pos hknown, ofEvents_recorded_append heq]
        by_cases hbefore : ∃ other ∈ entries, path.compare other.path = .eq
        · rw [if_pos hbefore]
          rfl
        · rw [if_neg hbefore, recorded_eq_nil hbefore]
          rfl
      · have hknown : (∃ other ∈ entries ++ [entry], path.compare other.path = .eq) ↔
            ∃ other ∈ entries, path.compare other.path = .eq := by
          simp [heq]
        rw [if_neg heq, recorded_append_of_ne heq]
        exact if_congr hknown.symm rfl rfl

theorem fileRecord_ofEntries (entries : List Entry) (path : Path) :
    (ofEntries entries).fileRecord path = FileRecord.ofEvents (recorded path entries) := by
  have hrecord := (record?_ofEntries entries).2 path
  rw [fileRecord, ← record?, hrecord]
  split
  · rfl
  · rename_i hunknown
    rw [recorded_eq_nil hunknown]
    rfl

theorem hasErrors_ofEntries (entries : List Entry) (path : Path) :
    (ofEntries entries).hasErrors path =
      ((recorded path entries).take Limits.maxEventsPerFile).any Event.isError := by
  rw [hasErrors, events, fileRecord_ofEntries, FileRecord.events_ofEvents]

/-! ## Totals -/

theorem totals_eq (report : Report) :
    report.totals =
      { files := report.files.length
        clean := report.files.countP fun file => file.2.errors == 0
        failed := report.files.countP fun file => file.2.errors != 0
        errors := (report.files.map fun file => file.2.errors).sum
        warnings := (report.files.map fun file => file.2.warnings).sum } := by
  obtain ⟨files⟩ := report
  -- the counts are added to those of the files before
  have hcounts : ∀ t : Totals, files.foldl (fun t (_, r) =>
      { files := t.files + 1
        clean := if r.errors = 0 then t.clean + 1 else t.clean
        failed := if r.errors = 0 then t.failed else t.failed + 1
        errors := t.errors + r.errors
        warnings := t.warnings + r.warnings : Totals }) t =
      { files := t.files + files.length
        clean := t.clean + files.countP fun file => file.2.errors == 0
        failed := t.failed + files.countP fun file => file.2.errors != 0
        errors := t.errors + (files.map fun file => file.2.errors).sum
        warnings := t.warnings + (files.map fun file => file.2.warnings).sum } := by
    induction files with
    | nil => simp
    | cons file rest ih =>
        intro t
        obtain ⟨p, r⟩ := file
        rw [List.foldl_cons, ih]
        by_cases hclean : r.errors = 0
        · simp [hclean, Nat.add_assoc, Nat.add_comm 1]
        · simp [hclean, Nat.add_assoc, Nat.add_comm 1]
  rw [totals, hcounts]
  simp

/-- The last line of a report. -/
def totalsLine (t : Totals) : String :=
  s!"{t.files} file(s) processed: {t.clean} compiled, {t.failed} failed" ++
    (if t.errors = 0 then "" else s!"; {t.errors} error(s)") ++
    if t.warnings = 0 then "" else s!"; {t.warnings} warning(s)"

theorem text_eq (report : Report) : report.text =
    String.join (report.files.map fun (path, r) => fileBlock path r) ++
      totalsLine report.totals := by
  simp only [text, totalsLine, String.append_assoc]

theorem errors_eq_zero_iff (r : FileRecord) :
    r.errors = 0 ↔ r.events.toList.any Event.isError = false := by
  rw [FileRecord.errors, List.countP_eq_zero, List.any_eq_false]

/-- A report has errors for a file if one of the events that the cap admits is an error; it counts
the others. Its totals and its last line tell how many of the known files have errors and how many
have none. -/
theorem ofEntries_tells (entries : List Entry) :
    (∀ path, (ofEntries entries).hasErrors path = true ↔
      ∃ e ∈ (recorded path entries).take Limits.maxEventsPerFile, e.isError = true) ∧
    (∀ path, ((ofEntries entries).fileRecord path).dropped =
      (recorded path entries).length - Limits.maxEventsPerFile) ∧
    ∃ paths : List Path, paths.Pairwise (fun a b => a.compare b = .lt) ∧
      (∀ path : Path, (∃ p ∈ paths, path.compare p = .eq) ↔
        ∃ entry ∈ entries, path.compare entry.path = .eq) ∧
      (ofEntries entries).totals.files = paths.length ∧
      (ofEntries entries).totals.failed = paths.countP (ofEntries entries).hasErrors ∧
      (ofEntries entries).totals.clean =
        paths.countP (fun path => !(ofEntries entries).hasErrors path) ∧
      ∃ blocks, (ofEntries entries).text = blocks ++ totalsLine (ofEntries entries).totals := by
  obtain ⟨hsorted, hrecord⟩ := record?_ofEntries entries
  refine ⟨fun path => ?_, fun path => ?_, (ofEntries entries).files.map Prod.fst,
    List.pairwise_map.mpr hsorted, fun path => ?_, ?_, ?_, ?_, _, text_eq _⟩
  · rw [hasErrors_ofEntries, List.any_eq_true]
  · rw [fileRecord_ofEntries, FileRecord.dropped_ofEvents]
  · rw [← exists_of_record?, hrecord]
    split
    · rename_i hknown
      exact iff_of_true rfl hknown
    · rename_i hunknown
      exact iff_of_false Bool.false_ne_true hunknown
  · rw [totals_eq, List.length_map]
  all_goals
    rw [totals_eq, List.countP_map]
    refine List.countP_congr fun file hfile => ?_
    have hfound := record?_of_mem hsorted (p := file.1) (r := file.2) hfile
    have herrors := errors_eq_zero_iff file.2
    rw [Function.comp_apply, hasErrors, events, fileRecord, ← record?, hfound, Option.getD_some]
    cases hany : file.2.events.toList.any Event.isError with
    | false => simp [herrors.mpr hany]
    | true =>
        have hsome : file.2.errors ≠ 0 := fun hzero => by simp [herrors.mp hzero] at hany
        simp [hsome]

/-- An error behind as many warnings as the cap admits is not told. -/
theorem hasErrors_of_full_record :
    (ofEntries (List.replicate Limits.maxEventsPerFile (.record "A.jack" (.warning "again")) ++
      [.record "A.jack" (.error .unresolvedIdentifier "unresolved")])).hasErrors "A.jack" = false := by
  have hself : Path.compare "A.jack" "A.jack" = .eq := Std.ReflCmp.compare_self
  have hrecorded (n : Nat) :
      recorded "A.jack" (List.replicate n (.record "A.jack" (.warning "again")) ++
        [.record "A.jack" (.error .unresolvedIdentifier "unresolved")]) =
      List.replicate n (.warning "again") ++ [.error .unresolvedIdentifier "unresolved"] := by
    simp [recorded, hself]
  rw [hasErrors_ofEntries, hrecorded, List.take_left' List.length_replicate, List.any_eq_false]
  intro e he
  rw [List.eq_of_mem_replicate he]
  decide

end Report

end JackToolchain.Diagnostics
