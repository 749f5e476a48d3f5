import JackToolchain.Project.Workers
import JackToolchain.Proofs.Lowering.Readable
import JackToolchain.Proofs.Project.Isolation
import JackToolchain.Proofs.Token.Arrival
import Mathlib.Algebra.GroupWithZero.Nat
import Mathlib.Data.List.Nodup

/-!
# Schedules

Whatever the schedule, the numbers of a listing are shared out once each: those under the cursor are
being worked on or recorded. When all workers are done and nothing stopped them, every file is
recorded with what it comes to alone.
-/

namespace JackToolchain.Project

open JackToolchain.Files

/-! ## What workers hold -/

namespace Worker

/-- The number that a worker has taken and not recorded. -/
def number? : Worker → Option Nat
  | compiling number _ | recording number _ _ => some number
  | _ => none

/-- The number of a file that a worker has compiled and not recorded. -/
def compiled? : Worker → Option Nat
  | recording number _ _ => some number
  | _ => none

/-- The number of a file that a worker compiles in its next step. -/
def compiles? : Worker → Option Nat
  | compiling number _ => some number
  | _ => none

/-- What a worker holds belongs to its number, and a result is that of its file alone. -/
def Holds (o : BatchOptions) (s : Session) (files : List Path) : Worker → Prop
  | compiling number path => files[number]? = some path
  | recording number path result =>
    files[number]? = some path ∧ result = alone o.source s path
  | _ => True

end Worker

namespace Pool

/-- The numbers of the files that are compiled in a step. -/
def compiles (p : Pool) (k : Nat) : List Nat :=
  (p.workers[k]?.bind Worker.compiles?).toList

/-- The numbers of the files that are compiled by a schedule, in order. -/
def compilations (o : BatchOptions) (files : List Path) : Pool → List Nat → List Nat
  | _, [] => []
  | p, k :: rest => p.compiles k ++ compilations o files (p.step o files k) rest

/-- A pool in which the files with these numbers were compiled. -/
structure Valid (o : BatchOptions) (s : Session) (files : List Path) (p : Pool)
    (log : List Nat) : Prop where
  session : Onward s p.session
  tree : p.session.tree =
    (log.filterMap (files[·]?)).foldl (leaving o.source s) s.tree
  /-- Every number under the cursor is recorded or worked on, each by one worker. -/
  numbers : (p.results.map Recorded.number ++ p.workers.filterMap Worker.number?).Perm
    (List.range (min p.cursor files.length))
  log : log.Perm (p.results.map Recorded.number ++ p.workers.filterMap Worker.compiled?)
  holds : ∀ w ∈ p.workers, w.Holds o s files
  results : ∀ r ∈ p.results,
    files[r.number]? = some r.path ∧ r.result = alone o.source s r.path
  stopped : p.stopped = p.results.any fun r => o.stopsAfter r.result
  exhausted : Worker.done ∈ p.workers → p.stopped ∨ files.length ≤ p.cursor

variable {o : BatchOptions} {s : Session} {files : List Path} {p : Pool} {log : List Nat}

theorem valid_start (o : BatchOptions) (s : Session) (files : List Path) (count : Nat) :
    (start s count).Valid o s files [] where
  session := .refl s
  tree := rfl
  numbers := by simp [start, Worker.number?, List.filterMap_replicate]
  log := by simp [start, Worker.compiled?, List.filterMap_replicate]
  holds w hw := by
    rw [(List.mem_replicate.mp hw).2]
    trivial
  results := by simp [start]
  stopped := rfl
  exhausted h := by simp [start] at h

/-- The worker of a step among the others. -/
theorem exists_split {workers : List Worker} {k : Nat} {w : Worker} (h : workers[k]? = some w) :
    ∃ front back, workers = front ++ w :: back ∧
      ∀ w', workers.set k w' = front ++ w' :: back := by
  obtain ⟨hk, rfl⟩ := List.getElem?_eq_some_iff.mp h
  refine ⟨workers.take k, workers.drop (k + 1), ?_, fun w' => ?_⟩
  · simp
  · rw [List.set_eq_take_append_cons_drop, if_pos hk]

/-- Looking at the mark. -/
theorem Valid.look (h : p.Valid o s files log) {front back : List Worker}
    (hworkers : p.workers = front ++ .idle :: back) :
    Valid o s files
      { p with workers := front ++ (if p.stopped then .done else .cleared) :: back } log where
  session := h.session
  tree := h.tree
  numbers := by
    have hnumbers := h.numbers
    rw [hworkers] at hnumbers
    split
    all_goals simpa [List.filterMap_cons, Worker.number?] using hnumbers
  log := by
    have hlog := h.log
    rw [hworkers] at hlog
    split
    all_goals simpa [List.filterMap_cons, Worker.compiled?] using hlog
  holds w hw := by
    rw [List.mem_append, List.mem_cons] at hw
    rcases hw with hw | rfl | hw
    · exact h.holds w (by simp [hworkers, hw])
    · split
      all_goals trivial
    · exact h.holds w (by simp [hworkers, hw])
  results := h.results
  stopped := h.stopped
  exhausted hdone := by
    by_cases hstopped : p.stopped
    · exact .inl hstopped
    · refine h.exhausted ?_
      simpa [hworkers, hstopped] using hdone

/-- Taking a number. -/
theorem Valid.take (h : p.Valid o s files log) {front back : List Worker}
    (hworkers : p.workers = front ++ .cleared :: back) {path : Path}
    (hpath : files[p.cursor]? = some path) :
    Valid o s files
      { p with cursor := p.cursor + 1, workers := front ++ .compiling p.cursor path :: back }
      log where
  session := h.session
  tree := h.tree
  numbers := by
    have hcursor : p.cursor < files.length := (List.getElem?_eq_some_iff.mp hpath).1
    have hrange : List.range (min (p.cursor + 1) files.length) =
        List.range (min p.cursor files.length) ++ [p.cursor] := by
      rw [Nat.min_eq_left hcursor, Nat.min_eq_left (Nat.le_of_lt hcursor), List.range_succ]
    rw [hrange]
    have hnumbers := h.numbers.append_right [p.cursor]
    rw [hworkers] at hnumbers
    refine List.Perm.trans ?_ hnumbers
    simp only [List.filterMap_append, List.filterMap_cons, Worker.number?, List.append_assoc]
    refine (List.Perm.refl _).append ((List.Perm.refl _).append ?_)
    exact (List.perm_append_singleton p.cursor _).symm
  log := by
    have hlog := h.log
    rw [hworkers] at hlog
    simpa [List.filterMap_cons, Worker.compiled?] using hlog
  holds w hw := by
    rw [List.mem_append, List.mem_cons] at hw
    rcases hw with hw | rfl | hw
    · exact h.holds w (by simp [hworkers, hw])
    · exact hpath
    · exact h.holds w (by simp [hworkers, hw])
  results := h.results
  stopped := h.stopped
  exhausted hdone := by
    have hdone : Worker.done ∈ p.workers := by simpa [hworkers] using hdone
    exact (h.exhausted hdone).imp_right fun hle => Nat.le_succ_of_le hle

/-- Finding no number. -/
theorem Valid.leave (h : p.Valid o s files log) {front back : List Worker}
    (hworkers : p.workers = front ++ .cleared :: back) (hnone : files[p.cursor]? = none) :
    Valid o s files { p with cursor := p.cursor + 1, workers := front ++ .done :: back } log where
  session := h.session
  tree := h.tree
  numbers := by
    have hcursor : files.length ≤ p.cursor := List.getElem?_eq_none_iff.mp hnone
    have hnumbers := h.numbers
    rw [hworkers, Nat.min_eq_right hcursor] at hnumbers
    rw [Nat.min_eq_right (Nat.le_succ_of_le hcursor)]
    simpa [List.filterMap_cons, Worker.number?] using hnumbers
  log := by
    have hlog := h.log
    rw [hworkers] at hlog
    simpa [List.filterMap_cons, Worker.compiled?] using hlog
  holds w hw := by
    rw [List.mem_append, List.mem_cons] at hw
    rcases hw with hw | rfl | hw
    · exact h.holds w (by simp [hworkers, hw])
    · trivial
    · exact h.holds w (by simp [hworkers, hw])
  results := h.results
  stopped := h.stopped
  exhausted _ := .inr (Nat.le_succ_of_le (List.getElem?_eq_none_iff.mp hnone))

/-- Compiling a file. -/
theorem Valid.compile (h : p.Valid o s files log) {front back : List Worker} {number : Nat}
    {path : Path} (hworkers : p.workers = front ++ .compiling number path :: back) {u : Session}
    (htree : u.tree = leaving o.source s p.session.tree path) (hu : Onward s u) :
    Valid o s files
      { p with
        session := u
        workers := front ++ .recording number path (alone o.source s path) :: back }
      (log ++ [number]) where
  session := hu
  tree := by
    have hpath : files[number]? = some path :=
      h.holds (.compiling number path) (by simp [hworkers])
    rw [htree, h.tree, List.filterMap_append, List.foldl_append]
    simp [hpath]
  numbers := by
    have hnumbers := h.numbers
    rw [hworkers] at hnumbers
    simpa [List.filterMap_cons, Worker.number?] using hnumbers
  log := by
    have hlog := h.log.append_right [number]
    rw [hworkers] at hlog
    refine hlog.trans ?_
    simp only [List.filterMap_append, List.filterMap_cons, Worker.compiled?, List.append_assoc]
    refine (List.Perm.refl _).append ((List.Perm.refl _).append ?_)
    exact List.perm_append_singleton number _
  holds w hw := by
    rw [List.mem_append, List.mem_cons] at hw
    rcases hw with hw | rfl | hw
    · exact h.holds w (by simp [hworkers, hw])
    · exact ⟨h.holds (.compiling number path) (by simp [hworkers]), rfl⟩
    · exact h.holds w (by simp [hworkers, hw])
  results := h.results
  stopped := h.stopped
  exhausted hdone := h.exhausted (by simpa [hworkers] using hdone)

/-- Recording a result. -/
theorem Valid.record (h : p.Valid o s files log) {front back : List Worker} {number : Nat}
    {path : Path} {result : Except ClassError CompiledFile}
    (hworkers : p.workers = front ++ .recording number path result :: back) :
    Valid o s files
      { p with
        stopped := p.stopped || o.stopsAfter result
        results := p.results ++ [⟨number, path, result⟩]
        workers := front ++ .idle :: back } log where
  session := h.session
  tree := h.tree
  numbers := by
    have hnumbers := h.numbers
    rw [hworkers] at hnumbers
    refine List.Perm.trans ?_ hnumbers
    simp only [List.map_append, List.map_cons, List.map_nil, List.filterMap_append,
      List.filterMap_cons, Worker.number?, List.append_assoc]
    refine (List.Perm.refl _).append ?_
    rw [List.singleton_append]
    exact List.perm_middle.symm
  log := by
    have hlog := h.log
    rw [hworkers] at hlog
    refine hlog.trans ?_
    simp only [List.map_append, List.map_cons, List.map_nil, List.filterMap_append,
      List.filterMap_cons, Worker.compiled?, List.append_assoc]
    refine (List.Perm.refl _).append ?_
    rw [List.singleton_append]
    exact List.perm_middle
  holds w hw := by
    rw [List.mem_append, List.mem_cons] at hw
    rcases hw with hw | rfl | hw
    · exact h.holds w (by simp [hworkers, hw])
    · trivial
    · exact h.holds w (by simp [hworkers, hw])
  results r hr := by
    rw [List.mem_append, List.mem_singleton] at hr
    rcases hr with hr | rfl
    · exact h.results r hr
    · exact h.holds (.recording number path result) (by simp [hworkers])
  stopped := by simp [h.stopped]
  exhausted hdone := by
    have hdone : Worker.done ∈ p.workers := by simpa [hworkers] using hdone
    exact (h.exhausted hdone).imp_left fun hstopped => by simp [hstopped]

/-- A step keeps the pool in order. -/
theorem Valid.step (h : p.Valid o s files log) (hbase : s.tree.WellBased)
    (hsources : ∀ path ∈ files, ∃ front name place content,
      s.tree.HasSource path front name place content) (k : Nat) :
    (p.step o files k).Valid o s files (log ++ p.compiles k) := by
  unfold Pool.step compiles
  cases hk : p.workers[k]? with
  | none => simpa using h
  | some w =>
      obtain ⟨front, back, hworkers, hset⟩ := exists_split hk
      simp only [hset, Option.bind_some]
      cases w with
      | done => simpa [Worker.compiles?] using h
      | idle => simpa [Worker.compiles?] using h.look hworkers
      | cleared =>
          cases hpath : files[p.cursor]? with
          | none => simpa [Worker.compiles?] using h.leave hworkers hpath
          | some path => simpa [Worker.compiles?] using h.take hworkers hpath
      | compiling number path =>
          have hpath : files[number]? = some path :=
            h.holds (.compiling number path) (by simp [hworkers])
          obtain ⟨u, hrun, htree, hu⟩ :=
            h.session.compileFile_run hbase o.source (hsources path (List.mem_of_getElem? hpath))
          simp only [hrun]
          exact h.compile hworkers htree hu
      | recording number path result => simpa [Worker.compiles?] using h.record hworkers

/-- A schedule keeps the pool in order. -/
theorem Valid.run (h : p.Valid o s files log) (hbase : s.tree.WellBased)
    (hsources : ∀ path ∈ files, ∃ front name place content,
      s.tree.HasSource path front name place content) (schedule : List Nat) :
    (p.run o files schedule).Valid o s files (log ++ compilations o files p schedule) := by
  induction schedule generalizing p log with
  | nil => simpa [Pool.run, compilations] using h
  | cons k rest ih =>
      have hrest := ih (h.step hbase hsources k)
      rwa [List.append_assoc] at hrest

/-! ## What holds at any time -/

theorem compiled_sublist (workers : List Worker) :
    (workers.filterMap Worker.compiled?).Sublist (workers.filterMap Worker.number?) := by
  induction workers with
  | nil => exact .slnil
  | cons w rest ih =>
      cases w with
      | compiling number path => exact ih.cons number
      | recording number path result => exact ih.cons_cons number
      | _ => exact ih

theorem Valid.nodup_log (h : p.Valid o s files log) : log.Nodup := by
  rw [h.log.nodup_iff]
  have hnumbers := (h.numbers.nodup_iff).mpr List.nodup_range
  exact hnumbers.sublist ((List.Sublist.refl _).append (compiled_sublist p.workers))

theorem Valid.number_lt (h : p.Valid o s files log) {r : Recorded} (hr : r ∈ p.results) :
    r.number < p.cursor := by
  have hmem : r.number ∈ List.range (min p.cursor files.length) :=
    h.numbers.mem_iff.mp (List.mem_append_left _ (List.mem_map_of_mem hr))
  exact Nat.lt_of_lt_of_le (List.mem_range.mp hmem) (Nat.min_le_left ..)

theorem Valid.length_results_le (h : p.Valid o s files log) :
    p.results.length ≤ files.length := by
  have hlength := h.numbers.length_eq
  simp only [List.length_append, List.length_map, List.length_range] at hlength
  omega

/-! ## What holds at the end -/

/-- When all workers are done and none was stopped, every number is recorded. -/
theorem Valid.numbers_of_finished (h : p.Valid o s files log) (hfinished : p.Finished)
    (hworkers : files ≠ [] → p.workers ≠ [])
    (hstopped : ∀ r ∈ p.results, o.stopsAfter r.result = false) :
    (p.results.map Recorded.number).Perm (List.range files.length) ∧
      log.Perm (List.range files.length) := by
  have hcursor : files.length ≤ p.cursor := by
    by_cases hfiles : files = []
    · simp [hfiles]
    · obtain ⟨w, rest, hcons⟩ := List.exists_cons_of_ne_nil (hworkers hfiles)
      have hw := hfinished w (by simp [hcons])
      refine (h.exhausted (by simp [hcons, hw])).resolve_left ?_
      rw [h.stopped]
      simpa using hstopped
  have hnone {f : Worker → Option Nat} (hf : f .done = none) : p.workers.filterMap f = [] := by
    rw [List.filterMap_eq_nil_iff]
    intro w hw
    rw [hfinished w hw, hf]
  have hnumbers := h.numbers
  rw [hnone rfl, List.append_nil, Nat.min_eq_right hcursor] at hnumbers
  have hlog := h.log
  rw [hnone rfl, List.append_nil] at hlog
  exact ⟨hnumbers, hlog.trans hnumbers⟩

theorem filterMap_range_getElem? {α β : Type} (l : List α) (f : α → β) :
    (List.range l.length).filterMap (fun n => l[n]?.map f) = l.map f := by
  induction l with
  | nil => rfl
  | cons a rest ih =>
      rw [List.length_cons, List.range_succ_eq_map, List.filterMap_cons, List.filterMap_map,
        List.map_cons, ← ih]
      rfl

/-- Every file of the listing is recorded then, with what it comes to alone. -/
theorem Valid.entries_perm (h : p.Valid o s files log)
    (hnumbers : (p.results.map Recorded.number).Perm (List.range files.length)) :
    (p.outcome files).files.Perm (files.map fun path => (path, alone o.source s path)) := by
  have hentries : (p.outcome files).files = (p.results.map Recorded.number).filterMap
      fun n => files[n]?.map fun path => (path, alone o.source s path) := by
    rw [outcome, List.filterMap_map, ← List.filterMap_eq_map]
    refine List.filterMap_congr fun r hr => ?_
    obtain ⟨hpath, hresult⟩ := h.results r hr
    simp [hpath, hresult]
  rw [hentries]
  exact (hnumbers.filterMap _).trans (List.Perm.of_eq (filterMap_range_getElem? files _))

/-! ## Progress -/

/-- How many steps a worker can still do before it takes a number, at most. -/
def rank (w : Worker) : Nat :=
  match w with
  | .done => 0
  | .cleared => 1
  | .idle => 2
  | .recording .. => 3
  | .compiling .. => 4

def measure (files : List Path) (p : Pool) : Nat :=
  5 * (files.length - p.cursor) + (p.workers.map rank).sum

/-- A step of a worker that is not done brings the end nearer. -/
theorem measure_step_lt {k : Nat} {w : Worker} (hk : p.workers[k]? = some w) (hw : w ≠ .done) :
    (p.step o files k).measure files < p.measure files := by
  obtain ⟨front, back, hworkers, hset⟩ := exists_split hk
  unfold Pool.step measure
  simp only [hk, hset]
  rw [hworkers]
  cases w with
  | done => exact absurd rfl hw
  | idle =>
      simp only [List.map_append, List.map_cons, List.sum_append, List.sum_cons]
      split
      all_goals simp only [rank]; omega
  | cleared =>
      simp only [List.map_append, List.map_cons, List.sum_append, List.sum_cons]
      cases hpath : files[p.cursor]? with
      | none =>
          simp only [rank]
          omega
      | some path =>
          have hcursor : p.cursor < files.length := (List.getElem?_eq_some_iff.mp hpath).1
          simp only [rank]
          omega
  | compiling number path =>
      rcases hanswer : (compileFile o.source path).run.run p.session with ⟨result, session⟩
      simp only [hanswer, List.map_append, List.map_cons, List.sum_append, List.sum_cons, rank]
      omega
  | recording number path result =>
      simp only [List.map_append, List.map_cons, List.sum_append, List.sum_cons, rank]
      omega

theorem length_workers_run (o : BatchOptions) (files : List Path) (p : Pool)
    (schedule : List Nat) : (p.run o files schedule).workers.length = p.workers.length := by
  induction schedule generalizing p with
  | nil => rfl
  | cons k rest ih =>
      refine (ih (p.step o files k)).trans ?_
      cases hk : p.workers[k]? with
      | none => simp only [Pool.step, hk]
      | some w =>
          cases w with
          | done => simp only [Pool.step, hk]
          | _ =>
              simp only [Pool.step, hk]
              exact List.length_set

/-- From every pool some schedule leads to the end. -/
theorem exists_finished (o : BatchOptions) (files : List Path) (p : Pool) :
    ∃ schedule, (p.run o files schedule).Finished := by
  induction hn : p.measure files using Nat.strong_induction_on generalizing p with
  | _ n ih =>
      by_cases hfinished : p.Finished
      · exact ⟨[], hfinished⟩
      · simp only [Finished, not_forall] at hfinished
        obtain ⟨w, hmem, hw⟩ := hfinished
        obtain ⟨k, hk⟩ := List.mem_iff_getElem?.mp hmem
        obtain ⟨schedule, hschedule⟩ :=
          ih _ (hn ▸ measure_step_lt (o := o) hk hw) (p.step o files k) rfl
        exact ⟨k :: schedule, hschedule⟩

end Pool

/-! ## Sorting -/

/-- Entries in the order of their paths are what their sorting comes to. -/
theorem sortByPath_eq {α : Type} {entries sorted : List (Path × α)} (hperm : entries.Perm sorted)
    (hsorted : sorted.Pairwise fun a b => a.1.compare b.1 = .lt) :
    sortByPath entries = sorted := by
  have htrans : Std.TransCmp Path.compare := inferInstance
  have hle : (sortByPath entries).Pairwise fun a b => (a.1.compare b.1).isLE = true := by
    refine List.pairwise_mergeSort ?_ ?_ _
    · exact fun a b c hab hbc => htrans.isLE_trans hab hbc
    · intro a b
      rw [htrans.eq_swap (a := b.1)]
      cases a.1.compare b.1
      all_goals rfl
  have hperm' : (sortByPath entries).Perm sorted := (List.mergeSort_perm _ _).trans hperm
  refine List.Perm.eq_of_pairwise ?_ hle (hsorted.imp fun h => by rw [h]; rfl) hperm'
  intro a b ha hb hab hba
  have heq : a.1.compare b.1 = .eq := by
    rw [htrans.eq_swap (a := b.1)] at hba
    cases hcompare : a.1.compare b.1
    all_goals simp_all
  obtain ⟨i, hi, rfl⟩ := List.getElem_of_mem (hperm'.mem_iff.mp ha)
  obtain ⟨j, hj, rfl⟩ := List.getElem_of_mem hb
  rw [List.pairwise_iff_getElem] at hsorted
  rcases Nat.lt_trichotomy i j with hlt | rfl | hlt
  · rw [hsorted i j hi hj hlt] at heq
    cases heq
  · rfl
  · rw [htrans.eq_swap, hsorted j i hj hi hlt] at heq
    cases heq

/-! ## Outputs -/

section Outputs

variable {settings : SourceSettings} {s : Session}

/-- What stands where, after the compilation of a file of the batch. -/
def overlay (settings : SourceSettings) (s : Session) (nodes : Place → Option Node) (path : Path)
    (place : Place) : Option Node :=
  match alone settings s path with
  | .ok f =>
    if outputPlace s.tree path = place then some (.file f.compiled.text.toUTF8) else nodes place
  | .error _ => nodes place

theorem leaving_eq (t : Tree) (path : Path) :
    (leaving settings s t path).base = t.base ∧
      (fun place => (leaving settings s t path).nodes[place]?) =
        overlay settings s (fun place => t.nodes[place]?) path := by
  unfold leaving
  refine ⟨by cases alone settings s path <;> rfl, ?_⟩
  funext place
  unfold overlay
  cases alone settings s path with
  | error e => rfl
  | ok f => simp [withResult, Tree.withFile, Std.HashMap.getElem?_insert]

theorem foldl_leaving_eq (t : Tree) (files : List Path) :
    (files.foldl (leaving settings s) t).base = t.base ∧
      (fun place => (files.foldl (leaving settings s) t).nodes[place]?) =
        files.foldl (overlay settings s) fun place => t.nodes[place]? := by
  induction files generalizing t with
  | nil => exact ⟨rfl, rfl⟩
  | cons path rest ih =>
      obtain ⟨hbase, hnodes⟩ := ih (leaving settings s t path)
      obtain ⟨hbase', hnodes'⟩ := @leaving_eq settings s t path
      exact ⟨hbase.trans hbase', hnodes.trans (by rw [hnodes']; rfl)⟩

/-- Outputs in different places can be written in any order. -/
theorem overlay_comm {a b : Path} (hne : outputPlace s.tree a ≠ outputPlace s.tree b)
    (nodes : Place → Option Node) :
    overlay settings s (overlay settings s nodes a) b =
      overlay settings s (overlay settings s nodes b) a := by
  funext place
  unfold overlay
  cases alone settings s a with
  | error e => rfl
  | ok f =>
      cases alone settings s b with
      | error e => rfl
      | ok g =>
          dsimp only
          by_cases ha : outputPlace s.tree a = place
          · rw [if_neg fun hb => hne (ha.trans hb.symm), if_pos ha, if_pos ha]
          · rw [if_neg ha, if_neg ha]

theorem node?_foldl_leaving {files files' : List Path} (hperm : files.Perm files')
    (hdistinct : ∀ a ∈ files, ∀ b ∈ files, a ≠ b → outputPlace s.tree a ≠ outputPlace s.tree b)
    (t : Tree) (place : Place) :
    (files.foldl (leaving settings s) t).node? place =
      (files'.foldl (leaving settings s) t).node? place := by
  have hnodes := hperm.foldl_eq' (f := overlay settings s) (fun a ha b hb nodes => by
    by_cases hne : a = b
    · rw [hne]
    · exact overlay_comm (hdistinct a ha b hb hne) nodes) fun place => t.nodes[place]?
  obtain ⟨hbase, heq⟩ := @foldl_leaving_eq settings s t files
  obtain ⟨hbase', heq'⟩ := @foldl_leaving_eq settings s t files'
  have hplace := congrFun ((heq.trans hnodes).trans heq'.symm) place
  simp only [Tree.node?, hbase, hbase']
  rw [hplace]

end Outputs

/-! ## Batches -/

theorem processed_eq (b : BatchOutcome) :
    b.processed = b.succeeded.length + b.failed.length := by
  rcases b with ⟨discovered, files⟩
  simp only [BatchOutcome.processed, BatchOutcome.succeeded, BatchOutcome.failed]
  induction files with
  | nil => rfl
  | cons entry rest ih =>
      obtain ⟨path, result⟩ := entry
      cases result with
      | error e =>
          simp only [List.filterMap_cons, Except.toOption, Option.map_none, List.length_cons, ih]
          omega
      | ok f =>
          simp only [List.filterMap_cons, Except.toOption, Option.map_some, List.length_cons, ih]
          omega

/-- Batches with the same entries, one of them in the order of paths. -/
theorem sortByPath_outcomes {b c : BatchOutcome} (hperm : b.files.Perm c.files)
    (hsorted : c.files.Pairwise fun x y => Path.compare x.1 y.1 = .lt) :
    sortByPath b.succeeded = c.succeeded ∧ sortByPath b.failed = c.failed := by
  refine ⟨sortByPath_eq (hperm.filterMap _) (hsorted.filterMap _ ?_),
    sortByPath_eq (hperm.filterMap _) (hsorted.filterMap _ ?_)⟩
  · rintro ⟨path, result⟩ ⟨path', result'⟩ hlt x hx y hy
    obtain ⟨f, -, rfl⟩ := Option.map_eq_some_iff.mp hx
    obtain ⟨f', -, rfl⟩ := Option.map_eq_some_iff.mp hy
    exact hlt
  · rintro ⟨path, result⟩ ⟨path', result'⟩ hlt x hx y hy
    cases result with
    | ok f => cases hx
    | error e =>
        cases result' with
        | ok f => cases hy
        | error e' =>
            cases hx
            cases hy
            exact hlt

theorem compiledOnes_eq_self {o : BatchOptions} {s : Session} {files : List Path}
    (h : ∀ path ∈ files, o.stopsAfter (alone o.source s path) = false) :
    compiledOnes o s files = files := by
  induction files with
  | nil => rfl
  | cons path rest ih =>
      obtain ⟨hpath, hrest⟩ := List.forall_mem_cons.mp h
      rw [compiledOnes_cons, hpath, ih hrest]
      rfl

/-- For every schedule of the steps of workers, no file is compiled twice, and all that is recorded
was taken, and is a success or a failure. If all workers are done and no result stops a batch,
every file of the listing is recorded, and in the order of paths successes and failures are those
of the batch that takes one file after the other. So is the tree, if all outputs have paths of
their own. -/
theorem workers_agree {s : Session} {directory : Path} {o : BatchOptions} {files : List Path}
    (hlisting : ((discoverSources directory o.maxFiles).run.run s).1 = .ok files)
    (hnames : s.tree.WellNamed) (count : Nat) (schedule : List Nat) :
    let p := (Pool.start s count).run o files schedule
    let b := p.outcome files
    (Pool.compilations o files (Pool.start s count) schedule).Nodup ∧
      (∀ r ∈ p.results, r.number < p.cursor ∧ files[r.number]? = some r.path) ∧
      b.processed = b.succeeded.length + b.failed.length ∧ b.processed ≤ b.discovered ∧
      ((files ≠ [] → 0 < count) → p.Finished → (∀ r ∈ p.results, o.stopsAfter r.result = false) →
        ∃ c u, (compileSequentially directory o).run.run s = (.ok c, u) ∧
          (p.results.map Recorded.path).Perm files ∧
          sortByPath b.succeeded = c.succeeded ∧ sortByPath b.failed = c.failed ∧
          ((files.map fun path => path.withExtension "vm").Nodup →
            ∀ place, p.session.tree.node? place = u.tree.node? place)) := by
  obtain ⟨v, hrun, -⟩ := discoverSources_tells directory o.maxFiles s
  have hfiles : discovered s.tree directory o.maxFiles = .ok files := by
    rwa [hrun] at hlisting
  have hvalid := (Pool.valid_start o s files count).run hnames.base
    (fun path hpath => hasSource_of_discovered hfiles hpath) schedule
  intro p b
  refine ⟨hvalid.nodup_log, fun r hr => ⟨hvalid.number_lt hr, (hvalid.results r hr).1⟩, ?_, ?_, ?_⟩
  · exact processed_eq b
  · simpa [b, BatchOutcome.processed, Pool.outcome] using hvalid.length_results_le
  · intro hcount hfinished hstopped
    have hworkers (hfiles : files ≠ []) : p.workers ≠ [] := by
      refine List.ne_nil_of_length_pos ?_
      rw [Pool.length_workers_run]
      simpa [Pool.start] using hcount hfiles
    obtain ⟨hnumbers, hlog⟩ := hvalid.numbers_of_finished hfinished hworkers hstopped
    have hentries := hvalid.entries_perm hnumbers
    have hgoes : ∀ path ∈ files, o.stopsAfter (alone o.source s path) = false := by
      intro path hpath
      have hmem := hentries.mem_iff.mpr (List.mem_map_of_mem hpath)
      obtain ⟨r, hr, heq⟩ := List.mem_map.mp hmem
      rw [← (Prod.mk.inj heq).2]
      exact hstopped r hr
    obtain ⟨u, hsequence, htree⟩ := compileSequentially_run directory o hnames.base
    rw [hfiles] at hsequence htree
    dsimp only [Except.map] at hsequence htree
    rw [compiledOnes_eq_self hgoes] at htree
    have hcompiled : (outcomeOf o s files).files =
        files.map fun path => (path, alone o.source s path) := by
      rw [outcomeOf, compiledOnes_eq_self hgoes]
    have hsorted : (outcomeOf o s files).files.Pairwise
        fun x y => Path.compare x.1 y.1 = .lt := by
      rw [hcompiled, List.pairwise_map]
      exact sorted_of_discovered hnames hfiles
    obtain ⟨hsucceeded, hfailed⟩ := sortByPath_outcomes (hcompiled ▸ hentries) hsorted
    refine ⟨_, u, hsequence, ?_, hsucceeded, hfailed, fun hdistinct place => ?_⟩
    · have hpaths := hentries.map Prod.fst
      simpa [Pool.outcome, Function.comp_def] using hpaths
    · have hcompilations : ((Pool.compilations o files (Pool.start s count) schedule).filterMap
          (files[·]?)).Perm files := by
        refine (hlog.filterMap _).trans (List.Perm.of_eq ?_)
        simpa using Pool.filterMap_range_getElem? files id
      rw [htree, hvalid.tree]
      refine node?_foldl_leaving hcompilations (fun a ha b hb hne => ?_) s.tree place
      have ha := hcompilations.mem_iff.mp ha
      have hb := hcompilations.mem_iff.mp hb
      exact outputPlace_ne hnames hfiles ha hb fun heq =>
        hne (List.inj_on_of_nodup_map hdistinct ha hb heq)


/-! ## Two sources -/

theorem node?_twoSources (place : Place) : twoSources.tree.node? place =
    if place.isPrefixOf ["work"] then some .directory
    else if ["work", "B.jack"] = place then some (.file "class B { }".toUTF8)
    else if ["work", "A.jack"] = place then some (.file "class A { }".toUTF8)
    else none := by
  simp [Tree.node?, twoSources, Std.HashMap.getElem?_insert]

theorem place_twoSources {path : Path}
    (hpath : '\x00' ∉ path.toList ∧ path ≠ "" ∧ path.utf8ByteSize ≤ Tree.maxPathLength)
    (habsolute : path.isAbsolute = false) :
    twoSources.tree.place path = twoSources.tree.follow ["work"] path.parts := by
  obtain ⟨hnull, hempty, hlength⟩ := hpath
  rw [Tree.place, Tree.names_of_plain hnull hempty hlength, ok_bind, Tree.origin, habsolute]
  rfl

theorem wellNamed_twoSources : twoSources.tree.WellNamed where
  base := wellBased_twoSources
  nodes place hplace name hname := by
    have hplaces : place = ["work", "A.jack"] ∨ place = ["work", "B.jack"] := by
      simp only [twoSources, Std.HashMap.mem_insert, beq_iff_eq, Std.HashMap.not_mem_empty,
        or_false] at hplace
      exact hplace.symm.imp Eq.symm Eq.symm
    have hnames : name ∈ ["work", "A.jack", "B.jack"] := by
      rcases hplaces with rfl | rfl
      · exact List.mem_of_mem_dropLast (l := ["work", "A.jack", "B.jack"]) hname
      · simp only [List.mem_cons] at hname ⊢
        exact hname.imp_right .inr
    simp only [List.mem_cons, List.not_mem_nil, or_false] at hnames
    rcases hnames with rfl | rfl | rfl
    all_goals exact ⟨by decide, by decide, by decide, by decide⟩

theorem namesIn_twoSources :
    (twoSources.tree.namesIn ["work"]).Perm ["B.jack", "A.jack"] := by
  have hfirst : ((∅ : Std.HashMap Place Node).insert ["work", "A.jack"]
      (.file "class A { }".toUTF8)).toList.Perm
        [(["work", "A.jack"], .file "class A { }".toUTF8)] :=
    Std.HashMap.toList_insert_perm.trans (by simp)
  have hboth : twoSources.tree.nodes.toList.Perm
      [(["work", "B.jack"], .file "class B { }".toUTF8),
        (["work", "A.jack"], .file "class A { }".toUTF8)] :=
    Std.HashMap.toList_insert_perm.trans (((hfirst.filter _).cons _).trans (by simp))
  exact (hboth.filterMap _).trans (by simp [Tree.nameIn?])

theorem place_dot : twoSources.tree.place "." = .ok ["work"] := by
  rw [place_twoSources (by decide +kernel) (by decide +kernel),
    show Path.parts "." = ["."] by decide +kernel]
  simp [Tree.follow, Tree.isDirectoryAt, node?_twoSources]

theorem list_twoSources : twoSources.tree.list "." = .ok ["A.jack", "B.jack"] := by
  have hlist := Tree.list_of_place place_dot (by simp [Tree.isDirectoryAt, node?_twoSources])
  have hsorted := (Tree.list_sorted wellNamed_twoSources hlist).1
  have hperm := ((List.mergeSort_perm _ fun a b => decide (a ≤ b)).trans
    (List.reverse_perm _)).trans (namesIn_twoSources.trans (.swap "A.jack" "B.jack" []))
  rw [hlist, hperm.eq_of_pairwise (fun a b _ _ hab hba => absurd hba (String.lt_asymm hab))
    hsorted (by decide)]

theorem node_twoSources :
    twoSources.tree.node "./A.jack" = .ok (.file "class A { }".toUTF8) ∧
      twoSources.tree.node "./B.jack" = .ok (.file "class B { }".toUTF8) := by
  have hA : twoSources.tree.place "./A.jack" = .ok ["work", "A.jack"] := by
    rw [place_twoSources (by decide +kernel) (by decide +kernel),
      show Path.parts "./A.jack" = [".", "A.jack"] by decide +kernel]
    have hshort : ¬ "A.jack".utf8ByteSize > Tree.maxNameLength := by decide
    simp [Tree.follow, Tree.isDirectoryAt, node?_twoSources, hshort]
  have hB : twoSources.tree.place "./B.jack" = .ok ["work", "B.jack"] := by
    rw [place_twoSources (by decide +kernel) (by decide +kernel),
      show Path.parts "./B.jack" = [".", "B.jack"] by decide +kernel]
    have hshort : ¬ "B.jack".utf8ByteSize > Tree.maxNameLength := by decide
    simp [Tree.follow, Tree.isDirectoryAt, node?_twoSources, hshort]
  constructor
  · rw [Files.Tree.node, hA, ok_bind, node?_twoSources]
    rfl
  · rw [Files.Tree.node, hB, ok_bind, node?_twoSources]
    rfl

theorem discovered_twoSources :
    discovered twoSources.tree "." none = .ok ["./A.jack", "./B.jack"] := by
  have hdirectory : twoSources.tree.isDirectory "." = true := by
    rw [Tree.isDirectory, Files.Tree.node, place_dot, ok_bind, node?_twoSources]
    rfl
  obtain ⟨hA, hB⟩ := node_twoSources
  have hfiles : (["A.jack", "B.jack"].map (Path.child ".")).filter (fun path =>
      path.isJackSource && twoSources.tree.isFile path) = ["./A.jack", "./B.jack"] := by
    have hchildA : Path.child "." "A.jack" = "./A.jack" := by decide +kernel
    have hchildB : Path.child "." "B.jack" = "./B.jack" := by decide +kernel
    have hjackA : Path.isJackSource "./A.jack" := by decide +kernel
    have hjackB : Path.isJackSource "./B.jack" := by decide +kernel
    simp [hchildA, hchildB, hjackA, hjackB, Tree.isFile, hA, hB]
  unfold discovered
  rw [hdirectory, list_twoSources]
  simp only [Except.toOption, Option.getD_some, hfiles]
  rfl

theorem isOk_translated_twoSources {place : Place} {bytes : ByteArray}
    (h : twoSources.tree.node? place = some (.file bytes)) (path : Path) :
    (translated twoSources path bytes).isOk := by
  have hok (text : String) (hpart : (Compilation.compiled? 10 (.ofText text.toList)).isSome) :
      (translated twoSources path text.toUTF8).isOk := by
    obtain ⟨part, hpart⟩ := Option.isSome_iff_exists.mp hpart
    obtain ⟨c, hc, -⟩ := Compilation.exists_compiles path rfl hpart
    have hsame : translated twoSources path text.toUTF8 =
        (Compilation.ofLexer path (.ofText text.toList)).result :=
      congrArg Compilation.result
        (Compilation.ofSource_eq Lexer.ahead_bisimulation (Lexer.ahead_ofBytes text true) path)
    rw [hsame, hc]
    rfl
  rw [node?_twoSources] at h
  split at h
  · cases h
  · split at h
    · cases h
      exact hok "class B { }" (by decide +kernel)
    · split at h
      · cases h
        exact hok "class A { }" (by decide +kernel)
      · cases h

theorem exists_node_of_opened {settings : SourceSettings} {t : Tree} {path : Path}
    {info : SourceInfo} {bytes : ByteArray} (h : opened settings t path = .ok (info, bytes)) :
    ∃ place, t.node? place = some (.file bytes) := by
  unfold opened at h
  cases hchecked : checked settings t path with
  | error e =>
      rw [hchecked] at h
      cases h
  | ok found =>
      rw [hchecked, ok_bind] at h
      cases hread : t.read found.path with
      | error fault =>
          rw [hread] at h
          cases h
      | ok content =>
          rw [hread] at h
          cases h
          unfold Tree.read Files.Tree.node at hread
          cases hplace : t.place info.path with
          | error fault =>
              rw [hplace] at hread
              cases hread
          | ok place =>
              refine ⟨place, ?_⟩
              rw [hplace, ok_bind] at hread
              rcases hnode : t.node? place with _ | _ | content
              · rw [hnode] at hread
                cases hread
              · rw [hnode] at hread
                cases hread
              · rw [hnode] at hread
                cases hread
                rfl

/-- Both sources compile, so nothing stops their batch. -/
theorem stopsAfter_twoSources {o : BatchOptions} (hfast : o.failFast = false) (path : Path) :
    o.stopsAfter (alone o.source twoSources path) = false := by
  have hfile (e : FileError) : isFault (.error (.file e)) = false := by
    cases e
    all_goals rfl
  rw [stopsAfter_eq hfast, alone_eq, compiledFile]
  cases hopened : opened o.source twoSources.tree path with
  | error e => exact hfile e
  | ok source =>
      obtain ⟨info, bytes⟩ := source
      obtain ⟨place, hplace⟩ := exists_node_of_opened hopened
      obtain ⟨compiled, hcompiled⟩ :
          ∃ compiled, translated twoSources path bytes = .ok compiled := by
        have hok := isOk_translated_twoSources hplace path
        cases htranslated : translated twoSources path bytes with
        | error e => rw [htranslated] at hok; cases hok
        | ok compiled => exact ⟨compiled, rfl⟩
      simp only [Except.mapError, hcompiled]
      rcases written twoSources.tree path compiled.text with ⟨e | output, tree⟩
      · exact hfile e
      · rfl

theorem twoSources_workers_agree : ∃ schedule,
    let p := (Pool.start twoSources 2).run { threads := 2 } ["./A.jack", "./B.jack"] schedule
    let b := p.outcome ["./A.jack", "./B.jack"]
    p.Finished ∧ ∃ c u,
      (compileSequentially "." { threads := 2 }).run.run twoSources = (.ok c, u) ∧
        (p.results.map Recorded.path).Perm ["./A.jack", "./B.jack"] ∧
        sortByPath b.succeeded = c.succeeded ∧ sortByPath b.failed = c.failed ∧
        ∀ place, p.session.tree.node? place = u.tree.node? place := by
  obtain ⟨schedule, hfinished⟩ :=
    Pool.exists_finished { threads := 2 } ["./A.jack", "./B.jack"] (Pool.start twoSources 2)
  obtain ⟨v, hrun, -⟩ := discoverSources_tells "." none twoSources
  have hlisting : ((discoverSources "." none).run.run twoSources).1 =
      .ok ["./A.jack", "./B.jack"] := by
    rw [hrun]
    exact discovered_twoSources
  have hvalid := (Pool.valid_start { threads := 2 } twoSources ["./A.jack", "./B.jack"] 2).run
    wellBased_twoSources (fun path hpath => hasSource_of_discovered discovered_twoSources hpath)
    schedule
  have hstopped := fun r hr => (congrArg _ (hvalid.results r hr).2).trans
    (stopsAfter_twoSources (o := { threads := 2 }) rfl r.path)
  obtain ⟨-, -, -, -, hagree⟩ := workers_agree (o := { threads := 2 }) hlisting
    wellNamed_twoSources 2 schedule
  obtain ⟨c, u, hsequence, hpaths, hsucceeded, hfailed, htree⟩ :=
    hagree (fun _ => by decide) hfinished hstopped
  exact ⟨schedule, hfinished, c, u, hsequence, hpaths, hsucceeded, hfailed,
    htree (by decide +kernel)⟩

end JackToolchain.Project
