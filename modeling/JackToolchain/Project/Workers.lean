import JackToolchain.Project.Batch

/-!
# Workers

The threads of a parallel batch. Workers share a cursor into the listing, a mark that stops them and
the results. Each of them looks at the mark, takes the number under the cursor, compiles the file of
that number, records what came of it, and begins again. A schedule says whose step is next.
-/

namespace JackToolchain.Project

open JackToolchain.Files

/-- What a worker is about to do. -/
inductive Worker
  /-- To look at the mark. -/
  | idle
  /-- To take a number. -/
  | cleared
  | compiling (number : Nat) (path : Path)
  | recording (number : Nat) (path : Path) (result : Except ClassError CompiledFile)
  /-- Nothing any more. -/
  | done

/-- What a worker has recorded. -/
structure Recorded where
  number : Nat
  path : Path
  result : Except ClassError CompiledFile

structure Pool where
  session : Session
  cursor : Nat := 0
  stopped : Bool := false
  /-- In the order in which they were recorded. -/
  results : List Recorded := []
  workers : List Worker

namespace Pool

def start (session : Session) (count : Nat) : Pool :=
  { session, workers := List.replicate count .idle }

/-- The next step of a worker. -/
def step (o : BatchOptions) (files : List Path) (p : Pool) (k : Nat) : Pool :=
  match p.workers[k]? with
  | none | some .done => p
  | some .idle => { p with workers := p.workers.set k (if p.stopped then .done else .cleared) }
  | some .cleared =>
    { p with
      cursor := p.cursor + 1
      workers := p.workers.set k <|
        match files[p.cursor]? with
        | some path => .compiling p.cursor path
        | none => .done }
  | some (.compiling number path) =>
    let (result, session) := (compileFile o.source path).run.run p.session
    { p with session, workers := p.workers.set k (.recording number path result) }
  | some (.recording number path result) =>
    { p with
      stopped := p.stopped || o.stopsAfter result
      results := p.results ++ [⟨number, path, result⟩]
      workers := p.workers.set k .idle }

/-- The steps of a schedule, one after the other. -/
def run (o : BatchOptions) (files : List Path) (p : Pool) (schedule : List Nat) : Pool :=
  schedule.foldl (step o files) p

def Finished (p : Pool) : Prop := ∀ w ∈ p.workers, w = .done

/-- What the workers have recorded of a listing. -/
def outcome (p : Pool) (files : List Path) : BatchOutcome where
  discovered := files.length
  files := p.results.map fun r => (r.path, r.result)

end Pool

/-- In the order of paths. -/
def sortByPath {α : Type} (entries : List (Path × α)) : List (Path × α) :=
  entries.mergeSort fun a b => (a.1.compare b.1).isLE

end JackToolchain.Project
