import JackToolchain.Proofs.Machine.Advance
import JackToolchain.Proofs.Machine.OpenCalls

/-!
# Runs under different limits

A limit only cuts a run short. The states that a fresh machine goes through do not depend on it, so
a run that halts is the same under every limit that it keeps to, and any other run stops in the
state from which the run under a larger limit goes on.
-/

namespace JackToolchain.Machine

/-- The state after some steps, if none of them is a halt. -/
def State.after? (p : Program) : Nat → State → Option State
  | 0, s => some s
  | n + 1, s =>
    match step p s with
    | .ok none t => State.after? p n t
    | _ => none

/-- A step that is a halt, and the state that it leaves. -/
inductive Halts (p : Program) (s : State) : Halt → State → Prop
  | returned {value : Int16} {t : State} (h : step p s = .ok (some value) t) :
      Halts p s (.returned value) t
  | failed {e : RunError} {t : State} (h : step p s = .error e t) : Halts p s (.failed e) t

/-- A run that has come to its limit. -/
def CutShort (result : Except RunError Execution) : Prop :=
  ∃ limit, result = .error (.stepLimitExceeded limit)

/-- A fresh machine in front of the first instruction of a function. -/
def opened (start : Nat) : State := { ram := opening (.replicate ramSize 0), pc := start }

variable {p : Program} {s t u : State} {halt : Halt} {n : Nat}

/-! ## Steps -/

theorem after?_succ (h : step p s = .ok none t) : s.after? p (n + 1) = t.after? p n := by
  simp only [State.after?, h]

/-- Earlier states are those of fewer steps. -/
theorem exists_after?_of_le {k : Nat} (h : s.after? p n = some t) (hk : k ≤ n) :
    ∃ u, s.after? p k = some u := by
  induction k generalizing n s with
  | zero => exact ⟨s, rfl⟩
  | succ k ih =>
      obtain ⟨m, rfl⟩ : ∃ m, n = m + 1 := ⟨n - 1, by omega⟩
      simp only [State.after?] at h ⊢
      split at h
      · exact ih h (by omega)
      · cases h

theorem iterate_of_after? (h : s.after? p n = some t) (fuel count : Nat) :
    iterate p (n + fuel) count s = iterate p fuel (count + n) t := by
  induction n generalizing count s with
  | zero =>
      cases h
      rw [Nat.zero_add, Nat.add_zero]
  | succ n ih =>
      simp only [State.after?] at h
      split at h
      · rename_i hstep
        rw [Nat.add_right_comm, iterate_of_step hstep, ih h, Nat.add_right_comm,
          Nat.add_assoc count]
      · cases h

theorem Halts.iterate (hhalt : Halts p t halt u) (h : s.after? p n = some t) (fuel count : Nat) :
    iterate p (n + 1 + fuel) count s = (halt, count + n + 1, u) := by
  rw [Nat.add_right_comm, Nat.add_assoc, iterate_of_after? h]
  cases hhalt with
  | returned hstep => exact iterate_of_value hstep fuel _
  | failed hstep => exact iterate_of_error hstep fuel _

/-- All steps are made, or one of them is a halt. -/
theorem after?_cases (p : Program) (fuel : Nat) (s : State) :
    (∃ t, s.after? p fuel = some t) ∨
      ∃ n < fuel, ∃ t halt u, s.after? p n = some t ∧ Halts p t halt u := by
  induction fuel generalizing s with
  | zero => exact .inl ⟨s, rfl⟩
  | succ fuel ih =>
      cases hstep : step p s with
      | error e t => exact .inr ⟨0, Nat.succ_pos _, s, _, t, rfl, .failed hstep⟩
      | ok value t =>
          cases value with
          | some value => exact .inr ⟨0, Nat.succ_pos _, s, _, t, rfl, .returned hstep⟩
          | none =>
              rcases ih t with ⟨u, hafter⟩ | ⟨n, hn, u, halt, v, hafter, hhalt⟩
              · exact .inl ⟨u, (after?_succ hstep).trans hafter⟩
              · exact .inr ⟨n + 1, by omega, u, halt, v, (after?_succ hstep).trans hafter, hhalt⟩

/-! ## Halts -/

namespace Halts

/-- A halt is shown in the same way under all limits. -/
theorem conclude_eq (h : Halts p s halt t) (limit limit' n : Nat) :
    conclude limit (halt, n, t) = conclude limit' (halt, n, t) := by
  cases h with
  | returned => rfl
  | failed => rfl

theorem machine_eq (h : Halts p s halt t) (limit n : Nat) :
    (conclude limit (halt, n, t)).2 = { state := t, steps := n } := by
  cases h with
  | returned => rfl
  | failed => rfl

/-- No step has the error of a limit. -/
theorem not_cutShort (h : Halts p s halt t) (limit n : Nat) :
    ¬CutShort (conclude limit (halt, n, t)).1 := by
  rintro ⟨k, hresult⟩
  cases h with
  | returned => cases hresult
  | failed hstep =>
      have herror := (advance_heapNext.step p).error hstep
      cases hresult
      exact herror trivial

end Halts

/-! ## Runs -/

section Runs

variable {entry : String} {start limit : Nat}

theorem run_fresh (hstart : p.functions[entry]? = some start) (limit : Nat) :
    run p limit {} entry = conclude limit (iterate p limit 0 (opened start)) := by
  rw [run_eq, hstart]
  rfl

theorem run_of_after? (hstart : p.functions[entry]? = some start)
    (h : (opened start).after? p limit = some t) :
    run p limit {} entry = (.error (.stepLimitExceeded limit), { state := t, steps := limit }) := by
  have hrun := iterate_of_after? h 0 0
  rw [Nat.add_zero, Nat.zero_add] at hrun
  rw [run_fresh hstart, hrun]
  rfl

theorem run_of_halts (hstart : p.functions[entry]? = some start)
    (h : (opened start).after? p n = some t) (hhalt : Halts p t halt u) (hn : n < limit) :
    run p limit {} entry = conclude 0 (halt, n + 1, u) := by
  obtain ⟨fuel, rfl⟩ := Nat.exists_eq_add_of_le (Nat.succ_le_of_lt hn)
  rw [run_fresh hstart, hhalt.iterate h, Nat.zero_add, hhalt.conclude_eq _ 0]

/-- The run under a larger limit goes on from where the limit has stopped the run. -/
theorem run_of_after?_le (hstart : p.functions[entry]? = some start)
    (h : (opened start).after? p n = some t) (hn : n ≤ limit) :
    run p limit {} entry = resume p limit { state := t, steps := n } := by
  have hrun := iterate_of_after? h (limit - n) 0
  rw [Nat.add_sub_cancel' hn, Nat.zero_add] at hrun
  rw [run_fresh hstart, hrun]
  rfl

end Runs

/-- Runs of a fresh machine under two limits. One that ends otherwise than at the smaller limit is
the same under the larger one, and has not made more steps than the smaller one allows. One that
ends at the smaller limit has made all of its steps, and the run under the larger limit goes on from
there. A run that succeeds does so exactly under the limits that are not below its steps. -/
theorem run_of_limit_le (p : Program) (entry : String) {limit limit' : Nat} (h : limit ≤ limit') :
    let first := run p limit {} entry
    (¬CutShort first.1 → run p limit' {} entry = first ∧ first.2.steps ≤ limit) ∧
      (CutShort first.1 → first.1 = .error (.stepLimitExceeded limit) ∧ first.2.steps = limit ∧
        (∃ start, p.functions[entry]? = some start ∧
          (opened start).after? p limit = some first.2.state) ∧
        run p limit' {} entry = resume p limit' first.2) ∧
      ∀ x, first.1 = .ok x → x.steps = first.2.steps ∧ ∀ other,
        (x.steps ≤ other → run p other {} entry = first) ∧
          (other < x.steps → (run p other {} entry).1 = .error (.stepLimitExceeded other)) := by
  intro first
  cases hstart : p.functions[entry]? with
  | none =>
      have hmissing (limit : Nat) : run p limit {} entry = (.error (.missingEntry entry), {}) := by
        rw [run_eq, hstart]
      have hfirst : first = (.error (.missingEntry entry), {}) := hmissing limit
      rw [hfirst]
      refine ⟨fun _ => ⟨hmissing limit', Nat.zero_le _⟩, ?_, fun x hx => by cases hx⟩
      rintro ⟨k, hk⟩
      cases hk
  | some start =>
      rcases after?_cases p limit (opened start) with
        ⟨t, hafter⟩ | ⟨n, hn, t, halt, u, hafter, hhalt⟩
      · have hfirst : first = (.error (.stepLimitExceeded limit), { state := t, steps := limit }) :=
          run_of_after? hstart hafter
        rw [hfirst]
        exact ⟨fun hcut => absurd ⟨limit, rfl⟩ hcut,
          fun _ => ⟨rfl, rfl, ⟨start, rfl, hafter⟩, run_of_after?_le hstart hafter h⟩,
          fun x hx => by cases hx⟩
      · have hfirst : first = conclude 0 (halt, n + 1, u) := run_of_halts hstart hafter hhalt hn
        have hsteps : first.2.steps = n + 1 := by rw [hfirst, hhalt.machine_eq]
        refine ⟨fun _ => ⟨?_, by omega⟩, fun hcut => ?_, fun x hx => ?_⟩
        · rw [hfirst]
          exact run_of_halts hstart hafter hhalt (by omega)
        · rw [hfirst] at hcut
          exact absurd hcut (hhalt.not_cutShort 0 _)
        · have hcount : x.steps = n + 1 := by
            rw [hfirst] at hx
            cases hhalt with
            | returned =>
                cases hx
                rfl
            | failed => cases hx
          refine ⟨hcount.trans hsteps.symm, fun other => ⟨fun hle => ?_, fun hlt => ?_⟩⟩
          · rw [hfirst]
            exact run_of_halts hstart hafter hhalt (by omega)
          · obtain ⟨v, hv⟩ := exists_after?_of_le hafter (k := other) (by omega)
            rw [run_of_after? hstart hv]

/-- `Main.seven` takes three steps. -/
theorem run_nestedSeven_of_limit : 3 ≤ 100 ∧
    run nestedProgram 100 {} "Main.seven" = run nestedProgram 3 {} "Main.seven" ∧
    (run nestedProgram 100 {} "Main.seven").1 = .ok ⟨7, "", 3⟩ ∧
    (run nestedProgram 2 {} "Main.seven").1 = .error (.stepLimitExceeded 2) := by
  obtain ⟨m, hrun, -⟩ := run_nestedSeven {} (show ({} : Machine).steps + 3 ≤ 3 by decide) rfl
  obtain ⟨hsame, -, hsteps⟩ :=
    run_of_limit_le nestedProgram "Main.seven" (show 3 ≤ 100 by decide)
  have hfirst : (run nestedProgram 3 {} "Main.seven").1 = .ok ⟨7, "", 3⟩ := by rw [hrun]
  have hended : ¬CutShort (run nestedProgram 3 {} "Main.seven").1 := by
    rw [hfirst]
    rintro ⟨k, hk⟩
    cases hk
  obtain ⟨hlarger, -⟩ := hsame hended
  exact ⟨by decide, hlarger, by rw [hlarger, hfirst],
    ((hsteps _ hfirst).2 2).2 (by decide)⟩

end JackToolchain.Machine
