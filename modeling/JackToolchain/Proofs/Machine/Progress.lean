import JackToolchain.Proofs.Machine.Discipline
import JackToolchain.Proofs.Machine.OpenCalls
import Mathlib.Logic.Relation

/-!
# Progress of runs

Steps from one state to another without a halt, and runs whose stack stays in front of the heap.
-/

namespace JackToolchain.Machine

open JackToolchain.Memory

variable {p : Program} {s t u : State}

/-- Steps without a halt lead from one state to the other. -/
def Proceeds (p : Program) : State → State → Prop :=
  Relation.ReflTransGen fun s t => step p s = .ok none t

namespace Proceeds

theorem refl (s : State) : Proceeds p s s := Relation.ReflTransGen.refl

theorem single (h : step p s = .ok none t) : Proceeds p s t :=
  Relation.ReflTransGen.single h

theorem trans (h : Proceeds p s t) (h' : Proceeds p t u) : Proceeds p s u :=
  Relation.ReflTransGen.trans h h'

/-- The steps are some number of steps of a run. -/
theorem iterate_eq (h : Proceeds p s t) :
    ∃ n, ∀ fuel count, iterate p (n + fuel) count s = iterate p fuel (count + n) t := by
  induction h using Relation.ReflTransGen.head_induction_on with
  | refl => exact ⟨0, fun fuel count => by rw [Nat.zero_add, Nat.add_zero]⟩
  | head hstep _ ih =>
      obtain ⟨n, hn⟩ := ih
      refine ⟨n + 1, fun fuel count => ?_⟩
      rw [Nat.add_right_comm, iterate_of_step hstep, hn, Nat.add_right_comm, Nat.add_assoc count]

end Proceeds

/-- The number of earlier steps has no say in the state. -/
theorem state_iterate (p : Program) (fuel count count' : Nat) (s : State) :
    (iterate p fuel count s).2.2 = (iterate p fuel count' s).2.2 := by
  induction fuel generalizing count count' s with
  | zero => rfl
  | succ fuel ih =>
      simp only [iterate]
      split
      · exact ih ..
      · rfl
      · rfl

namespace State

theorem InRoom.le {sp : Nat} (h : s.InRoom) (hsp : word s.ram 0 = pointer sp)
    (hlt : sp ≤ 32768) : sp ≤ 2048 := by
  unfold InRoom stackPointer at h
  rw [hsp] at h
  rcases Nat.lt_or_ge sp 32768 with hsmall | hlarge
  · rw [toInt_pointer hsmall] at h
    omega
  · have hfull : sp = 32768 := by omega
    have hneg : (pointer 32768).toInt = -32768 := by decide
    rw [hfull, hneg] at h
    omega

theorem inRoom_of_word {sp : Nat} (h : word s.ram 0 = pointer sp) (hlow : 256 ≤ sp)
    (hhigh : sp ≤ 2048) : s.InRoom := by
  have hword : s.stackPointer = (word s.ram 0).toInt := rfl
  rw [h, toInt_pointer (by omega)] at hword
  unfold InRoom
  omega

end State

/-- However long the run goes on, its stack stays in its room. -/
def Roomy (p : Program) (s : State) : Prop :=
  ∀ fuel count, (iterate p fuel count s).2.2.InRoom

namespace Roomy

theorem inRoom (h : Roomy p s) : s.InRoom := h 0 0

theorem step (h : Roomy p s) (hstep : Machine.step p s = .ok none t) : Roomy p t := by
  intro fuel count
  have hnext := h (fuel + 1) 0
  rw [iterate_of_step hstep] at hnext
  rwa [state_iterate p fuel count]

theorem proceeds (h : Roomy p s) (hproceeds : Proceeds p s t) : Roomy p t := by
  induction hproceeds with
  | refl => exact h
  | tail _ hstep ih => exact ih.step hstep

theorem of_step (hroom : s.InRoom) (hstep : Machine.step p s = .ok none t) (h : Roomy p t) :
    Roomy p s := by
  intro fuel count
  cases fuel with
  | zero => exact hroom
  | succ fuel =>
      rw [iterate_of_step hstep]
      exact h fuel (count + 1)

theorem of_value {value : Int16} (hroom : s.InRoom)
    (hstep : Machine.step p s = .ok (some value) t) (hlast : t.InRoom) : Roomy p s := by
  intro fuel count
  cases fuel with
  | zero => exact hroom
  | succ fuel =>
      rw [iterate_of_value hstep]
      exact hlast

theorem inRoom_of_error {e : RunError} (h : Roomy p s) (hstep : Machine.step p s = .error e t) :
    t.InRoom := by
  have hnext := h 1 0
  rwa [iterate_of_error hstep] at hnext

end Roomy

/-- Zeros that do not fit leave the stack at the end of memory. -/
theorem stack_of_pushZeros {owner : String} {count sp : Nat} {e : RunError}
    (h : pushZeros owner count s = .error e t) (hsp : word s.ram 0 = pointer sp) (hpos : 0 < sp)
    (hle : sp ≤ 32768) : word t.ram 0 = pointer 32768 := by
  induction count generalizing s sp with
  | zero => cases h
  | succ count ih =>
      unfold pushZeros at h
      rcases Nat.eq_or_lt_of_le hle with rfl | hlt
      · have hneg : (pointer 32768).toInt = -32768 := by decide
        have hpush : push owner 0 s = .error (.invalidAddress owner (-32768)) s := by
          unfold push
          rw [bind_of_ok (getRegister_run .stack s), address_stack, hsp, hneg]
          rfl
        simp only [bind, EStateM.bind, hpush] at h
        cases h
        exact hsp
      · rw [bind_of_ok (push_run 0 hsp hpos hlt)] at h
        exact ih h (word_pushed_zero _ _ _ (by decide)) (by omega) hlt

/-- The locals of a subroutine fit if the stack stays in its room. -/
theorem Roomy.fits {owner : String} {count : UInt16} {sp : Nat} (h : Roomy p s)
    (hstep : Machine.step p s = execute s.pc owner (.enter count) s)
    (hsp : word s.ram 0 = pointer sp) (hpos : 0 < sp) (hle : sp ≤ 32768) :
    sp + count.toNat ≤ 32768 := by
  cases hzeros : pushZeros owner count.toNat s with
  | ok u t =>
      cases u
      exact le_of_pushZeros hzeros hsp hpos hle
  | error e t =>
      have hfails : Machine.step p s = .error e t := by
        rw [hstep]
        simp only [execute, bind, EStateM.bind, hzeros]
      have hroom := h.inRoom_of_error hfails
      have hfull := hroom.le (stack_of_pushZeros hzeros hsp hpos hle) (by decide)
      omega

end JackToolchain.Machine
