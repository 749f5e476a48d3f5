import JackToolchain.Machine.Run
import JackToolchain.Proofs.Memory

/-!
# What actions do to memory

Each action of the machine as an equation: under which conditions it succeeds, its value, and the
memory it leaves.
-/

namespace JackToolchain.Machine

open JackToolchain.Memory JackToolchain.Stack

/-- The address of the stack pointer and of the other registers. -/
@[simp] theorem address_stack : (Register.stack.address : Nat) = 0 := rfl
@[simp] theorem address_locals : (Register.locals.address : Nat) = 1 := rfl
@[simp] theorem address_arguments : (Register.arguments.address : Nat) = 2 := rfl
@[simp] theorem address_this : (Register.this.address : Nat) = 3 := rfl
@[simp] theorem address_that : (Register.that.address : Nat) = 4 := rfl

theorem Register.address_lt (r : Register) : (r.address : Nat) < 5 := by
  cases r <;> decide

theorem State.register_eq_word (s : State) (r : Register) :
    s.register r = word s.ram r.address :=
  getElem_eq_word s.ram _ r.address.isLt

theorem State.setRegister_eq_put (s : State) (r : Register) (w : Int16) :
    s.setRegister r w = { s with ram := put s.ram r.address w } := by
  unfold State.setRegister
  rw [set_eq_put]

section Binds

variable {ε σ α β : Type} {x : EStateM ε σ α} {f : α → EStateM ε σ β} {s s' : σ}

theorem bind_of_ok {a : α} (h : x s = .ok a s') : (x >>= f) s = f a s' := by
  simp only [bind, EStateM.bind, h]

/-- A sequence that succeeds has a first part that succeeds. -/
theorem bind_eq_ok {b : β} (h : (x >>= f) s = .ok b s') :
    ∃ a t, x s = .ok a t ∧ f a t = .ok b s' := by
  simp only [bind, EStateM.bind] at h
  split at h
  · exact ⟨_, _, by assumption, h⟩
  · cases h

end Binds

@[simp] theorem pure_run {α : Type} (a : α) (s : State) : (pure a : Action α) s = .ok a s := rfl

theorem getRegister_run (r : Register) (s : State) :
    getRegister r s = .ok (word s.ram r.address) s := by
  rw [← State.register_eq_word]
  rfl

theorem setRegister_run (r : Register) (w : Int16) (s : State) :
    setRegister r w s = .ok () { s with ram := put s.ram r.address w } := by
  rw [← State.setRegister_eq_put]
  rfl

theorem readWord_run (owner : String) {a : Nat} (s : State) (ha : a < 32768) :
    readWord owner a s = .ok (word s.ram a) s := by
  have hbound : 0 ≤ (a : Int) ∧ (a : Int).toNat < ramSize := ⟨by omega, ha⟩
  simp only [readWord, hbound, and_self, dite_true]
  rw [getElem_eq_word]
  rfl

theorem writeWord_run (owner : String) {a : Nat} (w : Int16) (s : State) (ha : a < 32768) :
    writeWord owner a w s = .ok () { s with ram := put s.ram a w } := by
  have hbound : 0 ≤ (a : Int) ∧ (a : Int).toNat < ramSize := ⟨by omega, ha⟩
  simp only [writeWord, hbound, and_self, dite_true]
  rw [set_eq_put]
  rfl

/-- A read that succeeds is one of an address inside memory. -/
theorem bounds_of_readWord {owner : String} {a : Int} {w : Int16} {s s' : State}
    (h : readWord owner a s = .ok w s') : 0 ≤ a ∧ a < 32768 := by
  unfold readWord at h
  split at h
  · rename_i hbound
    have hsize : ramSize = 32768 := rfl
    omega
  · cases h

theorem bounds_of_writeWord {owner : String} {a : Int} {w : Int16} {s s' : State}
    (h : writeWord owner a w s = .ok () s') : 0 ≤ a ∧ a < 32768 := by
  unfold writeWord at h
  split at h
  · rename_i hbound
    have hsize : ramSize = 32768 := rfl
    omega
  · cases h

section Stack

variable {owner : String} {s : State} {sp : Nat}

theorem push_run (w : Int16) (hsp : word s.ram 0 = pointer sp) (hpos : 0 < sp)
    (hlt : sp < 32768) :
    push owner w s = .ok () { s with ram := pushed s.ram sp w } := by
  unfold push
  rw [bind_of_ok (getRegister_run .stack s), address_stack, hsp, toInt_pointer hlt]
  rw [bind_of_ok (writeWord_run owner w s hlt)]
  rw [bind_of_ok (getRegister_run .stack _), setRegister_run]
  have hkeep : word (put s.ram sp w) 0 = pointer sp := by
    rw [word_put_of_ne _ _ (by omega), hsp]
  simp only [address_stack, hkeep, pointer_add_one, pushed]

theorem pop_run (hsp : word s.ram 0 = pointer sp) (hpos : 1 < sp) (hlt : sp ≤ 32768) :
    pop owner s = .ok (word s.ram (sp - 1)) { s with ram := popped s.ram sp } := by
  unfold pop
  rw [bind_of_ok (getRegister_run .stack s), address_stack, hsp, pointer_sub_one (by omega)]
  rw [bind_of_ok (setRegister_run .stack _ s), toInt_pointer (by omega)]
  rw [readWord_run owner _ (by omega)]
  simp only [address_stack, popped]
  rw [word_put_of_ne _ _ (by omega)]

end Stack

end JackToolchain.Machine
