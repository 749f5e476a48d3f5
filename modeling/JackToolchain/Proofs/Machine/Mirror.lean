import JackToolchain.Proofs.Machine.Actions
import JackToolchain.Proofs.Machine.Checked
import Mathlib.Data.List.Forall2

/-!
# The checked machine does what the running one does

An action of the checked machine has the outcome of the running one, so it breaches nothing, as long
as the heap is not overfull and every place of a name is one of the table.
-/

namespace JackToolchain.Machine

open JackToolchain.Memory JackToolchain.Stack

/-- The state in the checked machine. -/
def State.checked (s : State) : Checked.State where
  ram := s.ram.toArray
  pc := s.pc
  returns := s.returns
  heapNext := s.heapNext
  output := s.output

/-- The outcome in the checked machine, with a declared error if any. -/
def checkedResult {α : Type} : EStateM.Result RunError State α →
    EStateM.Result (Breach ⊕ RunError) Checked.State α
  | .ok a s => .ok a s.checked
  | .error e s => .error (.inr e) s.checked

/-- The state that an action leaves. -/
def stateOf {α : Type} : EStateM.Result RunError State α → State
  | .ok _ s | .error _ s => s

/-- The function around an address. -/
def ownerAt (P : Checked.Program) (address : Nat) : Option String :=
  match P.instructions[address]? with
  | some i => P.names[i.owner]?
  | none => some topLevel

/-- The machine stands in a function, and its heap is not overfull. -/
structure Stands (P : Checked.Program) (owner : String) (s : State) : Prop where
  owner : ownerAt P s.pc = some owner
  heap : s.heapNext ≤ heapEnd

/-- An action has the same outcome in the checked machine, and stays where it is. -/
def Tracks {α : Type} (P : Checked.Program) (owner : String) (a : Action α)
    (b : Checked.Action α) : Prop :=
  ∀ s, Stands P owner s → b s.checked = checkedResult (a s) ∧ Stands P owner (stateOf (a s))

namespace Tracks

variable {P : Checked.Program} {owner : String} {α β : Type} {a : Action α} {b : Checked.Action α}

theorem pure (x : α) : Tracks P owner (pure x) (pure x) := fun _ hs => ⟨rfl, hs⟩

theorem bind {f : α → Action β} {g : α → Checked.Action β} (h : Tracks P owner a b)
    (hrest : ∀ x, Tracks P owner (f x) (g x)) : Tracks P owner (a >>= f) (b >>= g) := by
  intro s hs
  obtain ⟨hresult, hstands⟩ := h s hs
  simp only [Bind.bind, EStateM.bind, hresult]
  cases ha : a s with
  | ok x t =>
      rw [ha] at hstands
      exact hrest x t hstands
  | error e t =>
      rw [ha] at hstands
      exact ⟨rfl, hstands⟩

theorem fail (e : RunError) : Tracks P owner (throw e : Action α) (Checked.fail e) :=
  fun _ hs => ⟨rfl, hs⟩

/-- Nothing runs after an error. -/
theorem fail_bind (e : RunError) (f : β → Action α) (g : β → Checked.Action α) :
    Tracks P owner ((throw e : Action β) >>= f) (Checked.fail e >>= g) :=
  fun _ hs => ⟨rfl, hs⟩

theorem getRegister (r : Register) :
    Tracks P owner (getRegister r) (Checked.getWord r.address) := by
  intro s hs
  refine ⟨?_, hs⟩
  have hword : s.checked.ram[(r.address : Nat)]? = some (s.register r) := by
    simp [State.checked, State.register]
  simp only [Checked.getWord, hword]
  rfl

theorem setRegister (r : Register) (w : Int16) :
    Tracks P owner (setRegister r w) (Checked.setWord r.address w) := by
  intro s hs
  have hsize : (r.address : Nat) < s.checked.ram.size := by
    simp [State.checked]
  refine ⟨?_, hs.owner, hs.heap⟩
  simp only [Checked.setWord, hsize, dif_pos]
  rfl

/-- The function around the current instruction has its name. -/
theorem currentFunction_run {s : State} (hs : Stands P owner s) :
    Checked.currentFunction P s.checked = .ok owner s.checked := by
  have howner := hs.owner
  have hpc : s.checked.pc = s.pc := rfl
  have hget : (get : Checked.Action Checked.State) s.checked = .ok s.checked s.checked := rfl
  rw [Checked.currentFunction, bind_of_ok hget, hpc]
  unfold ownerAt at howner
  cases hinstruction : P.instructions[s.pc]? with
  | some i =>
      simp only [hinstruction] at howner
      simp only [Checked.nameAt, howner]
      rfl
  | none =>
      simp only [hinstruction] at howner
      cases howner
      rfl

theorem currentFunction {f : String → Checked.Action α} (h : Tracks P owner a (f owner)) :
    Tracks P owner a (Checked.currentFunction P >>= f) := by
  intro s hs
  rw [bind_of_ok (currentFunction_run hs)]
  exact h s hs

theorem invalidAddress (address : Int) :
    Tracks P owner (throw (.invalidAddress owner address) : Action α)
      (Checked.invalidAddress P address) :=
  currentFunction (.fail _)

theorem readWord (address : Int) :
    Tracks P owner (readWord owner address) (Checked.readWord P address) := by
  intro s hs
  have hget {f : Checked.State → Checked.Action Int16} :
      (get >>= f) s.checked = f s.checked s.checked := rfl
  rw [Checked.readWord, hget]
  unfold Machine.readWord
  by_cases hbound : 0 ≤ address ∧ address.toNat < ramSize
  · have hword : s.checked.ram[address.toNat]? = some s.ram[address.toNat] := by
      simp [State.checked, hbound.2]
    rw [dif_pos hbound, if_pos hbound.1, hword]
    exact ⟨rfl, hs⟩
  · have hnone : (if 0 ≤ address then s.checked.ram[address.toNat]? else none) = none := by
      split
      · rename_i hpos
        simp only [State.checked, Vector.getElem?_toArray, Vector.getElem?_eq_none_iff]
        omega
      · rfl
    rw [dif_neg hbound, hnone]
    exact invalidAddress address s hs

theorem writeWord (address : Int) (value : Int16) :
    Tracks P owner (writeWord owner address value) (Checked.writeWord P address value) := by
  intro s hs
  unfold Machine.writeWord Checked.writeWord
  by_cases hbound : 0 ≤ address ∧ address.toNat < ramSize
  · have hsize : address.toNat < s.checked.ram.size := by
      simpa [State.checked] using hbound.2
    simp only [if_pos hbound, dif_pos hbound, Checked.setWord, dif_pos hsize]
    exact ⟨rfl, hs.owner, hs.heap⟩
  · simp only [if_neg hbound, dif_neg hbound]
    exact invalidAddress address s hs

/-! ## Sums -/

theorem natAbs_toInt_le (w : Int16) : w.toInt.natAbs ≤ 32768 := by
  have hlow := w.le_toInt
  have hhigh := w.toInt_lt
  omega

/-- Words and what is a few words away are far from the bounds of a sum. -/
theorem sum32_eq {x y : Int} (hx : x.natAbs ≤ 131072) (hy : y.natAbs ≤ 131072) :
    Checked.sum32 x y = Pure.pure (x + y) := by
  rw [Checked.sum32, if_pos]
  omega

/-! ## Actions -/

theorem addressOf (location : Location) :
    Tracks P owner (addressOf location) (Checked.addressOf location) := by
  cases location with
  | constant value => exact .pure _
  | fixed address => exact .pure _
  | based register offset =>
      refine .bind (.getRegister register) fun w => ?_
      have hoffset := offset.toNat_lt
      rw [sum32_eq ((natAbs_toInt_le w).trans (by decide)) (by omega)]
      exact .pure _

theorem load (location : Location) :
    Tracks P owner (load owner location) (Checked.load P location) := by
  cases location with
  | constant value => exact .pure _
  | fixed address => exact .bind (addressOf _) fun a => readWord a
  | based register offset => exact .bind (addressOf _) fun a => readWord a

theorem store (location : Location) (value : Int16) :
    Tracks P owner (store owner location value) (Checked.store P location value) :=
  .bind (addressOf location) fun a => writeWord a value

theorem push (value : Int16) : Tracks P owner (push owner value) (Checked.push P value) :=
  .bind (getRegister .stack) fun sp =>
    .bind (writeWord sp.toInt value) fun _ =>
      .bind (getRegister .stack) fun _ => setRegister .stack _

/-- A word that was written is read again. -/
theorem getWord_setWord (address : Nat) (w : Int16) (f : Int16 → Checked.Action α) :
    (Checked.setWord address w >>= fun _ => Checked.getWord address >>= f) =
      Checked.setWord address w >>= fun _ => f w := by
  funext s
  by_cases haddress : address < s.ram.size
  · simp [Bind.bind, EStateM.bind, Checked.setWord, Checked.getWord, haddress]
  · simp only [Bind.bind, EStateM.bind, Checked.setWord, haddress, dif_neg, not_false_eq_true]
    rfl

theorem pop : Tracks P owner (pop owner) (Checked.pop P) := by
  refine .bind (getRegister .stack) fun sp => ?_
  rw [getWord_setWord]
  exact .bind (setRegister .stack (sp - 1)) fun _ => readWord _

theorem arithmetic (op : Arithmetic) :
    Tracks P owner (arithmetic owner op) (Checked.arithmetic P op) := by
  refine .bind pop fun y => ?_
  cases op with
  | neg => exact push _
  | not => exact push _
  | _ => exact .bind pop fun x => push _

theorem pushFrame (arguments : UInt16) :
    Tracks P owner (pushFrame owner arguments) (Checked.pushFrame P arguments) := by
  refine .bind (push 0) fun _ => ?_
  refine .bind (getRegister .locals) fun w => .bind (push w) fun _ => ?_
  refine .bind (getRegister .arguments) fun w => .bind (push w) fun _ => ?_
  refine .bind (getRegister .this) fun w => .bind (push w) fun _ => ?_
  refine .bind (getRegister .that) fun w => .bind (push w) fun _ => ?_
  exact .bind (getRegister .stack) fun sp =>
    .bind (setRegister .arguments _) fun _ => setRegister .locals _

theorem popFrame : Tracks P owner (popFrame owner) (Checked.popFrame P) := by
  refine .bind (getRegister .locals) fun frame => .bind pop fun value => ?_
  refine .bind (getRegister .arguments) fun slot => .bind (writeWord slot.toInt value) fun _ => ?_
  have hframe := (natAbs_toInt_le frame).trans (by decide : 32768 ≤ 131072)
  rw [sum32_eq ((natAbs_toInt_le slot).trans (by decide)) (by decide), pure_bind]
  have hslot : Int16.ofInt (slot.toInt + 1) = slot + 1 := by
    rw [Int16.ofInt_add, Int16.ofInt_toInt]
    rfl
  rw [hslot]
  refine .bind (setRegister .stack _) fun _ => ?_
  rw [sum32_eq hframe (by decide), pure_bind]
  refine .bind (readWord _) fun w => .bind (setRegister .that w) fun _ => ?_
  rw [sum32_eq hframe (by decide), pure_bind]
  refine .bind (readWord _) fun w => .bind (setRegister .this w) fun _ => ?_
  rw [sum32_eq hframe (by decide), pure_bind]
  refine .bind (readWord _) fun w => .bind (setRegister .arguments w) fun _ => ?_
  rw [sum32_eq hframe (by decide), pure_bind]
  exact .bind (readWord _) fun w => .bind (setRegister .locals w) fun _ => .pure value

theorem pushZeros (count : Nat) :
    Tracks P owner (pushZeros owner count) (Checked.pushZeros P count) := by
  induction count with
  | zero => exact .pure ()
  | succ count ih => exact .bind (push 0) fun _ => ih

/-! ## Host routines -/

theorem print (text : String) : Tracks P owner (print text) (Checked.print text) :=
  fun _ hs => ⟨rfl, hs.owner, hs.heap⟩

theorem ite {c : Prop} [Decidable c] {x : Action α} {y : Checked.Action α}
    (h : Tracks P owner a b) (h' : Tracks P owner x y) :
    Tracks P owner (if c then a else x) (if c then b else y) := by
  split
  · exact h
  · exact h'

theorem fault (routine : Routine) (cause : Fault) :
    Tracks P owner (throw (.fault routine.name owner cause) : Action α)
      (Checked.fault P routine cause) :=
  currentFunction (.fail _)

theorem fault_bind (routine : Routine) (cause : Fault) (f : β → Action α)
    (g : β → Checked.Action α) :
    Tracks P owner ((throw (.fault routine.name owner cause) : Action β) >>= f)
      (Checked.fault P routine cause >>= g) := by
  rw [Checked.fault, bind_assoc]
  exact currentFunction (fail_bind _ f g)

/-- The heap has an end, so its sums stay small. -/
theorem alloc (routine : Routine) (size : Int16) :
    Tracks P owner (alloc owner routine size) (Checked.alloc P routine size) := by
  unfold Machine.alloc Checked.alloc
  by_cases hsize : size < 0
  · simp only [if_pos hsize]
    exact fault_bind routine .negativeSize _ _
  · simp only [if_neg hsize]
    intro s hs
    have hheap : s.heapNext ≤ 16384 := hs.heap
    have hbound := natAbs_toInt_le size
    have hpos : 0 ≤ size.toInt := by
      rw [Int16.lt_iff_toInt_lt] at hsize
      exact Int.not_lt.mp hsize
    have hobject : (modifyGet fun s => (s.heapNext, s) : Action Nat) s = .ok s.heapNext s := rfl
    have hnext : s.checked.heapNext = s.heapNext := rfl
    have hget : (get : Checked.Action Checked.State) s.checked = .ok s.checked s.checked := rfl
    have hsum : (s.heapNext : Int) + size.toInt = (s.heapNext + size.toInt.toNat : Nat) := by
      omega
    rw [bind_of_ok hobject, bind_of_ok hget, hnext, sum32_eq (by omega) (by omega), hsum,
      pure_bind]
    by_cases hroom : s.heapNext + size.toInt.toNat > heapEnd
    · have hroom' : (heapEnd : Int) < (s.heapNext + size.toInt.toNat : Nat) := by omega
      simp only [if_pos hroom, if_pos hroom']
      exact ⟨rfl, hs⟩
    · have hroom' : ¬(heapEnd : Int) < (s.heapNext + size.toInt.toNat : Nat) := by omega
      simp only [if_neg hroom, if_neg hroom']
      exact ⟨rfl, hs.owner, Nat.le_of_not_lt hroom⟩

theorem readChars (object : Int16) (index : Nat) (done : List Char) (count : Nat)
    (hindex : index + count ≤ 65536) :
    Tracks P owner (readChars owner object index done count)
      (Checked.readChars P object index done count) := by
  induction count generalizing index done with
  | zero => exact .pure _
  | succ count ih =>
      have hobject := natAbs_toInt_le object
      simp only [Machine.readChars, Checked.readChars]
      rw [sum32_eq (hobject.trans (by decide)) (by decide), pure_bind,
        sum32_eq (by omega) (by omega), pure_bind]
      exact .bind (readWord _) fun w => ih (index + 1) _ (by omega)

theorem newString (capacity : Int16) :
    Tracks P owner (newString owner capacity) (Checked.newString P capacity) := by
  refine .bind (alloc .newString _) fun object => .bind (writeWord _ 0) fun _ => ?_
  rw [sum32_eq ((natAbs_toInt_le object).trans (by decide)) (by decide), pure_bind]
  exact .bind (writeWord _ _) fun _ => .pure object

theorem sum16_one {length capacity : Int16} (h : ¬capacity ≤ length) :
    Checked.sum16 length 1 = Pure.pure (length + 1) := by
  have hlow := length.le_toInt
  have hhigh := capacity.toInt_lt
  rw [Int16.le_iff_toInt_le] at h
  have hone : (1 : Int16).toInt = 1 := rfl
  rw [Checked.sum16, if_pos]
  omega

/-- A string with room is not as long as a word can say. -/
theorem appendChar (object c : Int16) :
    Tracks P owner (do
      Machine.appendChar owner object c
      return object) (Checked.appendChar P object c) := by
  have hobject := natAbs_toInt_le object
  simp only [Machine.appendChar, Checked.appendChar, bind_assoc]
  refine .bind (readWord _) fun length => ?_
  have hlength := natAbs_toInt_le length
  rw [sum32_eq (hobject.trans (by decide)) (by decide), pure_bind]
  refine .bind (readWord _) fun capacity => ?_
  by_cases hfull : capacity ≤ length
  · simp only [if_pos hfull, bind_assoc]
    exact fault_bind .appendChar .capacityExceeded _ _
  · simp only [if_neg hfull, bind_assoc]
    rw [sum32_eq (hobject.trans (by decide)) (by decide), pure_bind,
      sum32_eq (by omega) (by omega), pure_bind]
    refine .bind (writeWord _ _) fun _ => ?_
    rw [sum16_one hfull, pure_bind]
    exact .bind (writeWord _ _) fun _ => .pure object

theorem charAt (object index : Int16) :
    Tracks P owner (charAt owner object index) (Checked.charAt P object index) := by
  have hobject := natAbs_toInt_le object
  have hindex := natAbs_toInt_le index
  refine .bind (readWord _) fun length => ?_
  rw [sum32_eq (hobject.trans (by decide)) (by decide), pure_bind,
    sum32_eq (by omega) (by omega), pure_bind]
  exact .ite (.bind (fault .charAt .indexOutOfBounds) fun _ => readWord _) (readWord _)

theorem printString (object : Int16) :
    Tracks P owner (do
      let length ← Machine.readWord owner object.toInt
      Machine.print (String.ofList (← Machine.readChars owner object 0 [] length.toInt.toNat))
      return 0) (Checked.printString P object) := by
  refine .bind (readWord _) fun length => ?_
  have hlength := natAbs_toInt_le length
  exact .bind (readChars object 0 [] _ (by omega)) fun text => .bind (print _) fun _ => .pure 0

/-- A routine that is called with as many arguments as it takes has a case for them. -/
theorem callRoutine (routine : Routine) :
    Tracks P owner (callRoutine owner routine)
      (Checked.popArguments P [] routine.arity >>= Checked.callRoutine P routine) := by
  cases routine with
  | multiply =>
      simp only [Routine.arity, Checked.popArguments, bind_assoc, pure_bind]
      exact .bind pop fun y => .bind pop fun x => .pure _
  | divide =>
      simp only [Routine.arity, Checked.popArguments, bind_assoc, pure_bind]
      refine .bind pop fun y => .bind pop fun x => ?_
      exact .ite (currentFunction (fail_bind _ _ _)) (.pure _)
  | abs | deAlloc | disposeArray =>
      simp only [Routine.arity, Checked.popArguments, bind_assoc, pure_bind]
      exact .bind pop fun x => .pure _
  | alloc | newArray =>
      simp only [Routine.arity, Checked.popArguments, bind_assoc, pure_bind]
      exact .bind pop fun size => alloc _ size
  | newString =>
      simp only [Routine.arity, Checked.popArguments, bind_assoc, pure_bind]
      exact .bind pop fun capacity => newString capacity
  | appendChar =>
      simp only [Routine.arity, Checked.popArguments, bind_assoc, pure_bind]
      exact .bind pop fun c => .bind pop fun object => appendChar object c
  | stringLength =>
      simp only [Routine.arity, Checked.popArguments, bind_assoc, pure_bind]
      exact .bind pop fun object => readWord _
  | charAt =>
      simp only [Routine.arity, Checked.popArguments, bind_assoc, pure_bind]
      exact .bind pop fun index => .bind pop fun object => charAt object index
  | printInt | printChar =>
      simp only [Routine.arity, Checked.popArguments, bind_assoc, pure_bind]
      exact .bind pop fun x => .bind (print _) fun _ => .pure 0
  | printString =>
      simp only [Routine.arity, Checked.popArguments, bind_assoc, pure_bind]
      exact .bind pop fun object => printString object
  | printLine =>
      simp only [Routine.arity, Checked.popArguments, pure_bind]
      exact .bind (print _) fun _ => .pure 0

theorem callHost (routine : Routine) (arguments : UInt16) :
    Tracks P owner (callHost owner routine arguments)
      (Checked.callHost P routine arguments) := by
  unfold Machine.callHost Checked.callHost
  by_cases hcount : arguments.toNat = routine.arity
  · simp only [hcount, ne_eq, not_true_eq_false, if_false]
    rw [← bind_assoc]
    exact .bind (callRoutine routine) fun value => push value
  · simp only [ne_eq, hcount, not_false_eq_true, if_true]
    exact fail_bind _ _ _

end Tracks

end JackToolchain.Machine
