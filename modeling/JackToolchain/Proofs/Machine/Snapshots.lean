import JackToolchain.Proofs.Machine.Advance
import JackToolchain.Proofs.Machine.Progress

/-!
# Snapshots

States of the machine that are given by what has been written to an empty memory. Their steps can be
computed, and are those of the machine; so are the rules that a disciplined run keeps and the room
that it takes.
-/

namespace JackToolchain.Machine

open JackToolchain.Memory JackToolchain.Stack

/-- A state of the machine, with the writes to its memory. -/
structure Snapshot where
  writes : List (Nat × Int16) := []
  pc : Nat := 0
  returns : List Nat := []
  heapNext : Nat := heapBase
  output : String := ""

namespace Snapshot

/-- The memory that some writes leave, the latest one first. -/
def written : List (Nat × Int16) → Vector Int16 ramSize
  | [] => .replicate ramSize 0
  | (a, w) :: writes => put (written writes) a w

/-- The word that they leave at an address. -/
def latest (writes : List (Nat × Int16)) (a : Nat) : Int16 :=
  if a < ramSize then (writes.lookup a).getD 0 else 0

theorem word_written (writes : List (Nat × Int16)) : word (written writes) = latest writes := by
  funext a
  by_cases ha : a < ramSize
  · induction writes with
    | nil => simpa [written, latest] using word_replicate_zero a
    | cons write writes ih =>
        obtain ⟨b, w⟩ := write
        simp only [latest, ha, if_true] at ih ⊢
        by_cases hab : b = a
        · subst hab
          simp [written, word_put_self _ _ ha]
        · rw [written, word_put_of_ne _ _ hab, ih, List.lookup_cons,
            beq_eq_false_iff_ne.mpr (Ne.symm hab)]
  · rw [word_of_le _ (Nat.le_of_not_lt ha), latest, if_neg ha]

def state (x : Snapshot) : State where
  ram := written x.writes
  pc := x.pc
  returns := x.returns
  heapNext := x.heapNext
  output := x.output

def word (x : Snapshot) : Nat → Int16 := latest x.writes

@[simp] theorem word_state (x : Snapshot) : Memory.word x.state.ram = x.word :=
  word_written x.writes

def stack (x : Snapshot) : Nat := (x.word 0).toInt.toNat

/-- Goes on behind an instruction that writes to memory. -/
def wrote (x : Snapshot) (writes : List (Nat × Int16)) : Snapshot :=
  { x with writes := writes ++ x.writes, pc := x.pc + 1 }

/-- Where a location points. -/
def address? (x : Snapshot) : Location → Option Nat
  | .constant _ | .based .stack _ => none
  | .fixed a => if a < 32768 then some a else none
  | .based register offset =>
    let a := (x.word register.address).toInt + offset.toNat
    if 0 ≤ a ∧ a < 32768 then some a.toNat else none

/-- The writes that push zeros. -/
def zeros (sp : Nat) : Nat → List (Nat × Int16)
  | 0 => []
  | count + 1 => zeros (sp + 1) count ++ [(0, pointer (sp + 1)), (sp, 0)]

/-- The writes of a call. -/
def frame (x : Snapshot) (sp count : Nat) : List (Nat × Int16) :=
  [(1, pointer (sp + 5)), (2, pointer (sp - count)), (0, pointer (sp + 5)), (sp + 4, x.word 4),
    (0, pointer (sp + 4)), (sp + 3, x.word 3), (0, pointer (sp + 3)), (sp + 2, x.word 2),
    (0, pointer (sp + 2)), (sp + 1, x.word 1), (0, pointer (sp + 1)), (sp, 0)]

/-- The writes of a return. -/
def unframe (x : Snapshot) (sp locals arguments : Nat) : List (Nat × Int16) :=
  [(1, x.word (locals - 4)), (2, x.word (locals - 3)), (3, x.word (locals - 2)),
    (4, x.word (locals - 1)), (0, pointer (arguments + 1)), (arguments, x.word (sp - 1)),
    (0, pointer (sp - 1))]

/-- What an instruction makes of a snapshot with that stack pointer, and the value of the run if
this ends it. Of the routines of the machine it knows those that need no other memory. -/
def execute (x : Snapshot) (sp : Nat) : Op → Option (Option Int16 × Snapshot)
  | .push (.constant value) => some (none, x.wrote [(0, pointer (sp + 1)), (sp, value.toInt16)])
  | .push location =>
    (x.address? location).map fun a => (none, x.wrote [(0, pointer (sp + 1)), (sp, x.word a)])
  | .pop location =>
    (x.address? location).map fun a =>
      (none, x.wrote [(a, x.word (sp - 1)), (0, pointer (sp - 1))])
  | .arithmetic op =>
    let y := x.word (sp - 1)
    some (none, x.wrote <|
      if op.arity = 1 then
        [(0, pointer (sp - 1 + 1)), (sp - 1, if op = .neg then -y else ~~~y),
          (0, pointer (sp - 1))]
      else
        [(0, pointer (sp - 2 + 1)), (sp - 2, combine op (x.word (sp - 2)) y),
          (0, pointer (sp - 1 - 1)), (0, pointer (sp - 1))])
  | .skip => some (none, x.wrote [])
  | .jump target => some (none, { x with pc := target })
  | .jumpIf target =>
    some (none, { x with
      writes := (0, pointer (sp - 1)) :: x.writes
      pc := if x.word (sp - 1) = 0 then x.pc + 1 else target })
  | .enter locals =>
    if sp + locals.toNat ≤ 32768 then some (none, x.wrote (zeros sp locals.toNat)) else none
  | .call (.function entry) count =>
    if count.toNat ≤ sp then
      some (none, { x with
        writes := x.frame sp count.toNat ++ x.writes
        returns := (x.pc + 1) :: x.returns
        pc := entry })
    else none
  | .call (.host .alloc) count =>
    let size := (x.word (sp - 1)).toInt
    if count = 1 ∧ 0 ≤ size ∧ x.heapNext + size ≤ heapEnd then
      some (none, { x.wrote [(0, pointer (sp - 1 + 1)), (sp - 1, pointer x.heapNext),
        (0, pointer (sp - 1))] with heapNext := x.heapNext + size.toNat })
    else none
  | .call (.host .printInt) count =>
    if count = 1 then
      some (none, { x.wrote [(0, pointer (sp - 1 + 1)), (sp - 1, 0), (0, pointer (sp - 1))] with
        output := x.output ++ toString (x.word (sp - 1)).toInt })
    else none
  | .call _ _ => none
  | .return =>
    let locals := (x.word 1).toInt.toNat
    let arguments := (x.word 2).toInt.toNat
    if 5 ≤ arguments ∧ arguments + 5 ≤ locals then
      let y := { x with writes := x.unframe sp locals arguments ++ x.writes }
      match x.returns with
      | [] => some (some (x.word (sp - 1)), y)
      | target :: returns => some (none, { y with returns, pc := target })
    else none

/-- The stack is in its room. -/
def inRoom (x : Snapshot) : Bool := 256 ≤ x.stack ∧ x.stack ≤ 2048

/-- One step of a program with these instructions. -/
def next (code : List Instruction) (x : Snapshot) : Option (Option Int16 × Snapshot) :=
  if x.inRoom then code[x.pc]?.bind fun i => x.execute x.stack i.op else none

section Steps

variable {x y : Snapshot} {sp : Nat} {value : Option Int16}

theorem eq_pointer_of_toNat {w : Int16} (h : 0 < w.toInt.toNat) : w = pointer w.toInt.toNat :=
  eq_pointer_of_toInt (by omega)

theorem inRoom_state (h : x.inRoom) :
    x.word 0 = pointer x.stack ∧ 256 ≤ x.stack ∧ x.stack ≤ 2048 := by
  obtain ⟨hlow, hhigh⟩ := of_decide_eq_true h
  exact ⟨eq_pointer_of_toNat (by unfold stack at hlow; omega), hlow, hhigh⟩

theorem resolve_of_address {location : Location} {a : Nat} (h : x.address? location = some a) :
    location.resolve x.state.ram = a ∧ a < 32768 ∧ ∀ offset, location ≠ .based .stack offset := by
  cases location with
  | constant value => cases h
  | fixed b =>
      simp only [address?, Option.ite_none_right_eq_some, Option.some.injEq] at h
      obtain ⟨hlt, rfl⟩ := h
      exact ⟨rfl, hlt, fun offset heq => by cases heq⟩
  | based register offset =>
      cases register with
      | stack => cases h
      | locals | arguments | this | that =>
        simp only [address?, Option.ite_none_right_eq_some, Option.some.injEq] at h
        obtain ⟨⟨hlow, hlt⟩, rfl⟩ := h
        simp only [Location.resolve, word_state]
        exact ⟨by omega, by omega, fun offset heq => by cases heq⟩

theorem written_zeros (sp count : Nat) (writes : List (Nat × Int16)) :
    written (zeros sp count ++ writes) = zeroed (written writes) sp count := by
  induction count generalizing sp writes with
  | zero => rfl
  | succ count ih =>
      rw [zeros, List.append_assoc, ih]
      rfl

theorem written_frame (x : Snapshot) (sp count : Nat) :
    written (x.frame sp count ++ x.writes) = framed x.state.ram sp count 0 := by
  simp only [framed, saved, word_state]
  rfl

theorem written_unframe (x : Snapshot) (sp locals arguments : Nat) :
    written (x.unframe sp locals arguments ++ x.writes) =
      restored x.state.ram sp locals arguments := by
  simp only [restored, word_state]
  rfl

/-- The top of the stack is all that a routine with one argument takes off it. -/
theorem callHost_single {owner : String} {routine : Routine} {t : State} {w : Int16}
    (harity : routine.arity = 1)
    (hroutine : callRoutine owner routine x.state = .ok w t)
    (hstack : Memory.word t.ram 0 = pointer (sp - 1)) (hlow : 256 ≤ sp) (hhigh : sp ≤ 2048) :
    callHost owner routine 1 x.state = .ok () { t with ram := pushed t.ram (sp - 1) w } := by
  unfold callHost
  rw [if_neg (by simp [harity])]
  change (callRoutine owner routine >>= push owner) x.state = _
  rw [bind_of_ok hroutine, push_run w hstack (by omega) (by omega)]

theorem execute_host {owner : String} {routine : Routine} {count : UInt16}
    (h : x.execute sp (.call (.host routine) count) = some (value, y))
    (hsp : Memory.word x.state.ram 0 = pointer sp) (hlow : 256 ≤ sp) (hhigh : sp ≤ 2048) :
    Machine.execute x.pc owner (.call (.host routine) count) x.state = .ok value y.state := by
  have hpop : pop owner x.state =
      .ok (x.word (sp - 1)) { x.state with ram := popped x.state.ram sp } := by
    rw [pop_run hsp (by omega) (by omega), word_state]
  have hdropped : Memory.word (popped x.state.ram sp) 0 = pointer (sp - 1) :=
    word_popped_zero _ _ (by decide)
  cases routine with
  | alloc =>
      simp only [execute, Option.ite_none_right_eq_some, Option.some.injEq, Prod.mk.injEq] at h
      obtain ⟨⟨rfl, hsize, hroom⟩, rfl, rfl⟩ := h
      have hroutine : callRoutine owner .alloc x.state = .ok (pointer x.heapNext)
          { x.state with
            ram := popped x.state.ram sp
            heapNext := x.heapNext + (x.word (sp - 1)).toInt.toNat } := by
        simp only [callRoutine]
        rw [bind_of_ok hpop]
        rcases alloc_cases owner .alloc (x.word (sp - 1))
          { x.state with ram := popped x.state.ram sp } with ⟨-, -, h⟩ | ⟨e, hrefused, -⟩
        · exact h
        · simp only [state] at hrefused
          omega
      have hcall := callHost_single rfl hroutine hdropped hlow hhigh
      simp only [Machine.execute]
      rw [bind_of_ok hcall]
      rfl
  | printInt =>
      simp only [execute, Option.ite_none_right_eq_some, Option.some.injEq, Prod.mk.injEq] at h
      obtain ⟨rfl, rfl, rfl⟩ := h
      have hroutine : callRoutine owner .printInt x.state = .ok 0 { x.state with
          ram := popped x.state.ram sp
          output := x.output ++ toString (x.word (sp - 1)).toInt } := by
        simp only [callRoutine]
        rw [bind_of_ok hpop]
        rfl
      have hcall := callHost_single rfl hroutine hdropped hlow hhigh
      simp only [Machine.execute]
      rw [bind_of_ok hcall]
      rfl
  | _ => cases h

theorem execute_unframe {owner : String} (h : x.execute sp .return = some (value, y))
    (hsp : Memory.word x.state.ram 0 = pointer sp) (hlow : 256 ≤ sp) (hhigh : sp ≤ 2048) :
    Machine.execute x.pc owner .return x.state = .ok value y.state := by
  simp only [execute, Option.ite_none_right_eq_some] at h
  obtain ⟨⟨hargs, hlocals⟩, h⟩ := h
  have hframe (k : Nat) (hk : 0 < (x.word k).toInt.toNat) :
      Memory.word x.state.ram k = pointer (x.word k).toInt.toNat := by
    rw [word_state]
    exact eq_pointer_of_toNat hk
  have hbound := Int16.toInt_lt (x.word 1)
  have hleft := @popFrame_run owner _ _ _ _ hsp (hframe 1 (by omega)) (hframe 2 (by omega))
    hargs hlocals (by omega) (by omega) (by omega)
  rw [execute_return x.pc hleft, word_state]
  cases hreturns : x.returns with
  | nil =>
      simp only [hreturns] at h
      cases h
      simp only [leave, state, hreturns, written_unframe]
  | cons target returns =>
      simp only [hreturns] at h
      cases h
      simp only [leave, state, hreturns, written_unframe]

theorem execute_state {owner : String} {op : Op} (h : x.execute sp op = some (value, y))
    (hsp : x.word 0 = pointer sp) (hlow : 256 ≤ sp) (hhigh : sp ≤ 2048) :
    Machine.execute x.pc owner op x.state = .ok value y.state := by
  rw [← word_state] at hsp
  have hpush {location : Location} {w : Int16}
      (hload : load owner location x.state = .ok w x.state) :
      Machine.execute x.pc owner (.push location) x.state =
        .ok none (x.wrote [(0, pointer (sp + 1)), (sp, w)]).state :=
    execute_push x.pc hload hsp (by omega) (by omega)
  cases op with
  | push location =>
      cases location with
      | constant value =>
          cases h
          exact hpush (load_constant owner value x.state)
      | fixed _ | based _ _ =>
          obtain ⟨a, ha, hy⟩ := Option.map_eq_some_iff.mp h
          obtain ⟨hresolve, hlt, -⟩ := resolve_of_address ha
          cases hy
          refine hpush ?_
          rw [load_run hresolve hlt, word_state]
  | pop location =>
      obtain ⟨a, ha, hy⟩ := Option.map_eq_some_iff.mp h
      obtain ⟨hresolve, hlt, hbase⟩ := resolve_of_address ha
      cases hy
      rw [execute_pop x.pc hbase hresolve hlt hsp (by omega) (by omega), word_state]
      rfl
  | arithmetic op =>
      cases h
      by_cases hop : op.arity = 1
      · rw [execute_arithmetic x.pc (arithmetic_unary hop hsp (by omega) (by omega)), word_state,
          if_pos hop]
        rfl
      · have hop' : op.arity = 2 := by cases op <;> simp_all [Arithmetic.arity]
        rw [execute_arithmetic x.pc (arithmetic_binary hop' hsp (by omega) (by omega)), word_state,
          if_neg hop]
        rfl
  | skip =>
      cases h
      rfl
  | jump target =>
      cases h
      rfl
  | jumpIf target =>
      cases h
      rw [execute_jumpIf x.pc target hsp (by omega) (by omega), word_state]
      rfl
  | enter locals =>
      simp only [execute, Option.ite_none_right_eq_some, Option.some.injEq, Prod.mk.injEq] at h
      obtain ⟨hroom, rfl, rfl⟩ := h
      rw [execute_enter x.pc locals hsp (by omega) hroom]
      simp only [state, wrote, written_zeros]
  | call target count =>
      cases target with
      | function entry =>
          simp only [execute, Option.ite_none_right_eq_some, Option.some.injEq, Prod.mk.injEq] at h
          obtain ⟨hcount, rfl, rfl⟩ := h
          rw [execute_call x.pc entry count hsp (by omega) (by omega) hcount]
          simp only [state, written_frame]
      | host routine => exact execute_host h hsp hlow hhigh
      | undefined name => cases h
  | «return» => exact execute_unframe h hsp hlow hhigh

/-- A step that is computed is a step of the machine. -/
theorem step_state {p : Program} (h : x.next p.instructions.toList = some (value, y)) :
    step p x.state = .ok value y.state := by
  simp only [next, Option.ite_none_right_eq_some] at h
  obtain ⟨hroom, h⟩ := h
  obtain ⟨⟨op, owner⟩, hop, hexecute⟩ := Option.bind_eq_some_iff.mp h
  obtain ⟨hsp, hlow, hhigh⟩ := inRoom_state hroom
  rw [Array.getElem?_toList] at hop
  rw [step_of_instruction (s := x.state) hop]
  exact execute_state hexecute hsp hlow hhigh

end Steps

/-! ## Room -/

/-- The run ends with a value after less than so many steps, and the stack stays in its room. -/
def ends (code : List Instruction) : Nat → Snapshot → Bool
  | 0, _ => false
  | fuel + 1, x =>
    match x.next code with
    | some (none, y) => ends code fuel y
    | some (some _, y) => y.inRoom
    | none => false

theorem inRoom_of_inRoom {x : Snapshot} (h : x.inRoom) : x.state.InRoom := by
  obtain ⟨hsp, hlow, hhigh⟩ := inRoom_state h
  rw [← word_state] at hsp
  exact State.inRoom_of_word hsp hlow hhigh

theorem inRoom_of_next {code : List Instruction} {x y : Snapshot} {value : Option Int16}
    (h : x.next code = some (value, y)) : x.state.InRoom := by
  simp only [next, Option.ite_none_right_eq_some] at h
  exact inRoom_of_inRoom h.1

theorem roomy_of_ends {p : Program} {fuel : Nat} {x : Snapshot}
    (h : x.ends p.instructions.toList fuel) : Roomy p x.state := by
  induction fuel generalizing x with
  | zero => cases h
  | succ fuel ih =>
      unfold ends at h
      split at h
      · rename_i y hnext
        exact .of_step (inRoom_of_next hnext) (step_state hnext) (ih h)
      · rename_i value y hnext
        exact .of_value (inRoom_of_next hnext) (step_state hnext) (inRoom_of_inRoom h)
      · cases h

/-! ## Discipline -/

def frames (x : Snapshot) : List Nat :=
  framesFrom x.word x.returns.length (x.word 1).toInt.toNat

theorem frames_state (x : Snapshot) : x.state.frames = x.frames := by
  rw [State.frames, word_state]
  rfl

theorem stackPointer_state (x : Snapshot) : x.state.stackPointer = (x.word 0).toInt := by
  rw [State.stackPointer, word_state]

instance (x : Snapshot) (count : Nat) : Decidable (x.state.HasOperands count) :=
  decidable_of_iff ((x.word 1).toInt + count ≤ (x.word 0).toInt) (by
    rw [State.HasOperands, stackPointer_state, word_state])

instance (x : Snapshot) (a : Int) : Decidable (x.state.Accessible a) :=
  decidable_of_iff
    (2048 ≤ a ∨ a < (x.word 0).toInt ∧ ∀ frame ∈ x.frames, ¬(frame - 5 ≤ a ∧ a < frame)) (by
    rw [State.Accessible, stackPointer_state, frames_state])

/-- The address of an access by a register. -/
def based (x : Snapshot) (register : Register) (offset : UInt16) : Int :=
  (x.word register.address).toInt + offset.toNat

theorem resolve_based (x : Snapshot) (register : Register) (offset : UInt16) :
    (Location.based register offset).resolve x.state.ram = x.based register offset := by
  simp only [Location.resolve, word_state, based]

/-- The difference that a comparison computes. -/
def difference (x : Snapshot) : Int :=
  (x.word ((x.word 0).toInt.toNat - 2)).toInt - (x.word ((x.word 0).toInt.toNat - 1)).toInt

theorem operand_sub_operand (x : Snapshot) :
    (x.state.operand 2).toInt - (x.state.operand 1).toInt = x.difference := by
  simp only [State.operand, stackPointer_state, word_state, difference]

instance (access : Access) [DecidablePred access.reads] [DecidablePred access.writes]
    (x : Snapshot) (op : Op) : Decidable (Disciplined access x.state op) :=
  match op with
  | .push (.based register offset) =>
    decidable_of_iff (x.state.Accessible (x.based register offset) ∧
      access.reads (x.based register offset)) (by rw [Disciplined, resolve_based])
  | .pop (.based register offset) =>
    decidable_of_iff (x.state.HasOperands 1 ∧ x.state.Accessible (x.based register offset) ∧
      access.writes (x.based register offset)) (by rw [Disciplined, resolve_based])
  | .arithmetic op =>
    decidable_of_iff (x.state.HasOperands op.arity ∧
      (op ∈ comparisons → -32768 ≤ x.difference ∧ x.difference < 32768)) (by
      rw [Disciplined, operand_sub_operand])
  | .pop (.constant _) | .pop (.fixed _) | .jumpIf _ | .return =>
    inferInstanceAs (Decidable (x.state.HasOperands 1))
  | .call _ arguments => inferInstanceAs (Decidable (x.state.HasOperands arguments.toNat))
  | .push (.constant _) | .push (.fixed _) | .skip | .jump _ | .enter _ =>
    inferInstanceAs (Decidable True)

instance : DecidablePred Access.any.reads := fun _ => inferInstanceAs (Decidable True)

instance : DecidablePred Access.any.writes := fun _ => inferInstanceAs (Decidable True)

instance : DecidablePred Access.shared.reads := fun a =>
  inferInstanceAs (Decidable (¬(a = 13 ∨ a = 14) ∧ ¬(16 ≤ a ∧ a < 256)))

instance : DecidablePred Access.shared.writes := fun a =>
  inferInstanceAs (Decidable (3 ≤ a ∧ ¬(16 ≤ a ∧ a < 256)))

/-- The snapshot after so many steps that do not end the run. -/
def after (code : List Instruction) : Nat → Snapshot → Snapshot
  | 0, x => x
  | n + 1, x =>
    match x.next code with
    | some (none, y) => after code n y
    | _ => x

/-- So many steps keep the rules of a disciplined run. -/
def keeps (access : Access) [DecidablePred access.reads] [DecidablePred access.writes]
    (code : List Instruction) : Nat → Snapshot → Bool
  | 0, x => x.inRoom
  | n + 1, x =>
    match code[x.pc]?, x.next code with
    | some i, some (none, y) => Disciplined access x.state i.op && keeps access code n y
    | _, _ => false

/-- The snapshot in which a fresh machine starts a function. -/
def started (entry : Nat) : Snapshot :=
  let x : Snapshot := { writes := [(0, pointer 256)] }
  { writes := x.frame 256 0 ++ x.writes, pc := entry }

theorem state_started (entry : Nat) :
    (started entry).state = { ram := opening (.replicate ramSize 0), pc := entry } := by
  exact congrArg (fun ram => ({ ram, pc := entry } : State))
    (written_frame { writes := [(0, pointer 256)] } 256 0)

section Runs

variable {access : Access} [DecidablePred access.reads] [DecidablePred access.writes]
  {p : Program} {n : Nat} {x : Snapshot}

/-- A run that is checked keeps the rules in every step. -/
theorem keeps_spec (h : keeps access p.instructions.toList n x) :
    (∀ i < n, step p (after p.instructions.toList i x).state =
        .ok none (after p.instructions.toList (i + 1) x).state ∧
      ∀ instruction, p.instructions[(after p.instructions.toList i x).pc]? = some instruction →
        Disciplined access (after p.instructions.toList i x).state instruction.op) ∧
    ∀ i ≤ n, (after p.instructions.toList i x).state.InRoom := by
  induction n generalizing x with
  | zero =>
      refine ⟨fun i hi => absurd hi (Nat.not_lt_zero i), fun i hi => ?_⟩
      rw [Nat.le_zero.mp hi]
      exact inRoom_of_inRoom h
  | succ n ih =>
      unfold keeps at h
      split at h
      · rename_i i y hop hnext
        obtain ⟨hdisciplined, hrest⟩ := Bool.and_eq_true_iff.mp h
        obtain ⟨hsteps, hroom⟩ := ih hrest
        have hafter (k : Nat) :
            after p.instructions.toList (k + 1) x = after p.instructions.toList k y := by
          simp only [after, hnext]
        refine ⟨fun k hk => ?_, fun k hk => ?_⟩
        · cases k with
          | zero =>
              refine ⟨?_, fun instruction hinstruction => ?_⟩
              · rw [hafter]
                exact step_state hnext
              · rw [after, ← Array.getElem?_toList, hop] at hinstruction
                cases hinstruction
                exact of_decide_eq_true hdisciplined
          | succ k =>
              rw [hafter, hafter]
              exact hsteps k (Nat.lt_of_succ_lt_succ hk)
        · cases k with
          | zero => exact inRoom_of_next hnext
          | succ k =>
              rw [hafter]
              exact hroom k (Nat.le_of_succ_le_succ hk)
      · cases h

theorem disciplinedRun_of_keeps {entry : Nat} (hentry : p.functions["Sys.init"]? = some entry)
    (h : keeps access p.instructions.toList n (started entry)) :
    DisciplinedRun access p n fun i => (after p.instructions.toList i (started entry)).state := by
  obtain ⟨hsteps, hroom⟩ := keeps_spec h
  refine ⟨⟨entry, hentry, ?_⟩, fun i hi => (hsteps i hi).1, fun i hi => (hsteps i hi).2, hroom⟩
  rw [after, state_started, prepare_eq]

end Runs

end Snapshot

end JackToolchain.Machine
