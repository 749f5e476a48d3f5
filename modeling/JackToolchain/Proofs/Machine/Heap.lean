import JackToolchain.Proofs.Machine.Advance
import JackToolchain.Proofs.Machine.OpenCalls

/-!
# The heap

Routines of allocation take words off the heap, and never give any back. What they hand out is never
handed out again, over all runs of a machine. A string writes its header and its characters into
words of its own, except that a string of negative capacity owns less than a header.
-/

namespace JackToolchain.Machine

open JackToolchain.Memory JackToolchain.Stack

/-- Words that belong together, from an address on. -/
structure Block where
  start : Int
  size : Int
  deriving DecidableEq

namespace Block

instance : Membership Int Block := ⟨fun b a => b.start ≤ a ∧ a < b.start + b.size⟩

theorem mem_iff {b : Block} {a : Int} : a ∈ b ↔ b.start ≤ a ∧ a < b.start + b.size := Iff.rfl

end Block

namespace Routine

/-- What a caller owns that passes an argument to a routine of allocation: as many words, or a
header and as many characters. -/
def owned? : Routine → Int16 → Option Int
  | alloc, size | newArray, size => some size.toInt
  | newString, capacity => some (capacity.toInt + 2)
  | _, _ => none

def allocates : Routine → Bool
  | alloc | newArray | newString => true
  | _ => false

end Routine

/-- The block that the next step hands out, if it calls a routine of allocation and succeeds. -/
def granted? (p : Program) (s : State) : Option Block :=
  match p.instructions[s.pc]? with
  | some ⟨.call (.host routine) _, owner⟩ =>
    match pop owner s, callRoutine owner routine s, step p s with
    | .ok argument _, .ok object _, .ok .. =>
      (routine.owned? argument).map (Block.mk object.toInt)
    | _, _, _ => none
  | _ => none

/-- States that runs of a program reach on one machine, with the blocks that have been handed out,
the latest first. No limit stops the steps, and one that fails may be followed by others. -/
inductive Reached (p : Program) : State → List Block → Prop
  | first : Reached p {} []
  | enter {s t : State} {blocks : List Block} {entry : Nat} (hs : Reached p s blocks)
    (h : prepare entry s = .ok () t) : Reached p t blocks
  | step {s : State} {blocks : List Block} (hs : Reached p s blocks) :
    Reached p (stateOf (step p s)) ((granted? p s).toList ++ blocks)

/-! ## The stack, wherever it stands -/

/-- The state when the stack has lost a word. -/
def State.dropped (s : State) : State := { s with ram := put s.ram 0 (word s.ram 0 - 1) }

section Stack

variable {owner : String} {s t : State} {w : Int16} {a : Nat}

theorem word_dropped_zero (s : State) : word s.dropped.ram 0 = word s.ram 0 - 1 :=
  word_put_self _ _ (by decide)

theorem word_dropped_of_ne (s : State) (ha : a ≠ 0) : word s.dropped.ram a = word s.ram a :=
  word_put_of_ne _ _ (Ne.symm ha)

theorem pop_eq (owner : String) (s : State) :
    pop owner s = readWord owner (word s.ram 0 - 1).toInt s.dropped := by
  unfold pop
  rw [bind_of_ok (getRegister_run .stack s), bind_of_ok (setRegister_run ..)]
  rfl

theorem readWord_cases (owner : String) (address : Int) (s : State) :
    (∃ a : Nat, address = a ∧ a < 32768 ∧ readWord owner address s = .ok (word s.ram a) s) ∨
      ∃ e, readWord owner address s = .error e s := by
  by_cases h : 0 ≤ address ∧ address < 32768
  · obtain ⟨a, rfl⟩ := Int.eq_ofNat_of_zero_le h.1
    have ha : a < 32768 := by omega
    exact .inl ⟨a, rfl, ha, readWord_run owner s ha⟩
  · have hbound : ¬(0 ≤ address ∧ address.toNat < ramSize) := by
      have hsize : ramSize = 32768 := rfl
      omega
    refine .inr ⟨.invalidAddress owner address, ?_⟩
    simp only [readWord, hbound, dite_false]

/-- A word that is popped stood at an address. -/
theorem pop_cases (owner : String) (s : State) :
    (∃ a : Nat, (word s.ram 0 - 1).toInt = a ∧ pop owner s = .ok (word s.dropped.ram a) s.dropped) ∨
      ∃ e, pop owner s = .error e s.dropped := by
  rw [pop_eq]
  rcases readWord_cases owner (word s.ram 0 - 1).toInt s.dropped with ⟨a, ha, -, hread⟩ | h
  · exact .inl ⟨a, ha, hread⟩
  · exact .inr h

theorem exists_address_of_pop (h : pop owner s = .ok w t) :
    ∃ a : Nat, (word s.ram 0 - 1).toInt = a := by
  rcases pop_cases owner s with ⟨a, ha, -⟩ | ⟨e, he⟩
  · exact ⟨a, ha⟩
  · rw [he] at h
    cases h

/-- A push onto a stack that points to an address writes there. -/
theorem push_of_address (owner : String) (w : Int16) (ha : (word s.ram 0).toInt = a) :
    ∃ m, push owner w s = .ok () { s with ram := m } ∧
      ∀ b, b ≠ 0 → b ≠ a → word m b = word s.ram b := by
  have hlt : a < 32768 := by
    have hword := Int16.toInt_lt (word s.ram 0)
    omega
  unfold push
  rw [bind_of_ok (getRegister_run .stack s), address_stack, ha,
    bind_of_ok (writeWord_run owner w s hlt), bind_of_ok (getRegister_run .stack _),
    setRegister_run]
  refine ⟨_, rfl, fun b hb hne => ?_⟩
  rw [address_stack, word_put_of_ne _ _ (Ne.symm hb), word_put_of_ne _ _ (Ne.symm hne)]

end Stack

/-! ## Allocation -/

section Allocation

variable {owner : String} {s : State} {routine : Routine} {size capacity : Int16}

/-- A block of that size cannot be handed out. -/
def Refused (s : State) (size : Int) : Prop := size < 0 ∨ heapEnd < s.heapNext + size

/-- The words of a string. Only a sum that no heap has room for wraps. -/
theorem toInt_add_two (capacity : Int16) :
    (capacity + 2).toInt = capacity.toInt + 2 ∨
      (capacity + 2).toInt < 0 ∧ 32768 ≤ capacity.toInt + 2 := by
  have hlow := Int16.le_toInt capacity
  have hhigh := Int16.toInt_lt capacity
  have hsum : (capacity + 2).toInt = (capacity.toInt + 2).bmod (2 ^ 16) := Int16.toInt_add ..
  rw [hsum, Int.bmod_def]
  omega

/-- A string gets a header, or nothing changes. -/
theorem newString_cases (owner : String) (capacity : Int16) (hnext : s.heapNext ≤ heapEnd) :
    (0 ≤ capacity.toInt + 2 ∧ s.heapNext + (capacity.toInt + 2) ≤ heapEnd ∧
      newString owner capacity s = .ok (pointer s.heapNext) { s with
        heapNext := s.heapNext + (capacity.toInt + 2).toNat
        ram := put (put s.ram s.heapNext 0) (s.heapNext + 1) capacity }) ∨
      ∃ e, Refused s (capacity.toInt + 2) ∧ newString owner capacity s = .error e s := by
  have hend : heapEnd = 16384 := rfl
  have hsum := toInt_add_two capacity
  unfold newString
  rcases alloc_cases owner .newString (capacity + 2) s with
    ⟨hsize, hroom, halloc⟩ | ⟨e, hrefused, halloc⟩
  · replace hsum : (capacity + 2).toInt = capacity.toInt + 2 := by omega
    rw [hsum] at hsize hroom halloc
    refine .inl ⟨hsize, hroom, ?_⟩
    have hobject : (pointer s.heapNext).toInt = s.heapNext := toInt_pointer (by omega)
    have hnextWord : (s.heapNext : Int) + 1 = (s.heapNext + 1 : Nat) := by simp
    rw [bind_of_ok halloc, hobject, bind_of_ok (writeWord_run owner 0 _ (by omega)), hnextWord,
      bind_of_ok (writeWord_run owner capacity _ (by omega))]
    rfl
  · refine .inr ⟨e, ?_, by simp only [bind, EStateM.bind, halloc]⟩
    unfold Refused
    omega

/-- Memory when a routine of allocation has written what it writes. -/
def written (routine : Routine) (argument : Int16) (s : State) : Vector Int16 ramSize :=
  match routine with
  | .newString => put (put s.ram s.heapNext 0) (s.heapNext + 1) argument
  | _ => s.ram

theorem word_written_zero (routine : Routine) (argument : Int16) (hlow : heapBase ≤ s.heapNext) :
    word (written routine argument s) 0 = word s.ram 0 := by
  have hbase : heapBase = 2048 := rfl
  unfold written
  split
  · rw [word_put_of_ne _ _ (by omega), word_put_of_ne _ _ (by omega)]
  · rfl

/-- The state when a block has been taken off the heap. -/
def State.handedOut (s : State) (routine : Routine) (argument : Int16) (size : Int) : State :=
  { s with heapNext := s.heapNext + size.toNat, ram := written routine argument s }

/-- A routine of allocation takes its argument off the stack, and then a block off the heap, or
nothing else. -/
theorem callRoutine_cases (owner : String) (hr : routine.allocates = true)
    (hnext : s.heapNext ≤ heapEnd) :
    (∃ argument size, pop owner s = .ok argument s.dropped ∧
      routine.owned? argument = some size ∧ 0 ≤ size ∧ s.heapNext + size ≤ heapEnd ∧
      callRoutine owner routine s =
        .ok (pointer s.heapNext) (s.dropped.handedOut routine argument size)) ∨
      ∃ e, (∀ argument size, pop owner s = .ok argument s.dropped →
        routine.owned? argument = some size → Refused s size) ∧
        callRoutine owner routine s = .error e s.dropped := by
  have hdropped : s.dropped.heapNext ≤ heapEnd := hnext
  rcases pop_cases owner s with ⟨a, -, hpop⟩ | ⟨e, hpop⟩
  · have hrefused (size : Int) (howned : routine.owned? (word s.dropped.ram a) = some size)
        (h : Refused s size) : ∀ argument size, pop owner s = .ok argument s.dropped →
          routine.owned? argument = some size → Refused s size := by
      intro argument size' hargument hsize
      rw [hpop] at hargument
      cases hargument
      rw [howned] at hsize
      cases hsize
      exact h
    cases routine with
    | alloc | newArray =>
        simp only [callRoutine]
        rw [bind_of_ok hpop]
        rcases alloc_cases owner _ (word s.dropped.ram a) s.dropped with
          ⟨hsize, hroom, h⟩ | ⟨e, he, h⟩
        · exact .inl ⟨_, _, hpop, rfl, hsize, hroom, h⟩
        · exact .inr ⟨e, hrefused _ rfl he, h⟩
    | newString =>
        simp only [callRoutine]
        rw [bind_of_ok hpop]
        rcases newString_cases owner (word s.dropped.ram a) hdropped with
          ⟨hsize, hroom, h⟩ | ⟨e, he, h⟩
        · exact .inl ⟨_, _, hpop, rfl, hsize, hroom, h⟩
        · exact .inr ⟨e, hrefused _ rfl he, h⟩
    | _ => cases hr
  · refine .inr ⟨e, fun argument size hargument => ?_, ?_⟩
    · rw [hpop] at hargument
      cases hargument
    · cases routine with
      | alloc | newArray | newString => simp only [callRoutine, bind, EStateM.bind, hpop]
      | _ => cases hr

end Allocation

/-! ## Steps that call routines -/

section Steps

variable {p : Program} {owner : String} {s t : State} {routine : Routine} {arguments : UInt16}
  {w : Int16} {a : Nat}

theorem step_host (hi : p.instructions[s.pc]? = some ⟨.call (.host routine) arguments, owner⟩) :
    step p s = (callHost owner routine arguments >>= fun _ => do
      goto (s.pc + 1)
      return none) s := by
  rw [step_of_instruction hi]
  rfl

/-- The step fails as the routine does, if it is called at all. -/
theorem step_of_routine_error {e : RunError}
    (hi : p.instructions[s.pc]? = some ⟨.call (.host routine) arguments, owner⟩)
    (h : callRoutine owner routine s = .error e t) :
    ∃ e' u, step p s = .error e' u ∧ (u = s ∨ u = t) := by
  rw [step_host hi]
  unfold callHost
  by_cases harity : arguments.toNat ≠ routine.arity
  · rw [if_pos harity]
    exact ⟨_, _, rfl, .inl rfl⟩
  · rw [if_neg harity]
    simp only [bind, EStateM.bind, h]
    exact ⟨_, _, rfl, .inr rfl⟩

/-- The step pushes the value of the routine, if it is called at all. -/
theorem step_of_routine_ok
    (hi : p.instructions[s.pc]? = some ⟨.call (.host routine) arguments, owner⟩)
    (h : callRoutine owner routine s = .ok w t) (ha : (word t.ram 0).toInt = a) :
    (arguments.toNat ≠ routine.arity ∧ ∃ e, step p s = .error e s) ∨
      ∃ m, step p s = .ok none { t with ram := m, pc := s.pc + 1 } ∧
        ∀ b, b ≠ 0 → b ≠ a → word m b = word t.ram b := by
  rw [step_host hi]
  unfold callHost
  by_cases harity : arguments.toNat ≠ routine.arity
  · rw [if_pos harity]
    exact .inl ⟨harity, _, rfl⟩
  · rw [if_neg harity]
    obtain ⟨m, hpush, hwords⟩ := push_of_address owner w ha
    refine .inr ⟨m, ?_, hwords⟩
    simp only [bind, EStateM.bind, h, hpush]
    rfl

/-- A step that hands out a block: it starts where the heap ended. Besides the stack pointer and the
place of the result, only what the routine writes is changed. -/
structure Grants (p : Program) (s t : State) (routine : Routine) (owner : String)
    (argument : Int16) (size : Int) : Prop where
  taken : pop owner s = .ok argument s.dropped
  owned : routine.owned? argument = some size
  nonneg : 0 ≤ size
  room : s.heapNext + size ≤ heapEnd
  granted : granted? p s = some ⟨s.heapNext, size⟩
  step : step p s = .ok none t
  heapNext : (t.heapNext : Int) = s.heapNext + size
  words : ∀ b : Nat, b ≠ 0 → (b : Int) ≠ (word s.ram 0 - 1).toInt →
    word t.ram b = word (written routine argument s.dropped) b

/-- A step that hands out no block and changes at most the stack pointer. With an argument on the
stack, it is for want of room, or as the size is negative. -/
structure Declines (p : Program) (s : State) (routine : Routine) (owner : String)
    (arguments : UInt16) : Prop where
  reason : arguments.toNat = routine.arity → ∀ argument size,
    pop owner s = .ok argument s.dropped → routine.owned? argument = some size → Refused s size
  granted : granted? p s = none
  step : ∃ e t, step p s = .error e t ∧ t.heapNext = s.heapNext ∧
    ∀ b : Nat, b ≠ 0 → word t.ram b = word s.ram b

/-- A call of a routine of allocation hands out a block, or changes at most the stack pointer. -/
theorem allocation_cases
    (hi : p.instructions[s.pc]? = some ⟨.call (.host routine) arguments, owner⟩)
    (hr : routine.allocates = true) (hlow : heapBase ≤ s.heapNext) (hhigh : s.heapNext ≤ heapEnd) :
    (∃ t argument size, Grants p s t routine owner argument size) ∨
      Declines p s routine owner arguments := by
  have hfail {e : RunError} {t : State} (h : step p s = .error e t) : granted? p s = none := by
    rw [granted?, hi]
    simp only [h]
    split <;> rename_i hok <;> simp_all
  rcases callRoutine_cases owner hr hhigh with
    ⟨argument, size, hpop, howned, hsize, hroom, hroutine⟩ | ⟨e, hrefused, hroutine⟩
  · obtain ⟨a, ha⟩ := exists_address_of_pop hpop
    have hstack : word (s.dropped.handedOut routine argument size).ram 0 = word s.ram 0 - 1 :=
      (word_written_zero (s := s.dropped) routine argument hlow).trans (word_dropped_zero s)
    have hstart : (pointer s.heapNext).toInt = s.heapNext := by
      have hend : heapEnd = 16384 := rfl
      exact toInt_pointer (by omega)
    rcases step_of_routine_ok hi hroutine (hstack ▸ ha) with
      ⟨harity, e, hstep⟩ | ⟨m, hstep, hwords⟩
    · exact .inr ⟨fun h => absurd h harity, hfail hstep, e, s, hstep, rfl, fun _ _ => rfl⟩
    · refine .inl ⟨_, argument, size, hpop, howned, hsize, hroom, ?_, hstep, ?_, fun b hb hne => ?_⟩
      · rw [granted?, hi]
        simp only [hpop, hroutine, hstep, howned, hstart, Option.map_some]
      · have hnext : (s.dropped.handedOut routine argument size).heapNext =
            s.heapNext + size.toNat := rfl
        simp only [hnext]
        omega
      · rw [ha] at hne
        exact hwords b hb (by omega)
  · obtain ⟨e', t, hstep, ht⟩ := step_of_routine_error hi hroutine
    refine .inr ⟨fun _ => hrefused, hfail hstep, e', t, hstep, ?_⟩
    rcases ht with rfl | rfl
    · exact ⟨rfl, fun _ _ => rfl⟩
    · exact ⟨rfl, fun b hb => word_dropped_of_ne s hb⟩

theorem exists_routine_of_granted? {b : Block} (h : granted? p s = some b) :
    ∃ routine arguments owner, routine.allocates = true ∧
      p.instructions[s.pc]? = some ⟨.call (.host routine) arguments, owner⟩ := by
  unfold granted? at h
  split at h
  · rename_i routine arguments owner hi
    refine ⟨routine, arguments, owner, ?_, hi⟩
    split at h
    · obtain ⟨size, hsize, -⟩ := Option.map_eq_some_iff.mp h
      cases routine with
      | alloc | newArray | newString => rfl
      | _ => cases hsize
    · cases h
  · cases h

/-- The words of a string that has just been handed out. All that is written is its header, and the
string owns its header exactly if its capacity is not negative. -/
structure Header (s t : State) (capacity : Int16) (b : Block) : Prop where
  empty : (s.heapNext : Int) ≠ (word s.ram 0 - 1).toInt → word t.ram s.heapNext = 0
  room : (s.heapNext + 1 : Int) ≠ (word s.ram 0 - 1).toInt →
    word t.ram (s.heapNext + 1) = capacity
  others : ∀ a : Nat, a ≠ 0 → (a : Int) ≠ (word s.ram 0 - 1).toInt → a ≠ s.heapNext →
    a ≠ s.heapNext + 1 → word t.ram a = word s.ram a
  owned_iff : (s.heapNext : Int) ∈ b ∧ (s.heapNext : Int) + 1 ∈ b ↔
    0 ≤ capacity.toInt

theorem Grants.header {capacity : Int16} {size : Int} (hlow : heapBase ≤ s.heapNext)
    (h : Grants p s t .newString owner capacity size) :
    Header s t capacity ⟨s.heapNext, size⟩ := by
  have hbase : heapBase = 2048 := rfl
  have hend : heapEnd = 16384 := rfl
  have hram : ramSize = 32768 := rfl
  have hroom := h.room
  have hsize := h.nonneg
  have howned : size = capacity.toInt + 2 := (Option.some.inj h.owned).symm
  refine ⟨fun hne => ?_, fun hne => ?_, fun a ha hne hfirst hsecond => ?_, ?_⟩
  · rw [h.words _ (by omega) hne]
    have hlt : s.dropped.heapNext < ramSize := by
      change s.heapNext < ramSize
      omega
    exact (word_put_of_ne _ _ (Nat.succ_ne_self _)).trans (word_put_self _ _ hlt)
  · rw [h.words _ (by omega) (by simpa using hne)]
    have hlt : s.dropped.heapNext + 1 < ramSize := by
      change s.heapNext + 1 < ramSize
      omega
    exact word_put_self _ _ hlt
  · rw [h.words a ha hne]
    refine (word_put_of_ne _ _ (Ne.symm hsecond)).trans ?_
    exact (word_put_of_ne _ _ (Ne.symm hfirst)).trans (word_dropped_of_ne s ha)
  · simp only [Block.mem_iff]
    omega

end Steps

/-! ## Blocks that have been handed out -/

/-- Blocks have words of their own, between the start of the heap and where it ends. -/
structure Heap (s : State) (blocks : List Block) : Prop where
  apart : blocks.Pairwise fun b b' => ∀ a, a ∈ b → a ∉ b'
  inside : ∀ b ∈ blocks, heapBase ≤ b.start ∧ 0 ≤ b.size ∧ b.start + b.size ≤ s.heapNext
  low : heapBase ≤ s.heapNext
  high : s.heapNext ≤ heapEnd

namespace Heap

variable {p : Program} {s t : State} {blocks : List Block}

theorem grow (h : Heap s blocks) (hle : s.heapNext ≤ t.heapNext) (hend : t.heapNext ≤ heapEnd) :
    Heap t blocks where
  apart := h.apart
  inside b hb := by
    have hinside := h.inside b hb
    omega
  low := h.low.trans hle
  high := hend

/-- A block that is handed out lies behind all others. -/
theorem grant (h : Heap s blocks) {routine : Routine} {owner : String} {argument : Int16}
    {size : Int} (hgrants : Grants p s t routine owner argument size) :
    Heap t (⟨s.heapNext, size⟩ :: blocks) := by
  have hsize := hgrants.nonneg
  have hnext := hgrants.heapNext
  have hroom := hgrants.room
  have hlow := h.low
  refine ⟨List.pairwise_cons.mpr ⟨fun b hb => ?_, h.apart⟩, List.forall_mem_cons.mpr ⟨?_, ?_⟩,
    ?_, ?_⟩
  · have hinside := h.inside b hb
    intro a ha ha'
    simp only [Block.mem_iff] at ha ha'
    omega
  · simp only
    omega
  · intro b hb
    have hinside := h.inside b hb
    omega
  · omega
  · omega

theorem step (h : Heap s blocks) :
    Heap (stateOf (step p s)) ((granted? p s).toList ++ blocks) := by
  cases hgranted : granted? p s with
  | none =>
      obtain ⟨hle, hend⟩ := (advance_heapNext.step p).onward s
      exact h.grow hle (hend h.high)
  | some b =>
      obtain ⟨routine, arguments, owner, hr, hi⟩ := exists_routine_of_granted? hgranted
      rcases allocation_cases hi hr h.low h.high with ⟨t, argument, size, hgrants⟩ | hdeclines
      · obtain rfl : b = ⟨s.heapNext, size⟩ := by
          rw [hgrants.granted] at hgranted
          exact (Option.some.inj hgranted).symm
        rw [hgrants.step]
        exact h.grant hgrants
      · rw [hdeclines.granted] at hgranted
        cases hgranted

theorem of_reached (h : Reached p s blocks) : Heap s blocks := by
  induction h with
  | first => exact ⟨.nil, by simp, le_rfl, by decide⟩
  | enter _ h ih =>
      rw [prepare_eq] at h
      cases h
      exact ih.grow le_rfl ih.high
  | step _ ih => exact ih.step

end Heap

/-! ## Appending -/

section Append

variable {p : Program} {owner : String} {s : State} {arguments : UInt16} {c object : Int16}
  {b : Block}

/-- The header of a string holds the capacity it was made with, and a length, which is not
negative. -/
structure Intact (s : State) (b : Block) : Prop where
  length : 0 ≤ (word s.ram b.start.toNat).toInt
  capacity : (word s.ram (b.start.toNat + 1)).toInt + 2 = b.size

/-- An intact string is appended to inside of its words. -/
theorem words_of_appendChar (hlow : heapBase ≤ b.start) (hsize : 0 ≤ b.size)
    (hhigh : b.start + b.size ≤ heapEnd) (hstart : object.toInt = b.start) (hintact : Intact s b) :
    ∀ a : Nat, (a : Int) ∉ b →
      word (stateOf (appendChar owner object c s)).ram a = word s.ram a := by
  obtain ⟨start, size⟩ := b
  obtain ⟨hlength, hcapacity⟩ := hintact
  simp only at hlow hsize hhigh hstart hlength hcapacity
  have hend : heapEnd = 16384 := rfl
  have hbase : heapBase = 2048 := rfl
  obtain ⟨n, rfl⟩ := Int.eq_ofNat_of_zero_le (show 0 ≤ start by omega)
  rw [Int.toNat_natCast] at hlength hcapacity
  have hnext : (n : Int) + 1 = (n + 1 : Nat) := by simp
  intro a ha
  simp only [Block.mem_iff] at ha
  unfold appendChar
  rw [hstart, bind_of_ok (readWord_run owner s (by omega)), hnext,
    bind_of_ok (readWord_run owner s (by omega))]
  by_cases hfull : word s.ram (n + 1) ≤ word s.ram n
  · rw [if_pos hfull]
    rfl
  · rw [if_neg hfull]
    rw [Int16.le_iff_toInt_le] at hfull
    obtain ⟨k, hk⟩ := Int.eq_ofNat_of_zero_le hlength
    have hplace : (n : Int) + 2 + (word s.ram n).toInt = (n + 2 + k : Nat) := by
      rw [hk]
      simp
    change word (stateOf ((writeWord owner _ c >>= fun _ => writeWord owner _ _) s)).ram a = _
    rw [hplace, bind_of_ok (writeWord_run owner c s (by omega)),
      writeWord_run owner _ _ (by omega)]
    simp only [stateOf]
    rw [word_put_of_ne _ _ (by omega), word_put_of_ne _ _ (by omega)]

/-- The header is not where the stack pointer stands. -/
theorem Intact.dropped (h : Intact s b) (hlow : heapBase ≤ b.start) : Intact s.dropped b where
  length := by
    have hbase : heapBase = 2048 := rfl
    rw [word_dropped_of_ne s (by omega)]
    exact h.length
  capacity := by
    rw [word_dropped_of_ne s (by omega)]
    exact h.capacity

theorem callRoutine_appendChar (hpop : pop owner s = .ok c s.dropped)
    (hobject : pop owner s.dropped = .ok object s.dropped.dropped) :
    callRoutine owner .appendChar s =
      (appendChar owner object c >>= fun _ => Pure.pure object) s.dropped.dropped := by
  simp only [callRoutine]
  rw [bind_of_ok hpop, bind_of_ok hobject]

/-- A step that appends to an intact string writes its words, the stack pointer and the place of the
result. -/
theorem words_of_append
    (hi : p.instructions[s.pc]? = some ⟨.call (.host .appendChar) arguments, owner⟩)
    (hpop : pop owner s = .ok c s.dropped)
    (hobject : pop owner s.dropped = .ok object s.dropped.dropped)
    (hlow : heapBase ≤ b.start) (hsize : 0 ≤ b.size) (hhigh : b.start + b.size ≤ heapEnd)
    (hstart : object.toInt = b.start) (hintact : Intact s b) :
    ∀ a : Nat, a ≠ 0 → (a : Int) ≠ (word s.ram 0 - 1 - 1).toInt → (a : Int) ∉ b →
      word (stateOf (step p s)).ram a = word s.ram a := by
  have hroutine := callRoutine_appendChar hpop hobject
  obtain ⟨place, hplace⟩ := exists_address_of_pop hobject
  set t := s.dropped.dropped with ht
  have hstack : word t.ram 0 = word s.ram 0 - 1 - 1 := by
    rw [ht, word_dropped_zero, word_dropped_zero]
  have hdropped {a : Nat} (ha : a ≠ 0) : word t.ram a = word s.ram a :=
    (word_dropped_of_ne s.dropped ha).trans (word_dropped_of_ne s ha)
  have hwords : ∀ a : Nat, (a : Int) ∉ b →
      word (stateOf (appendChar owner object c t)).ram a = word t.ram a :=
    words_of_appendChar hlow hsize hhigh hstart ((hintact.dropped hlow).dropped hlow)
  intro a ha hne hout
  rw [word_dropped_zero] at hplace
  rw [hplace] at hne
  cases happend : appendChar owner object c t with
  | error e u =>
      rw [happend] at hwords
      simp only [bind, EStateM.bind, happend] at hroutine
      obtain ⟨e', v, hstep, hv⟩ := step_of_routine_error hi hroutine
      rw [hstep]
      rcases hv with rfl | rfl
      · rfl
      · exact (hwords a hout).trans (hdropped ha)
  | ok value u =>
      rw [happend] at hwords
      rw [bind_of_ok happend] at hroutine
      have hzero : word u.ram 0 = word s.ram 0 - 1 - 1 := by
        have hbase : heapBase = 2048 := rfl
        refine (hwords 0 ?_).trans hstack
        simp only [Block.mem_iff]
        omega
      rcases step_of_routine_ok hi hroutine (hzero ▸ hplace) with ⟨-, e, hstep⟩ | ⟨m, hstep, hm⟩
      · rw [hstep]
        rfl
      · rw [hstep]
        exact (hm a ha (by omega)).trans ((hwords a hout).trans (hdropped ha))

end Append

/-! ## Runs -/

section Runs

variable {p : Program} {limit : Nat} {s : State} {blocks : List Block}

theorem exists_reached_iterate (fuel count : Nat) (h : Reached p s blocks) :
    ∃ more, Reached p (iterate p fuel count s).2.2 (more ++ blocks) := by
  induction fuel generalizing count s blocks with
  | zero => exact ⟨[], h⟩
  | succ fuel ih =>
      have hstep := h.step
      simp only [iterate]
      cases hresult : step p s with
      | error e t =>
          rw [hresult] at hstep
          exact ⟨_, hstep⟩
      | ok value t =>
          rw [hresult] at hstep
          cases value with
          | some value => exact ⟨_, hstep⟩
          | none =>
              obtain ⟨more, hmore⟩ := ih (count + 1) hstep
              rw [← List.append_assoc] at hmore
              exact ⟨_, hmore⟩

theorem state_conclude (outcome : Halt × Nat × State) :
    (conclude limit outcome).2.state = outcome.2.2 := by
  obtain ⟨halt, count, s⟩ := outcome
  cases halt <;> rfl

/-- A run hands out blocks behind those that have been handed out, and its heap grows. -/
theorem exists_reached_run {m : Machine} (entry : String) (h : Reached p m.state blocks) :
    (∃ more, Reached p (run p limit m entry).2.state (more ++ blocks)) ∧
      m.state.heapNext ≤ (run p limit m entry).2.state.heapNext := by
  rw [run_eq]
  cases p.functions[entry]? with
  | none => exact ⟨⟨[], h⟩, le_rfl⟩
  | some start =>
      simp only [resume]
      rw [state_conclude]
      refine ⟨exists_reached_iterate _ _ (h.enter (prepare_eq start m.state)), ?_⟩
      exact (advance_heapNext.iterate p _ _
        { m.state with ram := opening m.state.ram, pc := start }).1

theorem exists_reached_afterRuns (entries : List String) :
    ∃ blocks, Reached p (afterRuns p limit {} entries).state blocks := by
  induction entries using List.reverseRecOn with
  | nil => exact ⟨[], .first⟩
  | append_singleton front entry ih =>
      rw [afterRuns, List.foldl_append, List.foldl_cons, List.foldl_nil, ← afterRuns]
      obtain ⟨blocks, hblocks⟩ := ih
      obtain ⟨more, hmore⟩ := (exists_reached_run entry hblocks).1
      exact ⟨_, hmore⟩

end Runs

/-- What a step does to the heap. -/
structure StepOnHeap (p : Program) (s : State) (blocks : List Block) : Prop where
  /-- It never shrinks. -/
  grows : s.heapNext ≤ (stateOf (step p s)).heapNext
  /-- A block is handed out behind all others, or no word but the stack pointer is changed. -/
  allocation : ∀ routine arguments owner, routine.allocates = true →
    p.instructions[s.pc]? = some ⟨.call (.host routine) arguments, owner⟩ →
      (∃ t argument size, Grants p s t routine owner argument size) ∨
        Declines p s routine owner arguments
  /-- A string that is handed out gets a header. -/
  header : ∀ t owner capacity size, Grants p s t .newString owner capacity size →
    Header s t capacity ⟨s.heapNext, size⟩
  /-- An intact string is appended to inside of its words. -/
  append : ∀ b ∈ blocks, Intact s b → ∀ arguments owner c object,
    p.instructions[s.pc]? = some ⟨.call (.host .appendChar) arguments, owner⟩ →
      pop owner s = .ok c s.dropped → pop owner s.dropped = .ok object s.dropped.dropped →
        object.toInt = b.start →
          ∀ a : Nat, a ≠ 0 → (a : Int) ≠ (word s.ram 0 - 1 - 1).toInt → (a : Int) ∉ b →
            word (stateOf (step p s)).ram a = word s.ram a

theorem Heap.stepOnHeap {s : State} {blocks : List Block} (p : Program) (h : Heap s blocks) :
    StepOnHeap p s blocks where
  grows := ((advance_heapNext.step p).onward s).1
  allocation _ _ _ hr hi := allocation_cases hi hr h.low h.high
  header t owner capacity size hgrants := hgrants.header h.low
  append b hb hintact arguments owner c object hi hpop hobject hstart := by
    obtain ⟨hlow, hsize, hend⟩ := h.inside b hb
    have hhigh := h.high
    exact words_of_append hi hpop hobject hlow hsize (by omega) hstart hintact

/-- Over all runs of a machine, the blocks that are handed out are apart and inside the heap, which
never shrinks. An allocation that fails takes nothing, strings are appended to inside of their
words, and a new string writes its own words exactly if its capacity is not negative. -/
theorem heap_of_runs (p : Program) (limit : Nat) :
    (∀ entries, ∃ blocks, Reached p (afterRuns p limit {} entries).state blocks) ∧
      (∀ m blocks entry, Reached p m.state blocks →
        (∃ more, Reached p (run p limit m entry).2.state (more ++ blocks)) ∧
          m.state.heapNext ≤ (run p limit m entry).2.state.heapNext) ∧
      ∀ s blocks, Reached p s blocks → Heap s blocks ∧ StepOnHeap p s blocks := by
  refine ⟨exists_reached_afterRuns, fun m blocks entry h => exists_reached_run entry h, ?_⟩
  intro s blocks h
  have hheap := Heap.of_reached h
  exact ⟨hheap, hheap.stepOnHeap p⟩

/-! ## A string of negative capacity -/

def negativeFiles : List SourceFile :=
  [("Main", [.function "Main.main" 0, .push .constant 2, .arithmetic .neg, .call "String.new" 1])]

def negativeProgram : Program where
  instructions := #[⟨.enter 0, "Main.main"⟩, ⟨.push (.constant 2), "Main.main"⟩,
    ⟨.arithmetic .neg, "Main.main"⟩, ⟨.call (.host .newString) 1, "Main.main"⟩]
  functions := ({} : Std.HashMap String Nat).insert "Main.main" 0

theorem link_negativeFiles : Program.link negativeFiles = .ok negativeProgram := by
  simp [Program.link, negativeFiles, owned, Directory.add, linkFiles, linkCommands, resolve,
    staticCount, staticsOf, staticBase, staticEnd, negativeProgram, Directory.target, bind,
    Except.bind, pure, Except.pure, locate, Routine.ofName?, Routine.all, Routine.name]

theorem reached_of_step {p : Program} {s t : State} {blocks : List Block}
    (h : Reached p s blocks) (hgranted : granted? p s = none) (hstep : step p s = .ok none t) :
    Reached p t blocks := by
  have hnext := h.step
  rw [hgranted, hstep] at hnext
  exact hnext

/-- The state in front of the call, with its argument on the stack. -/
theorem exists_negative : ∃ s, Reached negativeProgram s [] ∧ s.pc = 3 ∧ s.heapNext = heapBase ∧
    word s.ram 0 = pointer 262 ∧ word s.ram 261 = -2 := by
  set m := opening (.replicate ramSize 0) with hm
  have hstack : word m 0 = pointer 261 := (word_opening _).1
  have hpushed : word (pushed m 261 2) 0 = pointer 262 := word_pushed_zero _ _ _ (by decide)
  have hopened : Reached negativeProgram { ram := m, pc := 0 } [] :=
    Reached.first.enter (prepare_eq 0 {})
  have hentered : Reached negativeProgram { ram := m, pc := 1 } [] :=
    reached_of_step hopened rfl (step_enter_zero rfl)
  have htwo : Reached negativeProgram { ram := pushed m 261 2, pc := 2 } [] := by
    refine reached_of_step hentered rfl ((step_of_instruction rfl).trans ?_)
    exact execute_push 1 (load_constant ..) hstack (by decide) (by decide)
  refine ⟨_, reached_of_step htwo rfl ((step_of_instruction rfl).trans (execute_arithmetic 2
    (arithmetic_unary rfl hpushed (by decide) (by decide)))), rfl, rfl, ?_, ?_⟩
  · exact word_pushed_zero _ _ _ (by decide)
  · refine (word_pushed_self _ _ (by decide) (by decide)).trans ?_
    rw [if_pos rfl]
    exact congrArg _ (word_pushed_self _ _ (by decide) (by decide))

/-- The string gets no words, and its capacity is written all the same. -/
theorem heap_of_negative : ∃ s t, Program.link negativeFiles = .ok negativeProgram ∧
    Reached negativeProgram s [] ∧ Grants negativeProgram s t .newString "Main.main" (-2) 0 ∧
      word t.ram 2049 = -2 ∧ (2049 : Int) ∉ (⟨2048, 0⟩ : Block) := by
  obtain ⟨s, hreached, hpc, hnext, hstack, htop⟩ := exists_negative
  have hi : negativeProgram.instructions[s.pc]? =
      some ⟨.call (.host .newString) 1, "Main.main"⟩ := by
    rw [hpc]
    rfl
  have hplace : (word s.ram 0 - 1).toInt = 261 := by
    rw [hstack]
    rfl
  have hpop : pop "Main.main" s = .ok (-2) s.dropped := by
    rw [pop_eq, hplace, ← htop, ← word_dropped_of_ne s (by decide)]
    exact readWord_run _ _ (by decide)
  have hstep := ((heap_of_runs negativeProgram 10).2.2 s [] hreached).2
  rcases hstep.allocation .newString 1 "Main.main" rfl hi with
    ⟨t, argument, size, hgrants⟩ | hdeclines
  · have hargument := hgrants.taken
    rw [hpop] at hargument
    cases hargument
    obtain rfl : size = 0 := (Option.some.inj hgrants.owned).symm
    have hroom := (hstep.header t _ _ _ hgrants).room
    rw [hplace, hnext] at hroom
    exact ⟨s, t, link_negativeFiles, hreached, hgrants, hroom (by decide), by
      simp [Block.mem_iff]⟩
  · have hrefused := hdeclines.reason rfl (-2) 0 hpop rfl
    rw [Refused, hnext] at hrefused
    exact absurd hrefused (by decide)

end JackToolchain.Machine
