import JackToolchain.Proofs.Machine.Actions

/-!
# Steps of the machine

What each operation leaves in memory, as an equation for its step: the conditions are those under
which it neither fails nor touches memory outside of the addresses that it names.
-/

namespace JackToolchain.Machine

open JackToolchain.Memory JackToolchain.Stack

/-- Where a location points; a constant points nowhere. -/
def Location.resolve (m : Vector Int16 ramSize) : Location → Int
  | .constant _ => -1
  | .fixed address => address
  | .based register offset => (word m register.address).toInt + offset.toNat

theorem addressOf_run (location : Location) (s : State) :
    addressOf location s = .ok (location.resolve s.ram) s := by
  cases location with
  | constant value => rfl
  | fixed address => rfl
  | based register offset =>
      have hread : (getRegister register >>= fun w => pure (w.toInt + (offset.toNat : Int))) s =
          .ok ((word s.ram register.address).toInt + offset.toNat) s := by
        rw [bind_of_ok (getRegister_run register s), pure_run]
      exact hread

theorem load_constant (owner : String) (value : UInt16) (s : State) :
    load owner (.constant value) s = .ok value.toInt16 s := rfl

theorem load_run {owner : String} {location : Location} {s : State} {a : Nat}
    (ha : location.resolve s.ram = a) (hlt : a < 32768) :
    load owner location s = .ok (word s.ram a) s := by
  have hread : (addressOf location >>= fun address => readWord owner address) s =
      .ok (word s.ram a) s := by
    rw [bind_of_ok (addressOf_run location s), ha, readWord_run owner s hlt]
  cases location with
  | constant value =>
      simp only [Location.resolve] at ha
      omega
  | fixed address => exact hread
  | based register offset => exact hread

theorem store_run {owner : String} {location : Location} {s : State} {a : Nat} (w : Int16)
    (ha : location.resolve s.ram = a) (hlt : a < 32768) :
    store owner location w s = .ok () { s with ram := put s.ram a w } := by
  unfold store
  rw [bind_of_ok (addressOf_run location s), ha, writeWord_run owner w s hlt]

/-- An access that succeeds points into memory. -/
theorem bounds_of_load {owner : String} {register : Register} {offset : UInt16} {w : Int16}
    {s s' : State} (h : load owner (.based register offset) s = .ok w s') :
    0 ≤ (Location.based register offset).resolve s.ram ∧
      (Location.based register offset).resolve s.ram < 32768 := by
  have hload : (addressOf (.based register offset) >>= fun address => readWord owner address) s =
      .ok w s' := h
  rw [bind_of_ok (addressOf_run _ s)] at hload
  exact bounds_of_readWord hload

theorem bounds_of_store {owner : String} {location : Location} {w : Int16} {s s' : State}
    (h : store owner location w s = .ok () s') :
    0 ≤ location.resolve s.ram ∧ location.resolve s.ram < 32768 := by
  unfold store at h
  rw [bind_of_ok (addressOf_run location s)] at h
  exact bounds_of_writeWord h

/-- Pops move no register but the stack pointer. -/
theorem resolve_popped {location : Location} {m : Vector Int16 ramSize} (sp : Nat)
    (hbase : ∀ offset, location ≠ .based .stack offset) :
    location.resolve (popped m sp) = location.resolve m := by
  cases location with
  | constant value => rfl
  | fixed address => rfl
  | based register offset =>
      have hne : 0 ≠ (register.address : Nat) := by
        cases register with
        | stack => exact absurd rfl (hbase offset)
        | locals | arguments | this | that => decide
      simp only [Location.resolve, popped, word_put_of_ne _ _ hne]

section Execute

variable {owner : String} {s : State} {sp : Nat}

theorem execute_push {location : Location} {w : Int16} (address : Nat)
    (hload : load owner location s = .ok w s) (hsp : word s.ram 0 = pointer sp) (hpos : 0 < sp)
    (hlt : sp < 32768) :
    execute address owner (.push location) s =
      .ok none { s with ram := pushed s.ram sp w, pc := address + 1 } := by
  simp only [execute]
  rw [bind_of_ok hload, bind_of_ok (push_run w hsp hpos hlt)]
  rfl

theorem bounds_of_execute_push {register : Register} {offset : UInt16} {address : Nat} {s' : State}
    (h : execute address owner (.push (.based register offset)) s = .ok none s') :
    0 ≤ (Location.based register offset).resolve s.ram ∧
      (Location.based register offset).resolve s.ram < 32768 := by
  simp only [execute] at h
  obtain ⟨w, t, hload, -⟩ := bind_eq_ok h
  exact bounds_of_load hload

theorem bounds_of_execute_pop {location : Location} {address : Nat} {s' : State}
    (hbase : ∀ offset, location ≠ .based .stack offset)
    (h : execute address owner (.pop location) s = .ok none s')
    (hsp : word s.ram 0 = pointer sp) (hpos : 1 < sp) (hle : sp ≤ 32768) :
    0 ≤ location.resolve s.ram ∧ location.resolve s.ram < 32768 := by
  simp only [execute] at h
  rw [bind_of_ok (pop_run hsp hpos hle)] at h
  obtain ⟨w, t, hstore, -⟩ := bind_eq_ok h
  have hbounds := bounds_of_store hstore
  rw [resolve_popped sp hbase] at hbounds
  exact hbounds

theorem execute_pop {location : Location} {a : Nat} (address : Nat)
    (hbase : ∀ offset, location ≠ .based .stack offset)
    (ha : location.resolve s.ram = a) (hlt : a < 32768)
    (hsp : word s.ram 0 = pointer sp) (hpos : 1 < sp) (hle : sp ≤ 32768) :
    execute address owner (.pop location) s =
      .ok none { s with
        ram := put (popped s.ram sp) a (word s.ram (sp - 1)), pc := address + 1 } := by
  simp only [execute]
  rw [bind_of_ok (pop_run hsp hpos hle)]
  have hstore : store owner location (word s.ram (sp - 1)) { s with ram := popped s.ram sp } =
      .ok () { s with ram := put (popped s.ram sp) a (word s.ram (sp - 1)) } := by
    apply store_run _ _ hlt
    rw [resolve_popped sp hbase, ha]
  rw [bind_of_ok hstore]
  rfl

theorem arithmetic_unary {op : Arithmetic} (hop : op.arity = 1) (hsp : word s.ram 0 = pointer sp)
    (hpos : 1 < sp) (hle : sp ≤ 32768) :
    arithmetic owner op s =
      .ok () { s with
        ram := pushed (popped s.ram sp) (sp - 1)
          (if op = .neg then -word s.ram (sp - 1) else ~~~word s.ram (sp - 1)) } := by
  have hpush (w : Int16) : push owner w { s with ram := popped s.ram sp } =
      .ok () { s with ram := pushed (popped s.ram sp) (sp - 1) w } :=
    push_run w (word_popped_zero _ _ (by decide)) (by omega) (by omega)
  unfold arithmetic
  rw [bind_of_ok (pop_run hsp hpos hle)]
  cases op with
  | neg => exact hpush _
  | not => exact hpush _
  | add | sub | eq | gt | lt | and | or => cases hop

theorem arithmetic_binary {op : Arithmetic} (hop : op.arity = 2) (hsp : word s.ram 0 = pointer sp)
    (hpos : 2 < sp) (hle : sp ≤ 32768) :
    arithmetic owner op s =
      .ok () { s with
        ram := pushed (popped (popped s.ram sp) (sp - 1)) (sp - 2)
          (combine op (word s.ram (sp - 2)) (word s.ram (sp - 1))) } := by
  have hkeep : word (popped s.ram sp) (sp - 2) = word s.ram (sp - 2) := by
    rw [popped, word_put_of_ne _ _ (by omega)]
  have hpop : pop owner { s with ram := popped s.ram sp } =
      .ok (word s.ram (sp - 2)) { s with ram := popped (popped s.ram sp) (sp - 1) } := by
    rw [pop_run (word_popped_zero _ _ (by decide)) (by omega) (by omega), Nat.sub_sub, hkeep]
  have hpush (w : Int16) : push owner w { s with ram := popped (popped s.ram sp) (sp - 1) } =
      .ok () { s with ram := pushed (popped (popped s.ram sp) (sp - 1)) (sp - 2) w } :=
    push_run w (word_popped_zero _ _ (by decide)) (by omega) (by omega)
  unfold arithmetic
  rw [bind_of_ok (pop_run hsp (by omega) hle)]
  cases op with
  | neg | not => cases hop
  | add | sub | eq | gt | lt | and | or =>
      simp only
      rw [bind_of_ok hpop, hpush]

theorem execute_arithmetic {op : Arithmetic} {m : Vector Int16 ramSize} (address : Nat)
    (h : arithmetic owner op s = .ok () { s with ram := m }) :
    execute address owner (.arithmetic op) s = .ok none { s with ram := m, pc := address + 1 } := by
  simp only [execute]
  rw [bind_of_ok h]
  rfl

theorem execute_skip (address : Nat) :
    execute address owner .skip s = .ok none { s with pc := address + 1 } := rfl

theorem execute_jump (address target : Nat) :
    execute address owner (.jump target) s = .ok none { s with pc := target } := rfl

theorem execute_jumpIf (address target : Nat) (hsp : word s.ram 0 = pointer sp) (hpos : 1 < sp)
    (hle : sp ≤ 32768) :
    execute address owner (.jumpIf target) s =
      .ok none { s with
        ram := popped s.ram sp
        pc := if word s.ram (sp - 1) = 0 then address + 1 else target } := by
  simp only [execute]
  rw [bind_of_ok (pop_run hsp hpos hle)]
  rfl

theorem pushZeros_run (count : Nat) (hsp : word s.ram 0 = pointer sp) (hpos : 0 < sp)
    (hlt : sp + count ≤ 32768) :
    pushZeros owner count s = .ok () { s with ram := zeroed s.ram sp count } := by
  induction count generalizing s sp with
  | zero => rfl
  | succ count ih =>
      unfold pushZeros
      rw [bind_of_ok (push_run 0 hsp hpos (by omega))]
      rw [ih (word_pushed_zero _ _ _ (by decide)) (by omega) (by omega)]
      rfl

/-- A word that is pushed fits into memory. -/
theorem lt_of_push {w : Int16} {s' : State} (h : push owner w s = .ok () s')
    (hsp : word s.ram 0 = pointer sp) (hlt : sp ≤ 32768) : sp < 32768 := by
  by_contra hfull
  have hsp' : sp = 32768 := by omega
  unfold push at h
  rw [bind_of_ok (getRegister_run .stack s), address_stack, hsp, hsp'] at h
  obtain ⟨_, _, hwrite, -⟩ := bind_eq_ok h
  have hbounds := bounds_of_writeWord hwrite
  have hneg : (pointer 32768).toInt = -32768 := by decide
  omega

/-- Zeros that are pushed fit into memory. -/
theorem le_of_pushZeros {count : Nat} {s' : State} (h : pushZeros owner count s = .ok () s')
    (hsp : word s.ram 0 = pointer sp) (hpos : 0 < sp) (hlt : sp ≤ 32768) :
    sp + count ≤ 32768 := by
  induction count generalizing s sp with
  | zero => exact hlt
  | succ count ih =>
      unfold pushZeros at h
      obtain ⟨_, t, hpush, hrest⟩ := bind_eq_ok h
      have hroom := lt_of_push hpush hsp hlt
      rw [push_run 0 hsp hpos hroom] at hpush
      cases hpush
      have hle := ih hrest (word_pushed_zero _ _ _ (by decide)) (by omega) hroom
      omega

theorem execute_enter (address : Nat) (count : UInt16) (hsp : word s.ram 0 = pointer sp)
    (hpos : 0 < sp) (hlt : sp + count.toNat ≤ 32768) :
    execute address owner (.enter count) s =
      .ok none { s with ram := zeroed s.ram sp count.toNat, pc := address + 1 } := by
  simp only [execute]
  rw [bind_of_ok (pushZeros_run count.toNat hsp hpos hlt)]
  rfl

/-- The first argument stands in front of the frame, by as many words as there are arguments. -/
theorem pointer_arguments {count : UInt16} (hcount : count.toNat ≤ sp) :
    pointer (sp + 5) - 5 - count.toInt16 = pointer (sp - count.toNat) := by
  have hfive : (5 : Int16) = pointer 5 := rfl
  rw [hfive, pointer_sub (by omega), toInt16_eq_pointer, pointer_sub (by omega)]
  congr 1

theorem pushFrame_saved (count : UInt16) (hsp : word s.ram 0 = pointer sp) (hpos : 4 < sp)
    (hlt : sp + 5 ≤ 32768) :
    pushFrame owner count s = .ok () { s with
      ram := put (put (saved s.ram sp 0) 2 (pointer (sp + 5) - 5 - count.toInt16)) 1
        (pointer (sp + 5)) } := by
  unfold pushFrame
  rw [bind_of_ok (push_run 0 hsp (by omega) (by omega))]
  rw [bind_of_ok (getRegister_run _ _), address_locals,
    word_pushed_of_ne _ _ (by omega) (by omega)]
  rw [bind_of_ok (push_run _ (word_pushed_zero _ _ _ (by decide)) (by omega) (by omega))]
  rw [bind_of_ok (getRegister_run _ _), address_arguments]
  simp only [word_pushed_of_ne _ _ (show sp + 1 ≠ 2 by omega) (show 2 ≠ 0 by omega),
    word_pushed_of_ne _ _ (show sp ≠ 2 by omega) (show 2 ≠ 0 by omega)]
  rw [bind_of_ok (push_run _ (word_pushed_zero _ _ _ (by decide)) (by omega) (by omega))]
  rw [bind_of_ok (getRegister_run _ _), address_this]
  simp only [word_pushed_of_ne _ _ (show sp + 1 + 1 ≠ 3 by omega) (show 3 ≠ 0 by omega),
    word_pushed_of_ne _ _ (show sp + 1 ≠ 3 by omega) (show 3 ≠ 0 by omega),
    word_pushed_of_ne _ _ (show sp ≠ 3 by omega) (show 3 ≠ 0 by omega)]
  rw [bind_of_ok (push_run _ (word_pushed_zero _ _ _ (by decide)) (by omega) (by omega))]
  rw [bind_of_ok (getRegister_run _ _), address_that]
  simp only [word_pushed_of_ne _ _ (show sp + 1 + 1 + 1 ≠ 4 by omega) (show 4 ≠ 0 by omega),
    word_pushed_of_ne _ _ (show sp + 1 + 1 ≠ 4 by omega) (show 4 ≠ 0 by omega),
    word_pushed_of_ne _ _ (show sp + 1 ≠ 4 by omega) (show 4 ≠ 0 by omega),
    word_pushed_of_ne _ _ (show sp ≠ 4 by omega) (show 4 ≠ 0 by omega)]
  rw [bind_of_ok (push_run _ (word_pushed_zero _ _ _ (by decide)) (by omega) (by omega))]
  rw [bind_of_ok (getRegister_run _ _), address_stack, word_pushed_zero _ _ _ (by decide)]
  rw [bind_of_ok (setRegister_run _ _ _), setRegister_run]
  simp only [address_arguments, address_locals, saved]

theorem pushFrame_run (count : UInt16) (hsp : word s.ram 0 = pointer sp) (hpos : 4 < sp)
    (hlt : sp + 5 < 32768) (hcount : count.toNat ≤ sp) :
    pushFrame owner count s = .ok () { s with ram := framed s.ram sp count.toNat 0 } := by
  rw [pushFrame_saved count hsp hpos (Nat.le_of_lt hlt), pointer_arguments hcount]
  rfl

/-- Memory with the registers that a frame has saved, and a stack pointer. -/
def recalled (m : Vector Int16 ramSize) (base : Nat) (sp : Int16) : Vector Int16 ramSize :=
  put (put (put (put (put m 0 sp) 4 (word m (base + 4))) 3 (word m (base + 3))) 2
    (word m (base + 2))) 1 (word m (base + 1))

/-- The value goes to the word of the first argument, and the registers come out of the frame. -/
theorem popFrame_of_pop {m : Vector Int16 ramSize} {value : Int16} {base a : Nat}
    (hpop : pop owner s = .ok value { s with ram := m }) (hm : word m 2 = word s.ram 2)
    (hlocals : word s.ram 1 = pointer (base + 5)) (hclear : 5 ≤ base) (hlt : base + 5 < 32768)
    (ha : (word s.ram 2).toInt = a) :
    popFrame owner s =
      .ok value { s with ram := recalled (put m a value) base (word s.ram 2 + 1) } := by
  have hread (x : Int) (a : Nat) (hx : x = a) (ha : a < 32768) (t : State) :
      readWord owner x t = .ok (word t.ram a) t := by
    rw [hx, readWord_run owner t ha]
  have hsmall : a < 32768 := by
    have hword := Int16.toInt_lt (word s.ram 2)
    omega
  unfold popFrame
  rw [bind_of_ok (getRegister_run _ _), address_locals, hlocals, toInt_pointer hlt]
  rw [bind_of_ok hpop]
  rw [bind_of_ok (getRegister_run _ _), address_arguments, hm, ha]
  rw [bind_of_ok (writeWord_run owner _ _ hsmall), bind_of_ok (setRegister_run _ _ _)]
  rw [bind_of_ok (hread _ (base + 4) (by omega) (by omega) _),
    bind_of_ok (setRegister_run _ _ _)]
  rw [bind_of_ok (hread _ (base + 3) (by omega) (by omega) _),
    bind_of_ok (setRegister_run _ _ _)]
  rw [bind_of_ok (hread _ (base + 2) (by omega) (by omega) _),
    bind_of_ok (setRegister_run _ _ _)]
  rw [bind_of_ok (hread _ (base + 1) (by omega) (by omega) _),
    bind_of_ok (setRegister_run _ _ _), pure_run]
  simp (disch := omega) only [address_stack, address_locals, address_arguments, address_this,
    address_that, word_put_of_ne]
  rfl

theorem popFrame_run {locals arguments : Nat} (hsp : word s.ram 0 = pointer sp)
    (hlocals : word s.ram 1 = pointer locals) (hargs : word s.ram 2 = pointer arguments)
    (hlow : 5 ≤ arguments) (hframe : arguments + 5 ≤ locals) (hpos : 1 < sp) (hle : sp ≤ 32768)
    (hlt : locals < 32768) :
    popFrame owner s =
      .ok (word s.ram (sp - 1)) { s with ram := restored s.ram sp locals arguments } := by
  obtain ⟨base, rfl⟩ : ∃ base, locals = base + 5 := ⟨locals - 5, by omega⟩
  have hpopped (k : Nat) (hk : k ≠ 0) : word (popped s.ram sp) k = word s.ram k :=
    word_popped_of_ne _ _ hk
  rw [popFrame_of_pop (pop_run hsp hpos hle) (hpopped 2 (by decide)) hlocals (by omega) hlt
    (a := arguments) (by rw [hargs, toInt_pointer (by omega)])]
  -- the argument stands below the frame, so the registers are read from before the pop
  simp (disch := omega) only [recalled, restored, hargs, pointer_add_one, word_put_of_ne, hpopped,
    Nat.reduceSubDiff]

theorem execute_call (address entry : Nat) (count : UInt16) (hsp : word s.ram 0 = pointer sp)
    (hpos : 4 < sp) (hlt : sp + 5 < 32768) (hcount : count.toNat ≤ sp) :
    execute address owner (.call (.function entry) count) s =
      .ok none { s with
        ram := framed s.ram sp count.toNat 0
        returns := (address + 1) :: s.returns
        pc := entry } := by
  simp only [execute]
  rw [bind_of_ok (pushFrame_run count hsp hpos hlt hcount)]
  rfl

/-- The value of a run, or none if a caller goes on, and the state after a frame is left with this
memory. -/
def leave (s : State) (m : Vector Int16 ramSize) (value : Int16) : Option Int16 × State :=
  match s.returns with
  | [] => (some value, { s with ram := m })
  | target :: returns => (none, { s with ram := m, returns, pc := target })

theorem execute_return {m : Vector Int16 ramSize} {value : Int16} (address : Nat)
    (h : popFrame owner s = .ok value { s with ram := m }) :
    execute address owner .return s = .ok (leave s m value).1 (leave s m value).2 := by
  have hrun (f : State → Option Int16 × State) (t : State) :
      (modifyGet f : Action (Option Int16)) t = .ok (f t).1 (f t).2 := rfl
  simp only [execute]
  rw [bind_of_ok h, hrun]
  cases hreturns : s.returns with
  | nil => simp only [leave, hreturns]
  | cons target returns => simp only [leave, hreturns]

end Execute

/-- Only a return ends a run. -/
theorem eq_return_of_execute {op : Op} {address : Nat} {value : Int16} {s' : State}
    (h : execute address owner op s = .ok (some value) s') : op = .return := by
  cases op with
  | push location =>
      obtain ⟨_, _, -, h⟩ := bind_eq_ok h
      obtain ⟨_, _, -, h⟩ := bind_eq_ok h
      cases h
  | pop location =>
      obtain ⟨_, _, -, h⟩ := bind_eq_ok h
      obtain ⟨_, _, -, h⟩ := bind_eq_ok h
      cases h
  | arithmetic op =>
      obtain ⟨_, _, -, h⟩ := bind_eq_ok h
      cases h
  | skip => cases h
  | jump target => cases h
  | jumpIf target =>
      obtain ⟨_, _, -, h⟩ := bind_eq_ok h
      cases h
  | enter locals =>
      obtain ⟨_, _, -, h⟩ := bind_eq_ok h
      cases h
  | call target arguments =>
      cases target with
      | function entry =>
          obtain ⟨_, _, -, h⟩ := bind_eq_ok h
          cases h
      | host routine =>
          obtain ⟨_, _, -, h⟩ := bind_eq_ok h
          cases h
      | undefined name => cases h
  | «return» => rfl

theorem step_of_instruction {p : Program} {s : State} {op : Op} {owner : String}
    (h : p.instructions[s.pc]? = some ⟨op, owner⟩) : step p s = execute s.pc owner op s := by
  have hpc : (modifyGet fun s => (s.pc, s) : Action Nat) s = .ok s.pc s := rfl
  unfold step
  rw [bind_of_ok hpc, h]

end JackToolchain.Machine
