import JackToolchain.Proofs.Machine.Discipline
import JackToolchain.Proofs.Machine.Heap
import Mathlib.Logic.Relation

/-!
# Calls as their callers see them

A call of a function saves the registers of its caller in a frame on the stack. Whatever runs until
the matching return, further calls included, the return brings the caller back with the value in
place of the arguments, as long as no word of an open frame is overwritten and only calls and
returns change the registers for locals and arguments.
-/

namespace JackToolchain.Machine

open JackToolchain.Memory JackToolchain.Stack

/-! ## Frames -/

/-- The five words that a call saves from an address on: room for the address to return to, and the
registers of the caller. -/
structure SavedFrame where
  base : Nat
  locals : Int16
  arguments : Int16
  this : Int16
  that : Int16

/-- The frame that a call saves in a state. -/
def State.toSave (s : State) : SavedFrame where
  base := s.stackPointer.toNat
  locals := s.register .locals
  arguments := s.register .arguments
  this := s.register .this
  that := s.register .that

namespace SavedFrame

/-- The words of a frame are in memory as they were saved. -/
structure Held (f : SavedFrame) (s : State) : Prop where
  address : word s.ram f.base = 0
  locals : word s.ram (f.base + 1) = f.locals
  arguments : word s.ram (f.base + 2) = f.arguments
  this : word s.ram (f.base + 3) = f.this
  that : word s.ram (f.base + 4) = f.that

theorem Held.of_words {f : SavedFrame} {s t : State} (h : f.Held s)
    (hsame : ∀ a, f.base ≤ a → a < f.base + 5 → word t.ram a = word s.ram a) : f.Held t where
  address := (hsame _ (by omega) (by omega)).trans h.address
  locals := (hsame _ (by omega) (by omega)).trans h.locals
  arguments := (hsame _ (by omega) (by omega)).trans h.arguments
  this := (hsame _ (by omega) (by omega)).trans h.this
  that := (hsame _ (by omega) (by omega)).trans h.that

/-- A result that is stored in this state, in the word of the first argument, replaces no register
in the frame. The room for the return address may be that word. -/
def Spared (f : SavedFrame) (s : State) : Prop :=
  (s.register .arguments).toInt ≤ f.base ∨ f.base + 5 ≤ (s.register .arguments).toInt

end SavedFrame

/-- A step between a call and its return. The list has the frames of the calls that are open in
between, the latest first, and `outer` is the frame of the call itself. No word of theirs is
overwritten, so none is a register either, as calls and returns set all of them; a return may store
its result in its own frame where `result` says so. Only calls and returns change the registers for
locals and arguments. -/
inductive Between (p : Program) (result : SavedFrame → State → Prop) (outer : SavedFrame) :
    List SavedFrame × State → List SavedFrame × State → Prop
  | call {inner : List SavedFrame} {s t : State} {entry : Nat} {count : UInt16} {owner : String}
      (hi : p.instructions[s.pc]? = some ⟨.call (.function entry) count, owner⟩)
      (hstep : step p s = .ok none t) (hclear : 5 ≤ s.toSave.base)
      (hheld : ∀ f ∈ s.toSave :: (inner ++ [outer]), f.Held t) :
      Between p result outer (inner, s) (s.toSave :: inner, t)
  | leave {f : SavedFrame} {inner : List SavedFrame} {s t : State} {owner : String}
      (hi : p.instructions[s.pc]? = some ⟨.return, owner⟩) (hstep : step p s = .ok none t)
      (hresult : result f s) (hheld : ∀ g ∈ inner ++ [outer], g.Held t) :
      Between p result outer (f :: inner, s) (inner, t)
  | stay {inner : List SavedFrame} {s t : State} {op : Op} {owner : String}
      (hi : p.instructions[s.pc]? = some ⟨op, owner⟩) (hop : op.staysInFrame = true)
      (hstep : step p s = .ok none t) (hlocals : t.register .locals = s.register .locals)
      (harguments : t.register .arguments = s.register .arguments)
      (hheld : ∀ g ∈ inner ++ [outer], g.Held t) :
      Between p result outer (inner, s) (inner, t)

/-! ## Calls -/

section Calls

variable {p : Program} {s t : State} {entry : Nat} {count : UInt16} {owner : String}
  {result : Option Int16}

theorem State.word_stack_eq (h : 0 < s.toSave.base) : word s.ram 0 = pointer s.toSave.base := by
  apply eq_pointer_of_toInt
  have hbase : s.toSave.base = (word s.ram 0).toInt.toNat := rfl
  omega

/-- Memory when a call has saved its frame at `sp`. -/
def entered (m : Vector Int16 ramSize) (sp : Nat) (count : UInt16) : Vector Int16 ramSize :=
  put (put (saved m sp 0) 2 (pointer (sp + 5) - 5 - count.toInt16)) 1 (pointer (sp + 5))

theorem word_entered_locals (m : Vector Int16 ramSize) (sp : Nat) (count : UInt16) :
    word (entered m sp count) 1 = pointer (sp + 5) :=
  word_put_self _ _ (by decide)

theorem word_entered_stack (m : Vector Int16 ramSize) (sp : Nat) (count : UInt16) :
    word (entered m sp count) 0 = pointer (sp + 5) := by
  rw [entered, word_put_of_ne _ _ (by decide), word_put_of_ne _ _ (by decide), saved,
    word_pushed_zero _ _ _ (by decide)]

theorem word_entered_wrapped (m : Vector Int16 ramSize) (sp : Nat) (count : UInt16) :
    word (entered m sp count) 2 = pointer (sp + 5) - 5 - count.toInt16 := by
  rw [entered, word_put_of_ne _ _ (by decide), word_put_self _ _ (by decide)]

theorem word_entered_arguments (m : Vector Int16 ramSize) {sp : Nat} {count : UInt16}
    (hcount : count.toNat ≤ sp) :
    word (entered m sp count) 2 = pointer (sp - count.toNat) := by
  rw [word_entered_wrapped, pointer_arguments hcount]

/-- Behind the registers, the number of arguments has no say. -/
theorem word_entered_eq (m : Vector Int16 ramSize) (sp : Nat) (count : UInt16) {a : Nat}
    (ha : 3 ≤ a) : word (entered m sp count) a = word (framed m sp 0 0) a := by
  rw [entered, framed, word_put_of_ne _ _ (by omega), word_put_of_ne _ _ (by omega),
    word_put_of_ne _ _ (by omega), word_put_of_ne _ _ (by omega)]

/-- Words that are pushed one after the other fit into memory. -/
theorem lt_of_push_bind {α : Type} {f : Unit → Action α} {w : Int16} {a : α} {sp : Nat}
    (h : (push owner w >>= f) s = .ok a t) (hsp : word s.ram 0 = pointer sp) (hpos : 0 < sp)
    (hle : sp ≤ 32768) :
    sp < 32768 ∧ f () { s with ram := pushed s.ram sp w } = .ok a t := by
  obtain ⟨_, u, hpush, hrest⟩ := bind_eq_ok h
  have hlt := lt_of_push hpush hsp hle
  rw [push_run w hsp hpos hlt] at hpush
  cases hpush
  exact ⟨hlt, hrest⟩

theorem le_of_pushFrame {sp : Nat} (h : pushFrame owner count s = .ok () t)
    (hsp : word s.ram 0 = pointer sp) (hpos : 0 < sp) (hle : sp ≤ 32768) : sp + 5 ≤ 32768 := by
  have hnext (m : Vector Int16 ramSize) (sp : Nat) (w : Int16) :
      word (pushed m sp w) 0 = pointer (sp + 1) := word_pushed_zero _ _ _ (by decide)
  unfold pushFrame at h
  obtain ⟨hfirst, h⟩ := lt_of_push_bind h hsp hpos hle
  rw [bind_of_ok (getRegister_run _ _)] at h
  obtain ⟨hsecond, h⟩ := lt_of_push_bind h (hnext ..) (by omega) hfirst
  rw [bind_of_ok (getRegister_run _ _)] at h
  obtain ⟨hthird, h⟩ := lt_of_push_bind h (hnext ..) (by omega) hsecond
  rw [bind_of_ok (getRegister_run _ _)] at h
  obtain ⟨hfourth, h⟩ := lt_of_push_bind h (hnext ..) (by omega) hthird
  rw [bind_of_ok (getRegister_run _ _)] at h
  exact (lt_of_push_bind h (hnext ..) (by omega) hfourth).1

theorem step_call {sp : Nat}
    (hi : p.instructions[s.pc]? = some ⟨.call (.function entry) count, owner⟩)
    (hsp : word s.ram 0 = pointer sp) (hpos : 4 < sp) (hroom : sp + 5 ≤ 32768) :
    step p s = .ok none { s with
      ram := entered s.ram sp count
      returns := (s.pc + 1) :: s.returns
      pc := entry } := by
  rw [step_of_instruction hi]
  simp only [execute]
  rw [bind_of_ok (pushFrame_saved count hsp hpos hroom)]
  rfl

/-- What a call does that finds the stack behind the registers. -/
theorem step_of_call
    (hi : p.instructions[s.pc]? = some ⟨.call (.function entry) count, owner⟩)
    (h : step p s = .ok result t) (hclear : 5 ≤ s.toSave.base) :
    s.toSave.base + 5 ≤ 32768 ∧ t = { s with
      ram := entered s.ram s.toSave.base count
      returns := (s.pc + 1) :: s.returns
      pc := entry } := by
  have hsp : word s.ram 0 = pointer s.toSave.base := State.word_stack_eq (by omega)
  have hle : s.toSave.base ≤ 32768 := by
    have hbase : s.toSave.base = (word s.ram 0).toInt.toNat := rfl
    have hlt := Int16.toInt_lt (word s.ram 0)
    omega
  have hframe := h
  rw [step_of_instruction hi] at hframe
  simp only [execute] at hframe
  obtain ⟨_, u, hframe, -⟩ := bind_eq_ok hframe
  have hroom := le_of_pushFrame hframe hsp (by omega) hle
  rw [step_call hi hsp (by omega) hroom] at h
  cases h
  exact ⟨hroom, rfl⟩

/-- A call leaves its frame in memory. -/
theorem held_of_call
    (hi : p.instructions[s.pc]? = some ⟨.call (.function entry) count, owner⟩)
    (h : step p s = .ok result t) (hclear : 5 ≤ s.toSave.base) : s.toSave.Held t := by
  obtain ⟨hroom, rfl⟩ := step_of_call hi h hclear
  have hsaved (k : Nat) (hk : 1 ≤ k ∧ k ≤ 4) :
      word (entered s.ram s.toSave.base count) (s.toSave.base + k) = word s.ram k := by
    rw [word_entered_eq _ _ _ (by omega), word_framed_saved s.ram 0 0 hk hclear hroom]
  refine ⟨?_, ?_, ?_, ?_, ?_⟩
  · exact (word_entered_eq _ _ _ (by omega)).trans
      (word_framed_first _ _ _ (by omega) hroom)
  · exact (hsaved 1 (by decide)).trans (s.register_eq_word .locals).symm
  · exact (hsaved 2 (by decide)).trans (s.register_eq_word .arguments).symm
  · exact (hsaved 3 (by decide)).trans (s.register_eq_word .this).symm
  · exact (hsaved 4 (by decide)).trans (s.register_eq_word .that).symm

end Calls

/-! ## Returns -/

section Returns

variable {p : Program} {s t : State} {owner : String} {value : Int16} {base : Nat}

theorem word_recalled_of_le (m : Vector Int16 ramSize) (base : Nat) (sp : Int16) {a : Nat}
    (ha : 5 ≤ a) : word (recalled m base sp) a = word m a := by
  simp (disch := omega) only [recalled, word_put_of_ne]

theorem word_recalled_stack (m : Vector Int16 ramSize) (base : Nat) (sp : Int16) :
    word (recalled m base sp) 0 = sp := by
  simp (disch := omega) only [recalled, word_put_of_ne]
  exact word_put_self _ _ (by decide)

/-- The registers of the caller come back. -/
theorem word_recalled (m : Vector Int16 ramSize) (base : Nat) (sp : Int16) {k : Nat}
    (hk : 1 ≤ k ∧ k ≤ 4) : word (recalled m base sp) k = word m (base + k) := by
  obtain rfl | rfl | rfl | rfl : k = 1 ∨ k = 2 ∨ k = 3 ∨ k = 4 := by omega
  all_goals
    simp (disch := omega) only [recalled, word_put_of_ne]
    exact word_put_self _ _ (by decide)

theorem pop_eq_ok (h : pop owner s = .ok value t) : t = s.dropped := by
  rcases pop_cases owner s with ⟨a, -, hpop⟩ | ⟨e, hpop⟩
  · rw [hpop] at h
    cases h
    rfl
  · rw [hpop] at h
    cases h

/-- A frame that is left stands below the end of memory. -/
theorem eq_of_popFrame (h : popFrame owner s = .ok value t)
    (hlocals : word s.ram 1 = pointer (base + 5)) (hclear : 5 ≤ base) (hroom : base + 5 ≤ 32768) :
    base + 5 < 32768 ∧ ∃ a : Nat, (word s.ram 2).toInt = a ∧ pop owner s = .ok value s.dropped ∧
      t = { s with ram := recalled (put s.dropped.ram a value) base (word s.ram 2 + 1) } := by
  have hpopped := h
  unfold popFrame at hpopped
  rw [bind_of_ok (getRegister_run _ _), address_locals, hlocals] at hpopped
  obtain ⟨w, u, hpop, hrest⟩ := bind_eq_ok hpopped
  obtain rfl := pop_eq_ok hpop
  rw [bind_of_ok (getRegister_run _ _), address_arguments,
    word_dropped_of_ne s (by decide)] at hrest
  obtain ⟨_, u, hwrite, hrest⟩ := bind_eq_ok hrest
  obtain ⟨a, ha⟩ := Int.eq_ofNat_of_zero_le (bounds_of_writeWord hwrite).1
  rw [bind_of_ok (setRegister_run _ _ _)] at hrest
  obtain ⟨_, _, hlast, -⟩ := bind_eq_ok hrest
  have hlt : base + 5 < 32768 := by
    by_contra hfull
    have hend : base + 5 = 32768 := by omega
    have hneg : (pointer 32768).toInt = -32768 := by decide
    rw [hend, hneg] at hlast
    have hbounds := bounds_of_readWord hlast
    omega
  rw [popFrame_of_pop hpop (word_dropped_of_ne s (by decide)) hlocals hclear hlt ha] at h
  cases h
  exact ⟨hlt, a, ha, hpop, rfl⟩

/-- What a return does from a frame behind the registers. -/
theorem step_of_return {result : Option Int16}
    (hi : p.instructions[s.pc]? = some ⟨.return, owner⟩) (h : step p s = .ok result t)
    (hlocals : word s.ram 1 = pointer (base + 5)) (hclear : 5 ≤ base) (hroom : base + 5 ≤ 32768) :
    base + 5 < 32768 ∧ ∃ (a : Nat) (value : Int16), (word s.ram 2).toInt = a ∧
      pop owner s = .ok value s.dropped ∧ (result, t) =
        leave s (recalled (put s.dropped.ram a value) base (word s.ram 2 + 1)) value := by
  rw [step_of_instruction hi] at h
  have hpopped := h
  simp only [execute] at hpopped
  obtain ⟨value, u, hframe, -⟩ := bind_eq_ok hpopped
  obtain ⟨hlt, a, ha, hpop, rfl⟩ := eq_of_popFrame hframe hlocals hclear hroom
  rw [execute_return s.pc hframe] at h
  cases h
  exact ⟨hlt, a, value, ha, hpop, rfl⟩

/-- Whatever a return does not store its result in, it leaves behind the registers. -/
theorem word_result_of_ne (s : State) (value : Int16) {a b : Nat} (hb : 0 < b) (hne : a ≠ b) :
    word (put s.dropped.ram a value) b = word s.ram b := by
  rw [word_put_of_ne _ _ hne, word_dropped_of_ne s (by omega)]

end Returns

/-! ## From a call to its return -/

/-- The registers for locals and arguments are those that the latest open call has set, and those
that its frame has saved are those of the call before it, down to the first of the two. -/
def LinksTo (locals arguments : Int16) : List SavedFrame → Int16 → Int16 → Prop
  | [], l, a => l = locals ∧ a = arguments
  | f :: inner, l, _ =>
    l = pointer (f.base + 5) ∧ 5 ≤ f.base ∧ f.base + 5 ≤ 32768 ∧
      LinksTo locals arguments inner f.locals f.arguments

/-- A state between a call and its return: the frames of open calls are linked down to the registers
that the call has set, they are in memory, and each of them returns above `below`. -/
structure Awaits (outer : SavedFrame) (locals arguments : Int16) (below : List Nat)
    (inner : List SavedFrame) (s : State) : Prop where
  linked : LinksTo locals arguments inner (s.register .locals) (s.register .arguments)
  held : ∀ f ∈ inner ++ [outer], f.Held s
  returns : ∃ opened, opened.length = inner.length ∧ s.returns = opened ++ below

/-- What is executed in a frame leaves the open calls alone. -/
theorem onward_returns : Onward fun s t => t.returns = s.returns where
  refl _ := rfl
  trans hst htu := htu.trans hst
  ram _ _ := rfl
  jump _ _ := rfl
  print _ _ := rfl
  alloc _ _ _ _ := rfl

namespace Awaits

variable {p : Program} {outer : SavedFrame} {locals arguments : Int16} {below : List Nat}
  {s t : State}

/-- A return in between brings back the registers of the call that it belongs to. -/
theorem leave {f : SavedFrame} {inner : List SavedFrame} {owner : String}
    (h : Awaits outer locals arguments below (f :: inner) s)
    (hi : p.instructions[s.pc]? = some ⟨.return, owner⟩) (hstep : step p s = .ok none t)
    (hresult : f.Spared s) :
    LinksTo locals arguments inner (t.register .locals) (t.register .arguments) ∧
      ∃ opened, opened.length = inner.length ∧ t.returns = opened ++ below := by
  obtain ⟨hlocals, hclear, hroom, hlinked⟩ := h.linked
  have hheld := h.held f (by simp)
  obtain ⟨opened, hlength, hreturns⟩ := h.returns
  rw [State.register_eq_word] at hlocals
  obtain ⟨hlt, a, value, ha, -, hleave⟩ := step_of_return hi hstep hlocals hclear hroom
  have hspared : a ≤ f.base ∨ f.base + 5 ≤ a := by
    have hplace : (s.register .arguments).toInt = a := by
      rw [State.register_eq_word]
      exact ha
    unfold SavedFrame.Spared at hresult
    omega
  cases opened with
  | nil => simp at hlength
  | cons target opened =>
      simp only [Machine.leave, hreturns, List.cons_append, Prod.mk.injEq, true_and] at hleave
      subst hleave
      refine ⟨?_, opened, by simpa using hlength, rfl⟩
      simp only [State.register_eq_word, address_locals, address_arguments]
      rw [word_recalled _ _ _ (by decide), word_recalled _ _ _ (by decide),
        word_result_of_ne s value (by omega) (by omega),
        word_result_of_ne s value (by omega) (by omega), hheld.locals, hheld.arguments]
      exact hlinked

theorem step {x y : List SavedFrame × State} (hstep : Between p SavedFrame.Spared outer x y)
    (h : Awaits outer locals arguments below x.1 x.2) :
    Awaits outer locals arguments below y.1 y.2 := by
  cases hstep with
  | @call inner s t entry count owner hi hstep hclear hheld =>
      obtain ⟨opened, hlength, hreturns⟩ := h.returns
      obtain ⟨hroom, rfl⟩ := step_of_call hi hstep hclear
      refine ⟨⟨?_, hclear, hroom, h.linked⟩, hheld, (s.pc + 1) :: opened, ?_, ?_⟩
      · rw [State.register_eq_word]
        exact word_entered_locals _ _ _
      · simpa using hlength
      · exact congrArg ((s.pc + 1) :: ·) hreturns
  | leave hi hstep hresult hheld =>
      obtain ⟨hlinked, hreturns⟩ := h.leave hi hstep hresult
      exact ⟨hlinked, hheld, hreturns⟩
  | @stay inner s t op owner hi hop hstep hlocals harguments hheld =>
      have hopen := (onward_returns.execute s.pc owner hop).onward s
      rw [← step_of_instruction hi, hstep] at hopen
      refine ⟨?_, hheld, ?_⟩
      · rw [hlocals, harguments]
        exact h.linked
      · obtain ⟨opened, hlength, hreturns⟩ := h.returns
        exact ⟨opened, hlength, hopen.trans hreturns⟩

theorem run {x y : List SavedFrame × State}
    (hrun : Relation.ReflTransGen (Between p SavedFrame.Spared outer) x y)
    (h : Awaits outer locals arguments below x.1 x.2) :
    Awaits outer locals arguments below y.1 y.2 := by
  induction hrun with
  | refl => exact h
  | tail _ hstep ih => exact ih.step hstep

theorem of_call {entry : Nat} {count : UInt16} {owner : String} {result : Option Int16}
    (hi : p.instructions[s.pc]? = some ⟨.call (.function entry) count, owner⟩)
    (hstep : Machine.step p s = .ok result t) (hclear : 5 ≤ s.toSave.base)
    (hcount : count.toNat ≤ s.toSave.base) :
    Awaits s.toSave (pointer (s.toSave.base + 5)) (pointer (s.toSave.base - count.toNat))
      ((s.pc + 1) :: s.returns) [] t := by
  have hheld := held_of_call hi hstep hclear
  obtain ⟨hle, rfl⟩ := step_of_call hi hstep hclear
  refine ⟨?_, fun f hf => ?_, [], rfl, rfl⟩
  · simp only [LinksTo, State.register_eq_word, address_locals, address_arguments]
    exact ⟨word_entered_locals .., word_entered_arguments _ hcount⟩
  · obtain rfl : f = s.toSave := by simpa using hf
    exact hheld

/-- The matching return stores its result at the first argument, below the frame or in its first
word. -/
theorem last {a target : Nat} {returns : List Nat} {owner : String} {result : Option Int16}
    (h : Awaits outer (pointer (outer.base + 5)) (pointer a) (target :: returns) [] s)
    (hi : p.instructions[s.pc]? = some ⟨.return, owner⟩)
    (hstep : Machine.step p s = .ok result t)
    (hlow : 5 ≤ a) (ha : a ≤ outer.base) (hroom : outer.base + 5 ≤ 32768) :
    result = none ∧ t.pc = target ∧ t.returns = returns ∧ word t.ram 0 = pointer (a + 1) ∧
      (∀ k, 1 ≤ k ∧ k ≤ 4 → word t.ram k = word s.ram (outer.base + k)) ∧
      ∃ value, pop owner s = .ok value s.dropped ∧ word t.ram a = value := by
  obtain ⟨hlocals, harguments⟩ := h.linked
  obtain ⟨opened, hopened, hreturns⟩ := h.returns
  rw [State.register_eq_word] at hlocals harguments
  rw [address_arguments] at harguments
  obtain ⟨hlt, b, value, hb, hpop, hleave⟩ :=
    step_of_return hi hstep hlocals (by omega) hroom
  obtain rfl : b = a := by
    rw [harguments, toInt_pointer (by omega)] at hb
    omega
  rw [List.length_nil, List.length_eq_zero_iff] at hopened
  subst hopened
  simp only [Machine.leave, hreturns, List.nil_append, Prod.mk.injEq] at hleave
  obtain ⟨rfl, rfl⟩ := hleave
  refine ⟨rfl, rfl, rfl, ?_, fun k hk => ?_, value, hpop, ?_⟩
  · exact (word_recalled_stack ..).trans (by rw [harguments, pointer_add_one])
  · exact (word_recalled _ _ _ hk).trans (word_result_of_ne s value (by omega) (by omega))
  · exact (word_recalled_of_le _ _ _ hlow).trans
      (word_put_self _ _ (by change _ < 32768; omega))

end Awaits

/-- Right behind the return that matches a call, the caller is back: its registers, the calls that
were open, and the instruction behind the call. The stack has the returned value in place of the
arguments. In between, a return of another call may store its result over the room for its return
address, but not over the registers in its own frame. -/
theorem caller_restored {p : Program} {s t u v : State} {entry : Nat} {count : UInt16}
    {owner owner' : String} {result : Option Int16}
    (hi : p.instructions[s.pc]? = some ⟨.call (.function entry) count, owner⟩)
    (hroom : 256 ≤ s.stackPointer - count.toNat) (hcall : step p s = .ok none t)
    (hrun : Relation.ReflTransGen (Between p SavedFrame.Spared s.toSave) ([], t) ([], u))
    (hlast : p.instructions[u.pc]? = some ⟨.return, owner'⟩) (hreturn : step p u = .ok result v) :
    result = none ∧ v.pc = s.pc + 1 ∧ v.returns = s.returns ∧
      v.stackPointer = s.stackPointer - count.toNat + 1 ∧
      (∀ r, r ≠ .stack → v.register r = s.register r) ∧
      ∃ value, pop owner' u = .ok value u.dropped ∧
        word v.ram (v.stackPointer.toNat - 1) = value := by
  set base := s.toSave.base with hbase
  have hstack : s.stackPointer = base := by
    have hnat : base = s.stackPointer.toNat := rfl
    omega
  have hle : base + 5 ≤ 32768 := (step_of_call hi hcall (by omega)).1
  have hbefore : Awaits s.toSave (pointer (base + 5)) (pointer (base - count.toNat))
      ((s.pc + 1) :: s.returns) [] u :=
    (Awaits.of_call hi hcall (by omega) (by omega)).run hrun
  have hsaved := hbefore.held s.toSave (by simp)
  obtain ⟨hnone, hpc, hreturns, hpointer, hcaller, value, hpop, hvalue⟩ :=
    hbefore.last hlast hreturn (by omega) (Nat.sub_le ..) hle
  have hstack' : v.stackPointer = (base - count.toNat + 1 : Nat) := by
    rw [State.stackPointer, hpointer, toInt_pointer (by omega)]
  refine ⟨hnone, hpc, hreturns, ?_, fun r hr => ?_, value, hpop, ?_⟩
  · rw [hstack']
    omega
  · rw [State.register_eq_word]
    cases r with
    | stack => exact absurd rfl hr
    | locals => exact (hcaller 1 (by decide)).trans hsaved.locals
    | arguments => exact (hcaller 2 (by decide)).trans hsaved.arguments
    | this => exact (hcaller 3 (by decide)).trans hsaved.this
    | that => exact (hcaller 4 (by decide)).trans hsaved.that
  · rw [hstack', Int.toNat_natCast, Nat.add_sub_cancel, hvalue]

/-! ## A call with more arguments than the stack has -/

def relayFiles (count : UInt16) : List SourceFile :=
  [("Main", [.function "Main.main" 0, .call "Main.outer" 0, .return,
    .function "Main.outer" 0, .call "Main.inner" count, .return,
    .function "Main.inner" 0, .push .constant 300, .return])]

/-- `Main.outer` hands on the result of `Main.inner`. -/
def relay (count : UInt16) : Program where
  instructions := #[⟨.enter 0, "Main.main"⟩, ⟨.call (.function 3) 0, "Main.main"⟩,
    ⟨.return, "Main.main"⟩, ⟨.enter 0, "Main.outer"⟩,
    ⟨.call (.function 6) count, "Main.outer"⟩, ⟨.return, "Main.outer"⟩, ⟨.enter 0, "Main.inner"⟩,
    ⟨.push (.constant 300), "Main.inner"⟩, ⟨.return, "Main.inner"⟩]
  functions := ((({} : Std.HashMap String Nat).insert "Main.main" 0).insert "Main.outer" 3).insert
    "Main.inner" 6

theorem link_relayFiles (count : UInt16) :
    Program.link (relayFiles count) = .ok (relay count) := by
  simp [Program.link, relayFiles, owned, Directory.add, linkFiles, linkCommands, resolve,
    staticCount, staticsOf, staticBase, staticEnd, relay, Directory.target, bind, Except.bind,
    pure, Except.pure, locate, Routine.ofName?, Routine.all, Routine.name,
    Std.HashMap.getElem_insert]

/-- The state in which `Main.main` calls `Main.outer`. -/
def beforeOuter : State := { ram := opening (.replicate ramSize 0), pc := 1 }

/-- The state in which `Main.outer` calls `Main.inner`. -/
def beforeInner : State := { ram := entered beforeOuter.ram 261 0, pc := 4, returns := [2] }

/-- The state in which `Main.inner` returns. -/
def atReturn (count : UInt16) : State where
  ram := pushed (entered beforeInner.ram 266 count) 271 300
  pc := 8
  returns := [5, 2]

/-- The state behind this return, which has stored the result at `a`. -/
def behindInner (count : UInt16) (a : Nat) : State where
  ram := recalled (put (atReturn count).dropped.ram a 300) 266 (pointer (a + 1))
  pc := 5
  returns := [2]

section Relay

variable {count : UInt16} {a b : Nat}

theorem reached_beforeOuter (count : UInt16) : Reached (relay count) beforeOuter [] :=
  reached_of_step (Reached.first.enter (prepare_eq 0 {})) rfl (step_enter_zero rfl)

theorem word_beforeOuter_stack : word beforeOuter.ram 0 = pointer 261 := (word_opening _).1

theorem word_beforeInner_stack : word beforeInner.ram 0 = pointer 266 :=
  word_entered_stack ..

theorem base_beforeOuter : beforeOuter.toSave.base = 261 := by
  simp only [State.toSave, State.stackPointer, word_beforeOuter_stack]
  rfl

theorem base_beforeInner : beforeInner.toSave.base = 266 := by
  simp only [State.toSave, State.stackPointer, word_beforeInner_stack]
  rfl

theorem word_atReturn_stack (count : UInt16) : word (atReturn count).ram 0 = pointer 272 :=
  word_pushed_zero _ _ _ (by decide)

/-- What `Main.inner` pushes stands behind its frame. -/
theorem word_atReturn_of_ne (hpos : b ≠ 0) (hb : b ≠ 271) :
    word (atReturn count).ram b = word (entered beforeInner.ram 266 count) b :=
  word_pushed_of_ne _ _ hb.symm hpos

theorem step_beforeOuter (count : UInt16) :
    step (relay count) beforeOuter = .ok none { beforeInner with pc := 3 } :=
  step_call rfl word_beforeOuter_stack (by decide) (by decide)

theorem step_beforeInner (count : UInt16) :
    step (relay count) beforeInner = .ok none
      { ram := entered beforeInner.ram 266 count, pc := 6, returns := [5, 2] } :=
  step_call rfl word_beforeInner_stack (by decide) (by decide)

theorem step_result (count : UInt16) :
    step (relay count) { ram := entered beforeInner.ram 266 count, pc := 7, returns := [5, 2] } =
      .ok none (atReturn count) :=
  (step_of_instruction rfl).trans (execute_push 7 (load_constant ..) (word_entered_stack ..)
    (by decide) (by decide))

theorem pop_atReturn (count : UInt16) (owner : String) :
    pop owner (atReturn count) = .ok 300 (atReturn count).dropped := by
  have hrun : pop owner (atReturn count) = .ok (word (atReturn count).ram (272 - 1))
      { atReturn count with ram := popped (atReturn count).ram 272 } :=
    pop_run (word_atReturn_stack count) (by decide) (by decide)
  rw [show word (atReturn count).ram (272 - 1) = 300 from
    word_pushed_self _ _ (by decide) (by decide)] at hrun
  rw [hrun, ← pop_eq_ok hrun]

theorem step_atReturn (ha : pointer 271 - 5 - count.toInt16 = pointer a) (hlt : a < 32768) :
    step (relay count) (atReturn count) = .ok none (behindInner count a) := by
  have hlocals : word (atReturn count).ram 1 = pointer (266 + 5) :=
    (word_atReturn_of_ne (by decide) (by decide)).trans (word_entered_locals ..)
  have harguments : word (atReturn count).ram 2 = pointer a := by
    rw [word_atReturn_of_ne (by decide) (by decide), ← ha]
    exact word_entered_wrapped ..
  have hframe := popFrame_of_pop (pop_atReturn count "Main.inner")
    (word_dropped_of_ne _ (by decide)) hlocals (by decide) (by decide)
    (a := a) (by rw [harguments, toInt_pointer hlt])
  rw [step_of_instruction (show (relay count).instructions[(atReturn count).pc]? = _ from rfl),
    execute_return (atReturn count).pc hframe, harguments, pointer_add_one]
  rfl

/-- Behind the registers, the return changes only the word of the result. -/
theorem word_behindInner_of_ne (hlow : 5 ≤ b) (hne : a ≠ b) :
    word (behindInner count a).ram b = word (atReturn count).ram b := by
  refine (word_recalled_of_le _ _ _ hlow).trans ?_
  exact word_result_of_ne _ _ (by omega) hne

/-- The words of the two frames, from the time they are saved. -/
theorem held_outer {t : State} (hsame : ∀ b, 261 ≤ b → b < 266 →
    word t.ram b = word beforeInner.ram b) : beforeOuter.toSave.Held t := by
  have hheld := held_of_call (p := relay 0) rfl (step_beforeOuter 0)
    (by rw [base_beforeOuter]; decide)
  refine hheld.of_words fun b hb hlt => ?_
  rw [base_beforeOuter] at hb hlt
  exact hsame b hb hlt

theorem held_inner {t : State} (hsame : ∀ b, 266 ≤ b → b < 271 →
    word t.ram b = word (entered beforeInner.ram 266 count) b) : beforeInner.toSave.Held t := by
  have hheld := held_of_call (p := relay count) rfl (step_beforeInner count)
    (by rw [base_beforeInner]; decide)
  refine hheld.of_words fun b hb hlt => ?_
  rw [base_beforeInner] at hb hlt
  exact hsame b hb hlt

theorem word_entered_outer (hb : 261 ≤ b ∧ b < 266) :
    word (entered beforeInner.ram 266 count) b = word beforeInner.ram b := by
  rw [word_entered_eq _ _ _ (by omega), word_framed_of_lt _ 0 0 (by omega) hb.2]

/-- What runs from the call of `Main.outer` to its return. The result of `Main.inner` is stored
where the number of arguments says. -/
theorem between_relay {result : SavedFrame → State → Prop}
    (ha : pointer 271 - 5 - count.toInt16 = pointer a) (hlow : 266 ≤ a) (hlt : a < 32768)
    (hresult : result beforeInner.toSave (atReturn count)) :
    Relation.ReflTransGen (Between (relay count) result beforeOuter.toSave)
      ([], { beforeInner with pc := 3 }) ([], behindInner count a) := by
  set outer := beforeOuter.toSave
  set inner := beforeInner.toSave with hinner
  have hentered (b : Nat) (hb : 261 ≤ b) (hb' : b < 266) :
      word (entered beforeInner.ram 266 count) b = word beforeInner.ram b :=
    word_entered_outer ⟨hb, hb'⟩
  have hboth {t : State} (hsame : ∀ b, 261 ≤ b → b < 271 →
      word t.ram b = word (entered beforeInner.ram 266 count) b) :
      ∀ f ∈ inner :: ([] ++ [outer]), f.Held t := by
    simp only [List.nil_append, List.forall_mem_cons, List.not_mem_nil, false_imp_iff,
      implies_true, and_true]
    exact ⟨held_inner fun b hb hb' => hsame b (by omega) hb',
      held_outer fun b hb hb' => (hsame b hb (by omega)).trans (hentered b hb hb')⟩
  have houter {t : State} (hsame : ∀ b, 261 ≤ b → b < 266 →
      word t.ram b = word beforeInner.ram b) : ∀ f ∈ [] ++ [outer], f.Held t := by
    simpa using held_outer hsame
  have henter : Between (relay count) result outer ([], { beforeInner with pc := 3 })
      ([], beforeInner) :=
    .stay (show (relay count).instructions[3]? = some ⟨.enter 0, "Main.outer"⟩ from rfl) rfl
      (step_enter_zero rfl) rfl rfl (houter fun _ _ _ => rfl)
  have hcall : Between (relay count) result outer ([], beforeInner)
      ([inner], { ram := entered beforeInner.ram 266 count, pc := 6, returns := [5, 2] }) :=
    .call rfl (step_beforeInner count) (by rw [base_beforeInner]; decide)
      (hboth fun _ _ _ => rfl)
  have hopened : Between (relay count) result outer
      ([inner], { ram := entered beforeInner.ram 266 count, pc := 6, returns := [5, 2] })
      ([inner], { ram := entered beforeInner.ram 266 count, pc := 7, returns := [5, 2] }) :=
    .stay (show (relay count).instructions[6]? = some ⟨.enter 0, "Main.inner"⟩ from rfl) rfl
      (step_enter_zero rfl) rfl rfl (hboth fun _ _ _ => rfl)
  have hpush : Between (relay count) result outer
      ([inner], { ram := entered beforeInner.ram 266 count, pc := 7, returns := [5, 2] })
      ([inner], atReturn count) := by
    refine .stay (show (relay count).instructions[7]? =
      some ⟨.push (.constant 300), "Main.inner"⟩ from rfl) rfl (step_result count) ?_ ?_
      (hboth fun b hb hb' => word_atReturn_of_ne (by omega) (by omega))
    · simp only [State.register_eq_word]
      exact word_atReturn_of_ne (by decide) (by decide)
    · simp only [State.register_eq_word]
      exact word_atReturn_of_ne (by decide) (by decide)
  have hleave : Between (relay count) result outer ([inner], atReturn count)
      ([], behindInner count a) := by
    refine .leave rfl (step_atReturn ha hlt) hresult (houter fun b hb hb' => ?_)
    rw [word_behindInner_of_ne (by omega) (by omega),
      word_atReturn_of_ne (by omega) (by omega), hentered b hb hb']
  exact .head henter (.head hcall (.head hopened (.head hpush (.single hleave))))

/-- `Main.inner` leaves the registers of `Main.outer`, unless its result has replaced the first of
them. -/
theorem word_behindInner_saved (ha : a < 268) :
    word (behindInner count a).ram 1 = (if a = 267 then 300 else pointer 266) ∧
      word (behindInner count a).ram 2 = pointer 261 := by
  have hsaved (k : Nat) (hk : 1 ≤ k ∧ k ≤ 4) :
      word (entered beforeInner.ram 266 count) (266 + k) = word beforeInner.ram k := by
    rw [word_entered_eq _ _ _ (by omega), word_framed_saved _ 0 0 hk (by decide) (by decide)]
  constructor
  · refine (word_recalled _ _ _ (by decide)).trans ?_
    rw [word_put]
    split_ifs with hplace h h
    · rfl
    · exact absurd hplace.1 h
    · exact absurd ⟨h, by rw [h]; decide⟩ hplace
    · rw [word_dropped_of_ne _ (by decide), word_atReturn_of_ne (by decide) (by decide),
        hsaved 1 (by decide)]
      exact word_entered_locals ..
  · refine (word_recalled _ _ _ (by decide)).trans ?_
    rw [word_result_of_ne _ _ (by decide) (by omega),
      word_atReturn_of_ne (by decide) (by decide), hsaved 2 (by decide)]
    exact word_entered_arguments _ (by decide)

/-- `Main.outer` returns from a frame that starts where its register for locals says. -/
theorem step_behindInner {base : Nat} (hlow : 5 ≤ a) (ha : a < 268)
    (hlocals : word (behindInner count a).ram 1 = pointer (base + 5)) (hclear : 5 ≤ base)
    (hlt : base + 5 < 32768) :
    step (relay count) (behindInner count a) = .ok none
      { ram := recalled (put (behindInner count a).dropped.ram 261 300) base (pointer 262)
        pc := 2 } := by
  have hstack : word (behindInner count a).ram 0 = pointer (a + 1) := word_recalled_stack ..
  have hvalue : word (behindInner count a).ram (a + 1 - 1) = 300 := by
    rw [Nat.add_sub_cancel]
    exact (word_recalled_of_le _ _ _ hlow).trans (word_put_self _ _ (by change _ < 32768; omega))
  have hpop : pop "Main.outer" (behindInner count a) =
      .ok (word (behindInner count a).ram (a + 1 - 1))
        { behindInner count a with ram := popped (behindInner count a).ram (a + 1) } :=
    pop_run hstack (by omega) (by omega)
  rw [hvalue, pop_eq_ok hpop] at hpop
  have harguments : word (behindInner count a).ram 2 = pointer 261 :=
    (word_behindInner_saved ha).2
  have hframe := popFrame_of_pop hpop (word_dropped_of_ne _ (by decide)) hlocals hclear hlt
    (a := 261) (by rw [harguments]; rfl)
  rw [step_of_instruction (show (relay count).instructions[(behindInner count a).pc]? = _ from rfl),
    execute_return (behindInner count a).pc hframe, harguments]
  rfl

end Relay

theorem caller_restored_main : Program.link (relayFiles 0) = .ok (relay 0) ∧
    ∃ v, step (relay 0) (behindInner 0 266) = .ok none v ∧ v.pc = 2 ∧ v.returns = [] ∧
      v.stackPointer = 262 ∧ ∀ r, r ≠ .stack → v.register r = beforeOuter.register r := by
  have hlocals : word (behindInner 0 266).ram 1 = pointer (261 + 5) :=
    (word_behindInner_saved (by decide)).1
  have hstack : beforeOuter.stackPointer = 261 := by
    rw [State.stackPointer, word_beforeOuter_stack]
    rfl
  have harguments : (atReturn 0).register .arguments = pointer 266 := by
    rw [State.register_eq_word]
    exact (word_atReturn_of_ne (by decide) (by decide)).trans (word_entered_arguments _ (by decide))
  have hspared : beforeInner.toSave.Spared (atReturn 0) := by
    left
    rw [harguments, base_beforeInner]
    decide
  obtain ⟨-, hpc, hreturns, hpointer, hregisters, -⟩ :=
    caller_restored (show (relay 0).instructions[beforeOuter.pc]? =
      some ⟨.call (.function 3) 0, "Main.main"⟩ from rfl) (by rw [hstack]; decide)
      (step_beforeOuter 0) (between_relay (a := 266) rfl (by decide) (by decide) hspared) rfl
      (step_behindInner (by decide) (by decide) hlocals (by decide) (by decide))
  refine ⟨link_relayFiles 0, _,
    step_behindInner (by decide) (by decide) hlocals (by decide) (by decide), hpc, hreturns, ?_,
    hregisters⟩
  rw [hpointer, hstack]
  rfl

/-- With 65535 arguments, which are one less than none, the result of `Main.inner` replaces the
register for locals in its own frame, and `Main.main` does not get its own back. -/
theorem locals_lost : Program.link (relayFiles 65535) = .ok (relay 65535) ∧
    Reached (relay 65535) beforeOuter [] ∧
    (relay 65535).instructions[beforeOuter.pc]? = some ⟨.call (.function 3) 0, "Main.main"⟩ ∧
    256 ≤ beforeOuter.stackPointer - (0 : UInt16).toNat ∧
    ∃ t u v, step (relay 65535) beforeOuter = .ok none t ∧
      Relation.ReflTransGen (Between (relay 65535) (fun _ _ => True) beforeOuter.toSave)
        ([], t) ([], u) ∧
      (relay 65535).instructions[u.pc]? = some ⟨.return, "Main.outer"⟩ ∧
      step (relay 65535) u = .ok none v ∧ v.pc = beforeOuter.pc + 1 ∧
      beforeOuter.register .locals = 261 ∧ v.register .locals = 0 := by
  have hstack : beforeOuter.stackPointer = 261 := by
    rw [State.stackPointer, word_beforeOuter_stack]
    rfl
  have hlocals : word (behindInner 65535 267).ram 1 = pointer (295 + 5) :=
    (word_behindInner_saved (by decide)).1
  refine ⟨link_relayFiles 65535, reached_beforeOuter 65535, rfl, by rw [hstack]; decide, _, _, _,
    step_beforeOuter 65535, between_relay (a := 267) (by decide) (by decide) (by decide) trivial,
    rfl, step_behindInner (by decide) (by decide) hlocals (by decide) (by decide), rfl, ?_, ?_⟩
  · rw [State.register_eq_word]
    exact (word_opening _).2.1
  · -- the frame is looked for behind the stack, where memory is empty
    rw [State.register_eq_word]
    refine (word_recalled _ _ _ (by decide)).trans ?_
    rw [word_result_of_ne _ _ (by decide) (by decide),
      word_behindInner_of_ne (by decide) (by decide), word_atReturn_of_ne (by decide) (by decide)]
    simp only [beforeInner, beforeOuter, opening]
    simp (disch := decide) only [word_entered_eq, word_framed_of_le, word_put_of_ne]
    exact word_replicate_zero _

end JackToolchain.Machine
