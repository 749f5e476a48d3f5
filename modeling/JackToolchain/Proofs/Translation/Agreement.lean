import JackToolchain.Proofs.Machine.Discipline

/-!
# Agreement of two memories

The memory of the stack machine and that of the processor hold the same words, except that static
variables have other addresses and that the processor keeps return addresses in frames.
-/

namespace JackToolchain.Machine

open JackToolchain.Memory

/-- Where static variables are in the one memory and in the other: one to one, and behind the
registers and below the stack. -/
structure StaticLayout (statics : Nat → Nat → Prop) : Prop where
  range : ∀ a b, statics a b → (16 ≤ a ∧ a < 256) ∧ (16 ≤ b ∧ b < 256)
  same : ∀ a b a' b', statics a b → statics a' b' → (a = a' ↔ b = b')

/-- `slots` are the addresses of return addresses, with what they hold. -/
structure Agree (statics : Nat → Nat → Prop) (slots : List (Nat × Nat)) (sp : Nat)
    (m : Vector Int16 ramSize) (r : Vector Int16 32768) : Prop where
  low : ∀ a, a ≤ 12 ∨ a = 15 → word r a = word m a
  heap : ∀ a, 2048 ≤ a → word r a = word m a
  stack : ∀ a, 256 ≤ a → a < sp → (∀ slot ∈ slots, slot.1 ≠ a) → word r a = word m a
  statics : ∀ a b, statics a b → word r b = word m a
  slots : ∀ slot ∈ slots, word r slot.1 = pointer slot.2

/-- Slots are words of the stack. -/
def SlotsBelow (slots : List (Nat × Nat)) (sp : Nat) : Prop :=
  ∀ slot ∈ slots, 256 ≤ slot.1 ∧ slot.1 < sp

section Agreement

variable {statics : Nat → Nat → Prop} {slots : List (Nat × Nat)} {sp : Nat}
  {m : Vector Int16 ramSize} {r : Vector Int16 32768}

theorem word_put_both {a : Nat} (w : Int16) (b : Nat) (h : word r b = word m b) :
    word (put r a w) b = word (put m a w) b := by
  have hsize : a < ramSize ↔ a < 32768 := Iff.rfl
  simp only [word_put, hsize, h]

/-- A scratch word is free. -/
theorem Agree.scratch (h : Agree statics slots sp m r) (hlayout : StaticLayout statics)
    (hslots : SlotsBelow slots sp) {a : Nat} (ha : a = 13 ∨ a = 14) (w : Int16) :
    Agree statics slots sp m (put r a w) where
  low b hb := by rw [word_put_of_ne _ _ (by omega), h.low b hb]
  heap b hb := by rw [word_put_of_ne _ _ (by omega), h.heap b hb]
  stack b hlow hb hslot := by rw [word_put_of_ne _ _ (by omega), h.stack b hlow hb hslot]
  statics b c hbc := by
    have hrange := (hlayout.range b c hbc).2
    rw [word_put_of_ne _ _ (by omega), h.statics b c hbc]
  slots slot hslot := by
    have hlow := (hslots slot hslot).1
    rw [word_put_of_ne _ _ (by omega), h.slots slot hslot]

/-- The same write to both, outside of slots and static variables. -/
theorem Agree.put (h : Agree statics slots sp m r) (hlayout : StaticLayout statics) {a : Nat}
    (ha : a < 16 ∨ 256 ≤ a) (hfree : ∀ slot ∈ slots, slot.1 ≠ a) (w : Int16) :
    Agree statics slots sp (Memory.put m a w) (Memory.put r a w) where
  low b hb := word_put_both w b (h.low b hb)
  heap b hb := word_put_both w b (h.heap b hb)
  stack b hlow hb hslot := word_put_both w b (h.stack b hlow hb hslot)
  statics b c hbc := by
    have hrange := hlayout.range b c hbc
    rw [word_put_of_ne _ _ (by omega), word_put_of_ne _ _ (by omega), h.statics b c hbc]
  slots slot hslot := by
    rw [word_put_of_ne _ _ (hfree slot hslot).symm, h.slots slot hslot]

/-- A write to a static variable. -/
theorem Agree.putStatic (h : Agree statics slots sp m r) (hlayout : StaticLayout statics)
    (hslots : SlotsBelow slots sp) {a b : Nat} (hab : statics a b) (w : Int16) :
    Agree statics slots sp (Memory.put m a w) (Memory.put r b w) := by
  have hrange := hlayout.range a b hab
  have hsize : ramSize = 32768 := rfl
  constructor
  · intro c hc
    rw [word_put_of_ne _ _ (by omega), word_put_of_ne _ _ (by omega), h.low c hc]
  · intro c hc
    rw [word_put_of_ne _ _ (by omega), word_put_of_ne _ _ (by omega), h.heap c hc]
  · intro c hlow hc hslot
    rw [word_put_of_ne _ _ (by omega), word_put_of_ne _ _ (by omega), h.stack c hlow hc hslot]
  · intro c d hcd
    by_cases hac : a = c
    · have hbd : b = d := (hlayout.same a b c d hab hcd).mp hac
      subst hac hbd
      rw [word_put_self _ _ (by omega), word_put_self _ _ (by omega)]
    · have hbd : b ≠ d := fun hbd => hac ((hlayout.same a b c d hab hcd).mpr hbd)
      rw [word_put_of_ne _ _ hbd, word_put_of_ne _ _ hac, h.statics c d hcd]
  · intro slot hslot
    have hlow := (hslots slot hslot).1
    rw [word_put_of_ne _ _ (by omega), h.slots slot hslot]

/-- Fewer words of the stack. -/
theorem Agree.lower (h : Agree statics slots sp m r) {sp' : Nat} (hle : sp' ≤ sp) :
    Agree statics slots sp' m r :=
  { h with stack := fun a hlow ha hslot => h.stack a hlow (by omega) hslot }

theorem Agree.popped (h : Agree statics slots sp m r) (hlayout : StaticLayout statics)
    (hslots : SlotsBelow slots sp) :
    Agree statics slots (sp - 1) (Memory.popped m sp) (Memory.popped r sp) := by
  have hfree : ∀ slot ∈ slots, slot.1 ≠ 0 := by
    intro slot hslot
    have hlow := (hslots slot hslot).1
    omega
  exact (h.lower (Nat.sub_le sp 1)).put hlayout (by omega) hfree _

theorem Agree.pushed (h : Agree statics slots sp m r) (hlayout : StaticLayout statics)
    (hslots : SlotsBelow slots sp) (hlow : 256 ≤ sp) (hlt : sp < 2048) (w : Int16) :
    Agree statics slots (sp + 1) (Memory.pushed m sp w) (Memory.pushed r sp w) := by
  have hfree (a : Nat) (ha : a = 0 ∨ a = sp) : ∀ slot ∈ slots, slot.1 ≠ a := by
    intro slot hslot
    have hbounds := hslots slot hslot
    omega
  have hsize : ramSize = 32768 := rfl
  have hput := h.put hlayout (a := sp) (by omega) (hfree sp (by omega)) w
  have hgrow : Agree statics slots (sp + 1) (Memory.put m sp w) (Memory.put r sp w) := by
    refine { hput with stack := fun a hge ha hslot => ?_ }
    by_cases hsp : a = sp
    · rw [hsp, word_put_self _ _ (by omega), word_put_self _ _ (by omega)]
    · exact hput.stack a hge (by omega) hslot
  exact hgrow.put hlayout (by omega) (hfree 0 (by omega)) _

/-- The return address of a new frame. -/
theorem Agree.pushedSlot (h : Agree statics slots sp m r) (hlayout : StaticLayout statics)
    (hslots : SlotsBelow slots sp) (hlow : 256 ≤ sp) (hlt : sp < 2048) (w : Int16) (target : Nat) :
    Agree statics ((sp, target) :: slots) (sp + 1) (Memory.pushed m sp w)
      (Memory.pushed r sp (pointer target)) := by
  have hsize : ramSize = 32768 := rfl
  have hzero (a : Nat) (ha : a ≠ sp) (hword : word r a = word m a) :
      word (Memory.pushed r sp (pointer target)) a = word (Memory.pushed m sp w) a := by
    refine word_put_both _ _ ?_
    rw [word_put_of_ne _ _ (Ne.symm ha), word_put_of_ne _ _ (Ne.symm ha), hword]
  constructor
  · intro a ha
    exact hzero a (by omega) (h.low a ha)
  · intro a ha
    exact hzero a (by omega) (h.heap a ha)
  · intro a hge ha hslot
    have hne : sp ≠ a := hslot (sp, target) List.mem_cons_self
    exact hzero a hne.symm
      (h.stack a hge (by omega) fun slot hmem => hslot slot (List.mem_cons_of_mem _ hmem))
  · intro a b hab
    have hrange := hlayout.range a b hab
    rw [word_pushed_of_ne _ _ (by omega) (by omega), word_pushed_of_ne _ _ (by omega) (by omega),
      h.statics a b hab]
  · intro slot hslot
    rcases List.mem_cons.mp hslot with rfl | hslot
    · exact word_pushed_self _ _ (by omega) (by omega)
    · have hbounds := hslots slot hslot
      rw [word_pushed_of_ne _ _ (by omega) (by omega), h.slots slot hslot]

theorem SlotsBelow.mono (h : SlotsBelow slots sp) {sp' : Nat} (hle : sp ≤ sp') :
    SlotsBelow slots sp' :=
  fun slot hslot => ⟨(h slot hslot).1, (h slot hslot).2.trans_le hle⟩

theorem Agree.zeroed (h : Agree statics slots sp m r) (hlayout : StaticLayout statics)
    (hslots : SlotsBelow slots sp) (hlow : 256 ≤ sp) (count : Nat) (hle : sp + count ≤ 2048) :
    Agree statics slots (sp + count) (Memory.zeroed m sp count) (Memory.zeroed r sp count) := by
  induction count generalizing m r sp with
  | zero => exact h
  | succ count ih =>
      have hpush := h.pushed hlayout hslots hlow (by omega) 0
      have hall := ih hpush (hslots.mono (by omega)) (by omega) (by omega)
      rw [show sp + 1 + count = sp + (count + 1) by omega] at hall
      exact hall

/-- A frame for a call, whose first word is the return address on one side only. -/
theorem Agree.framed (h : Agree statics slots sp m r) (hlayout : StaticLayout statics)
    (hslots : SlotsBelow slots sp) (hlow : 256 ≤ sp) (hle : sp + 5 ≤ 2048) (count target : Nat) :
    Agree statics ((sp, target) :: slots) (sp + 5) (Memory.framed m sp count 0)
      (Memory.framed r sp count (pointer target)) := by
  have hslots' : SlotsBelow ((sp, target) :: slots) (sp + 1) := by
    intro slot hslot
    rcases List.mem_cons.mp hslot with rfl | hslot
    · exact ⟨hlow, Nat.lt_succ_self sp⟩
    · exact hslots.mono (Nat.le_succ sp) slot hslot
  have hword (a : Nat) (ha : a ≤ 12) : word r a = word m a := h.low a (.inl ha)
  have hfirst := h.pushedSlot hlayout hslots hlow (by omega) 0 target
  have hsecond := hfirst.pushed hlayout hslots' (by omega) (by omega) (word m 1)
  have hthird := hsecond.pushed hlayout (hslots'.mono (by omega)) (by omega) (by omega) (word m 2)
  have hfourth := hthird.pushed hlayout (hslots'.mono (by omega)) (by omega) (by omega) (word m 3)
  have hfifth := hfourth.pushed hlayout (hslots'.mono (by omega)) (by omega) (by omega) (word m 4)
  have hfree (a : Nat) (ha : a < 256) : ∀ slot ∈ (sp, target) :: slots, slot.1 ≠ a := by
    intro slot hslot
    have hbounds := hslots' slot hslot
    omega
  have hargs := hfifth.put hlayout (a := 2) (by omega) (hfree 2 (by omega)) (pointer (sp - count))
  have hall := hargs.put hlayout (a := 1) (by omega) (hfree 1 (by omega)) (pointer (sp + 5))
  unfold Memory.framed saved
  rw [hword 1 (by omega), hword 2 (by omega), hword 3 (by omega), hword 4 (by omega)]
  exact hall

/-- When a frame is left, its slot is no longer one. -/
theorem Agree.restored {frame arguments target : Nat}
    (h : Agree statics ((frame - 5, target) :: slots) sp m r) (hlayout : StaticLayout statics)
    (hslots : SlotsBelow slots arguments) (hlow : 256 ≤ arguments) (hroom : arguments + 5 ≤ frame)
    (hframe : frame < sp) (hle : sp ≤ 2048) :
    Agree statics slots (arguments + 1) (Memory.restored m sp frame arguments)
      (Memory.restored r sp frame arguments) := by
  have hlive (a : Nat) (hge : frame - 4 ≤ a) (ha : a < sp) : word r a = word m a := by
    refine h.stack a (by omega) ha ?_
    intro slot hslot
    rcases List.mem_cons.mp hslot with rfl | hslot
    · simp only
      omega
    · have hbounds := hslots slot hslot
      omega
  have hbelow : Agree statics slots arguments m r := by
    refine { h with stack := fun a hge ha hslot => h.stack a hge (by omega) ?_, slots := ?_ }
    · intro slot hmem
      rcases List.mem_cons.mp hmem with rfl | hmem
      · simp only
        omega
      · exact hslot slot hmem
    · exact fun slot hslot => h.slots slot (List.mem_cons_of_mem _ hslot)
  have hfree (a : Nat) (ha : a < 256) : ∀ slot ∈ slots, slot.1 ≠ a := by
    intro slot hslot
    have hbounds := hslots slot hslot
    omega
  have hpop := hbelow.put hlayout (a := 0) (by omega) (hfree 0 (by omega)) (pointer (sp - 1))
  have hpush := hpop.pushed hlayout hslots hlow (by omega) (word m (sp - 1))
  have hthat := hpush.put hlayout (a := 4) (by omega) (hfree 4 (by omega)) (word m (frame - 1))
  have hthis := hthat.put hlayout (a := 3) (by omega) (hfree 3 (by omega)) (word m (frame - 2))
  have hargs := hthis.put hlayout (a := 2) (by omega) (hfree 2 (by omega)) (word m (frame - 3))
  have hall := hargs.put hlayout (a := 1) (by omega) (hfree 1 (by omega)) (word m (frame - 4))
  unfold Memory.restored
  rw [hlive (sp - 1) (by omega) (by omega), hlive (frame - 1) (by omega) (by omega),
    hlive (frame - 2) (by omega) (by omega), hlive (frame - 3) (by omega) (by omega),
    hlive (frame - 4) (by omega) (by omega)]
  exact hall

end Agreement

end JackToolchain.Machine
