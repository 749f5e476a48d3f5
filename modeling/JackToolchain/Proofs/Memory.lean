import Mathlib.Data.Vector.Defs
import Mathlib.Tactic.Ring

/-!
# Words of memory

Reading and writing a memory at addresses that are plain numbers, and the words that hold such an
address.
-/

namespace JackToolchain.Memory

variable {size : Nat}

/-- The word at an address; behind the end it is zero. -/
def word (m : Vector Int16 size) (a : Nat) : Int16 := m[a]?.getD 0

/-- Nothing happens behind the end. -/
def put (m : Vector Int16 size) (a : Nat) (w : Int16) : Vector Int16 size := m.setIfInBounds a w

theorem word_put (m : Vector Int16 size) (a : Nat) (w : Int16) (b : Nat) :
    word (put m a w) b = if a = b ∧ a < size then w else word m b := by
  by_cases hab : a = b
  · subst hab
    by_cases ha : a < size
    · simp [word, put, ha]
    · simp [word, put, ha]
  · simp [word, put, hab]

theorem getElem_eq_word (m : Vector Int16 size) (a : Nat) (ha : a < size) : m[a] = word m a := by
  simp [word, ha]

theorem getElem?_eq_word (m : Vector Int16 size) {a : Nat} (ha : a < size) :
    m[a]? = some (word m a) := by
  simp [word, ha]

theorem set_eq_put (m : Vector Int16 size) (a : Nat) (w : Int16) (ha : a < size) :
    m.set a w ha = put m a w := by
  apply Vector.ext
  intro i hi
  simp [put, Vector.getElem_set, Vector.getElem_setIfInBounds]

theorem word_of_le (m : Vector Int16 size) {a : Nat} (ha : size ≤ a) : word m a = 0 := by
  simp [word, ha]

theorem word_replicate_zero (a : Nat) : word (Vector.replicate size (0 : Int16)) a = 0 := by
  by_cases ha : a < size
  · simp [word, ha]
  · exact word_of_le _ (Nat.le_of_not_lt ha)

attribute [irreducible] word put

theorem word_put_self (m : Vector Int16 size) {a : Nat} (w : Int16) (ha : a < size) :
    word (put m a w) a = w := by
  simp [word_put, ha]

theorem word_put_of_ne (m : Vector Int16 size) {a b : Nat} (w : Int16) (hab : a ≠ b) :
    word (put m a w) b = word m b := by
  simp [word_put, hab]

theorem ext_word {m m' : Vector Int16 size} (h : ∀ a, word m a = word m' a) : m = m' := by
  apply Vector.ext
  intro a ha
  rw [getElem_eq_word m a ha, getElem_eq_word m' a ha, h a]

/-- Writes to the same address: the last one counts. -/
theorem put_put (m : Vector Int16 size) (a : Nat) (v w : Int16) :
    put (put m a v) a w = put m a w := by
  apply ext_word
  intro b
  simp only [word_put]
  split <;> simp_all

theorem put_comm (m : Vector Int16 size) {a b : Nat} (v w : Int16) (hab : a ≠ b) :
    put (put m a v) b w = put (put m b w) a v := by
  apply ext_word
  intro x
  simp only [word_put]
  by_cases hax : a = x <;> by_cases hbx : b = x <;> simp_all

/-- The word that holds an address. -/
def pointer (n : Nat) : Int16 := Int16.ofNat n

@[simp] theorem toInt_pointer {n : Nat} (hn : n < 32768) : (pointer n).toInt = n :=
  Int16.toInt_ofNat_of_lt hn

theorem pointer_add (n k : Nat) : pointer n + pointer k = pointer (n + k) :=
  (Int16.ofNat_add n k).symm

theorem pointer_add_one (n : Nat) : pointer n + 1 = pointer (n + 1) := pointer_add n 1

theorem pointer_sub {n k : Nat} (hk : k ≤ n) : pointer n - pointer k = pointer (n - k) := by
  obtain ⟨d, rfl⟩ := Nat.exists_eq_add_of_le hk
  have hsum : pointer (k + d) = pointer k + pointer d := (pointer_add k d).symm
  rw [hsum, Nat.add_sub_cancel_left]
  grind

theorem pointer_sub_one {n : Nat} (hn : 0 < n) : pointer n - 1 = pointer (n - 1) :=
  pointer_sub hn

theorem toNat_toUInt16_pointer {n : Nat} (hn : n < 32768) : (pointer n).toUInt16.toNat = n := by
  have hsize : n < 65536 := by omega
  simp [pointer, Nat.mod_eq_of_lt hsize]

theorem toInt16_eq_pointer (w : UInt16) : w.toInt16 = pointer w.toNat := by
  have hnat : UInt16.ofNat w.toNat = w := UInt16.ofNat_toNat
  rw [pointer, ← UInt16.toInt16_ofNat', hnat]

/-- A word that is not negative is the pointer of its value. -/
theorem eq_pointer_of_toInt {w : Int16} {n : Nat} (h : w.toInt = n) : w = pointer n := by
  apply Int16.toInt_inj.mp
  have hlt := Int16.toInt_lt w
  rw [h, toInt_pointer (by omega)]

/-! ## Stacks in memory -/

/-- The memory after a word is pushed at the stack pointer `sp`. -/
def pushed (m : Vector Int16 size) (sp : Nat) (w : Int16) : Vector Int16 size :=
  put (put m sp w) 0 (pointer (sp + 1))

/-- The memory after the word below `sp` is popped. -/
def popped (m : Vector Int16 size) (sp : Nat) : Vector Int16 size :=
  put m 0 (pointer (sp - 1))

/-- The memory after some zeros are pushed. -/
def zeroed (m : Vector Int16 size) (sp : Nat) : Nat → Vector Int16 size
  | 0 => m
  | count + 1 => zeroed (pushed m sp 0) (sp + 1) count

/-- The memory after some words from `a` on are cleared. -/
def cleared (m : Vector Int16 size) (a : Nat) : Nat → Vector Int16 size
  | 0 => m
  | count + 1 => cleared (put m a 0) (a + 1) count

/-- The memory after a frame is saved at `sp`, with its first word given. -/
def saved (m : Vector Int16 size) (sp : Nat) (first : Int16) : Vector Int16 size :=
  pushed (pushed (pushed (pushed (pushed m sp first) (sp + 1) (word m 1)) (sp + 2) (word m 2))
    (sp + 3) (word m 3)) (sp + 4) (word m 4)

/-- The memory after a frame for some arguments is pushed. -/
def framed (m : Vector Int16 size) (sp count : Nat) (first : Int16) : Vector Int16 size :=
  put (put (saved m sp first) 2 (pointer (sp - count))) 1 (pointer (sp + 5))

/-- The memory after a frame that ends below `locals` is left: the top of the stack goes to the
first argument, and the registers of the caller come back. -/
def restored (m : Vector Int16 size) (sp locals arguments : Nat) : Vector Int16 size :=
  put (put (put (put (put (put (popped m sp) arguments (word m (sp - 1))) 0
    (pointer (arguments + 1))) 4 (word m (locals - 1))) 3 (word m (locals - 2))) 2
    (word m (locals - 3))) 1 (word m (locals - 4))

theorem word_popped_zero (m : Vector Int16 size) (sp : Nat) (hsize : 0 < size) :
    word (popped m sp) 0 = pointer (sp - 1) := by
  rw [popped, word_put_self _ _ hsize]

theorem word_pushed_zero (m : Vector Int16 size) (sp : Nat) (w : Int16) (hsize : 0 < size) :
    word (pushed m sp w) 0 = pointer (sp + 1) := by
  rw [pushed, word_put_self _ _ hsize]

theorem word_popped_of_ne (m : Vector Int16 size) (sp : Nat) {a : Nat} (hpos : a ≠ 0) :
    word (popped m sp) a = word m a := by
  rw [popped, word_put_of_ne _ _ (Ne.symm hpos)]

theorem word_pushed_self (m : Vector Int16 size) {sp : Nat} (w : Int16) (hpos : sp ≠ 0)
    (hlt : sp < size) : word (pushed m sp w) sp = w := by
  rw [pushed, word_put_of_ne _ _ (Ne.symm hpos), word_put_self _ _ hlt]

theorem word_pushed_of_ne (m : Vector Int16 size) {sp a : Nat} (w : Int16) (ha : sp ≠ a)
    (hpos : a ≠ 0) : word (pushed m sp w) a = word m a := by
  rw [pushed, word_put_of_ne _ _ (Ne.symm hpos), word_put_of_ne _ _ ha]

theorem put_self (m : Vector Int16 size) (a : Nat) : put m a (word m a) = m := by
  apply ext_word
  intro b
  rw [word_put]
  split
  · rename_i hab
    rw [hab.1]
  · rfl

theorem cleared_put (m : Vector Int16 size) (w : Int16) {a b : Nat} (count : Nat) (hab : b < a) :
    cleared (put m b w) a count = put (cleared m a count) b w := by
  induction count generalizing m a with
  | zero => rfl
  | succ count ih =>
      have hne : b ≠ a := by omega
      simp only [cleared]
      rw [put_comm _ _ _ hne, ih _ (by omega)]

/-- To push zeros is to clear words and then to move the stack pointer. -/
theorem zeroed_eq_put_cleared {m : Vector Int16 size} {sp : Nat} (count : Nat)
    (hsp : word m 0 = pointer sp) (hpos : 0 < sp) (hsize : 0 < size) :
    zeroed m sp count = put (cleared m sp count) 0 (pointer (sp + count)) := by
  induction count generalizing m sp with
  | zero =>
      simp only [zeroed, cleared, Nat.add_zero]
      rw [← hsp, put_self]
  | succ count ih =>
      have hzero := word_pushed_zero m sp 0 hsize
      simp only [zeroed, cleared]
      rw [ih hzero (by omega), pushed, cleared_put _ _ _ (by omega), put_put]
      rw [show sp + 1 + count = sp + (count + 1) by omega]

section Frames

variable (m : Vector Int16 size) {sp frame arguments : Nat}

theorem word_restored_of_ne {a : Nat} (hlow : 5 ≤ a) (hne : arguments ≠ a) :
    word (restored m sp frame arguments) a = word m a := by
  unfold restored
  rw [word_put_of_ne _ _ (by omega), word_put_of_ne _ _ (by omega), word_put_of_ne _ _ (by omega),
    word_put_of_ne _ _ (by omega), word_put_of_ne _ _ (by omega), word_put_of_ne _ _ hne,
    word_popped_of_ne _ _ (by omega)]

/-- The value handed over. -/
theorem word_restored_arguments (hlow : 5 ≤ arguments) (hlt : arguments < size) :
    word (restored m sp frame arguments) arguments = word m (sp - 1) := by
  unfold restored
  rw [word_put_of_ne _ _ (by omega), word_put_of_ne _ _ (by omega), word_put_of_ne _ _ (by omega),
    word_put_of_ne _ _ (by omega), word_put_of_ne _ _ (by omega), word_put_self _ _ hlt]

theorem word_restored_stack (hsize : 5 ≤ size) :
    word (restored m sp frame arguments) 0 = pointer (arguments + 1) := by
  unfold restored
  rw [word_put_of_ne _ _ (by omega), word_put_of_ne _ _ (by omega), word_put_of_ne _ _ (by omega),
    word_put_of_ne _ _ (by omega), word_put_self _ _ (by omega)]

theorem word_restored_locals (hsize : 5 ≤ size) :
    word (restored m sp frame arguments) 1 = word m (frame - 4) := by
  unfold restored
  rw [word_put_self _ _ (by omega)]

theorem word_restored_args (hsize : 5 ≤ size) :
    word (restored m sp frame arguments) 2 = word m (frame - 3) := by
  unfold restored
  rw [word_put_of_ne _ _ (by omega), word_put_self _ _ (by omega)]

theorem word_restored_this (hsize : 5 ≤ size) :
    word (restored m sp frame arguments) 3 = word m (frame - 2) := by
  unfold restored
  rw [word_put_of_ne _ _ (by omega), word_put_of_ne _ _ (by omega), word_put_self _ _ (by omega)]

theorem word_saved_of_lt {a : Nat} (first : Int16) (hpos : a ≠ 0) (hlt : a < sp) :
    word (saved m sp first) a = word m a := by
  unfold saved
  rw [word_pushed_of_ne _ _ (by omega) hpos, word_pushed_of_ne _ _ (by omega) hpos,
    word_pushed_of_ne _ _ (by omega) hpos, word_pushed_of_ne _ _ (by omega) hpos,
    word_pushed_of_ne _ _ (by omega) hpos]

theorem word_framed_of_lt {a : Nat} (count : Nat) (first : Int16) (hlow : 3 ≤ a) (hlt : a < sp) :
    word (framed m sp count first) a = word m a := by
  unfold framed
  rw [word_put_of_ne _ _ (by omega), word_put_of_ne _ _ (by omega),
    word_saved_of_lt m first (by omega) hlt]

theorem word_framed_of_le {a : Nat} (count : Nat) (first : Int16) (hlow : 3 ≤ a)
    (hle : sp + 5 ≤ a) : word (framed m sp count first) a = word m a := by
  unfold framed saved
  rw [word_put_of_ne _ _ (by omega), word_put_of_ne _ _ (by omega),
    word_pushed_of_ne _ _ (by omega) (by omega), word_pushed_of_ne _ _ (by omega) (by omega),
    word_pushed_of_ne _ _ (by omega) (by omega), word_pushed_of_ne _ _ (by omega) (by omega),
    word_pushed_of_ne _ _ (by omega) (by omega)]

theorem word_framed_stack (count : Nat) (first : Int16) (hsize : 5 ≤ size) :
    word (framed m sp count first) 0 = pointer (sp + 5) := by
  unfold framed
  rw [word_put_of_ne _ _ (by omega), word_put_of_ne _ _ (by omega), saved,
    word_pushed_zero _ _ _ (by omega)]

theorem word_framed_locals (count : Nat) (first : Int16) (hsize : 5 ≤ size) :
    word (framed m sp count first) 1 = pointer (sp + 5) := by
  unfold framed
  rw [word_put_self _ _ (by omega)]

theorem word_framed_args (count : Nat) (first : Int16) (hsize : 5 ≤ size) :
    word (framed m sp count first) 2 = pointer (sp - count) := by
  unfold framed
  rw [word_put_of_ne _ _ (by omega), word_put_self _ _ (by omega)]

theorem word_framed_first (count : Nat) (first : Int16) (hlow : 3 ≤ sp) (hlt : sp + 5 ≤ size) :
    word (framed m sp count first) sp = first := by
  unfold framed saved
  rw [word_put_of_ne _ _ (by omega), word_put_of_ne _ _ (by omega),
    word_pushed_of_ne _ _ (by omega) (by omega), word_pushed_of_ne _ _ (by omega) (by omega),
    word_pushed_of_ne _ _ (by omega) (by omega), word_pushed_of_ne _ _ (by omega) (by omega),
    word_pushed_self _ _ (by omega) (by omega)]

/-- The saved registers. -/
theorem word_framed_saved {k : Nat} (count : Nat) (first : Int16) (hk : 1 ≤ k ∧ k ≤ 4)
    (hlow : 5 ≤ sp) (hlt : sp + 5 ≤ size) :
    word (framed m sp count first) (sp + k) = word m k := by
  obtain rfl | rfl | rfl | rfl : k = 1 ∨ k = 2 ∨ k = 3 ∨ k = 4 := by omega
  all_goals
    unfold framed saved
    rw [word_put_of_ne _ _ (by omega), word_put_of_ne _ _ (by omega)]
  · rw [word_pushed_of_ne _ _ (by omega) (by omega), word_pushed_of_ne _ _ (by omega) (by omega),
      word_pushed_of_ne _ _ (by omega) (by omega), word_pushed_self _ _ (by omega) (by omega)]
  · rw [word_pushed_of_ne _ _ (by omega) (by omega), word_pushed_of_ne _ _ (by omega) (by omega),
      word_pushed_self _ _ (by omega) (by omega)]
  · rw [word_pushed_of_ne _ _ (by omega) (by omega), word_pushed_self _ _ (by omega) (by omega)]
  · rw [word_pushed_self _ _ (by omega) (by omega)]

theorem word_zeroed_of_lt (count : Nat) {a : Nat} (hpos : a ≠ 0) (hlt : a < sp) :
    word (zeroed m sp count) a = word m a := by
  induction count generalizing m sp with
  | zero => rfl
  | succ count ih =>
      simp only [zeroed]
      rw [ih _ (by omega), word_pushed_of_ne _ _ (by omega) hpos]

theorem word_zeroed_of_le (count : Nat) {a : Nat} (hpos : a ≠ 0) (hle : sp + count ≤ a) :
    word (zeroed m sp count) a = word m a := by
  induction count generalizing m sp with
  | zero => rfl
  | succ count ih =>
      simp only [zeroed]
      rw [ih _ (by omega), word_pushed_of_ne _ _ (by omega) hpos]

theorem word_zeroed_inside (count : Nat) {a : Nat} (hpos : sp ≠ 0) (hle : sp ≤ a)
    (hlt : a < sp + count) (hsize : a < size) : word (zeroed m sp count) a = 0 := by
  induction count generalizing m sp with
  | zero => omega
  | succ count ih =>
      simp only [zeroed]
      rcases Nat.eq_or_lt_of_le hle with rfl | hlt'
      · rw [word_zeroed_of_lt _ count hpos (by omega), word_pushed_self _ _ hpos hsize]
      · exact ih _ (by omega) hlt' (by omega)

theorem word_zeroed_stack (count : Nat) (hsp : word m 0 = pointer sp) (hsize : 0 < size) :
    word (zeroed m sp count) 0 = pointer (sp + count) := by
  induction count generalizing m sp with
  | zero => exact hsp
  | succ count ih =>
      simp only [zeroed]
      rw [ih _ (word_pushed_zero _ _ _ hsize), show sp + 1 + count = sp + (count + 1) by omega]

end Frames

end JackToolchain.Memory
