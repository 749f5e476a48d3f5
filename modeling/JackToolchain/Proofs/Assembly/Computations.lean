import JackToolchain.Proofs.Assembly.Blocks
import JackToolchain.Proofs.Assembly.Words
import Mathlib.Data.Nat.Bitwise

/-!
# Computations

The computations of the processor, how they are written and what their values are. A mnemonic has
bits exactly if it writes one of them, and from these bits the processor computes its value. The
letters of a destination say where the result goes, each at most once and in any order.
-/

namespace JackToolchain.Assembly

open Symbols JackToolchain.Memory

/-- What can stand beside `D`: the address register or the word of memory at its address. -/
inductive Partner
  | register
  | memory
  deriving DecidableEq, Repr

inductive Operand
  | data
  | partner (y : Partner)
  deriving DecidableEq, Repr

inductive Connective
  | plus
  | minus
  | and
  | or
  deriving DecidableEq, Repr

/-- What the processor can compute. -/
inductive Computation
  | zero
  | one
  | minusOne
  | copy (x : Operand)
  | complement (x : Operand)
  | negate (x : Operand)
  | successor (x : Operand)
  /-- The same as `successor`, with the one in front. -/
  | oneMore (x : Operand)
  | predecessor (x : Operand)
  /-- `D` on the left of its partner. -/
  | dataWith (op : Connective) (y : Partner)
  /-- `D` on the right of its partner. -/
  | withData (op : Connective) (y : Partner)
  deriving DecidableEq, Repr

namespace Partner

def text : Partner → String
  | register => "A"
  | memory => "M"

def value (a m : Int16) : Partner → Int16
  | register => a
  | memory => m

def all : List Partner := [register, memory]

end Partner

namespace Operand

def text : Operand → String
  | data => "D"
  | partner y => y.text

def value (d a m : Int16) : Operand → Int16
  | data => d
  | partner y => y.value a m

def all : List Operand := data :: Partner.all.map partner

end Operand

namespace Connective

def text : Connective → String
  | plus => "+"
  | minus => "-"
  | and => "&"
  | or => "|"

def value (x y : Int16) : Connective → Int16
  | plus => x + y
  | minus => x - y
  | and => x &&& y
  | or => x ||| y

def all : List Connective := [plus, minus, and, or]

end Connective

namespace Computation

def text : Computation → String
  | zero => "0"
  | one => "1"
  | minusOne => "-1"
  | copy x => x.text
  | complement x => "!" ++ x.text
  | negate x => "-" ++ x.text
  | successor x => x.text ++ "+1"
  | oneMore x => "1+" ++ x.text
  | predecessor x => x.text ++ "-1"
  | dataWith op y => "D" ++ op.text ++ y.text
  | withData op y => y.text ++ op.text ++ "D"

/-- The value over the data register, the address register and a word of memory. -/
def value (d a m : Int16) : Computation → Int16
  | zero => 0
  | one => 1
  | minusOne => -1
  | copy x => x.value d a m
  | complement x => ~~~(x.value d a m)
  | negate x => -(x.value d a m)
  | successor x => x.value d a m + 1
  | oneMore x => 1 + x.value d a m
  | predecessor x => x.value d a m - 1
  | dataWith op y => op.value d (y.value a m)
  | withData op y => op.value (y.value a m) d

def all : List Computation :=
  [zero, one, minusOne] ++
    Operand.all.flatMap (fun x =>
      [copy x, complement x, negate x, successor x, oneMore x, predecessor x]) ++
    Connective.all.flatMap fun op => Partner.all.flatMap fun y => [dataWith op y, withData op y]

end Computation

theorem compBits?_text (c : Computation) : ∃ bits, compBits? c.text = some bits := by
  rcases c with _ | _ | _ | (_ | _ | _) | (_ | _ | _) | (_ | _ | _) | (_ | _ | _) | (_ | _ | _) |
    (_ | _ | _) | ⟨_ | _ | _ | _, _ | _⟩ | ⟨_ | _ | _ | _, _ | _⟩
  all_goals exact ⟨_, rfl⟩

/-- Memory in the place of the address register. -/
def onMemory (row : String) : String :=
  String.ofList (row.toList.map fun c => if c = 'A' then 'M' else c)

/-- Every row of the table, over the register and over memory, writes a computation. -/
theorem exists_text_of_mem : ∀ row ∈ compTable,
    (∃ c ∈ Computation.all, c.text = row.1) ∧ ∃ c ∈ Computation.all, c.text = onMemory row.1 := by
  decide

theorem eq_of_register {comp : String} (h : 'M' ∉ comp.toList) :
    String.ofList (comp.toList.map fun c => if c = 'M' then 'A' else c) = comp := by
  have hself : (comp.toList.map fun c => if c = 'M' then 'A' else c) = comp.toList := by
    refine (List.map_congr_left fun c hc => if_neg ?_).trans (List.map_id _)
    rintro rfl
    exact h hc
  rw [hself, String.ofList_toList]

theorem eq_onMemory {comp : String} (h : 'A' ∉ comp.toList) :
    onMemory (String.ofList (comp.toList.map fun c => if c = 'M' then 'A' else c)) = comp := by
  have hself : (comp.toList.map fun c =>
      if (if c = 'M' then 'A' else c) = 'A' then 'M' else if c = 'M' then 'A' else c) =
        comp.toList := by
    refine (List.map_congr_left fun c hc => ?_).trans (List.map_id _)
    by_cases hmemory : c = 'M'
    · simp [hmemory]
    · have hregister : c ≠ 'A' := fun heq => h (heq ▸ hc)
      simp [hmemory, hregister]
  rw [onMemory, String.toList_ofList, List.map_map]
  exact (congrArg String.ofList hself).trans String.ofList_toList

theorem exists_text_of_compBits? {comp : String} {bits : UInt16} (h : compBits? comp = some bits) :
    ∃ c : Computation, c.text = comp := by
  simp only [compBits?, List.contains_iff_mem] at h
  split at h
  · cases h
  · rename_i hboth
    obtain ⟨row, hrow, -⟩ := Option.map_eq_some_iff.mp h
    obtain ⟨⟨c, -, hc⟩, c', -, hc'⟩ := exists_text_of_mem _ (mem_of_lookup hrow)
    by_cases hmemory : 'M' ∈ comp.toList
    · exact ⟨c', hc'.trans (eq_onMemory fun hregister => hboth (by simp [hmemory, hregister]))⟩
    · exact ⟨c, hc.trans (eq_of_register hmemory)⟩

/-! ## Bits of a word -/

section Bits

variable {comp dest jump : UInt16} (hcomp : comp.toNat < 128) (hdest : dest.toNat < 8)
  (hjump : jump.toNat < 8)

include hcomp hdest hjump

namespace Cpu

theorem flag_encodeCompute_comp {n : Nat} (hn : n < 7) :
    flag (encodeCompute comp dest jump) (n + 6) = comp.toNat.testBit n := by
  have hword : (encodeCompute comp dest jump).toNat =
      2 ^ 6 * (2 ^ 7 * 7 + comp.toNat) + (dest.toNat * 8 + jump.toNat) := by
    rw [toNat_encodeCompute hcomp hdest hjump]
    omega
  have hlow : dest.toNat * 8 + jump.toNat < 2 ^ 6 := by omega
  rw [flag, hword, Nat.testBit_two_pow_mul_add _ hlow, if_neg (by omega), Nat.add_sub_cancel,
    Nat.testBit_two_pow_mul_add _ hcomp, if_pos hn]

theorem flag_encodeCompute_dest {n : Nat} (hn : n < 3) :
    flag (encodeCompute comp dest jump) (n + 3) = dest.toNat.testBit n := by
  have hword : (encodeCompute comp dest jump).toNat =
      2 ^ 3 * (2 ^ 3 * (896 + comp.toNat) + dest.toNat) + jump.toNat := by
    rw [toNat_encodeCompute hcomp hdest hjump]
    omega
  rw [flag, hword, Nat.testBit_two_pow_mul_add _ hjump, if_neg (by omega), Nat.add_sub_cancel,
    Nat.testBit_two_pow_mul_add _ hdest, if_pos hn]

theorem flag_encodeCompute_mark : flag (encodeCompute comp dest jump) 15 = true := by
  have hword : (encodeCompute comp dest jump).toNat =
      2 ^ 15 * 1 + (24576 + comp.toNat * 64 + dest.toNat * 8 + jump.toNat) := by
    rw [toNat_encodeCompute hcomp hdest hjump]
    omega
  rw [flag, hword, Nat.testBit_two_pow_mul_add _ (by omega)]
  rfl

end Cpu

end Bits

namespace Cpu

theorem not_not_add (x y : Int16) : ~~~(~~~x + y) = x - y := by
  rw [Int16.add_comm, not_add_not]

theorem alu_encodeCompute (c : Computation) {bits dest jump : UInt16}
    (h : compBits? c.text = some bits) (hdest : dest.toNat < 8) (hjump : jump.toNat < 8)
    (d a m : Int16) :
    alu (encodeCompute bits dest jump) d (if flag (encodeCompute bits dest jump) 12 then m else a) =
      c.value d a m := by
  have hflag {n : Nat} (hn : n < 7) :
      flag (encodeCompute bits dest jump) (n + 6) = bits.toNat.testBit n :=
    flag_encodeCompute_comp (compBits?_lt h) hdest hjump hn
  have hzx := hflag (n := 5) (by decide)
  have hnx := hflag (n := 4) (by decide)
  have hzy := hflag (n := 3) (by decide)
  have hny := hflag (n := 2) (by decide)
  have hf := hflag (n := 1) (by decide)
  have hno := hflag (n := 0) (by decide)
  have ha := hflag (n := 6) (by decide)
  simp only [Nat.reduceAdd] at hzx hnx hzy hny hf hno ha
  simp only [alu, hzx, hnx, hzy, hny, hf, hno, ha]
  rcases c with _ | _ | _ | (_ | _ | _) | (_ | _ | _) | (_ | _ | _) | (_ | _ | _) | (_ | _ | _) |
    (_ | _ | _) | ⟨_ | _ | _ | _, _ | _⟩ | ⟨_ | _ | _ | _, _ | _⟩
  all_goals
    cases h
    simp +decide [Computation.value, Operand.value, Partner.value, Connective.value, not_sub_one,
      neg_not, not_add_not, not_not_add, neg_one_add, add_neg_one, not_and_not, Int16.add_comm 1,
      Int16.add_comm a d, Int16.add_comm m d, Int16.and_comm a d, Int16.and_comm m d,
      Int16.or_comm a d, Int16.or_comm m d]

end Cpu

/-! ## Destinations -/

/-- The letters of a destination and the places of their bits. -/
def destLetters : List (Char × Nat) := [('A', 2), ('D', 1), ('M', 0)]

theorem destBit?_of_mem {c : Char} {n : Nat} (h : (c, n) ∈ destLetters) :
    ∃ bit, destBit? c = some bit ∧ bit.toNat = 2 ^ n := by
  simp only [destLetters, List.mem_cons, Prod.mk.injEq, List.not_mem_nil, or_false] at h
  rcases h with ⟨rfl, rfl⟩ | ⟨rfl, rfl⟩ | ⟨rfl, rfl⟩
  all_goals exact ⟨_, rfl, rfl⟩

theorem mem_of_destBit? {c : Char} {bit : UInt16} (h : destBit? c = some bit) :
    ∃ n, (c, n) ∈ destLetters ∧ bit.toNat = 2 ^ n := by
  unfold destBit? at h
  split at h
  · cases h
    exact ⟨2, by decide, rfl⟩
  · cases h
    exact ⟨1, by decide, rfl⟩
  · cases h
    exact ⟨0, by decide, rfl⟩
  · cases h

theorem eq_iff_of_mem {c c' : Char} {n n' : Nat} (h : (c, n) ∈ destLetters)
    (h' : (c', n') ∈ destLetters) : n = n' ↔ c = c' := by
  have hall : ∀ p ∈ destLetters, ∀ q ∈ destLetters, p.2 = q.2 ↔ p.1 = q.1 := by decide
  exact hall _ h _ h'

theorem testBit_or {seen bit : UInt16} {n : Nat} (hbit : bit.toNat = 2 ^ n) (k : Nat) :
    (seen ||| bit).toNat.testBit k = (seen.toNat.testBit k || decide (n = k)) := by
  rw [UInt16.toNat_or, Nat.testBit_or, hbit, Nat.testBit_two_pow]

theorem and_ne_zero_iff {seen bit : UInt16} {n : Nat} (hbit : bit.toNat = 2 ^ n) :
    (seen &&& bit != 0) = seen.toNat.testBit n := by
  have hand : (seen &&& bit).toNat = (seen.toNat.testBit n).toNat * 2 ^ n := by
    rw [UInt16.toNat_and, hbit, Nat.and_two_pow]
  rw [bne, Bool.not_eq_eq_eq_not, Bool.eq_iff_iff, beq_iff_eq, ← UInt16.toNat_inj, hand]
  cases seen.toNat.testBit n
  · simp
  · have hpos := Nat.two_pow_pos n
    simp

/-- A sequence of letters has bits if none of them comes twice or was seen before. -/
theorem destBitsFrom_isSome_iff (seen : UInt16) (letters : List Char) :
    (∃ bits, destBitsFrom seen letters = some bits) ↔
      letters.Nodup ∧ ∀ c ∈ letters, ∃ n, (c, n) ∈ destLetters ∧ seen.toNat.testBit n = false := by
  induction letters generalizing seen with
  | nil => simp [destBitsFrom]
  | cons c rest ih =>
      rw [destBitsFrom]
      cases hc : destBit? c with
      | none =>
          refine iff_of_false (by simp) fun hall => ?_
          obtain ⟨n, hn, -⟩ := hall.2 c List.mem_cons_self
          obtain ⟨bit, hbit, -⟩ := destBit?_of_mem hn
          rw [hc] at hbit
          cases hbit
      | some bit =>
          obtain ⟨n, hn, hbit⟩ := mem_of_destBit? hc
          simp only [and_ne_zero_iff hbit]
          cases hseen : seen.toNat.testBit n with
          | true =>
              refine iff_of_false (by simp) fun hall => ?_
              obtain ⟨n', hn', hfree⟩ := hall.2 c List.mem_cons_self
              obtain rfl := (eq_iff_of_mem hn' hn).mpr rfl
              rw [hseen] at hfree
              cases hfree
          | false =>
              rw [if_neg (by simp), ih, List.nodup_cons, List.forall_mem_cons]
              have hrest (c' : Char) (n' : Nat) (hn' : (c', n') ∈ destLetters) :
                  (seen ||| bit).toNat.testBit n' = false ↔
                    c' ≠ c ∧ seen.toNat.testBit n' = false := by
                rw [testBit_or hbit, Bool.or_eq_false_iff, decide_eq_false_iff_not,
                  eq_iff_of_mem hn hn', and_comm, ne_comm]
              constructor
              · rintro ⟨hnodup, hall⟩
                refine ⟨⟨fun hmem => ?_, hnodup⟩, ⟨n, hn, hseen⟩, fun c' hc' => ?_⟩
                · obtain ⟨n', hn', hfree⟩ := hall c hmem
                  exact ((hrest c n' hn').mp hfree).1 rfl
                · obtain ⟨n', hn', hfree⟩ := hall c' hc'
                  exact ⟨n', hn', ((hrest c' n' hn').mp hfree).2⟩
              · rintro ⟨⟨hnew, hnodup⟩, -, hall⟩
                refine ⟨hnodup, fun c' hc' => ?_⟩
                obtain ⟨n', hn', hfree⟩ := hall c' hc'
                exact ⟨n', hn', (hrest c' n' hn').mpr ⟨fun heq => hnew (heq ▸ hc'), hfree⟩⟩

theorem testBit_of_destBitsFrom {seen bits : UInt16} {letters : List Char}
    (h : destBitsFrom seen letters = some bits) {c : Char} {n : Nat} (hc : (c, n) ∈ destLetters) :
    bits.toNat.testBit n = true ↔ seen.toNat.testBit n = true ∨ c ∈ letters := by
  induction letters generalizing seen with
  | nil =>
      cases h
      simp
  | cons c' rest ih =>
      rw [destBitsFrom] at h
      cases hc' : destBit? c' with
      | none => simp [hc'] at h
      | some bit =>
          obtain ⟨n', hn', hbit⟩ := mem_of_destBit? hc'
          simp only [hc'] at h
          split at h
          · cases h
          · rw [ih h, testBit_or hbit, Bool.or_eq_true, decide_eq_true_eq, eq_iff_of_mem hn' hc,
              List.mem_cons, or_assoc, @eq_comm _ c' c]

theorem testBit_of_destBits? {dest : String} {bits : UInt16} (h : destBits? dest = some bits)
    {c : Char} {n : Nat} (hc : (c, n) ∈ destLetters) :
    bits.toNat.testBit n = true ↔ c ∈ dest.toList := by
  have hempty : (0 : UInt16).toNat.testBit n = false := Nat.zero_testBit n
  rw [testBit_of_destBitsFrom h hc, hempty]
  simp

theorem destBits?_isSome_iff (dest : String) :
    (∃ bits, destBits? dest = some bits) ↔
      dest.toList.Nodup ∧ ∀ c ∈ dest.toList, c ∈ ['A', 'D', 'M'] := by
  have hletter (c : Char) : (∃ n, (c, n) ∈ destLetters ∧ (0 : UInt16).toNat.testBit n = false) ↔
      c ∈ ['A', 'D', 'M'] := by
    constructor
    · rintro ⟨n, hn, -⟩
      have hmem : c ∈ destLetters.map Prod.fst := List.mem_map.mpr ⟨(c, n), hn, rfl⟩
      exact hmem
    · intro hc
      have hmem : c ∈ destLetters.map Prod.fst := hc
      obtain ⟨⟨c', n⟩, hn, rfl⟩ := List.mem_map.mp hmem
      exact ⟨n, hn, Nat.zero_testBit n⟩
  simp only [destBits?, destBitsFrom_isSome_iff, hletter]

theorem destBits?_lt {dest : String} {bits : UInt16} (h : destBits? dest = some bits) :
    bits.toNat < 8 :=
  destBitsFrom_lt (by decide) h

/-! ## Execution -/

/-- The bit for memory stands for the letter of memory. -/
theorem testBit_of_compBits? {comp : String} {bits : UInt16} (h : compBits? comp = some bits) :
    bits.toNat.testBit 6 = true ↔ 'M' ∈ comp.toList := by
  simp only [compBits?, List.contains_iff_mem] at h
  split at h
  · cases h
  · obtain ⟨row, hrow, rfl⟩ := Option.map_eq_some_iff.mp h
    have hall : ∀ row ∈ compTable, row.2.toNat.testBit 6 = false := by decide
    rw [UInt16.toNat_or, Nat.testBit_or, hall _ (mem_of_lookup hrow), Bool.or_false]
    split
    · exact iff_of_true (by decide) ‹_›
    · exact iff_of_false (by decide) ‹_›

namespace Cpu

section Executing

variable {c : Computation} {dest : String} {comp bits jump : UInt16}
  (hcomp : compBits? c.text = some comp) (hdest : destBits? dest = some bits)
  (hjump : jump.toNat < 8)

include hcomp hdest hjump

theorem flag_memory : flag (encodeCompute comp bits jump) 12 = true ↔ 'M' ∈ c.text.toList := by
  have hflag := flag_encodeCompute_comp (compBits?_lt hcomp) (destBits?_lt hdest) hjump
    (n := 6) (by decide)
  rw [hflag, testBit_of_compBits? hcomp]

theorem flag_letter {letter : Char} {n : Nat} (h : (letter, n) ∈ destLetters) :
    flag (encodeCompute comp bits jump) (n + 3) = true ↔ letter ∈ dest.toList := by
  have hlt : ∀ p ∈ destLetters, p.2 < 3 := by decide
  have hflag := flag_encodeCompute_dest (compBits?_lt hcomp) (destBits?_lt hdest) hjump (hlt _ h)
  rw [hflag, testBit_of_destBits? hdest h]

/-- A word of a computation is executed as its mnemonics say: the result goes to the registers that
the destination names, and to memory at the address that the address register held before. -/
theorem execute_encodeCompute (cpu : Cpu) :
    execute (encodeCompute comp bits jump) cpu =
      if ('M' ∈ c.text.toList ∨ 'M' ∈ dest.toList) ∧ 32768 ≤ cpu.address then none
      else
        let out := c.value cpu.d cpu.a (word cpu.ram cpu.address)
        some {
          a := if 'A' ∈ dest.toList then out else cpu.a
          d := if 'D' ∈ dest.toList then out else cpu.d
          pc := if jumps (encodeCompute comp bits jump) out then cpu.address else cpu.pc + 1
          ram := if 'M' ∈ dest.toList then put cpu.ram cpu.address out else cpu.ram } := by
  have hmark := flag_encodeCompute_mark (compBits?_lt hcomp) (destBits?_lt hdest) hjump
  have hout := alu_encodeCompute c hcomp (destBits?_lt hdest) hjump cpu.d cpu.a
  have hreads := flag_memory hcomp hdest hjump
  have hstores : flag (encodeCompute comp bits jump) 3 = true ↔ 'M' ∈ dest.toList :=
    flag_letter hcomp hdest hjump (by decide)
  have hdata : flag (encodeCompute comp bits jump) 4 = true ↔ 'D' ∈ dest.toList :=
    flag_letter hcomp hdest hjump (n := 1) (by decide)
  have hregister : flag (encodeCompute comp bits jump) 5 = true ↔ 'A' ∈ dest.toList :=
    flag_letter hcomp hdest hjump (n := 2) (by decide)
  by_cases haddress : cpu.address < 32768
  · have hinside : ¬(('M' ∈ c.text.toList ∨ 'M' ∈ dest.toList) ∧ 32768 ≤ cpu.address) :=
      fun h => Nat.not_le_of_lt haddress h.2
    rw [execute_eq hmark haddress, if_neg hinside]
    simp only [hout, hstores, hdata, hregister]
  · have houtside : cpu.ram[cpu.address]? = none :=
      Vector.getElem?_eq_none (Nat.le_of_not_lt haddress)
    have hread : cpu.operand? (encodeCompute comp bits jump) =
        if 'M' ∈ c.text.toList then none else some cpu.a := by
      simp only [operand?, hreads, houtside]
    have hwrite (out : Int16) : cpu.store? (encodeCompute comp bits jump) out =
        if 'M' ∈ dest.toList then none else some cpu.ram := by
      simp only [store?, hstores, dif_neg haddress]
    by_cases hfrom : 'M' ∈ c.text.toList
    · simp [execute, hmark, hread, hfrom, Nat.le_of_not_lt haddress]
    · have hvalue := hout (word cpu.ram cpu.address)
      rw [if_neg (mt hreads.mp hfrom)] at hvalue
      by_cases hto : 'M' ∈ dest.toList
      · simp [execute, hmark, hread, hwrite, hfrom, hto, Nat.le_of_not_lt haddress]
      · simp [execute, hmark, hread, hwrite, hfrom, hto, hvalue, hdata, hregister]

end Executing

end Cpu

/-- A mnemonic has bits exactly if it writes a computation, and then every word with these bits
computes the value of the computation over all registers and all words of memory. A destination has
bits exactly if its letters are `A`, `D` and `M`, each at most once, and executing a word stores the
result in these places and nowhere else, in memory at the address that `A` held before. -/
theorem bits_of_mnemonics :
    (∀ comp, (∃ bits, compBits? comp = some bits) ↔ ∃ c : Computation, c.text = comp) ∧
    (∀ (c : Computation) (comp dest jump : UInt16), compBits? c.text = some comp →
      dest.toNat < 8 → jump.toNat < 8 → ∀ d a m : Int16,
        Cpu.alu (encodeCompute comp dest jump) d
          (if Cpu.flag (encodeCompute comp dest jump) 12 then m else a) = c.value d a m) ∧
    (∀ dest, (∃ bits, destBits? dest = some bits) ↔
      dest.toList.Nodup ∧ ∀ letter ∈ dest.toList, letter ∈ ['A', 'D', 'M']) ∧
    ∀ (c : Computation) (dest : String) (comp bits jump : UInt16), compBits? c.text = some comp →
      destBits? dest = some bits → jump.toNat < 8 → ∀ cpu : Cpu,
        Cpu.execute (encodeCompute comp bits jump) cpu =
          if ('M' ∈ c.text.toList ∨ 'M' ∈ dest.toList) ∧ 32768 ≤ cpu.address then none
          else
            let out := c.value cpu.d cpu.a (word cpu.ram cpu.address)
            some {
              a := if 'A' ∈ dest.toList then out else cpu.a
              d := if 'D' ∈ dest.toList then out else cpu.d
              pc :=
                if Cpu.jumps (encodeCompute comp bits jump) out then cpu.address else cpu.pc + 1
              ram := if 'M' ∈ dest.toList then put cpu.ram cpu.address out else cpu.ram } := by
  refine ⟨fun comp => ⟨?_, ?_⟩, ?_, destBits?_isSome_iff, ?_⟩
  · rintro ⟨bits, h⟩
    exact exists_text_of_compBits? h
  · rintro ⟨c, rfl⟩
    exact compBits?_text c
  · intro c comp dest jump h hdest hjump d a m
    exact Cpu.alu_encodeCompute c h hdest hjump d a m
  · intro c dest comp bits jump hcomp hdest hjump cpu
    exact Cpu.execute_encodeCompute hcomp hdest hjump cpu

/-- Memory and the address register, counted down together. -/
theorem bits_of_decrement :
    let c := Computation.predecessor (.partner .memory)
    let cpu : Cpu := { a := 3, pc := 7 }
    c.text = "M-1" ∧ compBits? "M-1" = some 0b1110010 ∧ destBits? "AM" = some 0b101 ∧
      Cpu.execute (encodeCompute 0b1110010 0b101 0) cpu =
        some { a := -1, d := 0, pc := 8, ram := put cpu.ram 3 (-1) } := by
  intro c cpu
  have hcomp : compBits? (Computation.predecessor (.partner .memory)).text = some 0b1110010 := by
    decide
  have hexecute := bits_of_mnemonics.2.2.2 (.predecessor (.partner .memory)) "AM" 0b1110010 0b101 0
    hcomp (by decide) (by decide) cpu
  refine ⟨by decide, hcomp, by decide, hexecute.trans ?_⟩
  have hword : word cpu.ram cpu.address = 0 := Memory.word_replicate_zero _
  rw [if_neg (by decide), hword]
  rfl

end JackToolchain.Assembly
