import JackToolchain.Proofs.Machine.Steps

/-!
# Disciplined steps

The frames of the open calls, and the steps that keep to the operands of their own frame and to
the words that no frame has saved.
-/

namespace JackToolchain.Machine

open JackToolchain.Memory JackToolchain.Stack

/-- The ends of saved frames, followed down from the latest one in the words that `read` finds. -/
def framesFrom (read : Nat → Int16) : Nat → Nat → List Nat
  | 0, frame => [frame]
  | depth + 1, frame => frame :: framesFrom read depth (read (frame - 4)).toInt.toNat

namespace State

/-- The stack pointer. -/
def stackPointer (s : State) : Int := (word s.ram 0).toInt

/-- The stack pointer is where the stack may be. -/
def InRoom (s : State) : Prop := 256 ≤ s.stackPointer ∧ s.stackPointer ≤ 2048

/-- Where the saved frames of the open calls end, the latest first. Each has five words. -/
def frames (s : State) : List Nat :=
  framesFrom (word s.ram) s.returns.length (word s.ram 1).toInt.toNat

/-- A word of the heap, or a word below the stack pointer that is in no saved frame. -/
def Accessible (s : State) (a : Int) : Prop :=
  2048 ≤ a ∨ a < s.stackPointer ∧ ∀ frame ∈ s.frames, ¬(frame - 5 ≤ a ∧ a < frame)

/-- The frame has pushed that many words. -/
def HasOperands (s : State) (count : Nat) : Prop :=
  (word s.ram 1).toInt + count ≤ s.stackPointer

/-- A word of the stack, counted down from the stack pointer. -/
def operand (s : State) (depth : Nat) : Int16 :=
  word s.ram (s.stackPointer.toNat - depth)

end State

/-- Comparisons are computed as differences. -/
def comparisons : List Arithmetic := [.eq, .gt, .lt]

/-- The addresses that accesses by a register may read and write. -/
structure Access where
  reads : Int → Prop
  writes : Int → Prop

namespace Access

/-- All addresses. -/
def any : Access := ⟨fun _ => True, fun _ => True⟩

/-- The addresses of words that mean the same on the processor: it has scratch words at 13 and 14,
and the static variables, from 16 on, in an order of its own. Nor does a program write the
registers of its frame. -/
def shared : Access where
  reads a := ¬(a = 13 ∨ a = 14) ∧ ¬(16 ≤ a ∧ a < 256)
  writes a := 3 ≤ a ∧ ¬(16 ≤ a ∧ a < 256)

end Access

/-- What an operation may rely on. -/
def Disciplined (access : Access) (s : State) : Op → Prop
  | .push (.based register offset) =>
    s.Accessible ((Location.based register offset).resolve s.ram) ∧
      access.reads ((Location.based register offset).resolve s.ram)
  | .pop (.based register offset) =>
    s.HasOperands 1 ∧ s.Accessible ((Location.based register offset).resolve s.ram) ∧
      access.writes ((Location.based register offset).resolve s.ram)
  | .pop _ | .jumpIf _ | .return => s.HasOperands 1
  | .arithmetic op =>
    s.HasOperands op.arity ∧
      (op ∈ comparisons →
        -32768 ≤ (s.operand 2).toInt - (s.operand 1).toInt ∧
          (s.operand 2).toInt - (s.operand 1).toInt < 32768)
  | .call _ arguments => s.HasOperands arguments.toNat
  | _ => True

/-- The first `n` steps of a fresh run of `Sys.init`, which keep to their frames. -/
structure DisciplinedRun (access : Access) (p : Program) (n : Nat) (states : Nat → State) :
    Prop where
  start : ∃ entry, p.functions["Sys.init"]? = some entry ∧ prepare entry {} = .ok () (states 0)
  step : ∀ i < n, Machine.step p (states i) = .ok none (states (i + 1))
  discipline : ∀ i < n, ∀ instruction, p.instructions[(states i).pc]? = some instruction →
    Disciplined access (states i) instruction.op
  room : ∀ i ≤ n, (states i).InRoom

/-- A call that has not returned: where its frame ends, its first argument, and the address of the
word that it returns to. -/
structure Frame where
  locals : Nat
  arguments : Nat
  target : Nat

/-- Frames that memory links one to the other, the last one at the base of the stack. -/
def Chain (m : Vector Int16 ramSize) : List Frame → Prop
  | [] => False
  | [f] => f.arguments = 256 ∧ f.locals = 261
  | f :: g :: rest =>
    f.arguments + 5 ≤ f.locals ∧ g.locals ≤ f.arguments ∧
      word m (f.locals - 4) = pointer g.locals ∧ word m (f.locals - 3) = pointer g.arguments ∧
      Chain m (g :: rest)

section Chains

variable {m m' : Vector Int16 ramSize} {f g : Frame} {fs : List Frame}

theorem Chain.room (h : Chain m (f :: fs)) : 256 ≤ f.arguments ∧ f.arguments + 5 ≤ f.locals := by
  induction fs generalizing f with
  | nil =>
      obtain ⟨hargs, hlocals⟩ := h
      omega
  | cons g rest ih =>
      obtain ⟨hroom, hbelow, -, -, hrest⟩ := h
      have hlower := ih hrest
      omega

theorem Chain.tail (h : Chain m (f :: g :: fs)) : Chain m (g :: fs) := h.2.2.2.2

/-- Older frames end below. -/
theorem Chain.locals_le (h : Chain m (f :: fs)) : ∀ g ∈ f :: fs, 261 ≤ g.locals ∧
    g.locals ≤ f.locals := by
  induction fs generalizing f with
  | nil =>
      intro g hg
      rw [List.mem_singleton.mp hg]
      exact ⟨h.2.ge, le_refl _⟩
  | cons f' rest ih =>
      intro g hg
      have hroom := h.room
      rcases List.mem_cons.mp hg with rfl | hg
      · omega
      · obtain ⟨hlow, hhigh⟩ := ih h.tail g hg
        have hbelow := h.2.1
        omega

/-- Only the saved words matter. -/
theorem Chain.congr (h : Chain m fs)
    (hsame : ∀ f ∈ fs, ∀ a, f.locals - 5 ≤ a → a < f.locals → word m' a = word m a) :
    Chain m' fs := by
  induction fs with
  | nil => exact h
  | cons f rest ih =>
      cases rest with
      | nil => exact h
      | cons g rest =>
          have hroom := h.room
          obtain ⟨hargs, hbelow, hlocals, harguments, hrest⟩ := h
          have hkeep := hsame f List.mem_cons_self
          refine ⟨hargs, hbelow, ?_, ?_, ih hrest fun g' hg' => hsame g' (List.mem_cons_of_mem _ hg')⟩
          · rw [hkeep _ (by omega) (by omega), hlocals]
          · rw [hkeep _ (by omega) (by omega), harguments]

theorem framesFrom_chain (h : Chain m (f :: fs)) (hlt : f.locals < 32768) :
    framesFrom (word m) fs.length f.locals = (f :: fs).map Frame.locals := by
  induction fs generalizing f with
  | nil => rfl
  | cons g rest ih =>
      have hbelow : g.locals < 32768 := by
        have hle := (h.locals_le g (by simp)).2
        omega
      simp only [List.length_cons, framesFrom, h.2.2.1, toInt_pointer hbelow, Int.toNat_natCast,
        List.map_cons]
      rw [ih h.tail hbelow]
      rfl

end Chains

end JackToolchain.Machine
