import JackToolchain.Proofs.Machine.Steps

/-!
# Commands in a linked program

Commands that stand in a row of a program, resolved for the function around them. Their labels are
where they stand.
-/

namespace JackToolchain.Machine

open JackToolchain.Stack

/-- A linked program with the directory that it was resolved by. -/
structure Linked where
  program : Program
  directory : Directory

/-- Where commands belong: to a function, in a file with some static variables from an address on. -/
structure Site where
  linked : Linked
  base : Nat
  size : Nat
  owner : String

namespace Site

variable {l : Site} {a : Nat} {code rest : List Command} {c : Command}

/-- The command at an address. -/
def Has (l : Site) (a : Nat) (c : Command) : Prop :=
  ∃ op, l.linked.program.instructions[a]? = some ⟨op, l.owner⟩ ∧
    resolve l.linked.directory l.base l.owner c = .ok op ∧ staticsOf c ≤ l.size

/-- A step at a command executes what it is resolved to. -/
theorem Has.step_eq {s : State} {op : Op} (h : l.Has s.pc c)
    (hop : resolve l.linked.directory l.base l.owner c = .ok op) :
    step l.linked.program s = execute s.pc l.owner op s := by
  obtain ⟨op', hi, hop', -⟩ := h
  rw [hop] at hop'
  cases hop'
  exact step_of_instruction hi

/-- Commands in a row from an address on. -/
structure Placed (l : Site) (a : Nat) (code : List Command) : Prop where
  has : ∀ i c, code[i]? = some c → l.Has (a + i) c
  labels : ∀ i name, code[i]? = some (.label name) →
    l.linked.directory.label l.owner name = .ok (a + i)

namespace Placed

theorem left (h : l.Placed a (code ++ rest)) : l.Placed a code := by
  have hleft {i : Nat} {c : Command} (hi : code[i]? = some c) : (code ++ rest)[i]? = some c := by
    rw [List.getElem?_append_left (List.getElem?_eq_some_iff.mp hi).1, hi]
  exact ⟨fun i c hi => h.has i c (hleft hi), fun i name hi => h.labels i name (hleft hi)⟩

theorem right (h : l.Placed a (code ++ rest)) : l.Placed (a + code.length) rest := by
  have hright (i : Nat) : (code ++ rest)[code.length + i]? = rest[i]? := by
    rw [List.getElem?_append_right (Nat.le_add_right ..), Nat.add_sub_cancel_left]
  refine ⟨fun i c hi => ?_, fun i name hi => ?_⟩
  · rw [Nat.add_assoc]
    exact h.has _ c ((hright i).trans hi)
  · rw [Nat.add_assoc]
    exact h.labels _ name ((hright i).trans hi)

theorem tail (h : l.Placed a (c :: rest)) : l.Placed (a + 1) rest :=
  have hone : l.Placed a ([c] ++ rest) := h
  hone.right

theorem first (h : l.Placed a (c :: rest)) : l.Has a c := h.has 0 c rfl

theorem label {name : String} (h : l.Placed a (.label name :: rest)) :
    l.linked.directory.label l.owner name = .ok a := h.labels 0 name rfl

end Placed

end Site

end JackToolchain.Machine
