import JackToolchain.Proofs.Lists
import JackToolchain.Proofs.Lowering.Shape
import JackToolchain.Proofs.Stack.RoundTrip
import JackToolchain.Proofs.Syntax.Spanless
import JackToolchain.Proofs.Token.Layout

/-!
# Reading compiled classes

The text of a compiled class is read back as its commands, unless a constructor asks for an object
of more words than a constant can hold.
-/

namespace JackToolchain

open JackToolchain.Stack JackToolchain.Syntax JackToolchain.Lowering JackToolchain.Token
open JackToolchain.Text

/-- A lexer delivers the class of a tree, and the tree is lowered to the commands of a compiled
class. -/
structure Compiles (lx : Lexer) (tree : ClassTree) (c : CompiledClass) : Prop where
  parsed : ∃ s s', TokenStream.ofSource lx = .ok s ∧ ClassTree.ofStream s = (.ok tree, s')
  className : c.className = tree.name
  lowered : (lowerClass tree).result = .ok c.commands
  text : c.text = render c.commands

theorem Compilation.compiles_of_ok {name : String} {lx : Lexer} {c : CompiledClass}
    (h : (ofLexer name lx).result = .ok c) : ∃ tree, Compiles lx tree c := by
  unfold ofLexer ofSource at h
  split at h
  · cases h
  · rename_i stream hstream
    split at h
    · cases h
    · rename_i tree s hparse
      simp only [lower] at h
      split at h
      · cases h
      · rename_i commands hlowered
        cases h
        exact ⟨tree, ⟨stream, s, hstream, hparse⟩, rfl, hlowered, rfl⟩

/-- A lexer delivers one class. -/
theorem Compiles.tree_eq {lx : Lexer} {tree tree' : ClassTree} {c c' : CompiledClass}
    (h : Compiles lx tree c) (h' : Compiles lx tree' c') : tree = tree' := by
  obtain ⟨s, t, hs, hparse⟩ := h.parsed
  obtain ⟨s', t', hs', hparse'⟩ := h'.parsed
  rw [hs] at hs'
  cases hs'
  rw [hparse] at hparse'
  cases hparse'
  rfl

namespace Compilation

/-- The tree of a whole text and its commands, as long as fuel is left to read it. -/
def compiled? (fuel : Nat) (lx : Lexer) : Option (ClassTree × List Command) :=
  (ClassTree.parsed? fuel lx).bind fun tree =>
    (lowerClass tree).result.toOption.map fun commands => (tree, commands)

theorem exists_compiles {fuel : Nat} {lx : Lexer} {tree : ClassTree} {commands : List Command}
    (name : String) (hpull : lx.canPull = true)
    (h : compiled? fuel lx = some (tree, commands)) :
    ∃ c, (ofLexer name lx).result = .ok c ∧ Compiles lx tree c ∧ c.commands = commands := by
  obtain ⟨tree', hparsed, hlowers⟩ := Option.bind_eq_some_iff.mp h
  obtain ⟨commands', hcommands, hpair⟩ := Option.map_eq_some_iff.mp hlowers
  cases hpair
  have hlowered := eq_ok_of_toOption hcommands
  obtain ⟨s, s', hs, hparse⟩ := ClassTree.exists_ofStream_of_parsed hpull hparsed
  have hresult : ∃ c, (ofLexer name lx).result = .ok c ∧ c.className = tree.name ∧
      c.commands = commands ∧ c.text = render commands := by
    simp only [ofLexer, ofSource, hs, hparse, lower, hlowered]
    exact ⟨_, rfl, rfl, rfl, rfl⟩
  obtain ⟨c, hc, hname, rfl, htext⟩ := hresult
  exact ⟨c, hc, ⟨⟨s, s', hs, hparse⟩, hname, hlowered, htext⟩, rfl⟩

end Compilation

namespace Lowering

theorem isName_fullName {c f : String} (hc : IsWord c) (hf : IsWord f) :
    isName (fullName c f).toList = true := by
  rw [toList_fullName]
  refine isName_append hc.isName fun d hd => ?_
  rcases List.mem_cons.mp hd with rfl | hd
  · decide
  · exact isNameChar_of_isName hf.isName d hd

theorem Mark.isName_text (m : Mark) : isName m.text.toList = true := by
  have hfront : isName m.kind.front.toList = true := by cases m.kind <;> decide
  rw [toList_text]
  exact isName_append hfront fun c hc => isNameChar_of_mem_toDigits hc

theorem Lowered.wellFormed {c : Command} (h : Lowered c) : c.WellFormed := by
  cases c with
  | push segment index => exact ⟨trivial, h⟩
  | pop segment index => exact ⟨trivial, h⟩
  | arithmetic op => exact ⟨trivial, rfl⟩
  | label name | goto name | ifGoto name =>
      obtain ⟨m, rfl⟩ := h
      exact ⟨m.isName_text, rfl⟩
  | function name locals => exact h.elim
  | call name count =>
      obtain ⟨c, f, hc, hf, rfl⟩ := h
      exact ⟨isName_fullName hc hf, rfl⟩
  | «return» => exact ⟨trivial, rfl⟩

end Lowering

namespace Compiles

variable {lx : Lexer} {tree : ClassTree} {c : CompiledClass}

theorem proper (h : Compiles lx tree c) : tree.Proper := by
  obtain ⟨s, s', hs, hparse⟩ := h.parsed
  exact ClassTree.proper_of_ofStream hs hparse

/-- The command with which constructors ask for the words of their object. -/
def sizeCommand (tree : ClassTree) : Command := .push .constant tree.fieldCount.toUInt16

theorem wellFormed_opening {s : Subroutine} :
    ∀ c ∈ openingOf tree s, c.WellFormed ∨ c = sizeCommand tree ∧ s.kind = .constructor := by
  unfold openingOf
  cases s.kind with
  | constructor =>
      simp only [List.forall_mem_cons]
      exact ⟨.inr ⟨rfl, trivial⟩, .inl ⟨rfl, rfl⟩, .inl ⟨trivial, rfl⟩, by simp⟩
  | method =>
      simp only [List.forall_mem_cons]
      exact ⟨.inl ⟨trivial, rfl⟩, .inl ⟨trivial, rfl⟩, by simp⟩
  | function => simp

/-- All commands of a class mean something but the ones with which constructors ask for words. -/
theorem wellFormed_commands (h : Compiles lx tree c) :
    ∀ d ∈ c.commands, d.WellFormed ∨
      d = sizeCommand tree ∧ ∃ s ∈ tree.subroutines, s.kind = .constructor := by
  obtain ⟨blocks, hblocks, hcommands⟩ := yields_of_lowerClass h.lowered
  rw [hcommands]
  intro d hd
  obtain ⟨block, hblock, hd⟩ := List.mem_flatten.mp hd
  obtain ⟨s, hs, labels, body, hyields, rfl⟩ :=
    exists_left_of_forall₂ hblocks.forall₂ hblock
  have hproper := h.proper.subroutines s hs
  rcases List.mem_cons.mp hd with rfl | hd
  · exact .inl ⟨isName_fullName h.proper.name hproper.name, rfl⟩
  · rcases List.mem_append.mp hd with hd | hd
    · exact (wellFormed_opening d hd).imp_right fun h => ⟨h.1, s, hs, h.2⟩
    · exact .inl (hyields.lowered h.proper hproper d hd).wellFormed

theorem sizeCommand_mem (h : Compiles lx tree c) {s : Subroutine} (hs : s ∈ tree.subroutines)
    (hkind : s.kind = .constructor) : sizeCommand tree ∈ c.commands ∧ tree.fieldCount ≤ 65535 := by
  obtain ⟨blocks, hblocks, hcommands⟩ := yields_of_lowerClass h.lowered
  obtain ⟨block, hblock, labels, body, hyields, rfl⟩ :=
    exists_right_of_forall₂ hblocks.forall₂ hs
  refine ⟨?_, hyields.opening_eq.2 hkind⟩
  rw [hcommands]
  refine List.mem_flatten.mpr ⟨_, hblock, ?_⟩
  simp [blockOf, openingOf, hkind, sizeCommand]

theorem read_text (h : Compiles lx tree c)
    (hsize : ∀ s ∈ tree.subroutines, s.kind = .constructor → tree.fieldCount ≤ 32767) :
    read c.text = .ok c.commands := by
  rw [h.text]
  refine read_of_render fun d hd => ?_
  rcases h.wellFormed_commands d hd with hd | ⟨rfl, s, hs, hkind⟩
  · exact hd
  · exact ⟨trivial, violation?_constant (hsize s hs hkind)⟩

theorem read_text_of_large (h : Compiles lx tree c) {s : Subroutine} (hs : s ∈ tree.subroutines)
    (hkind : s.kind = .constructor) (hlarge : 32767 < tree.fieldCount) :
    ∃ e, read c.text = .error e ∧
      e.fault = .illegalAccess (.indexOutOfRange .constant tree.fieldCount 32767) := by
  obtain ⟨hmem, hcount⟩ := h.sizeCommand_mem hs hkind
  have hindex : tree.fieldCount.toUInt16.toNat = tree.fieldCount := by
    rw [Nat.toUInt16_eq, UInt16.toNat_ofNat']
    omega
  have hviolation : Segment.constant.violation? tree.fieldCount.toUInt16 false =
      some (.indexOutOfRange .constant tree.fieldCount 32767) := by
    simp [Segment.violation?, Segment.limit?, hindex, hlarge]
  rw [h.text]
  exact read_render_of_violation hviolation
    (fun d hd => (h.wellFormed_commands d hd).imp_right And.left) hmem

end Compiles

/-- The text of a compiled class is read back as its commands if no constructor asks for more than
32767 words, and else it is refused for what a constructor asks for. -/
theorem Compilation.read_text_of_ok {name : String} {lx : Lexer} {c : CompiledClass}
    (h : (ofLexer name lx).result = .ok c) :
    ∃ tree, Compiles lx tree c ∧
      ((∀ s ∈ tree.subroutines, s.kind = .constructor → tree.fieldCount ≤ 32767) →
        read c.text = .ok c.commands) ∧
      ∀ s ∈ tree.subroutines, s.kind = .constructor → 32767 < tree.fieldCount →
        ∃ e, read c.text = .error e ∧
          e.fault = .illegalAccess (.indexOutOfRange .constant tree.fieldCount 32767) := by
  obtain ⟨tree, htree⟩ := compiles_of_ok h
  exact ⟨tree, htree, htree.read_text, fun s hs => htree.read_text_of_large hs⟩

/-- The objects of the class have two words. -/
theorem Compilation.read_text_of_counter : ∃ c tree,
    (ofLexer "Counter.jack" (.ofText Lexer.counterSource)).result = .ok c ∧
      Compiles (.ofText Lexer.counterSource) tree c ∧ tree.fieldCount = 2 ∧
      (∃ s ∈ tree.subroutines, s.kind = .constructor) ∧ read c.text = .ok c.commands := by
  obtain ⟨⟨tree, commands⟩, hcompiled, hfields, hconstructor⟩ :
      ∃ pair ∈ compiled? 200 (.ofText Lexer.counterSource), pair.1.fieldCount = 2 ∧
        ∃ s ∈ pair.1.subroutines, s.kind = .constructor := by
    decide +kernel
  obtain ⟨c, hc, htree, -⟩ := exists_compiles "Counter.jack" rfl hcompiled
  obtain ⟨tree', htree', hread, -⟩ := read_text_of_ok hc
  obtain rfl : tree' = tree := htree'.tree_eq htree
  refine ⟨c, tree', hc, htree, hfields, hconstructor, hread fun s hs hkind => ?_⟩
  rw [hfields]
  decide

end JackToolchain
