import JackToolchain.Proofs.Evaluation.Strictness
import JackToolchain.Proofs.Evaluation.Variables
import JackToolchain.Proofs.Machine.Placement
import JackToolchain.Proofs.Machine.Progress
import JackToolchain.Proofs.Syntax.Names

/-!
# Evaluations and machines that agree

The store of an evaluation and the memory of a machine agree on heap, output and static variables.
While a subroutine runs, its variables are words of a frame on the stack.
-/

namespace JackToolchain.Evaluation

open JackToolchain.Machine JackToolchain.Memory JackToolchain.Lowering JackToolchain.Syntax
open JackToolchain.Scope

/-- A linked program of some classes, with the static variables of each. -/
structure Layout (w : World) where
  linked : Linked
  base : String → Nat
  size : String → Nat
  strict : w.strict = true
  members : ∀ tree ∈ w.classes, ((classDeclarations tree).map Declaration.name).Nodup
  scopes : ∀ tree ∈ w.classes, ∀ s ∈ tree.subroutines,
    ((subroutineDeclarations tree.name s).map Declaration.name).Nodup
  named : ∀ tree ∈ w.classes, ∀ s ∈ tree.subroutines, "this" ∉ Statement.mentionedInAll s.body
  range : ∀ tree ∈ w.classes, 16 ≤ base tree.name ∧ base tree.name + size tree.name ≤ 256
  apart : ∀ tree ∈ w.classes, ∀ other ∈ w.classes,
    tree = other ∨ base tree.name + size tree.name ≤ base other.name ∨
      base other.name + size other.name ≤ base tree.name
  /-- No function hides a routine. -/
  routines : ∀ r : Routine, linked.directory.target r.name = .host r
  placed : ∀ tree ∈ w.classes, ∀ s ∈ tree.subroutines, ∃ entry labels opening body,
    linked.directory.functions[s!"{tree.name}.{s.name}"]? = some entry ∧
      YieldsBlock tree labels s opening body ∧
      Site.Placed ⟨linked, base tree.name, size tree.name, s!"{tree.name}.{s.name}"⟩ entry
        (blockOf tree s opening body)

variable {w : World}

namespace Layout

abbrev program (y : Layout w) : Program := y.linked.program

/-- Where the commands of a subroutine belong. -/
def site (y : Layout w) (tree : ClassTree) (s : Subroutine) : Site :=
  ⟨y.linked, y.base tree.name, y.size tree.name, s!"{tree.name}.{s.name}"⟩

end Layout

/-- A store and a machine with the same heap, output and static variables. -/
structure Shared (y : Layout w) (t : Store) (s : State) : Prop where
  heapNext : s.heapNext = t.heapNext
  room : 2048 ≤ t.heapNext ∧ t.heapNext ≤ 16384
  output : s.output = t.output
  heap : ∀ a, 2048 ≤ a → word s.ram a = word t.memory a
  fresh : ∀ a, t.heapNext ≤ a → word t.memory a = 0
  statics : ∀ tree ∈ w.classes, ∀ name type k, member? tree .static name = some (type, k) →
    k < y.size tree.name →
      (t.statics.lookup (tree.name, name)).getD 0 = word s.ram (y.base tree.name + k)

namespace Shared

variable {y : Layout w} {t : Store} {s s' : State}

/-- Only some words matter. -/
theorem same (h : Shared y t s)
    (hwords : ∀ b, 16 ≤ b ∧ b < 256 ∨ 2048 ≤ b → word s'.ram b = word s.ram b)
    (hheap : s'.heapNext = s.heapNext) (houtput : s'.output = s.output) : Shared y t s' where
  heapNext := hheap.trans h.heapNext
  room := h.room
  output := houtput.trans h.output
  heap a ha := (hwords a (.inr ha)).trans (h.heap a ha)
  fresh := h.fresh
  statics tree htree name type k hmember hk := by
    have hrange := y.range tree htree
    rw [hwords _ (by omega)]
    exact h.statics tree htree name type k hmember hk

/-- An allocated word is written. -/
theorem write (h : Shared y t s) {a : Nat} (v : Int16) (hlow : 2048 ≤ a) (hhigh : a < t.heapNext) :
    Shared y { t with memory := put t.memory a v } { s with ram := put s.ram a v } where
  heapNext := h.heapNext
  room := h.room
  output := h.output
  heap b hb := by
    have hroom := h.room
    have hsize : ramSize = 32768 := rfl
    simp only [word_put]
    rw [h.heap b hb]
  fresh b hb := by
    have hne : a ≠ b := by
      simp only at hb
      omega
    simp only [word_put_of_ne _ _ hne]
    exact h.fresh b hb
  statics tree htree name type k hmember hk := by
    have hrange := y.range tree htree
    simp only
    rw [word_put_of_ne _ _ (by omega)]
    exact h.statics tree htree name type k hmember hk

/-- A static variable is assigned. -/
theorem assign (h : Shared y t s) {tree : ClassTree} {name : String} {type : TypeName} {k : Nat}
    (htree : tree ∈ w.classes) (hmember : member? tree .static name = some (type, k))
    (hk : k < y.size tree.name) (v : Int16) :
    Shared y { t with statics := ((tree.name, name), v) :: t.statics }
      { s with ram := put s.ram (y.base tree.name + k) v } where
  heapNext := h.heapNext
  room := h.room
  output := h.output
  heap b hb := by
    have hrange := y.range tree htree
    simp only
    rw [word_put_of_ne _ _ (by omega), h.heap b hb]
  fresh := h.fresh
  statics other hother name' type' k' hmember' hk' := by
    have hrange := y.range tree htree
    have hrange' := y.range other hother
    have hsize : ramSize = 32768 := rfl
    have hsame (heq : y.base other.name = y.base tree.name) : tree = other := by
      rcases y.apart tree htree other hother with hsame | hbelow | hbelow
      · exact hsame
      · omega
      · omega
    simp only [List.lookup_cons]
    by_cases hkey : (other.name, name') = (tree.name, name)
    · obtain ⟨hname, rfl⟩ := Prod.mk.inj hkey
      obtain rfl := hsame (by rw [hname])
      rw [hmember] at hmember'
      cases hmember'
      rw [word_put_self _ _ (by omega)]
      simp
    · have hne : ((other.name, name') == (tree.name, name)) = false := by
        rwa [beq_eq_false_iff_ne]
      have haddress : y.base tree.name + k ≠ y.base other.name + k' := by
        intro haddress
        have hother' : tree = other := by
          rcases y.apart tree htree other hother with hsame | hbelow | hbelow
          · exact hsame
          · omega
          · omega
        subst hother'
        obtain rfl : k = k' := by omega
        have hget := getElem?_of_member? hmember
        rw [getElem?_of_member? hmember'] at hget
        cases hget
        exact hkey rfl
      rw [hne, word_put_of_ne _ _ haddress]
      exact h.statics other hother name' type' k' hmember' hk'

theorem print (h : Shared y t s) (text : String) :
    Shared y { t with output := t.output ++ text } { s with output := s.output ++ text } :=
  { h with output := by simp only [h.output] }

end Shared

/-- A call of a subroutine with its frame on the stack: its arguments, five saved words, its
locals. -/
structure Activation (w : World) where
  tree : ClassTree
  sub : Subroutine
  arguments : Nat
  locals : Nat
  mem : tree ∈ w.classes
  declared : sub ∈ tree.subroutines
  small : sub.localCount ≤ 65535
  low : 256 ≤ arguments
  frame : arguments + valueCount sub + 5 = locals
  high : locals ≤ 2048

namespace Activation

variable (act : Activation w)

/-- The first word behind the locals. -/
def floor : Nat := act.locals + act.sub.localCount

def table : Table := .ofSubroutine act.tree.name act.sub

def slot (e : Entry) : Nat := slotOf act.arguments act.locals e

variable {act}

theorem le_floor : 261 ≤ act.floor := by
  have hlow := act.low
  have hframe := act.frame
  unfold floor
  omega

/-- A slot is in the frame, and none of the saved words. -/
theorem slot_bounds (y : Layout w) {name : String} {e : Entry}
    (h : act.table.lookup? name = some e) :
    act.arguments ≤ act.slot e ∧ act.slot e < act.floor ∧
      (act.slot e < act.arguments + valueCount act.sub ∨ act.locals ≤ act.slot e) := by
  have hframe := act.frame
  have hhigh := act.high
  have hfloor : act.floor = act.locals + act.sub.localCount := rfl
  have hslot : act.slot e = slotOf act.arguments act.locals e := rfl
  rcases slotOf_bounds (y.scopes _ act.mem _ act.declared) (by omega) act.small h
    act.arguments act.locals with ⟨-, hat, hlt⟩ | ⟨-, hat, hlt⟩
  · omega
  · omega

theorem slot_ne (y : Layout w) {name name' : String} {e e' : Entry}
    (h : act.table.lookup? name = some e) (h' : act.table.lookup? name' = some e')
    (hne : name ≠ name') : act.slot e ≠ act.slot e' := by
  have hframe := act.frame
  have hhigh := act.high
  exact fun hslot => hne (name_eq_of_slotOf_eq (y.scopes _ act.mem _ act.declared) (by omega)
    act.small (by omega) h h' hslot)

end Activation

/-- The words of a frame hold what the subroutine sees. -/
structure Holds (act : Activation w) (f : Frame) (m : Vector Int16 ramSize) : Prop where
  tree : f.tree = act.tree
  kind : f.kind = act.sub.kind
  arguments : word m 2 = pointer act.arguments
  locals : word m 1 = pointer act.locals
  this : f.kind ≠ .function → word m 3 = f.this
  vars : ∀ name, name ≠ "this" →
    f.vars.lookup name = (act.table.lookup? name).map fun e => (e.type, word m (act.slot e))

namespace Holds

variable {act : Activation w} {f : Frame} {m m' : Vector Int16 ramSize}

theorem same (h : Holds act f m) (y : Layout w)
    (hregisters : ∀ b, 1 ≤ b → b ≤ 3 → word m' b = word m b)
    (hslots : ∀ b, act.arguments ≤ b → b < act.floor → word m' b = word m b) :
    Holds act f m' where
  tree := h.tree
  kind := h.kind
  arguments := (hregisters 2 (by omega) (by omega)).trans h.arguments
  locals := (hregisters 1 (by omega) (by omega)).trans h.locals
  this hkind := (hregisters 3 (by omega) (by omega)).trans (h.this hkind)
  vars name hname := by
    rw [h.vars name hname]
    cases hlookup : act.table.lookup? name with
    | none => rfl
    | some e =>
        obtain ⟨hlow, hhigh, -⟩ := act.slot_bounds y hlookup
        rw [Option.map_some, Option.map_some, hslots _ hlow hhigh]

/-- A variable of the subroutine is assigned. -/
theorem assign (h : Holds act f m) (y : Layout w) {name : String} {e : Entry} (v : Int16)
    (hname : name ≠ "this") (hlookup : act.table.lookup? name = some e)
    (hfloor : act.floor ≤ 2048) :
    Holds act { f with vars := (name, e.type, v) :: f.vars } (put m (act.slot e) v) := by
  have hlow := act.low
  have hsize : ramSize = 32768 := rfl
  obtain ⟨hfrom, hto, -⟩ := act.slot_bounds y hlookup
  have hother {b : Nat} (hb : b ≤ 3) : word (put m (act.slot e) v) b = word m b :=
    word_put_of_ne _ _ (by omega)
  refine ⟨h.tree, h.kind, (hother (by omega)).trans h.arguments,
    (hother (by omega)).trans h.locals, fun hkind => (hother (by omega)).trans (h.this hkind), ?_⟩
  intro name' hname'
  simp only [List.lookup_cons]
  by_cases hsame : name' = name
  · subst hsame
    rw [hlookup, Option.map_some, word_put_self _ _ (by omega)]
    simp
  · have hne : (name' == name) = false := by rwa [beq_eq_false_iff_ne]
    rw [hne, h.vars name' hname']
    cases hlookup' : act.table.lookup? name' with
    | none => rfl
    | some e' =>
        have hslots := act.slot_ne y hlookup hlookup' (Ne.symm hsame)
        rw [Option.map_some, Option.map_some, word_put_of_ne _ _ hslots]

end Holds

/-- An evaluation and a machine in the same subroutine, with the stack pointer of the machine. -/
structure Matches (y : Layout w) (act : Activation w) (f : Frame) (t : Store) (sp : Nat)
    (s : State) : Prop where
  shared : Shared y t s
  holds : Holds act f s.ram
  stack : word s.ram 0 = pointer sp
  floor : act.floor ≤ sp
  ceiling : sp ≤ 2048
  roomy : Roomy y.program s

/-- The same words of some addresses, and the same open calls. -/
structure Kept (P : Nat → Prop) (s s' : State) : Prop where
  words : ∀ b, P b → word s'.ram b = word s.ram b
  returns : s'.returns = s.returns

namespace Kept

variable {P Q : Nat → Prop} {s s' s'' : State}

theorem trans (h : Kept P s s') (h' : Kept P s' s'') : Kept P s s'' where
  words b hb := (h'.words b hb).trans (h.words b hb)
  returns := h'.returns.trans h.returns

theorem mono (h : Kept P s s') (hsub : ∀ b, Q b → P b) : Kept Q s s' where
  words b hb := h.words b (hsub b hb)
  returns := h.returns

end Kept

/-- The registers of a frame and the stack below an address. -/
def Below (sp b : Nat) : Prop := 1 ≤ b ∧ b ≤ 3 ∨ 256 ≤ b ∧ b < sp

/-- The registers of a frame, the stack below it, and what it has saved. -/
def Activation.Reserved (act : Activation w) (b : Nat) : Prop :=
  1 ≤ b ∧ b ≤ 3 ∨ 256 ≤ b ∧ b < act.arguments ∨
    act.arguments + valueCount act.sub ≤ b ∧ b < act.locals

theorem Below.mono {sp sp' b : Nat} (h : Below sp b) (hle : sp ≤ sp') : Below sp' b := by
  unfold Below at h ⊢
  omega

theorem Activation.Reserved.below {act : Activation w} {sp b : Nat} (h : act.Reserved b)
    (hle : act.floor ≤ sp) : Below sp b := by
  have hlow := act.low
  have hframe := act.frame
  have hfloor : act.floor = act.locals + act.sub.localCount := rfl
  unfold Below
  unfold Reserved at h
  omega

/-- The machine goes on to an address, and still matches. -/
structure Goes (y : Layout w) (act : Activation w) (f : Frame) (t : Store) (sp : Nat)
    (P : Nat → Prop) (target : Nat) (s s' : State) : Prop where
  proceeds : Proceeds y.program s s'
  matched : Matches y act f t sp s'
  pc : s'.pc = target
  kept : Kept P s s'

/-- The machine goes on to an address with one more value on the stack. -/
structure Pushes (y : Layout w) (act : Activation w) (f : Frame) (t : Store) (sp : Nat)
    (value : Int16) (target : Nat) (s s' : State) : Prop
    extends Goes y act f t (sp + 1) (Below sp) target s s' where
  top : word s'.ram sp = value

section Goes

variable {y : Layout w} {act : Activation w} {f f' : Frame} {t t' : Store} {sp sp' : Nat}
  {P Q : Nat → Prop} {a b : Nat} {s s' s'' : State}

theorem Goes.trans (h : Goes y act f t sp P a s s') (h' : Goes y act f' t' sp' P b s' s'') :
    Goes y act f' t' sp' P b s s'' where
  proceeds := h.proceeds.trans h'.proceeds
  matched := h'.matched
  pc := h'.pc
  kept := h.kept.trans h'.kept

theorem Goes.mono (h : Goes y act f t sp P a s s') (hsub : ∀ b, Q b → P b) :
    Goes y act f t sp Q a s s' :=
  { h with kept := h.kept.mono hsub }

theorem Matches.sp_pos (h : Matches y act f t sp s) : 256 < sp := by
  have hfloor := h.floor
  have hbase := act.le_floor
  omega

/-- Steps that change neither variables nor what is shared. -/
theorem Matches.reached (h : Matches y act f t sp s) (hproceeds : Proceeds y.program s s')
    (hwords : ∀ b, 1 ≤ b ∧ b ≤ 3 ∨ 16 ≤ b ∧ b < act.floor ∨ 2048 ≤ b →
      word s'.ram b = word s.ram b)
    (hheap : s'.heapNext = s.heapNext) (houtput : s'.output = s.output)
    (hstack : word s'.ram 0 = pointer sp') (hfloor : act.floor ≤ sp') (hsmall : sp' ≤ 32768) :
    Matches y act f t sp' s' := by
  have hlow := act.low
  have hbase := act.le_floor
  have hroomy := h.roomy.proceeds hproceeds
  refine ⟨h.shared.same (fun b hb => hwords b (by omega)) hheap houtput,
    h.holds.same y (fun b hb hb' => hwords b (by omega)) (fun b hb hb' => hwords b (by omega)),
    hstack, hfloor, hroomy.inRoom.le hstack hsmall, hroomy⟩

/-- Steps that leave one more value on the stack, and nothing else but in words that do not
matter. -/
theorem Matches.pushes {m : Vector Int16 ramSize} {v : Int16} (h : Matches y act f t sp s)
    (hproceeds : Proceeds y.program s { s with ram := m, pc := a })
    (hwords : ∀ b, 1 ≤ b ∧ b ≤ 3 ∨ 16 ≤ b ∧ b < sp' ∨ 2048 ≤ b → word m b = word s.ram b)
    (hstack : word m 0 = pointer (sp' + 1)) (hfloor : act.floor ≤ sp') (hsmall : sp' < 32768)
    (htop : word m sp' = v) :
    Pushes y act f t sp' v a s { s with ram := m, pc := a } := by
  refine ⟨⟨hproceeds, h.reached hproceeds (fun b hb => hwords b (by omega)) rfl rfl hstack (by omega)
    (by omega), rfl, ⟨fun b hb => hwords b ?_, rfl⟩⟩, htop⟩
  unfold Below at hb
  omega

end Goes

end JackToolchain.Evaluation
