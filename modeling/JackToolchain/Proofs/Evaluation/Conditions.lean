import JackToolchain.Proofs.Evaluation.Layouts

/-!
# Conditions

A condition is denied bit by bit, and the machine jumps away from every word but zero. So what a
condition guards is run for the word of ones alone, while an evaluation runs it for every word but
zero.
-/

namespace JackToolchain.Syntax.Statement

/-- What a statement asks before it goes on. -/
def condition? : Statement → Option Expression
  | ifThen condition .. | ifElse condition .. | whileLoop condition .. => some condition
  | letVariable .. | letElement .. | doCall .. | «return» .. => none

mutual

/-- A statement and all statements inside of it. -/
def parts : Statement → List Statement
  | ifThen condition consequent span => ifThen condition consequent span :: partsOfAll consequent
  | ifElse condition consequent alternate span =>
    ifElse condition consequent alternate span :: (partsOfAll consequent ++ partsOfAll alternate)
  | whileLoop condition body span => whileLoop condition body span :: partsOfAll body
  | letVariable target value span => [letVariable target value span]
  | letElement target index value span => [letElement target index value span]
  | doCall call span => [doCall call span]
  | «return» value span => [«return» value span]

def partsOfAll : List Statement → List Statement
  | [] => []
  | s :: rest => s.parts ++ partsOfAll rest

end

end JackToolchain.Syntax.Statement

namespace JackToolchain.Lowering

open JackToolchain.Stack JackToolchain.Syntax

variable {ctx : Context} {labels : Labels} {code inner front back : List Command} {i : Nat}
  {st : Statement}

/-- At a position of some commands stands the code of a statement. -/
def Stands (ctx : Context) (block : List Command) (i : Nat) (labels : Labels) (st : Statement) :
    Prop :=
  ∃ front code back, block = front ++ code ++ back ∧ front.length = i ∧
    (lowerStatement ctx labels st).1.Yields code

theorem Stands.of_yields (h : (lowerStatement ctx labels st).1.Yields code) :
    Stands ctx code 0 labels st :=
  ⟨[], code, [], by simp, rfl, h⟩

/-- What stands in a part stands in the whole. -/
theorem Stands.within (h : Stands ctx inner i labels st) (front back : List Command) :
    Stands ctx (front ++ inner ++ back) (front.length + i) labels st := by
  obtain ⟨front', code, back', rfl, rfl, hcode⟩ := h
  exact ⟨front ++ front', code, back' ++ back, by simp, List.length_append, hcode⟩

/-- The statement stands somewhere in the commands. -/
def Occurs (ctx : Context) (block : List Command) (st : Statement) : Prop :=
  ∃ i labels, Stands ctx block i labels st

theorem Occurs.within (h : Occurs ctx inner st) {block : List Command}
    (hblock : block = front ++ inner ++ back) : Occurs ctx block st := by
  obtain ⟨i, labels, h⟩ := h
  exact ⟨_, labels, hblock ▸ h.within front back⟩

mutual

/-- Every part of a statement stands in its code. -/
theorem occurs_of_mem_parts (ctx : Context) (labels : Labels) (s : Statement) {code : List Command}
    (h : (lowerStatement ctx labels s).1.Yields code) : ∀ st ∈ s.parts, Occurs ctx code st := by
  have hself : Occurs ctx code s := ⟨0, labels, .of_yields h⟩
  match s with
  | .letVariable .. | .letElement .. | .doCall .. | .return .. =>
      rw [Statement.parts]
      exact List.forall_mem_singleton.mpr hself
  | .ifThen condition consequent span =>
      obtain ⟨c, d, hc, hd, rfl⟩ := Yields.ifThen_iff.mp h
      have hinside := occurs_of_mem_partsOfAll ctx _ consequent hd
      rw [Statement.parts, List.forall_mem_cons]
      exact ⟨hself, fun st hst => (hinside st hst).within rfl⟩
  | .ifElse condition consequent alternate span =>
      obtain ⟨c, d, e, hc, hd, he, rfl⟩ := Yields.ifElse_iff.mp h
      have hfirst := occurs_of_mem_partsOfAll ctx _ consequent hd
      have hsecond := occurs_of_mem_partsOfAll ctx _ alternate he
      have hsplit (test between stop : List Command) :
          c ++ test ++ d ++ between ++ e ++ stop = c ++ test ++ d ++ (between ++ e ++ stop) := by
        simp
      rw [Statement.parts, List.forall_mem_cons, List.forall_mem_append]
      exact ⟨hself, fun st hst => (hfirst st hst).within (hsplit ..), fun st hst =>
        (hsecond st hst).within rfl⟩
  | .whileLoop condition body span =>
      obtain ⟨c, d, hc, hd, rfl⟩ := Yields.whileLoop_iff.mp h
      have hinside := occurs_of_mem_partsOfAll ctx _ body hd
      rw [Statement.parts, List.forall_mem_cons]
      exact ⟨hself, fun st hst => (hinside st hst).within rfl⟩

theorem occurs_of_mem_partsOfAll (ctx : Context) (labels : Labels) (ss : List Statement)
    {code : List Command} (h : (lowerStatements ctx {} labels ss).1.Yields code) :
    ∀ st ∈ Statement.partsOfAll ss, Occurs ctx code st := by
  match ss with
  | [] => simp [Statement.partsOfAll]
  | s :: rest =>
      obtain ⟨c, d, hc, hd, rfl⟩ := Yields.statements_cons_iff.mp h
      have hfirst := occurs_of_mem_parts ctx labels s hc
      have hothers := occurs_of_mem_partsOfAll ctx _ rest hd
      rw [Statement.partsOfAll, List.forall_mem_append]
      have hfront : c ++ d = [] ++ c ++ d := rfl
      have hback : c ++ d = c ++ d ++ [] := (List.append_nil _).symm
      exact ⟨fun st hst => (hfirst st hst).within hfront, fun st hst =>
        (hothers st hst).within hback⟩

end

/-- The places of a statement with a condition whose code starts at an address: behind the code of
its condition, where the code that it guards starts, and the label of what comes else. -/
inductive Branches (ctx : Context) (labels : Labels) (a : Nat) : Statement → Nat → Nat → Nat → Prop
  | ifThen {condition : Expression} {consequent : List Statement} {span : Source.Span}
      {c d : List Command} (test : (lowerExpression ctx condition).Yields c)
      (guarded :
        (lowerStatements ctx {} { labels with ifs := labels.ifs + 1 } consequent).1.Yields d) :
      Branches ctx labels a (.ifThen condition consequent span) (a + c.length) (a + c.length + 2)
        (a + c.length + 2 + d.length)
  | ifElse {condition : Expression} {consequent alternate : List Statement} {span : Source.Span}
      {c d : List Command} (test : (lowerExpression ctx condition).Yields c)
      (guarded :
        (lowerStatements ctx {} { labels with ifs := labels.ifs + 1 } consequent).1.Yields d) :
      Branches ctx labels a (.ifElse condition consequent alternate span) (a + c.length)
        (a + c.length + 2) (a + c.length + 2 + d.length + 1)
  | whileLoop {condition : Expression} {body : List Statement} {span : Source.Span}
      {c d : List Command} (test : (lowerExpression ctx condition).Yields c)
      (guarded :
        (lowerStatements ctx {} { labels with loops := labels.loops + 1 } body).1.Yields d) :
      Branches ctx labels a (.whileLoop condition body span) (a + 1 + c.length)
        (a + 1 + c.length + 2) (a + 1 + c.length + 2 + d.length + 1)

end JackToolchain.Lowering

namespace JackToolchain.Machine

open JackToolchain.Stack JackToolchain.Memory JackToolchain.Lowering JackToolchain.Syntax

variable {l : Site} {a sp target : Nat} {c : List Command} {name : String} {s : State}

theorem complement_eq_zero_iff (v : Int16) : ~~~v = 0 ↔ v = -1 := by
  constructor
  · intro h
    rw [← Int16.not_not (a := v), h]
    rfl
  · rintro rfl
    rfl

/-- In two steps the machine takes a value off the stack and goes to an address. Nothing else but
the stack pointer and the place of the value is touched. -/
def Decides (p : Program) (s : State) (sp target : Nat) : Prop :=
  ∃ s₁ m, step p s = .ok none s₁ ∧ step p s₁ = .ok none { s with ram := m, pc := target } ∧
    word m 0 = pointer sp ∧ ∀ b, b ≠ 0 → b ≠ sp → word m b = word s.ram b

/-- Behind a condition, the machine goes on only if its value is the word of ones. -/
theorem decides_of_placed (hplaced : l.Placed a (c ++ [.arithmetic .not, .ifGoto name]))
    (hlabel : l.linked.directory.label l.owner name = .ok target) (hpc : s.pc = a + c.length)
    (hstack : word s.ram 0 = pointer (sp + 1)) (hlow : 0 < sp) (hhigh : sp < 32768) :
    Decides l.linked.program s sp (if word s.ram sp = -1 then a + c.length + 2 else target) := by
  have hright := hplaced.right
  rw [← hpc] at hright ⊢
  set value := ~~~word s.ram sp with hvalue
  set m := pushed (popped s.ram (sp + 1)) sp value with hm
  have hdenied : step l.linked.program s = .ok none { s with ram := m, pc := s.pc + 1 } := by
    have hrun : arithmetic l.owner .not s = .ok () { s with ram := m } :=
      arithmetic_unary rfl hstack (by omega) (by omega)
    rw [hright.first.step_eq rfl]
    exact execute_arithmetic s.pc hrun
  have hstack' : word m 0 = pointer (sp + 1) := word_pushed_zero _ _ _ (by decide)
  have htop : word m sp = value := word_pushed_self _ _ (by omega) hhigh
  have hop : resolve l.linked.directory l.base l.owner (.ifGoto name) = .ok (.jumpIf target) := by
    rw [resolve, hlabel]
    rfl
  have hnext : l.Has (s.pc + 1) (.ifGoto name) := hright.tail.first
  refine ⟨_, popped m (sp + 1), hdenied, ?_, word_popped_zero _ _ (by decide), fun b hb hne => ?_⟩
  · rw [Site.Has.step_eq hnext hop]
    refine (execute_jumpIf _ _ hstack' (by omega) (by omega)).trans ?_
    simp only [Nat.add_sub_cancel, htop, hvalue, complement_eq_zero_iff]
  · rw [word_popped_of_ne _ _ hb, word_pushed_of_ne _ _ (Ne.symm hne) hb, word_popped_of_ne _ _ hb]

/-- Where the code of a statement with a condition is placed, the value of the condition decides
between its places. -/
theorem exists_branches {ctx : Context} {labels : Labels} {st : Statement} {code : List Command}
    (hplaced : l.Placed a code) (h : (lowerStatement ctx labels st).1.Yields code)
    (hcondition : st.condition?.isSome) :
    ∃ test yes no, Branches ctx labels a st test yes no ∧
      ∀ (s : State) (sp : Nat), s.pc = test → word s.ram 0 = pointer (sp + 1) → 0 < sp →
        sp < 32768 → Decides l.linked.program s sp (if word s.ram sp = -1 then yes else no) := by
  cases st with
  | ifThen condition consequent span =>
      obtain ⟨c, d, hc, hd, rfl⟩ := Yields.ifThen_iff.mp h
      have hlabel := hplaced.right.label
      refine ⟨_, _, _, .ifThen hc hd, fun s sp hpc hstack hlow hhigh => ?_⟩
      refine decides_of_placed hplaced.left.left (hlabel.trans (congrArg Except.ok ?_))
        hpc hstack hlow hhigh
      simp only [List.length_append, List.length_cons, List.length_nil]
      omega
  | ifElse condition consequent alternate span =>
      obtain ⟨c, d, e, hc, hd, he, rfl⟩ := Yields.ifElse_iff.mp h
      have hlabel := hplaced.left.left.right.tail.label
      refine ⟨_, _, _, .ifElse hc hd, fun s sp hpc hstack hlow hhigh => ?_⟩
      refine decides_of_placed hplaced.left.left.left.left (hlabel.trans (congrArg Except.ok ?_))
        hpc hstack hlow hhigh
      simp only [List.length_append, List.length_cons, List.length_nil]
      omega
  | whileLoop condition body span =>
      obtain ⟨c, d, hc, hd, rfl⟩ := Yields.whileLoop_iff.mp h
      have hlabel := hplaced.right.tail.label
      refine ⟨_, _, _, .whileLoop hc hd, fun s sp hpc hstack hlow hhigh => ?_⟩
      refine decides_of_placed hplaced.left.left.right (hlabel.trans (congrArg Except.ok ?_))
        hpc hstack hlow hhigh
      simp only [List.length_append, List.length_cons, List.length_nil]
      omega
  | _ => cases hcondition

end JackToolchain.Machine

namespace JackToolchain.Evaluation

open JackToolchain.Machine JackToolchain.Memory JackToolchain.Lowering JackToolchain.Syntax
open JackToolchain.Stack JackToolchain.Token

/-- An evaluation without rules goes on with every value but zero. -/
theorem holds_of_eval {w : World} (hlenient : w.strict = false) {fuel : Nat} {f : Frame}
    {condition : Expression} {v : Int16} {t t' : Store}
    (h : eval w fuel f condition t = .ok v t') :
    holds w (fuel + 1) f condition t = .ok (v != 0) t' := by
  rw [holds, bind_of_ok h]
  unfold demand
  rw [hlenient]
  rfl

/-- The conditions of a subroutine in a linked program. All of its statements stand in its commands,
and wherever one with a condition stands, a value on top of the stack behind the condition decides
where the machine goes. -/
structure Conditions (p : Program) (tree : ClassTree) (sub : Subroutine) (entry : Nat)
    (block : List Command) : Prop where
  functions : p.functions[s!"{tree.name}.{sub.name}"]? = some entry
  shape : ∃ labels body, YieldsBlock tree labels sub (openingOf tree sub) body ∧
    block = blockOf tree sub (openingOf tree sub) body
  occurs : ∀ st ∈ Statement.partsOfAll sub.body, Occurs (contextOf tree sub) block st
  branches : ∀ i labels st, Stands (contextOf tree sub) block i labels st → st.condition?.isSome →
    ∃ test yes no, Branches (contextOf tree sub) labels (entry + i) st test yes no ∧
      ∀ (s : State) (sp : Nat), s.pc = test → word s.ram 0 = pointer (sp + 1) → 0 < sp →
        sp < 32768 → Decides p s sp (if word s.ram sp = -1 then yes else no)

/-- In a program with a compiled class, what a condition guards is run exactly if the value of the
condition is the word of ones. An evaluation of the same statement runs it exactly if the value is
not zero, so the two agree on zero and on the word of ones, and on nothing else. -/
theorem conditions_of_link {source : String} {lx : Lexer} {c : CompiledClass}
    {files : List SourceFile} {p : Program}
    (hcompiled : (Compilation.ofLexer source lx).result = .ok c)
    (hmem : (c.className, c.commands) ∈ files) (hnamed : ∀ file ∈ files, NoneAtTop file.2)
    (hlinked : Program.link files = .ok p) :
    ∃ tree, Compiles lx tree c ∧
      (∀ sub ∈ tree.subroutines, ∃ entry block, Conditions p tree sub entry block) ∧
      ∀ (w : World) (fuel : Nat) (f : Frame) (condition : Expression) (v : Int16) (t t' : Store),
        w.strict = false → eval w fuel f condition t = .ok v t' →
          holds w (fuel + 1) f condition t = .ok (v != 0) t' := by
  obtain ⟨tree, hcompiles⟩ := Compilation.compiles_of_ok hcompiled
  obtain ⟨l, rfl, hl⟩ := exists_linked hlinked
  refine ⟨tree, hcompiles, fun sub hsub => ?_, fun _ _ _ _ _ _ _ hlenient h =>
    holds_of_eval hlenient h⟩
  obtain ⟨part, hpart, -, hcommands⟩ := Machine.exists_part 0 staticBase hmem
  obtain ⟨labels, body, front, codes, hblock, hsplit, hcodes⟩ := exists_block hcompiles hsub
  have hfunction := isFunction_block hblock hcompiles.proper (hcompiles.proper.subroutines sub hsub)
  have hplaced := hl.placed hnamed hpart (hcommands.trans hsplit) hfunction hcodes
  have hentry := hl.entry hpart (hcommands.trans hsplit) hfunction
  set block := blockOf tree sub (openingOf tree sub) body with hshape
  refine ⟨part.start + front.length, block, ?_, ⟨labels, body, hblock, hshape⟩, ?_, ?_⟩
  · rw [hl.functions]
    exact hentry
  · intro st hst
    have hbody : block = (.function s!"{tree.name}.{sub.name}" sub.localCount.toUInt16 ::
        openingOf tree sub) ++ body ++ [] := by
      rw [hshape, blockOf, List.append_nil, List.cons_append]
    exact (occurs_of_mem_partsOfAll _ labels sub.body hblock.body st hst).within hbody
  · rintro i labels' st ⟨front', code, back, hparts, rfl, hcode⟩ hcondition
    rw [hparts] at hplaced
    exact exists_branches hplaced.left.right hcode hcondition

/-- A condition that is neither zero nor the word of ones. -/
def gateSource : List Char := "class Main{function int main(){if(1){return 1;}return 2;}}".toList

def gateCommands : List Command :=
  [.function "Main.main" 0, .push .constant 1, .arithmetic .not, .ifGoto "IF_END_0",
    .push .constant 1, .return, .label "IF_END_0", .push .constant 2, .return]

theorem exists_gate : ∃ tree c,
    (Compilation.ofLexer "Main.jack" (.ofText gateSource)).result = .ok c ∧
    Compiles (.ofText gateSource) tree c ∧ c.className = "Main" ∧ c.commands = gateCommands := by
  obtain ⟨⟨tree, commands⟩, hpart, hname, rfl⟩ :
      ∃ part ∈ Compilation.compiled? 60 (.ofText gateSource), part.1.name = "Main" ∧
        part.2 = gateCommands := by
    decide +kernel
  obtain ⟨c, hc, htree, hcommands⟩ := Compilation.exists_compiles "Main.jack" rfl hpart
  exact ⟨tree, c, hc, htree, htree.className.trans hname, hcommands⟩

theorem link_gate : ∃ p, Program.link [("Main", gateCommands)] = .ok p := by
  simp [Program.link, owned, Directory.add, Directory.label, linkFiles, linkCommands, resolve,
    staticCount, staticsOf, staticBase, staticEnd, gateCommands, bind, Except.bind, pure,
    Except.pure, locate]

theorem conditions_of_gate : ∃ c p,
    (Compilation.ofLexer "Main.jack" (.ofText gateSource)).result = .ok c ∧
    Program.link [(c.className, c.commands)] = .ok p ∧
      ∃ tree, Compiles (.ofText gateSource) tree c ∧
      (∀ sub ∈ tree.subroutines, ∃ entry block, Conditions p tree sub entry block) ∧
      ∀ (w : World) (fuel : Nat) (f : Frame) (condition : Expression) (v : Int16) (t t' : Store),
        w.strict = false → eval w fuel f condition t = .ok v t' →
          holds w (fuel + 1) f condition t = .ok (v != 0) t' := by
  obtain ⟨tree, c, hc, htree, hname, hcommands⟩ := exists_gate
  obtain ⟨p, hp⟩ := link_gate
  have hlinked : Program.link [(c.className, c.commands)] = .ok p := by
    rw [hname, hcommands, hp]
  have hnamed : NoneAtTop c.commands := noneAtTop_of_wellNamed htree.wellNamed
  exact ⟨c, p, hc, hlinked, conditions_of_link hc (List.mem_singleton.mpr rfl)
    (List.forall_mem_singleton.mpr hnamed) hlinked⟩

end JackToolchain.Evaluation
