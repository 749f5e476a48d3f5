import JackToolchain.Proofs.Evaluation.Conditions

/-!
# Jumps of statements

A conditional jumps over the statements that it guards, and a loop back to its start. All jumps of a
compiled class are of this kind: each leads to a label that the same statement puts into the block
of its subroutine, and no other label of the class has its name.
-/

namespace JackToolchain.Lowering

open JackToolchain.Stack JackToolchain.Syntax

/-! ## Labels of a class -/

theorem labels_lowerSubroutine (tree : ClassTree) (labels : Labels) (s : Subroutine) :
    (lowerSubroutine tree (.ofClass tree) labels s).2 =
      (lowerStatements (contextOf tree s) {} labels s.body).2 := by
  unfold lowerSubroutine
  dsimp only
  rw [lowerStatements_front]
  rfl

theorem YieldsBlock.marked {tree : ClassTree} {labels : Labels} {s : Subroutine}
    {opening body : List Command} (h : YieldsBlock tree labels s opening body) :
    ∃ marks, Marked labels (lowerSubroutine tree (.ofClass tree) labels s).2
      (blockOf tree s opening body) marks := by
  obtain ⟨marks, hbody⟩ := marked_statements _ labels s.body h.body
  have hfront : ∀ c ∈ .function s!"{tree.name}.{s.name}" s.localCount.toUInt16 :: opening,
      IsPlain c := List.forall_mem_cons.mpr ⟨⟨rfl, rfl⟩, plain_prologue h.opening⟩
  rw [labels_lowerSubroutine]
  exact ⟨[] ++ marks, (Marked.plain hfront labels).append hbody⟩

/-- The numbers of labels are counted through the subroutines of a class. -/
theorem YieldsBlocks.marked {tree : ClassTree} {labels : Labels} {ss : List Subroutine}
    {blocks : List (List Command)} (h : YieldsBlocks tree labels ss blocks) :
    ∃ behind marks, Marked labels behind blocks.flatten marks := by
  induction h with
  | nil labels => exact ⟨labels, [], .plain (by simp) labels⟩
  | cons first others ih =>
      obtain ⟨marks, hfirst⟩ := first.marked
      obtain ⟨behind, more, hothers⟩ := ih
      exact ⟨behind, marks ++ more, hfirst.append hothers⟩

/-- No two labels of a class have the same name. -/
theorem nodup_labelsIn_of_lowerClass {tree : ClassTree} {commands : List Command}
    (h : (lowerClass tree).result = .ok commands) : (labelsIn commands).Nodup := by
  obtain ⟨blocks, hblocks, rfl⟩ := yields_of_lowerClass h
  obtain ⟨behind, marks, hmarked⟩ := hblocks.marked
  exact hmarked.nodup_labelsIn

/-! ## A statement's own jumps -/

/-- A jump that a statement makes by itself, and the label that it puts there for it, as positions
in its code. -/
inductive OwnJump (ctx : Context) (labels : Labels) : Statement → Nat → Nat → Prop
  | overThen {condition : Expression} {consequent : List Statement} {span : Source.Span}
      {c d : List Command} (test : (lowerExpression ctx condition).Yields c)
      (guarded :
        (lowerStatements ctx {} { labels with ifs := labels.ifs + 1 } consequent).1.Yields d) :
      OwnJump ctx labels (.ifThen condition consequent span) (c.length + 1)
        (c.length + 2 + d.length)
  | toElse {condition : Expression} {consequent alternate : List Statement} {span : Source.Span}
      {c d : List Command} (test : (lowerExpression ctx condition).Yields c)
      (guarded :
        (lowerStatements ctx {} { labels with ifs := labels.ifs + 1 } consequent).1.Yields d) :
      OwnJump ctx labels (.ifElse condition consequent alternate span) (c.length + 1)
        (c.length + 2 + d.length + 1)
  | overElse {condition : Expression} {consequent alternate : List Statement} {span : Source.Span}
      {c d e : List Command} (test : (lowerExpression ctx condition).Yields c)
      (guarded :
        (lowerStatements ctx {} { labels with ifs := labels.ifs + 1 } consequent).1.Yields d)
      (other : (lowerStatements ctx {}
        (lowerStatements ctx {} { labels with ifs := labels.ifs + 1 } consequent).2
        alternate).1.Yields e) :
      OwnJump ctx labels (.ifElse condition consequent alternate span) (c.length + 2 + d.length)
        (c.length + 2 + d.length + 2 + e.length)
  | overBody {condition : Expression} {body : List Statement} {span : Source.Span}
      {c d : List Command} (test : (lowerExpression ctx condition).Yields c)
      (guarded :
        (lowerStatements ctx {} { labels with loops := labels.loops + 1 } body).1.Yields d) :
      OwnJump ctx labels (.whileLoop condition body span) (1 + c.length + 1)
        (1 + c.length + 2 + d.length + 1)
  | again {condition : Expression} {body : List Statement} {span : Source.Span}
      {c d : List Command} (test : (lowerExpression ctx condition).Yields c)
      (guarded :
        (lowerStatements ctx {} { labels with loops := labels.loops + 1 } body).1.Yields d) :
      OwnJump ctx labels (.whileLoop condition body span) (1 + c.length + 2 + d.length) 0

/-- One of some statements stands in a block, and makes a jump by itself from a position to
another. -/
def Leads (ctx : Context) (sts : List Statement) (block : List Command) (p q : Nat) : Prop :=
  ∃ st ∈ sts, ∃ i labels a b, Stands ctx block i labels st ∧ OwnJump ctx labels st a b ∧
    p = i + a ∧ q = i + b

variable {ctx : Context} {labels : Labels} {sts more : List Statement} {st : Statement}
  {block code inner c d : List Command} {n p q : Nat}

theorem Leads.within (h : Leads ctx sts inner p q) (hsub : sts ⊆ more)
    (front back : List Command) :
    Leads ctx more (front ++ inner ++ back) (front.length + p) (front.length + q) := by
  obtain ⟨st, hst, i, labels, a, b, hstands, hown, rfl, rfl⟩ := h
  exact ⟨st, hsub hst, _, labels, a, b, hstands.within front back, hown,
    (Nat.add_assoc ..).symm, (Nat.add_assoc ..).symm⟩

/-- Every jump of some commands, which have a place in a block, is a statement's own and leads to
its label. -/
def LeadsAll (ctx : Context) (sts : List Statement) (block : List Command) (n : Nat)
    (code : List Command) : Prop :=
  ∀ p c name, code[p]? = some c → targetOf? c = some name →
    ∃ q, Leads ctx sts block (n + p) q ∧ block[q]? = some (.label name)

theorem leadsAll_append_iff : LeadsAll ctx sts block n (c ++ d) ↔
    LeadsAll ctx sts block n c ∧ LeadsAll ctx sts block (n + c.length) d := by
  constructor
  · intro h
    refine ⟨fun p x name hx hname => h p x name ?_ hname, fun p x name hx hname => ?_⟩
    · rwa [List.getElem?_append_left (List.getElem?_eq_some_iff.mp hx).1]
    · rw [Nat.add_assoc]
      refine h (c.length + p) x name ?_ hname
      rwa [List.getElem?_append_right (Nat.le_add_right ..), Nat.add_sub_cancel_left]
  · rintro ⟨hc, hd⟩ p x name hx hname
    by_cases hp : p < c.length
    · exact hc p x name (by rwa [List.getElem?_append_left hp] at hx) hname
    · obtain ⟨k, rfl⟩ := Nat.exists_eq_add_of_le (Nat.le_of_not_lt hp)
      rw [← Nat.add_assoc]
      rw [List.getElem?_append_right (Nat.le_add_right ..), Nat.add_sub_cancel_left] at hx
      exact hd k x name hx hname

theorem leadsAll_of_straight (h : ∀ x ∈ code, targetOf? x = none) :
    LeadsAll ctx sts block n code := by
  intro p x name hx hname
  rw [h x (List.mem_of_getElem? hx)] at hname
  cases hname

/-- What leads to labels in a part does so in the whole. -/
theorem LeadsAll.within (h : LeadsAll ctx sts inner 0 inner) (hsub : sts ⊆ more)
    (front back : List Command) :
    LeadsAll ctx more (front ++ inner ++ back) front.length inner := by
  intro p x name hx hname
  obtain ⟨q, hleads, hq⟩ := h p x name hx hname
  rw [Nat.zero_add] at hleads
  refine ⟨front.length + q, hleads.within hsub front back, ?_⟩
  rw [List.append_assoc, List.getElem?_append_right (Nat.le_add_right ..), Nat.add_sub_cancel_left,
    List.getElem?_append_left (List.getElem?_eq_some_iff.mp hq).1, hq]

theorem leadsAll_nil : LeadsAll ctx sts block n [] := leadsAll_of_straight (by simp)

theorem leadsAll_cons_iff {x : Command} : LeadsAll ctx sts block n (x :: code) ↔
    (∀ name, targetOf? x = some name → ∃ q, Leads ctx sts block n q ∧
      block[q]? = some (.label name)) ∧ LeadsAll ctx sts block (n + 1) code := by
  have hone : LeadsAll ctx sts block n [x] ↔ ∀ name, targetOf? x = some name →
      ∃ q, Leads ctx sts block n q ∧ block[q]? = some (.label name) := by
    constructor
    · exact fun h name hname => h 0 x name rfl hname
    · rintro h (_ | p) y name hy hname
      · cases hy
        exact h name hname
      · cases hy
  rw [← hone]
  exact leadsAll_append_iff (c := [x])

theorem getElem?_middle {α : Type} (front : List α) {back all : List α} {x : α} {n : Nat}
    (hall : all = front ++ x :: back) (hn : n = front.length) : all[n]? = some x := by
  subst hall hn
  rw [List.getElem?_append_right (Nat.le_refl _), Nat.sub_self]
  rfl

theorem leads_own {a b : Nat} (h : (lowerStatement ctx labels st).1.Yields code)
    (hown : OwnJump ctx labels st a b) (hst : st ∈ sts) (hp : p = a) : Leads ctx sts code p b :=
  ⟨st, hst, 0, labels, a, b, .of_yields h, hown, by rw [hp, Nat.zero_add], (Nat.zero_add b).symm⟩

theorem mem_parts_self (s : Statement) : s ∈ s.parts := by
  cases s <;> simp [Statement.parts]

/-- Statements without a condition do not jump. -/
theorem straight_statement {s : Statement} (hs : s.condition? = none)
    (h : (lowerStatement ctx labels s).1.Yields code) : ∀ x ∈ code, targetOf? x = none := by
  cases s with
  | letVariable target value span =>
      obtain ⟨entry, c, -, hc, rfl⟩ := Yields.letVariable_iff.mp h
      rw [List.forall_mem_append]
      exact ⟨straight_expression ctx value hc, by simp [popEntry, targetOf?]⟩
  | letElement target index value span =>
      obtain ⟨entry, c, d, -, hc, hd, rfl⟩ := Yields.letElement_iff.mp h
      simp only [List.forall_mem_append]
      refine ⟨⟨⟨⟨?_, straight_expression ctx index hc⟩, ?_⟩, straight_expression ctx value hd⟩, ?_⟩
      all_goals simp [pushEntry, targetOf?]
  | doCall call span =>
      obtain ⟨c, hc, rfl⟩ := Yields.doCall_iff.mp h
      rw [List.forall_mem_append]
      exact ⟨straight_expression ctx _ hc, by simp [targetOf?]⟩
  | «return» value span =>
      cases value with
      | none => simp [Yields.return_none_iff.mp h, targetOf?]
      | some value =>
          obtain ⟨c, hc, rfl⟩ := Yields.return_some_iff.mp h
          rw [List.forall_mem_append]
          exact ⟨straight_expression ctx value hc, by simp [targetOf?]⟩
  | _ => cases hs

mutual

/-- Every jump of a statement is its own or that of one of its parts. -/
theorem leadsAll_statement (ctx : Context) (labels : Labels) (s : Statement) {code : List Command}
    (h : (lowerStatement ctx labels s).1.Yields code) :
    LeadsAll ctx s.parts code 0 code := by
  have hself := mem_parts_self s
  match s with
  | .letVariable .. | .letElement .. | .doCall .. | .return .. =>
      exact leadsAll_of_straight (straight_statement rfl h)
  | .ifThen condition consequent span =>
      obtain ⟨c, d, hc, hd, rfl⟩ := Yields.ifThen_iff.mp h
      have htest := straight_expression ctx condition hc
      have hinside := leadsAll_statements ctx _ consequent hd
      have hsub : Statement.partsOfAll consequent ⊆
          (Statement.ifThen condition consequent span).parts := by
        rw [Statement.parts]
        exact List.subset_cons_self ..
      simp only [leadsAll_append_iff, leadsAll_cons_iff, targetOf?, reduceCtorEq, false_imp_iff,
        implies_true, Option.some.injEq, forall_eq', leadsAll_nil, and_true, true_and,
        Nat.zero_add]
      refine ⟨⟨leadsAll_of_straight htest, _, leads_own h (.overThen hc hd) hself rfl, ?_⟩,
        hinside.within hsub _ _⟩
      exact getElem?_middle _ rfl (by simp; omega)
  | .ifElse condition consequent alternate span =>
      obtain ⟨c, d, e, hc, hd, he, rfl⟩ := Yields.ifElse_iff.mp h
      have htest := straight_expression ctx condition hc
      have hfirst := leadsAll_statements ctx _ consequent hd
      have hsecond := leadsAll_statements ctx _ alternate he
      have hsub : Statement.partsOfAll consequent ++ Statement.partsOfAll alternate ⊆
          (Statement.ifElse condition consequent alternate span).parts := by
        rw [Statement.parts]
        exact List.subset_cons_self ..
      obtain ⟨hsubFirst, hsubSecond⟩ := List.append_subset.mp hsub
      simp only [leadsAll_append_iff, leadsAll_cons_iff, targetOf?, reduceCtorEq, false_imp_iff,
        implies_true, Option.some.injEq, forall_eq', leadsAll_nil, and_true, true_and,
        Nat.zero_add]
      refine ⟨⟨⟨⟨leadsAll_of_straight htest, _, leads_own h (.toElse hc hd) hself rfl, ?_⟩, ?_⟩, _,
        leads_own h (.overElse hc hd he) hself ?_, ?_⟩, hsecond.within hsubSecond _ _⟩
      · refine getElem?_middle (c ++ [.arithmetic .not, .ifGoto s!"IF_ELSE_{labels.ifs}"] ++
          d ++ [.goto s!"IF_END_{labels.ifs}"]) (by simp; rfl) (by simp; omega)
      · have hwithin := hfirst.within hsubFirst
          (c ++ [.arithmetic .not, .ifGoto s!"IF_ELSE_{labels.ifs}"])
          ([.goto s!"IF_END_{labels.ifs}", .label s!"IF_ELSE_{labels.ifs}"] ++ e ++
            [.label s!"IF_END_{labels.ifs}"])
        simpa only [List.append_assoc] using hwithin
      · simp
        omega
      · exact getElem?_middle _ rfl (by simp; omega)
  | .whileLoop condition body span =>
      obtain ⟨c, d, hc, hd, rfl⟩ := Yields.whileLoop_iff.mp h
      have htest := straight_expression ctx condition hc
      have hinside := leadsAll_statements ctx _ body hd
      have hsub : Statement.partsOfAll body ⊆ (Statement.whileLoop condition body span).parts := by
        rw [Statement.parts]
        exact List.subset_cons_self ..
      simp only [leadsAll_append_iff, leadsAll_cons_iff, targetOf?, reduceCtorEq, false_imp_iff,
        implies_true, Option.some.injEq, forall_eq', leadsAll_nil, and_true, true_and,
        Nat.zero_add]
      refine ⟨⟨⟨leadsAll_of_straight htest, _, leads_own h (.overBody hc hd) hself ?_, ?_⟩,
        hinside.within hsub _ _⟩, _, leads_own h (.again hc hd) hself ?_, rfl⟩
      · simp
      · refine getElem?_middle ([.label s!"WHILE_{labels.loops}"] ++ (c ++
          [.arithmetic .not, .ifGoto s!"WHILE_END_{labels.loops}"]) ++ d ++
          [.goto s!"WHILE_{labels.loops}"]) (by simp; rfl) (by simp; omega)
      · simp
        omega

theorem leadsAll_statements (ctx : Context) (labels : Labels) (ss : List Statement)
    {code : List Command} (h : (lowerStatements ctx {} labels ss).1.Yields code) :
    LeadsAll ctx (Statement.partsOfAll ss) code 0 code := by
  match ss with
  | [] =>
      rw [Yields.statements_nil_iff.mp h]
      exact leadsAll_of_straight (by simp)
  | s :: rest =>
      obtain ⟨c, d, hc, hd, rfl⟩ := Yields.statements_cons_iff.mp h
      have hfirst := (leadsAll_statement ctx labels s hc).within
        (List.subset_append_left s.parts (Statement.partsOfAll rest)) [] d
      have hothers := (leadsAll_statements ctx _ rest hd).within
        (List.subset_append_right s.parts (Statement.partsOfAll rest)) c []
      rw [List.append_nil] at hothers
      rw [leadsAll_append_iff, Nat.zero_add]
      exact ⟨hfirst, hothers⟩

end

/-- Every jump in the block of a subroutine is made by one of its statements. -/
theorem YieldsBlock.leadsAll {tree : ClassTree} {labels : Labels} {s : Subroutine}
    {opening body : List Command} (h : YieldsBlock tree labels s opening body) :
    LeadsAll (contextOf tree s) (Statement.partsOfAll s.body) (blockOf tree s opening body) 0
      (blockOf tree s opening body) := by
  have hbody := (leadsAll_statements _ labels s.body h.body).within (List.Subset.refl _)
    (.function s!"{tree.name}.{s.name}" s.localCount.toUInt16 :: opening) []
  rw [List.append_nil, List.cons_append] at hbody
  rw [blockOf, ← List.cons_append, leadsAll_append_iff, Nat.zero_add]
  exact ⟨leadsAll_of_straight (List.forall_mem_cons.mpr
    ⟨rfl, fun c hc => (plain_prologue h.opening c hc).1⟩), hbody⟩

end JackToolchain.Lowering
