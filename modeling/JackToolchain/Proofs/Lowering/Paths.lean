import JackToolchain.Proofs.Lowering.Labels
import JackToolchain.Proofs.Lowering.Shape
import Mathlib.Logic.Relation

/-!
# Paths through a subroutine

Control goes through the commands of a block from one to the next, to the labels of jumps, and out
by a return. It comes to the end of the block exactly if the statements of the subroutine can run
to their end, and then nothing keeps it from what stands behind the block.
-/

namespace JackToolchain.Lowering

open JackToolchain.Stack JackToolchain.Syntax

/-- Control goes on to the command behind: this one is no return and no jump that is always
taken. -/
def FallsThrough (c : Command) : Prop := c ≠ .return ∧ ∀ name, c ≠ .goto name

/-- Where control goes from a position of a block. A call comes back behind itself. -/
inductive Follows (block : List Command) : Nat → Nat → Prop
  | next {i : Nat} {c : Command} (hc : block[i]? = some c) (hfalls : FallsThrough c) :
      Follows block i (i + 1)
  | jump {i j : Nat} {c : Command} {name : String} (hc : block[i]? = some c)
      (hname : targetOf? c = some name) (hj : block[j]? = some (.label name)) : Follows block i j

/-- There is a path from one position to another. -/
def Goes (block : List Command) : Nat → Nat → Prop := Relation.ReflTransGen (Follows block)

variable {front code back block : List Command} {i j k : Nat}

theorem Follows.le_length (h : Follows block i j) : j ≤ block.length := by
  cases h with
  | next hc _ => exact (List.getElem?_eq_some_iff.mp hc).1
  | jump _ _ hj => exact Nat.le_of_lt (List.getElem?_eq_some_iff.mp hj).1

theorem Goes.le_length (h : Goes block i j) (hi : i ≤ block.length) : j ≤ block.length := by
  cases h with
  | refl => exact hi
  | tail _ hlast => exact hlast.le_length

/-- From every command that is no return, control goes on. -/
theorem exists_follows (hjumps : JumpsInto block block) (hi : i < block.length)
    (hreturn : block[i]? ≠ some .return) : ∃ j, Follows block i j := by
  have hc := List.getElem?_eq_getElem hi
  cases hcommand : block[i] with
  | goto name =>
      rw [hcommand] at hc
      obtain ⟨j, hj⟩ := List.mem_iff_getElem?.mp (hjumps _ (List.mem_of_getElem? hc) name rfl)
      exact ⟨j, .jump hc rfl hj⟩
  | «return» =>
      rw [hcommand] at hc
      exact absurd hc hreturn
  | _ =>
      rw [hcommand] at hc
      exact ⟨i + 1, .next hc (by simp [FallsThrough])⟩

/-! ## Parts of a block -/

theorem getElem?_part (front back : List Command) (hi : i < code.length) :
    (front ++ code ++ back)[front.length + i]? = code[i]? := by
  rw [List.append_assoc, List.getElem?_append_right (Nat.le_add_right ..),
    Nat.add_sub_cancel_left, List.getElem?_append_left hi]

/-- What control does in a part, it does in the block. -/
theorem Follows.embed (h : Follows code i j) (front back : List Command) :
    Follows (front ++ code ++ back) (front.length + i) (front.length + j) := by
  have hat {i : Nat} {c : Command} (hc : code[i]? = some c) :
      (front ++ code ++ back)[front.length + i]? = some c := by
    rw [getElem?_part front back (List.getElem?_eq_some_iff.mp hc).1, hc]
  cases h with
  | next hc hfalls => exact .next (hat hc) hfalls
  | jump hc hname hj => exact .jump (hat hc) hname (hat hj)

theorem Goes.embed (h : Goes code i j) (front back : List Command) :
    Goes (front ++ code ++ back) (front.length + i) (front.length + j) := by
  induction h with
  | refl => exact .refl
  | tail _ hstep ih => exact ih.tail (hstep.embed front back)

theorem Goes.append {c d : List Command} (hc : Goes c 0 c.length) (hd : Goes d 0 d.length) :
    Goes (c ++ d) 0 (c ++ d).length := by
  have hfront := hc.embed [] d
  have hback := hd.embed c []
  rw [List.append_nil, ← List.length_append] at hback
  rw [List.nil_append, List.length_nil, Nat.zero_add, Nat.zero_add] at hfront
  exact hfront.trans hback

/-- A jump goes over what is skipped, and on behind its label. -/
theorem Goes.over {jump : Command} {name : String} {skipped : List Command}
    (hblock : block = front ++ [jump] ++ skipped ++ [.label name] ++ back)
    (hfront : Goes front 0 front.length) (hjump : targetOf? jump = some name)
    (hback : Goes back 0 back.length) : Goes block 0 block.length := by
  subst hblock
  have hto : Goes (front ++ [jump] ++ skipped ++ [.label name]) 0 front.length := by
    have hembed := hfront.embed [] ([jump] ++ skipped ++ [.label name])
    simpa only [List.nil_append, List.length_nil, Nat.zero_add, List.append_assoc] using hembed
  have hover : Follows (front ++ [jump] ++ skipped ++ [.label name]) front.length
      (front ++ [jump] ++ skipped).length :=
    .jump (c := jump) (by simp) hjump (by simp)
  have hbehind : Follows (front ++ [jump] ++ skipped ++ [.label name])
      (front ++ [jump] ++ skipped).length ((front ++ [jump] ++ skipped).length + 1) :=
    .next (c := .label name) (by simp) (by simp [FallsThrough])
  have hlength : (front ++ [jump] ++ skipped ++ [Command.label name]).length =
      (front ++ [jump] ++ skipped).length + 1 := List.length_append
  refine Goes.append ?_ hback
  rw [hlength]
  exact (hto.tail hover).tail hbehind

/-- A part that jumps to its own labels is left at its end only. -/
theorem Follows.part (front back : List Command) (hjumps : JumpsInto code code)
    (hnodup : (labelsIn (front ++ code ++ back)).Nodup) (hi : i < code.length)
    (h : Follows (front ++ code ++ back) (front.length + i) k) :
    ∃ j, k = front.length + j ∧ Follows code i j := by
  have hat := getElem?_part front back hi
  cases h with
  | next hc hfalls => exact ⟨i + 1, rfl, .next (hat.symm.trans hc) hfalls⟩
  | jump hc hname hk =>
      have hcode := hat.symm.trans hc
      obtain ⟨j, hj⟩ := List.mem_iff_getElem?.mp
        (hjumps _ (List.mem_of_getElem? hcode) _ hname)
      have hj' := getElem?_part front back (List.getElem?_eq_some_iff.mp hj).1
      rw [hj] at hj'
      exact ⟨j, eq_of_label hnodup hk hj', .jump hcode hname hj⟩

/-- A position inside of a part that starts at `start`, to which control comes from the start of
the part. -/
def Inside (start : Nat) (code : List Command) (k : Nat) : Prop :=
  ∃ j < code.length, k = start + j ∧ Goes code 0 j

/-- Control that comes into a part either stays inside or can come to the end of it. -/
theorem inside_of_goes (hend : ¬Goes code 0 code.length) (h : Goes code 0 j) (start : Nat) :
    Inside start code (start + j) := by
  have hle := h.le_length (Nat.zero_le _)
  rcases Nat.lt_or_eq_of_le hle with hlt | heq
  · exact ⟨j, hlt, rfl, h⟩
  · exact absurd (heq ▸ h) hend

theorem inside_start (hend : ¬Goes code 0 code.length) (start : Nat) : Inside start code start :=
  inside_of_goes hend .refl start

theorem Inside.step (front back : List Command) (hend : ¬Goes code 0 code.length)
    (hjumps : JumpsInto code code) (hnodup : (labelsIn (front ++ code ++ back)).Nodup)
    (hi : Inside front.length code i) (h : Follows (front ++ code ++ back) i k) :
    Inside front.length code k := by
  obtain ⟨j, hlt, rfl, hgoes⟩ := hi
  obtain ⟨j', rfl, hstep⟩ := h.part front back hjumps hnodup hlt
  exact inside_of_goes hend (hgoes.tail hstep) _

/-- What every step keeps, a path keeps. -/
theorem Goes.invariant {P : Nat → Prop} (h : Goes block i j) (hstart : P i)
    (hstep : ∀ i j, P i → Follows block i j → P j) : P j := by
  induction h with
  | refl => exact hstart
  | tail _ hlast ih => exact hstep _ _ ih hlast

/-- Two parts one after the other are run through if both are. -/
theorem goes_append_iff {c d : List Command} (hc : JumpsInto c c) (hd : JumpsInto d d)
    (hnodup : (labelsIn (c ++ d)).Nodup) :
    Goes (c ++ d) 0 (c ++ d).length ↔ Goes c 0 c.length ∧ Goes d 0 d.length := by
  refine ⟨fun h => ?_, fun h => h.1.append h.2⟩
  have hfirst : labelsIn ([] ++ c ++ d) = labelsIn (c ++ d) := rfl
  have hsecond : c ++ d ++ [] = c ++ d := List.append_nil _
  by_contra hnot
  rcases not_and_or.mp hnot with hend | hend
  · -- Control stays inside of the first part.
    obtain ⟨j, hlt, hj, -⟩ : Inside 0 c (c ++ d).length :=
      h.invariant (inside_start hend 0) fun i j hi hstep =>
        Inside.step [] d hend hc hnodup hi hstep
    rw [List.length_append] at hj
    omega
  · -- Control is in the first part, or stays inside of the second one.
    have hlast : (c ++ d).length < c.length ∨ Inside c.length d (c ++ d).length := by
      refine h.invariant (P := fun k => k < c.length ∨ Inside c.length d k) ?_
        fun i j hi hstep => ?_
      · rcases Nat.eq_zero_or_pos c.length with hzero | hpos
        · exact .inr (hzero ▸ inside_start hend 0)
        · exact .inl hpos
      · rcases hi with hi | hi
        · obtain ⟨j', rfl, hstep'⟩ := Follows.part [] d (i := i) hc hnodup hi
            (by simpa using hstep)
          have hle := hstep'.le_length
          rcases Nat.lt_or_eq_of_le hle with hlt | heq
          · exact .inl (by simpa using hlt)
          · exact .inr (by simpa [heq] using inside_start hend c.length)
        · refine .inr (Inside.step c [] hend hd ?_ hi ?_)
          · rwa [hsecond]
          · rwa [hsecond]
    rcases hlast with hlt | ⟨j, hlt, hj, -⟩
    · rw [List.length_append] at hlt
      omega
    · rw [List.length_append] at hj
      omega

/-- If neither branch is run through, nothing comes to the end of both. -/
theorem not_goes_branches {d e : List Command} {stop other : String}
    (hblock : block = front ++ d ++ [.goto stop, .label other] ++ e ++ [.label stop])
    (hfront : ∀ c ∈ front, ∀ name, targetOf? c = some name → name = other)
    (hd : JumpsInto d d) (he : JumpsInto e e) (hnodup : (labelsIn block).Nodup)
    (hdend : ¬Goes d 0 d.length) (heend : ¬Goes e 0 e.length) : ¬Goes block 0 block.length := by
  intro h
  have hfirst : block = front ++ d ++ ([.goto stop, .label other] ++ e ++ [.label stop]) := by
    simp [hblock]
  set middle := front ++ d ++ [.goto stop, .label other] with hmiddle
  have hother : block[front.length + d.length + 1]? = some (.label other) := by
    rw [hfirst, Nat.add_assoc, List.append_assoc, List.getElem?_append_right (Nat.le_add_right ..),
      Nat.add_sub_cancel_left, List.getElem?_append_right (Nat.le_add_right ..),
      Nat.add_sub_cancel_left]
    rfl
  have hlength : middle.length = front.length + d.length + 2 := by
    simp [hmiddle, Nat.add_assoc]
  -- Control is in front of the branches, inside of one of them, or at the label of the second.
  have hlast : block.length < front.length ∨ Inside front.length d block.length ∨
      block.length = front.length + d.length + 1 ∨ Inside middle.length e block.length := by
    refine h.invariant (P := fun k => k < front.length ∨ Inside front.length d k ∨
      k = front.length + d.length + 1 ∨ Inside middle.length e k) ?_ fun i j hi hstep => ?_
    · rcases Nat.eq_zero_or_pos front.length with hzero | hpos
      · exact .inr (.inl (hzero ▸ inside_start hdend 0))
      · exact .inl hpos
    · rcases hi with hi | hi | rfl | hi
      · cases hstep with
        | next _ _ =>
            rcases Nat.lt_or_eq_of_le hi with hlt | heq
            · exact .inl hlt
            · exact .inr (.inl (heq ▸ inside_start hdend front.length))
        | jump hc hname hj =>
            rw [hfirst, List.append_assoc, List.getElem?_append_left hi] at hc
            rw [hfront _ (List.mem_of_getElem? hc) _ hname] at hj
            exact .inr (.inr (.inl (eq_of_label hnodup hj hother)))
      · exact .inr (.inl (hi.step _ _ hdend hd (hfirst ▸ hnodup) (hfirst ▸ hstep)))
      · cases hstep with
        | next _ _ =>
            refine .inr (.inr (.inr ?_))
            rw [Nat.add_assoc _ 1 1, ← hlength]
            exact inside_start heend _
        | jump hc hname _ =>
            rw [hother] at hc
            cases hc
            cases hname
      · exact .inr (.inr (.inr (hi.step _ _ heend he (hblock ▸ hnodup) (hblock ▸ hstep))))
  have hend : block.length = middle.length + e.length + 1 := by
    simp [hblock, Nat.add_assoc]
  rcases hlast with hlt | ⟨j, hlt, hj, -⟩ | heq | ⟨j, hlt, hj, -⟩
  all_goals omega

/-! ## Straight code -/

/-- Control goes on to the command behind, and nowhere else. -/
def IsStraight (c : Command) : Prop := c ≠ .return ∧ targetOf? c = none

theorem IsStraight.fallsThrough {c : Command} (h : IsStraight c) : FallsThrough c := by
  refine ⟨h.1, ?_⟩
  rintro name rfl
  cases h.2

theorem goes_of_fallsThrough (h : ∀ c ∈ code, FallsThrough c) : Goes code 0 code.length := by
  induction code using List.reverseRecOn with
  | nil => exact .refl
  | append_singleton front c ih =>
      rw [List.forall_mem_append, List.forall_mem_singleton] at h
      exact (ih h.1).append (.single (.next rfl h.2))

theorem goes_of_straight (h : ∀ c ∈ code, IsStraight c) : Goes code 0 code.length :=
  goes_of_fallsThrough fun c hc => (h c hc).fallsThrough

/-- What may stand one height above another neither jumps nor returns. -/
theorem isStraight_of_carries {h k k' : Nat} (hlow : Carries h code k)
    (hhigh : Carries (h + 1) code k') : ∀ c ∈ code, IsStraight c := by
  induction code generalizing h with
  | nil => simp
  | cons c rest ih =>
      obtain ⟨hc, hrest⟩ := hlow
      obtain ⟨hc', hrest'⟩ := hhigh
      have hle := operandsOf_le_of_accepts hc
      have hafter : heightAfter (h + 1) c = heightAfter h c + 1 := by
        unfold heightAfter
        omega
      rw [hafter] at hrest'
      refine List.forall_mem_cons.mpr ⟨?_, ih hrest hrest'⟩
      cases c
      all_goals simp [Accepts] at hc hc'
      all_goals first | omega | simp [IsStraight, targetOf?]

theorem isStraight_expression {ctx : Context} {e : Expression}
    (h : (lowerExpression ctx e).Yields code) : ∀ c ∈ code, IsStraight c :=
  isStraight_of_carries (carries_expression ctx e h 0) (carries_expression ctx e h 1)

/-- Two branches with a jump to the second one in front, and one over it behind the first. -/
theorem goes_branches_iff {c d e : List Command} {stop other : String}
    (hblock : block = c ++ [.arithmetic .not, .ifGoto other] ++ d ++ [.goto stop, .label other] ++
      e ++ [.label stop])
    (hc : ∀ x ∈ c ++ [.arithmetic .not], IsStraight x) (hd : JumpsInto d d) (he : JumpsInto e e)
    (hnodup : (labelsIn block).Nodup) :
    Goes block 0 block.length ↔ Goes d 0 d.length ∨ Goes e 0 e.length := by
  have hfront : c ++ [.arithmetic .not, .ifGoto other] =
      c ++ [.arithmetic .not] ++ [.ifGoto other] := by simp
  constructor
  · contrapose!
    rintro ⟨hdend, heend⟩
    refine not_goes_branches hblock ?_ hd he hnodup hdend heend
    rw [hfront, List.forall_mem_append, List.forall_mem_singleton]
    refine ⟨fun x hx name hname => ?_, by simp [targetOf?]⟩
    rw [(hc x hx).2] at hname
    cases hname
  · rintro (hdend | heend)
    · -- The first branch jumps over the second one.
      have hskip : block = (c ++ [.arithmetic .not, .ifGoto other] ++ d) ++ [.goto stop] ++
          ([.label other] ++ e) ++ [.label stop] ++ [] := by simp [hblock]
      refine Goes.over hskip (Goes.append (goes_of_fallsThrough ?_) hdend) rfl .refl
      rw [hfront, List.forall_mem_append, List.forall_mem_singleton]
      exact ⟨fun x hx => (hc x hx).fallsThrough, by simp [FallsThrough]⟩
    · -- The condition jumps over the first branch.
      have hskip : block = (c ++ [.arithmetic .not]) ++ [.ifGoto other] ++ (d ++ [.goto stop]) ++
          [.label other] ++ (e ++ [.label stop]) := by simp [hblock]
      have hlabel : Goes [.label stop] 0 1 := .single (.next rfl (by simp [FallsThrough]))
      exact Goes.over hskip (goes_of_straight hc) rfl (heend.append hlabel)

/-- A return is not run through. -/
theorem not_goes_return (h : ∀ c ∈ front, IsStraight c) :
    ¬Goes (front ++ [.return]) 0 (front ++ [Command.return]).length := by
  intro hgoes
  have hlast : (front ++ [Command.return]).length ≤ front.length := by
    refine hgoes.invariant (P := fun k => k ≤ front.length) (Nat.zero_le _) fun i j hi hstep => ?_
    rcases Nat.lt_or_eq_of_le hi with hlt | rfl
    · cases hstep with
      | next _ _ => exact hlt
      | jump hc hname _ =>
          rw [List.getElem?_append_left hlt] at hc
          rw [(h _ (List.mem_of_getElem? hc)).2] at hname
          cases hname
    · cases hstep with
      | next hc hfalls =>
          rw [List.getElem?_concat_length] at hc
          cases hc
          exact absurd rfl hfalls.1
      | jump hc hname _ =>
          rw [List.getElem?_concat_length] at hc
          cases hc
          cases hname
  rw [List.length_append] at hlast
  exact absurd hlast (Nat.not_succ_le_self _)

/-! ## Statements -/

mutual

/-- A statement can be run to its end: it is no return, and if it has two branches then one of them
can be. -/
def completes : Statement → Bool
  | .return .. => false
  | .ifElse _ consequent alternate _ => completesAll consequent || completesAll alternate
  | .letVariable .. | .letElement .. | .ifThen .. | .whileLoop .. | .doCall .. => true

def completesAll : List Statement → Bool
  | [] => true
  | s :: rest => completes s && completesAll rest

end

theorem isStraight_unless {ctx : Context} {condition : Expression}
    (h : (lowerExpression ctx condition).Yields code) :
    ∀ c ∈ code ++ [.arithmetic .not], IsStraight c := by
  rw [List.forall_mem_append, List.forall_mem_singleton]
  exact ⟨isStraight_expression h, by simp [IsStraight, targetOf?]⟩

theorem nodup_labelsIn_statement {ctx : Context} {labels : Labels} {s : Statement}
    (h : (lowerStatement ctx labels s).1.Yields code) : (labelsIn code).Nodup := by
  obtain ⟨marks, hmarks⟩ := marked_statement ctx labels s h
  exact hmarks.nodup_labelsIn

theorem nodup_labelsIn_statements {ctx : Context} {labels : Labels} {ss : List Statement}
    (h : (lowerStatements ctx {} labels ss).1.Yields code) : (labelsIn code).Nodup := by
  obtain ⟨marks, hmarks⟩ := marked_statements ctx labels ss h
  exact hmarks.nodup_labelsIn

mutual

/-- There is a path through the commands of a statement exactly if it can be run to its end. -/
theorem goes_statement_iff (ctx : Context) (labels : Labels) (s : Statement) {code : List Command}
    (h : (lowerStatement ctx labels s).1.Yields code) :
    Goes code 0 code.length ↔ completes s = true := by
  have hnodup := nodup_labelsIn_statement h
  match s with
  | .letVariable target value span =>
      obtain ⟨entry, c, -, hc, rfl⟩ := Yields.letVariable_iff.mp h
      refine iff_of_true (goes_of_straight ?_) rfl
      rw [List.forall_mem_append, List.forall_mem_singleton]
      exact ⟨isStraight_expression hc, by simp [IsStraight, popEntry, targetOf?]⟩
  | .letElement target index value span =>
      obtain ⟨entry, c, d, -, hc, hd, rfl⟩ := Yields.letElement_iff.mp h
      refine iff_of_true (goes_of_straight ?_) rfl
      simp only [List.forall_mem_append]
      refine ⟨⟨⟨⟨?_, isStraight_expression hc⟩, ?_⟩, isStraight_expression hd⟩, ?_⟩
      all_goals simp [IsStraight, pushEntry, targetOf?]
  | .ifThen condition consequent span =>
      obtain ⟨c, d, hc, hd, rfl⟩ := Yields.ifThen_iff.mp h
      have hskip : c ++ [.arithmetic .not, .ifGoto s!"IF_END_{labels.ifs}"] ++ d ++
          [.label s!"IF_END_{labels.ifs}"] =
          (c ++ [.arithmetic .not]) ++ [.ifGoto s!"IF_END_{labels.ifs}"] ++ d ++
          [.label s!"IF_END_{labels.ifs}"] ++ [] := by simp
      exact iff_of_true (Goes.over hskip (goes_of_straight (isStraight_unless hc)) rfl .refl) rfl
  | .ifElse condition consequent alternate span =>
      obtain ⟨c, d, e, hc, hd, he, rfl⟩ := Yields.ifElse_iff.mp h
      rw [completes, Bool.or_eq_true, ← goes_statements_iff ctx _ consequent hd,
        ← goes_statements_iff ctx _ alternate he]
      exact goes_branches_iff rfl (isStraight_unless hc) (jumpsInto_statements ctx _ consequent hd)
        (jumpsInto_statements ctx _ alternate he) hnodup
  | .whileLoop condition body span =>
      obtain ⟨c, d, hc, hd, rfl⟩ := Yields.whileLoop_iff.mp h
      have hskip : [.label s!"WHILE_{labels.loops}"] ++
          (c ++ [.arithmetic .not, .ifGoto s!"WHILE_END_{labels.loops}"]) ++ d ++
          [.goto s!"WHILE_{labels.loops}", .label s!"WHILE_END_{labels.loops}"] =
          ([.label s!"WHILE_{labels.loops}"] ++ (c ++ [.arithmetic .not])) ++
          [.ifGoto s!"WHILE_END_{labels.loops}"] ++ (d ++ [.goto s!"WHILE_{labels.loops}"]) ++
          [.label s!"WHILE_END_{labels.loops}"] ++ [] := by simp
      refine iff_of_true (Goes.over hskip (goes_of_straight ?_) rfl .refl) rfl
      rw [List.forall_mem_append, List.forall_mem_singleton]
      exact ⟨by simp [IsStraight, targetOf?], isStraight_unless hc⟩
  | .doCall call span =>
      obtain ⟨c, hc, rfl⟩ := Yields.doCall_iff.mp h
      refine iff_of_true (goes_of_straight ?_) rfl
      rw [List.forall_mem_append, List.forall_mem_singleton]
      exact ⟨isStraight_expression hc, by simp [IsStraight, targetOf?]⟩
  | .return (some value) span =>
      obtain ⟨c, hc, rfl⟩ := Yields.return_some_iff.mp h
      exact iff_of_false (not_goes_return (isStraight_expression hc)) (by simp [completes])
  | .return none span =>
      rw [Yields.return_none_iff.mp h]
      have hpush : ∀ c ∈ [Command.push .constant 0], IsStraight c := by
        simp [IsStraight, targetOf?]
      exact iff_of_false (not_goes_return hpush) (by simp [completes])

theorem goes_statements_iff (ctx : Context) (labels : Labels) (ss : List Statement)
    {code : List Command} (h : (lowerStatements ctx {} labels ss).1.Yields code) :
    Goes code 0 code.length ↔ completesAll ss = true := by
  have hnodup := nodup_labelsIn_statements h
  match ss with
  | [] =>
      rw [Yields.statements_nil_iff.mp h]
      exact iff_of_true .refl rfl
  | s :: rest =>
      obtain ⟨c, d, hc, hd, rfl⟩ := Yields.statements_cons_iff.mp h
      rw [completesAll, Bool.and_eq_true, ← goes_statement_iff ctx labels s hc,
        ← goes_statements_iff ctx _ rest hd]
      exact goes_append_iff (jumpsInto_statement ctx labels s hc)
        (jumpsInto_statements ctx _ rest hd) hnodup

end

/-! ## Blocks -/

/-- Control in the block of a subroutine: a jump leads to one place of the block, control goes on
from everything but a return, and it comes behind the last command exactly if the statements can be
run to their end. -/
structure ControlOf (tree : ClassTree) (s : Subroutine) (block : List Command) : Prop where
  first : ∃ count, block[0]? = some (.function (fullName tree.name s.name) count)
  target : ∀ (i : Nat) c name, block[i]? = some c → targetOf? c = some name →
    ∃ j : Nat, block[j]? = some (.label name) ∧ ∀ k : Nat, block[k]? = some (.label name) → k = j
  inside : ∀ i, Goes block 0 i → i ≤ block.length
  goesOn : ∀ i < block.length, block[i]? ≠ some .return → ∃ j, Follows block i j
  ends : Goes block 0 block.length ↔ completesAll s.body = true

theorem isStraight_openingOf (tree : ClassTree) (s : Subroutine) :
    ∀ c ∈ openingOf tree s, IsStraight c := by
  unfold openingOf
  cases s.kind <;> simp [IsStraight, targetOf?]

theorem YieldsBlock.controlOf {tree : ClassTree} {labels : Labels} {s : Subroutine}
    {opening body : List Command} (h : YieldsBlock tree labels s opening body) :
    ControlOf tree s (blockOf tree s opening body) := by
  set front : List Command := .function (fullName tree.name s.name) s.localCount.toUInt16 :: opening
  have hblock : blockOf tree s opening body = front ++ body := rfl
  have hplain := plain_prologue h.opening
  have hfront : ∀ c ∈ front, IsPlain c := List.forall_mem_cons.mpr ⟨⟨rfl, rfl⟩, hplain⟩
  have hstraight : ∀ c ∈ front, IsStraight c := by
    rw [List.forall_mem_cons, h.opening_eq.1]
    exact ⟨by simp [IsStraight, targetOf?], isStraight_openingOf tree s⟩
  have hinto : JumpsInto front front := jumpsInto_of_straight (fun c hc => (hfront c hc).1) _
  have hbody := jumpsInto_statements _ _ _ h.body
  have hnodup : (labelsIn (front ++ body)).Nodup := by
    rw [labelsIn_append, labelsIn_plain hfront]
    exact nodup_labelsIn_statements h.body
  have hjumps : JumpsInto (front ++ body) (front ++ body) :=
    jumpsInto_append_iff.mpr ⟨hinto.mono (List.subset_append_left ..),
      hbody.mono (List.subset_append_right ..)⟩
  rw [hblock]
  refine ⟨⟨_, rfl⟩, fun i c name hc hname => ?_, fun i hi => hi.le_length (Nat.zero_le _),
    fun i hi hreturn => exists_follows hjumps hi hreturn, ?_⟩
  · obtain ⟨j, hj⟩ := List.mem_iff_getElem?.mp (hjumps c (List.mem_of_getElem? hc) name hname)
    exact ⟨j, hj, fun k hk => eq_of_label hnodup hk hj⟩
  · rw [goes_append_iff hinto hbody hnodup, goes_statements_iff _ _ _ h.body]
    exact and_iff_right (goes_of_straight hstraight)

/-- A class is lowered to the blocks of its subroutines, and control leaves the block of a
subroutine by returns alone exactly if its statements cannot be run to their end. -/
theorem controlOf_of_lowerClass {tree : ClassTree} {commands : List Command}
    (h : (lowerClass tree).result = .ok commands) :
    ∃ blocks, commands = blocks.flatten ∧
      List.Forall₂ (ControlOf tree) tree.subroutines blocks := by
  obtain ⟨blocks, hblocks, hcommands⟩ := yields_of_lowerClass h
  refine ⟨blocks, hcommands, hblocks.forall₂.imp ?_⟩
  rintro s _ ⟨labels, body, hyields, rfl⟩
  exact hyields.controlOf

/-- A class with a function of no statements in front of one that returns. -/
def spill : ClassTree :=
  let at0 : Source.Span := default
  { name := "Main"
    classVars := []
    subroutines := [
      { kind := .function, returnType := some .int, name := "main", parameters := [], locals := []
        body := [], span := at0 },
      { kind := .function, returnType := some .int, name := "other", parameters := [], locals := []
        body := [.return (some (.integer 7 at0)) at0], span := at0 }]
    span := at0 }

/-- Control goes from the first function of the class into the second one. -/
theorem controlOf_spill :
    ∃ blocks, [.function "Main.main" 0, .function "Main.other" 0, .push .constant 7, .return] =
        blocks.flatten ∧
      List.Forall₂ (ControlOf spill) spill.subroutines blocks := by
  refine controlOf_of_lowerClass ?_
  simp [spill, lowerClass, lowerSubroutines, lowerSubroutine, prologue, withCount,
    Subroutine.localCount, lowerStatements, lowerStatement, lowerExpression, Emission.ofList,
    Emission.settle, Limits.maxCommandsPerClass]
  decide

end JackToolchain.Lowering
