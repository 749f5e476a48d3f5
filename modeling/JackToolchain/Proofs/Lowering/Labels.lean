import JackToolchain.Proofs.Lowering.Heights

/-!
# Labels

The labels of a lowered class carry numbers that are counted through, so no two of a subroutine are
the same.
-/

namespace JackToolchain.Lowering

open JackToolchain.Stack JackToolchain.Syntax

/-- What a label marks. -/
inductive MarkKind
  /-- The end of an `if`. -/
  | stop
  /-- The statements behind an `else`. -/
  | other
  /-- The condition of a loop. -/
  | again
  /-- The end of a loop. -/
  | done
  deriving DecidableEq

def MarkKind.front : MarkKind → String
  | stop => "IF_END_"
  | other => "IF_ELSE_"
  | again => "WHILE_"
  | done => "WHILE_END_"

theorem MarkKind.front_injective {k k' : MarkKind} (h : k.front = k'.front) : k = k' := by
  cases k <;> cases k' <;> first | rfl | exact absurd h (by decide)

/-- A label that a statement puts around one of its parts. -/
structure Mark where
  kind : MarkKind
  number : Nat
  deriving DecidableEq

namespace Mark

def text (m : Mark) : String := m.kind.front ++ toString m.number

theorem toList_text (m : Mark) :
    m.text.toList = m.kind.front.toList ++ Nat.toDigits 10 m.number := by
  simp [text]

/-- The number starts at the first digit. -/
theorem text_injective {m m' : Mark} (h : m.text = m'.text) : m = m' := by
  have hdigits (k : Mark) : ∀ c ∈ Nat.toDigits 10 k.number, (!c.isDigit) = false := fun c hc => by
    simp [Nat.isDigit_of_mem_toDigits (by decide) (by decide) hc]
  have hletters (k : MarkKind) : ∀ c ∈ k.front.toList, (!c.isDigit) = true := by
    cases k
    all_goals simp [MarkKind.front]
  have hsplit (k : Mark) : k.text.toList.takeWhile (fun c => !c.isDigit) = k.kind.front.toList ∧
      k.text.toList.dropWhile (fun c => !c.isDigit) = Nat.toDigits 10 k.number := by
    rw [toList_text, List.takeWhile_append_of_pos (hletters k.kind),
      List.dropWhile_append_of_pos (hletters k.kind)]
    cases hnumber : Nat.toDigits 10 k.number with
    | nil => exact absurd hnumber Nat.toDigits_ne_nil
    | cons c rest =>
        have hc := hdigits k c (by simp [hnumber])
        simp only [List.takeWhile_cons, List.dropWhile_cons, hc]
        simp
  have hkind : m.kind = m'.kind := by
    refine MarkKind.front_injective (String.toList_inj.mp ?_)
    rw [← (hsplit m).1, h, (hsplit m').1]
  have hnumber : m.number = m'.number := by
    have hdigits : Nat.toDigits 10 m.number = Nat.toDigits 10 m'.number := by
      rw [← (hsplit m).2, h, (hsplit m').2]
    rw [← Nat.ofDigitChars_ten_toDigits (n := m.number), hdigits, Nat.ofDigitChars_ten_toDigits]
  cases m
  cases m'
  exact Mark.mk.injEq .. ▸ ⟨hkind, hnumber⟩

end Mark

/-- The labels among commands, in order. -/
def labelsIn (code : List Command) : List String := code.filterMap labelOf?

theorem labelsIn_append (c d : List Command) : labelsIn (c ++ d) = labelsIn c ++ labelsIn d :=
  List.filterMap_append

theorem labelsIn_plain {code : List Command} (h : ∀ c ∈ code, IsPlain c) : labelsIn code = [] :=
  List.filterMap_eq_nil_iff.mpr fun c hc => (h c hc).2

/-- Where no label is repeated, a label stands in one place. -/
theorem eq_of_label {code : List Command} (h : (labelsIn code).Nodup) {i j : Nat} {name : String}
    (hi : code[i]? = some (.label name)) (hj : code[j]? = some (.label name)) : i = j := by
  rw [labelsIn, List.Nodup, List.pairwise_filterMap, List.pairwise_iff_getElem] at h
  obtain ⟨hi, hi'⟩ := List.getElem?_eq_some_iff.mp hi
  obtain ⟨hj, hj'⟩ := List.getElem?_eq_some_iff.mp hj
  rcases Nat.lt_trichotomy i j with hlt | heq | hlt
  · exact absurd rfl (h i j hi hj hlt name (by rw [hi']; rfl) name (by rw [hj']; rfl))
  · exact heq
  · exact absurd rfl (h j i hj hi hlt name (by rw [hj']; rfl) name (by rw [hi']; rfl))

/-- The marks with numbers from those before to those behind. -/
def Between (before behind : Labels) (m : Mark) : Prop :=
  match m.kind with
  | .stop | .other => before.ifs ≤ m.number ∧ m.number < behind.ifs
  | .again | .done => before.loops ≤ m.number ∧ m.number < behind.loops

/-- The labels of some commands are different marks with numbers that are taken by them. -/
structure Marked (before behind : Labels) (code : List Command) (marks : List Mark) : Prop where
  labels : labelsIn code = marks.map Mark.text
  nodup : marks.Nodup
  between : ∀ m ∈ marks, Between before behind m
  ifs : before.ifs ≤ behind.ifs
  loops : before.loops ≤ behind.loops

theorem Marked.nodup_labelsIn {before behind : Labels} {code : List Command} {marks : List Mark}
    (h : Marked before behind code marks) : (labelsIn code).Nodup := by
  rw [h.labels]
  exact List.Pairwise.map _ (fun m m' hne htext => hne (Mark.text_injective htext)) h.nodup

theorem Marked.plain {code : List Command} (h : ∀ c ∈ code, IsPlain c) (labels : Labels) :
    Marked labels labels code [] where
  labels := labelsIn_plain h
  nodup := .nil
  between := by simp
  ifs := Nat.le_refl _
  loops := Nat.le_refl _

theorem Marked.append {l m r : Labels} {c d : List Command} {ms ns : List Mark}
    (hc : Marked l m c ms) (hd : Marked m r d ns) : Marked l r (c ++ d) (ms ++ ns) where
  labels := by rw [labelsIn_append, hc.labels, hd.labels, List.map_append]
  nodup := by
    rw [List.nodup_append]
    refine ⟨hc.nodup, hd.nodup, ?_⟩
    rintro mark hmark _ hmark' rfl
    have hlow := hc.between mark hmark
    have hhigh := hd.between mark hmark'
    unfold Between at hlow hhigh
    cases hkind : mark.kind
    all_goals
      simp only [hkind] at hlow hhigh
      omega
  between mark hmark := by
    have hifs := hc.ifs
    have hloops := hc.loops
    have hifs' := hd.ifs
    have hloops' := hd.loops
    rcases List.mem_append.mp hmark with hmark | hmark
    · have hbetween := hc.between mark hmark
      unfold Between at hbetween ⊢
      cases hkind : mark.kind
      all_goals
        simp only [hkind] at hbetween ⊢
        omega
    · have hbetween := hd.between mark hmark
      unfold Between at hbetween ⊢
      cases hkind : mark.kind
      all_goals
        simp only [hkind] at hbetween ⊢
        omega
  ifs := Nat.le_trans hc.ifs hd.ifs
  loops := Nat.le_trans hc.loops hd.loops

/-- The order of marks does not matter. -/
theorem Marked.perm {l r : Labels} {c d : List Command} {ms ns : List Mark} (h : Marked l r c ms)
    (hperm : ns.Perm ms) (hlabels : labelsIn d = ns.map Mark.text) : Marked l r d ns where
  labels := hlabels
  nodup := hperm.nodup_iff.mpr h.nodup
  between m hm := h.between m (hperm.mem_iff.mp hm)
  ifs := h.ifs
  loops := h.loops

/-- The marks of a statement itself, in front of those of its parts. -/
theorem marked_own {before behind : Labels} {own : List Mark} (hnodup : own.Nodup)
    (hbetween : ∀ m ∈ own, Between before behind m) (hifs : before.ifs ≤ behind.ifs)
    (hloops : before.loops ≤ behind.loops) :
    Marked before behind (own.map fun m => .label m.text) own where
  labels := by
    rw [labelsIn, List.filterMap_map, ← List.filterMap_eq_map]
    rfl
  nodup := hnodup
  between := hbetween
  ifs := hifs
  loops := hloops

theorem labelsIn_around {code : List Command} (h : ∀ c ∈ code, IsPlain c) (name : String) :
    labelsIn (code ++ [.arithmetic .not, .ifGoto name]) = [] := by
  rw [labelsIn_append, labelsIn_plain h]
  rfl

mutual

/-- A statement takes the numbers of its labels. -/
theorem marked_statement (ctx : Context) (labels : Labels) (s : Statement) {code : List Command}
    (h : (lowerStatement ctx labels s).1.Yields code) :
    ∃ marks, Marked labels (lowerStatement ctx labels s).2 code marks := by
  match s with
  | .letVariable target value span =>
      obtain ⟨entry, c, -, hc, rfl⟩ := Yields.letVariable_iff.mp h
      have hvalue := plain_expression ctx value hc
      refine ⟨[], .plain ?_ labels⟩
      simpa [or_imp, forall_and, popEntry, IsPlain, targetOf?, labelOf?] using hvalue
  | .letElement target index value span =>
      obtain ⟨entry, c, d, -, hc, hd, rfl⟩ := Yields.letElement_iff.mp h
      have hindex := plain_expression ctx index hc
      have hvalue := plain_expression ctx value hd
      refine ⟨[], .plain ?_ labels⟩
      rw [List.forall_mem_append, List.forall_mem_append, List.forall_mem_append,
        List.forall_mem_append]
      refine ⟨⟨⟨⟨?_, hindex⟩, ?_⟩, hvalue⟩, ?_⟩
      all_goals simp [pushEntry, IsPlain, targetOf?, labelOf?]
  | .ifThen condition consequent span =>
      obtain ⟨c, d, hc, hd, rfl⟩ := Yields.ifThen_iff.mp h
      obtain ⟨ms, hms⟩ := marked_statements ctx _ consequent hd
      have hafter : (lowerStatement ctx labels (.ifThen condition consequent span)).2 =
          (lowerStatements ctx {} { labels with ifs := labels.ifs + 1 } consequent).2 := by
        simp only [lowerStatement]
        rw [lowerStatements_front]
      have hown : Marked labels { labels with ifs := labels.ifs + 1 } _ [⟨.stop, labels.ifs⟩] :=
        marked_own (by simp) (by simp [Between]) (Nat.le_succ _) (Nat.le_refl _)
      rw [hafter]
      refine ⟨ms ++ [⟨.stop, labels.ifs⟩], (hown.append hms).perm List.perm_append_comm ?_⟩
      rw [labelsIn_append, labelsIn_append, labelsIn_around (plain_expression ctx condition hc),
        hms.labels, List.map_append]
      rfl
  | .ifElse condition consequent alternate span =>
      obtain ⟨c, d, e, hc, hd, he, rfl⟩ := Yields.ifElse_iff.mp h
      obtain ⟨ms, hms⟩ := marked_statements ctx _ consequent hd
      obtain ⟨ns, hns⟩ := marked_statements ctx _ alternate he
      have hafter : (lowerStatement ctx labels (.ifElse condition consequent alternate span)).2 =
          (lowerStatements ctx {}
            (lowerStatements ctx {} { labels with ifs := labels.ifs + 1 } consequent).2
            alternate).2 := by
        simp only [lowerStatement]
        rw [lowerStatements_front ctx (lowerUnless ..)]
        dsimp only
        rw [lowerStatements_front ctx (_ ++ _)]
      have hown : Marked labels { labels with ifs := labels.ifs + 1 } _
          [⟨.other, labels.ifs⟩, ⟨.stop, labels.ifs⟩] :=
        marked_own (by simp) (by simp [Between]) (Nat.le_succ _) (Nat.le_refl _)
      rw [hafter]
      refine ⟨ms ++ [⟨.other, labels.ifs⟩] ++ ns ++ [⟨.stop, labels.ifs⟩],
        ((hown.append hms).append hns).perm ?_ ?_⟩
      · simp only [List.append_assoc, List.cons_append, List.nil_append]
        refine List.perm_middle.trans (.cons _ ?_)
        rw [← List.append_assoc]
        exact List.perm_append_comm
      · rw [labelsIn_append, labelsIn_append, labelsIn_append, labelsIn_append,
          labelsIn_around (plain_expression ctx condition hc), hms.labels, hns.labels]
        simp only [List.map_append]
        rfl
  | .whileLoop condition body span =>
      obtain ⟨c, d, hc, hd, rfl⟩ := Yields.whileLoop_iff.mp h
      obtain ⟨ms, hms⟩ := marked_statements ctx _ body hd
      have hafter : (lowerStatement ctx labels (.whileLoop condition body span)).2 =
          (lowerStatements ctx {} { labels with loops := labels.loops + 1 } body).2 := by
        simp only [lowerStatement]
        rw [lowerStatements_front]
      have hown : Marked labels { labels with loops := labels.loops + 1 } _
          [⟨.again, labels.loops⟩, ⟨.done, labels.loops⟩] :=
        marked_own (by simp) (by simp [Between]) (Nat.le_refl _) (Nat.le_succ _)
      rw [hafter]
      refine ⟨[⟨.again, labels.loops⟩] ++ ms ++ [⟨.done, labels.loops⟩],
        (hown.append hms).perm ?_ ?_⟩
      · exact .cons _ List.perm_append_comm
      · rw [labelsIn_append, labelsIn_append, labelsIn_append,
          labelsIn_around (plain_expression ctx condition hc), hms.labels]
        simp only [List.map_append]
        rfl
  | .doCall call span =>
      obtain ⟨c, hc, rfl⟩ := Yields.doCall_iff.mp h
      have hcall := plain_expression ctx _ hc
      refine ⟨[], .plain ?_ labels⟩
      simpa [or_imp, forall_and, IsPlain, targetOf?, labelOf?] using hcall
  | .return (some value) span =>
      obtain ⟨c, hc, rfl⟩ := Yields.return_some_iff.mp h
      have hvalue := plain_expression ctx value hc
      refine ⟨[], .plain ?_ labels⟩
      simpa [or_imp, forall_and, IsPlain, targetOf?, labelOf?] using hvalue
  | .return none span =>
      rw [Yields.return_none_iff.mp h]
      exact ⟨[], .plain (by simp [IsPlain, targetOf?, labelOf?]) labels⟩

theorem marked_statements (ctx : Context) (labels : Labels) (ss : List Statement)
    {code : List Command} (h : (lowerStatements ctx {} labels ss).1.Yields code) :
    ∃ marks, Marked labels (lowerStatements ctx {} labels ss).2 code marks := by
  match ss with
  | [] =>
      rw [Yields.statements_nil_iff.mp h]
      exact ⟨[], .plain (by simp) labels⟩
  | s :: rest =>
      obtain ⟨c, d, hc, hd, rfl⟩ := Yields.statements_cons_iff.mp h
      obtain ⟨ms, hms⟩ := marked_statement ctx labels s hc
      obtain ⟨ns, hns⟩ := marked_statements ctx _ rest hd
      refine ⟨ms ++ ns, ?_⟩
      have hafter : (lowerStatements ctx {} labels (s :: rest)).2 =
          (lowerStatements ctx {} (lowerStatement ctx labels s).2 rest).2 := by
        simp only [lowerStatements]
        rw [lowerStatements_front]
      rw [hafter]
      exact hms.append hns

end

end JackToolchain.Lowering
