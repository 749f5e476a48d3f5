import JackToolchain.Proofs.Syntax.Declarations

/-!
# Depths of trees

How many nodes of an accepted class stand inside each other. The levels that a parser may open bound
this number if operators of one precedence that follow each other count as one node. Each of them is
a node of its own, though, and there is no bound on how many follow each other.
-/

namespace JackToolchain.Syntax

open JackToolchain.Source JackToolchain.Token

/-! ## Depths -/

namespace Expression

/-- The expression is joined by an operator of this precedence. -/
def joinedAt (precedence : Nat) : Expression → Bool
  | binary op .. => op.precedence == precedence
  | _ => false

/-- How many operators of one precedence follow each other up to the one that joins the expression.
An expression that is not joined counts as one. -/
def links : Expression → Nat
  | binary op left _ _ => if left.joinedAt op.precedence then left.links + 1 else 1
  | _ => 1

mutual

/-- How many expressions stand inside each other. An operator counts as one with its left operand
where `merges` says so. -/
def depthBy (merges : BinaryOp → Expression → Bool) : Expression → Nat
  | integer .. | string .. | boolean .. | null _ | this _ | var .. => 1
  | element _ index _ => depthBy merges index + 1
  | call _ _ arguments _ => depthByAll merges arguments + 1
  | unary _ operand _ => depthBy merges operand + 1
  | binary op left right _ =>
    max (if merges op left then depthBy merges left else depthBy merges left + 1)
      (depthBy merges right + 1)

def depthByAll (merges : BinaryOp → Expression → Bool) : List Expression → Nat
  | [] => 0
  | e :: es => max (depthBy merges e) (depthByAll merges es)

end

mutual

/-- The most operators of one precedence that follow each other. -/
def longestChain : Expression → Nat
  | integer .. | string .. | boolean .. | null _ | this _ | var .. => 1
  | element _ index _ => longestChain index
  | call _ _ arguments _ => longestChainAll arguments
  | unary _ operand _ => longestChain operand
  | binary op left right span =>
    max (binary op left right span).links (max (longestChain left) (longestChain right))

def longestChainAll : List Expression → Nat
  | [] => 1
  | e :: es => max (longestChain e) (longestChainAll es)

end

/-- Every operator counts. -/
def never : BinaryOp → Expression → Bool := fun _ _ => false

/-- An operator that follows another one of its precedence does not count. -/
def chained : BinaryOp → Expression → Bool := fun op left => left.joinedAt op.precedence

end Expression

namespace Statement

mutual

/-- How many statements and expressions stand inside each other. -/
def depthBy (merges : BinaryOp → Expression → Bool) : Statement → Nat
  | letVariable _ value _ => value.depthBy merges + 1
  | letElement _ index value _ => max (index.depthBy merges) (value.depthBy merges) + 1
  | ifThen condition consequent _ =>
    max (condition.depthBy merges) (depthByAll merges consequent) + 1
  | ifElse condition consequent alternate _ =>
    max (condition.depthBy merges)
      (max (depthByAll merges consequent) (depthByAll merges alternate)) + 1
  | whileLoop condition body _ => max (condition.depthBy merges) (depthByAll merges body) + 1
  | doCall call _ => Expression.depthByAll merges call.arguments + 1
  | «return» none _ => 1
  | «return» (some value) _ => value.depthBy merges + 1

def depthByAll (merges : BinaryOp → Expression → Bool) : List Statement → Nat
  | [] => 0
  | s :: ss => max (depthBy merges s) (depthByAll merges ss)

end

mutual

def longestChain : Statement → Nat
  | letVariable _ value _ => value.longestChain
  | letElement _ index value _ => max index.longestChain value.longestChain
  | ifThen condition consequent _ => max condition.longestChain (longestChainAll consequent)
  | ifElse condition consequent alternate _ =>
    max condition.longestChain (max (longestChainAll consequent) (longestChainAll alternate))
  | whileLoop condition body _ => max condition.longestChain (longestChainAll body)
  | doCall call _ => Expression.longestChainAll call.arguments
  | «return» none _ => 1
  | «return» (some value) _ => value.longestChain

def longestChainAll : List Statement → Nat
  | [] => 1
  | s :: ss => max (longestChain s) (longestChainAll ss)

end

end Statement

namespace ClassTree

/-- The statements of all subroutines. -/
def statements (c : ClassTree) : List Statement := c.subroutines.flatMap Subroutine.body

/-- The height of the tree: what works statement by statement and expression by expression recurses
that deep. -/
def height (c : ClassTree) : Nat := Statement.depthByAll Expression.never c.statements

/-- The height of the tree if its chains of operators were nodes. -/
def nesting (c : ClassTree) : Nat := Statement.depthByAll Expression.chained c.statements

def longestChain (c : ClassTree) : Nat := Statement.longestChainAll c.statements

end ClassTree

namespace Expression

theorem joinedAt_binary (op : BinaryOp) (left right : Expression) (span : Span) :
    (binary op left right span).joinedAt op.precedence = true := beq_self_eq_true _

theorem depthBy_never (op : BinaryOp) (left right : Expression) (span : Span) :
    (binary op left right span).depthBy never =
      max (left.depthBy never + 1) (right.depthBy never + 1) := by
  simp only [depthBy, never, Bool.false_eq_true, if_false]

theorem depthBy_chained (op : BinaryOp) (left right : Expression) (span : Span) :
    (binary op left right span).depthBy chained =
      max (if left.joinedAt op.precedence then left.depthBy chained else left.depthBy chained + 1)
        (right.depthBy chained + 1) := by
  rw [depthBy]
  rfl

end Expression

/-! ## Spans have no say -/

namespace Expression

theorem joinedAt_bare (precedence : Nat) (e : Expression) :
    e.bare.joinedAt precedence = e.joinedAt precedence := by
  cases e <;> rfl

/-- What counts as one does so whatever the spans are. -/
def Spanless (merges : BinaryOp → Expression → Bool) : Prop :=
  ∀ op e, merges op e.bare = merges op e

theorem spanless_never : Spanless never := fun _ _ => rfl

theorem spanless_chained : Spanless chained := fun op e => joinedAt_bare op.precedence e

variable {merges : BinaryOp → Expression → Bool}

mutual

theorem depthBy_bare (h : Spanless merges) (e : Expression) :
    e.bare.depthBy merges = e.depthBy merges := by
  match e with
  | integer .. | string .. | boolean .. | null _ | this _ | var .. => rfl
  | element array index span => simp only [bare, depthBy, depthBy_bare h index]
  | call receiver name arguments span => simp only [bare, depthBy, depthByAll_bare h arguments]
  | unary op operand span => simp only [bare, depthBy, depthBy_bare h operand]
  | binary op left right span =>
      simp only [bare, depthBy, depthBy_bare h left, depthBy_bare h right, h op left]

theorem depthByAll_bare (h : Spanless merges) (es : List Expression) :
    depthByAll merges (bareAll es) = depthByAll merges es := by
  match es with
  | [] => rfl
  | e :: es => simp only [bareAll, depthByAll, depthBy_bare h e, depthByAll_bare h es]

end

end Expression

namespace Statement

open Expression (Spanless)

variable {merges : BinaryOp → Expression → Bool}

mutual

theorem depthBy_bare (h : Spanless merges) (s : Statement) :
    s.bare.depthBy merges = s.depthBy merges := by
  match s with
  | letVariable target value span => simp only [bare, depthBy, Expression.depthBy_bare h]
  | letElement target index value span => simp only [bare, depthBy, Expression.depthBy_bare h]
  | ifThen condition consequent span =>
      simp only [bare, depthBy, Expression.depthBy_bare h, depthByAll_bare h consequent]
  | ifElse condition consequent alternate span =>
      simp only [bare, depthBy, Expression.depthBy_bare h, depthByAll_bare h consequent,
        depthByAll_bare h alternate]
  | whileLoop condition body span =>
      simp only [bare, depthBy, Expression.depthBy_bare h, depthByAll_bare h body]
  | doCall call span =>
      simp only [bare, depthBy, Call.bare, ← Expression.bareAll_eq_map,
        Expression.depthByAll_bare h]
  | «return» none span => rfl
  | «return» (some value) span =>
      simp only [bare, depthBy, Option.map_some, Expression.depthBy_bare h]

theorem depthByAll_bare (h : Spanless merges) (ss : List Statement) :
    depthByAll merges (bareAll ss) = depthByAll merges ss := by
  match ss with
  | [] => rfl
  | s :: ss => simp only [bareAll, depthByAll, depthBy_bare h s, depthByAll_bare h ss]

end

end Statement

namespace ClassTree

theorem statements_bare (c : ClassTree) : c.bare.statements = Statement.bareAll c.statements := by
  simp only [statements, bare, List.flatMap_map, Statement.bareAll_eq_map, List.map_flatMap,
    Subroutine.bare]

theorem height_bare (c : ClassTree) : c.bare.height = c.height := by
  rw [height, height, statements_bare, Statement.depthByAll_bare Expression.spanless_never]

theorem nesting_bare (c : ClassTree) : c.bare.nesting = c.nesting := by
  rw [nesting, nesting, statements_bare, Statement.depthByAll_bare Expression.spanless_chained]

end ClassTree

/-! ## Depths of derived trees -/

open Expression (chained)

mutual

theorem IsExpression.depth_le {n : Nat} {w : Word} {e : Expression} (h : IsExpression n w e) :
    e.depthBy chained ≤ 8 * n := by
  match h with
  | .intro h =>
      have hlevel := h.depth_le
      split at hlevel <;> omega

/-- Behind an operand that is joined by an operator of the precedence there is room for another
operator. -/
theorem IsLevel.depth_le {n p : Nat} {w : Word} {e : Expression} (h : IsLevel n p w e) :
    (if e.joinedAt p then e.depthBy chained else e.depthBy chained + 1) + p ≤ 8 * n + 9 := by
  match h with
  | .term h =>
      have hterm := h.depth_le
      have hlevels : BinaryOp.levels = 6 := rfl
      split <;> omega
  | .operand hp h =>
      have hlevel := h.depth_le
      split at hlevel <;> split <;> omega
  | .join hl hr =>
      have hleft := hl.depth_le
      have hright := hr.depth_le
      rw [if_pos (Expression.joinedAt_binary ..), Expression.depthBy_chained]
      split at hright <;> omega

theorem IsTerm.depth_le {n : Nat} {w : Word} {e : Expression} (h : IsTerm n w e) :
    e.depthBy chained ≤ 8 * n + 1 := by
  match h with
  | .integer | .string | .var | .true | .false | .null | .this =>
      simp only [Expression.depthBy]
      omega
  | .parenthesized h =>
      have hinner := h.depth_le
      omega
  | .negate h | .not h =>
      have hinner := h.depth_le
      simp only [Expression.depthBy]
      omega
  | .element h =>
      have hindex := h.depth_le
      simp only [Expression.depthBy]
      omega
  | .call h =>
      have harguments := h.depth_le
      simp only [Call.toExpression, Expression.depthBy]
      omega

theorem IsCall.depth_le {n : Nat} {w : Word} {c : Call} (h : IsCall n w c) :
    Expression.depthByAll chained c.arguments ≤ 8 * n := by
  match h with
  | .bare h | .dotted h => exact h.depth_le

theorem IsArguments.depth_le {n : Nat} {w : Word} {es : List Expression}
    (h : IsArguments n w es) : Expression.depthByAll chained es ≤ 8 * n := by
  match h with
  | .none => exact Nat.zero_le _
  | .some h => exact h.depth_le

theorem IsExpressions.depth_le {n : Nat} {w : Word} {es : List Expression}
    (h : IsExpressions n w es) : Expression.depthByAll chained es ≤ 8 * n := by
  match h with
  | .one h => exact Nat.max_le.mpr ⟨h.depth_le, Nat.zero_le _⟩
  | .more h hs => exact Nat.max_le.mpr ⟨h.depth_le, hs.depth_le⟩

end

mutual

theorem IsStatements.depth_le {n : Nat} {w : Word} {ss : List Statement}
    (h : IsStatements n w ss) : Statement.depthByAll chained ss ≤ 8 * n := by
  match h with
  | .intro h =>
      have hsequence := h.depth_le
      omega

theorem IsSequence.depth_le {n : Nat} {w : Word} {ss : List Statement} (h : IsSequence n w ss) :
    Statement.depthByAll chained ss ≤ 8 * n + 1 := by
  match h with
  | .nil => exact Nat.zero_le _
  | .cons h hs => exact Nat.max_le.mpr ⟨h.depth_le, hs.depth_le⟩

theorem IsStatement.depth_le {n : Nat} {w : Word} {s : Statement} (h : IsStatement n w s) :
    s.depthBy chained ≤ 8 * n + 1 := by
  match h with
  | .letVariable h => exact Nat.succ_le_succ h.depth_le
  | .letElement hi h => exact Nat.succ_le_succ (Nat.max_le.mpr ⟨hi.depth_le, h.depth_le⟩)
  | .ifThen h hc => exact Nat.succ_le_succ (Nat.max_le.mpr ⟨h.depth_le, hc.depth_le⟩)
  | .ifElse h hc ha =>
      exact Nat.succ_le_succ
        (Nat.max_le.mpr ⟨h.depth_le, Nat.max_le.mpr ⟨hc.depth_le, ha.depth_le⟩⟩)
  | .whileLoop h hb => exact Nat.succ_le_succ (Nat.max_le.mpr ⟨h.depth_le, hb.depth_le⟩)
  | .doCall h => exact Nat.succ_le_succ h.depth_le
  | .return => exact Nat.succ_le_succ (Nat.zero_le _)
  | .returnValue h => exact Nat.succ_le_succ h.depth_le

end

theorem Statement.depthByAll_append (merges : BinaryOp → Expression → Bool)
    (ss ts : List Statement) :
    depthByAll merges (ss ++ ts) = max (depthByAll merges ss) (depthByAll merges ts) := by
  induction ss with
  | nil => exact (Nat.zero_max _).symm
  | cons s ss ih => rw [List.cons_append, depthByAll, depthByAll, ih, Nat.max_assoc]

theorem IsSubroutine.depth_le {n : Nat} {w : Word} {s : Subroutine} (h : IsSubroutine n w s) :
    Statement.depthByAll chained s.body ≤ 8 * n := by
  cases h with
  | intro hk ht hp hl hb => exact hb.depth_le

theorem IsClass.nesting_le {n : Nat} {w : Word} {c : ClassTree} (h : IsClass n w c) :
    c.nesting ≤ 8 * n := by
  cases h with
  | intro hv hs =>
      simp only [ClassTree.nesting, ClassTree.statements]
      clear hv
      induction hs with
      | nil => exact Nat.zero_le _
      | cons h _ ih =>
          rw [List.flatMap_cons, Statement.depthByAll_append]
          exact Nat.max_le.mpr ⟨h.depth_le, ih⟩

/-! ## Heights -/

namespace Expression

theorem longestChainAll_pos (es : List Expression) : 0 < longestChainAll es := by
  induction es with
  | nil => exact Nat.one_pos
  | cons e es ih => exact Nat.lt_of_lt_of_le ih (Nat.le_max_right ..)

theorem longestChain_pos (e : Expression) : 0 < e.longestChain := by
  match e with
  | integer .. | string .. | boolean .. | null _ | this _ | var .. => exact Nat.one_pos
  | element array index span => exact longestChain_pos index
  | call receiver name arguments span => exact longestChainAll_pos arguments
  | unary op operand span => exact longestChain_pos operand
  | binary op left right span =>
      have hleft := longestChain_pos left
      rw [longestChain]
      omega

theorem links_le (e : Expression) : e.links ≤ e.longestChain := by
  cases e with
  | binary op left right span => exact Nat.le_max_left ..
  | _ => exact longestChain_pos _

theorem links_le_height (e : Expression) : e.links ≤ e.depthBy never := by
  match e with
  | integer .. | string .. | boolean .. | null _ | this _ | var .. => exact le_refl _
  | element .. | call .. | unary .. =>
      simp only [links, depthBy]
      omega
  | binary op left right span =>
      have hleft := links_le_height left
      rw [links, depthBy_never]
      split <;> omega

mutual

/-- The operators of a chain stand inside each other. -/
theorem longestChain_le (e : Expression) : e.longestChain ≤ e.depthBy never := by
  match e with
  | integer .. | string .. | boolean .. | null _ | this _ | var .. => exact le_refl _
  | element array index span => exact Nat.le_succ_of_le (longestChain_le index)
  | call receiver name arguments span =>
      have harguments := longestChainAll_le arguments
      rw [longestChain, depthBy]
      omega
  | unary op operand span => exact Nat.le_succ_of_le (longestChain_le operand)
  | binary op left right span =>
      have hlinks := links_le_height (binary op left right span)
      have hleft := longestChain_le left
      have hright := longestChain_le right
      rw [depthBy_never] at hlinks
      rw [longestChain, depthBy_never]
      omega

theorem longestChainAll_le (es : List Expression) :
    longestChainAll es ≤ max 1 (depthByAll never es) := by
  match es with
  | [] => exact Nat.le_max_left ..
  | e :: es =>
      have hfirst := longestChain_le e
      have hrest := longestChainAll_le es
      rw [longestChainAll, depthByAll]
      omega

end

variable {k : Nat}

mutual

/-- Nodes between which only operators that follow each other stand are no further apart than the
longest chain is long. -/
theorem height_le (e : Expression) (hk : e.longestChain ≤ k) :
    e.depthBy never + k ≤ e.links + k * e.depthBy chained := by
  match e with
  | integer .. | string .. | boolean .. | null _ | this _ | var .. =>
      simp only [depthBy, links]
      omega
  | element array index span =>
      rw [longestChain] at hk
      have hindex := height_le index hk
      have hlinks := index.links_le
      simp only [depthBy, links, Nat.mul_succ]
      omega
  | call receiver name arguments span =>
      rw [longestChain] at hk
      have harguments := heightAll_le arguments hk
      simp only [depthBy, links, Nat.mul_succ]
      omega
  | unary op operand span =>
      rw [longestChain] at hk
      have hoperand := height_le operand hk
      have hlinks := operand.links_le
      simp only [depthBy, links, Nat.mul_succ]
      omega
  | binary op left right span =>
      rw [longestChain] at hk
      have hleft := height_le left (by omega)
      have hright := height_le right (by omega)
      have hlinks := left.links_le
      have hlinks' := right.links_le
      rw [depthBy_never, depthBy_chained, links, ← Nat.mul_max_mul_left]
      split <;> simp only [Nat.mul_succ] <;> omega

theorem heightAll_le (es : List Expression) (hk : longestChainAll es ≤ k) :
    depthByAll never es ≤ k * depthByAll chained es := by
  match es with
  | [] => exact Nat.zero_le _
  | e :: es =>
      rw [longestChainAll] at hk
      have hfirst := height_le e (by omega)
      have hrest := heightAll_le es (by omega)
      have hlinks := e.links_le
      rw [depthByAll, depthByAll, ← Nat.mul_max_mul_left]
      omega

end

theorem height_le_mul {e : Expression} (hk : e.longestChain ≤ k) :
    e.depthBy never ≤ k * e.depthBy chained := by
  have hheight := height_le e hk
  have hlinks := e.links_le
  omega

end Expression

namespace Statement

open Expression (never)

mutual

theorem longestChain_le (s : Statement) : s.longestChain ≤ s.depthBy never := by
  match s with
  | letVariable target value span => exact Nat.le_succ_of_le value.longestChain_le
  | letElement target index value span =>
      have hindex := index.longestChain_le
      have hvalue := value.longestChain_le
      rw [longestChain, depthBy]
      omega
  | ifThen condition consequent span =>
      have hcondition := condition.longestChain_le
      have hconsequent := longestChainAll_le consequent
      rw [longestChain, depthBy]
      omega
  | ifElse condition consequent alternate span =>
      have hcondition := condition.longestChain_le
      have hconsequent := longestChainAll_le consequent
      have halternate := longestChainAll_le alternate
      rw [longestChain, depthBy]
      omega
  | whileLoop condition body span =>
      have hcondition := condition.longestChain_le
      have hbody := longestChainAll_le body
      rw [longestChain, depthBy]
      omega
  | doCall call span =>
      have harguments := Expression.longestChainAll_le call.arguments
      rw [longestChain, depthBy]
      omega
  | «return» none span => exact le_refl _
  | «return» (some value) span => exact Nat.le_succ_of_le value.longestChain_le

theorem longestChainAll_le (ss : List Statement) :
    longestChainAll ss ≤ max 1 (depthByAll never ss) := by
  match ss with
  | [] => exact Nat.le_max_left ..
  | s :: ss =>
      have hfirst := longestChain_le s
      have hrest := longestChainAll_le ss
      rw [longestChainAll, depthByAll]
      omega

end

theorem longestChainAll_pos (ss : List Statement) : 0 < longestChainAll ss := by
  induction ss with
  | nil => exact Nat.one_pos
  | cons s ss ih => exact Nat.lt_of_lt_of_le ih (Nat.le_max_right ..)

variable {k : Nat}

mutual

theorem height_le (s : Statement) (hk : s.longestChain ≤ k) (hpos : 0 < k) :
    s.depthBy never ≤ k * s.depthBy chained := by
  match s with
  | letVariable target value span =>
      rw [longestChain] at hk
      have hvalue := Expression.height_le_mul hk
      rw [depthBy, depthBy, Nat.mul_succ]
      omega
  | letElement target index value span =>
      rw [longestChain] at hk
      have hindex := Expression.height_le_mul (e := index) (k := k) (by omega)
      have hvalue := Expression.height_le_mul (e := value) (k := k) (by omega)
      rw [depthBy, depthBy, Nat.mul_succ, ← Nat.mul_max_mul_left]
      omega
  | ifThen condition consequent span =>
      rw [longestChain] at hk
      have hcondition := Expression.height_le_mul (e := condition) (k := k) (by omega)
      have hconsequent := heightAll_le consequent (by omega) hpos
      rw [depthBy, depthBy, Nat.mul_succ, ← Nat.mul_max_mul_left]
      omega
  | ifElse condition consequent alternate span =>
      rw [longestChain] at hk
      have hcondition := Expression.height_le_mul (e := condition) (k := k) (by omega)
      have hconsequent := heightAll_le consequent (by omega) hpos
      have halternate := heightAll_le alternate (by omega) hpos
      rw [depthBy, depthBy, Nat.mul_succ, ← Nat.mul_max_mul_left, ← Nat.mul_max_mul_left]
      omega
  | whileLoop condition body span =>
      rw [longestChain] at hk
      have hcondition := Expression.height_le_mul (e := condition) (k := k) (by omega)
      have hbody := heightAll_le body (by omega) hpos
      rw [depthBy, depthBy, Nat.mul_succ, ← Nat.mul_max_mul_left]
      omega
  | doCall call span =>
      rw [longestChain] at hk
      have harguments := Expression.heightAll_le call.arguments hk
      rw [depthBy, depthBy, Nat.mul_succ]
      omega
  | «return» none span =>
      rw [depthBy, depthBy]
      omega
  | «return» (some value) span =>
      rw [longestChain] at hk
      have hvalue := Expression.height_le_mul hk
      rw [depthBy, depthBy, Nat.mul_succ]
      omega

theorem heightAll_le (ss : List Statement) (hk : longestChainAll ss ≤ k) (hpos : 0 < k) :
    depthByAll never ss ≤ k * depthByAll chained ss := by
  match ss with
  | [] => exact Nat.zero_le _
  | s :: ss =>
      rw [longestChainAll] at hk
      have hfirst := height_le s (by omega) hpos
      have hrest := heightAll_le ss (by omega) hpos
      rw [depthByAll, depthByAll, ← Nat.mul_max_mul_left]
      omega

end

end Statement

/-- In a class that the parser accepts, the levels that it may open bound how many nodes stand
inside each other if operators of one precedence that follow each other count as one. The height of
the tree is between the length of the longest such chain and that many times the bound. -/
theorem ClassTree.height_of_accepted {σ : Type} [TokenSource σ] {s s' : TokenStream σ}
    {ts : List Token} {tree : ClassTree} (hd : s.Delivers ts)
    (h : ofStream s = (.ok tree, s')) :
    tree.nesting ≤ 8 * Limits.maxParseDepth ∧
      tree.longestChain ≤ max 1 tree.height ∧
      tree.height ≤ tree.longestChain * (8 * Limits.maxParseDepth) := by
  have hnesting : tree.nesting ≤ 8 * Limits.maxParseDepth := by
    rw [← nesting_bare]
    exact (isClass_of_delivers hd h).nesting_le
  refine ⟨hnesting, Statement.longestChainAll_le _, ?_⟩
  exact (Statement.heightAll_le _ (le_refl _) (Statement.longestChainAll_pos _)).trans
    (Nat.mul_le_mul_left _ hnesting)

/-! ## Sums -/

/-- One more operand than there are operators. -/
def sum : Nat → Expression
  | 0 => .integer 1 .zero
  | n + 1 => .binary .add (sum n) (.integer 1 .zero) .zero

def sumWord : Nat → Word
  | 0 => [.integerLiteral 1]
  | n + 1 => sumWord n ++ [.symbol .plus, .integerLiteral 1]

/-- A function that returns a sum. -/
def sumFunction (n : Nat) : Subroutine :=
  ⟨.function, some .int, "main", [], [], [.return (some (sum n)) .zero], .zero⟩

def sumFunctionWord (n : Nat) : Word :=
  .keyword .functionWord :: [.keyword .intWord] ++ .identifier "main" :: Word.inParens [] ++
    Word.inBraces (.keyword .returnWord :: sumWord n ++ [.symbol .semicolon])

def sumClass (n : Nat) : ClassTree := ⟨"Main", [], [sumFunction n], .zero⟩

def sumTokens (n : Nat) : List Token :=
  (Kind.keyword .classWord :: .identifier "Main" :: Word.inBraces (sumFunctionWord n)).map
    fun kind => ⟨kind, "", .zero⟩

theorem isLevel_one (n : Nat) {precedence : Nat} (hp : precedence ≤ BinaryOp.levels + 1) :
    IsLevel n precedence [.integerLiteral 1] (.integer 1 .zero) := by
  induction hk : BinaryOp.levels + 1 - precedence generalizing precedence with
  | zero =>
      obtain rfl : precedence = BinaryOp.levels + 1 := by omega
      exact .term .integer
  | succ k ih => exact .operand (by omega) (ih (by omega) (by omega))

theorem isLevel_sum (n k : Nat) : IsLevel n BinaryOp.add.precedence (sumWord k) (sum k) := by
  induction k with
  | zero => exact isLevel_one n (by decide)
  | succ k ih =>
      have hjoin : IsLevel n BinaryOp.add.precedence
          (sumWord k ++ .symbol BinaryOp.add.symbol :: [.integerLiteral 1])
          (.binary .add (sum k) (.integer 1 .zero) .zero) := .join ih (isLevel_one n (by decide))
      exact hjoin

theorem isSubroutine_sum (n : Nat) :
    IsSubroutine Limits.maxParseDepth (sumFunctionWord n) (sumFunction n) := by
  have hsum : IsExpression (254 + 1) (sumWord n) (sum n) :=
    .intro (.operand (by decide) (.operand (by decide) (.operand (by decide)
      (.operand (by decide) (isLevel_sum 254 n)))))
  have hbody : IsStatements Limits.maxParseDepth
      ((.keyword .returnWord :: sumWord n ++ [.symbol .semicolon]) ++ [])
      [.return (some (sum n)) .zero] := .intro (.cons (.returnValue hsum) .nil)
  rw [List.append_nil] at hbody
  have hlocals : Sequence IsLocals [] [] := .nil
  have hword : sumFunctionWord n = .keyword .functionWord :: [.keyword .intWord] ++
      .identifier "main" :: Word.inParens [] ++
        Word.inBraces ([] ++ (.keyword .returnWord :: sumWord n ++ [.symbol .semicolon])) := rfl
  rw [hword]
  exact .intro .function (.type .int) .none hlocals hbody

theorem isClass_sum (n : Nat) : IsClass Limits.maxParseDepth ((sumTokens n).map Token.kind)
    (sumClass n) := by
  have hword : (sumTokens n).map Token.kind = .keyword .classWord :: .identifier "Main" ::
      Word.inBraces ([] ++ (sumFunctionWord n ++ [])) := by
    simp [sumTokens, Function.comp_def]
  rw [hword]
  exact .intro .nil (.cons (isSubroutine_sum n) .nil)

theorem height_sumClass (n : Nat) : (sumClass n).height = n + 2 := by
  have hsum : (sum n).depthBy Expression.never = n + 1 := by
    induction n with
    | zero => rfl
    | succ n ih =>
        rw [sum, Expression.depthBy_never, ih, Expression.depthBy]
        omega
  simp [ClassTree.height, ClassTree.statements, sumClass, sumFunction, Statement.depthByAll,
    Statement.depthBy, hsum]

/-- The class of a sum is accepted, however many operands there are. -/
theorem accepted_sum (n : Nat) : (TokenStream.ofList (sumTokens n)).Delivers (sumTokens n) ∧
    ∃ tree s', ClassTree.ofStream (TokenStream.ofList (sumTokens n)) = (.ok tree, s') ∧
      tree.height = n + 2 := by
  have hd := TokenStream.delivers_ofList (sumTokens n)
  obtain ⟨tree, s', h, hbare⟩ := ClassTree.exists_ofStream hd (isClass_sum n)
  exact ⟨hd, tree, s', h, by rw [← ClassTree.height_bare, hbare, height_sumClass]⟩

/-- No level is open around the operands, but each operator is a node of its own. -/
theorem ClassTree.height_of_long_sum :
    ∃ tree s', ofStream (TokenStream.ofList (sumTokens 2100)) = (.ok tree, s') ∧
      tree.nesting ≤ 8 * Limits.maxParseDepth ∧ 8 * Limits.maxParseDepth < tree.height := by
  obtain ⟨hd, tree, s', h, hheight⟩ := accepted_sum 2100
  exact ⟨tree, s', h, (height_of_accepted hd h).1, by rw [hheight]; decide⟩

/-- The height of what is accepted has no bound. -/
theorem ClassTree.height_unbounded (bound : Nat) :
    ∃ ts tree s', ofStream (TokenStream.ofList ts) = (.ok tree, s') ∧ bound < tree.height := by
  obtain ⟨-, tree, s', h, hheight⟩ := accepted_sum bound
  exact ⟨sumTokens bound, tree, s', h, by omega⟩

end JackToolchain.Syntax
