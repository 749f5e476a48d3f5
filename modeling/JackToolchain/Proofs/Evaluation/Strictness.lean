import JackToolchain.Evaluation.Evaluator
import JackToolchain.Proofs.Machine.Actions

/-!
# Strict evaluation

What evaluations that succeed tell, and that an evaluation which breaks no rule is the one that does
not look for broken ones.
-/

namespace JackToolchain.Evaluation

open JackToolchain.Machine JackToolchain.Memory JackToolchain.Syntax

variable {w : World} {s t : Store}

/-! ## Words of the heap -/

theorem demand_eq_ok {rule : Rule} {holds : Bool} {u : Unit}
    (h : demand w rule holds s = .ok u t) : t = s ∧ (w.strict → holds) := by
  unfold demand at h
  split at h
  · cases h
  · rename_i hrule
    cases h
    refine ⟨rfl, fun hstrict => ?_⟩
    simpa [hstrict] using hrule

theorem demandAllocated_eq_ok {address : Int} {u : Unit}
    (h : demandAllocated w address s = .ok u t) :
    t = s ∧ (w.strict → 2048 ≤ address ∧ address < s.heapNext) := by
  obtain ⟨next, u', hnext, hdemand⟩ := bind_eq_ok h
  cases hnext
  obtain ⟨rfl, hrule⟩ := demand_eq_ok hdemand
  refine ⟨rfl, fun hstrict => ?_⟩
  have hbounds := hrule hstrict
  rw [Bool.and_eq_true, decide_eq_true_eq, decide_eq_true_eq] at hbounds
  exact hbounds

/-- A word that is read is one of memory, and one of the heap if rules count. -/
theorem read_eq_ok {address : Int} {value : Int16} (h : read w address s = .ok value t) :
    t = s ∧ ∃ a : Nat, address = a ∧ a < ramSize ∧ value = word s.memory a ∧
      (w.strict → 2048 ≤ a ∧ a < s.heapNext) := by
  obtain ⟨u, s', hallocated, hrest⟩ := bind_eq_ok h
  obtain ⟨rfl, hrule⟩ := demandAllocated_eq_ok hallocated
  obtain ⟨memory, t', hmemory, hread⟩ := bind_eq_ok hrest
  cases hmemory
  split at hread
  · rename_i hbound
    obtain ⟨a, rfl⟩ := Int.eq_ofNat_of_zero_le hbound.2
    cases hread
    exact ⟨rfl, a, rfl, hbound.1, getElem_eq_word _ _ hbound.1, fun hstrict => by
      simpa using hrule hstrict⟩
  · cases hread

theorem write_eq_ok {address : Int} {value : Int16} {u : Unit}
    (h : write w address value s = .ok u t) :
    ∃ a : Nat, address = a ∧ a < ramSize ∧ t = { s with memory := put s.memory a value } ∧
      (w.strict → 2048 ≤ a ∧ a < s.heapNext) := by
  obtain ⟨u, s', hallocated, hwrite⟩ := bind_eq_ok h
  obtain ⟨rfl, hrule⟩ := demandAllocated_eq_ok hallocated
  split at hwrite
  · rename_i hbound
    obtain ⟨a, rfl⟩ := Int.eq_ofNat_of_zero_le hbound.2
    cases hwrite
    exact ⟨a, rfl, hbound.1, by rw [← set_eq_put]; rfl, fun hstrict => by
      simpa using hrule hstrict⟩
  · cases hwrite

/-! ## The same without rules -/

namespace World

/-- The same classes, and no rules. -/
def lenient (w : World) : World := { w with strict := false }

end World

/-- Where one evaluation succeeds, the other does the same. -/
def Follows {α : Type} (x y : Eval α) : Prop :=
  ∀ s a t, x s = .ok a t → y s = .ok a t

namespace Follows

variable {α β : Type} {x y : Eval α} {f g : α → Eval β}

theorem refl (x : Eval α) : Follows x x := fun _ _ _ h => h

theorem bind (h : Follows x y) (hnext : ∀ a, Follows (f a) (g a)) :
    Follows (x >>= f) (y >>= g) := by
  intro s b t hrun
  obtain ⟨a, u, hx, hf⟩ := bind_eq_ok hrun
  rw [bind_of_ok (h s a u hx)]
  exact hnext a u b t hf

theorem throw (e : Fault) (y : Eval α) : Follows (MonadExcept.throw e) y := by
  intro s a t h
  cases h

/-- What only looks at the store can be left out. -/
theorem drop {y : Eval β} (hx : ∀ s a t, x s = .ok a t → t = s) (h : ∀ a, Follows (f a) y) :
    Follows (x >>= f) y := by
  intro s b t hrun
  obtain ⟨a, u, hx', hf⟩ := bind_eq_ok hrun
  rw [hx s a u hx'] at hf
  exact h a s b t hf

end Follows

variable (w : World)

theorem follows_demand (rule : Rule) (holds : Bool) :
    Follows (demand w rule holds) (demand w.lenient rule holds) := by
  unfold demand
  split
  · exact .throw _ _
  · exact .refl _

theorem follows_alloc (size : Int16) : Follows (alloc w size) (alloc w.lenient size) := by
  unfold alloc
  split
  · exact .throw _ _
  · exact (Follows.refl _).bind fun object => (follows_demand w _ _).bind fun _ => .refl _

theorem follows_demandAllocated (address : Int) :
    Follows (demandAllocated w address) (demandAllocated w.lenient address) :=
  (Follows.refl _).bind fun _ => follows_demand w _ _

theorem follows_read (address : Int) : Follows (read w address) (read w.lenient address) :=
  (follows_demandAllocated w address).bind fun _ => .refl _

theorem follows_write (address : Int) (value : Int16) :
    Follows (write w address value) (write w.lenient address value) :=
  (follows_demandAllocated w address).bind fun _ => .refl _

theorem follows_newString (capacity : Int16) :
    Follows (newString w capacity) (newString w.lenient capacity) :=
  (follows_alloc w _).bind fun _ => (follows_write w _ _).bind fun _ => .refl _

theorem follows_appendChar (object c : Int16) :
    Follows (appendChar w object c) (appendChar w.lenient object c) := by
  refine (follows_read w _).bind fun length => ?_
  have hrest : Follows
      (write w (object.toInt + 2 + length.toInt) c >>= fun _ => write w object.toInt (length + 1))
      (write w.lenient (object.toInt + 2 + length.toInt) c >>= fun _ =>
        write w.lenient object.toInt (length + 1)) :=
    (follows_write w _ _).bind fun _ => follows_write w _ _
  dsimp only
  split
  · refine .drop (fun s a t h => (read_eq_ok h).1) fun capacity => ?_
    exact .drop (fun s a t h => (demand_eq_ok h).1) fun _ => hrest
  · exact hrest

theorem follows_charAt (object index : Int16) :
    Follows (charAt w object index) (charAt w.lenient object index) := by
  unfold charAt
  dsimp only
  split
  · refine .drop (fun s a t h => (read_eq_ok h).1) fun length => ?_
    exact .drop (fun s a t h => (demand_eq_ok h).1) fun _ => follows_read w _
  · exact follows_read w _

theorem follows_readChars (object : Int16) (index count : Nat) :
    Follows (readChars w object index count) (readChars w.lenient object index count) := by
  induction count generalizing index with
  | zero => exact .refl _
  | succ count ih =>
      exact (follows_read w _).bind fun word => (Follows.refl _).bind fun c =>
        (ih (index + 1)).bind fun _ => .refl _

theorem follows_printString (object : Int16) :
    Follows (printString w object) (printString w.lenient object) := by
  refine (follows_read w _).bind fun length => ?_
  dsimp only
  split
  · exact .throw _ _
  · exact (follows_readChars w _ _ _).bind fun _ => .refl _

theorem follows_builtin (name : String) (values : List Int16) :
    Follows (builtin w name values) (builtin w.lenient name values) := by
  unfold builtin
  cases Routine.ofName? name with
  | none => exact .refl _
  | some r =>
      rcases values with _ | ⟨x, _ | ⟨y, _ | ⟨z, rest⟩⟩⟩
      · cases r
        all_goals exact .refl _
      · cases r with
        | alloc | newArray => exact follows_alloc w x
        | newString => exact follows_newString w x
        | stringLength => exact follows_read w _
        | printString => exact (follows_printString w x).bind fun _ => .refl _
        | _ => exact .refl _
      · cases r with
        | appendChar => exact (follows_appendChar w x y).bind fun _ => .refl _
        | charAt => exact follows_charAt w x y
        | _ => exact .refl _
      · cases r
        all_goals exact .refl _

theorem follows_stringValue (text : String) :
    Follows (stringValue w text) (stringValue w.lenient text) := by
  refine (follows_newString w _).bind fun object => ?_
  have hchars (cs : List Char) :
      Follows (cs.forM fun c => appendChar w object (Int16.ofNat c.toNat))
        (cs.forM fun c => appendChar w.lenient object (Int16.ofNat c.toNat)) := by
    induction cs with
    | nil => exact .refl _
    | cons c rest ih => exact (follows_appendChar w _ _).bind fun _ => ih
  exact (hchars _).bind fun _ => .refl _

theorem follows_demandObject (f : Frame) :
    Follows (demandObject w f) (demandObject w.lenient f) := follows_demand w _ _

theorem follows_readVar (f : Frame) (name : String) :
    Follows (readVar w f name) (readVar w.lenient f name) := by
  unfold readVar
  split
  · exact .refl _
  · split
    · exact (follows_demandObject w f).bind fun _ => (follows_read w _).bind fun _ => .refl _
    · exact .refl _
    · exact .refl _

theorem follows_assign (f : Frame) (name : String) (value : Int16) :
    Follows (assign w f name value) (assign w.lenient f name value) := by
  unfold assign
  split
  · exact .refl _
  · split
    · exact (follows_demandObject w f).bind fun _ => (follows_write w _ _).bind fun _ => .refl _
    · exact .refl _

theorem follows_receive (f : Frame) (receiver : Option String) :
    Follows (receive w f receiver) (receive w.lenient f receiver) := by
  cases receiver with
  | none => exact (follows_demandObject w f).bind fun _ => .refl _
  | some receiver =>
      rw [receive, receive]
      cases f.isVariable receiver with
      | true => exact (follows_readVar w f receiver).bind fun _ => .refl _
      | false => exact .refl _

theorem follows_enter (tree : ClassTree) (s : Subroutine) (values : List Int16) :
    Follows (enter w tree s values) (enter w.lenient tree s values) := by
  unfold enter
  split
  · exact (follows_alloc w _).bind fun _ => .refl _
  · exact .refl _
  · exact .refl _
  · exact .refl _

/-- All evaluations with the given fuel do the same without rules. -/
structure Lenient (fuel : Nat) : Prop where
  eval : ∀ f e, Follows (eval w fuel f e) (eval w.lenient fuel f e)
  evalAll : ∀ f es, Follows (evalAll w fuel f es) (evalAll w.lenient fuel f es)
  invoke : ∀ className name values,
    Follows (invoke w fuel className name values) (invoke w.lenient fuel className name values)
  run : ∀ f s, Follows (run w fuel f s) (run w.lenient fuel f s)
  runAll : ∀ f ss, Follows (runAll w fuel f ss) (runAll w.lenient fuel f ss)
  holds : ∀ f e, Follows (holds w fuel f e) (holds w.lenient fuel f e)

theorem lenient_zero : Lenient w 0 where
  eval _ _ := .throw _ _
  evalAll _ _ := .throw _ _
  invoke _ _ _ := .throw _ _
  run _ _ := .throw _ _
  runAll _ _ := .throw _ _
  holds _ _ := .throw _ _

section Step

variable {w} {fuel : Nat} (h : Lenient w fuel)

include h

theorem Lenient.eval_succ (f : Frame) (e : Expression) :
    Follows (Evaluation.eval w (fuel + 1) f e) (Evaluation.eval w.lenient (fuel + 1) f e) := by
  cases e with
  | integer value span => exact .refl _
  | string text span => exact follows_stringValue w text
  | boolean value span => exact .refl _
  | null span => exact .refl _
  | this span => exact (follows_demandObject w f).bind fun _ => .refl _
  | var name span => exact (follows_readVar w f name).bind fun _ => .refl _
  | element array index span =>
      exact (follows_readVar w f array).bind fun _ => (h.eval f index).bind fun _ =>
        follows_read w _
  | call receiver name arguments span =>
      exact (follows_receive w f receiver).bind fun target => (h.evalAll f arguments).bind fun _ =>
        h.invoke _ _ _
  | unary op operand span => exact (h.eval f operand).bind fun _ => .refl _
  | binary op left right span =>
      exact (h.eval f left).bind fun _ => (h.eval f right).bind fun _ => .refl _

theorem Lenient.evalAll_succ (f : Frame) (es : List Expression) :
    Follows (Evaluation.evalAll w (fuel + 1) f es)
      (Evaluation.evalAll w.lenient (fuel + 1) f es) := by
  cases es with
  | nil => exact .refl _
  | cons e rest =>
      exact (h.eval f e).bind fun _ => (h.evalAll f rest).bind fun _ => .refl _

theorem Lenient.invoke_succ (className name : String) (values : List Int16) :
    Follows (Evaluation.invoke w (fuel + 1) className name values)
      (Evaluation.invoke w.lenient (fuel + 1) className name values) := by
  have hsame : w.lenient.subroutine? className name = w.subroutine? className name := rfl
  unfold Evaluation.invoke
  rw [hsame]
  split
  · exact follows_builtin w _ values
  · refine (follows_demand w _ _).bind fun _ => (follows_enter w _ _ values).bind fun entered => ?_
    refine (h.runAll _ _).bind fun outcome => ?_
    obtain ⟨f, _ | value⟩ := outcome
    · exact (follows_demand w _ _).bind fun _ => .refl _
    · exact .refl _

theorem Lenient.run_succ (f : Frame) (s : Statement) :
    Follows (Evaluation.run w (fuel + 1) f s) (Evaluation.run w.lenient (fuel + 1) f s) := by
  cases s with
  | letVariable target value span =>
      exact (h.eval f value).bind fun _ => (follows_assign w f target _).bind fun _ => .refl _
  | letElement target index value span =>
      exact (follows_readVar w f target).bind fun _ => (h.eval f index).bind fun _ =>
        (h.eval f value).bind fun _ => (follows_write w _ _).bind fun _ => .refl _
  | ifThen condition consequent span =>
      refine (h.holds f condition).bind fun holds => ?_
      cases holds
      -- the branches must be gone first: the kernel would compare what is never run
      · simp only [Bool.false_eq_true, if_false]
        exact .refl _
      · exact h.runAll f consequent
  | ifElse condition consequent alternate span =>
      refine (h.holds f condition).bind fun holds => ?_
      cases holds
      · exact h.runAll f alternate
      · exact h.runAll f consequent
  | whileLoop condition body span =>
      refine (h.holds f condition).bind fun holds => ?_
      cases holds
      · simp only [Bool.false_eq_true, if_false]
        exact .refl _
      · refine (h.runAll f body).bind fun outcome => ?_
        obtain ⟨f', _ | value⟩ := outcome
        · exact h.run f' _
        · exact .refl _
  | doCall call span => exact (h.eval f _).bind fun _ => .refl _
  | «return» value span =>
      cases value with
      | none => exact .refl _
      | some value => exact (h.eval f value).bind fun _ => .refl _

theorem Lenient.runAll_succ (f : Frame) (ss : List Statement) :
    Follows (Evaluation.runAll w (fuel + 1) f ss)
      (Evaluation.runAll w.lenient (fuel + 1) f ss) := by
  cases ss with
  | nil => exact .refl _
  | cons s rest =>
      refine (h.run f s).bind fun outcome => ?_
      obtain ⟨f', _ | value⟩ := outcome
      · exact h.runAll f' rest
      · exact .refl _

theorem Lenient.holds_succ (f : Frame) (condition : Expression) :
    Follows (Evaluation.holds w (fuel + 1) f condition)
      (Evaluation.holds w.lenient (fuel + 1) f condition) :=
  (h.eval f condition).bind fun _ => (follows_demand w _ _).bind fun _ => .refl _

end Step

theorem lenient (fuel : Nat) : Lenient w fuel := by
  induction fuel with
  | zero => exact lenient_zero w
  | succ fuel ih =>
      exact ⟨ih.eval_succ, ih.evalAll_succ, ih.invoke_succ, ih.run_succ, ih.runAll_succ,
        ih.holds_succ⟩

/-- What a strict evaluation comes to, the evaluation comes to. -/
theorem evaluate_lenient {fuel : Nat} {className name : String} {value : Int16} {s : Store}
    (h : evaluate w fuel className name = .ok (value, s)) :
    evaluate w.lenient fuel className name = .ok (value, s) := by
  unfold evaluate at h ⊢
  split at h
  · rename_i hrun
    cases h
    rw [(lenient w fuel).invoke _ _ _ _ _ _ hrun]
  · cases h

end JackToolchain.Evaluation
