import JackToolchain.Proofs.Evaluation.Agreement

/-!
# Routines

The routines of the machine do to its heap and output what those of an evaluation do to a store. The
words below the heap stay as they are, but for the stack that their arguments are on.
-/

namespace JackToolchain.Evaluation

open JackToolchain.Machine JackToolchain.Memory

variable {w : World} {y : Layout w} {t t' : Store} {s s' : State}
  (owner : String)

/-- Only heap and output may differ. -/
structure OnHeap (s s' : State) : Prop where
  below : ∀ b, b < 2048 → word s'.ram b = word s.ram b
  pc : s'.pc = s.pc
  returns : s'.returns = s.returns

theorem OnHeap.refl (s : State) : OnHeap s s := ⟨fun _ _ => rfl, rfl, rfl⟩

theorem OnHeap.trans {u : State} (h : OnHeap s s') (h' : OnHeap s' u) : OnHeap s u where
  below b hb := (h'.below b hb).trans (h.below b hb)
  pc := h'.pc.trans h.pc
  returns := h'.returns.trans h.returns

/-- Where an evaluation succeeds, the action has the same value and the same effect. -/
def Mirrors {α : Type} (y : Layout w) (x : Eval α) (z : Action α) : Prop :=
  ∀ t a t' s, x t = .ok a t' → Shared y t s → ∃ s', z s = .ok a s' ∧ Shared y t' s' ∧ OnHeap s s'

namespace Mirrors

variable {α β : Type} {x : Eval α} {z : Action α} {g : α → Eval β} {k : α → Action β}

theorem pure (a : α) : Mirrors y (Pure.pure a) (Pure.pure a) := by
  intro t b t' s h hshared
  cases h
  exact ⟨s, rfl, hshared, .refl s⟩

theorem bind (h : Mirrors y x z) (hnext : ∀ a, Mirrors y (g a) (k a)) :
    Mirrors y (x >>= g) (z >>= k) := by
  intro t b t' s hrun hshared
  obtain ⟨a, t₁, hx, hg⟩ := bind_eq_ok hrun
  obtain ⟨s₁, hz, hshared₁, hheap⟩ := h t a t₁ s hx hshared
  obtain ⟨s₂, hk, hshared₂, hheap₂⟩ := hnext a t₁ b t' s₁ hg hshared₁
  exact ⟨s₂, (bind_of_ok hz).trans hk, hshared₂, hheap.trans hheap₂⟩

/-- What the machine checks holds where the evaluation goes on. -/
theorem check {rule : Rule} {holds : Bool} {c : Prop} [Decidable c] {x : Eval β}
    {z refused : Action β} (hc : holds = true → ¬c) (h : Mirrors y x z) :
    Mirrors y (demand w rule holds >>= fun _ => x) (if c then refused else z) := by
  intro t b t' s hrun hshared
  obtain ⟨u, t₁, hdemand, hx⟩ := bind_eq_ok hrun
  obtain ⟨hsame, hrule⟩ := demand_eq_ok hdemand
  subst hsame
  rw [if_neg (hc (hrule y.strict))]
  exact h t₁ b t' s hx hshared

end Mirrors

theorem mirrors_read (a : Int) : Mirrors y (read w a) (readWord owner a) := by
  intro t v t' s h hshared
  obtain ⟨hsame, n, rfl, hn, hv, hallocated⟩ := read_eq_ok h
  subst hsame
  obtain ⟨hlow, hhigh⟩ := hallocated y.strict
  refine ⟨s, ?_, hshared, .refl s⟩
  rw [readWord_run owner s hn, hshared.heap n hlow, hv]

theorem mirrors_write (a : Int) (v : Int16) :
    Mirrors y (write w a v) (writeWord owner a v) := by
  intro t u t' s h hshared
  obtain ⟨n, rfl, hn, rfl, hallocated⟩ := write_eq_ok h
  obtain ⟨hlow, hhigh⟩ := hallocated y.strict
  refine ⟨_, writeWord_run owner v s hn, hshared.write v hlow hhigh, ?_, rfl, rfl⟩
  exact fun b hb => word_put_of_ne _ _ (by omega)

theorem mirrors_print (text : String) : Mirrors y (print text) (Machine.print text) := by
  intro t u t' s h hshared
  cases h
  exact ⟨_, rfl, hshared.print text, fun _ _ => rfl, rfl, rfl⟩

/-- Words of the heap are taken. -/
theorem alloc_eq_ok {size object : Int16} (h : alloc w size t = .ok object t') :
    0 ≤ size ∧ object = Int16.ofNat t.heapNext ∧
      t' = { t with heapNext := t.heapNext + size.toInt.toNat } ∧
      (w.strict → t.heapNext + size.toInt.toNat ≤ heapEnd) := by
  unfold alloc at h
  split at h
  · cases h
  · rename_i hsize
    obtain ⟨next, _, hnext, hrest⟩ := bind_eq_ok h
    cases hnext
    obtain ⟨_, t₁, hdemand, hrest⟩ := bind_eq_ok hrest
    obtain ⟨hsame, hrule⟩ := demand_eq_ok hdemand
    subst hsame
    cases hrest
    exact ⟨by simpa using hsize, rfl, rfl, fun hstrict => by simpa using hrule hstrict⟩

theorem mirrors_alloc (routine : Routine) (size : Int16) :
    Mirrors y (alloc w size) (Machine.alloc owner routine size) := by
  intro t object t' s h hshared
  obtain ⟨hsize, rfl, rfl, hend⟩ := alloc_eq_ok h
  have hfits := hend y.strict
  have hroom := hshared.room
  have heap : heapEnd = 16384 := rfl
  have hrun : Machine.alloc owner routine size s =
      .ok (Int16.ofNat t.heapNext) { s with heapNext := t.heapNext + size.toInt.toNat } := by
    have hfull : ¬s.heapNext + size.toInt.toNat > heapEnd := by
      rw [hshared.heapNext]
      omega
    have hnext : (modifyGet fun s => (s.heapNext, s) : Action Nat) s = .ok s.heapNext s := rfl
    unfold Machine.alloc
    rw [if_neg (by simpa using hsize)]
    dsimp only
    rw [bind_of_ok hnext, if_neg hfull, ← hshared.heapNext]
    rfl
  refine ⟨_, hrun, ⟨rfl, ?_, hshared.output, hshared.heap, ?_, hshared.statics⟩,
    fun _ _ => rfl, rfl, rfl⟩
  · simp only
    omega
  · intro a ha
    simp only at ha
    exact hshared.fresh a (by omega)

/-- The machine clears the length of a new string, which is zero already. -/
theorem mirrors_newString (capacity : Int16) :
    Mirrors y (newString w capacity) (Machine.newString owner capacity) := by
  intro t object t' s h hshared
  obtain ⟨object', t₁, halloc, hrest⟩ := bind_eq_ok h
  obtain ⟨s₁, hrun, hshared₁, hheap₁⟩ :=
    mirrors_alloc owner .newString _ t object' t₁ s halloc hshared
  obtain ⟨u, t₂, hwrite, hend⟩ := bind_eq_ok hrest
  obtain ⟨hsize, hobject, hnext, -⟩ := alloc_eq_ok halloc
  obtain ⟨a, ha, -, -, hallocated⟩ := write_eq_ok hwrite
  obtain ⟨-, hhigh⟩ := hallocated y.strict
  have hroom := hshared.room
  have hnat : object'.toInt = t.heapNext := by
    rw [hobject]
    exact toInt_pointer (by omega)
  have hcleared : Shared y t₁ { s₁ with ram := put s₁.ram t.heapNext 0 } := by
    have hzero : word t₁.memory t.heapNext = 0 := by
      rw [hnext]
      exact hshared.fresh _ (Nat.le_refl _)
    have hput : put t₁.memory t.heapNext 0 = t₁.memory := by
      conv_rhs => rw [← put_self t₁.memory t.heapNext, hzero]
    have hwritten := hshared₁.write 0 (a := t.heapNext) (by omega) (by omega)
    rwa [hput] at hwritten
  obtain ⟨s₂, hrun₂, hshared₂, hheap₂⟩ :=
    mirrors_write owner _ _ t₁ u t₂ _ hwrite hcleared
  have hbelow : OnHeap s₁ { s₁ with ram := put s₁.ram t.heapNext 0 } :=
    ⟨fun b hb => word_put_of_ne _ _ (by omega), rfl, rfl⟩
  cases hend
  refine ⟨s₂, ?_, hshared₂, hheap₁.trans (hbelow.trans hheap₂)⟩
  unfold Machine.newString
  rw [bind_of_ok hrun, hnat, bind_of_ok (writeWord_run owner 0 s₁ (by omega)), ← hnat,
    bind_of_ok hrun₂]
  rfl

theorem mirrors_appendChar (object c : Int16) :
    Mirrors y (appendChar w object c) (Machine.appendChar owner object c) := by
  unfold appendChar Machine.appendChar
  simp only [y.strict, if_true]
  refine (mirrors_read owner _).bind fun length => ?_
  refine (mirrors_read owner _).bind fun capacity => ?_
  refine .check (fun hrule => by simpa using hrule) ?_
  exact (mirrors_write owner _ _).bind fun _ => mirrors_write owner _ _

theorem mirrors_charAt (object index : Int16) :
    Mirrors y (charAt w object index) (Machine.charAt owner object index) := by
  unfold charAt Machine.charAt
  simp only [y.strict, if_true]
  refine (mirrors_read owner _).bind fun length => ?_
  refine .check (fun hrule => by simpa [not_or] using hrule) ?_
  exact mirrors_read owner _

/-- A word that is a character is the same character for the machine. -/
theorem charOf_eq_ok {word : Int16} {c : Char} (h : charOf word t = .ok c t') :
    t' = t ∧ Machine.charOf word = c := by
  unfold charOf at h
  split at h
  · rename_i hvalid
    cases h
    refine ⟨rfl, ?_⟩
    unfold Machine.charOf
    rw [if_pos hvalid]
  · cases h

/-- Characters are read without a change; the machine has those before in front. -/
theorem readChars_run {object : Int16} {index count : Nat} {cs : List Char}
    (h : readChars w object index count t = .ok cs t') (hshared : Shared y t s)
    (done : List Char) :
    t' = t ∧ Machine.readChars owner object index done count s = .ok (done.reverse ++ cs) s := by
  induction count generalizing index cs done t' with
  | zero =>
      cases h
      exact ⟨rfl, by simp [Machine.readChars]⟩
  | succ count ih =>
      obtain ⟨word, t₁, hread, hrest⟩ := bind_eq_ok h
      obtain ⟨hsame, n, hn, hlt, hword, hallocated⟩ := read_eq_ok hread
      obtain ⟨c, t₂, hchar, hrest⟩ := bind_eq_ok hrest
      obtain ⟨hsame₂, hc⟩ := charOf_eq_ok hchar
      obtain ⟨rest, t₃, hchars, hend⟩ := bind_eq_ok hrest
      subst hsame₂ hsame
      obtain ⟨hsame₃, hrun⟩ := ih hchars (c :: done)
      cases hend
      refine ⟨hsame₃, ?_⟩
      unfold Machine.readChars
      rw [hn, bind_of_ok (readWord_run owner s hlt), hshared.heap n (hallocated y.strict).1,
        ← hword, hc, hrun]
      simp

/-- The action of the machine behind the pop of a string. -/
theorem mirrors_printString (object : Int16) :
    Mirrors y (do
      printString w object
      return (0 : Int16)) (do
      let length ← readWord owner object.toInt
      Machine.print (String.ofList (← Machine.readChars owner object 0 [] length.toInt.toNat))
      return 0) := by
  intro t v t' s h hshared
  obtain ⟨u, t₁, hprint, hend⟩ := bind_eq_ok h
  obtain ⟨length, t₂, hread, hrest⟩ := bind_eq_ok hprint
  obtain ⟨s₁, hlength, hshared₁, hheap⟩ := mirrors_read owner _ t length t₂ s hread hshared
  dsimp only at hrest
  split at hrest
  · cases hrest
  · obtain ⟨cs, t₃, hchars, hprinted⟩ := bind_eq_ok hrest
    obtain ⟨hsame, hrun⟩ := readChars_run owner hchars hshared₁ []
    subst hsame
    cases hprinted
    cases hend
    refine ⟨{ s₁ with output := s₁.output ++ String.ofList cs }, ?_,
      hshared₁.print _, hheap.trans ⟨fun _ _ => rfl, rfl, rfl⟩⟩
    rw [bind_of_ok hlength, bind_of_ok hrun]
    rfl

theorem mirrors_printChar (c : Int16) :
    Mirrors y (do
      print (String.singleton (← charOf c))
      return (0 : Int16)) (do
      Machine.print (String.singleton (Machine.charOf c))
      return 0) := by
  intro t v t' s h hshared
  obtain ⟨shown, t₁, hchar, hrest⟩ := bind_eq_ok h
  obtain ⟨hsame, hc⟩ := charOf_eq_ok hchar
  subst hsame hc
  exact (mirrors_print _).bind (fun _ => .pure 0) _ v t' s hrest hshared

theorem mirrors_divide (a b : Int16) :
    Mirrors y (divide a b) (do
      if b = 0 then throw (.divisionByZero owner)
      return a / b) := by
  intro t v t' s h hshared
  unfold divide at h
  split at h
  · cases h
  · rename_i hb
    cases h
    refine ⟨s, ?_, hshared, .refl s⟩
    rw [if_neg hb]
    rfl

/-! ## Calls -/

/-- The words on the stack from an address on. -/
def OnStack (m : Vector Int16 ramSize) (a : Nat) (values : List Int16) : Prop :=
  ∀ i (hi : i < values.length), word m (a + i) = values[i]

theorem builtin_arity {name : String} {r : Routine} {values : List Int16} {v : Int16}
    (hname : Routine.ofName? name = some r) (h : builtin w name values t = .ok v t') :
    values.length = r.arity := by
  unfold builtin at h
  rw [hname] at h
  cases r
  all_goals
    rcases values with _ | ⟨x, _ | ⟨z, _ | ⟨u, values⟩⟩⟩
    all_goals first | rfl | cases h

/-- The stack ends at an address, and nothing else has changed below the heap. -/
structure Dropped (k : Nat) (s s' : State) : Prop where
  stack : word s'.ram 0 = pointer k
  below : ∀ b, 1 ≤ b → b < 2048 → word s'.ram b = word s.ram b
  pc : s'.pc = s.pc
  returns : s'.returns = s.returns

section Calls

variable {k : Nat} {v : Int16}

theorem pop_onStack (hstack : word s.ram 0 = pointer (k + 1)) (hlow : 256 ≤ k)
    (hhigh : k + 1 ≤ 2048) (hshared : Shared y t s) :
    ∃ s', pop owner s = .ok (word s.ram k) s' ∧ Shared y t s' ∧ Dropped k s s' := by
  refine ⟨_, pop_run hstack (by omega) (by omega), hshared.same (fun b hb => ?_) rfl rfl, ?_,
    fun b hb _ => ?_, rfl, rfl⟩
  · exact word_popped_of_ne _ _ (by omega)
  · exact word_popped_zero _ _ (by decide)
  · exact word_popped_of_ne _ _ (by omega)

theorem Dropped.onHeap {u : State} (h : Dropped k s s') (hheap : OnHeap s' u) : Dropped k s u where
  stack := (hheap.below 0 (by omega)).trans h.stack
  below b hb hb' := (hheap.below b hb').trans (h.below b hb hb')
  pc := hheap.pc.trans h.pc
  returns := hheap.returns.trans h.returns

theorem Dropped.trans {k' : Nat} {u : State} (h : Dropped k' s s') (h' : Dropped k s' u) :
    Dropped k s u where
  stack := h'.stack
  below b hb hb' := (h'.below b hb hb').trans (h.below b hb hb')
  pc := h'.pc.trans h.pc
  returns := h'.returns.trans h.returns

/-- The value of a routine without arguments. -/
theorem run_none {x : Eval Int16} {z : Action Int16} (hm : Mirrors y x z)
    (h : x t = .ok v t') (hshared : Shared y t s) (hstack : word s.ram 0 = pointer k) :
    ∃ s', z s = .ok v s' ∧ Shared y t' s' ∧ Dropped k s s' := by
  obtain ⟨s', hrun, hshared', hheap⟩ := hm t v t' s h hshared
  have hdropped : Dropped k s s := ⟨hstack, fun _ _ _ => rfl, rfl, rfl⟩
  exact ⟨s', hrun, hshared', hdropped.onHeap hheap⟩

/-- The value of a routine with one argument. -/
theorem run_one {x : Eval Int16} {z : Int16 → Action Int16} {a : Int16} (hm : Mirrors y x (z a))
    (h : x t = .ok v t') (hshared : Shared y t s) (hstack : word s.ram 0 = pointer (k + 1))
    (hvalues : OnStack s.ram k [a]) (hlow : 256 ≤ k) (hhigh : k + 1 ≤ 2048) :
    ∃ s', (pop owner >>= z) s = .ok v s' ∧ Shared y t' s' ∧ Dropped k s s' := by
  obtain ⟨s₁, hpop, hshared₁, hdropped⟩ := pop_onStack owner hstack hlow hhigh hshared
  obtain ⟨s', hrun, hshared', hheap⟩ := hm t v t' s₁ h hshared₁
  have ha : word s.ram k = a := hvalues 0 (by simp)
  rw [ha] at hpop
  exact ⟨s', (bind_of_ok hpop).trans hrun, hshared', hdropped.onHeap hheap⟩

/-- The value of a routine with two arguments. -/
theorem run_two {x : Eval Int16} {z : Int16 → Int16 → Action Int16} {a b : Int16}
    (hm : Mirrors y x (z b a)) (h : x t = .ok v t') (hshared : Shared y t s)
    (hstack : word s.ram 0 = pointer (k + 2)) (hvalues : OnStack s.ram k [a, b]) (hlow : 256 ≤ k)
    (hhigh : k + 2 ≤ 2048) :
    ∃ s', (pop owner >>= fun b => pop owner >>= z b) s = .ok v s' ∧ Shared y t' s' ∧
      Dropped k s s' := by
  obtain ⟨s₁, hpop, hshared₁, hdropped⟩ :=
    pop_onStack owner (k := k + 1) hstack (by omega) hhigh hshared
  have ha : word s.ram k = a := hvalues 0 (by simp)
  have hb : word s.ram (k + 1) = b := hvalues 1 (by simp)
  have hvalues₁ : OnStack s₁.ram k [a] := by
    intro i hi
    obtain rfl : i = 0 := by simpa using hi
    exact (hdropped.below k (by omega) (by omega)).trans ha
  obtain ⟨s', hrun, hshared', hdropped'⟩ :=
    run_one owner hm h hshared₁ hdropped.stack hvalues₁ hlow (by omega)
  rw [hb] at hpop
  exact ⟨s', (bind_of_ok hpop).trans hrun, hshared', hdropped.trans hdropped'⟩

/-- A routine of the machine does what that of the evaluation does. -/
theorem callRoutine_run {name : String} {r : Routine} {values : List Int16}
    (hname : Routine.ofName? name = some r) (h : builtin w name values t = .ok v t')
    (hshared : Shared y t s) (hstack : word s.ram 0 = pointer (k + values.length))
    (hvalues : OnStack s.ram k values) (hlow : 256 ≤ k) (hhigh : k + values.length ≤ 2048) :
    ∃ s', callRoutine owner r s = .ok v s' ∧ Shared y t' s' ∧ Dropped k s s' := by
  have harity := builtin_arity hname h
  unfold builtin at h
  rw [hname] at h
  cases r with
  | multiply =>
      obtain ⟨a, b, rfl⟩ := List.length_eq_two.mp harity
      exact run_two owner (.pure _) h hshared hstack hvalues hlow hhigh
  | divide =>
      obtain ⟨a, b, rfl⟩ := List.length_eq_two.mp harity
      exact run_two owner (mirrors_divide owner a b) h hshared hstack hvalues hlow hhigh
  | abs =>
      obtain ⟨a, rfl⟩ := List.length_eq_one_iff.mp harity
      exact run_one owner (.pure _) h hshared hstack hvalues hlow hhigh
  | alloc =>
      obtain ⟨a, rfl⟩ := List.length_eq_one_iff.mp harity
      exact run_one owner (mirrors_alloc owner _ a) h hshared hstack hvalues hlow hhigh
  | deAlloc =>
      obtain ⟨a, rfl⟩ := List.length_eq_one_iff.mp harity
      exact run_one owner (.pure _) h hshared hstack hvalues hlow hhigh
  | newArray =>
      obtain ⟨a, rfl⟩ := List.length_eq_one_iff.mp harity
      exact run_one owner (mirrors_alloc owner _ a) h hshared hstack hvalues hlow hhigh
  | disposeArray =>
      obtain ⟨a, rfl⟩ := List.length_eq_one_iff.mp harity
      exact run_one owner (.pure _) h hshared hstack hvalues hlow hhigh
  | newString =>
      obtain ⟨a, rfl⟩ := List.length_eq_one_iff.mp harity
      exact run_one owner (mirrors_newString owner a) h hshared hstack hvalues hlow hhigh
  | appendChar =>
      obtain ⟨a, b, rfl⟩ := List.length_eq_two.mp harity
      exact run_two owner ((mirrors_appendChar owner a b).bind fun _ => .pure a) h hshared hstack
        hvalues hlow hhigh
  | stringLength =>
      obtain ⟨a, rfl⟩ := List.length_eq_one_iff.mp harity
      exact run_one owner (mirrors_read owner a.toInt) h hshared hstack hvalues hlow hhigh
  | charAt =>
      obtain ⟨a, b, rfl⟩ := List.length_eq_two.mp harity
      exact run_two owner (mirrors_charAt owner a b) h hshared hstack hvalues hlow hhigh
  | printInt =>
      obtain ⟨a, rfl⟩ := List.length_eq_one_iff.mp harity
      exact run_one owner ((mirrors_print _).bind fun _ => .pure 0) h hshared hstack hvalues hlow
        hhigh
  | printString =>
      obtain ⟨a, rfl⟩ := List.length_eq_one_iff.mp harity
      exact run_one owner (mirrors_printString owner a) h hshared hstack hvalues hlow hhigh
  | printChar =>
      obtain ⟨a, rfl⟩ := List.length_eq_one_iff.mp harity
      exact run_one owner (mirrors_printChar a) h hshared hstack hvalues hlow hhigh
  | printLine =>
      obtain rfl := List.length_eq_zero_iff.mp harity
      exact run_none ((mirrors_print _).bind fun _ => .pure 0) h hshared hstack

/-- A call of a routine pushes its value in place of the arguments. -/
theorem callHost_run {name : String} {r : Routine} {values : List Int16} {count : UInt16}
    (hname : Routine.ofName? name = some r) (h : builtin w name values t = .ok v t')
    (hcount : count.toNat = values.length) (hshared : Shared y t s)
    (hstack : word s.ram 0 = pointer (k + values.length)) (hvalues : OnStack s.ram k values)
    (hlow : 256 ≤ k) (hhigh : k + values.length ≤ 2048) :
    ∃ s₁, callHost owner r count s = .ok () { s₁ with ram := pushed s₁.ram k v } ∧
      Shared y t' s₁ ∧ Dropped k s s₁ := by
  obtain ⟨s₁, hrun, hshared₁, hdropped⟩ :=
    callRoutine_run owner hname h hshared hstack hvalues hlow hhigh
  refine ⟨s₁, ?_, hshared₁, hdropped⟩
  have harity : ¬count.toNat ≠ r.arity := not_not.mpr (hcount.trans (builtin_arity hname h))
  unfold callHost
  rw [if_neg harity]
  exact (bind_of_ok hrun).trans (push_run v hdropped.stack (by omega) (by omega))

end Calls

end JackToolchain.Evaluation
