import JackToolchain.Proofs.Evaluation.Statements
import JackToolchain.Proofs.Lowering.Shape

/-!
# Calls

A call gives the subroutine a frame, in which its statements are followed to a return. That takes
the value to the place of the arguments, and the registers of the caller come back.
-/

namespace JackToolchain.Evaluation

open JackToolchain.Machine JackToolchain.Memory JackToolchain.Lowering JackToolchain.Syntax
open JackToolchain.Scope JackToolchain.Stack

variable {w : World} {y : Layout w} {act : Activation w} {f f' : Frame} {t t₁ t' : Store}
  {sp a : Nat} {v : Int16} {s s' : State} {vs : List Int16}

/-- The stack below a frame, and what the frame has saved. -/
def Activation.Linkage (act : Activation w) (b : Nat) : Prop :=
  256 ≤ b ∧ b < act.arguments ∨ act.arguments + valueCount act.sub ≤ b ∧ b < act.locals

theorem Activation.Linkage.reserved {b : Nat} (h : act.Linkage b) : act.Reserved b := by
  unfold Linkage at h
  unfold Reserved
  omega

/-- A return is reached, with the frame still there. -/
structure Returns (y : Layout w) (act : Activation w) (t : Store) (v : Int16) (s s' : State) : Prop
    extends Leaves y act t v act.Linkage s s' where
  locals : word s'.ram 1 = pointer act.locals
  arguments : word s'.ram 2 = pointer act.arguments

/-- The machine is where a subroutine starts, with a frame without locals. -/
structure Enters (y : Layout w) (act : Activation w) (vs : List Int16) (t : Store) (s : State) :
    Prop where
  shared : Shared y t s
  roomy : Roomy y.program s
  stack : word s.ram 0 = pointer act.locals
  locals : word s.ram 1 = pointer act.locals
  arguments : word s.ram 2 = pointer act.arguments
  values : OnStack s.ram act.arguments vs
  count : vs.length = valueCount act.sub

/-! ## Locals -/

/-- The values of a subroutine are its object, if it has one, and those of its parameters. -/
theorem enter_eq_ok {tree : ClassTree} {sub : Subroutine} {this : Int16} {explicit : List Int16}
    (h : enter w tree sub vs t = .ok (this, explicit) t') :
    ∃ front, vs = front ++ explicit ∧ front.length = if sub.kind = .method then 1 else 0 := by
  cases hkind : sub.kind with
  | constructor =>
      simp only [enter, hkind] at h
      obtain ⟨object, t₁, -, hend⟩ := bind_eq_ok h
      cases hend
      exact ⟨[], rfl, rfl⟩
  | function =>
      simp only [enter, hkind] at h
      cases h
      exact ⟨[], rfl, rfl⟩
  | method =>
      cases vs with
      | nil =>
          simp only [enter, hkind] at h
          cases h
      | cons object rest =>
          simp only [enter, hkind] at h
          cases h
          exact ⟨[this], rfl, rfl⟩

/-- The variables have their values when the locals are zero. -/
theorem Enters.holds (h : Enters y act vs t s) {front explicit : List Int16}
    (hvalues : vs = front ++ explicit)
    (hfront : front.length = if act.sub.kind = .method then 1 else 0) (hfloor : act.floor ≤ 2048) :
    Holds act ⟨act.tree, act.sub.kind, word s.ram 3, openingVars act.sub explicit⟩
      (zeroed s.ram act.locals act.sub.localCount) := by
  have hlow := act.low
  have hframe := act.frame
  have hhigh := act.high
  have hfloor' : act.floor = act.locals + act.sub.localCount := rfl
  have hsize : ramSize = 32768 := rfl
  have hlength : explicit.length = act.sub.parameters.length := by
    have hcount := h.count
    rw [hvalues, List.length_append, hfront, valueCount] at hcount
    omega
  have hregister {b : Nat} (hb : 1 ≤ b ∧ b ≤ 3) :
      word (zeroed s.ram act.locals act.sub.localCount) b = word s.ram b :=
    word_zeroed_of_lt _ _ (by omega) (by omega)
  refine ⟨rfl, rfl, (hregister (by omega)).trans h.arguments,
    (hregister (by omega)).trans h.locals, fun _ => hregister (by omega), fun name hname => ?_⟩
  have hnodup := y.scopes _ act.mem _ act.declared
  refine (lookup_openingVars hnodup (by omega) act.small hname hfront hlength).trans ?_
  cases hlookup : act.table.lookup? name with
  | none =>
      have hnone : (Table.ofSubroutine act.tree.name act.sub).lookup? name = none := hlookup
      rw [hnone]
      rfl
  | some e =>
      have hsome : (Table.ofSubroutine act.tree.name act.sub).lookup? name = some e := hlookup
      rw [hsome, Option.map_some, Option.map_some]
      have hslot : act.slot e = slotOf act.arguments act.locals e := rfl
      rcases slotOf_bounds hnodup (by omega) act.small hlookup act.arguments act.locals with
        ⟨hstorage, hat, hlt⟩ | ⟨hstorage, hat, hlt⟩
      · have hindex : e.index.toNat < vs.length := by rwa [h.count]
        rw [if_pos hstorage, ← hvalues, hslot, hat, word_zeroed_of_lt _ _ (by omega) (by omega),
          h.values _ hindex, List.getElem?_eq_getElem hindex]
        rfl
      · rw [if_neg (by simp [hstorage]), hslot, hat,
          word_zeroed_inside _ _ (by omega) (by omega) (by omega) (by omega)]

/-- The locals of a subroutine are pushed. -/
theorem Enters.matched (h : Enters y act vs t s) {name : String}
    (hhas : (act.site y).Has s.pc (.function name act.sub.localCount.toUInt16))
    {front explicit : List Int16} (hvalues : vs = front ++ explicit)
    (hfront : front.length = if act.sub.kind = .method then 1 else 0) :
    ∃ s', Goes y act ⟨act.tree, act.sub.kind, word s.ram 3, openingVars act.sub explicit⟩ t
      act.floor (fun b => 256 ≤ b ∧ b < act.locals) (s.pc + 1) s s' := by
  have hlow := act.low
  have hframe := act.frame
  have hhigh := act.high
  have hsmall := act.small
  have hcount : act.sub.localCount.toUInt16.toNat = act.sub.localCount := by
    rw [Nat.toUInt16_eq, UInt16.toNat_ofNat']
    omega
  have hstep := hhas.step_eq rfl
  have hfits := h.roomy.fits hstep h.stack (by omega) (by omega)
  rw [execute_enter s.pc _ h.stack (by omega) hfits, hcount] at hstep
  rw [hcount] at hfits
  have hstack : word (zeroed s.ram act.locals act.sub.localCount) 0 = pointer act.floor :=
    word_zeroed_stack _ _ h.stack (by decide)
  have hroomy := h.roomy.step hstep
  have hfloor : act.floor ≤ 2048 := hroomy.inRoom.le hstack hfits
  have hfloor' : act.floor = act.locals + act.sub.localCount := rfl
  refine ⟨_, .single hstep, ⟨?_, h.holds hvalues hfront hfloor, hstack, le_rfl, hfloor, hroomy⟩, rfl,
    fun b hb => ?_, rfl⟩
  · refine h.shared.same (fun b hb => ?_) rfl rfl
    rcases hb with hb | hb
    · exact word_zeroed_of_lt _ _ (by omega) (by omega)
    · exact word_zeroed_of_le _ _ (by omega) (by omega)
  · exact word_zeroed_of_lt _ _ (by omega) hb.2

/-! ## Objects -/

/-- The top of the stack becomes the object of the subroutine. -/
theorem Matches.popThis (h : Matches y act f t (sp + 1) s) (hfloor : act.floor ≤ sp)
    (hhas : (act.site y).Has s.pc (.pop .pointer 0)) (htop : word s.ram sp = v) :
    ∃ s', Goes y act { f with this := v } t sp (fun b => 256 ≤ b ∧ b < sp) (s.pc + 1) s s' := by
  have hpos := h.sp_pos
  have hceiling := h.ceiling
  have hlow := act.low
  have hsize : ramSize = 32768 := rfl
  have hstep : step y.program s =
      .ok none { s with ram := put (popped s.ram (sp + 1)) 3 v, pc := s.pc + 1 } :=
    step_pop (act.site y) hhas rfl (by decide) h.stack (by omega) (by omega) htop
  have hwords {b : Nat} (hb : b ≠ 0) (hb' : b ≠ 3) :
      word (put (popped s.ram (sp + 1)) 3 v) b = word s.ram b := by
    rw [word_put_of_ne _ _ (Ne.symm hb'), word_popped_of_ne _ _ hb]
  have hholds : Holds act { f with this := v } (put (popped s.ram (sp + 1)) 3 v) := by
    refine ⟨h.holds.tree, h.holds.kind, (hwords (by omega) (by omega)).trans h.holds.arguments,
      (hwords (by omega) (by omega)).trans h.holds.locals,
      fun _ => word_put_self _ _ (by omega), fun name hname => ?_⟩
    rw [h.holds.vars name hname]
    cases hlookup : act.table.lookup? name with
    | none => rfl
    | some e =>
        have hslot := act.slot_bounds y hlookup
        rw [Option.map_some, Option.map_some, hwords (by omega) (by omega)]
  have hstack : word (put (popped s.ram (sp + 1)) 3 v) 0 = pointer sp := by
    rw [word_put_of_ne _ _ (by omega), word_popped_zero _ _ (by decide), Nat.add_sub_cancel]
  refine ⟨_, .single hstep, ⟨?_, hholds, hstack, hfloor, by omega, h.roomy.step hstep⟩, rfl,
    fun b hb => hwords (by omega) (by omega), rfl⟩
  exact h.shared.same (fun b hb => hwords (by omega) (by omega)) rfl rfl

/-- What a subroutine does before its statements gives it its object. -/
theorem Matches.opens (h : Matches y act f t act.floor s)
    (hvalues : OnStack s.ram act.arguments vs)
    (hplaced : (act.site y).Placed s.pc (openingOf act.tree act.sub)) {this : Int16}
    {explicit : List Int16} (henter : enter w act.tree act.sub vs t = .ok (this, explicit) t₁) :
    ∃ s', Goes y act { f with this } t₁ act.floor (fun b => 256 ≤ b ∧ b < act.floor)
      (s.pc + (openingOf act.tree act.sub).length) s s' := by
  have hbelow {b : Nat} (hb : 256 ≤ b ∧ b < act.floor) : Below act.floor b := .inr hb
  cases hkind : act.sub.kind with
  | function =>
      simp only [openingOf, enter, hkind] at henter ⊢
      cases henter
      refine ⟨s, .refl s, { h with holds := { h.holds with this := fun hne => ?_ } }, rfl,
        fun _ _ => rfl, rfl⟩
      exact absurd (h.holds.kind.trans hkind) hne
  | method =>
      simp only [openingOf, enter, hkind] at henter hplaced ⊢
      cases vs with
      | nil => cases henter
      | cons object rest =>
          cases henter
          have hframe := act.frame
          have hhigh := act.high
          have hresolve : (locate (act.site y).base .argument 0).resolve s.ram =
              act.arguments := by
            simp only [locate, Location.resolve, address_arguments, h.holds.arguments]
            rw [toInt_pointer (by omega)]
            simp
          have hthis : word s.ram act.arguments = this := hvalues 0 (by simp)
          have hload : load (act.site y).owner (locate (act.site y).base .argument 0) s =
              .ok this s := (load_run hresolve (by omega)).trans (by rw [hthis])
          obtain ⟨s₁, h₁⟩ := h.push hplaced.first hload
          have hpop := hplaced.tail.first
          rw [← h₁.pc] at hpop
          obtain ⟨s₂, h₂⟩ := h₁.matched.popThis le_rfl hpop h₁.top
          rw [h₁.pc] at h₂
          exact ⟨s₂, (h₁.toGoes.mono fun _ => hbelow).trans h₂⟩
  | constructor =>
      simp only [openingOf, enter, hkind] at henter hplaced ⊢
      obtain ⟨object, t₂, halloc, hend⟩ := bind_eq_ok henter
      cases hend
      obtain ⟨s₁, h₁⟩ := h.pushConstant hplaced.first
      have hcall := hplaced.tail.first
      rw [← h₁.pc] at hcall
      obtain ⟨s₂, h₂⟩ := h₁.matched.callRoutine le_rfl .alloc (onStack_single h₁.top) hcall rfl halloc
      have hpop := hplaced.tail.tail.first
      have hpc : s.pc + 1 + 1 = s₂.pc := by rw [h₂.pc, h₁.pc]
      rw [hpc] at hpop
      obtain ⟨s₃, h₃⟩ := h₂.matched.popThis le_rfl hpop h₂.top
      rw [← hpc] at h₃
      exact ⟨s₃, ((h₁.toGoes.trans h₂.toGoes).mono fun _ => hbelow).trans h₃⟩

/-! ## Bodies -/

theorem Enters.returns {fuel : Nat} (ih : Simulates y fuel) (h : Enters y act vs t s)
    {labels : Labels} {opening body : List Command}
    (hblock : YieldsBlock act.tree labels act.sub opening body)
    (hplaced : (act.site y).Placed s.pc (blockOf act.tree act.sub opening body)) {this : Int16}
    {explicit : List Int16} (henter : enter w act.tree act.sub vs t = .ok (this, explicit) t₁)
    (hrun : Evaluation.runAll w fuel
      ⟨act.tree, act.sub.kind, this, openingVars act.sub explicit⟩ act.sub.body t₁ =
        .ok (f', some v) t') :
    ∃ s', Returns y act t' v s s' := by
  have hlow := act.low
  have hframe := act.frame
  obtain ⟨front, hvalues, hfront⟩ := enter_eq_ok henter
  obtain ⟨rfl, -⟩ := hblock.opening_eq
  obtain ⟨s₁, h₁⟩ := h.matched hplaced.first hvalues hfront
  have hrest := hplaced.tail
  rw [← h₁.pc] at hrest
  have hstacked : OnStack s₁.ram act.arguments vs := by
    intro i hi
    have hcount := h.count
    rw [h₁.kept.words _ (by omega)]
    exact h.values i hi
  obtain ⟨s₂, h₂⟩ := h₁.matched.opens hstacked hrest.left henter
  have hbody := hrest.right
  rw [← h₂.pc] at hbody
  obtain ⟨s₃, h₃⟩ := ih.runAll act hrun hblock.body (y.named _ act.mem _ act.declared) s₂
    h₂.matched hbody
  have hfloor : act.floor = act.locals + act.sub.localCount := rfl
  have hkept : Kept act.Linkage s s₃ := by
    refine ((h₁.kept.mono fun b hb => ?_).trans (h₂.kept.mono fun b hb => ?_)).trans
      (h₃.kept.mono fun b hb => hb.reserved)
    all_goals
      unfold Activation.Linkage at hb
      omega
  have hregister {b : Nat} (hb : 1 ≤ b ∧ b ≤ 3) : word s₃.ram b = word s₂.ram b :=
    h₃.kept.words b (.inl hb)
  exact ⟨s₃, ⟨(h₁.proceeds.trans h₂.proceeds).trans h₃.proceeds, h₃.shared, h₃.has, h₃.stack,
    h₃.ceiling, h₃.top, hkept⟩, (hregister (by omega)).trans h₂.matched.holds.locals,
    (hregister (by omega)).trans h₂.matched.holds.arguments⟩

/-- The memory when a subroutine is left. -/
def Activation.left (act : Activation w) (s : State) : Vector Int16 ramSize :=
  restored s.ram (act.floor + 1) act.locals act.arguments

/-- A return leaves the frame. -/
theorem Returns.step_eq (h : Returns y act t v s s') :
    step y.program s' = .ok (leave s' (act.left s') v).1 (leave s' (act.left s') v).2 := by
  have hlow := act.low
  have hframe := act.frame
  have hhigh := act.high
  have hbase := act.le_floor
  have hceiling := h.ceiling
  have hpop := @popFrame_run (act.site y).owner s' _ _ _ h.stack h.locals h.arguments (by omega)
    (by omega) (by omega) (by omega) (by omega)
  rw [Nat.add_sub_cancel, h.top] at hpop
  exact (h.has.step_eq rfl).trans (execute_return s'.pc hpop)

/-- Statics, heap and output are still shared when the frame is left. -/
theorem Returns.shared_left (h : Returns y act t v s s') {s'' : State}
    (hram : s''.ram = act.left s') (hheap : s''.heapNext = s'.heapNext)
    (houtput : s''.output = s'.output) : Shared y t s'' := by
  have hlow := act.low
  have hframe := act.frame
  have hhigh := act.high
  refine h.shared.same (fun b hb => ?_) hheap houtput
  rw [hram]
  exact word_restored_of_ne _ (by omega) (by omega)

/-! ## Subroutines that are called -/

theorem subroutine?_eq_some {className name : String} {tree : ClassTree} {sub : Subroutine}
    (h : w.subroutine? className name = some (tree, sub)) :
    tree ∈ w.classes ∧ sub ∈ tree.subroutines ∧ tree.name = className ∧ sub.name = name := by
  unfold World.subroutine? at h
  obtain ⟨tree', htree, h⟩ := Option.bind_eq_some_iff.mp h
  obtain ⟨sub', hsub, h⟩ := Option.bind_eq_some_iff.mp h
  cases h
  exact ⟨List.mem_of_find?_eq_some htree, List.mem_of_find?_eq_some hsub,
    by simpa using List.find?_some htree, by simpa using List.find?_some hsub⟩

theorem exists_routine {name : String} (h : builtin w name vs t = .ok v t') :
    ∃ r : Routine, name = r.name := by
  unfold builtin at h
  cases hname : Routine.ofName? name with
  | none =>
      rw [hname] at h
      cases h
  | some r =>
      have hfound := List.find?_some hname
      exact ⟨r, (eq_of_beq hfound).symm⟩

/-- What an evaluation of a call of a subroutine comes to. -/
theorem invoke_eq_ok {fuel : Nat} {className name : String} {tree : ClassTree} {sub : Subroutine}
    (hstrict : w.strict = true) (hfound : w.subroutine? className name = some (tree, sub))
    (h : invoke w (fuel + 1) className name vs t = .ok v t') :
    vs.length = valueCount sub ∧ ∃ this explicit t₁ f',
      enter w tree sub vs t = .ok (this, explicit) t₁ ∧
      runAll w fuel ⟨tree, sub.kind, this, openingVars sub explicit⟩ sub.body t₁ =
        .ok (f', some v) t' := by
  unfold invoke at h
  simp only [hfound] at h
  obtain ⟨u, t₀, hdemand, hrest⟩ := bind_eq_ok h
  obtain ⟨hsame, hrule⟩ := demand_eq_ok hdemand
  subst hsame
  obtain ⟨⟨this, explicit⟩, t₁, henter, hrest⟩ := bind_eq_ok hrest
  obtain ⟨⟨f', outcome⟩, t₂, hrun, hrest⟩ := bind_eq_ok hrest
  cases outcome with
  | some value =>
      cases hrest
      exact ⟨by simpa using hrule hstrict, this, explicit, t₁, f', henter, hrun⟩
  | none =>
      obtain ⟨u, t₃, hleaving, -⟩ := bind_eq_ok hrest
      have hfalse := (demand_eq_ok hleaving).2 hstrict
      cases hfalse

/-- A call pushes a frame. -/
theorem exists_enters {tree : ClassTree} {sub : Subroutine} {l : Site} {count : UInt16} {k : Nat}
    {labels : Labels} {opening body : List Command} {entry : Nat} {name : String}
    (htree : tree ∈ w.classes) (hsub : sub ∈ tree.subroutines)
    (hblock : YieldsBlock tree labels sub opening body) (hshared : Shared y t s)
    (hroomy : Roomy y.program s) (hstack : word s.ram 0 = pointer (k + vs.length))
    (hceiling : k + vs.length ≤ 2048) (hlow : 256 ≤ k) (hvalues : OnStack s.ram k vs)
    (hlinked : l.linked = y.linked) (hhas : l.Has s.pc (.call name count))
    (hcount : count.toNat = vs.length) (hdeclared : vs.length = valueCount sub)
    (hentry : y.linked.directory.functions[name]? = some entry) :
    ∃ (act : Activation w) (s' : State), act.tree = tree ∧ act.sub = sub ∧ act.arguments = k ∧
      Enters y act vs t s' ∧ s'.pc = entry ∧ s'.returns = (s.pc + 1) :: s.returns ∧
      Proceeds y.program s s' ∧
      (∀ i, 1 ≤ i → i ≤ 3 → word s'.ram (k + vs.length + i) = word s.ram i) ∧
      ∀ b, 256 ≤ b → b < k → word s'.ram b = word s.ram b := by
  have hsize : ramSize = 32768 := rfl
  have hop : resolve l.linked.directory l.base l.owner (.call name count) =
      .ok (.call (.function entry) count) := by
    rw [resolve, Directory.target, hlinked, hentry]
  have hstep := hhas.step_eq hop
  rw [hlinked, execute_call s.pc entry count hstack (by omega) (by omega) (by omega), hcount]
    at hstep
  set m := framed s.ram (k + vs.length) vs.length 0 with hm
  have hstack' : word m 0 = pointer (k + vs.length + 5) := word_framed_stack _ _ _ (by decide)
  have hroomy' := hroomy.step hstep
  have hhigh := hroomy'.inRoom.le hstack' (by omega)
  let act : Activation w :=
    { tree, sub, arguments := k, locals := k + vs.length + 5, mem := htree, declared := hsub
      small := hblock.count, low := hlow, frame := by omega, high := hhigh }
  have hbelow {b : Nat} (hb : 3 ≤ b) (hb' : b < k + vs.length) : word m b = word s.ram b :=
    word_framed_of_lt _ _ _ hb hb'
  refine ⟨act, _, rfl, rfl, rfl, ⟨?_, hroomy', hstack', word_framed_locals _ _ _ (by decide), ?_,
    fun i hi => ?_, hdeclared⟩, rfl, rfl, .single hstep, fun i hi hi' => ?_,
    fun b hb hb' => hbelow (by omega) (by omega)⟩
  · refine hshared.same (fun b hb => ?_) rfl rfl
    rcases hb with hb | hb
    · exact hbelow (by omega) (by omega)
    · exact word_framed_of_le _ _ _ (by omega) (by omega)
  · refine (word_framed_args _ _ _ (by decide)).trans ?_
    rw [Nat.add_sub_cancel]
  · exact (hbelow (b := k + i) (by omega) (by omega)).trans (hvalues i hi)
  · exact word_framed_saved _ _ _ ⟨hi, by omega⟩ (by omega) (by omega)

/-- A frame that is left answers the call that pushed it. -/
theorem Returns.answers {u : State} (h : Returns y act t v s s') {target : Nat}
    (hproceeds : Proceeds y.program u s) (hreturns : s.returns = target :: u.returns)
    (hsaved : ∀ i, 1 ≤ i → i ≤ 3 →
      word s.ram (act.arguments + valueCount act.sub + i) = word u.ram i)
    (hbelow : ∀ b, 256 ≤ b → b < act.arguments → word s.ram b = word u.ram b) :
    ∃ u', Answers y t act.arguments v target u u' := by
  have hlow := act.low
  have hframe := act.frame
  have hhigh := act.high
  have hsize : ramSize = 32768 := rfl
  have hstep := h.step_eq
  have hleave : leave s' (act.left s') v =
      (none, { s' with ram := act.left s', returns := u.returns, pc := target }) := by
    rw [leave, h.kept.returns, hreturns]
  rw [hleave] at hstep
  have hlinkage {a i : Nat} (hi : 1 ≤ i ∧ i ≤ 3) (ha : a + 5 = act.locals + i) :
      word s'.ram a = word u.ram i := by
    have haddress : a = act.arguments + valueCount act.sub + i := by omega
    rw [haddress, h.kept.words _ (.inr ⟨by omega, by omega⟩), hsaved i hi.1 hi.2]
  refine ⟨_, (hproceeds.trans h.proceeds).trans (.single hstep), h.shared_left rfl rfl rfl,
    word_restored_stack _ (by decide), by omega, ?_, rfl, fun b hb => ?_, rfl⟩
  · refine (word_restored_arguments _ (by omega) (by omega)).trans ?_
    rw [Nat.add_sub_cancel, h.top]
  · have hb' : b = 1 ∨ b = 2 ∨ b = 3 ∨ 256 ≤ b ∧ b < act.arguments := by
      unfold Below at hb
      omega
    rcases hb' with rfl | rfl | rfl | hb'
    · exact (word_restored_locals _ (by decide)).trans (hlinkage (by decide) (by omega))
    · exact (word_restored_args _ (by decide)).trans (hlinkage (by decide) (by omega))
    · exact (word_restored_this _ (by decide)).trans (hlinkage (by decide) (by omega))
    · refine (word_restored_of_ne _ (by omega) (by omega)).trans ?_
      rw [h.kept.words _ (.inl hb'), hbelow b hb'.1 hb'.2]

/-- The machine follows the evaluation of a call. -/
theorem Simulates.invoke_succ {fuel : Nat} (ih : Simulates y fuel) {className name : String}
    {k : Nat} {l : Site} {count : UInt16}
    (h : Evaluation.invoke w (fuel + 1) className name vs t = .ok v t')
    (hshared : Shared y t s) (hroomy : Roomy y.program s)
    (hstack : word s.ram 0 = pointer (k + vs.length)) (hceiling : k + vs.length ≤ 2048)
    (hlow : 256 ≤ k) (hvalues : OnStack s.ram k vs) (hlinked : l.linked = y.linked)
    (hhas : l.Has s.pc (.call s!"{className}.{name}" count)) (hcount : count.toNat = vs.length) :
    ∃ s', Answers y t' k v (s.pc + 1) s s' := by
  cases hfound : w.subroutine? className name with
  | none =>
      unfold Evaluation.invoke at h
      simp only [hfound] at h
      obtain ⟨r, hname⟩ := exists_routine h
      rw [hname] at h hhas
      exact answers_routine r h hshared hroomy hstack hceiling hlow hvalues hlinked hhas hcount
  | some found =>
      obtain ⟨tree, sub⟩ := found
      obtain ⟨htree, hsub, rfl, rfl⟩ := subroutine?_eq_some hfound
      obtain ⟨hdeclared, this, explicit, t₁, f', henter, hrun⟩ := invoke_eq_ok y.strict hfound h
      obtain ⟨entry, labels, opening, body, hentry, hblock, hplaced⟩ := y.placed tree htree sub hsub
      obtain ⟨act, s₁, rfl, rfl, rfl, henters, rfl, hreturns, hproceeds, hsaved, hbelow⟩ :=
        exists_enters htree hsub hblock hshared hroomy hstack hceiling hlow hvalues hlinked hhas
          hcount hdeclared hentry
      obtain ⟨s₂, hs₂⟩ := henters.returns ih hblock hplaced henter hrun
      rw [hdeclared] at hsaved
      exact hs₂.answers hproceeds hreturns hsaved hbelow

theorem simulates (y : Layout w) (fuel : Nat) : Simulates y fuel := by
  induction fuel with
  | zero => exact simulates_zero
  | succ fuel ih =>
      exact ⟨fun act => ih.eval_succ act, fun act => ih.evalAll_succ act, ih.invoke_succ,
        fun act => ih.run_succ act, fun act => ih.runAll_succ act, fun act => ih.holds_succ act⟩

end JackToolchain.Evaluation
