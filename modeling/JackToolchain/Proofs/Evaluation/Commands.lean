import JackToolchain.Proofs.Evaluation.Agreement

/-!
# Commands of expressions

What single commands, and the few that stand for an element of an array, do to a machine that
matches an evaluation.
-/

namespace JackToolchain.Evaluation

open JackToolchain.Machine JackToolchain.Memory JackToolchain.Lowering JackToolchain.Syntax
open JackToolchain.Scope JackToolchain.Stack

variable {w : World} {y : Layout w} {act : Activation w} {f f' : Frame} {t t' : Store} {sp : Nat}
  {s : State}

/-- Where the commands of the subroutine belong. -/
abbrev Activation.site (act : Activation w) (y : Layout w) : Site := y.site act.tree act.sub

section Steps

variable {a : Nat}

theorem step_push (l : Site) {segment : Segment} {index : UInt16} {v : Int16}
    (hhas : l.Has s.pc (.push segment index))
    (hload : load l.owner (locate l.base segment index) s = .ok v s)
    (hstack : word s.ram 0 = pointer sp) (hpos : 0 < sp) (hsp : sp < 32768) :
    step l.linked.program s = .ok none { s with ram := pushed s.ram sp v, pc := s.pc + 1 } :=
  (hhas.step_eq rfl).trans (execute_push s.pc hload hstack hpos hsp)

/-- The top of the stack goes to the word that a segment stands for. -/
theorem step_pop (l : Site) {segment : Segment} {index : UInt16} {v : Int16}
    (hhas : l.Has s.pc (.pop segment index))
    (hresolve : (locate l.base segment index).resolve s.ram = a) (ha : a < 32768)
    (hstack : word s.ram 0 = pointer (sp + 1)) (hpos : 0 < sp) (hsp : sp < 32768)
    (htop : word s.ram sp = v) :
    step l.linked.program s =
      .ok none { s with ram := put (popped s.ram (sp + 1)) a v, pc := s.pc + 1 } := by
  have hbase (offset : UInt16) : locate l.base segment index ≠ .based .stack offset := by
    cases segment <;> simp [locate]
  refine (hhas.step_eq rfl).trans ?_
  rw [execute_pop s.pc hbase hresolve ha hstack (by omega) (by omega), Nat.add_sub_cancel, htop]

end Steps

namespace Matches

theorem push (h : Matches y act f t sp s) {segment : Segment} {index : UInt16} {v : Int16}
    (hhas : (act.site y).Has s.pc (.push segment index))
    (hload : load (act.site y).owner (locate (act.site y).base segment index) s = .ok v s) :
    ∃ s', Pushes y act f t sp v (s.pc + 1) s s' := by
  have hpos := h.sp_pos
  have hceiling := h.ceiling
  have hsize : ramSize = 32768 := rfl
  have hstep : Machine.step y.program s =
      .ok none { s with ram := pushed s.ram sp v, pc := s.pc + 1 } :=
    step_push _ hhas hload h.stack (by omega) (by omega)
  have hstack := word_pushed_zero s.ram sp v (by decide)
  have hroom := (h.roomy.step hstep).inRoom.le hstack (by omega)
  refine ⟨_, h.pushes (.single hstep) (fun b hb => ?_) hstack h.floor (by omega) ?_⟩
  · exact word_pushed_of_ne _ _ (by omega) (by omega)
  · exact word_pushed_self _ _ (by omega) (by omega)

theorem unary (h : Matches y act f t (sp + 1) s) (hfloor : act.floor ≤ sp) (op : UnaryOp)
    {v : Int16} (hhas : (act.site y).Has s.pc (unaryCommand op)) (htop : word s.ram sp = v) :
    ∃ s', Pushes y act f t sp (unaryValue op v) (s.pc + 1) s s' := by
  have hpos := h.sp_pos
  have hceiling := h.ceiling
  have hsize : ramSize = 32768 := rfl
  have hstep : Machine.step y.program s = .ok none
      { s with ram := pushed (popped s.ram (sp + 1)) sp (unaryValue op v), pc := s.pc + 1 } := by
    cases op with
    | negate =>
        refine (hhas.step_eq rfl).trans (execute_arithmetic s.pc ?_)
        rw [arithmetic_unary rfl h.stack (by omega) (by omega), Nat.add_sub_cancel, htop]
        rfl
    | not =>
        refine (hhas.step_eq rfl).trans (execute_arithmetic s.pc ?_)
        rw [arithmetic_unary rfl h.stack (by omega) (by omega), Nat.add_sub_cancel, htop]
        rfl
  refine ⟨_, h.pushes (.single hstep) (fun b hb => ?_) (word_pushed_zero _ _ _ (by decide)) hfloor
    (by omega) ?_⟩
  · rw [word_pushed_of_ne _ _ (by omega) (by omega), word_popped_of_ne _ _ (by omega)]
  · exact word_pushed_self _ _ (by omega) (by omega)

theorem binary (h : Matches y act f t (sp + 2) s) (hfloor : act.floor ≤ sp) {op : Arithmetic}
    {x v : Int16} (hop : op.arity = 2) (hhas : (act.site y).Has s.pc (.arithmetic op))
    (hleft : word s.ram sp = x) (hright : word s.ram (sp + 1) = v) :
    ∃ s', Pushes y act f t sp (combine op x v) (s.pc + 1) s s' := by
  have hpos := h.sp_pos
  have hceiling := h.ceiling
  have hsize : ramSize = 32768 := rfl
  have hstep : Machine.step y.program s = .ok none
      { s with
        ram := pushed (popped (popped s.ram (sp + 2)) (sp + 1)) sp (combine op x v)
        pc := s.pc + 1 } := by
    refine (hhas.step_eq rfl).trans (execute_arithmetic s.pc ?_)
    rw [arithmetic_binary hop h.stack (by omega) (by omega)]
    simp only [Nat.add_sub_cancel, hleft, show sp + 2 - 1 = sp + 1 from rfl, hright]
  refine ⟨_, h.pushes (.single hstep) (fun b hb => ?_) (word_pushed_zero _ _ _ (by decide)) hfloor
    (by omega) ?_⟩
  · rw [word_pushed_of_ne _ _ (by omega) (by omega), word_popped_of_ne _ _ (by omega),
      word_popped_of_ne _ _ (by omega)]
  · exact word_pushed_self _ _ (by omega) (by omega)

end Matches

/-! ## Elements of arrays -/

/-- The sum of two words, as the address that it is. -/
theorem add_eq_pointer {x v : Int16} {a : Nat} (h : x.toInt + v.toInt = a) (ha : a < 32768) :
    x + v = pointer a := by
  apply eq_pointer_of_toInt
  rw [Int16.toInt_add, h]
  exact Int.bmod_eq_of_le (by omega) (by omega)

section Elements

variable {a : Nat}

/-- The word at the address on top of the stack takes its place. -/
theorem Matches.readThat (h : Matches y act f t (sp + 1) s) (hfloor : act.floor ≤ sp)
    (hplaced : (act.site y).Placed s.pc [.pop .pointer 1, .push .that 0])
    (htop : word s.ram sp = pointer a) (hlow : 2048 ≤ a) (ha : a < 32768) :
    ∃ s', Pushes y act f t sp (word s.ram a) (s.pc + 2) s s' := by
  have hpos := h.sp_pos
  have hceiling := h.ceiling
  have hsize : ramSize = 32768 := rfl
  set m := put (popped s.ram (sp + 1)) 4 (pointer a) with hm
  have hpop : step y.program s = .ok none { s with ram := m, pc := s.pc + 1 } :=
    step_pop (act.site y) hplaced.first rfl (by decide) h.stack (by omega) (by omega) htop
  have hpush : step y.program { s with ram := m, pc := s.pc + 1 } =
      .ok none { s with ram := pushed m sp (word s.ram a), pc := s.pc + 1 + 1 } := by
    have hstack : word m 0 = pointer sp := by
      rw [hm, word_put_of_ne _ _ (by omega), word_popped_zero _ _ (by decide),
        Nat.add_sub_cancel]
    have hword : word m a = word s.ram a := by
      rw [hm, word_put_of_ne _ _ (by omega), word_popped_of_ne _ _ (by omega)]
    have hresolve : (Location.based .that 0).resolve m = a := by
      simp only [Location.resolve, address_that, hm]
      rw [word_put_self _ _ (by omega), toInt_pointer ha]
      simp
    have hload : load (act.site y).owner (.based .that 0) { s with ram := m, pc := s.pc + 1 } =
        .ok (word s.ram a) { s with ram := m, pc := s.pc + 1 } :=
      (load_run hresolve ha).trans (by rw [hword])
    exact step_push (act.site y) hplaced.tail.first hload hstack (by omega) (by omega)
  refine ⟨_, h.pushes ((Proceeds.single hpop).trans (.single hpush)) (fun b hb => ?_)
    (word_pushed_zero _ _ _ (by decide)) hfloor (by omega) ?_⟩
  · rw [word_pushed_of_ne _ _ (by omega) (by omega), hm, word_put_of_ne _ _ (by omega),
      word_popped_of_ne _ _ (by omega)]
  · exact word_pushed_self _ _ (by omega) (by omega)

/-- The top of the stack goes to the word at the address below it. -/
theorem Matches.writeThat (h : Matches y act f t (sp + 2) s) (hfloor : act.floor ≤ sp) {v : Int16}
    (hplaced : (act.site y).Placed s.pc
      [.pop .temp 0, .pop .pointer 1, .push .temp 0, .pop .that 0])
    (haddress : word s.ram sp = pointer a) (hvalue : word s.ram (sp + 1) = v) (hlow : 2048 ≤ a)
    (hhigh : a < t.heapNext) :
    ∃ s', Goes y act f { t with memory := put t.memory a v } sp (Below sp) (s.pc + 4) s s' := by
  have hbase := act.le_floor
  have hceiling := h.ceiling
  have hroom := h.shared.room
  have hsize : ramSize = 32768 := rfl
  set m₁ := put (popped s.ram (sp + 1 + 1)) 5 v with hm₁
  set m₂ := put (popped m₁ (sp + 1)) 4 (pointer a) with hm₂
  set m₃ := pushed m₂ sp v with hm₃
  set m₄ := put (popped m₃ (sp + 1)) a v with hm₄
  have hfirst : step y.program s = .ok none { s with ram := m₁, pc := s.pc + 1 } :=
    step_pop (act.site y) hplaced.first rfl (by decide) h.stack (by omega) (by omega) hvalue
  have hsecond : step y.program { s with ram := m₁, pc := s.pc + 1 } =
      .ok none { s with ram := m₂, pc := s.pc + 1 + 1 } := by
    have hstack : word m₁ 0 = pointer (sp + 1) := by
      rw [hm₁, word_put_of_ne _ _ (by omega), word_popped_zero _ _ (by decide),
        Nat.add_sub_cancel]
    have htop : word m₁ sp = pointer a := by
      rw [hm₁, word_put_of_ne _ _ (by omega), word_popped_of_ne _ _ (by omega), haddress]
    exact step_pop (act.site y) hplaced.tail.first rfl (by decide) hstack (by omega) (by omega)
      htop
  have hthird : step y.program { s with ram := m₂, pc := s.pc + 1 + 1 } =
      .ok none { s with ram := m₃, pc := s.pc + 1 + 1 + 1 } := by
    have hstack : word m₂ 0 = pointer sp := by
      rw [hm₂, word_put_of_ne _ _ (by omega), word_popped_zero _ _ (by decide),
        Nat.add_sub_cancel]
    have hword : word m₂ 5 = v := by
      rw [hm₂, word_put_of_ne _ _ (by omega), word_popped_of_ne _ _ (by omega), hm₁,
        word_put_self _ _ (by omega)]
    have hload : load (act.site y).owner (.fixed 5) { s with ram := m₂, pc := s.pc + 1 + 1 } =
        .ok v { s with ram := m₂, pc := s.pc + 1 + 1 } :=
      (load_run rfl (by decide)).trans (by rw [hword])
    exact step_push (act.site y) hplaced.tail.tail.first hload hstack (by omega) (by omega)
  have hfourth : step y.program { s with ram := m₃, pc := s.pc + 1 + 1 + 1 } =
      .ok none { s with ram := m₄, pc := s.pc + 1 + 1 + 1 + 1 } := by
    have hresolve : (Location.based .that 0).resolve m₃ = a := by
      simp only [Location.resolve, address_that, hm₃, hm₂]
      rw [word_pushed_of_ne _ _ (by omega) (by omega), word_put_self _ _ (by omega),
        toInt_pointer (by omega)]
      simp
    have hstack : word m₃ 0 = pointer (sp + 1) := word_pushed_zero _ _ _ (by decide)
    have htop : word m₃ sp = v := word_pushed_self _ _ (by omega) (by omega)
    exact step_pop (act.site y) hplaced.tail.tail.tail.first hresolve (by omega) hstack (by omega)
      (by omega) htop
  have hproceeds : Proceeds y.program s { s with ram := m₄, pc := s.pc + 4 } :=
    ((Proceeds.single hfirst).trans (.single hsecond)).trans
      ((Proceeds.single hthird).trans (.single hfourth))
  have hwords {b : Nat} (hb : 1 ≤ b ∧ b ≤ 3 ∨ 16 ≤ b ∧ b < sp ∨ 2048 ≤ b) :
      word m₄ b = word (put s.ram a v) b := by
    simp only [hm₄, hm₃, hm₂, hm₁]
    rw [word_put, word_put, word_popped_of_ne _ _ (by omega),
      word_pushed_of_ne _ _ (by omega) (by omega), word_put_of_ne _ _ (by omega),
      word_popped_of_ne _ _ (by omega), word_put_of_ne _ _ (by omega),
      word_popped_of_ne _ _ (by omega)]
  have hlow' := act.low
  refine ⟨_, hproceeds, ⟨?_, ?_, ?_, hfloor, by omega, h.roomy.proceeds hproceeds⟩, rfl, ?_, rfl⟩
  · exact (h.shared.write v hlow hhigh).same (fun b hb => hwords (by omega)) rfl rfl
  · refine h.holds.same y (fun b hb hb' => ?_) fun b hb hb' => ?_
    all_goals rw [hwords (by omega), word_put_of_ne _ _ (by omega)]
  · simp only [hm₄]
    rw [word_put_of_ne _ _ (by omega), word_popped_zero _ _ (by decide), Nat.add_sub_cancel]
  · intro b hb
    unfold Below at hb
    simp only
    rw [hwords (by omega), word_put_of_ne _ _ (by omega)]

end Elements

/-! ## Variables -/

/-- The entry of a name in the subroutine of an activation. -/
abbrev Activation.entry? (act : Activation w) (name : String) : Option Entry :=
  (contextOf act.tree act.sub).resolve? name

section Variables

variable {name : String} {e : Entry}

/-- A name stands for a variable of the subroutine, or for a member of the class. -/
theorem Activation.entry_cases (y : Layout w) (h : act.entry? name = some e) :
    act.table.lookup? name = some e ∨
      act.table.lookup? name = none ∧
        ∃ kind k, e.storage = storageOf kind ∧ e.index = (min k 65535).toUInt16 ∧
          member? act.tree kind name = some (e.type, k) ∧
          ∀ other, other ≠ kind → member? act.tree other name = none := by
  have hresolve : (act.table.lookup? name).or ((Table.ofClass act.tree).lookup? name) = some e := h
  cases hlookup : act.table.lookup? name with
  | some e' =>
      rw [hlookup, Option.some_or] at hresolve
      exact .inl hresolve
  | none =>
      rw [hlookup, Option.none_or] at hresolve
      exact .inr ⟨rfl, member?_of_lookup? (y.members _ act.mem) hresolve⟩

/-- A variable of the subroutine is found in its slot. -/
theorem Holds.resolve_slot {m : Vector Int16 ramSize} (h : Holds act f m) (y : Layout w)
    (hlookup : act.table.lookup? name = some e) :
    (locate (act.site y).base e.segment e.index).resolve m = act.slot e := by
  have hframe := act.frame
  have hhigh := act.high
  have hslot : act.slot e = slotOf act.arguments act.locals e := rfl
  rcases slotOf_bounds (y.scopes _ act.mem _ act.declared) (by omega) act.small hlookup
    act.arguments act.locals with ⟨hstorage, hat, -⟩ | ⟨hstorage, hat, -⟩
  · have hsegment : e.segment = .argument := by rw [Entry.segment, hstorage]; rfl
    rw [hslot, hat, hsegment]
    simp only [locate, Location.resolve, address_arguments, h.arguments]
    rw [toInt_pointer (by omega)]
    omega
  · have hsegment : e.segment = .locals := by rw [Entry.segment, hstorage]; rfl
    rw [hslot, hat, hsegment]
    simp only [locate, Location.resolve, address_locals, h.locals]
    rw [toInt_pointer (by omega)]
    omega

theorem demandObject_eq_ok (y : Layout w) {u : Unit} (h : demandObject w f t = .ok u t') :
    t' = t ∧ f.kind ≠ .function := by
  obtain ⟨hsame, hrule⟩ := demand_eq_ok h
  exact ⟨hsame, by simpa using hrule y.strict⟩

/-- The position of a static variable that a command refers to. -/
theorem static_index {k size : Nat} {index : UInt16} (hsize : size ≤ 240)
    (hindex : index = (min k 65535).toUInt16) (hfits : min (index.toNat + 1) 65535 ≤ size) :
    index.toNat = k ∧ k < size := by
  have hnat : index.toNat = min k 65535 := by
    rw [hindex]
    simp only [Nat.toUInt16_eq, UInt16.toNat_ofNat']
    omega
  omega

/-- What is read is the word that the entry of the variable points to. -/
theorem Matches.readVar (h : Matches y act f t sp s) {type : TypeName} {v : Int16}
    (hname : name ≠ "this") (hentry : act.entry? name = some e)
    (hfits : staticsOf (pushEntry e) ≤ y.size act.tree.name)
    (hread : Evaluation.readVar w f name t = .ok (type, v) t') :
    t' = t ∧ type = e.type ∧ ∃ a : Nat, a < 32768 ∧
      (locate (act.site y).base e.segment e.index).resolve s.ram = a ∧ word s.ram a = v := by
  have hvars := h.holds.vars name hname
  have hceiling := h.ceiling
  have hfloor := h.floor
  unfold Evaluation.readVar at hread
  rcases act.entry_cases y hentry with
    hlookup | ⟨hlookup, kind, k, hstorage, hindex, hmember, hother⟩
  · rw [hlookup, Option.map_some] at hvars
    rw [hvars] at hread
    cases hread
    have hbounds := act.slot_bounds y hlookup
    exact ⟨rfl, rfl, act.slot e, by omega, h.holds.resolve_slot y hlookup, rfl⟩
  · rw [hlookup, Option.map_none] at hvars
    rw [hvars, h.holds.tree] at hread
    cases kind with
    | field =>
        simp only [hmember] at hread
        obtain ⟨u, t₁, hobject, hrest⟩ := bind_eq_ok hread
        obtain ⟨hsame, hkind⟩ := demandObject_eq_ok y hobject
        obtain ⟨v', t₂, hword, hend⟩ := bind_eq_ok hrest
        obtain ⟨hsame', a, ha, -, hv, hallocated⟩ := read_eq_ok hword
        subst hsame hsame'
        cases hend
        obtain ⟨hlow, hhigh⟩ := hallocated y.strict
        have hroom := h.shared.room
        have hthis := Int16.le_toInt f.this
        have hsegment : e.segment = .this := by rw [Entry.segment, hstorage]; rfl
        have hnat : e.index.toNat = k := by rw [hindex, toNat_slotIndex (by omega)]
        refine ⟨rfl, rfl, a, by omega, ?_, ?_⟩
        · rw [hsegment]
          simp only [locate, Location.resolve, address_this, h.holds.this hkind, hnat, ha]
        · rw [h.shared.heap a hlow, hv]
    | static =>
        have hnone := hother .field (by decide)
        simp only [hnone, hmember] at hread
        cases hread
        have hrange := y.range _ act.mem
        have hsegment : e.segment = .static := by rw [Entry.segment, hstorage]; rfl
        rw [pushEntry, hsegment] at hfits
        obtain ⟨hnat, hk⟩ := static_index (by omega) hindex hfits
        refine ⟨rfl, rfl, y.base act.tree.name + k, by omega, ?_, ?_⟩
        · rw [hsegment]
          simp only [locate, Location.resolve, hnat]
          rfl
        · exact (h.shared.statics _ act.mem _ _ _ hmember hk).symm

/-- A variable is pushed. -/
theorem Matches.pushVar (h : Matches y act f t sp s) {type : TypeName} {v : Int16}
    (hname : name ≠ "this") (hentry : act.entry? name = some e)
    (hhas : (act.site y).Has s.pc (pushEntry e))
    (hread : Evaluation.readVar w f name t = .ok (type, v) t') :
    t' = t ∧ type = e.type ∧ ∃ s', Pushes y act f t sp v (s.pc + 1) s s' := by
  obtain ⟨-, -, -, hfits⟩ := id hhas
  obtain ⟨rfl, rfl, a, ha, hresolve, rfl⟩ := h.readVar hname hentry hfits hread
  exact ⟨rfl, rfl, h.push hhas (load_run hresolve ha)⟩

/-- What an assignment does to store and frame, a write to the word of the variable does to the
machine. -/
theorem Matches.assign (h : Matches y act f t sp s) {v : Int16} (hname : name ≠ "this")
    (hentry : act.entry? name = some e) (hfits : staticsOf (popEntry e) ≤ y.size act.tree.name)
    (hassign : Evaluation.assign w f name v t = .ok f' t') :
    ∃ a : Nat, a < 32768 ∧ (locate (act.site y).base e.segment e.index).resolve s.ram = a ∧
      Shared y t' { s with ram := put s.ram a v } ∧ Holds act f' (put s.ram a v) ∧ 16 ≤ a ∧
      ¬act.Reserved a := by
  have hvars := h.holds.vars name hname
  have hceiling := h.ceiling
  have hfloor := h.floor
  have hlow := act.low
  have hframe := act.frame
  have hfloor' : act.floor = act.locals + act.sub.localCount := rfl
  unfold Evaluation.assign at hassign
  rcases act.entry_cases y hentry with
    hlookup | ⟨hlookup, kind, k, hstorage, hindex, hmember, hother⟩
  · rw [hlookup, Option.map_some] at hvars
    rw [hvars] at hassign
    cases hassign
    obtain ⟨hfrom, hto, hslot⟩ := act.slot_bounds y hlookup
    refine ⟨act.slot e, by omega, h.holds.resolve_slot y hlookup, ?_,
      h.holds.assign y v hname hlookup (by omega), by omega, ?_⟩
    · exact h.shared.same (fun b hb => word_put_of_ne _ _ (by omega)) rfl rfl
    · unfold Activation.Reserved
      omega
  · rw [hlookup, Option.map_none] at hvars
    rw [hvars, h.holds.tree] at hassign
    have hholds {a : Nat} (ha : 16 ≤ a ∧ a < 256 ∨ 2048 ≤ a) : Holds act f (put s.ram a v) :=
      h.holds.same y (fun b hb hb' => word_put_of_ne _ _ (by omega))
        (fun b hb hb' => word_put_of_ne _ _ (by omega))
    cases kind with
    | field =>
        simp only [hmember] at hassign
        obtain ⟨u, t₁, hobject, hrest⟩ := bind_eq_ok hassign
        obtain ⟨hsame, hkind⟩ := demandObject_eq_ok y hobject
        obtain ⟨v', t₂, hword, hend⟩ := bind_eq_ok hrest
        obtain ⟨a, ha, -, hwritten, hallocated⟩ := write_eq_ok hword
        subst hsame hwritten
        cases hend
        obtain ⟨hlow', hhigh⟩ := hallocated y.strict
        have hroom := h.shared.room
        have hthis := Int16.le_toInt f.this
        have hsegment : e.segment = .this := by rw [Entry.segment, hstorage]; rfl
        have hnat : e.index.toNat = k := by rw [hindex, toNat_slotIndex (by omega)]
        refine ⟨a, by omega, ?_, h.shared.write v hlow' hhigh, hholds (.inr hlow'), by omega, ?_⟩
        · rw [hsegment]
          simp only [locate, Location.resolve, address_this, h.holds.this hkind, hnat, ha]
        · unfold Activation.Reserved
          omega
    | static =>
        have hnone := hother .field (by decide)
        simp only [hnone] at hassign
        cases hassign
        have hrange := y.range _ act.mem
        have hsegment : e.segment = .static := by rw [Entry.segment, hstorage]; rfl
        rw [popEntry, hsegment] at hfits
        obtain ⟨hnat, hk⟩ := static_index (by omega) hindex hfits
        refine ⟨y.base act.tree.name + k, by omega, ?_, h.shared.assign act.mem hmember hk v,
          hholds (.inl (by omega)), by omega, ?_⟩
        · rw [hsegment]
          simp only [locate, Location.resolve, hnat]
          rfl
        · unfold Activation.Reserved
          omega

/-- The top of the stack is assigned to a variable. -/
theorem Matches.popVar (h : Matches y act f t (sp + 1) s) (hfloor : act.floor ≤ sp) {v : Int16}
    (hname : name ≠ "this") (hentry : act.entry? name = some e)
    (hhas : (act.site y).Has s.pc (popEntry e)) (htop : word s.ram sp = v)
    (hassign : Evaluation.assign w f name v t = .ok f' t') :
    ∃ s', Goes y act f' t' sp act.Reserved (s.pc + 1) s s' := by
  obtain ⟨-, -, -, hfits⟩ := id hhas
  have hpos := h.sp_pos
  have hceiling := h.ceiling
  obtain ⟨a, ha, hresolve, hshared, hholds, hlow, hfree⟩ := h.assign hname hentry hfits hassign
  have hstep : Machine.step y.program s =
      .ok none { s with ram := put (popped s.ram (sp + 1)) a v, pc := s.pc + 1 } :=
    step_pop _ hhas hresolve ha h.stack (by omega) (by omega) htop
  have hroomy := h.roomy.step hstep
  have hwords {b : Nat} (hb : b ≠ 0) :
      word (put (popped s.ram (sp + 1)) a v) b = word (put s.ram a v) b := by
    rw [word_put, word_put, word_popped_of_ne _ _ hb]
  refine ⟨_, .single hstep, ⟨?_, ?_, ?_, hfloor, by omega, hroomy⟩, rfl, ?_, rfl⟩
  · exact hshared.same (fun b hb => hwords (by omega)) rfl rfl
  · exact hholds.same y (fun b hb hb' => hwords (by omega)) fun b hb hb' => hwords (by
      have hargs := act.low
      omega)
  · rw [word_put_of_ne _ _ (by omega), word_popped_zero _ _ (by decide), Nat.add_sub_cancel]
  · intro b hb
    have hne : a ≠ b := by
      rintro rfl
      exact hfree hb
    have hlow' := act.low
    unfold Activation.Reserved at hb
    simp only
    rw [word_put_of_ne _ _ hne, word_popped_of_ne _ _ (by omega)]

end Variables

end JackToolchain.Evaluation
