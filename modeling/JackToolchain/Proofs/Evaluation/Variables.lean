import JackToolchain.Evaluation.Evaluator
import JackToolchain.Proofs.Lowering.Yield
import JackToolchain.Proofs.Scope.Slots

/-!
# Variables of an evaluation

An evaluation looks variables up by their declarations, commands by the slots of a table. Where the
names of a scope are distinct, both find the same.
-/

namespace JackToolchain.Evaluation

open JackToolchain.Syntax JackToolchain.Scope

/-- Under distinct keys, what is in a list is found. -/
theorem lookup_of_mem {β : Type} {l : List (String × β)} {a : String} {b : β}
    (hnodup : (l.map Prod.fst).Nodup) (h : (a, b) ∈ l) : l.lookup a = some b := by
  induction l with
  | nil => cases h
  | cons p rest ih =>
      obtain ⟨a', b'⟩ := p
      rw [List.map_cons, List.nodup_cons] at hnodup
      rw [List.lookup_cons]
      rcases List.mem_cons.mp h with heq | hmem
      · obtain ⟨rfl, rfl⟩ := Prod.mk.inj heq
        simp
      · have hne : (a == a') = false := by
          rw [beq_eq_false_iff_ne]
          rintro rfl
          exact hnodup.1 (List.mem_map.mpr ⟨(a, b), hmem, rfl⟩)
        rw [hne]
        exact ih hnodup.2 hmem

theorem lookup_of_notMem {β : Type} {l : List (String × β)} {a : String}
    (h : a ∉ l.map Prod.fst) : l.lookup a = none := by
  rw [List.lookup_eq_none_iff]
  intro p hp
  rw [bne_iff_ne]
  rintro rfl
  exact h (List.mem_map_of_mem hp)

/-! ## Members of a class -/

def storageOf : ClassVarKind → Storage
  | .static => .static
  | .field => .field

theorem storageOf_injective {kind kind' : ClassVarKind} (h : storageOf kind = storageOf kind') :
    kind = kind' := by
  cases kind <;> cases kind' <;> first | rfl | cases h

/-- The members of a class of one kind, with their types. -/
def membersOf (tree : ClassTree) (kind : ClassVarKind) : List (String × TypeName) :=
  (tree.classVars.filter (·.kind == kind)).flatMap fun vars =>
    vars.names.map fun name => (name, vars.type)

theorem declared_class (tree : ClassTree) (kind : ClassVarKind) :
    Table.declared (classDeclarations tree) (storageOf kind) =
      (membersOf tree kind).map fun m => ⟨m.1, m.2, storageOf kind⟩ := by
  unfold classDeclarations membersOf Table.declared
  induction tree.classVars with
  | nil => rfl
  | cons vars rest ih =>
      rw [List.flatMap_cons, List.filter_append, ih]
      cases hkind : vars.kind <;> cases kind
      all_goals simp [hkind, storageOf, Function.comp_def]

/-- The declaration of a member. -/
theorem mem_classDeclarations {tree : ClassTree} {kind : ClassVarKind} {name : String}
    {type : TypeName} {k : Nat} (h : (membersOf tree kind)[k]? = some (name, type)) :
    (⟨name, type, storageOf kind⟩ : Declaration) ∈ classDeclarations tree := by
  have hmem : (⟨name, type, storageOf kind⟩ : Declaration) ∈
      Table.declared (classDeclarations tree) (storageOf kind) := by
    rw [declared_class, List.mem_map]
    exact ⟨_, List.mem_of_getElem? h, rfl⟩
  exact (List.mem_filter.mp hmem).1

theorem getElem?_of_member? {tree : ClassTree} {kind : ClassVarKind} {name : String}
    {type : TypeName} {k : Nat} (h : member? tree kind name = some (type, k)) :
    (membersOf tree kind)[k]? = some (name, type) := by
  have hmember : ((membersOf tree kind).zipIdx.find? fun m => m.1.1 == name).map
      (fun m => (m.1.2, m.2)) = some (type, k) := h
  rw [Option.map_eq_some_iff] at hmember
  obtain ⟨⟨⟨name', type'⟩, k'⟩, hfind, heq⟩ := hmember
  obtain ⟨rfl, rfl⟩ := Prod.mk.inj heq
  have hname := List.find?_some hfind
  obtain rfl : name' = name := by simpa using hname
  exact List.mem_zipIdx_iff_getElem?.mp (List.mem_of_find?_eq_some hfind)

section Class

variable {tree : ClassTree} (hnodup : ((classDeclarations tree).map Declaration.name).Nodup)

include hnodup

/-- A member is found at its position. -/
theorem member?_of_getElem? {kind : ClassVarKind} {name : String} {type : TypeName} {k : Nat}
    (h : (membersOf tree kind)[k]? = some (name, type)) :
    member? tree kind name = some (type, k) := by
  cases hfind : member? tree kind name with
  | none =>
      have hnone : ((membersOf tree kind).zipIdx.find? fun m => m.1.1 == name).map
          (fun m => (m.1.2, m.2)) = none := hfind
      rw [Option.map_eq_none_iff, List.find?_eq_none] at hnone
      have hmem : ((name, type), k) ∈ (membersOf tree kind).zipIdx :=
        List.mem_zipIdx_iff_getElem?.mpr h
      simpa using hnone _ hmem
  | some found =>
      obtain ⟨type', k'⟩ := found
      have hget := getElem?_of_member? hfind
      have hsub : ((Table.declared (classDeclarations tree) (storageOf kind)).map
          Declaration.name).Sublist ((classDeclarations tree).map Declaration.name) :=
        List.Sublist.map _ List.filter_sublist
      have hnames := hsub.nodup hnodup
      rw [declared_class] at hnames
      obtain ⟨hk, hat⟩ := List.getElem?_eq_some_iff.mp h
      obtain ⟨hk', hat'⟩ := List.getElem?_eq_some_iff.mp hget
      obtain rfl : k' = k := by
        refine (List.getElem?_inj (by simpa using hk') hnames).mp ?_
        simp only [List.getElem?_map, hget, h, Option.map_some]
      rw [hat] at hat'
      cases hat'
      rfl

/-- An entry of the table is the member of one kind, and there is none of the other. -/
theorem member?_of_lookup? {name : String} {e : Entry}
    (h : (Table.ofClass tree).lookup? name = some e) :
    ∃ kind k, e.storage = storageOf kind ∧ e.index = (min k 65535).toUInt16 ∧
      member? tree kind name = some (e.type, k) ∧
      ∀ other, other ≠ kind → member? tree other name = none := by
  obtain ⟨rfl, k, hk, hindex⟩ := (Table.lookup?_eq_some_iff hnodup).mp h
  have hmem : e.toDeclaration ∈ classDeclarations tree :=
    (List.mem_filter.mp (List.mem_of_getElem? hk)).1
  obtain ⟨kind, hkind⟩ : ∃ kind, e.storage = storageOf kind := by
    unfold classDeclarations at hmem
    simp only [List.mem_flatMap, List.mem_map] at hmem
    obtain ⟨vars, -, name, -, heq⟩ := hmem
    have hstorage := congrArg Declaration.storage heq
    refine ⟨vars.kind, hstorage.symm.trans ?_⟩
    cases vars.kind <;> rfl
  rw [hkind, declared_class, List.getElem?_map, Option.map_eq_some_iff] at hk
  obtain ⟨⟨name, type⟩, hk, heq⟩ := hk
  have hname : name = e.name := congrArg Declaration.name heq
  have htype : type = e.type := congrArg Declaration.type heq
  subst hname htype
  refine ⟨kind, k, hkind, hindex, member?_of_getElem? hnodup hk, fun other hother => ?_⟩
  by_contra hsome
  obtain ⟨⟨type', k'⟩, hfound⟩ := Option.ne_none_iff_exists'.mp hsome
  have hmem' := mem_classDeclarations (getElem?_of_member? hfound)
  have hsame := List.inj_on_of_nodup_map hnodup hmem' hmem rfl
  have hstorage : storageOf other = storageOf kind :=
    (congrArg Declaration.storage hsame).trans hkind
  exact hother (storageOf_injective hstorage)

end Class

theorem member?_of_lookup?_eq_none {tree : ClassTree} {name : String}
    (h : (Table.ofClass tree).lookup? name = none) (kind : ClassVarKind) :
    member? tree kind name = none := by
  by_contra hsome
  obtain ⟨⟨type, k⟩, hfound⟩ := Option.ne_none_iff_exists'.mp hsome
  have hmem := mem_classDeclarations (getElem?_of_member? hfound)
  exact Table.lookup?_eq_none_iff.mp h _ hmem rfl

/-! ## Variables of a subroutine -/

/-- The declarations of a subroutine that get their values from its caller. -/
def parametersOf (className : String) (s : Subroutine) : List Declaration :=
  (if s.kind = .method then [⟨"this", .named className, .parameter⟩] else []) ++
    s.parameters.map fun p => ⟨p.name, p.type, .parameter⟩

/-- The declarations of a subroutine that start as zero. -/
def localsOf (s : Subroutine) : List Declaration :=
  s.locals.flatMap fun (vars : Locals) => vars.names.map fun name => ⟨name, vars.type, .locals⟩

theorem storage_of_mem_parametersOf {className : String} {s : Subroutine} {d : Declaration}
    (h : d ∈ parametersOf className s) : d.storage = .parameter := by
  rcases List.mem_append.mp h with h | h
  · split at h
    · rw [List.mem_singleton.mp h]
    · cases h
  · obtain ⟨p, -, rfl⟩ := List.mem_map.mp h
    rfl

theorem storage_of_mem_localsOf {s : Subroutine} {d : Declaration} (h : d ∈ localsOf s) :
    d.storage = .locals := by
  obtain ⟨vars, -, h⟩ := List.mem_flatMap.mp h
  obtain ⟨name, -, rfl⟩ := List.mem_map.mp h
  rfl

@[simp] theorem length_parametersOf (className : String) (s : Subroutine) :
    (parametersOf className s).length = valueCount s := by
  rw [parametersOf, valueCount, List.length_append, List.length_map]
  split <;> simp [Nat.add_comm]

@[simp] theorem length_localsOf (s : Subroutine) : (localsOf s).length = s.localCount := by
  simp [localsOf, Subroutine.localCount, List.length_flatMap]

theorem declared_parameter (className : String) (s : Subroutine) :
    Table.declared (subroutineDeclarations className s) .parameter = parametersOf className s := by
  have hparameters : ∀ d ∈ parametersOf className s, decide (d.storage = .parameter) = true :=
    fun d hd => by simp [storage_of_mem_parametersOf hd]
  have hlocals : ∀ d ∈ localsOf s, ¬decide (d.storage = .parameter) = true :=
    fun d hd => by simp [storage_of_mem_localsOf hd]
  have hall : subroutineDeclarations className s = parametersOf className s ++ localsOf s := rfl
  rw [Table.declared, hall, List.filter_append, List.filter_eq_self.mpr hparameters,
    List.filter_eq_nil_iff.mpr hlocals, List.append_nil]

theorem declared_locals (className : String) (s : Subroutine) :
    Table.declared (subroutineDeclarations className s) .locals = localsOf s := by
  have hparameters : ∀ d ∈ parametersOf className s, ¬decide (d.storage = .locals) = true :=
    fun d hd => by simp [storage_of_mem_parametersOf hd]
  have hlocals : ∀ d ∈ localsOf s, decide (d.storage = .locals) = true :=
    fun d hd => by simp [storage_of_mem_localsOf hd]
  have hall : subroutineDeclarations className s = parametersOf className s ++ localsOf s := rfl
  rw [Table.declared, hall, List.filter_append, List.filter_eq_self.mpr hlocals,
    List.filter_eq_nil_iff.mpr hparameters, List.nil_append]

/-- The slot of a variable of a subroutine in the frame of a call. -/
def slotOf (arguments locals : Nat) (e : Entry) : Nat :=
  if e.storage = .parameter then arguments + e.index.toNat else locals + e.index.toNat

theorem toNat_slotIndex {k : Nat} (hk : k ≤ 65535) : ((min k 65535).toUInt16).toNat = k := by
  simp only [Nat.toUInt16_eq, UInt16.toNat_ofNat']
  omega

section Subroutine

variable {className : String} {s : Subroutine}
  (hnodup : ((subroutineDeclarations className s).map Declaration.name).Nodup)
  (hvalues : valueCount s ≤ 65535) (hlocals : s.localCount ≤ 65535)

include hnodup hvalues hlocals

/-- An entry stands for a parameter or a local, at its position. -/
theorem declaration_of_lookup? {name : String} {e : Entry}
    (h : (Table.ofSubroutine className s).lookup? name = some e) :
    e.name = name ∧
      ((e.storage = .parameter ∧
          (parametersOf className s)[e.index.toNat]? = some e.toDeclaration) ∨
        (e.storage = .locals ∧ (localsOf s)[e.index.toNat]? = some e.toDeclaration)) := by
  obtain ⟨hname, k, hk, hindex⟩ := (Table.lookup?_eq_some_iff hnodup).mp h
  refine ⟨hname, ?_⟩
  have hall : subroutineDeclarations className s = parametersOf className s ++ localsOf s := rfl
  have hmem : e.toDeclaration ∈ parametersOf className s ++ localsOf s :=
    hall ▸ (List.mem_filter.mp (List.mem_of_getElem? hk)).1
  rcases List.mem_append.mp hmem with hmem | hmem
  · have hstorage := storage_of_mem_parametersOf hmem
    rw [hstorage, declared_parameter] at hk
    have hlt := (List.getElem?_eq_some_iff.mp hk).1
    rw [length_parametersOf] at hlt
    rw [hindex, toNat_slotIndex (by omega)]
    exact .inl ⟨hstorage, hk⟩
  · have hstorage := storage_of_mem_localsOf hmem
    rw [hstorage, declared_locals] at hk
    have hlt := (List.getElem?_eq_some_iff.mp hk).1
    rw [length_localsOf] at hlt
    rw [hindex, toNat_slotIndex (by omega)]
    exact .inr ⟨hstorage, hk⟩

/-- Where the slots are. -/
theorem slotOf_bounds {name : String} {e : Entry}
    (h : (Table.ofSubroutine className s).lookup? name = some e) (arguments locals : Nat) :
    (e.storage = .parameter ∧ slotOf arguments locals e = arguments + e.index.toNat ∧
        e.index.toNat < valueCount s) ∨
      (e.storage = .locals ∧ slotOf arguments locals e = locals + e.index.toNat ∧
        e.index.toNat < s.localCount) := by
  obtain ⟨-, ⟨hstorage, hk⟩ | ⟨hstorage, hk⟩⟩ :=
    declaration_of_lookup? hnodup hvalues hlocals h
  · have hlt := (List.getElem?_eq_some_iff.mp hk).1
    rw [length_parametersOf] at hlt
    exact .inl ⟨hstorage, by rw [slotOf, if_pos hstorage], hlt⟩
  · have hlt := (List.getElem?_eq_some_iff.mp hk).1
    rw [length_localsOf] at hlt
    exact .inr ⟨hstorage, by rw [slotOf, if_neg (by simp [hstorage])], hlt⟩

/-- Different variables have different slots. -/
theorem name_eq_of_slotOf_eq {name name' : String} {e e' : Entry} {arguments locals : Nat}
    (hframe : arguments + valueCount s ≤ locals)
    (h : (Table.ofSubroutine className s).lookup? name = some e)
    (h' : (Table.ofSubroutine className s).lookup? name' = some e')
    (hslot : slotOf arguments locals e = slotOf arguments locals e') : name = name' := by
  obtain ⟨hname, hdeclared⟩ := declaration_of_lookup? hnodup hvalues hlocals h
  obtain ⟨hname', hdeclared'⟩ := declaration_of_lookup? hnodup hvalues hlocals h'
  have hsame (hindex : e.index.toNat = e'.index.toNat) (hstorage : e.storage = e'.storage) :
      e.toDeclaration = e'.toDeclaration := by
    rw [hindex, hstorage] at hdeclared
    rcases hdeclared with ⟨hparameter, hk⟩ | ⟨hlocal, hk⟩
    · rcases hdeclared' with ⟨-, hk'⟩ | ⟨hlocal, -⟩
      · exact Option.some.inj (hk.symm.trans hk')
      · rw [hparameter] at hlocal
        cases hlocal
    · rcases hdeclared' with ⟨hparameter, -⟩ | ⟨-, hk'⟩
      · rw [hparameter] at hlocal
        cases hlocal
      · exact Option.some.inj (hk.symm.trans hk')
  have hdeclaration : e.toDeclaration = e'.toDeclaration := by
    rcases slotOf_bounds hnodup hvalues hlocals h arguments locals with
      ⟨hstorage, hat, hlt⟩ | ⟨hstorage, hat, hlt⟩
    · rcases slotOf_bounds hnodup hvalues hlocals h' arguments locals
        with ⟨hstorage', hat', hlt'⟩ | ⟨hstorage', hat', hlt'⟩
      · exact hsame (by omega) (hstorage.trans hstorage'.symm)
      · omega
    · rcases slotOf_bounds hnodup hvalues hlocals h' arguments locals
        with ⟨hstorage', hat', hlt'⟩ | ⟨hstorage', hat', hlt'⟩
      · omega
      · exact hsame (by omega) (hstorage.trans hstorage'.symm)
  rw [← hname, ← hname', hdeclaration]

omit hvalues hlocals in
/-- The names of the opening variables are those of the parameters and the locals. -/
theorem nodup_openingVars {explicit : List Int16} (hlength : explicit.length = s.parameters.length) :
    ((openingVars s explicit).reverse.map Prod.fst =
      s.parameters.map Parameter.name ++ (localsOf s).map Declaration.name) ∧
      ((openingVars s explicit).map Prod.fst).Nodup := by
  have hkeys : (openingVars s explicit).reverse.map Prod.fst =
      s.parameters.map Parameter.name ++ (localsOf s).map Declaration.name := by
    rw [openingVars, List.reverse_reverse, List.map_append, List.map_zipWith, localsOf,
      List.map_flatMap, List.map_flatMap]
    congr 1
    · apply List.ext_getElem
      · simp [hlength]
      · intro i hi hi'
        simp
    · congr 1
      funext vars
      simp [Function.comp_def]
  have hsub : (s.parameters.map Parameter.name ++ (localsOf s).map Declaration.name).Sublist
      ((subroutineDeclarations className s).map Declaration.name) := by
    have hall : subroutineDeclarations className s =
        (if s.kind = .method then [⟨"this", .named className, .parameter⟩] else []) ++
          (s.parameters.map fun p => ⟨p.name, p.type, .parameter⟩) ++ localsOf s := rfl
    rw [hall, List.map_append, List.map_append, List.append_assoc, List.map_map]
    exact List.sublist_append_right _ _
  refine ⟨hkeys, ?_⟩
  have hnames := hsub.nodup hnodup
  rw [← hkeys, List.map_reverse] at hnames
  exact List.nodup_reverse.mp hnames

/-- When a subroutine starts, its parameters have the values it is called with, and its locals are
zero. -/
theorem lookup_openingVars {name : String} {front explicit : List Int16} (hname : name ≠ "this")
    (hfront : front.length = if s.kind = .method then 1 else 0)
    (hlength : explicit.length = s.parameters.length) :
    (openingVars s explicit).lookup name =
      ((Table.ofSubroutine className s).lookup? name).map fun e =>
        (e.type, if e.storage = .parameter then (front ++ explicit)[e.index.toNat]?.getD 0 else 0) :=
    by
  obtain ⟨hkeys, hvars⟩ := nodup_openingVars hnodup hlength
  cases hlookup : (Table.ofSubroutine className s).lookup? name with
  | none =>
      have hall : subroutineDeclarations className s = parametersOf className s ++ localsOf s := rfl
      have hother := Table.lookup?_eq_none_iff.mp hlookup
      rw [hall] at hother
      apply lookup_of_notMem
      rw [← List.mem_reverse, ← List.map_reverse, hkeys, List.mem_append, not_or]
      constructor
      · intro hmem
        obtain ⟨p, hp, rfl⟩ := List.mem_map.mp hmem
        exact hother _ (List.mem_append_left _ (List.mem_append_right _ (List.mem_map_of_mem hp))) rfl
      · intro hmem
        obtain ⟨d, hd, rfl⟩ := List.mem_map.mp hmem
        exact hother _ (List.mem_append_right _ hd) rfl
  | some e =>
      obtain ⟨rfl, hdeclared⟩ := declaration_of_lookup? hnodup hvalues hlocals hlookup
      rw [Option.map_some]
      apply lookup_of_mem hvars
      rw [← List.mem_reverse, openingVars, List.reverse_reverse, List.mem_append]
      rcases hdeclared with ⟨hstorage, hk⟩ | ⟨hstorage, hk⟩
      · left
        rw [if_pos hstorage]
        set k := e.index.toNat
        have hpre : (if s.kind = .method then
            [(⟨"this", .named className, .parameter⟩ : Declaration)] else []).length =
              front.length := by
          rw [hfront]
          split <;> rfl
        have hbehind : front.length ≤ k := by
          by_contra hlt
          rw [parametersOf, List.getElem?_append_left (by omega)] at hk
          have hmem := List.mem_of_getElem? hk
          split at hmem
          · exact hname (congrArg Declaration.name (List.mem_singleton.mp hmem))
          · cases hmem
        rw [parametersOf, List.getElem?_append_right (by omega), hpre, List.getElem?_map,
          Option.map_eq_some_iff] at hk
        obtain ⟨p, hp, hdeclaration⟩ := hk
        have hpname : p.name = e.name := congrArg Declaration.name hdeclaration
        have hptype : p.type = e.type := congrArg Declaration.type hdeclaration
        have hlt := (List.getElem?_eq_some_iff.mp hp).1
        have hvalue : explicit[k - front.length]? = some explicit[k - front.length] :=
          List.getElem?_eq_getElem (by omega)
        rw [List.getElem?_append_right hbehind, hvalue, Option.getD_some, ← hpname, ← hptype]
        apply List.mem_of_getElem? (i := k - front.length)
        rw [List.getElem?_zipWith, hp, hvalue]
      · right
        rw [if_neg (by simp [hstorage])]
        have hmem := List.mem_of_getElem? hk
        obtain ⟨vars, hvars, hmem⟩ := List.mem_flatMap.mp hmem
        obtain ⟨name, hname, heq⟩ := List.mem_map.mp hmem
        have hsame : name = e.name := congrArg Declaration.name heq
        have htype : vars.type = e.type := congrArg Declaration.type heq
        exact List.mem_flatMap.mpr
          ⟨vars, hvars, List.mem_map.mpr ⟨name, hname, by rw [hsame, htype]⟩⟩

end Subroutine

end JackToolchain.Evaluation
