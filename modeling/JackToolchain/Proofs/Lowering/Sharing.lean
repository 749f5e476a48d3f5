import JackToolchain.Proofs.Lists
import JackToolchain.Proofs.Lowering.Accesses

/-!
# Variables that share a slot

The variables that a subroutine sees have slots of their own, as long as no storage has more
declarations than there are slots. Behind the last slot all variables of a storage are the same
one, except that locals never come so far, nor fields of a class with a constructor.
-/

namespace JackToolchain.Lowering

open JackToolchain.Stack JackToolchain.Syntax JackToolchain.Scope

/-- The declarations of the scope that a storage belongs to. -/
def scopeOf (tree : ClassTree) (s : Subroutine) : Storage → List Declaration
  | .static | .field => classDeclarations tree
  | .parameter | .locals => subroutineDeclarations tree.name s

variable {tree : ClassTree} {s : Subroutine} {name a b : String} {e e' : Entry}

/-- A variable is found in the scope of its storage. -/
theorem lookup?_of_resolve? (h : (contextOf tree s).resolve? name = some e) :
    (Table.ofDeclarations (scopeOf tree s e.storage)).lookup? name = some e := by
  change ((Table.ofSubroutine tree.name s).lookup? name).or ((Table.ofClass tree).lookup? name) =
    some e at h
  rcases Option.or_eq_some_iff.mp h with h | ⟨-, h⟩
  · rcases storage_of_mem_subroutineDeclarations (Table.mem_of_lookup? h) with hstorage | hstorage
    all_goals
      rw [hstorage]
      exact h
  · rcases storage_of_mem_classDeclarations (Table.mem_of_lookup? h) with hstorage | hstorage
    all_goals
      rw [hstorage]
      exact h

/-- Storages are in segments of their own. -/
theorem segment_eq_iff : e.segment = e'.segment ↔ e.storage = e'.storage := by
  unfold Entry.segment
  cases e.storage <;> cases e'.storage <;> simp [Storage.segment]

/-- How the slots of two variables are related that a subroutine sees under different names. -/
structure Slots (tree : ClassTree) (s : Subroutine) (a b : String) (e e' : Entry) : Prop where
  /-- They share a slot exactly if they are of one storage and both come behind its last slot. -/
  shared_iff : e.segment = e'.segment ∧ e.index = e'.index ↔ e.storage = e'.storage ∧
    65535 ≤ Table.place (scopeOf tree s e.storage) a ∧
    65535 ≤ Table.place (scopeOf tree s e'.storage) b
  /-- Then there are more declarations than slots. -/
  crowded : e.segment = e'.segment → e.index = e'.index →
    65536 < (Table.declared (scopeOf tree s e.storage) e.storage).length
  /-- Locals are counted before they are declared, and so are fields for a constructor. -/
  storage : e.segment = e'.segment → e.index = e'.index → e.storage = .parameter ∨
    e.storage = .static ∨ e.storage = .field ∧ ∀ other ∈ tree.subroutines, other.kind ≠ .constructor

theorem length_declared_field (tree : ClassTree) (s : Subroutine) :
    (Table.declared (scopeOf tree s .field) .field).length = tree.fieldCount :=
  length_declared_class tree .field

theorem length_declared_locals (tree : ClassTree) (s : Subroutine) :
    (Table.declared (scopeOf tree s .locals) .locals).length = s.localCount := by
  change (Table.declared (subroutineDeclarations tree.name s) .locals).length = _
  rw [Evaluation.declared_locals, Evaluation.length_localsOf]

/-- The fields of a class with a constructor have slots. -/
theorem fieldCount_le_of_lowerClass {commands : List Command}
    (h : (lowerClass tree).result = .ok commands) (hs : s ∈ tree.subroutines)
    (hkind : s.kind = .constructor) : tree.fieldCount ≤ 65535 := by
  obtain ⟨blocks, hblocks, -⟩ := yields_of_lowerClass h
  obtain ⟨block, -, labels, body, hblock, -⟩ := exists_right_of_forall₂ hblocks.forall₂ hs
  exact hblock.opening_eq.2 hkind

/-- The locals of a subroutine have slots. -/
theorem localCount_le_of_lowerClass {commands : List Command}
    (h : (lowerClass tree).result = .ok commands) (hs : s ∈ tree.subroutines) :
    s.localCount ≤ 65535 := by
  obtain ⟨blocks, hblocks, -⟩ := yields_of_lowerClass h
  obtain ⟨block, -, labels, body, hblock, -⟩ := exists_right_of_forall₂ hblocks.forall₂ hs
  exact hblock.count

theorem slots_of_resolve? {commands : List Command} (h : (lowerClass tree).result = .ok commands)
    (hs : s ∈ tree.subroutines) (hne : a ≠ b) (ha : (contextOf tree s).resolve? a = some e)
    (hb : (contextOf tree s).resolve? b = some e') : Slots tree s a b e e' := by
  replace ha := lookup?_of_resolve? ha
  replace hb := lookup?_of_resolve? hb
  have hshared : e.segment = e'.segment ∧ e.index = e'.index ↔ e.storage = e'.storage ∧
      65535 ≤ Table.place (scopeOf tree s e.storage) a ∧
      65535 ≤ Table.place (scopeOf tree s e'.storage) b := by
    rw [segment_eq_iff]
    refine and_congr_right fun hstorage => ?_
    rw [← hstorage] at hb ⊢
    exact Table.index_eq_iff hne ha hb hstorage
  have hcrowded (hsegment : e.segment = e'.segment) (hindex : e.index = e'.index) :
      65536 < (Table.declared (scopeOf tree s e.storage) e.storage).length := by
    obtain ⟨hstorage, hlate, hlate'⟩ := hshared.mp ⟨hsegment, hindex⟩
    have hplace := (Table.index_eq_place ha).2
    rw [← hstorage] at hb hlate'
    have hplace' := (Table.index_eq_place hb).2
    rw [← hstorage] at hplace'
    have hapart := Table.place_ne hne ha hb hstorage
    omega
  refine ⟨hshared, hcrowded, fun hsegment hindex => ?_⟩
  have hmany := hcrowded hsegment hindex
  cases hstorage : e.storage with
  | parameter => exact .inl rfl
  | static => exact .inr (.inl rfl)
  | field =>
      refine .inr (.inr ⟨rfl, fun other hother hkind => ?_⟩)
      have hcount := fieldCount_le_of_lowerClass h hother hkind
      rw [hstorage, length_declared_field] at hmany
      omega
  | locals =>
      have hcount := localCount_le_of_lowerClass h hs
      rw [hstorage, length_declared_locals] at hmany
      omega

/-- In a class that is lowered, different names of a scope have different slots unless they come
behind the last slot of their storage, where all of them share it. The slots that a scope counts are
the declarations of a storage, up to that number. -/
theorem slots_of_lowerClass {commands : List Command}
    (h : (lowerClass tree).result = .ok commands) :
    (∀ s ∈ tree.subroutines, ∀ a b e e', a ≠ b → (contextOf tree s).resolve? a = some e →
      (contextOf tree s).resolve? b = some e' → Slots tree s a b e e') ∧
    ∀ (ds : List Declaration) (storage : Storage),
      (Table.ofDeclarations ds).counts.get storage = min (Table.declared ds storage).length 65535 :=
  ⟨fun _ hs _ _ _ _ hne ha hb => slots_of_resolve? h hs hne ha hb,
    Table.get_counts_ofDeclarations⟩

/-! ## A crowded class -/

/-- Static variables of one name, and two more. -/
def crowd (n : Nat) : List Declaration :=
  List.replicate n ⟨"x", .int, .static⟩ ++ [⟨"g", .int, .static⟩] ++ [⟨"h", .int, .static⟩]

def crowdedMain : Subroutine :=
  let at0 : Source.Span := default
  { kind := .function, returnType := some .int, name := "main", parameters := [], locals := []
    body := [.letVariable "g" (.integer 1 at0) at0, .letVariable "h" (.integer 2 at0) at0,
      .return (some (.var "g" at0)) at0]
    span := at0 }

def crowded (n : Nat) : ClassTree where
  name := "Main"
  classVars := [⟨.static, .int, (crowd n).map Declaration.name, default⟩]
  subroutines := [crowdedMain]
  span := default

/-- The last slot of static variables. -/
def lastStatic (name : String) : Entry := ⟨⟨name, .int, .static⟩, 65535⟩

theorem classDeclarations_crowded (n : Nat) : classDeclarations (crowded n) = crowd n := by
  have hstatic : ∀ d ∈ crowd n, (⟨d.name, .int, .static⟩ : Declaration) = d := by
    simp only [crowd, List.mem_append, List.mem_replicate, List.mem_singleton]
    rintro d ((⟨-, rfl⟩ | rfl) | rfl)
    all_goals rfl
  simp only [classDeclarations, crowded, List.flatMap_cons, List.flatMap_nil, List.append_nil,
    List.map_map]
  exact (List.map_congr_left hstatic).trans (List.map_id (crowd n))

theorem resolve?_crowded {n : Nat} (hn : 65535 ≤ n) {name : String}
    (h : name = "g" ∨ name = "h") :
    (contextOf (crowded n) crowdedMain).resolve? name = some (lastStatic name) := by
  have hfull (ds : List Declaration) (d : Declaration) (hd : d.storage = .static)
      (hlength : 65535 ≤ (Table.declared ds .static).length) :
      (Table.ofDeclarations ds).entryFor d = { d with index := 65535 } := by
    rw [Table.entryFor, hd, Table.get_counts_ofDeclarations, min_eq_right hlength]
    rfl
  have hmany : (Table.declared (List.replicate n (⟨"x", .int, .static⟩ : Declaration))
      .static).length = n := by
    rw [Table.declared, List.filter_replicate_of_pos rfl, List.length_replicate]
  have hlocal : (Table.ofSubroutine "Main" crowdedMain).lookup? name = none :=
    Table.lookup?_eq_none_iff.mpr (by simp [subroutineDeclarations, crowdedMain])
  have hclass : (Table.ofDeclarations (crowd n)).lookup? name = some (lastStatic name) := by
    rw [crowd, Table.ofDeclarations_concat, Table.lookup?_define,
      Table.ofDeclarations_concat, Table.lookup?_define, ← Table.ofDeclarations_concat]
    rcases h with rfl | rfl
    · rw [if_neg (by decide), if_pos rfl, hfull _ _ rfl (by rwa [hmany])]
      rfl
    · rw [if_pos rfl, hfull _ _ rfl ?_]
      · rfl
      · rw [Table.declared_concat, List.length_append, hmany]
        exact Nat.le_add_right_of_le hn
  change ((Table.ofSubroutine "Main" crowdedMain).lookup? name).or
    ((Table.ofDeclarations (classDeclarations (crowded n))).lookup? name) = _
  rw [hlocal, classDeclarations_crowded, hclass]
  rfl

def crowdedCommands : List Command :=
  [.function "Main.main" 0, .push .constant 1, .pop .static 65535, .push .constant 2,
    .pop .static 65535, .push .static 65535, .return]

theorem lowerClass_crowded {n : Nat} (hn : 65535 ≤ n) :
    (lowerClass (crowded n)).result = .ok crowdedCommands := by
  have hlowered : (lowerSubroutine (crowded n) (.ofClass (crowded n)) {} crowdedMain).1 =
      .ofList crowdedCommands := by
    have hfront : lowerSubroutine (crowded n) (.ofClass (crowded n)) {} crowdedMain =
        lowerStatements (contextOf (crowded n) crowdedMain) (.ofList [.function "Main.main" 0]) {}
          crowdedMain.body := rfl
    have hbody : crowdedMain.body = [.letVariable "g" (.integer 1 default) default,
        .letVariable "h" (.integer 2 default) default, .return (some (.var "g" default)) default] :=
      rfl
    rw [hfront, hbody]
    simp only [lowerStatements, lowerStatement, lowerExpression, withEntry,
      resolve?_crowded hn (.inl rfl), resolve?_crowded hn (.inr rfl)]
    rfl
  have hsubroutines (events : Array Diagnostics.Event) :
      (lowerSubroutines (crowded n) (.ofClass (crowded n)) {} #[] events [crowdedMain]).result =
        .ok crowdedCommands := by
    simp [lowerSubroutines, hlowered, Emission.settle, Emission.ofList, crowdedCommands,
      Limits.maxCommandsPerClass]
  simp only [lowerClass]
  rw [show (crowded n).subroutines = [crowdedMain] from rfl, hsubroutines]

/-- The two variables behind the last slot are one. -/
theorem slots_of_crowded :
    ∃ commands e e', (lowerClass (crowded 65535)).result = .ok commands ∧
      (contextOf (crowded 65535) crowdedMain).resolve? "g" = some e ∧
      (contextOf (crowded 65535) crowdedMain).resolve? "h" = some e' ∧
      Slots (crowded 65535) crowdedMain "g" "h" e e' ∧
      e.segment = e'.segment ∧ e.index = e'.index := by
  have hg := resolve?_crowded le_rfl (.inl rfl)
  have hh := resolve?_crowded le_rfl (.inr rfl)
  have hlowered := lowerClass_crowded le_rfl
  exact ⟨_, _, _, hlowered, hg, hh,
    (slots_of_lowerClass hlowered).1 crowdedMain (List.mem_singleton.mpr rfl) "g" "h" _ _
      (by decide) hg hh, rfl, rfl⟩

end JackToolchain.Lowering
