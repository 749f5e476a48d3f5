import JackToolchain.Proofs.Files.Sources

/-!
# The order of paths

Paths are ordered component by component, which is a linear order on components. In a directory that
is the order of names, so a listing is sorted.
-/

namespace JackToolchain.Files

/-! ## Components -/

/-- What tells components of one kind apart. -/
def Component.key : Component → String
  | .name text => text
  | _ => ""

theorem Component.compare_eq :
    Component.compare = compareLex (compareOn Component.rank) (compareOn Component.key) := by
  funext a b
  cases a <;> cases b
  all_goals rfl

instance : Std.TransCmp Component.compare := by
  rw [Component.compare_eq]
  infer_instance

namespace Path

theorem compareComponents_eq : compareComponents = List.compareLex Component.compare := by
  funext as bs
  induction as generalizing bs with
  | nil =>
      cases bs
      all_goals rfl
  | cons a as ih =>
      cases bs with
      | nil => rfl
      | cons b bs => rw [compareComponents, List.compareLex_cons_cons, ih]

instance : Std.TransCmp Path.compare := by
  have hpaths : Path.compare =
      fun a b : Path => List.compareLex Component.compare a.components b.components := by
    funext a b
    rw [Path.compare, compareComponents_eq]
  have htrans : Std.TransCmp (List.compareLex Component.compare) := inferInstance
  rw [hpaths]
  exact
    { eq_swap := fun {a b} => htrans.eq_swap
      isLE_trans := fun {a b c} => htrans.isLE_trans }

/-- Behind the same components, the last ones decide. -/
theorem compareComponents_append_singleton (front : List Component) (a b : Component) :
    compareComponents (front ++ [a]) (front ++ [b]) = a.compare b := by
  rw [compareComponents_eq]
  induction front with
  | nil =>
      rw [List.nil_append, List.nil_append, List.compareLex_cons_cons]
      cases a.compare b
      all_goals rfl
  | cons c rest ih => simp [List.compareLex_cons_cons, Std.ReflCmp.compare_self, ih]

/-! ## Names in a directory -/

/-- The components of a path in front of its last name. -/
def frontComponents (front : List Char) : List Component :=
  let pieces := (frontParts front).filter fun part => part != "" && part != "."
  let rest := pieces.map fun piece => if piece = ".." then Component.parent else .name piece
  if front.head? == some '/' then .root :: rest
  else if (frontParts front).head? = some "." then .current :: rest
  else rest

theorem EndsIn.components_eq {path : Path} {front name : List Char} (h : path.EndsIn front name)
    (hempty : name ≠ []) (hdot : name ≠ ['.']) (hdots : name ≠ ['.', '.']) :
    path.components = frontComponents front ++ [.name (String.ofList name)] := by
  have hempty : String.ofList name ≠ "" := fun heq => hempty (String.ofList_inj.mp heq)
  have hdot : String.ofList name ≠ "." := fun heq => hdot (String.ofList_inj.mp heq)
  have hdots : String.ofList name ≠ ".." := fun heq => hdots (String.ofList_inj.mp heq)
  have hhead : path.parts.head? = some "." ↔ (frontParts front).head? = some "." := by
    rw [h.parts_eq]
    cases frontParts front with
    | nil => simp [hdot]
    | cons part rest => simp
  have hpieces : path.pieces = ((frontParts front).filter fun part => part != "" && part != ".") ++
      [String.ofList name] := by
    simp [pieces, h.parts_eq, List.filter_append, hempty, hdot]
  simp only [components, frontComponents, hpieces, h.isAbsolute_eq, hhead, List.map_append,
    List.map_cons, List.map_nil, hdots, if_false]
  split
  · rfl
  · split
    · rfl
    · rfl

/-- What stands in front of the names in a directory. -/
def frontOf (directory : Path) : List Char :=
  if directory = "" || directory.endsWith '/' then directory.toList else directory.toList ++ ['/']

theorem endsIn_child (directory : Path) {name : String} (h : '/' ∉ name.toList) :
    (directory.child name).EndsIn (frontOf directory) name.toList := by
  unfold frontOf child
  split
  · rename_i hfront
    refine ⟨by simp, h, ?_⟩
    rcases Bool.or_eq_true_iff.mp hfront with hempty | hslash
    · left
      simpa using hempty
    · right
      rw [String.endsWith_char_eq_getLast?, beq_iff_eq, List.getLast?_eq_some_iff] at hslash
      exact hslash
  · exact ⟨by simp, h, .inr ⟨_, rfl⟩⟩

/-- In a directory, paths are ordered by their names. -/
theorem compare_child (directory : Path) {a b : String} (ha : IsName a) (hb : IsName b) :
    Path.compare (directory.child a) (directory.child b) = Ord.compare a b := by
  have hcomponents {n : String} (hn : IsName n) : (directory.child n).components =
      frontComponents (frontOf directory) ++ [.name n] := by
    rw [(endsIn_child directory hn.slashless).components_eq]
    · simp
    · intro heq
      exact hn.nonempty (by simpa using heq)
    · intro heq
      exact hn.noDot (String.toList_inj.mp heq)
    · intro heq
      exact hn.noDots (String.toList_inj.mp heq)
  rw [Path.compare, hcomponents ha, hcomponents hb, compareComponents_append_singleton]
  rfl

end Path

theorem Path.pairwise_children (directory : Path) {names : List String}
    (hsorted : names.Pairwise (· < ·)) (hnames : ∀ name ∈ names, IsName name) :
    (names.map directory.child).Pairwise fun a b => Path.compare a b = .lt := by
  rw [List.pairwise_map]
  refine (List.pairwise_iff_forall_sublist.mpr ?_ : names.Pairwise _)
  intro a b hab
  have hlt := List.pairwise_iff_forall_sublist.mp hsorted hab
  rw [compare_child directory (hnames a (hab.subset (by simp))) (hnames b (hab.subset (by simp)))]
  exact if_pos hlt

/-! ## Listings -/

namespace Tree

/-- Names of nodes are names. -/
structure WellNamed (t : Tree) : Prop where
  base : t.WellBased
  nodes : ∀ place ∈ t.nodes, ∀ name ∈ place, IsName name

/-- The name of a place directly inside a directory. -/
def nameIn? (directory place : Place) : Option String :=
  place.getLast?.filter fun _ => place.dropLast = directory

theorem eq_of_nameIn? {directory place : Place} {name : String}
    (h : nameIn? directory place = some name) : place = directory ++ [name] := by
  rw [nameIn?, Option.filter_eq_some_iff] at h
  obtain ⟨hlast, hfront⟩ := h
  rw [List.getLast?_eq_some_iff] at hlast
  obtain ⟨front, rfl⟩ := hlast
  have hfront : front = directory := by simpa using hfront
  rw [hfront]

/-- The names in a directory, as they are found. -/
def namesIn (t : Tree) (directory : Place) : List String :=
  t.nodes.toList.filterMap fun node => nameIn? directory node.1

theorem foldl_found (place : Place) {f : List String → Place × Node → List String}
    (hf : ∀ found node, f found node = (nameIn? place node.1).toList ++ found)
    (nodes : List (Place × Node)) (found : List String) :
    nodes.foldl f found =
      (nodes.filterMap fun node => nameIn? place node.1).reverse ++ found := by
  induction nodes generalizing found with
  | nil => rfl
  | cons node rest ih =>
      rw [List.foldl_cons, ih, hf, List.filterMap_cons]
      cases nameIn? place node.1
      all_goals simp

theorem list_of_place {t : Tree} {directory : Path} {place : Place}
    (hplace : t.place directory = .ok place) (hdirectory : t.isDirectoryAt place) :
    t.list directory = .ok ((t.namesIn place).reverse.mergeSort fun a b => a ≤ b) := by
  unfold Tree.list
  rw [hplace, ok_bind, hdirectory, Std.HashMap.fold_eq_foldl_toList,
    foldl_found place (fun found node => ?_), List.append_nil]
  · rfl
  · rw [nameIn?]
    cases node.1.getLast? with
    | none => rfl
    | some name =>
        by_cases hfront : node.1.dropLast = place
        · simp [hfront, Option.filter]
        · simp [hfront, Option.filter]

theorem list_eq {t : Tree} {directory : Path} {names : List String}
    (h : t.list directory = .ok names) :
    ∃ place, names = (t.namesIn place).reverse.mergeSort fun a b => a ≤ b := by
  cases hplace : t.place directory with
  | error fault => simp [Tree.list, hplace] at h
  | ok place =>
      cases hdirectory : t.isDirectoryAt place with
      | false =>
          unfold Tree.list at h
          rw [hplace, ok_bind, hdirectory] at h
          cases h
      | true =>
          rw [list_of_place hplace hdirectory] at h
          exact ⟨place, (Except.ok.inj h).symm⟩

/-- The names in a directory, in their order, are names and each comes once. -/
theorem list_sorted {t : Tree} (h : t.WellNamed) {directory : Path} {names : List String}
    (hlist : t.list directory = .ok names) :
    names.Pairwise (· < ·) ∧ ∀ name ∈ names, IsName name := by
  obtain ⟨place, rfl⟩ := list_eq hlist
  have hperm : ((t.namesIn place).reverse.mergeSort fun a b => decide (a ≤ b)).Perm
      (t.namesIn place) := (List.mergeSort_perm _ _).trans (List.reverse_perm _)
  have hnodup : (t.namesIn place).Nodup := by
    refine List.Pairwise.filterMap _ ?_ Std.HashMap.distinct_keys_toList
    intro a b hne n hn m hm heq
    rw [eq_of_nameIn? hn, eq_of_nameIn? hm, heq] at hne
    simp at hne
  refine ⟨?_, ?_⟩
  · have hle : ((t.namesIn place).reverse.mergeSort fun a b => decide (a ≤ b)).Pairwise
        fun a b => decide (a ≤ b) = true := by
      refine List.pairwise_mergeSort ?_ ?_ _
      · intro a b c hab hbc
        simp only [decide_eq_true_eq] at hab hbc ⊢
        exact String.le_trans hab hbc
      · intro a b
        simpa using String.le_total a b
    have hdistinct := hperm.nodup_iff.mpr hnodup
    refine (hle.and hdistinct).imp ?_
    intro a b hab
    simp only [decide_eq_true_eq] at hab
    obtain ⟨hle, hne⟩ := hab
    by_contra hlt
    exact hne (String.le_antisymm hle (String.not_lt.mp hlt))
  · intro name hname
    obtain ⟨node, hnode, hin⟩ := List.mem_filterMap.mp (hperm.mem_iff.mp hname)
    have hmem : node.1 ∈ t.nodes := by
      rw [Std.HashMap.mem_iff_isSome_getElem?,
        Std.HashMap.mem_toList_iff_getElem?_eq_some.mp hnode]
      rfl
    exact h.nodes node.1 hmem name (by simp [eq_of_nameIn? hin])

end Tree

end JackToolchain.Files
