import JackToolchain.Scope.Table
import Mathlib.Data.List.Induction
import Mathlib.Data.List.Nodup

/-!
# Slots

Among distinct names, each has the entry of its declaration, and its slot is its position among the
declarations of the same storage. A name that is declared again has the position of its latest
declaration; names share a slot only behind the last one.
-/

namespace JackToolchain.Scope

namespace Counts

@[simp] theorem get_zero (s : Storage) : ({} : Counts).get s = 0 := by
  cases s <;> rfl

end Counts

namespace Table

variable {ds : List Declaration}

/-- The declarations of one storage. -/
def declared (ds : List Declaration) (s : Storage) : List Declaration :=
  ds.filter fun d => d.storage = s

theorem declared_concat (ds : List Declaration) (d : Declaration) (s : Storage) :
    declared (ds ++ [d]) s = declared ds s ++ if d.storage = s then [d] else [] := by
  by_cases h : d.storage = s
  · simp [declared, h]
  · simp [declared, h]

theorem ofDeclarations_concat (ds : List Declaration) (d : Declaration) :
    ofDeclarations (ds ++ [d]) = (ofDeclarations ds).define d := by
  rw [ofDeclarations, List.foldl_append]
  rfl

theorem get_counts_ofDeclarations (ds : List Declaration) (s : Storage) :
    (ofDeclarations ds).counts.get s = min (declared ds s).length 65535 := by
  induction ds using List.reverseRecOn with
  | nil => exact Counts.get_zero s
  | append_singleton ds d ih =>
      rw [ofDeclarations_concat, declared_concat, define]
      by_cases h : d.storage = s
      · subst h
        rw [Counts.get_bump_self, ih, Counts.next, if_pos rfl, List.length_append]
        simp only [List.length_singleton]
        omega
      · rw [Counts.get_bump_of_ne _ (Ne.symm h), ih, if_neg h, List.append_nil]

/-- What is found was declared. -/
theorem mem_of_lookup? {name : String} {e : Entry}
    (h : (ofDeclarations ds).lookup? name = some e) : e.toDeclaration ∈ ds := by
  induction ds using List.reverseRecOn with
  | nil => simp [ofDeclarations, lookup?] at h
  | append_singleton ds d ih =>
      rw [ofDeclarations_concat, lookup?_define] at h
      split at h
      · cases h
        exact List.mem_append_right ds (List.mem_singleton.mpr rfl)
      · exact List.mem_append_left [d] (ih h)

/-- What is found has a slot below the number of declarations of its storage, whether or not names
are declared again. -/
theorem index_lt_of_lookup? {name : String} {e : Entry}
    (h : (ofDeclarations ds).lookup? name = some e) :
    e.index.toNat < (declared ds e.storage).length := by
  induction ds using List.reverseRecOn with
  | nil => simp [ofDeclarations, lookup?] at h
  | append_singleton ds d ih =>
      rw [ofDeclarations_concat, lookup?_define] at h
      rw [declared_concat, List.length_append]
      split at h
      · cases h
        simp only [entryFor, get_counts_ofDeclarations, if_true, List.length_singleton,
          Nat.toUInt16_eq, UInt16.toNat_ofNat']
        omega
      · exact Nat.lt_add_right _ (ih h)

theorem lookup?_eq_none_iff {name : String} :
    (ofDeclarations ds).lookup? name = none ↔ ∀ d ∈ ds, d.name ≠ name := by
  induction ds using List.reverseRecOn with
  | nil => simp [ofDeclarations, lookup?]
  | append_singleton ds d ih =>
      rw [ofDeclarations_concat, lookup?_define]
      by_cases h : d.name = name
      · simp [h]
      · simp only [h, if_false, ih, List.mem_append, List.mem_singleton]
        constructor
        · rintro hds d' (hd' | rfl)
          · exact hds d' hd'
          · exact h
        · exact fun hds d' hd' => hds d' (.inl hd')

/-- An entry is that of a declaration, with the position of it among those of its storage. -/
theorem lookup?_eq_some_iff (hnodup : (ds.map Declaration.name).Nodup) {name : String}
    {e : Entry} :
    (ofDeclarations ds).lookup? name = some e ↔
      e.name = name ∧ ∃ k, (declared ds e.storage)[k]? = some e.toDeclaration ∧
        e.index = (min k 65535).toUInt16 := by
  induction ds using List.reverseRecOn with
  | nil => simp [ofDeclarations, lookup?, declared]
  | append_singleton ds d ih =>
      rw [List.map_append, List.nodup_append] at hnodup
      obtain ⟨hnodup, -, hnew⟩ := hnodup
      replace hnew : ∀ d' ∈ ds, d'.name ≠ d.name := fun d' hd' =>
        hnew _ (List.mem_map_of_mem hd') _ (by simp)
      rw [ofDeclarations_concat, lookup?_define]
      by_cases h : d.name = name
      · subst h
        rw [if_pos rfl, entryFor, get_counts_ofDeclarations, Option.some.injEq]
        constructor
        · rintro rfl
          refine ⟨rfl, (declared ds d.storage).length, ?_, rfl⟩
          rw [declared_concat, if_pos rfl]
          simp
        · rintro ⟨hname, k, hk, hindex⟩
          rw [declared_concat] at hk
          by_cases hlt : k < (declared ds e.storage).length
          · rw [List.getElem?_append_left hlt] at hk
            have hmem := List.mem_of_getElem? hk
            rw [declared, List.mem_filter] at hmem
            exact absurd hname (hnew _ hmem.1)
          · rw [List.getElem?_append_right (by omega)] at hk
            by_cases hstorage : d.storage = e.storage
            · rw [if_pos hstorage] at hk
              obtain ⟨hzero, heq⟩ : k - (declared ds e.storage).length = 0 ∧
                  d = e.toDeclaration := by
                cases hk' : k - (declared ds e.storage).length with
                | zero => exact ⟨rfl, by simpa [hk'] using hk⟩
                | succ n => simp [hk'] at hk
              have hlength : k = (declared ds d.storage).length := by
                rw [hstorage]
                omega
              cases e
              simp_all
            · simp [hstorage] at hk
      · rw [if_neg h, ih hnodup]
        refine and_congr_right fun hname => exists_congr fun k => and_congr_left fun _ => ?_
        rw [declared_concat]
        by_cases hstorage : d.storage = e.storage
        · rw [if_pos hstorage]
          constructor
          · intro hk
            rw [List.getElem?_append_left (List.getElem?_eq_some_iff.mp hk).1, hk]
          · intro hk
            have hlt : k < (declared ds e.storage).length := by
              by_contra hge
              rw [List.getElem?_append_right (by omega)] at hk
              have hmem := List.mem_of_getElem? hk
              rw [List.mem_singleton] at hmem
              rw [← hname, ← hmem] at h
              exact h rfl
            rwa [List.getElem?_append_left hlt] at hk
        · rw [if_neg hstorage, List.append_nil]

/-! ## Names that are declared again -/

/-- How many declarations of its storage stand in front of the latest declaration of a name. -/
def place (ds : List Declaration) (name : String) : Nat :=
  match ds.reverse.dropWhile fun d => d.name ≠ name with
  | [] => 0
  | d :: earlier => earlier.countP fun d' => d'.storage = d.storage

theorem place_concat (ds : List Declaration) (d : Declaration) (name : String) :
    place (ds ++ [d]) name = if d.name = name then (declared ds d.storage).length
      else place ds name := by
  rw [place, List.reverse_append, List.reverse_singleton, List.singleton_append]
  by_cases h : d.name = name
  · rw [if_pos h, List.dropWhile_cons_of_neg (by simp [h]), declared,
      ← List.countP_eq_length_filter]
    exact List.countP_reverse
  · rw [if_neg h, List.dropWhile_cons_of_pos (by simp [h]), place]

/-- The slot of a name is its place, as long as slots are counted. -/
theorem index_eq_place {name : String} {e : Entry}
    (h : (ofDeclarations ds).lookup? name = some e) :
    e.index = (min (place ds name) 65535).toUInt16 ∧
      place ds name < (declared ds e.storage).length := by
  induction ds using List.reverseRecOn with
  | nil => simp [ofDeclarations, lookup?] at h
  | append_singleton ds d ih =>
      rw [ofDeclarations_concat, lookup?_define] at h
      rw [place_concat, declared_concat, List.length_append]
      by_cases hname : d.name = name
      · rw [if_pos hname] at h ⊢
        cases h
        exact ⟨by rw [entryFor, get_counts_ofDeclarations], by simp [entryFor]⟩
      · rw [if_neg hname] at h ⊢
        obtain ⟨hindex, hlt⟩ := ih h
        exact ⟨hindex, Nat.lt_add_right _ hlt⟩

/-- No two names of a storage have the same place. -/
theorem place_ne {a b : String} (hne : a ≠ b) {e e' : Entry}
    (ha : (ofDeclarations ds).lookup? a = some e) (hb : (ofDeclarations ds).lookup? b = some e')
    (hstorage : e.storage = e'.storage) : place ds a ≠ place ds b := by
  induction ds using List.reverseRecOn with
  | nil => simp [ofDeclarations, lookup?] at ha
  | append_singleton ds d ih =>
      rw [ofDeclarations_concat, lookup?_define] at ha hb
      rw [place_concat, place_concat]
      by_cases hda : d.name = a
      · have hdb : d.name ≠ b := fun h => hne (hda.symm.trans h)
        rw [if_pos hda] at ha ⊢
        rw [if_neg hdb] at hb ⊢
        cases ha
        have hlt := (index_eq_place hb).2
        rw [← hstorage] at hlt
        exact Nat.ne_of_gt hlt
      · rw [if_neg hda] at ha ⊢
        by_cases hdb : d.name = b
        · rw [if_pos hdb] at hb ⊢
          cases hb
          have hlt := (index_eq_place ha).2
          rw [hstorage] at hlt
          exact Nat.ne_of_lt hlt
        · rw [if_neg hdb] at hb ⊢
          exact ih ha hb

/-- Two names of a storage have the same slot exactly if both come behind the last slot. -/
theorem index_eq_iff {a b : String} (hne : a ≠ b) {e e' : Entry}
    (ha : (ofDeclarations ds).lookup? a = some e) (hb : (ofDeclarations ds).lookup? b = some e')
    (hstorage : e.storage = e'.storage) :
    e.index = e'.index ↔ 65535 ≤ place ds a ∧ 65535 ≤ place ds b := by
  have hplaces := place_ne hne ha hb hstorage
  rw [(index_eq_place ha).1, (index_eq_place hb).1, ← UInt16.toNat_inj]
  simp only [Nat.toUInt16_eq, UInt16.toNat_ofNat']
  omega

end Table

end JackToolchain.Scope
