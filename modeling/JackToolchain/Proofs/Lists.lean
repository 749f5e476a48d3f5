import Mathlib.Data.List.Forall2

/-!
# Lists in step

What belongs to an item of one of two lists that go in step.
-/

namespace JackToolchain

variable {α β : Type} {R : α → β → Prop} {front : List α} {back : List β}

theorem exists_of_forall₂ (h : List.Forall₂ R front back) {i : Nat} {x : α}
    (hx : front[i]? = some x) : ∃ y, back[i]? = some y ∧ R x y := by
  induction h generalizing i with
  | nil => simp at hx
  | cons hhead rest ih =>
      cases i with
      | zero =>
          cases hx
          exact ⟨_, rfl, hhead⟩
      | succ i => exact ih hx

theorem exists_right_of_forall₂ (h : List.Forall₂ R front back) {x : α} (hx : x ∈ front) :
    ∃ y ∈ back, R x y := by
  obtain ⟨i, hi⟩ := List.mem_iff_getElem?.mp hx
  obtain ⟨y, hy, hxy⟩ := exists_of_forall₂ h hi
  exact ⟨y, List.mem_of_getElem? hy, hxy⟩

theorem exists_left_of_forall₂ (h : List.Forall₂ R front back) {y : β} (hy : y ∈ back) :
    ∃ x ∈ front, R x y :=
  exists_right_of_forall₂ h.flip hy

end JackToolchain
