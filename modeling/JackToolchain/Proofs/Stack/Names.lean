import JackToolchain.Stack.Text

/-!
# Well-formed commands

All names in commands that are read from a text are names of symbols, and their pushes and pops go
to words that there are.
-/

namespace JackToolchain.Stack

open JackToolchain.Text

/-- The names in a command are names of symbols. -/
def Command.WellNamed : Command → Prop
  | .label name | .goto name | .ifGoto name | .function name _ | .call name _ =>
    isName name.toList = true
  | _ => True

instance (c : Command) : Decidable c.WellNamed :=
  match c with
  | .label name | .goto name | .ifGoto name | .function name _ | .call name _ =>
    inferInstanceAs (Decidable (isName name.toList = true))
  | .push .. | .pop .. | .arithmetic _ | .return => inferInstanceAs (Decidable True)

/-- A sequence ends well when its parts do. -/
theorem exists_of_bind {ε α β : Type} {x : Except ε α} {f : α → Except ε β} {b : β}
    (h : (x >>= f) = .ok b) : ∃ a, x = .ok a ∧ f a = .ok b := by
  cases x with
  | error e => cases h
  | ok a => exact ⟨a, rfl, h⟩

theorem exists_of_map {ε α β : Type} {x : Except ε α} {f : α → β} {b : β}
    (h : f <$> x = .ok b) : ∃ a, x = .ok a ∧ f a = b := by
  cases x with
  | error e => cases h
  | ok a => exact ⟨a, rfl, Except.ok.inj h⟩

theorem isName_of_readName {text : List Char} {name : String} (h : readName text = .ok name) :
    isName name.toList = true := by
  unfold readName at h
  split at h
  · rename_i hname
    cases h
    rwa [String.toList_ofList]
  · cases h

/-- A command that can be written: its names are names of symbols, and a push or pop means
something. -/
structure Command.WellFormed (c : Command) : Prop where
  named : c.WellNamed
  access : c.violation? = none

instance (c : Command) : Decidable c.WellFormed :=
  decidable_of_iff (c.WellNamed ∧ c.violation? = none)
    ⟨fun h => ⟨h.1, h.2⟩, fun h => ⟨h.named, h.access⟩⟩

theorem wellFormed_of_readAccess {pops : Bool} {segment index : List Char} {command : Command}
    (h : readAccess pops segment index = .ok command) : command.WellFormed := by
  obtain ⟨found, _, h⟩ := exists_of_bind h
  obtain ⟨number, _, h⟩ := exists_of_bind h
  split at h
  · cases h
  · rename_i haccess
    cases pops
    · cases h
      exact ⟨trivial, haccess⟩
    · cases h
      exact ⟨trivial, haccess⟩

theorem wellFormed_of_counted (make : String → UInt16 → Command) {name count : List Char}
    {command : Command}
    (hmake : ∀ name n, isName name.toList = true → (make name n).WellFormed)
    (h : (do return make (← readName name) (← readNumber count)) = Except.ok command) :
    command.WellFormed := by
  obtain ⟨found, hname, h⟩ := exists_of_bind h
  obtain ⟨number, _, h⟩ := exists_of_bind h
  cases h
  exact hmake found number (isName_of_readName hname)

theorem wellFormed_of_named (make : String → Command) {name : List Char} {command : Command}
    (hmake : ∀ name, isName name.toList = true → (make name).WellFormed)
    (h : make <$> readName name = Except.ok command) : command.WellFormed := by
  obtain ⟨found, hname, rfl⟩ := exists_of_map h
  exact hmake found (isName_of_readName hname)

theorem wellFormed_of_readCommand {text : List Char} {command : Command}
    (h : readCommand text = .ok command) : command.WellFormed := by
  unfold readCommand at h
  simp only at h
  split at h
  · split at h
    · exact wellFormed_of_readAccess h
    · exact wellFormed_of_readAccess h
    · exact wellFormed_of_counted .function (fun name n hname => ⟨hname, rfl⟩) h
    · exact wellFormed_of_counted .call (fun name n hname => ⟨hname, rfl⟩) h
    · cases h
  · split at h
    · exact wellFormed_of_named .label (fun name hname => ⟨hname, rfl⟩) h
    · exact wellFormed_of_named .goto (fun name hname => ⟨hname, rfl⟩) h
    · exact wellFormed_of_named .ifGoto (fun name hname => ⟨hname, rfl⟩) h
    · cases h
  · split at h
    · cases h
      exact ⟨trivial, rfl⟩
    · split at h
      · cases h
        exact ⟨trivial, rfl⟩
      · cases h
  · cases h

theorem wellFormed_of_readLines {done commands : List Command} {line : Nat} {texts : List String}
    (h : readLines done line texts = .ok commands) (hdone : ∀ c ∈ done, c.WellFormed) :
    ∀ c ∈ commands, c.WellFormed := by
  induction texts generalizing done line with
  | nil =>
      cases h
      intro c hc
      exact hdone c (List.mem_reverse.mp hc)
  | cons raw rest ih =>
      unfold readLines at h
      cases hline : readLine raw line with
      | error e => simp [hline] at h
      | ok found =>
          cases found with
          | none =>
              simp only [hline] at h
              exact ih h hdone
          | some command =>
              simp only [hline] at h
              refine ih h fun c hc => ?_
              rcases List.mem_cons.mp hc with rfl | hc
              · unfold readLine at hline
                simp only at hline
                split at hline
                · cases hline
                · split at hline
                  · rename_i hcommand
                    cases hline
                    exact wellFormed_of_readCommand hcommand
                  · cases hline
              · exact hdone c hc

/-- Commands that are read can be written. -/
theorem wellFormed_of_read {text : String} {commands : List Command}
    (h : read text = .ok commands) : ∀ c ∈ commands, c.WellFormed :=
  wellFormed_of_readLines h (by simp)

theorem wellNamed_of_read {text : String} {commands : List Command}
    (h : read text = .ok commands) : ∀ c ∈ commands, c.WellNamed :=
  fun c hc => (wellFormed_of_read h c hc).named

end JackToolchain.Stack
