import JackToolchain.Proofs.Token.Feeding

/-!
# Calls of a lexer that is fed

A caller feeds texts, asks for tokens and ends the input, in any order. What all calls return
together is a front of the tokens of the text that was fed. The call that meets an error keeps the
tokens to itself that it had completed, and no later call returns them.
-/

namespace JackToolchain.Lexer

open JackToolchain.Source JackToolchain.Token

/-- What a caller asks of a lexer that is fed. -/
inductive Call
  | feed (text : List Char)
  | next
  | finish
  deriving DecidableEq, Repr

namespace Call

/-- The tokens that the call returns, or the error that it reports. -/
def answer : Call → Lexer → Except LexError (List Token) × Lexer
  | .feed text, lx => lx.feed text
  | .next, lx =>
    match lx.next with
    | (.ok t?, lx') => (.ok t?.toList, lx')
    | (.error e, lx') => (.error e, lx')
  | .finish, lx => lx.finish

/-- The text that the call adds; nothing is taken once the input has ended. -/
def text : Call → Bool → List Char
  | .feed text, ended => if ended then [] else text
  | .next, _ | .finish, _ => []

/-- Whether the input has ended after the call. -/
def ends : Call → Bool → Bool
  | .finish, _ => true
  | .feed _, ended | .next, ended => ended

/-- The tokens that the call has completed when it meets an error. -/
def withheld : Call → Lexer → List Token
  | .feed text, lx => (lx.arrive text).drain.1
  | .next, _ => []
  | .finish, lx => { lx with chunks := none, finished := true }.drain.1

end Call

/-- The tokens of an answer. -/
def tokensOf : Except LexError (List Token) → List Token
  | .ok tokens => tokens
  | .error _ => []

/-- The answer reports no error of the text. -/
def Untroubled (answer : Except LexError (List Token)) : Prop :=
  ∀ e, answer = .error e → e.isMisuse = true

theorem untroubled_ok (tokens : List Token) : Untroubled (.ok tokens) :=
  fun e he => by cases he

theorem untroubled_inputClosed : Untroubled (.error .inputClosed) :=
  fun e he => by cases he; rfl

/-- The answers to some calls, one after the other. -/
def answers : List Call → Lexer → List (Except LexError (List Token))
  | [], _ => []
  | c :: calls, lx => (c.answer lx).1 :: answers calls (c.answer lx).2

/-- The lexer after some calls. -/
def after (calls : List Call) (lx : Lexer) : Lexer :=
  calls.foldl (fun lx c => (c.answer lx).2) lx

/-- All tokens that some answers return. -/
def returned (answers : List (Except LexError (List Token))) : List Token :=
  answers.flatMap tokensOf

/-- The text that some calls feed, if the input has ended before them or not. -/
def textFed : Bool → List Call → List Char
  | _, [] => []
  | ended, c :: calls => c.text ended ++ textFed (c.ends ended) calls

variable {lx : Lexer} {calls : List Call} {e : LexError}

theorem textFed_ended (calls : List Call) : textFed true calls = [] := by
  induction calls with
  | nil => rfl
  | cons c calls ih => cases c <;> simpa [textFed, Call.text, Call.ends] using ih

theorem textFed_append (ended : Bool) (calls later : List Call) :
    textFed ended (calls ++ later) =
      textFed ended calls ++
        textFed (calls.foldl (fun ended c => c.ends ended) ended) later := by
  induction calls generalizing ended with
  | nil => rfl
  | cons c calls ih => simp [textFed, ih]

/-! ## One call -/

theorem feed_of_ended (hf : lx.finished = true) (text : List Char) :
    lx.feed text = (.error .inputClosed, lx) := if_pos hf

theorem feed_of_open (hf : lx.finished = false) (text : List Char) :
    lx.feed text = (lx.arrive text).drained := if_neg (by simp [hf])

/-- A call returns what it completes or is refused, or an error breaks it off. -/
theorem Call.passes_or_breaks (c : Call) (hc : lx.chunks = none) :
    (Untroubled (c.answer lx).1 ∧
      Passes lx (c.text lx.finished) (tokensOf (c.answer lx).1) (c.answer lx).2) ∨
    ∃ e, (c.answer lx).1 = .error e ∧
      Breaks lx (c.text lx.finished) (c.withheld lx) e (c.answer lx).2 := by
  cases c with
  | feed text =>
      by_cases hf : lx.finished = true
      · refine .inl ?_
        simp only [answer, feed_of_ended hf, Call.text, hf, if_true]
        exact ⟨untroubled_inputClosed, .refl hc⟩
      · have hopen : lx.finished = false := by simpa using hf
        have harrive := Passes.arrive hc hopen text
        simp only [answer, feed_of_open hopen, Call.text, hopen, withheld]
        have hchunks : (lx.arrive text).chunks = none := hc
        have hfin : (lx.arrive text).drain.2.2.finished = lx.finished := (kept_of_drain hchunks).2
        rcases drained_cases hchunks with ⟨hok, hpasses⟩ | ⟨e, herr, hbreaks⟩
        · have hboth := harrive.trans hpasses
          rw [List.append_nil, List.nil_append] at hboth
          rw [hok]
          exact .inl ⟨untroubled_ok _, hboth⟩
        · have hboth := harrive.breaks hbreaks fun hf' => ⟨hfin.trans hf', rfl⟩
          rw [List.append_nil, List.nil_append] at hboth
          rw [herr]
          exact .inr ⟨e, rfl, hboth⟩
  | next =>
      match hr : lx.next with
      | (.ok none, lx') =>
          simp only [answer, hr]
          exact .inl ⟨untroubled_ok _, .of_none hc hr⟩
      | (.ok (some t), lx') =>
          simp only [answer, hr]
          exact .inl ⟨untroubled_ok _, .of_token hc hr⟩
      | (.error e, lx') =>
          obtain ⟨-, hfinished, hlexical⟩ := kept_of_next hc hr
          simp only [answer, hr]
          refine .inr ⟨e, rfl, .of_error hc hr, hlexical e rfl, fun text ht => ?_⟩
          obtain ⟨e', he, hwhole⟩ :=
            next_error_complete hc (fun hf => ht (hfinished.trans hf)) hr
          exact ⟨e', he, drain_of_error hwhole⟩
  | finish =>
      have hclose := Passes.close lx
      have hchunks := hclose.chunks
      simp only [answer, Lexer.finish, withheld]
      have hfin := (kept_of_drain hchunks).2
      rcases drained_cases hchunks with ⟨hok, hpasses⟩ | ⟨e, herr, hbreaks⟩
      · rw [hok]
        exact .inl ⟨untroubled_ok _, hclose.trans hpasses⟩
      · rw [herr]
        exact .inr ⟨e, rfl, hclose.breaks hbreaks fun _ => ⟨hfin, rfl⟩⟩

/-- Nothing more is returned after an error of the text. -/
theorem Call.answer_of_stuck (c : Call) (h : Stuck lx) :
    tokensOf (c.answer lx).1 = [] ∧ Stuck (c.answer lx).2 := by
  have hdrained (lx : Lexer) (h : Stuck lx) : tokensOf lx.drained.1 = [] ∧ Stuck lx.drained.2 := by
    obtain ⟨hnone, hstuck⟩ := h.drain
    rcases drained_cases h.chunks with ⟨hok, -⟩ | ⟨e, herr, -⟩
    · rw [hok]
      exact ⟨hnone, hstuck⟩
    · rw [herr]
      exact ⟨rfl, hstuck⟩
  cases c with
  | feed text =>
      by_cases hf : lx.finished = true
      · simp only [answer, feed_of_ended hf]
        exact ⟨rfl, h⟩
      · have hopen : lx.finished = false := by simpa using hf
        simp only [answer, feed_of_open hopen]
        exact hdrained _ (h.arrive hopen text)
  | next =>
      obtain ⟨r, lx', hnext, hstuck, htoken⟩ := h.asked
      match r, hnext, htoken with
      | .ok none, hnext, _ =>
          simp only [answer, hnext]
          exact ⟨rfl, hstuck⟩
      | .ok (some t), _, htoken => exact absurd rfl (htoken t)
      | .error e, hnext, _ =>
          simp only [answer, hnext]
          exact ⟨rfl, hstuck⟩
  | finish => exact hdrained _ h.close

/-! ## All calls -/

theorem returned_of_stuck (h : Stuck lx) : returned (answers calls lx) = [] := by
  induction calls generalizing lx with
  | nil => rfl
  | cons c calls ih =>
      obtain ⟨hnone, hstuck⟩ := c.answer_of_stuck h
      simp only [answers, returned, List.flatMap_cons, hnone, List.nil_append]
      exact ih hstuck

theorem Call.finished_answer (c : Call) (hc : lx.chunks = none) :
    (c.answer lx).2.finished = c.ends lx.finished := by
  cases c with
  | feed text =>
      by_cases hf : lx.finished = true
      · simp only [answer, feed_of_ended hf]
        rfl
      · simp only [answer, feed_of_open (by simpa using hf), drained_snd]
        have hchunks : (lx.arrive text).chunks = none := hc
        exact (kept_of_drain hchunks).2
  | next =>
      match hr : lx.next with
      | (.ok t?, lx') =>
          simp only [answer, hr]
          exact (kept_of_next hc hr).2.1
      | (.error e, lx') =>
          simp only [answer, hr]
          exact (kept_of_next hc hr).2.1
  | finish =>
      simp only [answer, Lexer.finish, drained_snd]
      exact (kept_of_drain (Passes.close lx).chunks).2

/-- Calls that meet no error of the text return what they complete. -/
theorem passes_answers (hc : lx.chunks = none)
    (hquiet : ∀ a ∈ answers calls lx, Untroubled a) :
    Passes lx (textFed lx.finished calls) (returned (answers calls lx)) (after calls lx) ∧
      (after calls lx).finished = calls.foldl (fun ended c => c.ends ended) lx.finished := by
  induction calls generalizing lx with
  | nil => exact ⟨.refl hc, rfl⟩
  | cons c calls ih =>
      obtain ⟨hfirst, hrest⟩ := List.forall_mem_cons.mp hquiet
      rcases c.passes_or_breaks hc with ⟨-, hpasses⟩ | ⟨e, he, hbreaks⟩
      · obtain ⟨hlater, hended⟩ := ih hpasses.chunks hrest
        rw [c.finished_answer hc] at hlater hended
        exact ⟨hpasses.trans hlater, hended⟩
      · exact absurd (hfirst e he) (by simp [hbreaks.lexical])

theorem returned_isPrefix (hc : lx.chunks = none) :
    returned (answers calls lx) <+: (lx.complete (textFed lx.finished calls)).drain.1 := by
  induction calls generalizing lx with
  | nil => exact List.nil_prefix
  | cons c calls ih =>
      rcases c.passes_or_breaks hc with ⟨-, hpasses⟩ | ⟨e, he, hbreaks⟩
      · have hlater := ih hpasses.chunks
        rw [c.finished_answer hc] at hlater
        have hended : (c.answer lx).2.finished = true →
            textFed (c.ends lx.finished) calls = [] := by
          intro hf
          rw [← c.finished_answer hc, hf, textFed_ended]
        rw [textFed, hpasses.drain _ hended]
        exact (List.prefix_append_right_inj _).mpr hlater
      · have hnone : returned (answers (c :: calls) lx) = [] := by
          simp only [answers, returned, List.flatMap_cons, he]
          exact returned_of_stuck hbreaks.stuck
        rw [hnone]
        exact List.nil_prefix

/-- The tokens that any calls of a fresh lexer return together are a front of the tokens of the
text that they feed. The first call that reports an error of the text keeps the tokens to itself
that it had completed: with these, everything in front of the error was delivered, the error is
the one of the whole text, at its place, and no token is returned afterwards. -/
theorem returned_of_calls (detailed : Bool) :
    (∀ calls, returned (answers calls (fed detailed)) <+:
      (ofText (textFed false calls) detailed).drain.1) ∧
    ∀ front c later e, (∀ a ∈ answers front (fed detailed), Untroubled a) →
      (c.answer (after front (fed detailed))).1 = .error e → e.isMisuse = false →
        let before := after front (fed detailed)
        let whole := (ofText (textFed false (front ++ [c])) detailed).drain
        returned (answers front (fed detailed)) ++ c.withheld before = whole.1 ∧
        (∃ e', whole.2.1 = some e' ∧ e.CutOf e') ∧
        (c.answer before).2.position = whole.2.2.position ∧
        returned (answers later (c.answer before).2) = [] := by
  have hc : (fed detailed).chunks = none := rfl
  refine ⟨fun calls => returned_isPrefix hc, fun front c later e hquiet he hlexical => ?_⟩
  obtain ⟨hpasses, hended⟩ := passes_answers hc hquiet
  rcases c.passes_or_breaks hpasses.chunks with ⟨huntroubled, -⟩ | ⟨e₀, he₀, hbreaks⟩
  · exact absurd (huntroubled e he) (by simp [hlexical])
  · obtain rfl : e₀ = e := Except.error.inj (he₀.symm.trans he)
    have hnone : (after front (fed detailed)).finished = true →
        c.text (after front (fed detailed)).finished ++ [] = [] := by
      intro hf
      cases c <;> simp [Call.text, hf]
    obtain ⟨e', hcut, hrest⟩ := hbreaks.drain [] fun _ => rfl
    have htext : textFed false (front ++ [c]) = textFed (fed detailed).finished front ++
        (c.text (after front (fed detailed)).finished ++ []) := by
      rw [hended]
      exact textFed_append false front [c]
    have hdrain := hpasses.drain _ hnone
    rw [hrest, ← htext] at hdrain
    have hwhole : (ofText (textFed false (front ++ [c])) detailed).drain = _ := hdrain
    simp only [hwhole]
    exact ⟨trivial, ⟨e', rfl, hcut⟩, rfl, returned_of_stuck hbreaks.stuck⟩

/-- The lexer that has the text `x ?`, and its answer once the word is taken. -/
theorem drain_of_lost_word :
    ((fed true).arrive ['x', ' ', '?']).drain =
      ([⟨.identifier "x", "x", ⟨.origin, ⟨1, 1, 2⟩⟩⟩], some (.unrecognized "?" 1 3),
        { buffer := ['?'], position := ⟨2, 1, 3⟩,
          metrics := { total := 1, identifiers := 1, maxIdentifier := 1 } }) := by
  have hword : ((fed true).arrive ['x', ' ', '?']).next =
      (.ok (some ⟨.identifier "x", "x", ⟨.origin, ⟨1, 1, 2⟩⟩⟩),
        { buffer := [' ', '?'], position := ⟨1, 1, 2⟩,
          metrics := { total := 1, identifiers := 1, maxIdentifier := 1 } }) :=
    next_of_token rfl
  rw [drain_of_token hword,
    drain_of_error ((next_of_skipped rfl).trans (next_of_failed rfl))]
  rfl

/-- The word in front of the unrecognized character is complete, and no call returns it. -/
theorem word_withheld :
    let feeding : Call := .feed ['x', ' ', '?']
    let word : Token := ⟨.identifier "x", "x", ⟨.origin, ⟨1, 1, 2⟩⟩⟩
    (feeding.answer (fed true)).1 = .error (.unrecognized "?" 1 3) ∧
      feeding.withheld (fed true) = [word] ∧
      (ofText (textFed false [feeding])).drain.1 = [word] ∧
      returned (answers [feeding, .next, .finish] (fed true)) = [] := by
  have hanswer : (Call.answer (.feed ['x', ' ', '?']) (fed true)).1 =
      .error (.unrecognized "?" 1 3) := by
    rw [Call.answer, feed_of_open rfl, drained, drain_of_lost_word]
  obtain ⟨hwhole, -, -, hlater⟩ := (returned_of_calls true).2 [] (.feed ['x', ' ', '?'])
    [.next, .finish] _ (by simp [answers]) hanswer rfl
  have hwithheld : Call.withheld (.feed ['x', ' ', '?']) (fed true) =
      [⟨.identifier "x", "x", ⟨.origin, ⟨1, 1, 2⟩⟩⟩] := by
    rw [Call.withheld, drain_of_lost_word]
  refine ⟨hanswer, hwithheld, hwhole.symm.trans hwithheld, ?_⟩
  rw [answers, returned, List.flatMap_cons, hanswer]
  exact hlater

end JackToolchain.Lexer
