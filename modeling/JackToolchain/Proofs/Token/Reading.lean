import JackToolchain.Proofs.Token.Chunks
import JackToolchain.Token.Reader

/-!
# Texts read line by line

No byte of a character other than the line feed is the byte of a line feed, so the lines of the
bytes of a text are the bytes of its lines. A line that arrives whole shows all that an error
message shows.
-/

namespace JackToolchain.Lexer

open JackToolchain.Source JackToolchain.Token JackToolchain.Text

variable {α : Type} {p : α → Bool}

/-- Parts that end after each element with a property. -/
def breakAfter (p : α → Bool) : List α → List (List α)
  | [] => []
  | a :: rest =>
      if p a then [a] :: breakAfter p rest
      else
        match breakAfter p rest with
        | [] => [[a]]
        | part :: parts => (a :: part) :: parts

@[simp] theorem breakAfter_nil : breakAfter p [] = [] := rfl

theorem breakAfter_cons_end {a : α} {rest : List α} (h : p a = true) :
    breakAfter p (a :: rest) = [a] :: breakAfter p rest := by
  simp [breakAfter, h]

@[simp] theorem flatten_breakAfter (text : List α) : (breakAfter p text).flatten = text := by
  induction text with
  | nil => rfl
  | cons a rest ih =>
      rw [breakAfter]
      split
      · simp [ih]
      · split
        · next hparts =>
            rw [hparts] at ih
            simp [← ih]
        · next part parts hparts =>
            rw [hparts] at ih
            simpa using ih

theorem ne_nil_of_mem_breakAfter {text part : List α} (h : part ∈ breakAfter p text) :
    part ≠ [] := by
  induction text generalizing part with
  | nil => simp at h
  | cons a rest ih =>
      rw [breakAfter] at h
      split at h
      · rcases List.mem_cons.1 h with rfl | h
        · simp
        · exact ih h
      · split at h
        · rw [List.mem_singleton.1 h]
          simp
        · next part' parts hparts =>
            rcases List.mem_cons.1 h with rfl | h
            · simp
            · exact ih (hparts ▸ List.mem_cons_of_mem _ h)

/-- A part in progress joins the first part of what follows. -/
def joinFront (front : List α) : List (List α) → List (List α)
  | [] => if front.isEmpty then [] else [front]
  | part :: parts => (front ++ part) :: parts

theorem breakAfter_append {front rest : List α} (h : ∀ a ∈ front, p a = false) :
    breakAfter p (front ++ rest) = joinFront front (breakAfter p rest) := by
  induction front with
  | nil => cases hparts : breakAfter p rest <;> simp [joinFront, hparts]
  | cons a front ih =>
      have ha : p a = false := h a List.mem_cons_self
      rw [List.cons_append, breakAfter, ih fun b hb => h b (List.mem_cons_of_mem a hb)]
      cases hparts : breakAfter p rest with
      | nil => cases front <;> simp [joinFront, ha]
      | cons part parts => simp [joinFront, ha]

theorem byteLinesFrom_eq (line : List UInt8) (done : List (List UInt8)) (bytes : List UInt8) :
    byteLinesFrom line done bytes =
      done.reverse ++ joinFront line.reverse (breakAfter (· == 10) bytes) := by
  induction bytes generalizing line done with
  | nil =>
      rw [byteLinesFrom, breakAfter_nil, joinFront]
      cases line <;> simp
  | cons b rest ih =>
      rw [byteLinesFrom]
      by_cases hb : b = 10
      · rw [if_pos hb, ih, breakAfter_cons_end (by simp [hb])]
        cases hparts : breakAfter (· == 10) rest <;> simp [joinFront]
      · have hne : (b == 10) = false := by simpa using hb
        rw [if_neg hb, ih, breakAfter, hne]
        cases hparts : breakAfter (· == 10) rest <;> simp [joinFront]

theorem byteLines_eq (bytes : List UInt8) : byteLines bytes = breakAfter (· == 10) bytes := by
  rw [byteLines, byteLinesFrom_eq]
  cases hparts : breakAfter (· == 10) bytes <;> simp [joinFront]

theorem encode_lineFeed : String.utf8EncodeChar '\n' = [10] := by decide

theorem lineFeed_notMem_encode {c : Char} (hc : c ≠ '\n') :
    ∀ b ∈ String.utf8EncodeChar c, (b == 10) = false := by
  have hval : c.val.toNat ≠ 10 := fun h => hc (Char.ext (UInt32.toNat_inj.1 h))
  have hbyte : ∀ n : Nat, n % 256 ≠ 10 → (UInt8.ofNat n == 10) = false := by
    intro n hn
    rw [beq_eq_false_iff_ne]
    intro heq
    exact hn (by simpa using congrArg UInt8.toNat heq)
  intro b hb
  simp only [String.utf8EncodeChar] at hb
  split at hb
  · simp only [List.mem_singleton] at hb
    subst hb
    exact hbyte _ (by omega)
  · split at hb
    · simp only [List.mem_cons, List.not_mem_nil, or_false] at hb
      rcases hb with rfl | rfl <;> exact hbyte _ (by omega)
    · split at hb
      · simp only [List.mem_cons, List.not_mem_nil, or_false] at hb
        rcases hb with rfl | rfl | rfl <;> exact hbyte _ (by omega)
      · simp only [List.mem_cons, List.not_mem_nil, or_false] at hb
        rcases hb with rfl | rfl | rfl | rfl <;> exact hbyte _ (by omega)

/-- The bytes of a text. -/
def encode (text : List Char) : List UInt8 :=
  text.flatMap String.utf8EncodeChar

theorem breakAfter_encode (text : List Char) :
    breakAfter (· == 10) (encode text) = (breakAfter (· == '\n') text).map encode := by
  induction text with
  | nil => rfl
  | cons c rest ih =>
      have hcons : encode (c :: rest) = String.utf8EncodeChar c ++ encode rest := rfl
      by_cases hc : c = '\n'
      · subst hc
        rw [hcons, encode_lineFeed, List.singleton_append, breakAfter_cons_end (by rfl),
          breakAfter_cons_end (by rfl), ih]
        rfl
      · rw [hcons, breakAfter_append (lineFeed_notMem_encode hc), ih, breakAfter,
          if_neg (by simpa using hc)]
        cases hparts : breakAfter (· == '\n') rest with
        | nil => simp [joinFront, encode]
        | cons part parts => simp [joinFront, encode]

theorem chunkOfBytes_encode (text : List Char) : chunkOfBytes (encode text) = .ok text := by
  have hbytes : (⟨(encode text).toArray⟩ : ByteArray) = text.utf8Encode := by
    apply ByteArray.ext
    rw [List.utf8Encode, List.data_toByteArray]
    rfl
  rw [chunkOfBytes, hbytes, String.fromUTF8?, dif_pos ⟨text, rfl⟩]
  exact congrArg Except.ok String.toList_ofList

theorem data_toUTF8 (text : String) : text.toUTF8.data.toList = encode text.toList := by
  rw [String.toUTF8_eq_toByteArray, ← String.utf8Encode_toList, List.utf8Encode,
    List.toList_data_toByteArray]
  rfl

theorem ofBytes_toUTF8 (text : String) (detailed : Bool) :
    ofBytes text.toUTF8 detailed =
      ofChunks ((breakAfter (· == '\n') text.toList).map .ok) detailed := by
  rw [ofBytes, data_toUTF8, byteLines_eq, breakAfter_encode, List.map_map]
  refine congrArg (fun chunks => ofChunks chunks detailed) (List.map_congr_left fun line _ => ?_)
  exact chunkOfBytes_encode line

/-! ## Lines arrive whole -/

/-- Where the text before ends does not matter once a part has arrived. -/
theorem Lined.of_ne_nil {front front' part : List Char} {texts : List (List Char)}
    (hpart : part ≠ []) (h : Lined (front ++ part) texts) : Lined (front' ++ part) texts := by
  induction texts generalizing part with
  | nil => exact trivial
  | cons text texts ih =>
      obtain ⟨hends, hrest⟩ := h
      have hlast := hends.resolve_left (by simp [hpart])
      rw [List.getLast?_append, List.getLast?_eq_some_getLast hpart, Option.some_or] at hlast
      refine ⟨.inr ?_, ?_⟩
      · rw [List.getLast?_append, List.getLast?_eq_some_getLast hpart, Option.some_or, hlast]
      · rw [List.append_assoc] at hrest ⊢
        exact ih (by simp [hpart]) hrest

theorem lined_breakAfter {front : List Char} (text : List Char)
    (hf : front = [] ∨ front.getLast? = some '\n') :
    Lined front (breakAfter (· == '\n') text) := by
  induction text generalizing front with
  | nil => exact trivial
  | cons c rest ih =>
      by_cases hc : c = '\n'
      · subst hc
        rw [breakAfter_cons_end (by rfl)]
        exact ⟨hf, ih (.inr (by simp))⟩
      · have hrest : Lined [] (breakAfter (· == '\n') rest) := ih (.inl rfl)
        have hparts : ∀ part ∈ breakAfter (· == '\n') rest, part ≠ [] :=
          fun _ => ne_nil_of_mem_breakAfter
        rw [breakAfter, if_neg (by simpa using hc)]
        cases hbreak : breakAfter (· == '\n') rest with
        | nil => exact ⟨hf, trivial⟩
        | cons part parts =>
            rw [hbreak] at hrest hparts
            have hne : part ≠ [] := hparts part List.mem_cons_self
            refine ⟨hf, ?_⟩
            have hjoin : Lined (front ++ [c] ++ part) parts := hrest.2.of_ne_nil hne
            simpa using hjoin

end JackToolchain.Lexer
