import AnchorScript.Program.IdLiteral
import AnchorScript.Proofs.Outcome
import AnchorScript.Proofs.Text.Characters
import AnchorScript.Proofs.Token.StringReplacement

/-!
# Ids in string literals

An id is written with the base-58 digits alone, so between two quotes it stands as it is and blanks
around it can be trimmed. A literal whose value is an id up to blanks is found up to its own quote.
-/

namespace AnchorScript

open Outcome

namespace Base58

theorem digit_of_value {n m : Nat} {cs : List Char} (h : value n cs = .ok m) {c : Char}
    (hc : c ∈ cs) : c.toNat ≤ 127 ∧ c.toUInt8 ∈ alphabet := by
  induction cs generalizing n with
  | nil => cases hc
  | cons d cs ih =>
    rw [value, refused_or_eq_ok_iff] at h
    obtain ⟨hAscii, h⟩ := h
    split at h
    · cases h
    · rename_i k hDigit
      rcases List.mem_cons.mp hc with rfl | hc
      · refine ⟨Nat.le_of_not_lt hAscii, ?_⟩
        have hSome := congrArg Option.isSome hDigit
        rw [digit?, List.findIdx?_isSome] at hSome
        simpa using hSome
      · exact ih h hc

theorem mem_alphabet_of_decode {s key : Text} (h : decode s = .ok key) : ∀ b ∈ s, b ∈ alphabet := by
  simp only [decode, refused_or_eq_ok_iff, bind_eq_ok_iff] at h
  obtain ⟨_, n, hValue, _⟩ := h
  intro b hb
  rw [← Text.flatMap_bytes_pieces s] at hb
  obtain ⟨p, hp, hMem⟩ := List.mem_flatMap.mp hb
  obtain ⟨hAscii, hDigit⟩ := digit_of_value hValue (List.mem_map_of_mem hp)
  cases p with
  | stray b' => exact absurd hAscii (Nat.not_le.mpr (by decide : 127 < (0xFFFD : Nat)))
  | char c =>
    have hByte : c.toUInt8.toNat = c.toNat :=
      Nat.mod_eq_of_lt (Nat.lt_of_le_of_lt hAscii (by decide))
    have hLow : c.toUInt8 < 128 := by
      rw [UInt8.lt_iff_toNat_lt, hByte]
      exact Nat.lt_succ_of_le hAscii
    have hChar : Text.byteChar c.toUInt8 = c := by rw [Text.byteChar, hByte, Char.ofNat_toNat]
    rw [Text.Piece.bytes, ← hChar, Text.utf8EncodeChar_byteChar hLow, List.mem_singleton] at hMem
    exact hMem ▸ hDigit

/-- A digit is a character by itself, and none that a literal or trimming treats in its own way. -/
theorem plain_of_mem_alphabet {b : UInt8} (h : b ∈ alphabet) :
    b < 128 ∧ b ≠ 92 ∧ Lexer.isQuote b = false ∧ Text.isSpaceChar (Text.byteChar b) = false :=
  Text.forall_mem_of_all (P := fun b => b < 128 ∧ b ≠ 92 ∧ Lexer.isQuote b = false ∧
    Text.isSpaceChar (Text.byteChar b) = false) (by decide +kernel) b h

end Base58

namespace ProgramId

theorem mem_alphabet {id key : Text} (h : decode id = .ok key) : ∀ b ∈ id, b ∈ Base58.alphabet := by
  unfold decode at h
  split at h
  · cases h
  · rename_i hKey
    exact Base58.mem_alphabet_of_decode hKey

theorem trimSpace_id {id key : Text} (h : decode id = .ok key) : Text.trimSpace id = id := by
  have hPlain := fun b hb => Base58.plain_of_mem_alphabet (mem_alphabet h b hb)
  have hAscii : Text.IsAscii id := fun b hb => (hPlain b hb).1
  refine Text.trimSpace_of_forall ?_
  rw [Text.pieces_of_isAscii hAscii]
  exact List.forall_mem_map.mpr fun b hb => (hPlain b hb).2.2.2

theorem isQuote_of_isQuote {q : UInt8} (h : isQuote q = true) : Lexer.isQuote q = true := by
  simp only [isQuote, Bool.or_eq_true, decide_eq_true_eq] at h
  rcases h with rfl | rfl <;> rfl

/-- Between two quotes an id is scanned as one string, whose value it is. -/
theorem literal_id {id key : Text} {q : UInt8} (h : decode id = .ok key)
    (hq : Lexer.isQuote q = true) :
    (∀ rest, Lexer.stringLength q (id ++ q :: rest) = id.length + 1) ∧
      StringLiteral.value? (q :: (id ++ [q])) = some id := by
  have hPlain := fun b hb => Base58.plain_of_mem_alphabet (mem_alphabet h b hb)
  refine ⟨Lexer.stringLength_of_forall hq fun b hb => ⟨?_, (hPlain b hb).2.1⟩,
    Lexer.value?_of_forall hq fun b hb => (hPlain b hb).2.1⟩
  rintro rfl
  rw [(hPlain b hb).2.2.1] at hq
  cases hq

theorem dropStart?_suffix {start s r : Text} (h : Text.dropStart? start s = some r) : r <:+ s := by
  rw [Text.dropStart?] at h
  split at h
  · cases h
    exact List.drop_suffix _ s
  · cases h

/-- What stands behind the opening quote of a literal. -/
def Opened (body s : Text) : Prop :=
  ∃ pre q, s = pre ++ q :: body ∧ isQuote q = true ∧ body.any isQuote = true

theorem Opened.of_suffix {body s s' : Text} (h : Opened body s') (hs : s' <:+ s) :
    Opened body s := by
  obtain ⟨before, rfl⟩ := hs
  obtain ⟨pre, q, rfl, hq⟩ := h
  exact ⟨before ++ pre, q, by simp, hq⟩

theorem opened_of_literalBody? {s body : Text} (h : literalBody? s = some body) :
    Opened body s := by
  simp only [literalBody?, Option.bind_eq_bind, Option.bind_eq_some_iff] at h
  obtain ⟨r₁, h₁, r₂, h₂, r₃, h₃, r₄, h₄, r₅, h₅, h⟩ := h
  have hGap (r : Text) : r.dropWhile isGap <:+ r := List.dropWhile_suffix _
  have hSkip : r₄ <:+ r₃ := by
    cases r₃ with
    | nil => cases h₄
    | cons b r =>
      rw [skipGap?] at h₄
      split at h₄
      · cases h₄
        exact (hGap r).trans (List.suffix_cons b r)
      · cases h₄
  have hSuffix : r₅.dropWhile isGap <:+ s :=
    (hGap r₅).trans <| (dropStart?_suffix h₅).trans <| hSkip.trans <|
      (dropStart?_suffix h₃).trans <| (hGap r₂).trans <| (dropStart?_suffix h₂).trans <|
        (hGap r₁).trans (dropStart?_suffix h₁)
  split at h
  · rename_i q body' hText
    split at h
    · rename_i hQuotes
      cases h
      obtain ⟨hq, hClosed⟩ := Bool.and_eq_true_iff.mp hQuotes
      exact .of_suffix ⟨[], q, hText, hq, hClosed⟩ hSuffix
    · cases h
  · cases h

theorem opened_of_mem {skip : Nat} {s body : Text} (h : body ∈ literalBodies skip s) :
    Opened body s := by
  fun_induction literalBodies skip s with
  | case1 => cases h
  | case2 b r k ih => exact (ih h).of_suffix (List.suffix_cons b r)
  | case3 b r body' hBody closed ih =>
    rcases List.mem_cons.mp h with rfl | h
    · exact opened_of_literalBody? hBody
    · exact (ih h).of_suffix (List.suffix_cons b r)
  | case4 b r _ ih => exact (ih h).of_suffix (List.suffix_cons b r)

/-- A quote stands for itself, with a backslash before it and without one. -/
theorem mem_of_unescape? {s value : Text} (h : StringLiteral.unescape? s = some value) {b : UInt8}
    (hb : b ∈ s) (hq : Lexer.isQuote b = true) : b ∈ value := by
  have hPlain : b ≠ 92 ∧ StringLiteral.escaped b = b := by
    simp only [Lexer.isQuote, Bool.or_eq_true, decide_eq_true_eq] at hq
    rcases hq with (rfl | rfl) | rfl <;> decide
  fun_induction StringLiteral.unescape? s generalizing value with
  | case1 => cases hb
  | case2 => cases h
  | case3 c r ih =>
    obtain ⟨v, hv, rfl⟩ := Option.map_eq_some_iff.mp h
    rcases List.mem_cons.mp hb with rfl | hb
    · exact absurd rfl hPlain.1
    · rcases List.mem_cons.mp hb with rfl | hb
      · rw [hPlain.2]
        exact List.mem_cons_self
      · exact List.mem_cons_of_mem _ (ih hv hb)
  | case4 c r _ _ ih =>
    obtain ⟨v, hv, rfl⟩ := Option.map_eq_some_iff.mp h
    rcases List.mem_cons.mp hb with rfl | hb
    · exact List.mem_cons_self
    · exact List.mem_cons_of_mem _ (ih hv hb)

/-- A string whose value is an id up to blanks ends at the first quote of either kind. -/
theorem exists_of_value? {q : UInt8} {body value key : Text} (hq : isQuote q = true)
    (hValue : StringLiteral.value? (q :: body.take (Lexer.stringLength q body)) = some value)
    (hKey : decode (Text.trimSpace value) = .ok key) :
    ∃ old rest, body = old ++ q :: rest ∧ body.dropWhile (!isQuote ·) = q :: rest ∧
      Lexer.stringLength q body = old.length + 1 ∧
      StringLiteral.value? (q :: (old ++ [q])) = some value := by
  have hClosed : Lexer.isClosed q body = true := by
    rw [← Lexer.value?_isSome_iff (isQuote_of_isQuote hq), hValue]
    rfl
  obtain ⟨old, value', hTake, hOld, _⟩ := Lexer.exists_of_isClosed hClosed
  rw [hTake] at hValue
  have hSame : value' = value := by
    rw [StringLiteral.value?, List.dropLast_concat, hOld] at hValue
    split at hValue
    · exact Option.some.inj hValue
    · cases hValue
  have hBody : body = old ++ q :: body.drop (Lexer.stringLength q body) := by
    conv_lhs => rw [← List.take_append_drop (Lexer.stringLength q body) body, hTake]
    simp
  have hLength : Lexer.stringLength q body = old.length + 1 := by
    rw [← List.length_take_of_le (Lexer.stringLength_le q body), hTake, List.length_append]
    rfl
  have hNone : ∀ b ∈ old, (!isQuote b) = true := by
    intro b hb
    by_contra hQuote
    have hQuote := isQuote_of_isQuote (by simpa using hQuote : isQuote b = true)
    have hKept : b < 128 ∧ Text.isSpaceChar (Text.byteChar b) = false := by
      simp only [Lexer.isQuote, Bool.or_eq_true, decide_eq_true_eq] at hQuote
      rcases hQuote with (rfl | rfl) | rfl <;> decide
    have hMem := Text.mem_trimSpace (mem_of_unescape? (hSame ▸ hOld) hb hQuote) hKept.1 hKept.2
    rw [(Base58.plain_of_mem_alphabet (mem_alphabet hKey b hMem)).2.2.1] at hQuote
    cases hQuote
  refine ⟨old, _, hBody, ?_, hLength, hValue⟩
  conv_lhs => rw [hBody]
  rw [List.dropWhile_append_of_pos hNone, List.dropWhile_cons_of_neg (by simp [hq])]

theorem replace_ok {src id src' : Text} (h : replace src id = .ok src') :
    ∃ key body, decode id = .ok key ∧ literalBodies 0 src = [body] ∧
      src' = src.take (src.length - body.length) ++ id ++ body.dropWhile (!isQuote ·) := by
  simp only [replace, bind_eq_ok_iff, mapError_eq_ok_iff] at h
  obtain ⟨key, hKey, h⟩ := h
  split at h
  · cases h
  · rename_i body hBodies
    cases h
    exact ⟨key, body, hKey, hBodies, rfl⟩
  · cases h

end ProgramId

end AnchorScript
