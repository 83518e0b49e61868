import AnchorScript.Proofs.Toml.Reading

/-!
# Numbers and dates on a line

A number or a date is the longest one that the text begins with. It ends before a line break, and
so it is the same whatever lines follow.
-/

namespace AnchorScript.Toml

variable {y : Text}

/-- A run of digits goes on with a digit, or with an underscore before one. -/
theorem digitRun_cons (b : UInt8) (r : Text) : digitRun (b :: r) =
    if Text.isDigit b || (b = 95 && r.head?.any Text.isDigit) then b :: digitRun r else [] := by
  by_cases hb : b = 95
  · subst hb
    rcases r with - | ⟨c, r⟩
    · rfl
    · rw [digitRun]
      cases hc : Text.isDigit c with
      | false => simp [hc, show Text.isDigit 95 = false by decide]
      | true =>
        have hNot : c ≠ 95 := by
          rintro rfl
          cases hc
        have hRest : digitRun (c :: r) = c :: digitRun r := by
          rw [digitRun, if_pos hc]
          rintro b' r' rfl
          exact absurd rfl hNot
        simp [hc, hRest]
  · rw [digitRun]
    · simp [hb]
    · rintro b' r' rfl
      exact absurd rfl hb

theorem digitRun_append (hy : Follows y) (s : Text) : digitRun (s ++ y) = digitRun s := by
  induction s with
  | nil =>
    rcases hy with rfl | ⟨x, rfl⟩
    · rfl
    · exact digitRun_cons 10 x
  | cons b r ih =>
    have hHead : (r ++ y).head?.any Text.isDigit = r.head?.any Text.isDigit := by
      cases r with
      | nil => rcases hy with rfl | ⟨x, rfl⟩ <;> rfl
      | cons => rfl
    rw [List.cons_append, digitRun_cons, digitRun_cons, hHead, ih]

theorem length_digitRun_le (s : Text) : (digitRun s).length ≤ s.length := by
  fun_induction digitRun s <;> simp_all

/-- The length of a sign. -/
def signLength (s : Text) : Nat := if s.head? = some 43 || s.head? = some 45 then 1 else 0

theorem signLength_append (hy : Follows y) (s : Text) : signLength (s ++ y) = signLength s := by
  cases s with
  | nil => rcases hy with rfl | ⟨x, rfl⟩ <;> rfl
  | cons => rfl

theorem signLength_le (s : Text) : signLength s ≤ s.length := by
  cases s with
  | nil => exact Nat.le_refl 0
  | cons b r => 
    unfold signLength
    split <;> simp

theorem wholeLength_eq (s : Text) : wholeLength s =
    match s.drop (signLength s) with
    | b :: r =>
      if !Text.isDigit b then none
      else if b = 48 then some (signLength s + 1)
      else some (signLength s + 1 + (digitRun r).length)
    | [] => none := rfl

theorem wholeLength_append (hy : Follows y) (s : Text) : wholeLength (s ++ y) = wholeLength s := by
  rw [wholeLength_eq, wholeLength_eq, signLength_append hy,
    List.drop_append_of_le_length (signLength_le s)]
  cases s.drop (signLength s) with
  | nil => rcases hy with rfl | ⟨x, rfl⟩ <;> rfl
  | cons b r => simp only [List.cons_append, digitRun_append hy]

theorem wholeLength_le {s : Text} {n : Nat} (h : wholeLength s = some n) : n ≤ s.length := by
  rw [wholeLength_eq] at h
  split at h
  · rename_i b r hDrop
    have hLength : s.length - signLength s = r.length + 1 := by
      rw [← List.length_drop, hDrop, List.length_cons]
    have hSign := signLength_le s
    have hRun := length_digitRun_le r
    split at h
    · cases h
    · split at h <;> cases h <;> omega
  · cases h

theorem partLength_cons (marks : Text) (signed : Bool) (m : UInt8) (r : Text) :
    partLength marks signed (m :: r) =
      match r.drop (if signed then signLength r else 0) with
      | b :: r' =>
        if marks.contains m && Text.isDigit b then
          (if signed then signLength r else 0) + 2 + (digitRun r').length
        else 0
      | [] => 0 := by
  cases signed <;> rfl

theorem partLength_append (hy : Follows y) {marks : Text} (hMarks : 10 ∉ marks) (signed : Bool)
    (s : Text) : partLength marks signed (s ++ y) = partLength marks signed s := by
  cases s with
  | nil =>
    rcases hy with rfl | ⟨x, rfl⟩
    · rfl
    · rw [List.nil_append, partLength_cons]
      split
      · rw [if_neg (by simp [hMarks])]
        rfl
      · rfl
  | cons m r =>
    have hSign : (if signed then signLength (r ++ y) else 0) = if signed then signLength r else 0 := by
      rw [signLength_append hy]
    have hLength : (if signed then signLength r else 0) ≤ r.length := by
      split
      · exact signLength_le r
      · exact Nat.zero_le _
    rw [List.cons_append, partLength_cons, partLength_cons, hSign,
      List.drop_append_of_le_length hLength]
    cases r.drop (if signed then signLength r else 0) with
    | nil => 
      rcases hy with rfl | ⟨x, rfl⟩
      · rfl
      · simp [show Text.isDigit 10 = false by decide]
    | cons b r => simp only [List.cons_append, digitRun_append hy]

theorem partLength_le (marks : Text) (signed : Bool) (s : Text) :
    partLength marks signed s ≤ s.length := by
  cases s with
  | nil => exact Nat.le_refl 0
  | cons m r =>
    rw [partLength_cons]
    split
    · rename_i b r' hDrop
      generalize (if signed then signLength r else 0) = sign at hDrop ⊢
      have hLength : r.length - sign = r'.length + 1 := by
        rw [← List.length_drop, hDrop, List.length_cons]
      have hRun := length_digitRun_le r'
      rw [List.length_cons]
      split
      · change sign + 2 + (digitRun r').length ≤ r.length + 1
        omega
      · exact Nat.zero_le _
    · exact Nat.zero_le _

theorem numberLength_eq (s : Text) : numberLength s =
    (wholeLength s).map fun whole =>
      whole + partLength "." false (s.drop whole) +
        partLength "eE" true (s.drop (whole + partLength "." false (s.drop whole))) := by
  rw [numberLength]
  cases wholeLength s <;> rfl

theorem numberLength_append (hy : Follows y) (s : Text) :
    numberLength (s ++ y) = numberLength s := by
  rw [numberLength_eq, numberLength_eq, wholeLength_append hy]
  cases hWhole : wholeLength s with
  | none => rfl
  | some whole =>
    have hLength := wholeLength_le hWhole
    have hFraction := partLength_le "." false (s.drop whole)
    rw [List.length_drop] at hFraction
    rw [Option.map_some, Option.map_some, List.drop_append_of_le_length hLength,
      partLength_append hy (by decide), List.drop_append_of_le_length (by omega),
      partLength_append hy (by decide)]

theorem numberLength_le {s : Text} {n : Nat} (h : numberLength s = some n) : n ≤ s.length := by
  rw [numberLength_eq] at h
  obtain ⟨whole, hWhole, rfl⟩ := Option.map_eq_some_iff.mp h
  have hLength := wholeLength_le hWhole
  have hFraction := partLength_le "." false (s.drop whole)
  have hExponent := partLength_le "eE" true
    (s.drop (whole + partLength "." false (s.drop whole)))
  rw [List.length_drop] at hFraction hExponent
  omega

theorem fitsPattern_append (hy : Follows y) {ps : Text} (hps : 10 ∉ ps) (s : Text) :
    fitsPattern ps (s ++ y) = fitsPattern ps s := by
  induction ps generalizing s with
  | nil => rfl
  | cons p ps ih =>
    simp only [List.mem_cons, not_or] at hps
    cases s with
    | nil =>
      rcases hy with rfl | ⟨x, rfl⟩
      · rfl
      · simp [fitsPattern, hps.1, Text.isDigit]
    | cons b s => simp only [List.cons_append, fitsPattern, ih hps.2]

theorem length_le_of_fitsPattern {ps s : Text} (h : fitsPattern ps s = true) :
    ps.length ≤ s.length := by
  induction ps generalizing s with
  | nil => exact Nat.zero_le _
  | cons p ps ih =>
    cases s with
    | nil => cases h
    | cons b s =>
      rw [fitsPattern, Bool.and_eq_true] at h
      exact Nat.succ_le_succ (ih h.2)

theorem secondsFraction_append (hy : Follows y) (s : Text) :
    secondsFraction (s ++ y) = secondsFraction s := by
  cases s with
  | nil => rcases hy with rfl | ⟨x, rfl⟩ <;> rfl
  | cons b r =>
    by_cases hPoint : b = 46
    · subst hPoint
      simp only [List.cons_append, secondsFraction, (hy.span (p := Text.isDigit) (by decide) r).1]
    · simp [secondsFraction, hPoint]

theorem secondsFraction_le (s : Text) : secondsFraction s ≤ s.length := by
  unfold secondsFraction
  split
  · rename_i r
    have hDigits := (List.takeWhile_sublist Text.isDigit (l := r)).length_le
    dsimp only
    rw [List.length_cons]
    split <;> omega
  · exact Nat.zero_le _

theorem offsetLength_append (hy : Follows y) (s : Text) :
    offsetLength (s ++ y) = offsetLength s := by
  have hHead : ((s ++ y).head? = some (Text.byte 'Z')) ↔ s.head? = some (Text.byte 'Z') := by
    cases s with
    | nil => 
      rcases hy with rfl | ⟨x, rfl⟩
      · rfl
      · exact iff_of_false (by rw [List.nil_append, List.head?_cons]; decide) (by decide)
    | cons => rfl
  simp only [offsetLength, hHead, fitsPattern_append hy (show 10 ∉ Text.ofString "+00:00" by decide),
    fitsPattern_append hy (show 10 ∉ Text.ofString "-00:00" by decide)]

theorem offsetLength_le (s : Text) : (offsetLength s).getD 0 ≤ s.length := by
  unfold offsetLength
  split
  · rename_i hHead
    cases s with
    | nil => cases hHead
    | cons => simp
  · split
    · rename_i hFits
      rcases Bool.or_eq_true_iff.mp hFits with h | h <;> exact length_le_of_fitsPattern h
    · exact Nat.zero_le _

theorem dateLength_append (hy : Follows y) (s : Text) : dateLength (s ++ y) = dateLength s := by
  unfold dateLength
  rw [fitsPattern_append hy (by decide), fitsPattern_append hy (by decide),
    fitsPattern_append hy (by decide)]
  split
  · rename_i hFits
    have hLength : 19 ≤ s.length := length_le_of_fitsPattern hFits
    have hTime := secondsFraction_le (s.drop 19)
    rw [List.length_drop] at hTime
    rw [List.drop_append_of_le_length hLength, secondsFraction_append hy]
    dsimp only
    rw [List.drop_append_of_le_length (by omega), offsetLength_append hy]
  · split
    · rfl
    · split
      · rename_i hFits
        have hLength : 8 ≤ s.length := length_le_of_fitsPattern hFits
        rw [List.drop_append_of_le_length hLength, secondsFraction_append hy]
      · rfl

theorem dateLength_le {s : Text} {n : Nat} (h : dateLength s = some n) : n ≤ s.length := by
  unfold dateLength at h
  split at h
  · rename_i hFits
    have hLength : 19 ≤ s.length := length_le_of_fitsPattern hFits
    have hTime := secondsFraction_le (s.drop 19)
    have hOffset := offsetLength_le (s.drop (19 + secondsFraction (s.drop 19)))
    rw [List.length_drop] at hTime hOffset
    cases h
    omega
  · split at h
    · rename_i hFits
      cases h
      exact length_le_of_fitsPattern hFits
    · split at h
      · rename_i hFits
        have hLength : 8 ≤ s.length := length_le_of_fitsPattern hFits
        have hTime := secondsFraction_le (s.drop 8)
        rw [List.length_drop] at hTime
        cases h
        omega
      · cases h

/-- A number or a date ends with its line. -/
theorem readLiteral_append (hy : Follows y) (s : Text) :
    readLiteral (s ++ y) = (readLiteral s).map fun (v, r) => (v, r ++ y) := by
  rw [readLiteral, readLiteral, dateLength_append hy, numberLength_append hy]
  cases hLength : (dateLength s).or (numberLength s) with
  | none => rfl
  | some n =>
    have hLe : n ≤ s.length := by
      rcases Option.or_eq_some_iff.mp hLength with h | ⟨_, h⟩
      · exact dateLength_le h
      · exact numberLength_le h
    simp [List.take_append_of_le_length hLe, List.drop_append_of_le_length hLe]

end AnchorScript.Toml
