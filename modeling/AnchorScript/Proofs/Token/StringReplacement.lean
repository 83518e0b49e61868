import AnchorScript.Proofs.Token.Ending
import Mathlib.Data.List.Nodup

/-!
# A text with one string replaced

Every token stands behind a beginning of the text, and of two places the later one has the later
position. Up to a string at which the scanner begins a token, the tokens of a text do not depend on
the string and on what follows it. So another string of the same quotes changes one token and moves
the others.
-/

namespace AnchorScript

/-- Earlier in the order in which a file is read. -/
def SourcePos.Before (p q : SourcePos) : Prop :=
  p.line < q.line ∨ p.line = q.line ∧ p.column < q.column

namespace SourcePos

theorem Before.trans {p q r : SourcePos} (h : p.Before q) (h' : q.Before r) : p.Before r := by
  unfold Before at *
  omega

theorem Before.ne {p q : SourcePos} (h : p.Before q) : p ≠ q := by
  rintro rfl
  unfold Before at h
  omega

end SourcePos

namespace Location

theorem before_next (l : Location) (b : UInt8) : l.pos.Before (l.next b).pos := by
  unfold next SourcePos.Before pos
  split
  · exact .inl (by dsimp only; omega)
  · exact .inr ⟨rfl, by dsimp only; omega⟩

theorem before_after (l : Location) {s : Text} (hs : s ≠ []) : l.pos.Before (l.after s).pos := by
  induction s generalizing l with
  | nil => exact absurd rfl hs
  | cons b s ih =>
    rw [after_cons]
    cases s with
    | nil => exact l.before_next b
    | cons c s => exact (l.before_next b).trans (ih (l.next b) (by simp))

/-- A position belongs to one place of a text only. -/
theorem prefix_eq_of_pos_eq {l : Location} {s p p' : Text} (hp : p <+: s) (hp' : p' <+: s)
    (h : (l.after p).pos = (l.after p').pos) : p = p' := by
  have hLonger {a b : Text} (hab : a <+: b) (hPos : (l.after a).pos = (l.after b).pos) :
      a = b := by
    obtain ⟨more, rfl⟩ := hab
    rw [after_append] at hPos
    by_contra hMore
    exact ((l.after a).before_after (s := more) (by rintro rfl; simp at hMore)).ne hPos
  rcases List.prefix_or_prefix_of_prefix hp hp' with hShort | hShort
  · exact hLonger hShort h
  · exact (hLonger hShort h.symm).symm

end Location

namespace Lexer

theorem exists_prefix_of_mem {l : Location} {s : Text} {t : Token} (ht : t ∈ tokensFrom l s) :
    ∃ p, p <+: s ∧ t.start = l.after p := by
  fun_induction tokensFrom l s with
  | case1 l s gap start h =>
    rw [List.mem_singleton.mp ht]
    exact ⟨gap, ⟨_, blanks_append s⟩, rfl⟩
  | case2 l s gap start c r h k stop newline ih =>
    rcases List.mem_cons.mp ht with rfl | ht
    · exact ⟨gap, ⟨_, blanks_append s⟩, rfl⟩
    · obtain ⟨p, ⟨rest, hRest⟩, hStart⟩ := ih ht
      refine ⟨gap ++ (c :: k.tail ++ p), ⟨rest, ?_⟩, ?_⟩
      · rw [eq_append_of_blanks h, ← hRest]
        simp [gap, k]
      · rw [hStart, Location.after_append, Location.after_append]

theorem pairwise_before (l : Location) (s : Text) :
    (tokensFrom l s).Pairwise fun t t' => t.pos.Before t'.pos := by
  fun_induction tokensFrom l s with
  | case1 => exact List.pairwise_singleton _ _
  | case2 l s gap start c r h k stop newline ih =>
    refine List.pairwise_cons.mpr ⟨fun t ht => ?_, ih⟩
    obtain ⟨p, _, hStart⟩ := exists_prefix_of_mem ht
    rw [Token.pos, Token.pos, hStart, ← Location.after_append]
    exact start.before_after (by simp)

theorem offset_le_of_mem {l : Location} {s : Text} {t : Token} (ht : t ∈ tokensFrom l s) :
    l.offset ≤ t.start.offset := by
  obtain ⟨p, _, hStart⟩ := exists_prefix_of_mem ht
  rw [hStart, Location.offset_after]
  exact Nat.le_add_right _ _

end Lexer

/-- No two tokens of a source stand at one position. -/
theorem nodup_pos_tokens (src : Text) : ((tokens src).map Token.pos).Nodup :=
  List.pairwise_map.mpr ((Lexer.pairwise_before .start src).imp SourcePos.Before.ne)

namespace Lexer

theorem commentBody?_ne_nil {s rest : Text} : commentBody? s ≠ some ([], rest) := by
  fun_cases commentBody? s <;> simp

/-- A comment's text is the same, whatever follows its closing mark. -/
theorem commentBody?_body {s body rest : Text} (h : commentBody? s = some (body, rest)) (x : Text) :
    commentBody? (body ++ x) = some (body, x) := by
  fun_induction commentBody? s generalizing body rest with
  | case1 => cases h
  | case2 r =>
    cases h
    rfl
  | case3 c r hOpen ih =>
    obtain ⟨⟨body', rest'⟩, hBody, hSame⟩ := Option.map_eq_some_iff.mp h
    cases hSame
    have hText := commentBody?_append hBody
    have hOpen' : ∀ r', c = 42 → body' ++ x = 47 :: r' → False := by
      intro r' hc hr
      cases body' with
      | nil => exact commentBody?_ne_nil hBody
      | cons d body' =>
        rw [(List.cons.inj hr).1] at hText
        exact hOpen (body' ++ rest) hc hText.symm
    rw [List.cons_append, commentBody?.eq_3 _ _ hOpen', ih hBody]
    rfl

/-- Behind a comment that takes the rest of its line there is its line break, unless the text ends. -/
theorem exists_break_of_blanks {line skipped rest : Text}
    (h : blanks (line.dropWhile (· != 10)) = (skipped, rest)) (hRest : rest ≠ []) :
    ∃ more, skipped = 10 :: more := by
  cases hLine : line.dropWhile (· != 10) with
  | nil =>
    rw [hLine, blanks] at h
    cases h
    exact absurd rfl hRest
  | cons c r =>
    have hBreak : c = 10 := by
      have hHead := List.head_dropWhile_not (p := (· != 10)) (l := line) (by simp [hLine])
      simpa [hLine] using hHead
    rw [hLine, hBreak, blanks_of_isBlank rfl] at h
    exact ⟨(blanks r).1, (congrArg Prod.fst h).symm⟩

/-- The blanks before a token are the same before any other token. -/
theorem blanks_append_of_begins {s gap z z' : Text} (h : blanks s = (gap, z)) (hz : z ≠ [])
    (hBegins : blanks z' = ([], z')) : blanks (gap ++ z') = (gap, z') := by
  fun_induction blanks s generalizing gap z with
  | case1 =>
    cases h
    exact absurd rfl hz
  | case2 c r hBlank skipped rest hRest ih =>
    cases h
    rw [List.cons_append, blanks_of_isBlank hBlank, ih hRest hz]
  | case3 line skipped rest hRest _ ih =>
    cases h
    have hMore := ih hRest hz
    obtain ⟨more, rfl⟩ := exists_break_of_blanks hRest hz
    have hTaken : ∀ b ∈ line.takeWhile (· != 10), (b != 10) = true :=
      List.all_eq_true.mp List.all_takeWhile
    have hBreak : (10 :: more ++ z').takeWhile (· != 10) = [] := rfl
    have hBehind : (10 :: more ++ z').dropWhile (· != 10) = 10 :: more ++ z' := rfl
    rw [List.append_assoc, List.cons_append, List.cons_append, blanks_of_line,
      List.takeWhile_append_of_pos hTaken, List.dropWhile_append_of_pos hTaken, hBreak, hBehind,
      List.append_nil, hMore]
  | case4 inside body after hBody skipped rest hRest _ ih =>
    cases h
    rw [List.append_assoc, List.cons_append, List.cons_append,
      blanks_of_comment (commentBody?_body hBody _), ih hRest hz]
  | case5 | case6 | case7 =>
    cases h
    exact hBegins

theorem begins_of_isQuote {q : UInt8} (hq : isQuote q = true) (x : Text) :
    blanks (q :: x) = ([], q :: x) := by
  simp only [isQuote, Bool.or_eq_true, decide_eq_true_eq] at hq
  rcases hq with (rfl | rfl) | rfl <;> exact blanks_of_start x rfl (by decide)

/-- The first bytes of a token begin a token by themselves. -/
theorem begins_of_append {c : UInt8} {r x : Text}
    (h : blanks (c :: (r ++ x)) = ([], c :: (r ++ x)))
    (hComment : (c = 47 && r.head? = some 42) = false) : blanks (c :: r) = ([], c :: r) := by
  by_cases hBlank : isBlank c = true
  · rw [blanks_of_isBlank hBlank] at h
    cases h
  · by_cases hSlash : c = 47
    · subst hSlash
      cases r with
      | nil => exact blanks.eq_def _
      | cons d r =>
        have hStar : d ≠ 42 := by simpa using hComment
        have hSecond : d ≠ 47 := by
          rintro rfl
          rw [List.cons_append, blanks_of_line] at h
          cases h
        rw [blanks.eq_def]
        simp [isBlank, hStar, hSecond]
    · exact blanks_of_start r (Bool.eq_false_iff.mpr hBlank) hSlash

theorem lt_stringLength_append {q b : UInt8} {r : Text} (h : isClosed q r = false) (x : Text) :
    r.length < stringLength q (r ++ b :: x) := by
  induction r using stringTail_induction with
  | nil =>
    by_cases hb : b = 92
    · subst hb
      cases x <;> simp [stringLength]
    · rw [List.nil_append, stringLength_cons x hb]
      split <;> simp
  | backslash => simp [stringLength]
  | escape c r ih => simpa [stringLength] using ih h
  | plain c r hc ih =>
    rw [isClosed_cons r hc, Bool.or_eq_false_iff, decide_eq_false_iff_not] at h
    rw [List.cons_append, stringLength_cons _ hc, if_neg h.1, List.length_cons]
    exact Nat.succ_lt_succ (ih h.2)

/-- A token that ends within the text is no comment, and no string that goes on. -/
theorem settled_of_tail_length_le {c b : UInt8} {r x : Text}
    (h : (lexeme c (r ++ b :: x)).tail.length ≤ r.length) : Settled c r := by
  constructor
  · by_contra hComment
    obtain ⟨hSlash, hStar⟩ := Bool.and_eq_true_iff.mp (Bool.not_eq_false _ ▸ hComment)
    obtain ⟨inside, rfl⟩ := List.head?_eq_some_iff.mp (of_decide_eq_true hStar)
    rw [of_decide_eq_true hSlash] at h
    have hLexeme : lexeme 47 (42 :: inside ++ b :: x) =
        ⟨.illegal, "/*", 42 :: inside ++ b :: x⟩ := rfl
    simp only [hLexeme, List.length_append, List.length_cons] at h
    omega
  · intro hQuote
    by_contra hOpen
    have hLonger := lt_stringLength_append (b := b) (Bool.eq_false_iff.mpr hOpen) x
    rw [lexeme_of_isQuote hQuote, List.length_take_of_le (stringLength_le c _)] at h
    omega

/-- The string that begins with the quote `q` at `l`, and the tokens behind it. -/
def stringTokens (l : Location) (q : UInt8) (x : Text) (newline : Bool) : List Token :=
  let tail := x.take (stringLength q x)
  let stop := l.after (q :: tail)
  ⟨.string, q :: tail, l, stop.previous, newline⟩ :: tokensFrom stop (x.drop (stringLength q x))

theorem tokensFrom_of_blanks_quote {s x : Text} {q : UInt8} (hq : isQuote q = true)
    (h : (blanks s).2 = q :: x) (l : Location) :
    tokensFrom l s = stringTokens (l.after (blanks s).1) q x ((blanks s).1.contains 10) := by
  rw [tokensFrom_of_blanks_cons l h, lexeme_of_isQuote hq,
    List.length_take_of_le (stringLength_le q x)]
  simp [stringTokens, stopOf]

/-- A string right behind blanks is behind them whatever its text is. -/
theorem tokensFrom_of_blanks_before {pre body : Text} {q : UInt8} (hq : isQuote q = true)
    (h : blanks (pre ++ q :: body) = (pre, q :: body)) (l : Location) (x : Text) :
    tokensFrom l (pre ++ q :: x) = stringTokens (l.after pre) q x (pre.contains 10) := by
  have hSame := blanks_append_of_begins h (by simp) (begins_of_isQuote hq x)
  rw [tokensFrom_of_blanks_quote hq (congrArg Prod.snd hSame), hSame]

/-- If a token begins with the quote behind `pre`, the tokens before it are the same whatever
follows the quote. -/
theorem exists_tokens_before_string {l : Location} {pre body : Text} {q : UInt8}
    (hq : isQuote q = true)
    (h : ∃ t ∈ tokensFrom l (pre ++ q :: body), t.start = l.after pre) :
    ∃ before newline, ∀ x,
      tokensFrom l (pre ++ q :: x) = before ++ stringTokens (l.after pre) q x newline := by
  obtain ⟨t, ht, hStart⟩ := h
  have hOffset : t.start.offset = l.offset + pre.length := by rw [hStart, Location.offset_after]
  have hWhole := blanks_append (pre ++ q :: body)
  generalize hBlanks : blanks (pre ++ q :: body) = split at hWhole
  obtain ⟨gap, rest⟩ := split
  dsimp only at hWhole
  cases rest with
  | nil =>
    rw [tokensFrom_of_blanks_nil l (congrArg Prod.snd hBlanks), List.mem_singleton] at ht
    have hLength := congrArg List.length hWhole
    rw [List.append_nil, List.length_append, List.length_cons] at hLength
    rw [ht, hBlanks, Location.offset_after] at hOffset
    dsimp only at hOffset
    omega
  | cons c r =>
    have hTokens := tokensFrom_of_blanks_cons l (congrArg Prod.snd hBlanks)
    rw [hBlanks] at hTokens
    have hPlaces : t.start.offset = l.offset + gap.length ∨
        l.offset + gap.length + (lexeme c r).tail.length < t.start.offset := by
      rw [hTokens] at ht
      rcases List.mem_cons.mp ht with rfl | hLater
      · exact .inl (Location.offset_after l gap)
      · have hBehind := offset_le_of_mem hLater
        rw [Location.offset_after, Location.offset_after, List.length_cons] at hBehind
        exact .inr (by dsimp only at hBehind; omega)
    rcases List.append_eq_append_iff.mp hWhole with ⟨more, rfl, hRest⟩ | ⟨more, rfl, hRest⟩
    · cases more with
      | nil =>
        obtain ⟨rfl, rfl⟩ := List.cons.inj hRest
        rw [List.append_nil] at hBlanks ⊢
        exact ⟨[], _, tokensFrom_of_blanks_before hq hBlanks l⟩
      | cons c' r' =>
        rw [List.cons_append] at hRest
        obtain ⟨rfl, rfl⟩ := List.cons.inj hRest
        rw [List.length_append, List.length_cons] at hOffset
        have hSettled : Settled c r' := by
          refine settled_of_tail_length_le (b := q) (x := body) ?_
          omega
        have hFirst := blanks_append_of_begins hBlanks (by simp)
          (begins_of_append (begins_of_blanks (congrArg Prod.snd hBlanks)) hSettled.comment)
        obtain ⟨t₀, l', rest, _, hShorter, hFirstStart, hPlace, _, hMore⟩ :=
          tokensFrom_append_separator (congrArg Prod.snd hFirst) hSettled l
        have hSeparates := separates_of_isQuote hq
        rw [hMore q body hSeparates] at ht
        have hLater : t ∈ tokensFrom l' (rest ++ q :: body) := by
          refine (List.mem_cons.mp ht).resolve_left ?_
          rintro rfl
          rw [hFirstStart, hFirst, Location.offset_after] at hOffset
          dsimp only at hOffset
          omega
        obtain ⟨before, newline, hBefore⟩ :=
          exists_tokens_before_string hq ⟨t, hLater, hStart.trans hPlace.symm⟩
        refine ⟨t₀ :: before, newline, fun x => ?_⟩
        rw [hMore q x hSeparates, hBefore x, hPlace]
        rfl
    · rw [List.length_append] at hPlaces
      obtain rfl : more = [] := List.length_eq_zero_iff.mp (by omega)
      rw [List.append_nil] at hBlanks
      rw [List.nil_append] at hRest
      rw [← hRest] at hBlanks
      exact ⟨[], _, tokensFrom_of_blanks_before hq hBlanks l⟩
termination_by pre.length

theorem stringTokens_of_length {q : UInt8} {s rest : Text}
    (h : stringLength q (s ++ q :: rest) = s.length + 1) (l : Location) (newline : Bool) :
    stringTokens l q (s ++ q :: rest) newline =
      ⟨.string, q :: (s ++ [q]), l, (l.after (q :: (s ++ [q]))).previous, newline⟩ ::
        tokensFrom (l.after (q :: (s ++ [q]))) rest := by
  have hText : s ++ q :: rest = s ++ [q] ++ rest := by simp
  have hLength : s.length + 1 = (s ++ [q]).length := by simp
  rw [stringTokens, h, hLength, hText, List.take_left, List.drop_left]

/-- The token that begins with a quote is the string that begins there. -/
theorem literal_of_mem {l : Location} {pre body : Text} {q : UInt8} {t : Token}
    (hq : isQuote q = true) (ht : t ∈ tokensFrom l (pre ++ q :: body))
    (hStart : t.start = l.after pre) : t.literal = q :: body.take (stringLength q body) := by
  obtain ⟨before, newline, hTokens⟩ := exists_tokens_before_string hq ⟨t, ht, hStart⟩
  have hDistinct := (pairwise_before l (pre ++ q :: body)).imp fun h => h.ne
  have hString : (stringTokens (l.after pre) q body newline).head (by simp [stringTokens]) ∈
      tokensFrom l (pre ++ q :: body) := by
    rw [hTokens body]
    exact List.mem_append_right before (List.head_mem _)
  have hSame := List.inj_on_of_nodup_map (List.pairwise_map.mpr hDistinct) ht hString
    (congrArg Location.pos hStart)
  rw [hSame]
  rfl

theorem stringLength_of_forall {q : UInt8} {s : Text} (hq : isQuote q = true)
    (h : ∀ b ∈ s, b ≠ q ∧ b ≠ 92) (rest : Text) :
    stringLength q (s ++ q :: rest) = s.length + 1 := by
  induction s with
  | nil =>
    have hBackslash : q ≠ 92 := by
      rintro rfl
      exact absurd hq (by decide)
    rw [List.nil_append, stringLength_cons rest hBackslash, if_pos rfl]
    rfl
  | cons b s ih =>
    obtain ⟨hb, hs⟩ := List.forall_mem_cons.mp h
    rw [List.cons_append, stringLength_cons _ hb.2, if_neg hb.1, ih hs, List.length_cons]

theorem value?_of_forall {q : UInt8} {s : Text} (hq : isQuote q = true) (h : ∀ b ∈ s, b ≠ 92) :
    StringLiteral.value? (q :: (s ++ [q])) = some s := by
  have hText : StringLiteral.unescape? s = some s := by
    induction s with
    | nil => rfl
    | cons b s ih =>
      obtain ⟨hb, hs⟩ := List.forall_mem_cons.mp h
      rw [StringLiteral.unescape?.eq_4 _ _ (by simp [hb]) (by simp [hb]), ih hs]
      rfl
  have hQuotes : (decide (q = 34) || decide (q = 39) || decide (q = 96)) = true := hq
  rw [StringLiteral.value?, List.getLast?_concat, List.dropLast_concat, hText, hQuotes]
  simp

end Lexer

end AnchorScript
