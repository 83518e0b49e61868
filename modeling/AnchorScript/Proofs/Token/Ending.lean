import AnchorScript.Proofs.Token.Writing

/-!
# Texts that go on

A text ends behind its last token, in a block comment or in a string. Behind its last token and in a
comment it can go on so that the tokens before stay what they are and any further text is scanned
behind them. A string takes what follows into itself.
-/

namespace AnchorScript

/-- The token reaches to the end of the text: it is the end itself or a comment or string that
nothing closes. -/
def Token.isCutOff (t : Token) : Bool :=
  t.kind = .endOfInput || t.isOpenComment ||
    t.kind = .string && (StringLiteral.value? t.literal).isNone

namespace Lexer

/-- What a text begins with ends within the text or where the text ends. -/
theorem takeWhile_append_right {p : UInt8 → Bool} {s x : Text}
    (h : s.dropWhile p = [] → x.takeWhile p = []) :
    (s ++ x).takeWhile p = s.takeWhile p ∧ (s ++ x).dropWhile p = s.dropWhile p ++ x := by
  induction s with
  | nil =>
    have hWhole := List.takeWhile_append_dropWhile (p := p) (l := x)
    rw [h rfl] at hWhole
    exact ⟨h rfl, hWhole⟩
  | cons c s ih =>
    cases hc : p c with
    | true =>
      rw [List.dropWhile_cons_of_pos hc] at h
      simp [hc, ih h]
    | false => simp [hc]

theorem commentBody?_append_right {s body rest : Text} (h : commentBody? s = some (body, rest))
    (x : Text) : commentBody? (s ++ x) = some (body, rest ++ x) := by
  fun_induction commentBody? s generalizing body rest with
  | case1 => cases h
  | case2 r =>
    cases h
    rfl
  | case3 c r hOpen ih =>
    obtain ⟨⟨body', rest'⟩, hBody, hSame⟩ := Option.map_eq_some_iff.mp h
    cases hSame
    have hOpen' : ∀ r', c = 42 → r ++ x = 47 :: r' → False := by
      intro r' hc hr
      cases r with
      | nil => cases hBody
      | cons d r => exact hOpen r hc (congrArg (· :: r) (List.cons.inj hr).1)
    rw [List.cons_append, commentBody?.eq_3 _ _ hOpen', ih hBody]
    rfl

/-- A space and the closing mark close every comment. -/
theorem commentBody?_close {s : Text} (h : commentBody? s = none) (x : Text) :
    commentBody? (s ++ 32 :: 42 :: 47 :: x) = some (s ++ [32, 42, 47], x) := by
  fun_induction commentBody? s with
  | case1 => rfl
  | case2 r => cases h
  | case3 c r hOpen ih =>
    have hOpen' : ∀ r', c = 42 → r ++ 32 :: 42 :: 47 :: x = 47 :: r' → False := by
      intro r' hc hr
      cases r with
      | nil => cases hr
      | cons d r => exact hOpen r hc (congrArg (· :: r) (List.cons.inj hr).1)
    rw [List.cons_append, commentBody?.eq_3 _ _ hOpen', ih (Option.map_eq_none_iff.mp h)]
    rfl

theorem blanks_of_isBlank {b : UInt8} (hb : isBlank b = true) (r : Text) :
    blanks (b :: r) = (b :: (blanks r).1, (blanks r).2) := by
  rw [blanks.eq_def]
  simp [hb]

theorem blanks_of_comment {inside body after : Text}
    (h : commentBody? inside = some (body, after)) :
    blanks (47 :: 42 :: inside) = (47 :: 42 :: body ++ (blanks after).1, (blanks after).2) := by
  rw [blanks.eq_def]
  simp [isBlank]
  split <;> simp_all

theorem blanks_of_line (line : Text) :
    blanks (47 :: 47 :: line) =
      (47 :: 47 :: line.takeWhile (· != 10) ++ (blanks (line.dropWhile (· != 10))).1,
        (blanks (line.dropWhile (· != 10))).2) := by
  rw [blanks.eq_def]
  simp [isBlank]

/-- Only a line break ends a comment that takes the rest of its line. -/
theorem blanks_append_right {s x : Text} (h : (blanks s).2 = [] → x.head? = some 10) :
    blanks (s ++ x) =
      ((blanks s).1 ++ (blanks ((blanks s).2 ++ x)).1, (blanks ((blanks s).2 ++ x)).2) := by
  fun_induction blanks s with
  | case1 => rfl
  | case2 c r hBlank skipped rest hRest ih =>
    rw [hRest] at ih
    rw [List.cons_append, blanks_of_isBlank hBlank, ih h]
    rfl
  | case3 line skipped rest hRest _ ih =>
    rw [hRest] at ih
    have hLine : (line ++ x).takeWhile (· != 10) = line.takeWhile (· != 10) ∧
        (line ++ x).dropWhile (· != 10) = line.dropWhile (· != 10) ++ x := by
      refine takeWhile_append_right fun hEnd => ?_
      have hBreak : x.head? = some 10 := h (by rw [← congrArg Prod.snd hRest, hEnd, blanks])
      cases x with
      | nil => rfl
      | cons c x =>
        cases hBreak
        rfl
    rw [List.cons_append, List.cons_append, blanks_of_line, hLine.1, hLine.2, ih h]
    simp
  | case4 inside body after hBody skipped rest hRest _ ih =>
    rw [hRest] at ih
    rw [List.cons_append, List.cons_append, blanks_of_comment (commentBody?_append_right hBody x),
      ih h]
    simp
  | case5 => rfl
  | case6 => rfl
  | case7 => rfl

theorem blanks_idem (s : Text) : blanks (blanks s).2 = ([], (blanks s).2) := by
  fun_induction blanks s with
  | case1 => exact blanks.eq_def _
  | case2 c r hBlank skipped rest hRest ih => rwa [hRest] at ih
  | case3 line skipped rest hRest _ ih => rwa [hRest] at ih
  | case4 inside body after hBody skipped rest hRest _ ih => rwa [hRest] at ih
  | case5 inside hOpen hBlank =>
    rw [blanks.eq_def]
    simp [isBlank]
    split <;> simp_all
  | case6 r hBlank hLine hComment =>
    rw [blanks.eq_def]
    simp [isBlank]
  | case7 c r hBlank hSlash => exact blanks_of_start r (Bool.eq_false_iff.mpr hBlank) hSlash

theorem begins_of_blanks {s r : Text} {c : UInt8} (h : (blanks s).2 = c :: r) :
    blanks (c :: r) = ([], c :: r) := by
  have hIdem := blanks_idem s
  rwa [h] at hIdem

theorem commentBody?_of_blanks {s inside : Text} (h : (blanks s).2 = 47 :: 42 :: inside) :
    commentBody? inside = none := by
  cases hBody : commentBody? inside with
  | none => rfl
  | some p =>
    have hSkip := blanks_of_comment hBody
    rw [begins_of_blanks h] at hSkip
    cases hSkip

/-- A byte that begins no comment and continues no word and no operator. -/
def separates (b : UInt8) : Bool := isBlank b || isQuote b

theorem separates_of_isBlank {b : UInt8} (h : isBlank b = true) : separates b = true := by
  rw [separates, h, Bool.true_or]

theorem separates_of_isQuote {b : UInt8} (h : isQuote b = true) : separates b = true := by
  rw [separates, h, Bool.or_true]

theorem separates_spec {b : UInt8} (h : separates b = true) :
    isIdentPart b = false ∧ b ≠ 42 ∧ b ≠ 47 ∧ b ≠ 61 ∧ b ≠ 62 ∧ b ≠ 38 ∧ b ≠ 124 := by
  simp only [separates, isBlank, isQuote, Bool.or_eq_true, decide_eq_true_eq] at h
  rcases h with (((rfl | rfl) | rfl) | rfl) | (rfl | rfl) | rfl <;> decide

/-- A separating byte behind the first bytes of a token makes no blanks of them. -/
theorem begins_append_separator {r : Text} {c b : UInt8} (hBegins : blanks (c :: r) = ([], c :: r))
    (hComment : (c = 47 && r.head? = some 42) = false) (hb : separates b = true) (x : Text) :
    blanks (c :: (r ++ b :: x)) = ([], c :: (r ++ b :: x)) := by
  by_cases hBlank : isBlank c = true
  · rw [blanks_of_isBlank hBlank] at hBegins
    cases hBegins
  · by_cases hSlash : c = 47
    · subst hSlash
      cases r with
      | nil =>
        obtain ⟨_, hStar, hSecond, _⟩ := separates_spec hb
        rw [List.nil_append, blanks.eq_def]
        simp [isBlank, hStar, hSecond]
      | cons d r =>
        have hStar : d ≠ 42 := by simpa using hComment
        have hSecond : d ≠ 47 := by
          rintro rfl
          rw [blanks_of_line] at hBegins
          cases hBegins
        rw [List.cons_append, blanks.eq_def]
        simp [isBlank, hStar, hSecond]
    · exact blanks_of_start _ (Bool.eq_false_iff.mpr hBlank) hSlash

theorem blanks_append_separator {s r : Text} {c b : UInt8} (h : (blanks s).2 = c :: r)
    (hComment : (c = 47 && r.head? = some 42) = false) (hb : separates b = true) (x : Text) :
    blanks (s ++ b :: x) = ((blanks s).1, c :: (r ++ b :: x)) := by
  have hRest := begins_append_separator (begins_of_blanks h) hComment hb x
  rw [blanks_append_right fun hNil => absurd (hNil.symm.trans h) (by simp), h, List.cons_append,
    hRest, List.append_nil]

theorem operator?_append_separator {b : UInt8} (hb : separates b = true) (c : UInt8) (r x : Text) :
    operator? c (r ++ b :: x) = operator? c r := by
  obtain ⟨_, _, _, hOther⟩ := separates_spec hb
  unfold operator?
  cases r with
  | nil => split <;> simp [hOther]
  | cons d r =>
    cases r with
    | nil => split <;> first | rfl | (split <;> simp_all)
    | cons e r =>
      by_cases hTwo : d = 61 ∧ e = 61
      · obtain ⟨rfl, rfl⟩ := hTwo
        split <;> rfl
      · split <;> first | rfl | (split <;> simp_all)

theorem length_operator?_le {c : UInt8} {r : Text} {p : Punct} {n : Nat}
    (h : operator? c r = some (p, n)) : n ≤ r.length := by
  unfold operator? at h
  split at h
  all_goals first | (split at h <;> cases h <;> simp) | (cases h <;> simp)

/-- What begins with `c` ends before the text does, if it is a comment or a string. -/
structure Settled (c : UInt8) (r : Text) : Prop where
  comment : (c = 47 && r.head? = some 42) = false
  string (h : isQuote c = true) : isClosed c r = true

theorem lexeme_append_separator {c b : UInt8} {r : Text} (h : Settled c r)
    (hb : separates b = true) (x : Text) : lexeme c (r ++ b :: x) = lexeme c r := by
  obtain ⟨hWord, hStar, _⟩ := separates_spec hb
  have hComment : (c = 47 && (r ++ b :: x).head? = some 42) = false := by
    have hHead := h.comment
    cases r with
    | nil => simp [hStar]
    | cons d r => exact hHead
  have hTake : (r ++ b :: x).takeWhile isIdentPart = r.takeWhile isIdentPart :=
    (takeWhile_append_right fun _ => List.takeWhile_cons_of_neg (by simp [hWord])).1
  unfold lexeme
  rw [hComment, h.comment, operator?_append_separator hb, hTake]
  cases hOperator : operator? c r with
  | some p =>
    obtain ⟨p, n⟩ := p
    dsimp only
    rw [List.take_append_of_le_length (length_operator?_le hOperator)]
    rfl
  | none =>
    cases hQuote : isQuote c with
    | false => rfl
    | true =>
      rw [stringLength_append (h.string hQuote),
        List.take_append_of_le_length (stringLength_le c r)]
      rfl

theorem isPrefix_lexeme_tail (c : UInt8) (r : Text) : (lexeme c r).tail <+: r := by
  fun_cases lexeme c r with
  | case1 => exact List.prefix_rfl
  | case2 => exact List.take_prefix _ r
  | case3 => exact List.take_prefix _ r
  | case4 => exact List.takeWhile_prefix _
  | case5 => exact List.takeWhile_prefix _
  | case6 => exact List.takeWhile_prefix _
  | case7 => exact List.nil_prefix

/-- A text is its first blanks, its first token and what follows. -/
theorem eq_append_of_blanks {s r : Text} {c : UInt8} (h : (blanks s).2 = c :: r) :
    s = (blanks s).1 ++ (c :: (lexeme c r).tail ++ r.drop (lexeme c r).tail.length) := by
  have hTail := List.prefix_iff_eq_take.mp (isPrefix_lexeme_tail c r)
  conv_lhs => rw [← blanks_append s, h, ← List.take_append_drop (lexeme c r).tail.length r, ← hTail]
  rfl

theorem lexeme_of_isQuote {c : UInt8} (hc : isQuote c = true) (r : Text) :
    lexeme c r = ⟨.string, c :: r.take (stringLength c r), r.take (stringLength c r)⟩ := by
  simp only [isQuote, Bool.or_eq_true, decide_eq_true_eq] at hc
  rcases hc with (rfl | rfl) | rfl <;> rfl

theorem isCutOff_of_lexeme {c : UInt8} {r : Text} (h : Settled c r) (start stop : Location)
    (newline : Bool) :
    Token.isCutOff ⟨(lexeme c r).kind, (lexeme c r).literal, start, stop, newline⟩ = false := by
  fun_cases lexeme c r with
  | case1 hComment =>
    rw [h.comment] at hComment
    cases hComment
  | case2 => rfl
  | case3 _ _ hQuote =>
    have hValue := value?_isSome_iff hQuote r
    rw [h.string hQuote] at hValue
    simpa [Token.isCutOff, Token.isOpenComment] using hValue
  | case4 => rfl
  | case5 => rfl
  | case6 => rfl
  | case7 =>
    have hMark : [c] ≠ Text.ofString "/*" := by
      intro hSame
      cases congrArg List.length hSame
    simpa [Token.isCutOff, Token.isOpenComment] using hMark

/-- The first token stands behind a line break. -/
def broken : List Token → List Token
  | [] => []
  | t :: ts => { t with newlineBefore := true } :: ts

theorem tokensFrom_of_break {s x : Text} (gap : Text)
    (h : blanks s = (gap ++ 10 :: (blanks x).1, (blanks x).2)) (l : Location) :
    ∃ l', tokensFrom l s = broken (tokensFrom l' x) := by
  refine ⟨(l.after gap).next 10, ?_⟩
  have hPlace : l.after (blanks s).1 = ((l.after gap).next 10).after (blanks x).1 := by
    rw [h, Location.after_append, Location.after_cons]
  have hBreak : (blanks s).1.contains 10 = true := by simp [h]
  have hRest : (blanks s).2 = (blanks x).2 := by rw [h]
  cases hx : (blanks x).2 with
  | nil =>
    rw [tokensFrom_of_blanks_nil l (hRest.trans hx), tokensFrom_of_blanks_nil _ hx, hPlace, hBreak]
    rfl
  | cons c r =>
    rw [tokensFrom_of_blanks_cons l (hRest.trans hx), tokensFrom_of_blanks_cons _ hx, hPlace,
      hBreak]
    rfl

/-- A text that ends behind its last token goes on behind a line break. -/
theorem tokensFrom_append_line {s : Text} (h : (blanks s).2 = []) (l : Location) (x : Text) :
    ∃ l', tokensFrom l (s ++ 10 :: x) = broken (tokensFrom l' x) := by
  refine tokensFrom_of_break (blanks s).1 ?_ l
  rw [blanks_append_right fun _ => rfl, h, List.nil_append, blanks_of_isBlank rfl]

/-- A comment that nothing closes is closed, and the text goes on behind a line break. -/
theorem tokensFrom_append_close {s inside : Text} (h : (blanks s).2 = 47 :: 42 :: inside)
    (l : Location) (x : Text) :
    ∃ l', tokensFrom l (s ++ 32 :: 42 :: 47 :: 10 :: x) = broken (tokensFrom l' x) := by
  refine tokensFrom_of_break ((blanks s).1 ++ 47 :: 42 :: (inside ++ [32, 42, 47])) ?_ l
  rw [blanks_append_right fun hNil => absurd (hNil.symm.trans h) (by simp), h, List.cons_append,
    List.cons_append, blanks_of_comment (commentBody?_close (commentBody?_of_blanks h) _),
    blanks_of_isBlank rfl, List.append_assoc]

theorem tokensFrom_append_separator {s r : Text} {c : UInt8} (h : (blanks s).2 = c :: r)
    (hSettled : Settled c r) (l : Location) :
    ∃ t l' rest, t.isCutOff = false ∧ rest.length < s.length ∧ t.start = l.after (blanks s).1 ∧
      l'.after rest = l.after s ∧ tokensFrom l s = t :: tokensFrom l' rest ∧
      ∀ b x, separates b = true →
        tokensFrom l (s ++ b :: x) = t :: tokensFrom l' (rest ++ b :: x) := by
  refine ⟨_, _, _, isCutOff_of_lexeme hSettled _ _ _, ?_, ?_, ?_, tokensFrom_of_blanks_cons l h,
    ?_⟩
  · have hLength := congrArg List.length (blanks_append s)
    rw [h, List.length_append, List.length_cons] at hLength
    rw [List.length_drop]
    omega
  · rfl
  · conv_rhs => rw [eq_append_of_blanks h]
    rw [← Location.after_append, ← Location.after_append]
  · intro b x hb
    have hBlanks := blanks_append_separator h hSettled.comment hb x
    rw [tokensFrom_of_blanks_cons l (congrArg Prod.snd hBlanks), hBlanks,
      lexeme_append_separator hSettled hb,
      List.drop_append_of_le_length (isPrefix_lexeme_tail c r).length_le]

/-- How the tokens of a text end, and how the text can go on. -/
inductive Ending (l : Location) (s : Text) : Prop
  | cut (pre : List Token) {rest : List Token} {stop : Token} (b : UInt8) (closing : Text)
      (hTokens : tokensFrom l s = pre ++ stop :: rest) (hPre : ∀ t ∈ pre, t.isCutOff = false)
      (hStop : stop.kind = .endOfInput ∨ stop.isOpenComment = true)
      (hRest : ∀ t ∈ rest, t.kind = .endOfInput)
      (hLine : ∀ x, ∃ tail, tokensFrom l (s ++ 10 :: x) = pre ++ tail) (hBlank : isBlank b = true)
      (hClose : ∀ x, ∃ l',
        tokensFrom l (s ++ b :: (closing ++ x)) = pre ++ broken (tokensFrom l' x))
  | inString (pre : List Token) {last stop : Token}
      (hTokens : tokensFrom l s = pre ++ [last, stop]) (hPre : ∀ t ∈ pre, t.isCutOff = false)
      (hString : last.kind = .string) (hOpen : StringLiteral.value? last.literal = none)

theorem ending_of_comment {s inside : Text} (h : (blanks s).2 = 47 :: 42 :: inside) (l : Location) :
    Ending l s := by
  have hTokens := tokensFrom_of_blanks_cons l h
  have hLexeme : lexeme 47 (42 :: inside) = ⟨.illegal, "/*", 42 :: inside⟩ := rfl
  rw [hLexeme, List.drop_length, tokensFrom_nil] at hTokens
  exact .cut [] 32 [42, 47, 10] hTokens (by simp) (.inr rfl) (by simp) (fun x => ⟨_, rfl⟩) rfl
    (tokensFrom_append_close h l)

theorem ending_of_string {s r : Text} {c : UInt8} (h : (blanks s).2 = c :: r)
    (hQuote : isQuote c = true) (hOpen : isClosed c r = false) (l : Location) : Ending l s := by
  have hTokens := tokensFrom_of_blanks_cons l h
  have hLexeme : lexeme c r = ⟨.string, c :: r, r⟩ := by
    rw [lexeme_of_isQuote hQuote, stringLength_of_not_isClosed hOpen, List.take_length]
  rw [hLexeme, List.drop_length, tokensFrom_nil] at hTokens
  refine .inString [] hTokens (by simp) rfl ?_
  have hValue := value?_isSome_iff hQuote r
  rwa [hOpen, stringLength_of_not_isClosed hOpen, List.take_length, Option.isSome_eq_false_iff,
    Option.isNone_iff_eq_none] at hValue

theorem ending (l : Location) (s : Text) : Ending l s := by
  match hs : (blanks s).2 with
  | [] =>
    exact .cut [] 10 [] (tokensFrom_of_blanks_nil l hs) (by simp) (.inl rfl) (by simp)
      (fun x => ⟨_, rfl⟩) rfl (tokensFrom_append_line hs l)
  | c :: r =>
    by_cases hComment : (c = 47 && r.head? = some 42) = true
    · obtain ⟨hSlash, hStar⟩ := Bool.and_eq_true_iff.mp hComment
      obtain ⟨inside, rfl⟩ := List.head?_eq_some_iff.mp (of_decide_eq_true hStar)
      exact ending_of_comment (of_decide_eq_true hSlash ▸ hs) l
    · by_cases hString : isQuote c = true ∧ isClosed c r = false
      · exact ending_of_string hs hString.1 hString.2 l
      · have hSettled : Settled c r :=
          ⟨Bool.eq_false_iff.mpr hComment, fun hQuote => by simpa [hQuote] using hString⟩
        obtain ⟨t, l', rest, ht, hShorter, _, _, hTokens, hMore⟩ :=
          tokensFrom_append_separator hs hSettled l
        cases ending l' rest with
        | cut pre b closing hRest hPre hStop hEnd hLine hBlank hClose =>
          refine .cut (t :: pre) b closing ?_ ?_ hStop hEnd ?_ hBlank ?_
          · rw [hTokens, hRest]
            rfl
          · exact List.forall_mem_cons.mpr ⟨ht, hPre⟩
          · intro x
            obtain ⟨tail, hTail⟩ := hLine x
            exact ⟨tail, by rw [hMore 10 x rfl, hTail]; rfl⟩
          · intro x
            obtain ⟨l'', hTail⟩ := hClose x
            exact ⟨l'', by rw [hMore b _ (separates_of_isBlank hBlank), hTail]; rfl⟩
        | inString pre hRest hPre hString hOpen =>
          rw [hRest] at hTokens
          exact .inString (t :: pre) hTokens (List.forall_mem_cons.mpr ⟨ht, hPre⟩) hString hOpen
termination_by s.length
decreasing_by exact hShorter

end Lexer

end AnchorScript
