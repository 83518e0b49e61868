import AnchorScript.Proofs.Token.Ending

/-!
# Tokens and gaps make up the source

The tokens of a source cover pieces of it one behind the other, and what lies between them is white
space and complete comments. A token carries the bytes that it covers, a place is what the bytes
before it make of it, and a token knows of the line breaks in the gap before it.
-/

namespace AnchorScript

def Text.slice (s : Text) (start stop : Nat) : Text := (s.drop start).take (stop - start)

/-- The place behind the text: its length, one more than its line feeds, and one more than the bytes
since the last of them. -/
def Location.behind (s : Text) : Location :=
  ⟨s.length, 1 + s.count 10, 1 + (s.reverse.takeWhile (· ≠ 10)).length⟩

/-- White space and complete comments, with `rest` behind them. A block comment runs through the
first mark that closes it, and a line comment up to a line feed or to the end of the input. -/
inductive IsGap (rest : Text) : Text → Prop
  | nil : IsGap rest []
  | white {b : UInt8} {gap : Text} (hWhite : b ∈ Text.ofString " \t\n\r") (hGap : IsGap rest gap) :
      IsGap rest (b :: gap)
  | line {body gap : Text} (hBody : 10 ∉ body) (hEnd : ∀ b, (gap ++ rest).head? = some b → b = 10)
      (hGap : IsGap rest gap) : IsGap rest ("//" ++ (body ++ gap))
  | block {body gap : Text} (hBody : ¬Text.ofString "*/" <:+: body ++ "*") (hGap : IsGap rest gap) :
      IsGap rest ("/*" ++ (body ++ ("*/" ++ gap)))

namespace Token

/-- The bytes, with the strict comparisons read as the loose ones. -/
def loose (bytes : Text) : Text :=
  if bytes = "===" then "==" else if bytes = "!==" then "!=" else bytes

/-- What a token carries that covers these bytes. -/
def reading (t : Token) (bytes : Text) : Text := if t.isOpenComment then "/*" else loose bytes

/-- The token stands behind a gap that begins at the offset. -/
structure StandsBehind (src : Text) (offset : Nat) (t : Token) : Prop where
  offset_le : offset ≤ t.start.offset
  gap : IsGap (src.drop t.start.offset) (src.slice offset t.start.offset)
  place : t.start = .behind (src.take t.start.offset)
  newline : t.isOpenComment = false →
    (t.newlineBefore = true ↔ 10 ∈ src.slice offset t.start.offset)

/-- The token covers bytes of the source. Where a block comment begins, the token is one that the
source does not close. -/
structure Covers (src : Text) (t : Token) : Prop where
  kind : t.kind ≠ .endOfInput
  start_lt : t.start.offset < t.stop.offset
  stop_le : t.stop.offset ≤ src.length
  literal : t.literal = t.reading (src.slice t.start.offset t.stop.offset)
  comment : t.isOpenComment = true ↔ Text.ofString "/*" <+: src.drop t.start.offset
  unclosed : t.isOpenComment = true → t.stop.offset = src.length ∧
    ¬Text.ofString "*/" <:+: src.drop (t.start.offset + 2)

structure IsEnd (src : Text) (t : Token) : Prop where
  kind : t.kind = .endOfInput
  literal : t.literal = []
  start : t.start.offset = src.length
  stop : t.stop = t.start

end Token

/-- The tokens tile the source from the offset on, and `stop` is the token of its end. -/
structure Tiles (src : Text) (offset : Nat) (ts : List Token) (stop : Token) : Prop where
  covers : ∀ t ∈ ts, t.Covers src
  isEnd : stop.IsEnd src
  increasing : ts.Pairwise fun t t' => t.stop.offset ≤ t'.start.offset
  gaps : List.Forall₂ (Token.StandsBehind src) (offset :: ts.map (·.stop.offset)) (ts ++ [stop])

namespace Location

theorem behind_append_byte (s : Text) (b : UInt8) : behind (s ++ [b]) = (behind s).next b := by
  unfold next behind
  by_cases hb : b = 10
  · simp [hb]
    omega
  · simp [hb]
    omega

theorem after_behind (p s : Text) : (behind p).after s = behind (p ++ s) := by
  induction s generalizing p with
  | nil => rw [after_nil, List.append_nil]
  | cons b s ih => rw [after_cons, ← behind_append_byte, ih, List.append_assoc, List.singleton_append]

theorem offset_behind (s : Text) : (behind s).offset = s.length := rfl

theorem offset_previous (l : Location) : l.previous.offset = l.offset := by
  unfold previous
  split <;> rfl

end Location

theorem Text.slice_append (a b c : Text) : (a ++ (b ++ c)).slice a.length (a ++ b).length = b := by
  rw [slice, List.drop_left, List.length_append, Nat.add_sub_cancel_left, List.take_left]

namespace Lexer

theorem infix_close_iff {c : UInt8} {s : Text} (h : ∀ r, c = 42 → s = 47 :: r → False) :
    Text.ofString "*/" <:+: c :: s ↔ Text.ofString "*/" <:+: s := by
  rw [List.infix_cons_iff, or_iff_right]
  rintro ⟨r, hr⟩
  obtain ⟨hStar, hSlash⟩ := List.cons.inj hr
  exact h r hStar.symm hSlash.symm

theorem not_close_of_commentBody? {s : Text} (h : commentBody? s = none) :
    ¬Text.ofString "*/" <:+: s := by
  fun_induction commentBody? s with
  | case1 => decide
  | case2 r => cases h
  | case3 c r hOpen ih =>
    rw [infix_close_iff hOpen]
    exact ih (Option.map_eq_none_iff.mp h)

theorem exists_inside_of_commentBody? {s body rest : Text}
    (h : commentBody? s = some (body, rest)) :
    ∃ inside, body = inside ++ "*/" ∧ ¬Text.ofString "*/" <:+: inside ++ "*" := by
  fun_induction commentBody? s generalizing body rest with
  | case1 => cases h
  | case2 r =>
    cases h
    exact ⟨[], rfl, by decide⟩
  | case3 c r hOpen ih =>
    obtain ⟨⟨body', rest'⟩, hBody, hSame⟩ := Option.map_eq_some_iff.mp h
    cases hSame
    obtain ⟨inside, rfl, hInside⟩ := ih hBody
    refine ⟨c :: inside, rfl, ?_⟩
    rw [List.cons_append, infix_close_iff ?_]
    · exact hInside
    · intro r' hStar hSlash
      cases inside with
      | nil => cases hSlash
      | cons d inside =>
        obtain ⟨rfl, _⟩ := List.cons.inj hSlash
        exact hOpen _ hStar (commentBody?_append hBody).symm

theorem isGap_blanks (s : Text) : IsGap (blanks s).2 (blanks s).1 := by
  fun_induction blanks s with
  | case1 => exact .nil
  | case2 c r hBlank skipped rest hRest ih =>
    rw [hRest] at ih
    apply IsGap.white _ ih
    have hBytes : Text.ofString " \t\n\r" = [32, 9, 10, 13] := by decide
    simpa [hBytes, isBlank, or_assoc] using hBlank
  | case3 line skipped rest hRest _ ih =>
    have hLine := blanks_append (line.dropWhile (· != 10))
    rw [hRest] at ih hLine
    apply IsGap.line _ _ ih
    · intro hBreak
      have hKept := List.all_eq_true.mp List.all_takeWhile _ hBreak
      cases hKept
    · intro b hb
      rw [hLine] at hb
      have hHead := List.head?_dropWhile_not (· != 10) line
      rw [hb] at hHead
      simpa using hHead
  | case4 inside body after hBody skipped rest hRest _ ih =>
    rw [hRest] at ih
    obtain ⟨text, rfl, hText⟩ := exists_inside_of_commentBody? hBody
    have hGap := IsGap.block hText ih
    rwa [← List.append_assoc text] at hGap
  | case5 => exact .nil
  | case6 => exact .nil
  | case7 => exact .nil

def Lexeme.isOpenComment (k : Lexeme) : Bool := k.kind = .illegal && k.literal = "/*"

section Lexemes

variable (c : UInt8) (r : Text)

theorem isOpenComment_lexeme :
    (lexeme c r).isOpenComment = (c = 47 && r.head? = some 42 : Bool) := by
  unfold Lexeme.isOpenComment
  fun_cases lexeme c r with
  | case1 h => rw [h]; rfl
  | case2 h => simp [h]
  | case3 h => simp [h]
  | case4 h => simp [h]
  | case5 h => simp [h]
  | case6 h => simp [h]
  | case7 h =>
    have hMark : [c] ≠ Text.ofString "/*" := fun hSame => by cases congrArg List.length hSame
    simp [h, hMark]

variable {c r} in
theorem isOpenComment_lexeme_iff :
    (lexeme c r).isOpenComment = true ↔ Text.ofString "/*" <+: c :: r := by
  rw [isOpenComment_lexeme, Bool.and_eq_true, decide_eq_true_eq, decide_eq_true_eq]
  constructor
  · rintro ⟨rfl, hStar⟩
    obtain ⟨inside, rfl⟩ := List.head?_eq_some_iff.mp hStar
    exact ⟨inside, rfl⟩
  · rintro ⟨inside, hInside⟩
    obtain ⟨rfl, rfl⟩ := List.cons.inj hInside
    exact ⟨rfl, rfl⟩

theorem offset_stopOf (k : Lexeme) (l : Location) : (stopOf k l).offset = l.offset := by
  unfold stopOf
  split
  · rfl
  · exact l.offset_previous

theorem kind_lexeme_ne : (lexeme c r).kind ≠ .endOfInput := by
  fun_cases lexeme c r <;> simp

theorem newline_of_lexeme (h : (lexeme c r).isOpenComment = false) :
    ((lexeme c r).kind = .illegal && (lexeme c r).tail.contains 10 : Bool) = false := by
  rw [isOpenComment_lexeme] at h
  fun_cases lexeme c r with
  | case1 hOpen =>
    rw [h] at hOpen
    cases hOpen
  | case2 | case3 | case4 | case5 | case6 | case7 => simp

theorem text_of_operator? {c : UInt8} {r : Text} {p : Punct} {n : Nat}
    (h : operator? c r = some (p, n)) : p.text = Token.loose (c :: r.take n) := by
  unfold operator? at h
  split at h
  all_goals first
    | (cases h <;> rfl)
    | (split at h <;> cases h <;> rfl)

theorem loose_cons_of_ne {c : UInt8} (r : Text) (hEq : c ≠ 61) (hBang : c ≠ 33) :
    Token.loose (c :: r) = c :: r := by
  rw [Token.loose, if_neg, if_neg]
  · exact fun h => hBang (List.cons.inj h).1
  · exact fun h => hEq (List.cons.inj h).1

theorem literal_lexeme (c : UInt8) (r : Text) : (lexeme c r).literal =
    if (lexeme c r).isOpenComment then Text.ofString "/*"
    else Token.loose (c :: (lexeme c r).tail) := by
  have hWord {w : Text} (h : isIdentPart c = true) : c :: w = Token.loose (c :: w) := by
    rw [loose_cons_of_ne] <;> (rintro rfl; cases h)
  cases hOpen : (lexeme c r).isOpenComment with
  | true =>
    obtain ⟨_, hLiteral⟩ := Bool.and_eq_true_iff.mp hOpen
    exact of_decide_eq_true hLiteral
  | false =>
    rw [isOpenComment_lexeme] at hOpen
    rw [if_neg Bool.false_ne_true]
    fun_cases lexeme c r with
    | case1 hComment =>
      rw [hOpen] at hComment
      cases hComment
    | case2 _ p n hOperator => exact text_of_operator? hOperator
    | case3 _ _ hQuote => rw [loose_cons_of_ne] <;> (rintro rfl; cases hQuote)
    | case4 => exact hWord (isIdentPart_of_isIdentStart c ‹_›)
    | case5 => exact hWord (isIdentPart_of_isIdentStart c ‹_›)
    | case6 => exact hWord (isIdentPart_of_isDigit c ‹_›)
    | case7 =>
      have hShort {s : Text} (hs : s.length = 3) : [c] ≠ s := by
        rintro rfl
        cases hs
      rw [Token.loose, if_neg (hShort rfl), if_neg (hShort rfl)]

end Lexemes

end Lexer

namespace Token

theorem StandsBehind.of_gap {p gap rest : Text} {t : Token} (hGap : IsGap rest gap)
    (hStart : t.start = .behind (p ++ gap))
    (hNewline : t.isOpenComment = false → (t.newlineBefore = true ↔ 10 ∈ gap)) :
    t.StandsBehind (p ++ (gap ++ rest)) p.length := by
  have hOffset : t.start.offset = (p ++ gap).length := by rw [hStart, Location.offset_behind]
  have hSlice : (p ++ (gap ++ rest)).slice p.length t.start.offset = gap := by
    rw [hOffset, Text.slice_append]
  constructor
  · rw [hOffset, List.length_append]
    omega
  · rw [hSlice, hOffset, ← List.append_assoc, List.drop_left]
    exact hGap
  · rw [hOffset, ← List.append_assoc, List.take_left]
    exact hStart
  · rwa [hSlice]

open Lexer in
theorem Covers.of_lexeme {before r : Text} {c : UInt8} (h : blanks (c :: r) = ([], c :: r))
    (newline : Bool) :
    Covers (before ++ c :: r) ⟨(lexeme c r).kind, (lexeme c r).literal, .behind before,
      stopOf (lexeme c r) (.behind (before ++ c :: (lexeme c r).tail)), newline⟩ := by
  obtain ⟨rest, hRest⟩ := isPrefix_lexeme_tail c r
  have hStop : (stopOf (lexeme c r) (.behind (before ++ c :: (lexeme c r).tail))).offset =
      (before ++ c :: (lexeme c r).tail).length := offset_stopOf _ _
  have hText : before ++ c :: r = before ++ (c :: (lexeme c r).tail ++ rest) := by
    rw [List.cons_append, hRest]
  constructor
  · exact kind_lexeme_ne c r
  · rw [hStop, Location.offset_behind, List.length_append, List.length_cons]
    omega
  · rw [hStop, hText, ← List.append_assoc]
    exact (List.prefix_append _ rest).length_le
  · rw [hStop, Location.offset_behind, hText, Text.slice_append]
    exact literal_lexeme c r
  · rw [Location.offset_behind, List.drop_left]
    exact isOpenComment_lexeme_iff
  · intro hOpen
    obtain ⟨inside, hInside⟩ := isOpenComment_lexeme_iff.mp hOpen
    obtain ⟨rfl, rfl⟩ := List.cons.inj hInside
    constructor
    · exact hStop
    · rw [Location.offset_behind, List.drop_length_add_append]
      exact not_close_of_commentBody? (commentBody?_of_blanks (congrArg Prod.snd h))

end Token

namespace Tiles

variable {src : Text} {offset : Nat} {ts : List Token} {t stop : Token}

theorem offset_le_of_mem (h : Tiles src offset ts stop) :
    ∀ t ∈ ts, offset ≤ t.start.offset := by
  cases ts with
  | nil => simp
  | cons t ts =>
    obtain ⟨hStands, _⟩ := List.forall₂_cons.mp h.gaps
    obtain ⟨hCovers, _⟩ := List.forall_mem_cons.mp h.covers
    obtain ⟨hBehind, _⟩ := List.pairwise_cons.mp h.increasing
    have hStart := hStands.offset_le
    have hStop := hCovers.start_lt
    refine List.forall_mem_cons.mpr ⟨hStart, fun t' ht' => ?_⟩
    have hNext := hBehind t' ht'
    omega

theorem nil (hEnd : stop.IsEnd src) (hStands : stop.StandsBehind src offset) :
    Tiles src offset [] stop :=
  ⟨by simp, hEnd, .nil, .cons hStands .nil⟩

theorem cons (hCovers : t.Covers src) (hStands : t.StandsBehind src offset)
    (h : Tiles src t.stop.offset ts stop) : Tiles src offset (t :: ts) stop where
  covers := List.forall_mem_cons.mpr ⟨hCovers, h.covers⟩
  isEnd := h.isEnd
  increasing := List.pairwise_cons.mpr ⟨h.offset_le_of_mem, h.increasing⟩
  gaps := .cons hStands h.gaps

/-- Only the last token can be a comment that is not closed. -/
theorem getLast?_of_isOpenComment (h : Tiles src offset ts stop) (ht : t ∈ ts)
    (hOpen : t.isOpenComment = true) : ts.getLast? = some t := by
  obtain ⟨before, more, rfl⟩ := List.append_of_mem ht
  cases more with
  | nil => exact List.getLast?_concat
  | cons t' more =>
    obtain ⟨_, hBehind, _⟩ := List.pairwise_append.mp h.increasing
    obtain ⟨hNext, _⟩ := List.pairwise_cons.mp hBehind
    obtain ⟨hStop, _⟩ := (h.covers t ht).unclosed hOpen
    have hAfter := hNext t' List.mem_cons_self
    have hCovers := h.covers t' (List.mem_append_right _ (List.mem_cons_of_mem t List.mem_cons_self))
    have hStart := hCovers.start_lt
    have hEnd := hCovers.stop_le
    omega

end Tiles

/-- Each step of the scanner lays one tile behind a gap, and the rest of the source is tiled from
where it stops. -/
theorem Lexer.exists_tiles (p s : Text) : ∃ ts stop,
    tokensFrom (.behind p) s = ts ++ [stop] ∧ Tiles (p ++ s) p.length ts stop := by
  have hGap := isGap_blanks s
  have hSource := blanks_append s
  match hs : (blanks s).2 with
  | [] =>
    have hTokens := tokensFrom_of_blanks_nil (.behind p) hs
    rw [hs] at hGap hSource
    rw [Location.after_behind] at hTokens
    generalize (blanks s).1 = gap at hGap hSource hTokens
    refine ⟨[], _, hTokens, .nil ⟨rfl, rfl, ?_, rfl⟩ ?_⟩
    · rw [← hSource, List.append_nil]
      rfl
    · rw [← hSource]
      exact .of_gap hGap rfl fun _ => by simp
  | c :: r =>
    have hBegins := begins_of_blanks hs
    have hText := eq_append_of_blanks hs
    have hTokens := tokensFrom_of_blanks_cons (.behind p) hs
    rw [hs] at hGap hSource
    rw [Location.after_behind, Location.after_behind] at hTokens
    generalize (blanks s).1 = gap at hGap hSource hText hTokens
    obtain ⟨ts, stop, hRest, hTiles⟩ := exists_tiles (p ++ gap ++ c :: (lexeme c r).tail)
      (r.drop (lexeme c r).tail.length)
    rw [hRest, ← List.cons_append] at hTokens
    refine ⟨_, stop, hTokens, .cons ?_ ?_ ?_⟩
    · rw [← hSource, ← List.append_assoc]
      exact .of_lexeme hBegins _
    · rw [← hSource]
      refine .of_gap hGap rfl fun hClosed => ?_
      rw [newline_of_lexeme c r hClosed, Bool.or_false]
      exact List.contains_iff_mem
    · change Tiles (p ++ s) (stopOf (lexeme c r) _).offset ts stop
      rw [offset_stopOf, Location.offset_behind, hText, ← List.append_assoc, ← List.append_assoc]
      exact hTiles
termination_by s.length
decreasing_by
  rw [List.length_drop]
  have hLength := congrArg List.length (blanks_append s)
  rw [hs, List.length_append, List.length_cons] at hLength
  omega

/-- The tokens of a source tile it, and at most one of them stands for a comment that the source does
not close. -/
theorem tokens_tile (src : Text) :
    ∃ ts stop, tokens src = ts ++ [stop] ∧ Tiles src 0 ts stop ∧
      ∀ t ∈ ts, t.isOpenComment = true → ts.getLast? = some t := by
  obtain ⟨ts, stop, hTokens, hTiles⟩ := Lexer.exists_tiles [] src
  exact ⟨ts, stop, hTokens, hTiles, fun t ht => hTiles.getLast?_of_isOpenComment ht⟩

end AnchorScript
