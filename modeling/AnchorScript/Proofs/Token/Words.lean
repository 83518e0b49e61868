import AnchorScript.Token.Lexer

/-!
# Words

The text of a name, a keyword or a number is a word: letters, digits, underscores and dollar signs,
at least one of them. A number begins with a digit and the other words do not.
-/

namespace AnchorScript

def IsWord (s : Text) : Prop := s ≠ [] ∧ ∀ b ∈ s, Lexer.isIdentPart b = true

theorem isWord_of_all {s : Text} (hNonempty : s.isEmpty = false)
    (hParts : s.all Lexer.isIdentPart = true) : IsWord s :=
  ⟨List.isEmpty_eq_false_iff.mp hNonempty, List.all_eq_true.mp hParts⟩

theorem IsWord.append {s t : Text} (hs : IsWord s) (ht : IsWord t) : IsWord (s ++ t) :=
  ⟨List.append_ne_nil_of_left_ne_nil hs.1 t, List.forall_mem_append.mpr ⟨hs.2, ht.2⟩⟩

/-- The text is a word whose first byte passes the test. -/
def BeginsWord (first : UInt8 → Bool) (s : Text) : Prop :=
  ∃ c r, s = c :: r ∧ first c = true ∧ ∀ b ∈ r, Lexer.isIdentPart b = true

/-- A word carries its own text, and only the keywords are spelled like keywords. -/
def Token.Spelled (t : Token) : Prop :=
  match t.kind with
  | .ident => BeginsWord Lexer.isIdentStart t.literal ∧ Keyword.ofText? t.literal = none
  | .keyword k => BeginsWord Lexer.isIdentStart t.literal ∧ Keyword.ofText? t.literal = some k
  | .number => BeginsWord Text.isDigit t.literal
  | _ => True

def AllLexed (ts : List Token) : Prop := ∀ t ∈ ts, t.Spelled

theorem BeginsWord.isWord {first : UInt8 → Bool} {s : Text} (h : BeginsWord first s)
    (hFirst : ∀ b, first b = true → Lexer.isIdentPart b = true) : IsWord s := by
  obtain ⟨c, r, rfl, hc, hr⟩ := h
  exact ⟨List.cons_ne_nil c r, List.forall_mem_cons.mpr ⟨hFirst c hc, hr⟩⟩

theorem isIdentPart_of_isIdentStart (b : UInt8) (h : Lexer.isIdentStart b = true) :
    Lexer.isIdentPart b = true := by
  rw [Lexer.isIdentPart, h, Bool.true_or]

theorem isIdentPart_of_isDigit (b : UInt8) (h : Text.isDigit b = true) :
    Lexer.isIdentPart b = true := by
  rw [Lexer.isIdentPart, h, Bool.or_true]

def IsName (s : Text) : Prop := BeginsWord Lexer.isIdentStart s

theorem IsName.isWord {s : Text} (h : IsName s) : IsWord s :=
  BeginsWord.isWord h isIdentPart_of_isIdentStart

theorem Token.Spelled.isName {t : Token} (h : t.Spelled) (hName : t.isName = true) :
    IsName t.literal := by
  unfold Token.isName at hName
  unfold Token.Spelled at h
  split at hName
  · rename_i hKind
    rw [hKind] at h
    exact h.1
  · rename_i hKind
    rw [hKind] at h
    exact h.1
  · cases hName

theorem AllLexed.suffix {ts rest : List Token} (h : AllLexed ts) (hRest : rest <:+ ts) :
    AllLexed rest :=
  fun t ht => h t (hRest.subset ht)

namespace Lexer

theorem beginsWord_cons_takeWhile {first : UInt8 → Bool} {c : UInt8} (r : Text)
    (h : first c = true) : BeginsWord first (c :: r.takeWhile isIdentPart) :=
  ⟨c, _, rfl, h, List.all_eq_true.mp List.all_takeWhile⟩

theorem spelled_of_lexeme {c : UInt8} {r : Text} {k : Lexeme} (hk : lexeme c r = k)
    (start stop : Location) (newline : Bool) :
    Token.Spelled ⟨k.kind, k.literal, start, stop, newline⟩ := by
  unfold lexeme at hk
  split at hk
  · subst hk
    trivial
  · split at hk
    · subst hk
      trivial
    · split at hk
      · subst hk
        trivial
      · split at hk
        · rename_i hStart
          have hWord := beginsWord_cons_takeWhile r hStart
          dsimp only at hk
          split at hk
          · rename_i hKeyword
            subst hk
            exact ⟨hWord, hKeyword⟩
          · rename_i hNone
            subst hk
            exact ⟨hWord, hNone⟩
        · split at hk
          · rename_i hDigit
            subst hk
            exact beginsWord_cons_takeWhile r hDigit
          · subst hk
            trivial

theorem spelled_tokensFrom (l : Location) (s : Text) : ∀ t ∈ tokensFrom l s, t.Spelled := by
  fun_induction tokensFrom l s with
  | case1 =>
    intro t ht
    rw [List.mem_singleton.mp ht]
    trivial
  | case2 l s gap start c r hRest k stop newline ih =>
    intro t ht
    rcases List.mem_cons.mp ht with rfl | ht
    · exact spelled_of_lexeme rfl _ _ _
    · exact ih t ht

end Lexer

theorem spelled_tokens (src : Text) : ∀ t ∈ tokens src, t.Spelled :=
  Lexer.spelled_tokensFrom .start src

theorem allLexed_tokens (src : Text) : AllLexed (tokens src) := spelled_tokens src

end AnchorScript
