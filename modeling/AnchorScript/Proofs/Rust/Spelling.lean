import AnchorScript.IntLiteral
import AnchorScript.Proofs.Rust.Names
import AnchorScript.Proofs.Rust.Reading

/-!
# Expressions and programs as they are spelled

The identifier of a source name and the literal of a source number are words, and the text of an
expression has the tokens of the tree it spells.

Source text is read byte by byte. A word goes on while its bytes are those of names and numbers,
through the mark of a raw identifier and through the colons of a path; spaces and line feeds stand
between lexemes, and a remark ends with its line.
-/

namespace AnchorScript.Rust

theorem isRustWord_of_isWord {s : Text} (h : IsWord s) : IsRustWord s :=
  ⟨h.1, fun b hb => by simp [isWordByte, h.2 b hb]⟩

theorem isRustWord_of_isOutputName {s : Text} (h : IsOutputName s) : IsRustWord s := by
  rcases h with ⟨_, hName | ⟨w, hName, rfl⟩⟩
  · exact isRustWord_of_isWord hName.isWord
  · refine ⟨List.cons_ne_nil _ _, ?_⟩
    have hBytes := (isRustWord_of_isWord hName.isWord).2
    exact List.forall_mem_append.mpr ⟨List.all_eq_true.mp (by decide), hBytes⟩

theorem isRustWord_of_number {s : Text} (h : BeginsWord Text.isDigit s) : IsRustWord s :=
  isRustWord_of_isWord (h.isWord isIdentPart_of_isDigit)

namespace Expr

/-- The tree that the text of an expression spells. -/
inductive Spells : Expr → Tree → Prop
  | int {lit : Text} (hNumber : BeginsWord Text.isDigit lit) : Spells (.int lit) (.word lit)
  | bool {b : Bool} : Spells (.bool b) (.word (Expr.bool b).text)
  | string {s : Text} :
      Spells (.string s) (.apply (.word (Text.ofString "String::from")) (.text (stringLiteral s)))
  | var {n : Text} (hName : IsOutputName n) : Spells (.var n) (.word n)
  | member {e : Expr} {t : Tree} {n : Text} (hObject : Spells e t) (hName : IsOutputName n) :
      Spells (.member e n) (.member t n)
  | call {e : Expr} {t : Tree} {m : Text} (hObject : Spells e t) (hName : IsOutputName m) :
      Spells (.call e m) (.call (.member t m))
  | binary {op : ArithOp} {l r : Expr} {t u : Tree} (hLeft : Spells l t) (hRight : Spells r u) :
      Spells (.binary op l r) (.binary op t u)
  | neg {e : Expr} {t : Tree} (hOperand : Spells e t) : Spells (.neg e) (.neg t)
  | paren {e : Expr} {t : Tree} (hInner : Spells e t) : Spells (.paren e) (.paren t)

theorem scan_op (op : ArithOp) (r : Text) :
    scan (32 :: (op.text ++ 32 :: r)) = (scan r).map (.op op :: ·) := by
  rw [scan_space]
  cases op <;> exact (scan_sign rfl rfl (32 :: r)).trans (by rw [scan_space])

theorem Spells.scan_append {e : Expr} {t : Tree} (h : Spells e t) {rest : Text}
    (hRest : Apart rest) : scan (e.text ++ rest) = (scan rest).map (t.tokens ++ ·) := by
  induction h generalizing rest with
  | int hNumber => exact scan_word (isRustWord_of_number hNumber) hRest
  | @bool b =>
    refine scan_word ?_ hRest
    cases b <;> exact isRustWord_of_all rfl rfl
  | @string s =>
    have hText : (Expr.string s).text ++ rest =
        Text.ofString "String::from" ++ 40 :: (stringLiteral s ++ 41 :: rest) := by
      change Text.ofString "String::from" ++ [40] ++ stringLiteral s ++ [41] ++ rest = _
      simp
    have hWord : IsRustWord (Text.ofString "String::from") := isRustWord_of_all rfl rfl
    have hOpen : Apart (40 :: (stringLiteral s ++ 41 :: rest)) := rfl
    rw [hText, scan_word hWord hOpen, scan_sign (t := .lparen) rfl rfl,
      scan_stringLiteral, scan_sign (t := .rparen) rfl rfl]
    simp [Tree.tokens, Function.comp_def]
  | var hName => exact scan_word (isRustWord_of_isOutputName hName) hRest
  | @member e t n _ hName ih =>
    have hWord := isRustWord_of_isOutputName hName
    have hText : (Expr.member e n).text ++ rest = e.text ++ 46 :: (n ++ rest) := by
      change e.text ++ [46] ++ n ++ rest = _
      simp
    have hDot : Apart (46 :: (n ++ rest)) := rfl
    rw [hText, ih hDot, scan_sign (t := .dot) rfl rfl, scan_word hWord hRest]
    simp [Tree.tokens, Function.comp_def]
  | @call e t m _ hName ih =>
    have hWord := isRustWord_of_isOutputName hName
    have hText : (Expr.call e m).text ++ rest = e.text ++ 46 :: (m ++ 40 :: 41 :: rest) := by
      change e.text ++ [46] ++ m ++ [40, 41] ++ rest = _
      simp
    have hDot : Apart (46 :: (m ++ 40 :: 41 :: rest)) := rfl
    have hOpen : Apart (40 :: 41 :: rest) := rfl
    rw [hText, ih hDot, scan_sign (t := .dot) rfl rfl, scan_word hWord hOpen,
      scan_sign (t := .lparen) rfl rfl, scan_sign (t := .rparen) rfl rfl]
    simp [Tree.tokens, Function.comp_def]
  | @binary op l r t u _ _ ihLeft ihRight =>
    have hText : (Expr.binary op l r).text ++ rest =
        l.text ++ 32 :: (op.text ++ 32 :: (r.text ++ rest)) := by
      change l.text ++ [32] ++ op.text ++ [32] ++ r.text ++ rest = _
      simp
    have hSpace : Apart (32 :: (op.text ++ 32 :: (r.text ++ rest))) := rfl
    rw [hText, ihLeft hSpace, scan_op, ihRight hRest]
    simp [Tree.tokens, Function.comp_def]
  | @neg e t _ ih =>
    change scan (45 :: (e.text ++ rest)) = _
    rw [scan_sign (t := .op .sub) rfl rfl, ih hRest]
    simp [Tree.tokens, Function.comp_def]
  | @paren e t _ ih =>
    have hText : (Expr.paren e).text ++ rest = 40 :: (e.text ++ 41 :: rest) := by
      change [40] ++ e.text ++ [41] ++ rest = _
      simp
    have hClose : Apart (41 :: rest) := rfl
    rw [hText, scan_sign (t := .lparen) rfl rfl, ih hClose, scan_sign (t := .rparen) rfl rfl]
    simp [Tree.tokens, Function.comp_def]

/-- The text of an expression is read as the tree it spells. -/
theorem Spells.read_text {e : Expr} {t : Tree} (h : Spells e t) (ht : t.Grouped) :
    read e.text = some t := by
  apply read_eq_of_scan _ ht
  have hEnd : Apart [] := rfl
  have hScan := h.scan_append hEnd
  simpa [scan] using hScan

end Expr

inductive Lexeme where
  | tok (t : Tok)
  /-- A byte-string literal with its quotes. -/
  | bytes (literal : Text)
  | sign (b : UInt8)
  | remark
  deriving DecidableEq

namespace Lexeme

def ofSign (b : UInt8) : Lexeme :=
  match sign? b with
  | some t => .tok t
  | none => .sign b

def ofLiteral (isBytes : Bool) (literal : Text) : Lexeme :=
  if isBytes then .bytes literal else .tok (.text literal)

end Lexeme

/-- What the reader is in the middle of. -/
inductive Mode where
  | free
  | word (w : Text)
  /-- A word and the first colon behind it. -/
  | colon (w : Text)
  | literal (isBytes : Bool) (s : Text)
  | escape (isBytes : Bool) (s : Text)
  | slash
  | remark
  deriving DecidableEq

namespace Mode

/-- A byte that no lexeme goes on into. -/
def start (b : UInt8) : List Lexeme × Mode :=
  if b = 32 ∨ b = 10 then ([], free)
  else if b = 34 then ([], literal false [34])
  else if b = 47 then ([], slash)
  else if Lexer.isIdentPart b then ([], word [b])
  else ([.ofSign b], free)

/-- The lexemes that are complete, before those of the byte itself. -/
def after (done : List Lexeme) (b : UInt8) : List Lexeme × Mode :=
  (done ++ (start b).1, (start b).2)

def step (b : UInt8) : Mode → List Lexeme × Mode
  | free => start b
  | word w =>
    if Lexer.isIdentPart b ∨ (b = 35 ∧ w = [114]) then ([], word (w ++ [b]))
    else if b = 58 then ([], colon w)
    else if b = 34 ∧ w = [98] then ([], literal true [98, 34])
    else after [.tok (.word w)] b
  | colon w =>
    if b = 58 then ([], word (w ++ [58, 58])) else after [.tok (.word w), .sign 58] b
  | literal isBytes s =>
    if b = 34 then ([.ofLiteral isBytes (s ++ [34])], free)
    else if b = 92 then ([], escape isBytes (s ++ [92]))
    else ([], literal isBytes (s ++ [b]))
  | escape isBytes s => ([], literal isBytes (s ++ [b]))
  | slash => if b = 47 then ([], remark) else after [.ofSign 47] b
  | remark => if b = 10 then ([.remark], free) else ([], remark)

/-- The lexemes that the end of the text completes; a literal has no end then. -/
def finish : Mode → List Lexeme
  | free => []
  | word w => [.tok (.word w)]
  | colon w => [.tok (.word w), .sign 58]
  | literal _ _ | escape _ _ => [.sign 34]
  | slash => [.ofSign 47]
  | remark => [.remark]

end Mode

def lexFrom (m : Mode) : Text → List Lexeme
  | [] => m.finish
  | b :: r => (m.step b).1 ++ lexFrom (m.step b).2 r

def lexemes (s : Text) : List Lexeme := lexFrom .free s

/-- The lexemes that are complete after the text, and what the reader is in the middle of. -/
def run (m : Mode) : Text → List Lexeme × Mode
  | [] => ([], m)
  | b :: r => ((m.step b).1 ++ (run (m.step b).2 r).1, (run (m.step b).2 r).2)

theorem lexFrom_append (m : Mode) (s rest : Text) :
    lexFrom m (s ++ rest) = (run m s).1 ++ lexFrom (run m s).2 rest := by
  induction s generalizing m with
  | nil => rfl
  | cons b r ih =>
    rw [List.cons_append, lexFrom, ih, run, List.append_assoc]

/-- No word goes on into the text. -/
def Parted (rest : Text) : Prop :=
  ∀ w, lexFrom (.word w) rest = .tok (.word w) :: lexemes rest

/-- The text is one word. -/
def OneWord (w : Text) : Prop := run .free w = ([], .word w)

instance (w : Text) : Decidable (OneWord w) := inferInstanceAs (Decidable (_ = _))

/-- The text ends where no lexeme goes on. -/
def Closed (s : Text) : Prop := (run .free s).2 = .free

theorem lexemes_append {s : Text} (h : Closed s) (rest : Text) :
    lexemes (s ++ rest) = lexemes s ++ lexemes rest := by
  have hAlone : lexemes s = (run .free s).1 := by
    have hText := lexFrom_append .free s []
    rw [h, List.append_nil] at hText
    exact hText.trans (List.append_nil _)
  rw [hAlone, lexemes, lexFrom_append, h]
  rfl

theorem lexemes_word {w rest : Text} (h : OneWord w) (hRest : Parted rest) :
    lexemes (w ++ rest) = .tok (.word w) :: lexemes rest := by
  rw [lexemes, lexFrom_append, h]
  exact hRest w

theorem run_word {s : Text} (h : ∀ b ∈ s, Lexer.isIdentPart b = true) (w : Text) :
    run (.word w) s = ([], .word (w ++ s)) := by
  induction s generalizing w with
  | nil => rw [List.append_nil, run]
  | cons b r ih =>
    obtain ⟨hb, hr⟩ := List.forall_mem_cons.mp h
    have hStep : Mode.step b (.word w) = ([], .word (w ++ [b])) := if_pos (.inl hb)
    rw [run, hStep, ih hr, List.append_assoc]
    rfl

theorem start_of_isIdentPart {b : UInt8} (h : Lexer.isIdentPart b = true) :
    Mode.start b = ([], .word [b]) :=
  Text.forall_ascii (P := fun b => Lexer.isIdentPart b = true → Mode.start b = ([], .word [b]))
    (by decide +kernel) (Lexer.isIdentPart_lt h) h

theorem oneWord_of_isWord {w : Text} (h : IsWord w) : OneWord w := by
  obtain ⟨hNonempty, hBytes⟩ := h
  obtain ⟨b, r, rfl⟩ := List.exists_cons_of_ne_nil hNonempty
  obtain ⟨hb, hr⟩ := List.forall_mem_cons.mp hBytes
  rw [OneWord, run, Mode.step, start_of_isIdentPart hb, run_word hr]
  rfl

theorem oneWord_marked {w : Text} (h : IsWord w) : OneWord (marked w) := by
  change run (.word (Text.ofString "r#")) w = ([], .word (marked w))
  exact run_word h.2 _

theorem oneWord_of_isOutputName {w : Text} (h : IsOutputName w) : OneWord w := by
  rcases h with ⟨_, hName | ⟨u, hName, rfl⟩⟩
  · exact oneWord_of_isWord hName.isWord
  · exact oneWord_marked hName.isWord

theorem lexFrom_literal {s literal rest : Text} (h : literalRest? s = some (literal, rest))
    (isBytes : Bool) (u : Text) :
    lexFrom (.literal isBytes u) s = .ofLiteral isBytes (u ++ literal) :: lexemes rest := by
  fun_induction literalRest? s generalizing literal rest u with
  | case1 => cases h
  | case2 r =>
    cases h
    rfl
  | case3 b r ih =>
    obtain ⟨⟨l, t⟩, hRest, hSame⟩ := Option.map_eq_some_iff.mp h
    cases hSame
    change lexFrom (.literal isBytes (u ++ [92] ++ [b])) r = _
    rw [ih hRest, List.append_assoc, List.append_assoc]
    rfl
  | case4 b r hQuote hBackslash ih =>
    obtain ⟨⟨l, t⟩, hRest, hSame⟩ := Option.map_eq_some_iff.mp h
    cases hSame
    have hNext := ih hRest (u ++ [b])
    rw [List.append_assoc] at hNext
    rw [lexFrom, Mode.step, if_neg hQuote]
    split
    · rename_i hEscape
      -- a backslash at the very end would leave the literal open
      subst hEscape
      cases r with
      | nil => cases hRest
      | cons b r => exact absurd rfl (hBackslash b r rfl)
    · exact hNext

theorem lexemes_stringLiteral (s rest : Text) :
    lexemes (stringLiteral s ++ rest) = .tok (.text (stringLiteral s)) :: lexemes rest := by
  have hText : stringLiteral s ++ rest =
      34 :: ((Text.chars s).flatMap escapeChar ++ 34 :: rest) := by
    change 34 :: (Text.chars s).flatMap escapeChar ++ [34] ++ rest = _
    simp
  rw [hText]
  exact lexFrom_literal (literalRest?_chars s rest) false [34]

theorem continues_escapeByte (b : UInt8) : Continues (escapeByte b) := by
  unfold escapeByte
  split
  · exact continues_escape b
  · rename_i hOther
    rw [Bool.or_eq_true, decide_eq_true_eq, decide_eq_true_eq, not_or] at hOther
    split
    · exact continues_of_plain (List.forall_mem_singleton.mpr hOther)
    · have hDigits : ∀ n < 256,
          (Text.hexByte (UInt8.ofNat n)).all (fun c => c ≠ 34 ∧ c ≠ 92) = true := by
        decide +kernel
      have hHex := hDigits b.toNat b.toNat_lt
      rw [UInt8.ofNat_toNat] at hHex
      exact (continues_escape 120).append (continues_of_plain (by simpa using hHex))

theorem lexemes_byteString (s rest : Text) :
    lexemes (byteString s ++ rest) = .bytes (byteString s) :: lexemes rest := by
  have hContinues : Continues (s.flatMap escapeByte) := by
    induction s with
    | nil => exact continues_nil
    | cons b r ih => exact (continues_escapeByte b).append ih
  have hLiteral : literalRest? (s.flatMap escapeByte ++ 34 :: rest) =
      some (s.flatMap escapeByte ++ [34], rest) := by
    rw [hContinues, literalRest?]
    rfl
  have hText : byteString s ++ rest = 98 :: 34 :: (s.flatMap escapeByte ++ 34 :: rest) := by
    change 98 :: 34 :: s.flatMap escapeByte ++ [34] ++ rest = _
    simp
  rw [hText]
  exact lexFrom_literal hLiteral true [98, 34]

theorem lexemes_op (op : ArithOp) (rest : Text) :
    lexemes (32 :: (op.text ++ 32 :: rest)) = .tok (.op op) :: lexemes rest := by
  cases op <;> rfl

/-- The text of an expression has the tokens of the tree it spells. -/
theorem Expr.Spells.lexemes_append {e : Expr} {t : Tree} (h : e.Spells t) {rest : Text}
    (hRest : Parted rest) :
    lexemes (e.text ++ rest) = t.tokens.map .tok ++ lexemes rest := by
  induction h generalizing rest with
  | int hNumber => exact lexemes_word (oneWord_of_isWord (hNumber.isWord isIdentPart_of_isDigit)) hRest
  | @bool b => cases b <;> exact lexemes_word rfl hRest
  | @string s =>
    have hText : (Expr.string s).text ++ rest =
        Text.ofString "String::from(" ++ (stringLiteral s ++ 41 :: rest) := by
      change Text.ofString "String::from(" ++ stringLiteral s ++ [41] ++ rest = _
      simp
    have hOpen : Closed (Text.ofString "String::from(") := rfl
    rw [hText, Rust.lexemes_append hOpen, lexemes_stringLiteral]
    rfl
  | var hName => exact lexemes_word (oneWord_of_isOutputName hName) hRest
  | @member e t n _ hName ih =>
    have hText : (Expr.member e n).text ++ rest = e.text ++ 46 :: (n ++ rest) := by
      change e.text ++ [46] ++ n ++ rest = _
      simp
    rw [hText, ih fun _ => rfl]
    change _ ++ .tok .dot :: lexemes (n ++ rest) = _
    rw [lexemes_word (oneWord_of_isOutputName hName) hRest]
    simp [Tree.tokens]
  | @call e t m _ hName ih =>
    have hText : (Expr.call e m).text ++ rest = e.text ++ 46 :: (m ++ 40 :: 41 :: rest) := by
      change e.text ++ [46] ++ m ++ [40, 41] ++ rest = _
      simp
    rw [hText, ih fun _ => rfl]
    change _ ++ .tok .dot :: lexemes (m ++ 40 :: 41 :: rest) = _
    rw [lexemes_word (oneWord_of_isOutputName hName) fun _ => rfl]
    change _ ++ .tok .dot :: .tok (.word m) :: .tok .lparen :: .tok .rparen :: lexemes rest = _
    simp [Tree.tokens]
  | @binary op l r t u _ _ ihLeft ihRight =>
    have hText : (Expr.binary op l r).text ++ rest =
        l.text ++ 32 :: (op.text ++ 32 :: (r.text ++ rest)) := by
      change l.text ++ [32] ++ op.text ++ [32] ++ r.text ++ rest = _
      simp
    rw [hText, ihLeft fun _ => rfl, lexemes_op, ihRight hRest]
    simp [Tree.tokens]
  | @neg e t _ ih =>
    change .tok (.op .sub) :: lexemes (e.text ++ rest) = _
    rw [ih hRest]
    rfl
  | @paren e t _ ih =>
    have hText : (Expr.paren e).text ++ rest = 40 :: (e.text ++ 41 :: rest) := by
      change [40] ++ e.text ++ [41] ++ rest = _
      simp
    rw [hText]
    change .tok .lparen :: lexemes (e.text ++ 41 :: rest) = _
    rw [ih fun _ => rfl]
    change _ :: (_ ++ .tok .rparen :: lexemes rest) = _
    simp [Tree.tokens]

end AnchorScript.Rust
