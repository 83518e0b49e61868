import AnchorScript.Proofs.Rust.Tokens

/-!
# Expressions read back

The reader groups tokens by Rust's precedence: member accesses and calls bind tightest, then the
minus sign in front of an operand, then `*`, `/` and `%`, then `+` and `-`, and operators of one
level group to the left. A tree that needs no brackets but its own is read back from its tokens.
-/

namespace AnchorScript.Rust

/-- An expression as it is grouped. -/
inductive Tree where
  | word (s : Text)
  | text (literal : Text)
  | member (object : Tree) (name : Text)
  | call (callee : Tree)
  | apply (callee arg : Tree)
  | neg (operand : Tree)
  | binary (op : ArithOp) (left right : Tree)
  | paren (inner : Tree)
  deriving DecidableEq

def opLevel : ArithOp → Nat
  | .add | .sub => 1
  | .mul | .div | .rem => 2

namespace Reading

-- A reading takes at least one token; the comparisons of lengths say so to the recursion.
mutual

/-- An expression with operators of level `min` or tighter, and the tokens behind it. -/
def exprAt (min : Nat) (ts : List Tok) : Option (Tree × List Tok) :=
  match operand ts with
  | some (left, r) => if r.length < ts.length then climb min left r else none
  | none => none
termination_by (ts.length, 1)

/-- The operators of level `min` or tighter that follow the expression `left`. -/
def climb (min : Nat) (left : Tree) (ts : List Tok) : Option (Tree × List Tok) :=
  match ts with
  | .op o :: r =>
    if min ≤ opLevel o then
      match exprAt (opLevel o + 1) r with
      | some (right, r') =>
        if r'.length < r.length then climb min (.binary o left right) r' else none
      | none => none
    else some (left, .op o :: r)
  | ts => some (left, ts)
termination_by (ts.length, 0)

def operand (ts : List Tok) : Option (Tree × List Tok) :=
  match ts with
  | .op .sub :: r => (operand r).map fun p => (.neg p.1, p.2)
  | .word w :: r => postfixes (.word w) r
  | .text s :: r => postfixes (.text s) r
  | .lparen :: r =>
    match exprAt 0 r with
    | some (inner, .rparen :: r') =>
      if r'.length < r.length then postfixes (.paren inner) r' else none
    | _ => none
  | _ => none
termination_by (ts.length, 0)

/-- The member accesses and calls that follow the operand `left`. -/
def postfixes (left : Tree) (ts : List Tok) : Option (Tree × List Tok) :=
  match ts with
  | .dot :: .word n :: r => postfixes (.member left n) r
  | .lparen :: .rparen :: r => postfixes (.call left) r
  | .lparen :: r =>
    match exprAt 0 r with
    | some (arg, .rparen :: r') =>
      if r'.length < r.length then postfixes (.apply left arg) r' else none
    | _ => none
  | ts => some (left, ts)
termination_by (ts.length, 0)

end

end Reading

/-- The expression that a text is, if it is one. -/
def read (s : Text) : Option Tree :=
  match (scan s).bind (Reading.exprAt 0) with
  | some (t, []) => some t
  | _ => none

namespace Tree

def tokens : Tree → List Tok
  | word w => [.word w]
  | text s => [.text s]
  | member t n => t.tokens ++ [.dot, .word n]
  | call t => t.tokens ++ [.lparen, .rparen]
  | apply t a => t.tokens ++ .lparen :: (a.tokens ++ [.rparen])
  | neg t => .op .sub :: t.tokens
  | binary o l r => l.tokens ++ .op o :: r.tokens
  | paren t => .lparen :: (t.tokens ++ [.rparen])

/-- How tightly the tree binds. -/
def level : Tree → Nat
  | binary o _ _ => opLevel o
  | neg _ => 3
  | _ => 4

/-- The tree needs no brackets but its own. -/
inductive Grouped : Tree → Prop
  | word {w : Text} : Grouped (.word w)
  | text {s : Text} : Grouped (.text s)
  | member {t : Tree} {n : Text} (hObject : Grouped t) (hLevel : t.level = 4) :
      Grouped (.member t n)
  | call {t : Tree} (hCallee : Grouped t) (hLevel : t.level = 4) : Grouped (.call t)
  | apply {t a : Tree} (hCallee : Grouped t) (hLevel : t.level = 4) (hArg : Grouped a) :
      Grouped (.apply t a)
  | neg {t : Tree} (hOperand : Grouped t) (hLevel : 3 ≤ t.level) : Grouped (.neg t)
  | binary {o : ArithOp} {l r : Tree} (hLeft : Grouped l) (hRight : Grouped r)
      (hLeftLevel : opLevel o ≤ l.level) (hRightLevel : opLevel o < r.level) :
      Grouped (.binary o l r)
  | paren {t : Tree} (hInner : Grouped t) : Grouped (.paren t)

theorem level_le (t : Tree) : t.level ≤ 4 := by
  cases t with
  | binary o l r =>
    change opLevel o ≤ 4
    cases o <;> decide
  | neg t => exact Nat.le_succ 3
  | _ => exact Nat.le_refl 4

theorem exists_tokens_eq_cons (t : Tree) : ∃ k ks, t.tokens = k :: ks ∧ k ≠ .rparen := by
  induction t with
  | word w => exact ⟨_, _, rfl, by simp⟩
  | text s => exact ⟨_, _, rfl, by simp⟩
  | neg t => exact ⟨_, _, rfl, by simp⟩
  | paren t => exact ⟨_, _, rfl, by simp⟩
  | member t n ih =>
    obtain ⟨k, ks, hTokens, hk⟩ := ih
    exact ⟨k, _, by rw [tokens, hTokens, List.cons_append], hk⟩
  | call t ih =>
    obtain ⟨k, ks, hTokens, hk⟩ := ih
    exact ⟨k, _, by rw [tokens, hTokens, List.cons_append], hk⟩
  | apply t a ih _ =>
    obtain ⟨k, ks, hTokens, hk⟩ := ih
    exact ⟨k, _, by rw [tokens, hTokens, List.cons_append], hk⟩
  | binary o l r ih _ =>
    obtain ⟨k, ks, hTokens, hk⟩ := ih
    exact ⟨k, _, by rw [tokens, hTokens, List.cons_append], hk⟩

theorem length_lt_tokens_append (t : Tree) (rest : List Tok) :
    rest.length < (t.tokens ++ rest).length := by
  obtain ⟨k, ks, hTokens, _⟩ := t.exists_tokens_eq_cons
  rw [hTokens, List.length_append, List.length_cons]
  omega

end Tree

namespace Reading

/-- An expression that binds at `level` ends before these tokens: no member access, no call and no
tighter operator follows. -/
def Ends (level : Nat) : List Tok → Prop
  | .dot :: _ | .lparen :: _ => False
  | .op o :: _ => opLevel o ≤ level
  | _ => True

theorem Ends.mono {k l : Nat} {ts : List Tok} (h : Ends k ts) (hkl : k ≤ l) : Ends l ts := by
  match ts, h with
  | [], _ => trivial
  | .word _ :: _, _ => trivial
  | .text _ :: _, _ => trivial
  | .rparen :: _, _ => trivial
  | .op o :: _, h => exact Nat.le_trans (show opLevel o ≤ k from h) hkl

theorem postfixes_of_ends {k : Nat} {ts : List Tok} (h : Ends k ts) (t : Tree) :
    postfixes t ts = some (t, ts) := by
  match ts, h with
  | [], _ => simp [postfixes]
  | .word _ :: _, _ => simp [postfixes]
  | .text _ :: _, _ => simp [postfixes]
  | .rparen :: _, _ => simp [postfixes]
  | .op _ :: _, _ => simp [postfixes]

theorem climb_of_ends {k min : Nat} {ts : List Tok} (h : Ends k ts) (hMin : k < min) (t : Tree) :
    climb min t ts = some (t, ts) := by
  match ts, h with
  | [], _ => simp [climb]
  | .word _ :: _, _ => simp [climb]
  | .text _ :: _, _ => simp [climb]
  | .rparen :: _, _ => simp [climb]
  | .op o :: _, h =>
    have hLoose : ¬min ≤ opLevel o := Nat.not_le.mpr (Nat.lt_of_le_of_lt h hMin)
    rw [climb, if_neg hLoose]

/-- The readers find the tree in its tokens. -/
structure ReadBack (t : Tree) : Prop where
  simple : t.level = 4 → ∀ rest, operand (t.tokens ++ rest) = postfixes t rest
  operand : 3 ≤ t.level → ∀ rest, Ends 4 rest → operand (t.tokens ++ rest) = some (t, rest)
  expr : ∀ min rest, min ≤ t.level → Ends t.level rest →
    exprAt min (t.tokens ++ rest) = climb min t rest

theorem ReadBack.of_operand {t : Tree}
    (hSimple : t.level = 4 → ∀ rest, Reading.operand (t.tokens ++ rest) = postfixes t rest)
    (hOperand : ∀ rest, Ends 4 rest → Reading.operand (t.tokens ++ rest) = some (t, rest)) :
    ReadBack t := by
  refine ⟨hSimple, fun _ => hOperand, fun min rest _ hEnds => ?_⟩
  rw [exprAt, hOperand rest (hEnds.mono t.level_le)]
  exact if_pos (t.length_lt_tokens_append rest)

theorem ReadBack.of_simple {t : Tree}
    (hSimple : ∀ rest, Reading.operand (t.tokens ++ rest) = postfixes t rest) : ReadBack t :=
  .of_operand (fun _ => hSimple) fun rest hEnds => by rw [hSimple, postfixes_of_ends hEnds]

theorem ReadBack.enclosed {t : Tree} (h : ReadBack t) (rest : List Tok) :
    exprAt 0 (t.tokens ++ .rparen :: rest) = some (t, .rparen :: rest) := by
  rw [h.expr 0 (.rparen :: rest) (Nat.zero_le _) trivial]
  simp [climb]

theorem readBack_of_grouped {t : Tree} (h : t.Grouped) : ReadBack t := by
  induction h with
  | word => exact .of_simple fun rest => by simp [Tree.tokens, operand]
  | text => exact .of_simple fun rest => by simp [Tree.tokens, operand]
  | @member t n _ hLevel ih =>
    refine .of_simple fun rest => ?_
    rw [Tree.tokens, List.append_assoc, ih.simple hLevel]
    simp [postfixes]
  | @call t _ hLevel ih =>
    refine .of_simple fun rest => ?_
    rw [Tree.tokens, List.append_assoc, ih.simple hLevel]
    simp [postfixes]
  | @apply t a _ hLevel _ ih ihArg =>
    refine .of_simple fun rest => ?_
    have hShorter : rest.length < (a.tokens ++ .rparen :: rest).length :=
      Nat.lt_trans (Nat.lt_succ_self _) (a.length_lt_tokens_append (.rparen :: rest))
    have hArg := ihArg.enclosed rest
    obtain ⟨k, ks, hTokens, hk⟩ := a.exists_tokens_eq_cons
    rw [Tree.tokens, List.append_assoc, ih.simple hLevel]
    rw [List.cons_append, List.append_assoc, List.singleton_append]
    rw [hTokens, List.cons_append] at hArg hShorter ⊢
    rw [postfixes]
    · simp only [hArg, if_pos hShorter]
    · intro r hSame
      exact hk (List.cons.inj hSame).1
  | @neg t _ hLevel ih =>
    refine .of_operand (fun h => by cases h) fun rest hEnds => ?_
    rw [Tree.tokens, List.cons_append, operand, ih.operand hLevel rest hEnds]
    rfl
  | @binary o l r _ _ hLeftLevel hRightLevel ihLeft ihRight =>
    have hOp : opLevel o ≤ 2 := by cases o <;> decide
    refine ⟨fun h => ?_, fun h => ?_, fun min rest hMin hEnds => ?_⟩
    · change opLevel o = 4 at h
      omega
    · change 3 ≤ opLevel o at h
      omega
    · change min ≤ opLevel o at hMin
      change Ends (opLevel o) rest at hEnds
      have hRight : exprAt (opLevel o + 1) (r.tokens ++ rest) = some (r, rest) := by
        rw [ihRight.expr _ rest hRightLevel (hEnds.mono (Nat.le_of_lt hRightLevel)),
          climb_of_ends hEnds (Nat.lt_succ_self _)]
      have hLeft : Ends l.level (.op o :: (r.tokens ++ rest)) := hLeftLevel
      rw [Tree.tokens, List.append_assoc, List.cons_append,
        ihLeft.expr min _ (Nat.le_trans hMin hLeftLevel) hLeft, climb, if_pos hMin, hRight]
      exact if_pos (r.length_lt_tokens_append rest)
  | @paren t _ ih =>
    refine .of_simple fun rest => ?_
    have hShorter : rest.length < (t.tokens ++ .rparen :: rest).length :=
      Nat.lt_trans (Nat.lt_succ_self _) (t.length_lt_tokens_append (.rparen :: rest))
    rw [Tree.tokens, List.cons_append, List.append_assoc, List.singleton_append, operand,
      ih.enclosed rest]
    exact if_pos hShorter

end Reading

/-- A tree that needs no brackets but its own is read back from its tokens. -/
theorem read_eq_of_scan {s : Text} {t : Tree} (hScan : scan s = some t.tokens) (ht : t.Grouped) :
    read s = some t := by
  have hRead := (Reading.readBack_of_grouped ht).expr 0 [] (Nat.zero_le _) trivial
  rw [List.append_nil] at hRead
  simp [read, hScan, hRead, Reading.climb]

example : read (Text.ofString "a - b - -c.d() * 2") =
    some (.binary .sub (.binary .sub (.word [97]) (.word [98]))
      (.binary .mul (.neg (.call (.member (.word [99]) [100]))) (.word [50]))) := by
  cbv

end AnchorScript.Rust
