import AnchorScript.Proofs.Syntax.Passing
import AnchorScript.Proofs.Token.Writing

/-!
# Completing what was cut off

Tokens that were cut off are read as far as they go: what was read before the cut is read again
however the tokens go on, and a token before the cut that is refused is refused for good. Where a
reader comes to the cut and fails, there are words that complete what it was reading.
-/

namespace AnchorScript.Syntax.Parser

variable {α β : Type}

/-- The next token is of a kind that may follow. -/
abbrev Meets (follow : TokenKind → Bool) (tail : List Token) : Prop :=
  follow (current tail).kind = true

/-- The words, and behind them what may follow, are read up to what follows. -/
def Fills (ws : List Word) (follow : TokenKind → Bool)
    (read : List Token → Except Token (α × List Token)) : Prop :=
  ∀ ts tail, Spell ts ws → Meets follow tail → ∃ a, read (ts ++ tail) = .ok (a, tail)

/-- How `x`, which reads `pre` before the cut, compares to `y tail`, which reads `pre` before
`tail`. -/
inductive Cut (pre last : List Token) (follow : TokenKind → Bool)
    (x : Except Token (α × List Token)) (y : List Token → Except Token (α × List Token)) : Prop
  | read {a : α} {post : List Token} (hPost : post <:+ pre) (hx : x = .ok (a, post ++ last))
      (hy : ∀ tail, (post = [] → Meets follow tail) → y tail = .ok (a, post ++ tail))
  | refused {t : Token} (ht : t ∈ pre) (hx : x = .error t) (hy : ∀ tail, y tail = .error t)
  | starved {ws : List Word} (hx : x = .error (current last)) (hy : Fills ws follow y)

/-- The same for one reader, before the cut and before what may stand in its place. -/
abbrev CutAt (last : List Token) (follow : TokenKind → Bool)
    (read : List Token → Except Token (α × List Token)) (pre : List Token) : Prop :=
  Cut pre last follow (read (pre ++ last)) fun tail => read (pre ++ tail)

/-- The words complete the reader where nothing of it was read; if it has to read something, it
fails there. -/
structure Fillable (last : List Token) (follow : TokenKind → Bool) (ws : List Word)
    (read : List Token → Except Token (α × List Token)) : Prop where
  fill : Fills ws follow read
  strict (h : ws ≠ []) : read last = .error (current last)

/-- Wherever the tokens of the reader are cut off, it can be completed. -/
structure Completable (last : List Token) (follow : TokenKind → Bool) (ws : List Word)
    (read : List Token → Except Token (α × List Token)) : Prop extends
    Fillable last follow ws read where
  cut (pre : List Token) : CutAt last follow read pre

/-- What begins with the words, or without words with what may follow them, may follow. -/
def Leads (first second : TokenKind → Bool) : List Word → Prop
  | [] => ∀ k, second k = true → first k = true
  | w :: _ => first w.kind = true

variable {pre last : List Token} {F G : TokenKind → Bool} {ws ws₁ ws₂ : List Word}
  {read : List Token → Except Token (α × List Token)}
  {next : α × List Token → Except Token (β × List Token)}

theorem Leads.meets {ts tail : List Token} (h : Leads F G ws) (hSpell : Spell ts ws)
    (hTail : Meets G tail) : Meets F (ts ++ tail) := by
  cases hSpell with
  | nil => exact h _ hTail
  | @cons t w ts ws ht _ =>
    show F t.kind = true
    rw [ht.1]
    exact h

namespace Fills

theorem mono (h : Fills ws F read) (hInto : ∀ k, G k = true → F k = true) : Fills ws G read :=
  fun ts tail hSpell hTail => h ts tail hSpell (hInto _ hTail)

theorem bind (h : Fills ws₁ F read) (hNext : ∀ a, Fills ws₂ G fun r => next (a, r))
    (hLead : Leads F G ws₂) : Fills (ws₁ ++ ws₂) G fun ts => read ts >>= next := by
  intro ts tail hSpell hTail
  have hFirst := List.forall₂_take_append ts ws₁ ws₂ hSpell
  have hSecond := List.forall₂_drop_append ts ws₁ ws₂ hSpell
  obtain ⟨a, ha⟩ := h _ (ts.drop ws₁.length ++ tail) hFirst (hLead.meets hSecond hTail)
  obtain ⟨b, hb⟩ := hNext a _ tail hSecond hTail
  refine ⟨b, ?_⟩
  rw [← List.append_assoc, List.take_append_drop] at ha
  show read (ts ++ tail) >>= next = _
  rw [ha]
  exact hb

theorem map (h : Fills ws F read) (f : α → β) :
    Fills ws F fun ts => read ts >>= fun p => pure (f p.1, p.2) := by
  intro ts tail hSpell hTail
  obtain ⟨a, ha⟩ := h ts tail hSpell hTail
  exact ⟨f a, congrArg (· >>= fun p => pure (f p.1, p.2)) ha⟩

theorem optional {a : α} (h : ∀ ts, Meets F ts → read ts = .ok (a, ts)) : Fills [] F read := by
  intro ts tail hSpell hTail
  cases hSpell
  exact ⟨a, h tail hTail⟩

end Fills

namespace Fillable

theorem mono (h : Fillable last F ws read) (hInto : ∀ k, G k = true → F k = true) :
    Fillable last G ws read :=
  ⟨h.fill.mono hInto, h.strict⟩

theorem map (h : Fillable last F ws read) (f : α → β) :
    Fillable last F ws fun ts => read ts >>= fun p => pure (f p.1, p.2) where
  fill := h.fill.map f
  strict hws := by
    rw [h.strict hws]
    rfl

theorem optional {a : α} (h : ∀ ts, Meets F ts → read ts = .ok (a, ts)) :
    Fillable last F [] read where
  fill := .optional h
  strict h := absurd rfl h

theorem cut_nil {w : Word} (h : Fillable last F (w :: ws) read) : CutAt last F read [] :=
  .starved (h.strict (List.cons_ne_nil w ws)) h.fill

end Fillable

namespace Cut

variable {x : Except Token (α × List Token)} {y : List Token → Except Token (α × List Token)}

theorem mono (h : Cut pre last F x y) (hInto : ∀ k, G k = true → F k = true) :
    Cut pre last G x y := by
  cases h with
  | read hPost hx hy => exact .read hPost hx fun tail hTail => hy tail fun h => hInto _ (hTail h)
  | refused ht hx hy => exact .refused ht hx hy
  | starved hx hy => exact .starved hx (hy.mono hInto)

/-- What was read of a part of `pre` was read of `pre`. -/
theorem suffix {post : List Token} (h : Cut post last F x y) (hPost : post <:+ pre) :
    Cut pre last F x y := by
  cases h with
  | read hPost' hx hy => exact .read (hPost'.trans hPost) hx hy
  | refused ht hx hy => exact .refused (hPost.subset ht) hx hy
  | starved hx hy => exact .starved hx hy

theorem cons {t : Token} (h : Cut pre last F x y) : Cut (t :: pre) last F x y :=
  h.suffix (List.suffix_cons t pre)

theorem bind (h : Cut pre last F x y)
    (hNext : ∀ a post, post <:+ pre → x = .ok (a, post ++ last) →
      CutAt last G (fun r => next (a, r)) post)
    (hFill : ∀ a, Fillable last G ws fun r => next (a, r)) (hLead : Leads F G ws) :
    Cut pre last G (x >>= next) fun tail => y tail >>= next := by
  cases h with
  | refused ht hx hy => exact .refused ht (by rw [hx]; rfl) fun tail => by rw [hy]; rfl
  | @starved ws₁ hx hy =>
    exact .starved (by rw [hx]; rfl) (hy.bind (fun a => (hFill a).fill) hLead)
  | @read a post hPost hx hy =>
    have hFirst : ∀ tail, (post = [] → Meets F tail) →
        y tail >>= next = next (a, post ++ tail) := by
      intro tail hTail
      rw [hy tail hTail]
      rfl
    have hCut := hNext a post hPost hx
    rw [show x >>= next = next (a, post ++ last) by rw [hx]; rfl]
    by_cases hEmpty : post = []
    · subst hEmpty
      -- words known for the second part are used: others need not fit behind the first
      have hWords : Fills ws G fun tail => y tail >>= next := by
        intro ts tail hSpell hTail
        obtain ⟨b, hb⟩ := (hFill a).fill ts tail hSpell hTail
        exact ⟨b, (hFirst _ fun _ => hLead.meets hSpell hTail).trans hb⟩
      cases hCut with
      | @read b post' hPost' hx' hy' =>
        obtain rfl := List.suffix_nil.mp hPost'
        cases ws with
        | nil =>
          refine .read hPost hx' fun tail hTail => ?_
          exact (hFirst tail fun _ => hLead _ (hTail rfl)).trans (hy' tail hTail)
        | cons w ws =>
          cases hx'.symm.trans ((hFill a).strict (List.cons_ne_nil w ws))
      | refused ht => cases ht
      | starved hx' => exact .starved hx' hWords
    · cases hCut with
      | @read b post' hPost' hx' hy' =>
        refine .read (hPost'.trans hPost) hx' fun tail hTail => ?_
        exact (hFirst tail fun h => absurd h hEmpty).trans (hy' tail hTail)
      | refused ht hx' hy' =>
        refine .refused (hPost.subset ht) hx' fun tail => ?_
        exact (hFirst tail fun h => absurd h hEmpty).trans (hy' tail)
      | @starved ws' hx' hy' =>
        have hWords : Fills ws' G fun tail => y tail >>= next := by
          intro ts tail hSpell hTail
          obtain ⟨b, hb⟩ := hy' ts tail hSpell hTail
          exact ⟨b, (hFirst _ fun h => absurd h hEmpty).trans hb⟩
        exact .starved hx' hWords

theorem done (a : α) (pre : List Token) : CutAt last F (fun r => .ok (a, r)) pre :=
  .read (List.suffix_refl pre) rfl fun _ _ => rfl

theorem map (h : Cut pre last F x y) (f : α → β) :
    Cut pre last F (x >>= fun p => pure (f p.1, p.2)) fun tail =>
      y tail >>= fun p => pure (f p.1, p.2) :=
  h.bind (fun a post _ _ => done (f a) post) (fun _ => .optional fun _ _ => rfl) fun _ h => h

theorem mapAt (h : CutAt last F read pre) (f : α → β) :
    CutAt last F (fun ts => read ts >>= fun p => pure (f p.1, p.2)) pre :=
  h.map f

theorem step {read' : List Token → Except Token (α × List Token)} {t : Token}
    (h : CutAt last F read' pre) (hRead : ∀ r, read (t :: r) = read' r) :
    CutAt last F read (t :: pre) := by
  simp only [CutAt, List.cons_append, hRead]
  exact h.cons

theorem choose {read' : List Token → Except Token (α × List Token)} {t : Token}
    (h : CutAt last F read' (t :: pre)) (hRead : ∀ r, read (t :: r) = read' (t :: r)) :
    CutAt last F read (t :: pre) := by
  simp only [CutAt, List.cons_append, hRead]
  exact h

theorem refuse {t : Token} (hRead : ∀ r, read (t :: r) = .error t) :
    CutAt last F read (t :: pre) := by
  simp only [CutAt, List.cons_append, hRead]
  exact .refused (List.mem_cons_self ..) rfl fun _ => rfl

end Cut

namespace Completable

theorem mono (h : Completable last F ws read) (hInto : ∀ k, G k = true → F k = true) :
    Completable last G ws read where
  toFillable := h.toFillable.mono hInto
  cut pre := (h.cut pre).mono hInto

/-- Where nothing was read, the first part fails, or it reads nothing and the second one fails. -/
theorem bindFillable (h : Completable last F ws₁ read)
    (hNext : ∀ a, Fillable last G ws₂ fun r => next (a, r)) (hLead : Leads F G ws₂) :
    Fillable last G (ws₁ ++ ws₂) fun ts => read ts >>= next where
  fill := h.fill.bind (fun a => (hNext a).fill) hLead
  strict hws := by
    have hFirst := h.cut []
    simp only [CutAt, List.nil_append] at hFirst
    cases hFirst with
    | @read a post hPost hx _ =>
      obtain rfl := List.suffix_nil.mp hPost
      have hEmpty : ws₁ = [] := by
        by_contra hws₁
        rw [h.strict hws₁] at hx
        cases hx
      rw [hx]
      exact (hNext a).strict (by simpa [hEmpty] using hws)
    | refused ht => cases ht
    | starved hx _ =>
      rw [hx]
      rfl

theorem bind (h : Completable last F ws₁ read)
    (hNext : ∀ a, Completable last G ws₂ fun r => next (a, r)) (hLead : Leads F G ws₂) :
    Completable last G (ws₁ ++ ws₂) fun ts => read ts >>= next where
  toFillable := h.bindFillable (fun a => (hNext a).toFillable) hLead
  cut pre := (h.cut pre).bind (fun a post _ _ => (hNext a).cut post)
    (fun a => (hNext a).toFillable) hLead

theorem map (h : Completable last F ws read) (f : α → β) :
    Completable last F ws fun ts => read ts >>= fun p => pure (f p.1, p.2) where
  toFillable := h.toFillable.map f
  cut pre := (h.cut pre).map f

end Completable

abbrev anyKind (_ : TokenKind) : Bool := true

/-- The input ends here, or there is a byte or comment that begins no token. -/
def Halts (stop : Token) : Prop := stop.kind = .endOfInput ∨ stop.kind = .illegal

namespace Halts

variable {stop : Token}

theorem blocks (h : Halts stop) : blocks stop = true := by
  rcases h with hKind | hKind <;> rw [Parser.blocks, hKind]

theorem kind_ne_punct (h : Halts stop) (p : Punct) : stop.kind ≠ .punct p := by
  rcases h with hKind | hKind <;> simp [hKind]

theorem kind_ne_keyword (h : Halts stop) (k : Keyword) : stop.kind ≠ .keyword k := by
  rcases h with hKind | hKind <;> simp [hKind]

end Halts

variable {stop : Token} {rest : List Token}

/-- A reader that takes a token fails where nothing of it was read. -/
theorem fillable_reader {read : (ts : List Token) → Reader α ts.length} (hStop : Halts stop)
    (hStays : ∀ ts, Stays ts (reading (read ts))) (hFill : Fills ws F fun ts => reading (read ts)) :
    Fillable (stop :: rest) F ws fun ts => reading (read ts) where
  fill := hFill
  strict _ := reading_of_blocks (hStays _) hStop.blocks

theorem fillable_word {accept : Token → Bool} {w : Word} (hw : ∀ t, t.Is w → accept t = true)
    (hStop : accept stop = false) : Fillable (stop :: rest) anyKind [w] (word accept) where
  fill ts tail hSpell _ := by
    cases hSpell with
    | cons ht hRest =>
      cases hRest
      exact ⟨_, word_eq_ok_iff.mpr ⟨rfl, hw _ ht⟩⟩
  strict _ := if_neg (by simp [hStop])

theorem completable_word {accept : Token → Bool} {w : Word} (hw : ∀ t, t.Is w → accept t = true)
    (hStop : accept stop = false) : Completable (stop :: rest) anyKind [w] (word accept) where
  toFillable := fillable_word hw hStop
  cut pre := by
    cases pre with
    | nil => exact (fillable_word hw hStop).cut_nil
    | cons t pre =>
      cases hAccept : accept t with
      | true => exact (Cut.done t pre).step fun r => word_eq_ok_iff.mpr ⟨rfl, hAccept⟩
      | false => exact .refuse fun r => if_neg (by simp [hAccept])

theorem completable_punct (hStop : Halts stop) (p : Punct) :
    Completable (stop :: rest) anyKind [.punct p] (kind (.punct p)) :=
  completable_word (fun _ ht => decide_eq_true ht.1) (decide_eq_false (hStop.kind_ne_punct p))

namespace Word

def someName : Word := .ident "x" ⟨120, [], rfl, rfl, by simp⟩ (by decide)

end Word

theorem completable_ident (hStop : Halts stop) :
    Completable (stop :: rest) anyKind [Word.someName] (kind .ident) := by
  refine completable_word (fun _ ht => decide_eq_true ht.1) ?_
  rcases hStop with hKind | hKind <;> simp [hKind]

theorem completable_name (hStop : Halts stop) :
    Completable (stop :: rest) anyKind [Word.someName] (word Token.isName) := by
  refine completable_word (fun t ht => ?_) ?_
  · rw [Token.isName, ht.1]
    rfl
  · rcases hStop with hKind | hKind <;> rw [Token.isName, hKind]

/-- No expression goes on with a token of this kind. -/
def quiet (k : TokenKind) : Bool :=
  k ≠ .punct .dot && k ≠ .punct .lparen && k ≠ .punct .lbracket && (Infix.ofKind? k).isNone

theorem Halts.quiet {stop : Token} (h : Halts stop) : quiet stop.kind = true := by
  rcases h with hKind | hKind <;> rw [hKind] <;> rfl

theorem climb_of_quiet (min : Nat) (left : Expr) (ts : List Token) (h : Meets quiet ts) :
    reading (climb min left ts) = .ok (left, ts) := by
  cases ts with
  | nil => exact reading_climb_nil min left
  | cons t r =>
    have hQuiet : quiet t.kind = true := h
    simp only [quiet, Bool.and_eq_true, Option.isNone_iff_eq_none] at hQuiet
    rw [reading_climb_cons, hQuiet.2]
    rfl

theorem postfixes_of_quiet (left : Expr) (ts : List Token) (h : Meets quiet ts) :
    reading (postfixes left ts) = .ok (left, ts) := by
  cases ts with
  | nil => exact reading_postfixes_nil left
  | cons t r =>
    have hQuiet : quiet t.kind = true := h
    simp only [quiet, Bool.and_eq_true, decide_eq_true_eq] at hQuiet
    obtain ⟨⟨⟨hDot, hParen⟩, hBracket⟩, _⟩ := hQuiet
    rw [reading_postfixes_cons, if_neg hDot]
    simp [hParen, hBracket]

theorem cut_nil_of_quiet {a : α} (hStop : Halts stop)
    (h : ∀ ts, Meets quiet ts → read ts = .ok (a, ts)) : CutAt (stop :: rest) quiet read [] :=
  .read (List.suffix_refl []) (h _ hStop.quiet) fun tail hTail => h tail (hTail rfl)

theorem fills_operand : Fills [Word.someName] quiet fun ts => reading (operand ts) := by
  intro ts tail hSpell hTail
  cases hSpell with
  | @cons t _ ts _ ht hRest =>
    cases hRest
    have hKind : t.kind = .ident := ht.1
    have hPrimary : reading (primary t tail) = .ok (.name t.pos t.literal, tail) := by
      rw [reading_primary, hKind]
    refine ⟨.name t.pos t.literal, ?_⟩
    dsimp only
    rw [List.singleton_append, reading_operand_cons, hKind, hPrimary]
    exact postfixes_of_quiet _ tail hTail

theorem fills_exprAt (min : Nat) :
    Fills [Word.someName] quiet fun ts => reading (exprAt min ts) := by
  simp only [reading_exprAt]
  exact fills_operand.bind (fun e => .optional (climb_of_quiet min e)) fun _ h => h

/-- The rest of a list behind one of its items. -/
def listRest (closing : Punct) (message : Text) (item : (ts : List Token) → Reader α ts.length)
    (a : α) (ts : List Token) : Except Token (List α × List Token) :=
  if atPunct .comma ts then do
    let (as, r) ← reading (listUntil closing message item ts.tail)
    return (a :: as, r)
  else do
    let (_, r) ← kind (.punct closing) ts
    return ([a], r)

def listItems (closing : Punct) (message : Text) (item : (ts : List Token) → Reader α ts.length)
    (ts : List Token) : Except Token (List α × List Token) := do
  let (a, r) ← reading (item ts)
  listRest closing message item a r

theorem reading_listUntil_of_eq {closing : Punct} {message : Text}
    {item : (ts : List Token) → Reader α ts.length} {t : Token} (h : t.kind = .punct closing)
    (r : List Token) : reading (listUntil closing message item (t :: r)) = .ok ([], r) := by
  rw [reading_listUntil, atPunct_cons, decide_eq_true h, kind_of_eq r h]
  rfl

theorem reading_listUntil_of_ne {closing : Punct} {message : Text}
    {item : (ts : List Token) → Reader α ts.length} {t : Token} (h : t.kind ≠ .punct closing)
    (r : List Token) :
    reading (listUntil closing message item (t :: r)) =
      listItems closing message item (t :: r) := by
  rw [reading_listUntil, atPunct_cons, decide_eq_false h]
  rfl

theorem fills_listUntil {closing : Punct} {message : Text}
    {item : (ts : List Token) → Reader α ts.length} :
    Fills [.punct closing] F fun ts => reading (listUntil closing message item ts) := by
  intro ts tail hSpell _
  cases hSpell with
  | @cons t _ ts _ ht hRest =>
    cases hRest
    exact ⟨[], reading_listUntil_of_eq ht.1 tail⟩

theorem fillable_listRest {closing : Punct} {message : Text}
    {item : (ts : List Token) → Reader α ts.length} (hStop : Halts stop)
    (hClosing : closing ≠ .comma) (a : α) :
    Fillable (stop :: rest) F [.punct closing] (listRest closing message item a) where
  fill ts tail hSpell _ := by
    cases hSpell with
    | @cons t _ ts _ ht hRest =>
      cases hRest
      have hKind : t.kind = .punct closing := ht.1
      have hComma : t.kind ≠ .punct .comma := by
        rw [hKind]
        simpa using hClosing
      refine ⟨[a], ?_⟩
      rw [List.singleton_append, listRest, atPunct_cons, decide_eq_false hComma,
        kind_of_eq tail hKind]
      rfl
  strict _ := by
    rw [listRest, atPunct_cons, decide_eq_false (hStop.kind_ne_punct .comma),
      kind_of_ne rest (hStop.kind_ne_punct closing)]
    rfl

theorem cut_listUntil {closing : Punct} (message : Text)
    {item : (ts : List Token) → Reader α ts.length} (hStop : Halts stop)
    (hClosing : closing ≠ .comma) (hF : F (.punct closing) = true)
    (hStays : ∀ ts, Stays ts (reading (item ts))) (pre : List Token)
    (hItem : ∀ p : List Token, p.length ≤ pre.length →
      CutAt (stop :: rest) F (fun ts => reading (item ts)) p) :
    CutAt (stop :: rest) F (fun ts => reading (listUntil closing message item ts)) pre := by
  match pre with
  | [] =>
    refine (fillable_reader hStop (fun ts => ?_) fills_listUntil).cut_nil
    exact listUntil_stays ts fun r _ => hStays r
  | t :: pre =>
    by_cases hKind : t.kind = .punct closing
    · exact (Cut.done [] pre).step (reading_listUntil_of_eq hKind)
    · refine .choose ?_ (reading_listUntil_of_ne hKind)
      refine .bind (hItem (t :: pre) (Nat.le_refl _)) (fun a post hPost _ => ?_)
        (fun a => fillable_listRest hStop hClosing a) hF
      match post with
      | [] => exact (fillable_listRest hStop hClosing a).cut_nil
      | u :: post =>
        have hShorter : post.length ≤ pre.length := Nat.le_of_succ_le_succ hPost.length_le
        by_cases hComma : u.kind = .punct .comma
        · have hList := cut_listUntil message hStop hClosing hF hStays post fun p hp =>
            hItem p (Nat.le_succ_of_le (Nat.le_trans hp hShorter))
          refine (hList.mapAt (a :: ·)).step fun r => ?_
          dsimp only
          rw [listRest, atPunct_cons, decide_eq_true hComma]
          rfl
        · have hClose : Completable (stop :: rest) F [.punct closing] (kind (.punct closing)) :=
            (completable_punct hStop closing).mono fun _ _ => rfl
          refine .choose ((hClose.cut (u :: post)).mapAt fun _ => [a]) fun r => ?_
          dsimp only
          rw [listRest, atPunct_cons, decide_eq_false hComma]
          rfl
termination_by pre.length
decreasing_by exact Nat.lt_succ_of_le hShorter

/-- What follows an index, from its closing bracket on. -/
theorem fillable_indexed (hStop : Halts stop) (left : Expr) :
    Fillable (stop :: rest) quiet [.punct .rbracket] fun r => (do
      let (_, r) ← kind (.punct .rbracket) r
      reading (postfixes left r)) :=
  (completable_punct hStop .rbracket).bindFillable
    (fun _ => .optional (postfixes_of_quiet left)) fun _ _ => rfl

theorem fillable_exprsUntil (hStop : Halts stop) (closing : Punct) (what : Text) :
    Fillable (stop :: rest) F [.punct closing] fun ts => reading (exprsUntil closing what ts) := by
  refine fillable_reader hStop (exprsUntil_stays closing what) ?_
  simp only [reading_exprsUntil closing what []]
  exact fills_listUntil

/-- The arguments of a constructor, from their opening bracket on. -/
theorem fillable_arguments (hStop : Halts stop) (f : List Expr → Expr) :
    Fillable (stop :: rest) quiet [.punct .lparen, .punct .rparen] fun r => (do
      let (_, r) ← kind (.punct .lparen) r
      let (args, r) ← reading (exprsUntil .rparen "constructor arguments" r)
      return (f args, r)) :=
  (completable_punct hStop .lparen).bindFillable
    (fun _ => (fillable_exprsUntil hStop .rparen _).map f) rfl

theorem length_lt_of_cut {x : Reader α (pre ++ last).length} {a : α} {post : List Token}
    (h : reading x = .ok (a, post ++ last)) : post.length < pre.length := by
  have hShorter := length_lt_of_reading h
  simp only [List.length_append] at hShorter
  omega

theorem length_le_of_cut {x : Reader α ((pre ++ last).length + 1)} {a : α} {post : List Token}
    (h : reading x = .ok (a, post ++ last)) : post.length ≤ pre.length := by
  have hShorter := length_lt_of_reading h
  simp only [List.length_append] at hShorter
  omega

mutual

theorem cut_exprAt (hStop : Halts stop) (min : Nat) (pre : List Token) :
    CutAt (stop :: rest) quiet (fun ts => reading (exprAt min ts)) pre := by
  simp only [CutAt, reading_exprAt]
  refine .bind (cut_operand hStop pre) (fun left post _ hRead => ?_)
    (fun left => .optional (climb_of_quiet min left)) fun _ h => h
  have hShorter := length_lt_of_cut hRead
  exact cut_climb hStop min left post
termination_by 8 * pre.length + 6
decreasing_by all_goals omega

theorem cut_climb (hStop : Halts stop) (min : Nat) (left : Expr) (pre : List Token) :
    CutAt (stop :: rest) quiet (fun ts => reading (climb min left ts)) pre := by
  match pre with
  | [] => exact cut_nil_of_quiet hStop (climb_of_quiet min left)
  | t :: pre =>
    simp only [CutAt, List.cons_append, reading_climb_cons]
    cases (Infix.ofKind? t.kind).filter (min ≤ ·.level) with
    | none => exact Cut.done left (t :: pre)
    | some i =>
      refine .cons (.bind (cut_exprAt hStop i.rightLevel pre) (fun right post hPost _ => ?_)
        (fun right => .optional (climb_of_quiet min (i.apply left right))) fun _ h => h)
      have hShorter := hPost.length_le
      exact cut_climb hStop min (i.apply left right) post
termination_by 8 * pre.length
decreasing_by all_goals simp only [List.length_cons]; omega

theorem cut_operand (hStop : Halts stop) (pre : List Token) :
    CutAt (stop :: rest) quiet (fun ts => reading (operand ts)) pre := by
  match pre with
  | [] => exact (fillable_reader hStop operand_stays fills_operand).cut_nil
  | t :: pre =>
    simp only [CutAt, List.cons_append, reading_operand_cons]
    cases unaryOp? t.kind with
    | some op => exact .cons ((cut_operand hStop pre).map (Expr.unary t.pos op))
    | none =>
      refine .bind (cut_primary hStop t pre) (fun e post _ hRead => ?_)
        (fun e => .optional (postfixes_of_quiet e)) fun _ h => h
      have hShorter := length_le_of_cut hRead
      exact cut_postfixes hStop e post
termination_by 8 * pre.length + 5
decreasing_by all_goals simp only [List.length_cons]; omega

theorem cut_primary (hStop : Halts stop) (t : Token) (pre : List Token) :
    Cut (t :: pre) (stop :: rest) quiet (reading (primary t (pre ++ stop :: rest))) fun tail =>
      reading (primary t (pre ++ tail)) := by
  simp only [reading_primary]
  have hMem : t ∈ t :: pre := List.mem_cons_self ..
  generalize t.kind = k
  split
  · exact .cons (.done _ pre)
  · exact .cons (.done _ pre)
  · cases StringLiteral.value? t.literal with
    | some value => exact .cons (.done _ pre)
    | none => exact .refused hMem rfl fun _ => rfl
  · exact .cons (.done _ pre)
  · exact .cons (.done _ pre)
  · exact .cons ((cut_exprsUntil hStop (by simp) rfl _ pre).map (Expr.array t.pos))
  · refine .cons (.bind ((completable_ident hStop).cut pre) (fun name post hPost _ => ?_)
      (fun name => fillable_arguments hStop (Expr.construct t.pos name.literal)) rfl)
    refine .bind ((completable_punct hStop .lparen).cut post) (fun _ post₁ hPost₁ _ => ?_)
      (fun _ => (fillable_exprsUntil hStop .rparen _).map (Expr.construct t.pos name.literal)) rfl
    have hShorter := (hPost₁.trans hPost).length_le
    exact (cut_exprsUntil hStop (by simp) rfl _ post₁).map _
  · have hClose : ∀ inner, Completable (stop :: rest) quiet [.punct .rparen] fun r =>
        kind (.punct .rparen) r >>= fun p => pure (Expr.paren t.pos inner, p.2) := fun inner =>
      ((completable_punct hStop .rparen).mono fun _ _ => rfl).map fun _ => Expr.paren t.pos inner
    exact .cons (.bind (cut_exprAt hStop anyLevel pre)
      (fun inner post _ _ => (hClose inner).cut post) (fun inner => (hClose inner).toFillable) rfl)
  · exact .refused hMem rfl fun _ => rfl
termination_by 8 * pre.length + 8
decreasing_by all_goals omega

theorem cut_postfixes (hStop : Halts stop) (left : Expr) (pre : List Token) :
    CutAt (stop :: rest) quiet (fun ts => reading (postfixes left ts)) pre := by
  match pre with
  | [] => exact cut_nil_of_quiet hStop (postfixes_of_quiet left)
  | t :: pre =>
    simp only [CutAt, List.cons_append, reading_postfixes_cons]
    split
    · refine .cons (.bind ((completable_name hStop).cut pre) (fun name post hPost _ => ?_)
        (fun name => .optional (postfixes_of_quiet (.member left name.pos name.literal)))
        fun _ _ => rfl)
      have hShorter := hPost.length_le
      exact cut_postfixes hStop _ post
    · split
      · refine .cons (.bind (cut_exprsUntil hStop (by simp) rfl _ pre) (fun args post hPost _ => ?_)
          (fun args => .optional (postfixes_of_quiet (.call left args))) fun _ h => h)
        have hShorter := hPost.length_le
        exact cut_postfixes hStop _ post
      · split
        · refine .cons (.bind (cut_exprAt hStop anyLevel pre) (fun position post hPost _ => ?_)
            (fun position => fillable_indexed hStop (.index left position)) rfl)
          refine .bind ((completable_punct hStop .rbracket).cut post) (fun _ post₁ hPost₁ _ => ?_)
            (fun _ => .optional (postfixes_of_quiet (.index left position))) fun _ _ => rfl
          have hShorter := (hPost₁.trans hPost).length_le
          exact cut_postfixes hStop _ post₁
        · exact Cut.done left (t :: pre)
termination_by 8 * pre.length
decreasing_by all_goals simp only [List.length_cons]; omega

theorem cut_exprsUntil (hStop : Halts stop) {closing : Punct} (hClosing : closing ≠ .comma)
    (hQuiet : quiet (.punct closing) = true) (what : Text) (pre : List Token) :
    CutAt (stop :: rest) quiet (fun ts => reading (exprsUntil closing what ts)) pre := by
  simp only [reading_exprsUntil closing what []]
  exact cut_listUntil [] hStop hClosing hQuiet (exprAt_stays anyLevel) pre fun p hp =>
    cut_exprAt hStop anyLevel p
termination_by 8 * pre.length + 7
decreasing_by all_goals omega

end

theorem completable_expression (hStop : Halts stop) :
    Completable (stop :: rest) quiet [Word.someName] fun ts => reading (expression ts) where
  toFillable := fillable_reader hStop (exprAt_stays anyLevel) (fills_exprAt anyLevel)
  cut := cut_exprAt hStop anyLevel

end AnchorScript.Syntax.Parser
