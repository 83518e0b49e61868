import AnchorScript.Proofs.Rust.SourceReader

/-!
# How readers take printed text

A reader takes a text before anything that lets the last lexeme of the text end. Readers that follow
each other take texts that do, a list is taken element by element, and lines are taken at whatever
depth they stand.
-/

namespace AnchorScript.Rust

namespace Reader

variable {α β : Type} {ok ok' : Text → Prop} {p : Reader α} {q : α → Reader β} {s t : Text} {a : α}
  {b : β}

/-- Before anything that `ok` admits, the reader takes the text and gives the value. -/
def Reads (ok : Text → Prop) (p : Reader α) (s : Text) (a : α) : Prop :=
  ∀ rest, ok rest → p (lexemes (s ++ rest)) = some (a, lexemes rest) ∧
    (lexemes rest).length < (lexemes (s ++ rest)).length

def Anything : Text → Prop := fun _ => True

/-- The text begins with one of these lexemes, and no word goes on into it. -/
def Before (ls : List Lexeme) (rest : Text) : Prop :=
  Parted rest ∧ ∃ l r, lexemes rest = l :: r ∧ l ∈ ls

theorem bind_of_eq {ls rest : List Lexeme} (h : p ls = some (a, rest)) (q : α → Reader β) :
    (p >>= q) ls = q a rest := by
  change (p ls).bind (fun r => q r.1 r.2) = _
  rw [h]
  rfl

theorem Reads.mono (h : Reads ok p s a) (hMono : ∀ rest, ok' rest → ok rest) : Reads ok' p s a :=
  fun rest hRest => h rest (hMono rest hRest)

theorem Before.mono {ls ls' : List Lexeme} {rest : Text} (h : Before ls rest) (hMono : ls ⊆ ls') :
    Before ls' rest := by
  obtain ⟨hParted, l, r, hLexemes, hMem⟩ := h
  exact ⟨hParted, l, r, hLexemes, hMono hMem⟩

theorem Reads.bind (hp : Reads ok p s a) (hq : Reads ok' (q a) t b)
    (hRest : ∀ rest, ok' rest → ok (t ++ rest)) : Reads ok' (p >>= q) (s ++ t) b := by
  intro rest hok
  obtain ⟨hFirst, hShorter⟩ := hp (t ++ rest) (hRest rest hok)
  obtain ⟨hSecond, hShortest⟩ := hq rest hok
  rw [List.append_assoc]
  refine ⟨?_, Nat.lt_trans hShortest hShorter⟩
  rw [bind_of_eq hFirst, hSecond]

/-- What is read without a condition can be followed by anything. -/
theorem Reads.andThen (hp : Reads Anything p s a) (hq : Reads ok (q a) t b) :
    Reads ok (p >>= q) (s ++ t) b :=
  hp.bind hq fun _ _ => trivial

theorem Reads.result (hp : Reads ok p s a) (hq : q a = pure b) : Reads ok (p >>= q) s b := by
  intro rest hok
  obtain ⟨hFirst, hShorter⟩ := hp rest hok
  refine ⟨?_, hShorter⟩
  rw [bind_of_eq hFirst, hq]
  rfl

/-- A reader that looks at what is behind the text and takes none of it. -/
theorem Reads.looking (hp : Reads ok p s a)
    (hq : ∀ rest, ok rest → q a (lexemes rest) = some (b, lexemes rest)) :
    Reads ok (p >>= q) s b := by
  intro rest hok
  obtain ⟨hFirst, hShorter⟩ := hp rest hok
  exact ⟨(bind_of_eq hFirst q).trans (hq rest hok), hShorter⟩

/-- A reader that takes nothing in front of the text. -/
theorem Reads.passing (hp : ∀ rest, ok rest → p (lexemes (t ++ rest)) = some (a, lexemes (t ++ rest)))
    (hq : Reads ok (q a) t b) : Reads ok (p >>= q) t b := by
  intro rest hok
  obtain ⟨hSecond, hShortest⟩ := hq rest hok
  exact ⟨(bind_of_eq (hp rest hok) q).trans hSecond, hShortest⟩

theorem lexemes_given (s : Text) (ls : List Lexeme) :
    given s (lexemes s ++ ls) = some (true, ls) := by
  rw [given, if_pos (List.prefix_append _ _), List.drop_left]

theorem given_other {s : Text} {ls : List Lexeme} (h : ¬lexemes s <+: ls) :
    given s ls = some (false, ls) := if_neg h

theorem given_bind_prefix (s : Text) (q : Bool → Reader β) (ls : List Lexeme) :
    (given s >>= q) (lexemes s ++ ls) = q true ls := by
  change (given s (lexemes s ++ ls)).bind (fun r => q r.1 r.2) = _
  rw [lexemes_given]
  rfl

theorem given_bind_other {s : Text} {ls : List Lexeme} (h : ¬lexemes s <+: ls)
    (q : Bool → Reader β) : (given s >>= q) ls = q false ls := by
  change (given s ls).bind (fun r => q r.1 r.2) = _
  rw [given_other h]
  rfl

/-- The text has the lexemes of the text that is expected, some at least, and ends with the last. -/
def Writes (s t : Text) : Prop :=
  Closed s ∧ lexemes s = lexemes t ∧ lexemes t ≠ []

theorem Writes.of_cons {l : Lexeme} {ls : List Lexeme} (hClosed : Closed s)
    (hText : lexemes s = l :: ls) (hExpected : lexemes t = l :: ls) : Writes s t := by
  refine ⟨hClosed, hText.trans hExpected.symm, ?_⟩
  rw [hExpected]
  exact List.cons_ne_nil l ls

theorem Writes.lexemes_append (h : Writes s t) (rest : Text) :
    lexemes (s ++ rest) = lexemes t ++ lexemes rest := by
  rw [Rust.lexemes_append h.1, h.2.1]

theorem reads_given (h : Writes s t) : Reads ok (given t) s true := by
  intro rest _
  rw [h.lexemes_append]
  refine ⟨lexemes_given t _, ?_⟩
  have hSome := List.length_pos_iff.mpr h.2.2
  rw [List.length_append]
  omega

theorem reads_expect (h : Writes s t) : Reads ok (expect t) s () :=
  (reads_given h).result rfl

theorem reads_word {w : Text} (h : OneWord w) : Reads Parted word w w := by
  intro rest hRest
  rw [lexemes_word h hRest]
  exact ⟨rfl, by simp⟩

theorem Reads.notGiven {q : Bool → Reader β}
    (hOther : ∀ rest, ok rest → ¬lexemes s <+: lexemes (t ++ rest))
    (hq : Reads ok (q false) t b) : Reads ok (given s >>= q) t b :=
  .passing (fun rest hok => given_other (hOther rest hok)) hq

theorem not_prefix_of_ne {l m : Lexeme} {ls ms : List Lexeme} (h : l ≠ m) : ¬l :: ls <+: m :: ms :=
  fun hPrefix => h (List.cons_prefix_cons.mp hPrefix).1

/-- What `p` reads, with the separator behind it. -/
def ended (sep : Text) (p : Reader α) : Reader α := do
  let a ← p
  expect sep
  return a

theorem expect_eq_some {ls rest : List Lexeme} {u : Unit} (h : expect s ls = some (u, rest)) :
    ls = lexemes s ++ rest := by
  change (given s ls).bind (fun g => (if g.1 = true then pure () else failure : Reader Unit) g.2) =
    _ at h
  by_cases hPrefix : lexemes s <+: ls
  · rw [given, if_pos hPrefix] at h
    cases h
    exact (List.prefix_iff_eq_append.mp hPrefix).symm
  · rw [given, if_neg hPrefix] at h
    cases h

theorem ended_eq_some {sep : Text} {ls rest : List Lexeme}
    (h : ended sep p ls = some (a, rest)) : p ls = some (a, lexemes sep ++ rest) := by
  change ((p ls).bind fun r => (expect sep r.2).bind fun r' => some (r.1, r'.2)) = _ at h
  obtain ⟨⟨a', r⟩, hp, h⟩ := Option.bind_eq_some_iff.mp h
  obtain ⟨⟨_, r'⟩, hSep, h⟩ := Option.bind_eq_some_iff.mp h
  cases h
  obtain rfl : r = lexemes sep ++ r' := expect_eq_some hSep
  exact hp

theorem listedWithin_closing {sep closing : Text} (n : Nat) (ls : List Lexeme) :
    listedWithin sep closing p (n + 1) (lexemes closing ++ ls) = some ([], ls) := by
  rw [listedWithin, given_bind_prefix]
  rfl

theorem listedWithin_item {sep closing : Text} {n : Nat} {ls rest : List Lexeme}
    (hNot : ¬lexemes closing <+: ls) (hItem : p ls = some (a, lexemes sep ++ rest)) :
    listedWithin sep closing p (n + 1) ls =
      (listedWithin sep closing p n rest).map fun r => (a :: r.1, r.2) := by
  rw [listedWithin, given_bind_other hNot]
  change (p >>= _) ls = _
  rw [bind_of_eq hItem, given_bind_prefix]
  change (listedWithin sep closing p n rest).bind _ = _
  cases listedWithin sep closing p n rest <;> rfl

theorem listedWithin_last {sep closing : Text} {n : Nat} {ls rest : List Lexeme}
    (hNot : ¬lexemes closing <+: ls) (hOther : ¬lexemes sep <+: lexemes closing ++ rest)
    (hItem : p ls = some (a, lexemes closing ++ rest)) :
    listedWithin sep closing p (n + 1) ls = some ([a], rest) := by
  rw [listedWithin, given_bind_other hNot]
  change (p >>= _) ls = _
  rw [bind_of_eq hItem, given_bind_other hOther]
  have hClosing : expect closing (lexemes closing ++ rest) = some ((), rest) :=
    given_bind_prefix closing _ rest
  change (expect closing >>= _) _ = _
  rw [bind_of_eq hClosing]
  rfl

theorem reads_listed {γ : Type} {items : List γ} {f : γ → Text} {g : γ → α} {sep closing : Text}
    (hItems : ∀ i ∈ items, Reads Anything (ended sep p) (f i) (g i))
    (hClosing : ∀ ls, lexemes closing <+: ls → p ls = none) (hEnd : Writes t closing) :
    Reads Anything (listed sep closing p) (items.flatMap f ++ t) (items.map g) := by
  have hWithin (n : Nat) (rest : Text)
      (hFuel : (lexemes (items.flatMap f ++ t ++ rest)).length < n) :
      listedWithin sep closing p n (lexemes (items.flatMap f ++ t ++ rest)) =
          some (items.map g, lexemes rest) ∧
        (lexemes rest).length < (lexemes (items.flatMap f ++ t ++ rest)).length := by
    induction items generalizing n with
    | nil =>
      obtain ⟨n, rfl⟩ := Nat.exists_eq_succ_of_ne_zero (Nat.ne_zero_of_lt hFuel)
      rw [List.flatMap_nil, List.nil_append, hEnd.lexemes_append]
      have hSome := List.length_pos_iff.mpr hEnd.2.2
      exact ⟨listedWithin_closing n _, by rw [List.length_append]; omega⟩
    | cons i items ih =>
      obtain ⟨n, rfl⟩ := Nat.exists_eq_succ_of_ne_zero (Nat.ne_zero_of_lt hFuel)
      obtain ⟨hi, hMore⟩ := List.forall_mem_cons.mp hItems
      rw [List.flatMap_cons, List.append_assoc, List.append_assoc] at hFuel ⊢
      obtain ⟨hRead, hShorter⟩ := hi (items.flatMap f ++ (t ++ rest)) trivial
      have hItem := ended_eq_some hRead
      have hNot : ¬lexemes closing <+: lexemes (f i ++ (items.flatMap f ++ (t ++ rest))) := by
        intro hPrefix
        rw [hClosing _ hPrefix] at hItem
        cases hItem
      rw [← List.append_assoc (items.flatMap f)] at hItem hNot hFuel hShorter ⊢
      obtain ⟨hRest, hShortest⟩ := ih hMore n (by omega)
      rw [listedWithin_item hNot hItem, hRest]
      exact ⟨rfl, Nat.lt_trans hShortest hShorter⟩
  intro rest _
  exact hWithin _ rest (Nat.lt_succ_self _)

/-- A list on one line has nothing behind its last element. -/
theorem reads_listed_join {γ : Type} {items : List γ} {f : γ → Text} {g : γ → α}
    {sep closing comma : Text} (hItems : ∀ i ∈ items, Reads ok p (f i) (g i))
    (hClosing : ∀ ls, lexemes closing <+: ls → p ls = none) (hEnd : Writes t closing)
    (hComma : Writes comma sep) (hBeforeComma : ∀ rest, ok (comma ++ rest))
    (hBeforeEnd : ∀ rest, ok (t ++ rest))
    (hOther : ∀ ls, ¬lexemes sep <+: lexemes closing ++ ls) :
    Reads Anything (listed sep closing p) (Text.join comma (items.map f) ++ t) (items.map g) := by
  have hWithin (n : Nat) (rest : Text)
      (hFuel : (lexemes (Text.join comma (items.map f) ++ t ++ rest)).length < n) :
      listedWithin sep closing p n (lexemes (Text.join comma (items.map f) ++ t ++ rest)) =
          some (items.map g, lexemes rest) ∧
        (lexemes rest).length < (lexemes (Text.join comma (items.map f) ++ t ++ rest)).length := by
    have hEndShorter : (lexemes rest).length < (lexemes (t ++ rest)).length := by
      have hSome := List.length_pos_iff.mpr hEnd.2.2
      rw [hEnd.lexemes_append, List.length_append]
      omega
    induction items generalizing n with
    | nil =>
      obtain ⟨n, rfl⟩ := Nat.exists_eq_succ_of_ne_zero (Nat.ne_zero_of_lt hFuel)
      change listedWithin sep closing p (n + 1) (lexemes (t ++ rest)) = _ ∧ _
      refine ⟨?_, hEndShorter⟩
      rw [hEnd.lexemes_append]
      exact listedWithin_closing n _
    | cons i items ih =>
      obtain ⟨n, rfl⟩ := Nat.exists_eq_succ_of_ne_zero (Nat.ne_zero_of_lt hFuel)
      obtain ⟨hi, hMore⟩ := List.forall_mem_cons.mp hItems
      have hNot {r : Text} (hok : ok r) : ¬lexemes closing <+: lexemes (f i ++ r) := by
        intro hPrefix
        have hItem := (hi r hok).1
        rw [hClosing _ hPrefix] at hItem
        cases hItem
      cases items with
      | nil =>
        have hAlone : Text.join comma ([i].map f) = f i := by simp [Text.join, List.intercalate]
        obtain ⟨hItem, hShorter⟩ := hi (t ++ rest) (hBeforeEnd rest)
        rw [hAlone, List.append_assoc]
        refine ⟨?_, Nat.lt_trans hEndShorter hShorter⟩
        rw [hEnd.lexemes_append] at hItem
        exact listedWithin_last (hNot (hBeforeEnd rest)) (hOther _) hItem
      | cons j items =>
        rw [List.map_cons, List.map_cons, Text.join_cons_cons, List.append_assoc, List.append_assoc,
          List.append_assoc, ← List.map_cons, ← List.append_assoc _ t] at hFuel ⊢
        obtain ⟨hItem, hShorter⟩ :=
          hi _ (hBeforeComma (Text.join comma ((j :: items).map f) ++ t ++ rest))
        have hAfter := hComma.lexemes_append (Text.join comma ((j :: items).map f) ++ t ++ rest)
        rw [hAfter] at hItem hShorter
        rw [List.length_append] at hShorter
        have hSome := List.length_pos_iff.mpr hComma.2.2
        obtain ⟨hRest, hShortest⟩ := ih hMore n (by omega)
        rw [listedWithin_item (hNot (hBeforeComma _)) hItem, hRest]
        exact ⟨rfl, by omega⟩
  intro rest _
  exact hWithin _ rest (Nat.lt_succ_self _)

theorem eachWithin_other {opening : Text} {n : Nat} {ls : List Lexeme}
    (h : ¬lexemes opening <+: ls) : eachWithin opening p (n + 1) ls = some ([], ls) := by
  rw [eachWithin, given_bind_other h]
  rfl

theorem eachWithin_item {opening : Text} {n : Nat} {ls rest : List Lexeme}
    (hItem : p ls = some (a, rest)) : eachWithin opening p (n + 1) (lexemes opening ++ ls) =
      (eachWithin opening p n rest).map fun r => (a :: r.1, r.2) := by
  rw [eachWithin, given_bind_prefix]
  change (p >>= _) ls = _
  rw [bind_of_eq hItem]
  change (eachWithin opening p n rest).bind _ = _
  cases eachWithin opening p n rest <;> rfl

/-- Items behind their openings, up to something else. -/
theorem Reads.each {γ : Type} {items : List γ} {f : γ → Text} {g : γ → α} {opening : Text}
    {q : List α → Reader β}
    (hItems : ∀ i ∈ items, Reads Anything (do expect opening; p) (f i) (g i))
    (hq : Reads ok (q (items.map g)) t b)
    (hOther : ∀ rest, ok rest → ¬lexemes opening <+: lexemes (t ++ rest)) :
    Reads ok (each opening p >>= q) (items.flatMap f ++ t) b := by
  have hWithin (n : Nat) (rest : Text) (hok : ok rest)
      (hFuel : (lexemes (items.flatMap f ++ t ++ rest)).length < n) :
      eachWithin opening p n (lexemes (items.flatMap f ++ t ++ rest)) =
          some (items.map g, lexemes (t ++ rest)) ∧
        (lexemes (t ++ rest)).length ≤ (lexemes (items.flatMap f ++ t ++ rest)).length := by
    clear hq
    induction items generalizing n with
    | nil =>
      obtain ⟨n, rfl⟩ := Nat.exists_eq_succ_of_ne_zero (Nat.ne_zero_of_lt hFuel)
      exact ⟨eachWithin_other (hOther rest hok), Nat.le_refl _⟩
    | cons i items ih =>
      obtain ⟨n, rfl⟩ := Nat.exists_eq_succ_of_ne_zero (Nat.ne_zero_of_lt hFuel)
      obtain ⟨hi, hMore⟩ := List.forall_mem_cons.mp hItems
      rw [List.flatMap_cons, List.append_assoc, List.append_assoc] at hFuel ⊢
      obtain ⟨hRead, hShorter⟩ := hi (items.flatMap f ++ (t ++ rest)) trivial
      rw [← List.append_assoc (items.flatMap f)] at hRead hFuel hShorter ⊢
      obtain ⟨hRest, hShortest⟩ := ih hMore n (by omega)
      obtain ⟨⟨_, r⟩, hOpening, hItem⟩ := Option.bind_eq_some_iff.mp hRead
      rw [expect_eq_some hOpening, eachWithin_item hItem, hRest]
      exact ⟨rfl, by rw [← expect_eq_some hOpening]; omega⟩
  intro rest hok
  obtain ⟨hList, hShorter⟩ := hWithin _ rest hok (Nat.lt_succ_self _)
  obtain ⟨hAfter, hShortest⟩ := hq rest hok
  exact ⟨(bind_of_eq hList q).trans hAfter, Nat.lt_of_lt_of_le hShortest hShorter⟩

theorem lexemes_indented (n : Nat) (s : Text) : lexemes (List.replicate n 32 ++ s) = lexemes s := by
  induction n with
  | zero => rfl
  | succ n ih => exact ih

theorem lexemes_render (l : Line) (rest : Text) :
    lexemes (l.render ++ rest) = lexemes (l.text ++ 10 :: rest) := by
  rw [Line.render]
  split
  · rename_i hEmpty
    rw [List.isEmpty_iff.mp hEmpty]
    rfl
  · rw [List.append_assoc, List.append_assoc, lexemes_indented]
    rfl

def shifted (d : Nat) (ls : List Line) : List Line := ls.map fun l => ⟨l.depth + d, l.text⟩

/-- The reader takes the lines at any depth. -/
def ReadsLines (p : Reader α) (ls : List Line) (a : α) : Prop :=
  ∀ d, Reads Anything p (renderLines (shifted d ls)) a

theorem shifted_deeper (d : Nat) (ls : List Line) :
    shifted d (ls.map Line.deeper) = shifted (d + 1) ls := by
  rw [shifted, shifted, List.map_map]
  refine List.map_congr_left fun l _ => ?_
  simp only [Function.comp_apply, Line.deeper, Line.mk.injEq, and_true]
  omega

theorem renderLines_append (ls ls' : List Line) :
    renderLines (ls ++ ls') = renderLines ls ++ renderLines ls' := List.flatMap_append

theorem ReadsLines.andThen {u v : List Line} (hp : ReadsLines p u a)
    (hq : ReadsLines (q a) v b) : ReadsLines (p >>= q) (u ++ v) b := by
  intro d
  rw [shifted, List.map_append, renderLines_append]
  exact (hp d).andThen (hq d)

theorem ReadsLines.result {ls : List Line} (hp : ReadsLines p ls a) (hq : q a = pure b) :
    ReadsLines (p >>= q) ls b :=
  fun d => (hp d).result hq

theorem ReadsLines.deeper {ls : List Line} (hp : ReadsLines p ls a) :
    ReadsLines p (ls.map Line.deeper) a := by
  intro d
  rw [shifted_deeper]
  exact hp (d + 1)

theorem readsLine {s : Text} (h : Reads Anything p (s ++ [10]) a) : ReadsLines p [.top s] a := by
  intro d rest _
  change p (lexemes (Line.render ⟨0 + d, s⟩ ++ [] ++ rest)) = _ ∧ _
  rw [List.append_nil, lexemes_render]
  obtain ⟨hRead, hShorter⟩ := h rest trivial
  rw [List.append_assoc] at hRead hShorter
  exact ⟨hRead, hShorter.trans_eq (congrArg List.length (by
    change _ = lexemes (Line.render ⟨0 + d, s⟩ ++ [] ++ rest)
    rw [List.append_nil, lexemes_render]
    rfl))⟩

theorem Writes.ne_nil (h : Writes s t) : s ≠ [] := by
  rintro rfl
  exact h.2.2 h.2.1.symm

theorem Writes.indented (h : Writes s t) (n : Nat) : Writes (List.replicate n 32 ++ s) t := by
  obtain ⟨hClosed, hSame, hSome⟩ := h
  refine ⟨?_, (lexemes_indented n s).trans hSame, hSome⟩
  have hRun : run .free (List.replicate n 32 ++ s) = run .free s := by
    clear hClosed hSame
    induction n with
    | zero => rfl
    | succ n ih => exact ih
  exact (congrArg Prod.snd hRun).trans hClosed

theorem render_of_ne_nil {l : Line} (h : l.text ≠ []) :
    l.render = List.replicate (4 * l.depth) 32 ++ l.text ++ [10] := by
  rw [Line.render, List.isEmpty_eq_false_iff.mpr h, if_neg Bool.false_ne_true]

theorem Writes.render (h : Writes (s ++ [10]) t) (n : Nat) : Writes (Line.render ⟨n, s⟩) t := by
  by_cases hEmpty : s = []
  · rw [hEmpty] at h ⊢
    exact h
  · rw [render_of_ne_nil hEmpty, List.append_assoc]
    exact h.indented _

theorem ReadsLines.blank {ls : List Line} (hp : ReadsLines p ls a) :
    ReadsLines p (Line.blank :: ls) a :=
  fun d rest hRest => hp d rest hRest

theorem ReadsLines.thenBlank {u : List Line} (hp : ReadsLines p u a) :
    ReadsLines p (u ++ [Line.blank]) a := by
  intro d rest _
  rw [shifted, List.map_append, renderLines_append, List.append_assoc]
  exact hp d (10 :: rest) trivial

/-- A reader that takes nothing in front of the lines. -/
theorem ReadsLines.passing {ls : List Line}
    (hp : ∀ d rest, p (lexemes (renderLines (shifted d ls) ++ rest)) =
      some (a, lexemes (renderLines (shifted d ls) ++ rest)))
    (hq : ReadsLines (q a) ls b) : ReadsLines (p >>= q) ls b :=
  fun d => .passing (fun rest _ => hp d rest) (hq d)

theorem Reads.newline (hp : Reads ok p s a) : Reads ok p ([10] ++ s) a := hp

theorem Reads.render {l : Line} (hp : Reads ok p (l.text ++ ([10] ++ s)) a) :
    Reads ok p (l.render ++ s) a := by
  intro rest hok
  have hRead := hp rest hok
  rw [List.append_assoc, List.append_assoc] at hRead
  rw [List.append_assoc, lexemes_render]
  exact hRead

theorem renderLines_shifted_cons (d : Nat) (l : Line) (ls : List Line) :
    renderLines (shifted d (l :: ls)) =
      Line.render ⟨l.depth + d, l.text⟩ ++ renderLines (shifted d ls) := rfl

/-- A first line, read as text with the lines behind it. -/
theorem readsLines_cons {ls : List Line}
    (h : ∀ d, Reads Anything p (s ++ ([10] ++ renderLines (shifted d ls))) a) :
    ReadsLines p (.top s :: ls) a := by
  intro d
  rw [renderLines_shifted_cons]
  exact .render (h d)

theorem renderLines_listed {γ : Type} (items : List γ) (f : γ → List Line) (t : Text) (d : Nat) :
    renderLines (shifted d (items.flatMap f ++ [.top t])) =
      items.flatMap (fun i => renderLines (shifted d (f i))) ++ Line.render ⟨0 + d, t⟩ := by
  rw [shifted, List.map_append, renderLines_append, List.map_flatMap, renderLines,
    List.flatMap_assoc]
  congr 1
  exact List.append_nil _

/-- Elements on lines of their own, each with the separator behind it. -/
theorem readsLines_listed {γ : Type} {items : List γ} {f : γ → List Line} {g : γ → α}
    {sep closing : Text} (hItems : ∀ i ∈ items, ReadsLines (ended sep p) (f i) (g i))
    (hClosing : ∀ ls, lexemes closing <+: ls → p ls = none) (hEnd : Writes (t ++ [10]) closing) :
    ReadsLines (listed sep closing p) (items.flatMap f ++ [.top t]) (items.map g) := by
  intro d
  rw [renderLines_listed]
  exact reads_listed (fun i hi => hItems i hi d) hClosing (hEnd.render _)

theorem leadingToks_append (ts : List Tok) (ls : List Lexeme) :
    leadingToks (ts.map .tok ++ ls) = ts ++ leadingToks ls := by
  induction ts with
  | nil => rfl
  | cons t ts ih => exact congrArg (t :: ·) ih

theorem leadingToks_drop (ls : List Lexeme) :
    (leadingToks ls).map .tok ++ ls.drop (leadingToks ls).length = ls := by
  fun_induction leadingToks ls with
  | case1 t ls ih => exact congrArg (.tok t :: ·) ih
  | case2 ls => rfl

/-- What can stand behind a value. -/
def closers : List Lexeme := [.tok .rparen, .sign 44, .sign 59, .sign 61, .sign 93]

theorem leadingToks_of_before {rest : Text} (h : Before closers rest) :
    leadingToks (lexemes rest) = [] ∨ ∃ ts, leadingToks (lexemes rest) = .rparen :: ts := by
  obtain ⟨_, l, r, hLexemes, hl⟩ := h
  rw [hLexemes]
  simp only [closers, List.mem_cons, List.not_mem_nil, or_false] at hl
  rcases hl with rfl | rfl | rfl | rfl | rfl
  · exact .inr ⟨_, rfl⟩
  all_goals exact .inl rfl

/-- An expression ends before what can stand behind it. -/
theorem exprAt_of_before {t : Tree} (ht : t.Grouped) {rest : Text} (h : Before closers rest) :
    Reading.exprAt 0 (t.tokens ++ leadingToks (lexemes rest)) =
      some (t, leadingToks (lexemes rest)) := by
  have hRead := (Reading.readBack_of_grouped ht).expr 0
  rcases leadingToks_of_before h with hNone | ⟨ts, hSome⟩
  · rw [hNone, hRead [] (Nat.zero_le _) trivial]
    simp [Reading.climb]
  · rw [hSome, hRead (.rparen :: ts) (Nat.zero_le _) trivial]
    simp [Reading.climb]

end Reader

/-- The expression that is read: text that is no UTF-8 cannot be shown in a string literal. -/
def Expr.shown : Expr → Expr
  | int l => int l
  | bool b => bool b
  | string s => string (Text.mended s)
  | bytes s => bytes s
  | var n => var n
  | member e n => member e.shown n
  | call e m => call e.shown m
  | slice e => slice e.shown
  | binary op l r => binary op l.shown r.shown
  | neg e => neg e.shown
  | paren e => paren e.shown

theorem Expr.ofWord_of_isOutputName {n : Text} (h : IsOutputName n) : ofWord n = var n := by
  obtain ⟨hKeyword, hName⟩ := h
  have hDigit : n.head?.any Text.isDigit = false := by
    rcases hName with ⟨c, r, rfl, hc, _⟩ | ⟨w, _, rfl⟩
    · exact isDigit_of_isIdentStart hc
    · rfl
  have hTrue : n ≠ "true" := by
    rintro rfl
    exact hKeyword (by decide)
  have hFalse : n ≠ "false" := by
    rintro rfl
    exact hKeyword (by decide)
  rw [ofWord, hDigit, if_neg Bool.false_ne_true, if_neg hTrue, if_neg hFalse]

theorem Expr.Spells.ofTree {e : Expr} {t : Tree} (h : e.Spells t) : ofTree t = some e.shown := by
  induction h with
  | int hNumber =>
    obtain ⟨c, r, rfl, hc, _⟩ := hNumber
    exact congrArg some (if_pos hc)
  | @bool b => cases b <;> rfl
  | @string s =>
    have hValue := stringValue?_stringLiteral s []
    rw [List.append_nil] at hValue
    rw [Expr.ofTree, hValue]
    rfl
  | var hName => exact congrArg some (ofWord_of_isOutputName hName)
  | member _ _ ih | call _ _ ih | neg _ ih | paren _ ih =>
    rw [Expr.ofTree, ih]
    rfl
  | binary _ _ ihLeft ihRight =>
    rw [Expr.ofTree, ihLeft, ihRight]
    rfl

/-- The expression is spelled as a tree that needs no brackets but its own. -/
def Expr.Readable (e : Expr) : Prop := ∃ t, e.Spells t ∧ t.Grouped

theorem Reader.reads_expr {e : Expr} (h : e.Readable) :
    Reads (Before closers) expr e.text e.shown := by
  obtain ⟨t, hSpells, hGrouped⟩ := h
  intro rest hRest
  have hTokens : 0 < t.tokens.length := by
    obtain ⟨k, ks, hCons, _⟩ := t.exists_tokens_eq_cons
    simp [hCons]
  have hDrop := leadingToks_drop (lexemes rest)
  rw [hSpells.lexemes_append hRest.1]
  constructor
  · rw [expr, leadingToks_append, exprAt_of_before hGrouped hRest]
    simp only [hSpells.ofTree, Option.map_some, List.length_append]
    rw [← List.drop_drop, List.drop_left' (List.length_map _), hDrop]
  · rw [List.length_append, List.length_map]
    omega

end AnchorScript.Rust
