import AnchorScript.Proofs.Syntax.SpacedText

/-!
# Files written anew

Every import, property, statement and field of a file that was read has words of its own: on one
line they are read as this item, whatever stands behind them. So the items of a file can be written
anew in another order, and the statements of its methods, too.
-/

namespace AnchorScript.Syntax

open AnchorScript.Syntax.Parser

variable {α β γ : Type} {src : Text}

def InLine (us : List Token) : Prop := ∀ t ∈ us, (∃ w, t.Is w) ∧ t.newlineBefore = false

theorem InLine.append {us vs : List Token} (h : InLine us) (h' : InLine vs) : InLine (us ++ vs) :=
  List.forall_mem_append.mpr ⟨h, h'⟩

theorem InLine.cons {t : Token} {us : List Token} (ht : InLine [t]) (h : InLine us) :
    InLine (t :: us) := ht.append h

def sign (p : Punct) : Token := ⟨.punct p, p.text, .start, .start, false⟩

theorem inLine_sign (p : Punct) : InLine [sign p] :=
  List.forall_mem_singleton.mpr ⟨⟨.punct p, rfl, rfl⟩, rfl⟩

theorem inLine_onLine {us : List Token} (h : ∀ t ∈ us, ∃ w, t.Is w) : InLine (onLine us) :=
  List.forall_mem_map.mpr fun t ht => ⟨h t ht, rfl⟩

/-- The tokens that a reader has taken from a source are words. -/
theorem inLine_of_taken {taken rest : List Token} (h : taken ++ rest <:+ tokens src)
    (hTaken : ∀ t ∈ taken, blocks t = false) : InLine (onLine taken) :=
  inLine_onLine fun t ht =>
    exists_word_of_blocks (h.subset (List.mem_append_left rest ht)) (hTaken t ht)

/-- Words on one line are read as the item, whatever stands behind them. -/
def Writable (read : List Token → Except Token (α × List Token)) (a : α) : Prop :=
  ∃ us, InLine us ∧ ∀ tail, read (us ++ tail) = .ok (a, tail)

theorem writable_of_closes (region : Region) {read : List Token → Except Token (α × List Token)}
    (hCloses : Parser.Closes region.ends read) (hRegion : ∀ ts, region.itemRest? ts = restOf (read ts))
    {ts rest : List Token} (hts : ts <:+ tokens src) {a : α} (hRead : read ts = .ok (a, rest)) :
    Writable read a := by
  have hItem : region.itemRest? ts = some rest :=
    (hRegion ts).trans (restOf_eq_some_iff.mpr ⟨a, hRead⟩)
  obtain ⟨taken, rfl, hTaken⟩ := exists_of_itemRest? hItem
  have hSemicolon : region.ends (.punct .semicolon) = true := by
    unfold Region.ends
    split <;> rfl
  refine ⟨onLine (closed region.ends (between (taken ++ rest) rest)), ?_,
    read_closed hCloses hSemicolon hRead⟩
  rw [between_append]
  refine inLine_onLine fun t ht => ?_
  rcases mem_closed ht with rfl | ht
  · exact ⟨.punct .semicolon, rfl, rfl⟩
  · exact exists_word_of_blocks (hts.subset (List.mem_append_left rest ht)) (hTaken t ht)

/-- What can be read before a closing brace, and is not the brace. -/
structure Reads (skips : TokenKind → Bool) (item : List Token → Except Token (α × List Token)) :
    Prop where
  stays (ts : List Token) : Stays ts (item ts)
  shorter {ts rest : List Token} {a : α} (h : item ts = .ok (a, rest)) : rest.length < ts.length
  refuses {t : Token} (r : List Token) (h : t.kind = .punct .rbrace ∨ skips t.kind = true) :
    item (t :: r) = .error t

section

variable {skips : TokenKind → Bool} {item : List Token → Except Token (α × List Token)}
  {loop : List Token → Except Token (List α × List Token)}

theorem Reads.exists_cons (h : Reads skips item) {ts rest : List Token} {a : α}
    (hRead : item ts = .ok (a, rest)) : ∃ t r, ts = t :: r ∧ t.kind ≠ .punct .rbrace ∧
      t.kind ≠ .endOfInput ∧ skips t.kind = false := by
  have hShorter := h.shorter hRead
  have hStays := h.stays ts
  rw [hRead] at hStays
  cases hStays with
  | @read _ taken _ hTokens hTaken =>
    cases taken with
    | nil =>
      rw [hTokens] at hShorter
      exact absurd hShorter (Nat.lt_irrefl _)
    | cons t taken =>
      have hFits : ¬ (t.kind = .punct .rbrace ∨ skips t.kind = true) := by
        intro hKind
        rw [hTokens, List.cons_append, h.refuses _ hKind] at hRead
        cases hRead
      rw [not_or, Bool.not_eq_true] at hFits
      exact ⟨t, taken ++ rest, hTokens, hFits.1, kind_ne_endOfInput (hTaken t List.mem_cons_self),
        hFits.2⟩

theorem Parser.Stays.suffix {ts rest : List Token} {x : Except Token (α × List Token)}
    (h : Stays ts x) {a : α} (hx : x = .ok (a, rest)) : rest <:+ ts := by
  rw [hx] at h
  cases h with
  | read hTokens => exact ⟨_, hTokens.symm⟩

/-- What holds of every item read from a source holds of all that the loop reads. -/
theorem Loops.forall_mem (hLoop : Loops skips item loop) (hReads : Reads skips item) {P : α → Prop}
    (hItem : ∀ {ts a rest}, ts <:+ tokens src → item ts = .ok (a, rest) → P a)
    {ts rest : List Token} (hts : ts <:+ tokens src) {as : List α}
    (h : loop ts = .ok (as, rest)) : ∀ a ∈ as, P a := by
  match ts with
  | [] =>
    rw [hLoop.nil] at h
    cases h
  | t :: r =>
    have hTail : r <:+ tokens src := (List.suffix_cons t r).trans hts
    rw [hLoop.cons] at h
    split at h
    · cases h
      simp
    · split at h
      · cases h
      · split at h
        · exact hLoop.forall_mem hReads hItem hTail h
        · obtain ⟨⟨a, r₁⟩, hFirst, hMore⟩ := Outcome.bind_eq_ok_iff.mp h
          obtain ⟨⟨as', r₂⟩, hRest, hSame⟩ := Outcome.bind_eq_ok_iff.mp hMore
          cases hSame
          have hShorter := hReads.shorter hFirst
          have hLater : r₁ <:+ tokens src := ((hReads.stays _).suffix hFirst).trans hts
          exact List.forall_mem_cons.mpr
            ⟨hItem hts hFirst, hLoop.forall_mem hReads hItem hLater hRest⟩
termination_by ts.length
decreasing_by
  · exact hShorter
  · exact length_lt_cons t r

theorem Loops.writable (hLoop : Loops skips item loop) (hReads : Reads skips item) {as : List α}
    (h : ∀ a ∈ as, Writable item a) : Writable loop as := by
  induction as with
  | nil =>
    refine ⟨[sign .rbrace], inLine_sign .rbrace, fun tail => ?_⟩
    rw [List.singleton_append, hLoop.cons]
    exact if_pos rfl
  | cons a as ih =>
    obtain ⟨⟨us, hUs, hItem⟩, hOthers⟩ := List.forall_mem_cons.mp h
    obtain ⟨vs, hVs, hRest⟩ := ih hOthers
    refine ⟨us ++ vs, hUs.append hVs, fun tail => ?_⟩
    have hFirst := hItem (vs ++ tail)
    rw [List.append_assoc]
    obtain ⟨t, r, hCons, hBrace, hEnd, hSkip⟩ := hReads.exists_cons hFirst
    rw [hCons] at hFirst ⊢
    rw [hLoop.cons, if_neg hBrace, if_neg hEnd, hSkip, if_neg Bool.false_ne_true, hFirst]
    exact congrArg (· >>= fun p => pure (a :: p.1, p.2)) (hRest tail)

end

theorem reads_statementFrom : Reads isSemicolon statementFrom where
  stays ts := by
    cases ts with
    | nil => exact .refused
    | cons t r => exact statement_stays t r
  shorter {ts rest a} h := by
    cases ts with
    | nil => cases h
    | cons t r => exact length_lt_of_reading h
  refuses r h := by
    rcases h with hKind | hKind
    · exact statementFrom_of_punct r hKind (.inl rfl)
    · exact statementFrom_of_punct r (of_decide_eq_true hKind) (.inr rfl)

theorem reads_member : Reads isSemicolon fun ts => reading (member ts) where
  stays := member_stays
  shorter := length_lt_of_reading
  refuses r h := by
    rcases h with hKind | hKind
    · exact member_of_punct r hKind
    · exact member_of_punct r (of_decide_eq_true hKind)

theorem reads_fieldFrom : Reads (fun _ => false) fieldFrom where
  stays ts := by
    refine .bind (field_stays "field" ts) fun f r _ => ?_
    exact .map (endOfField_stays f.name r) fun _ => rfl
  shorter {ts rest f} h := by
    have hItem : Region.itemRest? (.body .interface) ts = some rest :=
      restOf_eq_some_iff.mpr ⟨f, h⟩
    exact Region.length_lt_of_itemRest? hItem
  refuses r h := by
    have hKind := h.resolve_right Bool.false_ne_true
    rw [fieldFrom, reading_field, kind_of_ne r (by simp [hKind])]
    rfl

/-- The statements of a method, in any order and as often as one likes. -/
theorem writable_statements {what : Text} {ts rest : List Token} (hts : ts <:+ tokens src)
    {ss ss' : List Statement} (h : reading (statements what ts) = .ok (ss, rest)) (hSub : ss' ⊆ ss) :
    Writable (fun ts => reading (statements what ts)) ss' := by
  have hItem : ∀ {ts s rest}, ts <:+ tokens src → statementFrom ts = .ok (s, rest) →
      Writable statementFrom s := fun hts hRead =>
    writable_of_closes (.body .method) closes_statementFrom (fun _ => rfl) hts hRead
  have hAll := (loops_statements what).forall_mem reads_statementFrom hItem hts h
  exact (loops_statements what).writable reads_statementFrom fun s hs => hAll s (hSub hs)

section

variable {head : List Token → Except Token (α × List Token)}
  {body : List Token → Except Token (β × List Token)} {build : α → β → γ}

theorem exists_of_opened (hStays : ∀ ts, Stays ts (head ts)) {ts rest : List Token} {c : γ}
    (h : opened head body build ts = .ok (c, rest)) : ∃ a b r r', head ts = .ok (a, r) ∧
      r' <:+ ts ∧ body r' = .ok (b, rest) ∧ c = build a b := by
  obtain ⟨⟨a, r⟩, hHead, hMore⟩ := Outcome.bind_eq_ok_iff.mp h
  obtain ⟨⟨t, r'⟩, hOpen, hMore⟩ := Outcome.bind_eq_ok_iff.mp hMore
  obtain ⟨⟨b, r''⟩, hBody, hSame⟩ := Outcome.bind_eq_ok_iff.mp hMore
  cases hSame
  obtain ⟨rfl, _⟩ := word_eq_ok_iff.mp hOpen
  exact ⟨a, b, t :: r', r', hHead, (List.suffix_cons t r').trans ((hStays ts).suffix hHead), hBody,
    rfl⟩

/-- The head of a declaration with another body. -/
theorem writable_opened (hHead : Copies (· = .punct .lbrace) inHead head)
    (hStays : ∀ ts, Stays ts (head ts)) {ts r : List Token} (hts : ts <:+ tokens src) {a : α}
    (hRead : head ts = .ok (a, r)) {b : β} (hBody : Writable body b) :
    Writable (opened head body build) (build a b) := by
  obtain ⟨vs, hVs, hLine⟩ := hBody
  obtain ⟨used, rfl, _, hSame⟩ := hHead hRead
  have hUsed : InLine (onLine used) := by
    have hTaken := hStays (used ++ r)
    rw [hRead] at hTaken
    cases hTaken with
    | read hTokens hTaken =>
      rw [List.append_cancel_right hTokens] at hts ⊢
      exact inLine_of_taken hts hTaken
  refine ⟨onLine used ++ (sign .lbrace :: vs), hUsed.append (.cons (inLine_sign .lbrace) hVs),
    fun tail => ?_⟩
  rw [List.append_assoc, opened, hSame _ rfl]
  exact congrArg (· >>= fun q => pure (build a q.1, q.2)) (hLine tail)

end

theorem signature_stays (ts : List Token) : Stays ts (signature ts) := by
  refine .bind (punct_stays .lparen ts) fun _ r _ => ?_
  refine .bind (listUntil_stays r fun r' _ => field_stays _ r') fun _ r₁ _ => ?_
  exact .map (typeAnnotation_stays r₁) fun _ => rfl

/-- The method with some of its statements, in any order. -/
def MethodDecl.Rearranged (m m' : MethodDecl) : Prop := ∃ body ⊆ m.body, m' = { m with body }

theorem writable_method {name : Token} {ts rest : List Token} (hts : ts <:+ tokens src)
    {m m' : MethodDecl} (h : reading (method name ts) = .ok (m, rest)) (hm : m.Rearranged m') :
    Writable (fun ts => reading (method name ts)) m' := by
  obtain ⟨body, hSub, rfl⟩ := hm
  have hEq := funext (reading_method_eq name)
  rw [hEq]
  rw [reading_method_eq] at h
  obtain ⟨⟨params, returns⟩, ss, r, r', hHead, hSuffix, hBody, rfl⟩ :=
    exists_of_opened signature_stays h
  exact writable_opened copies_signature signature_stays hts hHead
    (writable_statements (hSuffix.trans hts) hBody hSub)

inductive Parser.Member.Rearranged : Member → Member → Prop
  | property (p : PropertyDecl) : Rearranged (.property p) (.property p)
  | method {m m' : MethodDecl} (h : m.Rearranged m') : Rearranged (.method m) (.method m')

theorem writable_member {ts rest : List Token} (hts : ts <:+ tokens src) {m m' : Member}
    (h : reading (member ts) = .ok (m, rest)) (hm : m.Rearranged m') :
    Writable (fun ts => reading (member ts)) m' := by
  cases hm with
  | property p =>
    obtain ⟨us, hUs, hLine⟩ := writable_of_closes (.body .cls) closes_propertyFrom (fun _ => rfl)
      hts (propertyFrom_eq_ok_iff.mpr h)
    exact ⟨us, hUs, fun tail => propertyFrom_eq_ok_iff.mp (hLine tail)⟩
  | method hm =>
    obtain ⟨words, name, r, rfl, hWords, hName, hMethod⟩ := member_eq_ok_method_iff.mp h
    have hSuffix : r <:+ words ++ name :: r :=
      (List.suffix_cons name r).trans (List.suffix_append words _)
    obtain ⟨us, hUs, hLine⟩ := writable_method (hSuffix.trans hts) hMethod hm
    have hFits : ∀ t ∈ words ++ [name], blocks t = false := by
      rcases hWords with rfl | ⟨w, rfl, hw⟩
      · exact List.forall_mem_singleton.mpr (blocks_ident hName)
      · exact List.forall_mem_cons.mpr
          ⟨blocks_keyword hw, List.forall_mem_singleton.mpr (blocks_ident hName)⟩
    have hSource : (words ++ [name]) ++ r <:+ tokens src := by rwa [List.append_assoc]
    have hTaken := inLine_of_taken hSource hFits
    refine ⟨onLine (words ++ [name]) ++ us, hTaken.append hUs, fun tail => ?_⟩
    refine member_eq_ok_method_iff.mpr ⟨onLine words, name.joined, us ++ tail, by simp [onLine], ?_,
      hName, ?_⟩
    · rcases hWords with rfl | ⟨w, rfl, hw⟩
      · exact .inl rfl
      · exact .inr ⟨w.joined, rfl, hw⟩
    · rw [method_joined]
      exact hLine tail

theorem writable_members {ts rest : List Token} (hts : ts <:+ tokens src) {ms ms' : List Member}
    (h : reading (members ts) = .ok (ms, rest)) (hms : ∀ m' ∈ ms', ∃ m ∈ ms, m.Rearranged m') :
    Writable (fun ts => reading (members ts)) ms' := by
  have hAll := loops_members.forall_mem reads_member
    (P := fun m => ∀ m', m.Rearranged m' → Writable (fun ts => reading (member ts)) m')
    (fun hts hRead m' hm => writable_member hts hRead hm) hts h
  refine loops_members.writable reads_member fun m' hm' => ?_
  obtain ⟨m, hm, hSame⟩ := hms m' hm'
  exact hAll m hm m' hSame

/-- The class with some of the statements of its methods. -/
def ClassDecl.Rearranged (c c' : ClassDecl) : Prop :=
  ∃ methods, (∀ m' ∈ methods, ∃ m ∈ c.methods, m.Rearranged m') ∧ c' = { c with methods }

inductive Parser.Declaration.Rearranged : Declaration → Declaration → Prop
  | cls {c c' : ClassDecl} (h : c.Rearranged c') : Rearranged (.cls c) (.cls c')
  | interface (i : InterfaceDecl) : Rearranged (.interface i) (.interface i)

/-- A class keeps its properties and its methods apart, so the properties can be written first. -/
def membersOf (ps : List PropertyDecl) (ms : List MethodDecl) : List Member :=
  ps.map .property ++ ms.map .method

theorem properties_membersOf (ps : List PropertyDecl) (ms : List MethodDecl) :
    (membersOf ps ms).filterMap Member.property? = ps := by
  simp [membersOf, Function.comp_def, Member.property?]

theorem methods_membersOf (ps : List PropertyDecl) (ms : List MethodDecl) :
    (membersOf ps ms).filterMap Member.method? = ms := by
  simp [membersOf, Function.comp_def, Member.method?]

theorem className_stays (ts : List Token) : Stays ts (className ts) :=
  .map (ident_stays ts) fun _ => rfl

theorem writable_classDecl {isExported isDefault : Bool} {t : Token} {r rest : List Token}
    (hts : r <:+ tokens src) {c c' : ClassDecl} (hKind : t.kind = .keyword .kwClass)
    (h : reading (classDecl isExported isDefault (t :: r)) = .ok (c, rest))
    (hc : c.Rearranged c') :
    Writable (fun ts => reading (classDecl isExported isDefault (t.joined :: ts))) c' := by
  have hEq := funext fun ts =>
    reading_classDecl_cons (t := t.joined) isExported isDefault ts hKind
  rw [hEq]
  rw [reading_classDecl_cons _ _ _ hKind] at h
  obtain ⟨name, ms, r₁, r₂, hHead, hSuffix, hBody, rfl⟩ := exists_of_opened className_stays h
  obtain ⟨methods, hMethods, rfl⟩ := hc
  have hMembers : ∀ m' ∈ membersOf (ms.filterMap Member.property?) methods,
      ∃ m ∈ ms, m.Rearranged m' := by
    refine List.forall_mem_append.mpr ⟨List.forall_mem_map.mpr fun p hp => ?_,
      List.forall_mem_map.mpr fun m' hm' => ?_⟩
    · obtain ⟨m, hm, hSome⟩ := List.mem_filterMap.mp hp
      cases m with
      | property q =>
        cases hSome
        exact ⟨_, hm, .property p⟩
      | method => cases hSome
    · obtain ⟨m, hm, hSame⟩ := hMethods m' hm'
      obtain ⟨item, hItem, hSome⟩ := List.mem_filterMap.mp hm
      cases item with
      | property => cases hSome
      | method n =>
        cases hSome
        exact ⟨_, hItem, .method hSame⟩
  have hSame :
      ClassDecl.mk name isExported isDefault (ms.filterMap Member.property?) methods t.pos =
      ClassDecl.mk name isExported isDefault
        ((membersOf (ms.filterMap Member.property?) methods).filterMap Member.property?)
        ((membersOf (ms.filterMap Member.property?) methods).filterMap Member.method?) t.pos := by
    rw [properties_membersOf, methods_membersOf]
  rw [hSame]
  exact writable_opened copies_className className_stays hts hHead
    (writable_members (hSuffix.trans hts) hBody hMembers)

theorem interfaceName_stays (ts : List Token) : Stays ts (interfaceName ts) :=
  .bind (ident_stays ts) fun _ r _ => .map (baseInterface_stays r) fun _ => rfl

theorem writable_interfaceDecl {isExported : Bool} {t : Token} {r rest : List Token}
    (hts : r <:+ tokens src) {i : InterfaceDecl} (hKind : t.kind = .keyword .kwInterface)
    (h : reading (interfaceDecl isExported (t :: r)) = .ok (i, rest)) :
    Writable (fun ts => reading (interfaceDecl isExported (t.joined :: ts))) i := by
  have hEq := funext fun ts => reading_interfaceDecl_cons (t := t.joined) isExported ts hKind
  rw [hEq]
  rw [reading_interfaceDecl_cons _ _ hKind] at h
  obtain ⟨⟨name, base⟩, fields, r₁, r₂, hHead, hSuffix, hBody, rfl⟩ :=
    exists_of_opened interfaceName_stays h
  have hField : ∀ {ts f rest}, ts <:+ tokens src → fieldFrom ts = .ok (f, rest) →
      Writable fieldFrom f := fun hts hRead =>
    writable_of_closes (.body .interface) closes_fieldFrom (fun _ => rfl) hts hRead
  have hFields := loops_interfaceFields.forall_mem reads_fieldFrom hField (hSuffix.trans hts) hBody
  exact writable_opened copies_interfaceName interfaceName_stays hts hHead
    (loops_interfaceFields.writable reads_fieldFrom hFields)

theorem writable_declared {isExported isDefault : Bool} {t : Token} {r rest : List Token}
    (hts : r <:+ tokens src) {d d' : Declaration}
    (h : declared isExported isDefault (t :: r) = .ok (d, rest)) (hd : d.Rearranged d') :
    (t.kind = .keyword .kwClass ∨ t.kind = .keyword .kwInterface) ∧
      Writable (fun ts => declared isExported isDefault (t.joined :: ts)) d' := by
  unfold declared at h
  split at h
  · rename_i hKind
    have hKind : t.kind = .keyword .kwClass := hKind
    obtain ⟨⟨c, r'⟩, hRead, hSame⟩ := Outcome.bind_eq_ok_iff.mp h
    cases hSame
    cases hd with
    | cls hc =>
      obtain ⟨us, hUs, hLine⟩ := writable_classDecl hts hKind hRead hc
      refine ⟨.inl hKind, us, hUs, fun tail => ?_⟩
      dsimp only
      rw [declared_class (t := t.joined) _ hKind]
      exact congrArg (· >>= fun p => pure (Declaration.cls p.1, p.2)) (hLine tail)
  · rename_i hKind
    have hKind : t.kind = .keyword .kwInterface := hKind
    split at h
    · cases h
    · rename_i hDefault
      obtain ⟨⟨i, r'⟩, hRead, hSame⟩ := Outcome.bind_eq_ok_iff.mp h
      cases hSame
      cases hd with
      | interface =>
        obtain ⟨us, hUs, hLine⟩ := writable_interfaceDecl hts hKind hRead
        refine ⟨.inr hKind, us, hUs, fun tail => ?_⟩
        dsimp only
        rw [declared_interface (t := t.joined) _ hKind, if_neg hDefault]
        exact congrArg (· >>= fun p => pure (Declaration.interface p.1, p.2)) (hLine tail)
  · cases h

/-- The export words of a class or an interface, on one line. -/
theorem exists_exportWords (ts : List Token) : ∃ words, ts = words ++ (exportedAs ts).2 ∧
    (∀ w ∈ words, blocks w = false) ∧ ∀ x, atKeyword .kwExport x = false →
      atKeyword .kwDefault x = false → exportedAs (onLine words ++ x) = ((exportedAs ts).1, x) := by
  rw [exportedAs_eq]
  cases hAt : atKeyword .kwExport ts with
  | false =>
    refine ⟨[], rfl, by simp, fun x hx _ => ?_⟩
    rw [exportedAs_eq]
    exact if_neg (by simp [hx, onLine])
  | true =>
    obtain ⟨t, r, rfl, hKind⟩ := exists_cons_of_atKeyword hAt
    cases hDefault : atKeyword .kwDefault r with
    | false =>
      refine ⟨[t], ?_, List.forall_mem_singleton.mpr (blocks_keyword hKind), fun x _ hx => ?_⟩
      · rw [if_pos rfl, List.tail_cons, skipped_of_not_at hDefault]
        rfl
      · rw [exportedAs_eq, if_pos rfl, List.tail_cons, skipped_of_not_at hDefault]
        refine (if_pos hAt).trans ?_
        rw [onLine_cons, List.cons_append, List.tail_cons]
        exact congrArg (fun p : Bool × List Token => ((true, p.1), p.2)) (skipped_of_not_at hx)
    | true =>
      obtain ⟨u, r, rfl, hNext⟩ := exists_cons_of_atKeyword hDefault
      refine ⟨[t, u], ?_, ?_, fun x _ _ => ?_⟩
      · rw [if_pos rfl, List.tail_cons, skipped_of_at r hNext]
        rfl
      · exact List.forall_mem_cons.mpr
          ⟨blocks_keyword hKind, List.forall_mem_singleton.mpr (blocks_keyword hNext)⟩
      · rw [exportedAs_eq, if_pos rfl, List.tail_cons, skipped_of_at r hNext]
        refine (if_pos hAt).trans ?_
        rw [onLine_cons, List.cons_append, List.tail_cons]
        exact congrArg (fun p : Bool × List Token => ((true, p.1), p.2))
          (skipped_of_at (t := u.joined) x hNext)

theorem writable_declaration {ts rest : List Token} (hts : ts <:+ tokens src) {d d' : Declaration}
    (h : reading (declaration ts) = .ok (d, rest)) (hd : d.Rearranged d') :
    Writable (fun ts => reading (declaration ts)) d' := by
  rw [reading_declaration] at h
  obtain ⟨words, hWords, hFits, hSame⟩ := exists_exportWords ts
  dsimp only at h
  obtain ⟨t, r, hCons⟩ : ∃ t r, (exportedAs ts).2 = t :: r :=
    exists_cons_of_opens (declared_line h).1
  rw [hCons] at h hWords
  have hSource : (words ++ [t]) ++ r <:+ tokens src := by
    rwa [List.append_assoc, List.singleton_append, ← hWords]
  have hTail : r <:+ tokens src := (List.suffix_append _ r).trans hSource
  obtain ⟨hKind, us, hUs, hLine⟩ := writable_declared hTail h hd
  have hTaken : InLine (onLine (words ++ [t])) := by
    refine inLine_of_taken hSource (List.forall_mem_append.mpr ⟨hFits, ?_⟩)
    rcases hKind with hKind | hKind <;> exact List.forall_mem_singleton.mpr (blocks_keyword hKind)
  refine ⟨onLine (words ++ [t]) ++ us, hTaken.append hUs, fun tail => ?_⟩
  have hHere : exportedAs (onLine (words ++ [t]) ++ us ++ tail) =
      ((exportedAs ts).1, t.joined :: (us ++ tail)) := by
    rw [onLine_append, List.append_assoc, List.append_assoc]
    refine hSame (t.joined :: (us ++ tail)) ?_ ?_ <;>
      rcases hKind with hKind | hKind <;>
        exact decide_eq_false (by simp [current, Token.joined, hKind])
  dsimp only
  rw [reading_declaration, hHere]
  exact hLine tail

/-- The file with some of the statements of its methods. -/
def File.Rearranged (f f' : File) : Prop :=
  ∃ classes, (∀ c' ∈ classes, ∃ c ∈ f.classes, c.Rearranged c') ∧ f' = { f with classes }

theorem exists_keyword_of_declaration {ts : List Token} {p : Declaration × List Token}
    (h : reading (declaration ts) = .ok p) :
    ∃ t r k, ts = t :: r ∧ t.kind = .keyword k ∧ k ≠ .kwImport := by
  rw [reading_declaration, exportedAs_eq] at h
  cases hAt : atKeyword .kwExport ts with
  | true =>
    obtain ⟨t, r, rfl, hKind⟩ := exists_cons_of_atKeyword hAt
    exact ⟨t, r, _, rfl, hKind, nofun⟩
  | false =>
    have hDeclared : declared false false ts = .ok p := by rwa [hAt] at h
    obtain ⟨t, r, rfl⟩ := exists_cons_of_opens (declared_line hDeclared).1
    unfold declared at hDeclared
    split at hDeclared
    · rename_i hKind
      exact ⟨t, r, _, rfl, hKind, nofun⟩
    · rename_i hKind
      exact ⟨t, r, _, rfl, hKind, nofun⟩
    · cases hDeclared

theorem forall_mem_declarations {P : Declaration → Prop}
    (hItem : ∀ {ts d rest}, ts <:+ tokens src → reading (declaration ts) = .ok (d, rest) → P d)
    {ts : List Token} (hts : ts <:+ tokens src) {ds : List Declaration}
    (h : located (declarations ts) = .ok ds) : ∀ d ∈ ds, P d := by
  match ts with
  | [] =>
    rw [located_declarations_nil] at h
    cases h
    simp
  | t :: r =>
    have hTail : r <:+ tokens src := (List.suffix_cons t r).trans hts
    rw [located_declarations_cons] at h
    split at h
    · cases h
      simp
    · split at h
      · exact forall_mem_declarations hItem hTail h
      · obtain ⟨⟨d, r₁⟩, hFirst, hMore⟩ := Outcome.bind_eq_ok_iff.mp h
        obtain ⟨ds', hRest, hSame⟩ := Outcome.bind_eq_ok_iff.mp hMore
        cases hSame
        have hShorter := length_lt_of_reading hFirst
        have hLater : r₁ <:+ tokens src := ((declaration_stays _).suffix hFirst).trans hts
        exact List.forall_mem_cons.mpr
          ⟨hItem hts hFirst, forall_mem_declarations hItem hLater hRest⟩
termination_by ts.length
decreasing_by
  · exact hShorter
  · exact length_lt_cons t r

theorem exists_declarations_line {ds : List Declaration}
    (h : ∀ d ∈ ds, Writable (fun ts => reading (declaration ts)) d) :
    ∃ us, InLine us ∧ ∀ stop, stop.kind = .endOfInput →
      atKeyword .kwImport (us ++ [stop]) = false ∧
        located (declarations (us ++ [stop])) = .ok ds := by
  induction ds with
  | nil =>
    refine ⟨[], by simp [InLine], fun stop hStop => ⟨?_, ?_⟩⟩
    · exact decide_eq_false (by simp [current, hStop])
    · rw [List.nil_append, located_declarations_cons, if_pos hStop]
  | cons d ds ih =>
    obtain ⟨⟨us, hUs, hFirst⟩, hOthers⟩ := List.forall_mem_cons.mp h
    obtain ⟨vs, hVs, hRest⟩ := ih hOthers
    refine ⟨us ++ vs, hUs.append hVs, fun stop hStop => ?_⟩
    have hRead : reading (declaration (us ++ (vs ++ [stop]))) = .ok (d, vs ++ [stop]) :=
      hFirst (vs ++ [stop])
    rw [List.append_assoc]
    obtain ⟨t, r, k, hCons, hKind, hImport⟩ := exists_keyword_of_declaration hRead
    rw [hCons] at hRead ⊢
    refine ⟨decide_eq_false (by simpa [current, hKind] using hImport), ?_⟩
    rw [located_declarations_cons, if_neg (by simp [hKind]), if_neg (by simp [hKind]), hRead]
    exact congrArg (· >>= fun ds => pure (d :: ds)) (hRest stop hStop).2

theorem writable_imports {ts rest : List Token} (hts : ts <:+ tokens src) {ds : List ImportDecl}
    (h : reading (importDecls ts) = .ok (ds, rest)) :
    ∀ d ∈ ds, Writable (fun ts => reading (importDecl ts)) d := by
  rw [reading_importDecls] at h
  split at h
  · obtain ⟨⟨d, r⟩, hFirst, hMore⟩ := Outcome.bind_eq_ok_iff.mp h
    obtain ⟨⟨ds', r'⟩, hRest, hSame⟩ := Outcome.bind_eq_ok_iff.mp hMore
    cases hSame
    have hShorter := length_lt_of_reading hFirst
    have hLater : r <:+ tokens src := ((importDecl_stays ts).suffix hFirst).trans hts
    have hHere := writable_of_closes .file closes_importDecl (fun _ => rfl) hts hFirst
    exact List.forall_mem_cons.mpr ⟨hHere, writable_imports hLater hRest⟩
  · cases h
    simp
termination_by ts.length

theorem exists_imports_line {ds : List ImportDecl}
    (h : ∀ d ∈ ds, Writable (fun ts => reading (importDecl ts)) d) :
    ∃ us, InLine us ∧ ∀ tail, atKeyword .kwImport tail = false →
      reading (importDecls (us ++ tail)) = .ok (ds, tail) := by
  induction ds with
  | nil =>
    refine ⟨[], by simp [InLine], fun tail hTail => ?_⟩
    rw [List.nil_append, reading_importDecls, hTail]
    rfl
  | cons d ds ih =>
    obtain ⟨⟨us, hUs, hFirst⟩, hOthers⟩ := List.forall_mem_cons.mp h
    obtain ⟨vs, hVs, hRest⟩ := ih hOthers
    refine ⟨us ++ vs, hUs.append hVs, fun tail hTail => ?_⟩
    have hRead : reading (importDecl (us ++ (vs ++ tail))) = .ok (d, vs ++ tail) :=
      hFirst (vs ++ tail)
    have hAt : atKeyword .kwImport (us ++ (vs ++ tail)) = true := by
      have hWord := hRead
      rw [reading_importDecl] at hWord
      have hMeets : Meets (· = .keyword .kwImport) (us ++ (vs ++ tail)) :=
        meets_of_kind hWord (decide_eq_true rfl)
      exact hMeets
    rw [List.append_assoc, reading_importDecls, if_pos hAt, hRead]
    exact congrArg (· >>= fun p => pure (d :: p.1, p.2)) (hRest tail hTail)

/-- A file that was read can be written with its statements in another order. -/
theorem exists_source_of_rearranged {name : Text} {f f' : File} (h : parse name src = .ok f)
    (hf : f.Rearranged f') : ∃ src' g, parse name src' = .ok g ∧ g.unplaced = f'.unplaced := by
  have hFile := parse_eq_ok_iff.mp h
  rw [located_file] at hFile
  obtain ⟨⟨imports, r⟩, hImports, hMore⟩ := Outcome.bind_eq_ok_iff.mp hFile
  obtain ⟨ds, hDeclarations, hSame⟩ := Outcome.bind_eq_ok_iff.mp hMore
  cases hSame
  obtain ⟨classes, hClasses, rfl⟩ := hf
  have hLater : r <:+ tokens src := (importDecls_stays _).suffix hImports
  have hEach := forall_mem_declarations
    (P := fun d => ∀ d', d.Rearranged d' → Writable (fun ts => reading (declaration ts)) d')
    (fun hts hRead d' hd => writable_declaration hts hRead hd) hLater hDeclarations
  -- Classes and interfaces are kept apart, so the classes can be written first.
  have hAll : ∀ d ∈ classes.map Declaration.cls ++
      (ds.filterMap Declaration.interface?).map Declaration.interface,
      Writable (fun ts => reading (declaration ts)) d := by
    refine List.forall_mem_append.mpr ⟨List.forall_mem_map.mpr fun c' hc' => ?_,
      List.forall_mem_map.mpr fun i hi => ?_⟩
    · obtain ⟨c, hc, hSame⟩ := hClasses c' hc'
      obtain ⟨d, hd, hSome⟩ := List.mem_filterMap.mp hc
      cases d with
      | interface => cases hSome
      | cls c₁ =>
        cases hSome
        exact hEach _ hd _ (.cls hSame)
    · obtain ⟨d, hd, hSome⟩ := List.mem_filterMap.mp hi
      cases d with
      | cls => cases hSome
      | interface j =>
        cases hSome
        exact hEach _ hd _ (.interface i)
  obtain ⟨us, hUs, hImported⟩ := exists_imports_line (writable_imports List.suffix_rfl hImports)
  obtain ⟨vs, hVs, hDeclared⟩ := exists_declarations_line hAll
  have hLine : onLine (us ++ vs) = us ++ vs := by
    refine (List.map_congr_left fun t ht => ?_).trans (List.map_id _)
    obtain ⟨_, hJoined⟩ := hUs.append hVs t ht
    rw [Token.joined, ← hJoined]
    rfl
  obtain ⟨ws, hSpell⟩ := exists_spell fun t ht => (hUs.append hVs t ht).1
  refine ⟨Word.line ws, parse_line hSpell fun stop hStop => ?_⟩
  obtain ⟨hOther, hRead⟩ := hDeclared stop hStop
  rw [hLine, List.append_assoc, located_file, hImported _ hOther]
  refine (congrArg (· >>= fun ds => pure (File.mk imports (ds.filterMap Declaration.class?)
    (ds.filterMap Declaration.interface?))) hRead).trans ?_
  simp [Function.comp_def, Declaration.class?, Declaration.interface?]

end AnchorScript.Syntax
