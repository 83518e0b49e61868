import AnchorScript.ProgramTable
import AnchorScript.Proofs.ProgramTable.Editing
import AnchorScript.Proofs.ProgramTable.Lines
import AnchorScript.Proofs.Toml.Tables
import AnchorScript.Proofs.Workspace.Runs

/-!
# Recording an id

Reading a document as a table of ids loses nothing that a look-up could find. Recording an id
rewrites one line of a workspace file or adds lines to it. In a file whose lines are expressions by
themselves, with no equals sign in a key, this changes the id of the one program in the one cluster
and no other id; outside of the cluster's table a value may run over several lines. A line over
which a string runs, or a key such as `"vault=old"`, can be taken for another. Where recording fails
the files stay as they are.
-/

namespace AnchorScript.ProgramTable

open Toml Text

/-- A look-up after entries were read one by one finds what was read of the entry found before. -/
theorem lookup_mapM {β : Type} {g : Toml → Option β} {es : Entries} {vs : List (Text × β)}
    (h : (es.mapM fun (n, v) => (g v).map (n, ·)) = some vs) (n : Text) :
    es.lookup n = none ∧ vs.lookup n = none ∨
      ∃ v w, es.lookup n = some v ∧ g v = some w ∧ vs.lookup n = some w := by
  induction es generalizing vs with
  | nil =>
    cases h
    exact .inl ⟨rfl, rfl⟩
  | cons e es ih =>
    obtain ⟨k, v⟩ := e
    rw [List.mapM_cons] at h
    obtain ⟨x, hx, h⟩ := Option.bind_eq_some_iff.mp h
    obtain ⟨vs', hRest, h⟩ := Option.bind_eq_some_iff.mp h
    obtain ⟨w, hw, rfl⟩ := Option.map_eq_some_iff.mp hx
    cases h
    rw [List.lookup_cons, List.lookup_cons]
    cases hKey : n == k with
    | true => exact .inr ⟨v, w, rfl, hw, rfl⟩
    | false => exact ih hRest

/-- The string of a value. -/
def string? : Toml → Option Text
  | .string s => some s
  | _ => none

theorem clusterIds?_table (d : Bool) (es : Entries) :
    clusterIds? (.table d es) = es.mapM fun (n, v) => (string? v).map (n, ·) := by
  rw [clusterIds?]
  refine congrArg (es.mapM ·) (funext fun (n, v) => ?_)
  cases v <;> rfl

theorem exists_of_clusterIds? {v : Toml} {ids : List (Text × Text)} (h : clusterIds? v = some ids) :
    ∃ d es, v = .table d es := by
  cases v with
  | table d es => exact ⟨d, es, rfl⟩
  | _ => cases h

/-- The way to the id of a program in a cluster. -/
def idWay (cluster name : Text) : List Text := [Text.ofString "programs", cluster, name]

theorem lookup_cluster {es : Entries} {table : List (Text × List (Text × Text))}
    (h : ofEntries? es = some table) (c n : Text) :
    (cluster table c).lookup n = (valueAt? (idWay c n) es).bind string? := by
  rw [idWay, valueAt?_cons (by simp), cluster]
  rw [ofEntries?] at h
  split at h
  · rename_i hNone
    cases h
    rw [hNone]
    rfl
  · rename_i d cs hPrograms
    rw [hPrograms]
    dsimp only
    rw [valueAt?_cons (by simp)]
    rcases lookup_mapM h c with ⟨hNone, hNone'⟩ | ⟨v, ids, hCluster, hIds, hFound⟩
    · rw [hNone, hNone']
      rfl
    · obtain ⟨d', es', rfl⟩ := exists_of_clusterIds? hIds
      rw [hCluster, hFound]
      dsimp only
      rw [valueAt?, Option.getD_some]
      rw [clusterIds?_table] at hIds
      rcases lookup_mapM hIds n with ⟨hNone, hNone'⟩ | ⟨v, id, hName, hString, hId⟩
      · rw [hNone, hNone']
        rfl
      · rw [hName, hId, Option.bind_some, hString]
  · cases h

theorem not_repeats {es : Entries} {table : List (Text × List (Text × Text))}
    (h : ofEntries? es = some table) : ¬Repeats "programs" es := by
  rintro ⟨ts, hTables⟩
  rw [ofEntries?, hTables] at h
  cases h

/-- A text in blocks, each of them an expression by itself. A block may run over several lines, except
in the table of the cluster, where every line is a block; above this table no line inside a block looks
like its header. -/
inductive LaidOut (c : Text) : Text → Prop
  | without {text : Text} {blocks : List Text} (hBlocks : blocks ≠ [])
      (hText : trimRight (· = 10) text = unlines blocks)
      (hAlone : ∀ b ∈ blocks, standsAlone (mended b) = true)
      (hNoHeader : ∀ l ∈ lines text, trimSpace l ≠ header c) : LaidOut c text
  | within {before body after : List Text} {h : Text}
      (hAlone : ∀ b ∈ before ++ h :: (body ++ after), standsAlone (mended b) = true)
      (hBefore : ∀ b ∈ before, ∀ l ∈ lines b, trimSpace l ≠ header c)
      (hHeader : trimSpace h = header c) (hLine : 10 ∉ h)
      (hBody : ∀ l ∈ body, 10 ∉ l ∧ beginsTable l = false)
      (hAfter : ∀ l ∈ (after.flatMap lines).head?, beginsTable l = true) :
      LaidOut c (unlines (before ++ h :: (body ++ after)))

theorem ofText?_unlines {bs : List Text} (hBlocks : bs ≠ []) (h : ∀ b ∈ bs, ∃ o, Reads (mended b) o) :
    Toml.ofText? (unlines bs) = (itemsOf (bs.map mended)).bind (build [] []) := by
  have hReads : ∀ l ∈ bs.map mended, ∃ o, Reads l o := fun l hl => by
    obtain ⟨b, hb, rfl⟩ := List.mem_map.mp hl
    exact h b hb
  have hItems := readItems_unlines (by simpa using hBlocks) hReads
  have hMended : ofChars (chars (unlines bs)) = unlines (bs.map mended) := mended_unlines bs
  rw [Toml.ofText?, hMended, hItems]
  rfl

theorem reads_blank : Reads (mended []) (some []) := by
  have hBlank : mended [] = [] := mended_eq_nil_iff.mpr rfl
  rw [hBlank]
  exact reads_of_returns (by simp [IsReturns])

theorem exists_items {bs : List Text} (h : ∀ b ∈ bs, standsAlone (mended b) = true) :
    ∃ is, itemsOf (bs.map mended) = some is := by
  induction bs with
  | nil => exact ⟨[], rfl⟩
  | cons b bs ih =>
    obtain ⟨hb, hbs⟩ := List.forall_mem_cons.mp h
    obtain ⟨is, hReads, _⟩ := reads_of_standsAlone hb
    obtain ⟨js, hRest⟩ := ih hbs
    exact ⟨is ++ js, by rw [List.map_cons, itemsOf, hReads.lineItems_eq, hRest]; rfl⟩

theorem items_append {bs bs' : List Text} {is is' : List Item} (h : itemsOf (bs.map mended) = some is)
    (h' : itemsOf (bs'.map mended) = some is') :
    itemsOf ((bs ++ bs').map mended) = some (is ++ is') := by
  rw [List.map_append, itemsOf_append, h, h']
  rfl

theorem items_singleton {b : Text} {o : Option (List Item)} (h : Reads (mended b) o) :
    itemsOf ([b].map mended) = o := by
  rw [List.map_singleton, itemsOf, h.lineItems_eq]
  cases o <;> simp [itemsOf]

theorem items_blank {bs : List Text} (h : ∀ b ∈ bs, b = []) : itemsOf (bs.map mended) = some [] := by
  induction bs with
  | nil => rfl
  | cons b bs ih =>
    obtain ⟨rfl, hbs⟩ := List.forall_mem_cons.mp h
    rw [List.map_cons, itemsOf, reads_blank.lineItems_eq, ih hbs]
    rfl

/-- Between two headers the items are entries. -/
theorem exists_entries {bs : List Text} (h : ∀ b ∈ bs, standsAlone (mended b) = true)
    (hTable : ∀ b ∈ bs, beginsTable b = false) :
    ∃ is, itemsOf (bs.map mended) = some is ∧ ∀ i ∈ is, i.IsEntry := by
  induction bs with
  | nil => exact ⟨[], rfl, by simp⟩
  | cons b bs ih =>
    obtain ⟨hb, hbs⟩ := List.forall_mem_cons.mp h
    obtain ⟨hHere, hRest⟩ := List.forall_mem_cons.mp hTable
    obtain ⟨is, hReads, _⟩ := reads_of_standsAlone hb
    obtain ⟨js, hItems, hEntries⟩ := ih hbs hRest
    exact ⟨is ++ js, items_append (items_singleton hReads) hItems,
      List.forall_mem_append.mpr ⟨isEntry_of_beginsTable hHere hReads, hEntries⟩⟩

/-- The line that gave the name a value is its entry. -/
theorem exists_entry {name : Text} {old : Option Text} (hName : isBareKey name = true)
    (hSets : ∀ l ∈ old, sets name l = true) (h : ∀ l ∈ old.toList, standsAlone (mended l) = true) :
    ∃ v : Option Toml, itemsOf (old.toList.map mended) = some (v.toList.map (.entry name)) := by
  cases old with
  | none => exact ⟨none, rfl⟩
  | some l =>
    obtain ⟨is, hReads, hKeys⟩ := reads_of_standsAlone (h l List.mem_cons_self)
    obtain ⟨v, rfl⟩ := items_of_sets hName (hSets l rfl) hReads hKeys
    exact ⟨some v, items_singleton hReads⟩

variable {c name id text : Text} {es es' : Entries}

theorem reads_entry (hName : isBareKey name = true) (id : Text) : ∃ o : Option Text,
    Reads (mended (entry name id)) (o.map fun t => [.entry name (.string t)]) := by
  have hMended : mended (entry name id) = entry name id := by
    have hAscii : IsAscii (name ++ ofString " = ") :=
      List.forall_mem_append.mpr ⟨isAscii_of_isBareKey hName, by decide +kernel⟩
    rw [entry, mended_append hAscii, mended_quoted]
  rw [hMended]
  exact reads_quoted hName id

/-- The second document has a string more than the first, or another one, at the end of the way to the
id; the first one says the same as this table. -/
def SetsId (c name id : Text) (es es' : Entries) : Prop :=
  ∃ es₁, Sets id (idWay c name) es₁ es' ∧ ∀ q, q.length = 3 → valueAt? q es₁ = valueAt? q es

theorem setsId_of_appended {before : List Item} (hOld : build [] [] before = some es)
    (hNew : build [] [] (before ++ [Item.header (way c), Item.entry name (.string id)]) = some es')
    (hRepeats : ¬Repeats "programs" es') : SetsId c name id es es' := by
  rw [build_append, hOld, Option.bind_some, build_cons] at hNew
  obtain ⟨es₁, hDefine, hNew⟩ := Option.bind_eq_some_iff.mp hNew
  refine ⟨es₁, ?_, fun q hq => valueAt?_defineTable hDefine hq⟩
  rcases reaches_or_repeats hDefine with hReaches | hThere
  · rw [build_cons] at hNew
    obtain ⟨es₂, hSet, hNew⟩ := Option.bind_eq_some_iff.mp hNew
    cases hNew
    exact hReaches.sets hSet
  · exact (hRepeats (hThere.build hNew)).elim

/-- The entry in the place of the line that held the name, or where no line held it. -/
theorem setsId_of_section {lead old rest : List Text} {before body after : List Item} {v : Option Toml}
    {o : Option Text} (hLead : itemsOf (lead.map mended) = some (before ++ .header (way c) :: body))
    (hBody : ∀ i ∈ body, i.IsEntry)
    (hReplaced : itemsOf (old.map mended) = some (v.toList.map (.entry name)))
    (hRest : itemsOf (rest.map mended) = some after)
    (hEntry : Reads (mended (entry name id)) (o.map fun t => [.entry name (.string t)]))
    (hOld : (itemsOf ((lead ++ (old ++ rest)).map mended)).bind (build [] []) = some es)
    (hNew : (itemsOf ((lead ++ ([entry name id] ++ rest)).map mended)).bind (build [] []) = some es')
    (hRepeats : ¬Repeats "programs" es) : ∃ t, SetsId c name t es es' := by
  rw [items_append hLead (items_append hReplaced hRest)] at hOld
  rw [List.map_append, itemsOf_append, hLead, List.map_append, itemsOf_append,
    items_singleton hEntry, hRest] at hNew
  cases o with
  | none => cases hNew
  | some t =>
    exact ⟨t, es, (sets_of_build hBody hOld hNew).resolve_right hRepeats, fun q _ => rfl⟩

theorem setsId_of_edit (hCluster : isBareKey c = true) (hName : isBareKey name = true)
    (hLaid : LaidOut c text) (hOld : Toml.ofText? text = some es)
    (hNew : Toml.ofText? (edit text c name id) = some es') (hRepeats : ¬Repeats "programs" es)
    (hRepeats' : ¬Repeats "programs" es') : ∃ t, SetsId c name t es es' := by
  obtain ⟨o, hEntry⟩ := reads_entry hName id
  have hReads {b : Text} (hb : standsAlone (mended b) = true) : ∃ o, Reads (mended b) o := by
    obtain ⟨is, hReads, _⟩ := reads_of_standsAlone hb
    exact ⟨_, hReads⟩
  cases hLaid with
  | without hBlocks hText hAlone hNoHeader =>
    obtain ⟨kept, blank, blank', hKept, hSome, hText, hBlank, hBlank', hAppended⟩ :=
      exists_of_appendSection hBlocks hText
    rw [edit_without hNoHeader, hAppended] at hNew
    have hAloneKept : ∀ b ∈ kept, standsAlone (mended b) = true := fun b hb => hAlone b (hKept hb)
    have hReadsKept : ∀ b ∈ kept, ∃ o, Reads (mended b) o := fun b hb => hReads (hAloneKept b hb)
    have hReadsBlank {bs : List Text} (h : ∀ b ∈ bs, b = []) : ∀ b ∈ bs, ∃ o, Reads (mended b) o :=
      fun b hb => ⟨_, h b hb ▸ reads_blank⟩
    obtain ⟨is, hItems⟩ := exists_items hAloneKept
    have hHeader := reads_header hCluster
    rw [hText, ofText?_unlines hSome (List.forall_mem_append.mpr ⟨hReadsKept, hReadsBlank hBlank⟩),
      items_append hItems (items_blank hBlank), List.append_nil] at hOld
    have hEnd : [header c, entry name id, []] = [header c] ++ ([entry name id] ++ [[]]) := rfl
    rw [hEnd, ofText?_unlines (by simp) ?_, List.map_append, itemsOf_append, hItems, List.map_append,
      itemsOf_append, items_blank hBlank', List.map_append, itemsOf_append, items_singleton hHeader,
      List.map_append, itemsOf_append, items_singleton hEntry, items_singleton reads_blank] at hNew
    · cases o with
      | none => cases hNew
      | some t => exact ⟨t, setsId_of_appended hOld hNew hRepeats'⟩
    · simp only [List.forall_mem_append, List.forall_mem_singleton]
      exact ⟨hReadsKept, hReadsBlank hBlank', ⟨_, hHeader⟩, ⟨_, hEntry⟩, ⟨_, reads_blank⟩⟩
  | @within before body after h hAlone hBefore hHeader hLine hBody hAfter =>
    rw [edit_within hBefore hHeader hLine hBody hAfter] at hNew
    obtain ⟨body₁, old, body₂, rfl, _, hSets, hEdited⟩ := exists_of_editSection name body
    have hOldBlocks : before ++ h :: (body₁ ++ (old.toList ++ body₂) ++ after) =
        before ++ ([h] ++ body₁) ++ (old.toList ++ (body₂ ++ after)) := by simp
    have hNewBlocks : before ++ h :: (body₁ ++ entry name id :: body₂ ++ after) =
        before ++ ([h] ++ body₁) ++ ([entry name id] ++ (body₂ ++ after)) := by simp
    rw [hOldBlocks] at hAlone hOld
    rw [hEdited, hNewBlocks] at hNew
    rw [ofText?_unlines (by simp) fun b hb => hReads (hAlone b hb)] at hOld
    simp only [List.forall_mem_append, List.forall_mem_singleton] at hAlone hBody
    obtain ⟨⟨hAlone₀, hAloneHeader, hAlone₁⟩, hAloneOld, hAloneRest⟩ := hAlone
    rw [ofText?_unlines (by simp) ?_] at hNew
    · obtain ⟨is₀, hItems₀⟩ := exists_items hAlone₀
      obtain ⟨_, hReadsHeader, _⟩ := reads_of_standsAlone hAloneHeader
      obtain rfl := items_of_header hCluster hHeader hReadsHeader
      obtain ⟨is₁, hItems₁, hEntries⟩ := exists_entries hAlone₁ fun b hb => (hBody.1 b hb).2
      obtain ⟨v, hReplaced⟩ := exists_entry hName hSets hAloneOld
      obtain ⟨is₂, hRest⟩ := exists_items (List.forall_mem_append.mpr hAloneRest)
      exact setsId_of_section
        (items_append hItems₀ (items_append (items_singleton hReadsHeader) hItems₁))
        hEntries hReplaced hRest hEntry hOld hNew hRepeats
    · simp only [List.forall_mem_append, List.forall_mem_singleton]
      exact ⟨⟨fun b hb => hReads (hAlone₀ b hb), hReads hAloneHeader,
        fun b hb => hReads (hAlone₁ b hb)⟩, ⟨_, hEntry⟩, fun b hb => hReads (hAloneRest.1 b hb),
        fun b hb => hReads (hAloneRest.2 b hb)⟩

/-- The id that the file at a path lists for a program in a cluster. -/
def idAt? (t : FileTree) (path cluster name : Text) : Option Text :=
  match read t path cluster with
  | .ok ids => ids.lookup name
  | .error _ => none

/-- The text of the file at a path, which is empty when there is none. -/
def textAt? (t : FileTree) (path : Text) : Option Text :=
  match t.read path with
  | .ok text => some text
  | .error e => if e.fault = .noEntry then some [] else none

variable {t t' : FileTree} {path : Text}

theorem idAt?_of_read {table : List (Text × List (Text × Text))} (hRead : t.read path = .ok text)
    (hTable : ofText? text = some table) (c name : Text) :
    idAt? t path c name = (cluster table c).lookup name := by
  rw [idAt?, read, hRead]
  simp only [Except.mapError, bind, Except.bind, hTable]
  rfl

theorem ofText?_nil : ofText? [] = some [] := by
  have hRead : Toml.ofText? (unlines [[]]) = _ := ofText?_unlines (by simp)
    fun b hb => ⟨_, List.mem_singleton.mp hb ▸ reads_blank⟩
  rw [items_blank (by simp)] at hRead
  rw [ofText?, show ([] : Text) = unlines [[]] from rfl, hRead]
  rfl

theorem idAt?_of_textAt? {table : List (Text × List (Text × Text))}
    (hText : textAt? t path = some text) (hTable : ofText? text = some table) (c name : Text) :
    idAt? t path c name = (cluster table c).lookup name := by
  rw [textAt?] at hText
  cases hRead : t.read path with
  | ok text' =>
    rw [hRead] at hText
    cases hText
    exact idAt?_of_read hRead hTable c name
  | error e =>
    rw [hRead] at hText
    dsimp only at hText
    split at hText
    · cases hText
      rw [ofText?_nil] at hTable
      cases hTable
      rw [idAt?, read, hRead]
      rfl
    · cases hText

theorem editChecked_eq_ok {updated : Text} (h : editChecked text c name id = .ok updated) :
    updated = edit text c name id ∧ ∃ table, ofText? updated = some table ∧
      ((cluster table c).lookup name).getD [] = id := by
  rw [editChecked] at h
  dsimp only at h
  split at h
  · rename_i table hTable
    split at h
    · cases h
    · rename_i hFound
      cases h
      exact ⟨rfl, table, hTable, not_not.mp hFound⟩
  · cases h

/-- Recording writes the edited text, which reads back as a table with the id. -/
theorem exists_of_record (h : record t path c name id = .ok t') : ∃ text updated,
    textAt? t path = some text ∧ editChecked text c name id = .ok updated ∧
      t.write path updated = .ok t' := by
  rw [record] at h
  obtain ⟨text, hText, h⟩ : ∃ text, textAt? t path = some text ∧ (do
      let updated ← editChecked text c name id
      (t.write path updated).mapError .unwritable) = .ok t' := by
    rw [textAt?]
    cases hRead : t.read path with
    | ok text =>
      rw [hRead] at h
      exact ⟨text, rfl, h⟩
    | error e =>
      rw [hRead] at h
      dsimp only at h ⊢
      split at h
      · rename_i hMissing
        exact ⟨[], if_pos hMissing, h⟩
      · cases h
  obtain ⟨updated, hEdit, hWrite⟩ := Outcome.bind_eq_ok_iff.mp h
  exact ⟨text, updated, hText, hEdit, Outcome.mapError_eq_ok_iff.mp hWrite⟩

/-- Recording an id changes this id or nothing. Where recording fails, the tree of files stays as it
is. Where it succeeds, the file lists the id; and it lists every other id as before, if its text was a
table of ids laid out in blocks and the names need no quotes. -/
theorem record_changes_one_id {wrap : Error → WorkspaceError} {r : Except WorkspaceError Unit}
    (hRun : (Workspace.change wrap fun t => record t path c name id).outcome t = (r, t')) :
    (∀ e, r = .error e → t' = t) ∧ (r = .ok () →
      (idAt? t' path c name).getD [] = id ∧
      (isBareKey c = true → isBareKey name = true →
        (∃ text ∈ textAt? t path, LaidOut c text ∧ (ofText? text).isSome = true) →
        idAt? t' path c name = some id ∧ ∀ c' name', (c', name') ≠ (c, name) →
          idAt? t' path c' name' = idAt? t path c' name')) := by
  rw [Work.outcome_change] at hRun
  cases hRecord : record t path c name id with
  | error e =>
    rw [hRecord] at hRun
    cases hRun
    exact ⟨fun _ _ => rfl, fun hOk => by cases hOk⟩
  | ok tree =>
    rw [hRecord] at hRun
    cases hRun
    obtain ⟨text, updated, hText, hEdit, hWrite⟩ := exists_of_record hRecord
    obtain ⟨rfl, table', hTable', hId⟩ := editChecked_eq_ok hEdit
    have hAfter := idAt?_of_read (FileTree.read_of_write hWrite) hTable'
    refine ⟨fun e hError => ?_, fun _ => ⟨by rw [hAfter, hId], ?_⟩⟩
    · cases hError
    rintro hCluster hName ⟨text', hText', hLaid, hOld⟩
    obtain rfl : text = text' := Option.some.inj (hText.symm.trans hText')
    obtain ⟨table, hTable⟩ := Option.isSome_iff_exists.mp hOld
    have hBefore := idAt?_of_textAt? hText hTable
    obtain ⟨es, hDocument, hEntries⟩ := Option.bind_eq_some_iff.mp hTable
    obtain ⟨es', hDocument', hEntries'⟩ := Option.bind_eq_some_iff.mp hTable'
    obtain ⟨s, es₁, hSets, hKept⟩ := setsId_of_edit hCluster hName hLaid hDocument hDocument'
      (not_repeats hEntries) (not_repeats hEntries')
    have hThis := lookup_cluster hEntries' c name
    have hId' : s = id := by
      rw [hThis, hSets.valueAt?_self] at hId
      exact hId
    have hOther (c' name' : Text) (hne : (c', name') ≠ (c, name)) :
        idAt? t' path c' name' = idAt? t path c' name' := by
      have hWay : idWay c' name' ≠ idWay c name := fun hEq => hne (by
        cases hEq
        rfl)
      rw [hAfter, hBefore, lookup_cluster hEntries' c' name', lookup_cluster hEntries c' name',
        hSets.valueAt?_ne (q := idWay c' name') rfl hWay, hKept _ rfl]
    refine ⟨?_, hOther⟩
    rw [hAfter, hThis, hSets.valueAt?_self, ← hId']
    rfl

/-- A workspace file with a value over several lines above the table of the cluster. -/
def listedBlocks (vault : Text) : List Text :=
  [Text.ofString "[workspace]", Text.ofString "members = [\n  \"vault\",\n]", Text.ofString "",
    Text.ofString "[programs.localnet]", entry "escrow" "E", entry "vault" vault, Text.ofString "",
    Text.ofString "[provider]", Text.ofString "cluster = \"Localnet\"", Text.ofString ""]

def listedTree (vault : Text) : FileTree :=
  .directory [(Text.ofString "Anchor.toml", .file (unlines (listedBlocks vault)))]

theorem laidOut_listed : LaidOut "localnet" (unlines (listedBlocks "old")) :=
  @LaidOut.within "localnet" ((listedBlocks "old").take 3) (((listedBlocks "old").drop 4).take 3)
    ((listedBlocks "old").drop 7) "[programs.localnet]"
    (by decide +kernel) (by decide +kernel) (by decide +kernel) (by decide +kernel) (by decide +kernel)
    (by decide +kernel)

theorem listed_record_changes_one_id : ∃ t',
    (Workspace.change (.programTable "Anchor.toml")
      fun t => record t "Anchor.toml" "localnet" "vault" "new").outcome (listedTree "old") =
        (.ok (), t') ∧
      idAt? t' "Anchor.toml" "localnet" "vault" = some "new" ∧
      ∀ c' name', (c', name') ≠ (Text.ofString "localnet", Text.ofString "vault") →
        idAt? t' "Anchor.toml" c' name' = idAt? (listedTree "old") "Anchor.toml" c' name' := by
  have hOk : (match record (listedTree "old") "Anchor.toml" "localnet" "vault" "new" with
    | .ok _ => true
    | .error _ => false) = true := by decide +kernel
  cases hRecord : record (listedTree "old") "Anchor.toml" "localnet" "vault" "new" with
  | error e =>
    rw [hRecord] at hOk
    cases hOk
  | ok t' =>
    have hRun : (Workspace.change (.programTable "Anchor.toml")
        fun t => record t "Anchor.toml" "localnet" "vault" "new").outcome (listedTree "old") =
          (.ok (), t') := by rw [Work.outcome_change, hRecord]
    have hText : textAt? (listedTree "old") "Anchor.toml" = some (unlines (listedBlocks "old")) := by
      decide +kernel
    have hTable : (ofText? (unlines (listedBlocks "old"))).isSome = true := by decide +kernel
    exact ⟨t', hRun, ((record_changes_one_id hRun).2 rfl).2 (by decide) (by decide)
      ⟨_, hText, laidOut_listed, hTable⟩⟩

end AnchorScript.ProgramTable
