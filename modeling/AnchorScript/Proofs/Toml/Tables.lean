import AnchorScript.Toml

/-!
# One string of a document set

`Sets id p es es'` says that the second table is the first with the string `id` at the end of the
way `p`. Whatever items are added to both later keep it so, since tables are entered whatever they
hold and nothing enters a string.
-/

namespace AnchorScript.Toml

abbrev Entries := List (Text × Toml)

theorem lookup_putEntry_self (key : Text) (v : Toml) (es : Entries) :
    (putEntry key v es).lookup key = some v := by
  induction es with
  | nil => exact List.lookup_cons_self
  | cons e es ih =>
    obtain ⟨k, w⟩ := e
    rw [putEntry]
    split
    · rename_i hKey
      rw [hKey, List.lookup_cons_self]
    · rename_i hKey
      rw [List.lookup_cons, beq_eq_false_iff_ne.mpr (Ne.symm hKey)]
      exact ih

theorem lookup_putEntry_ne {key name : Text} (h : name ≠ key) (v : Toml) (es : Entries) :
    (putEntry key v es).lookup name = es.lookup name := by
  have hKey : (name == key) = false := beq_eq_false_iff_ne.mpr h
  induction es with
  | nil => rw [putEntry, List.lookup_cons, hKey]
  | cons e es ih =>
    obtain ⟨k, w⟩ := e
    rw [putEntry]
    split
    · rename_i hSame
      rw [List.lookup_cons, List.lookup_cons, hSame, hKey]
    · rw [List.lookup_cons, List.lookup_cons, ih]

/-- The change sees a table only as a table, and refuses a string. -/
structure Uniform (f : Option Toml → Option Toml) : Prop where
  string (s : Text) : f (some (.string s)) = none
  table {d : Bool} {t : Entries} {v : Toml} (h : f (some (.table d t)) = some v) :
    ∃ d', ∀ t', f (some (.table d t')) = some (.table d' t')
  tables {ts : List Entries} {v : Toml} (h : f (some (.tables ts)) = some v) :
    ∃ ts', v = .tables ts'

theorem uniform_defineTable : Uniform defineTable where
  string _ := rfl
  table {d _ _} h := by
    cases d with
    | false => exact ⟨true, fun _ => rfl⟩
    | true => cases h
  tables h := by cases h

theorem uniform_addTable : Uniform addTable where
  string _ := rfl
  table h := by cases h
  tables h := ⟨_, (Option.some.inj h).symm⟩

theorem uniform_setOnce (v : Toml) : Uniform (setOnce v) where
  string _ := rfl
  table h := by cases h
  tables h := by cases h

variable {f : Option Toml → Option Toml}

/-- What a key leads to after a change at the end of the rest of the way. -/
def changed (f : Option Toml → Option Toml) : List Text → Option Toml → Option Toml
  | [], v => f v
  | n :: ns, none => (update f (n :: ns) []).map (.table false)
  | n :: ns, some (.table d t) => (update f (n :: ns) t).map (.table d)
  | n :: ns, some (.tables ts) =>
    match ts.getLast? with
    | some t => (update f (n :: ns) t).map fun t => .tables (ts.dropLast ++ [t])
    | none => none
  | _ :: _, some _ => none

theorem update_cons (n : Text) (ns : List Text) (es : Entries) :
    update f (n :: ns) es = (changed f ns (es.lookup n)).map fun v => putEntry n v es := by
  cases ns with
  | nil => rw [update, changed]
  | cons m ms =>
    rw [update]
    · cases hLookup : es.lookup n with
      | none => simp [changed, Option.map_map, Function.comp_def]
      | some v =>
        cases v with
        | tables ts =>
          cases hLast : ts.getLast? <;> simp [changed, hLast, Option.map_map, Function.comp_def]
        | _ => simp [changed, Option.map_map, Function.comp_def]
    · simp

/-- A change concerns what the first key of the way leads to, and no other key of the table. -/
theorem lookup_update {n : Text} {ns : List Text} {es es' : Entries}
    (h : update f (n :: ns) es = some es') :
    ∃ v, changed f ns (es.lookup n) = some v ∧ es'.lookup n = some v ∧
      ∀ m ≠ n, es'.lookup m = es.lookup m := by
  rw [update_cons, Option.map_eq_some_iff] at h
  obtain ⟨v, hv, rfl⟩ := h
  exact ⟨v, hv, lookup_putEntry_self n v es, fun m hm => lookup_putEntry_ne hm v es⟩

theorem changed_string (hf : Uniform f) (ns : List Text) (s : Text) :
    changed f ns (some (.string s)) = none := by
  cases ns with
  | nil => exact hf.string s
  | cons => rfl

theorem changed_tables (hf : Uniform f) {ns : List Text} {ts : List Entries} {v : Toml}
    (h : changed f ns (some (.tables ts)) = some v) : ∃ ts', v = .tables ts' := by
  cases ns with
  | nil => exact hf.tables h
  | cons n ns =>
    rw [changed] at h
    split at h
    · obtain ⟨t, _, rfl⟩ := Option.map_eq_some_iff.mp h
      exact ⟨_, rfl⟩
    · cases h

/-- The second table is the first with this string at the end of the way, set or replaced. -/
inductive Sets (id : Text) : List Text → Entries → Entries → Prop
  | last {n : Text} {es es' : Entries} (hHere : es'.lookup n = some (.string id))
      (hOther : ∀ m ≠ n, es'.lookup m = es.lookup m) : Sets id [n] es es'
  | table {n : Text} {ns : List Text} {d : Bool} {t t' es es' : Entries}
      (hOld : es.lookup n = some (.table d t)) (hNew : es'.lookup n = some (.table d t'))
      (hInner : Sets id ns t t') (hOther : ∀ m ≠ n, es'.lookup m = es.lookup m) :
      Sets id (n :: ns) es es'

variable {id : Text}

/-- Another key of the table than the one set leads to the same in both, and so after a change. -/
theorem lookup_eq_of_update {n m : Text} {ns : List Text} {es es' es₁ es₁' : Entries}
    (hOther : ∀ k ≠ n, es'.lookup k = es.lookup k) (hm : m ≠ n)
    (hq : Toml.update f (m :: ns) es = some es₁) (hq' : Toml.update f (m :: ns) es' = some es₁') :
    (es₁.lookup n = es.lookup n ∧ es₁'.lookup n = es'.lookup n) ∧
      ∀ k ≠ n, es₁'.lookup k = es₁.lookup k := by
  obtain ⟨v, hv, hHere, hKept⟩ := lookup_update hq
  obtain ⟨v', hv', hHere', hKept'⟩ := lookup_update hq'
  refine ⟨⟨hKept n hm.symm, hKept' n hm.symm⟩, fun k hk => ?_⟩
  by_cases hkm : k = m
  · rw [hOther m hm, hv] at hv'
    rw [hkm, hHere, hHere', hv']
  · rw [hKept' k hkm, hKept k hkm, hOther k hk]

theorem Sets.update {p q : List Text} {es es' es₁ es₁' : Entries} (h : Sets id p es es')
    (hf : Uniform f) (hq : Toml.update f q es = some es₁)
    (hq' : Toml.update f q es' = some es₁') : Sets id p es₁ es₁' := by
  induction h generalizing q es₁ es₁' with
  | @last n es es' hHere hOther =>
    cases q with
    | nil => cases hq
    | cons m q =>
      by_cases hm : m = n
      · subst hm
        obtain ⟨v, hv, _⟩ := lookup_update hq'
        rw [hHere, changed_string hf] at hv
        cases hv
      · obtain ⟨⟨_, hHere'⟩, hOther'⟩ := lookup_eq_of_update hOther hm hq hq'
        exact .last (hHere'.trans hHere) hOther'
  | @table n ns d t t' es es' hOld hNew hInner hOther ih =>
    cases q with
    | nil => cases hq
    | cons m q =>
      by_cases hm : m = n
      · subst hm
        obtain ⟨v, hv, hHere, hKept⟩ := lookup_update hq
        obtain ⟨v', hv', hHere', hKept'⟩ := lookup_update hq'
        rw [hOld] at hv
        rw [hNew] at hv'
        have hOther' : ∀ k ≠ m, es₁'.lookup k = es₁.lookup k := fun k hk => by
          rw [hKept' k hk, hKept k hk, hOther k hk]
        cases q with
        | nil =>
          obtain ⟨d', hTable⟩ := hf.table hv
          rw [changed, hTable] at hv hv'
          cases hv
          cases hv'
          exact .table hHere hHere' hInner hOther'
        | cons k q =>
          obtain ⟨t₁, ht₁, rfl⟩ := Option.map_eq_some_iff.mp hv
          obtain ⟨t₁', ht₁', rfl⟩ := Option.map_eq_some_iff.mp hv'
          exact .table hHere hHere' (ih ht₁ ht₁') hOther'
      · obtain ⟨⟨hHere, hHere'⟩, hOther'⟩ := lookup_eq_of_update hOther hm hq hq'
        exact .table (hHere.trans hOld) (hHere'.trans hNew) hInner hOther'

/-- The change that an item makes, and the way to its end. -/
def Item.change (current : List Text) : Item → (Option Toml → Option Toml) × List Text
  | .header ns => (defineTable, ns)
  | .arrayHeader ns => (addTable, ns)
  | .entry k v => (setOnce v, current ++ [k])

/-- The way to the table that items leave as the present one. -/
def Item.currentAfter (current : List Text) : Item → List Text
  | .header ns | .arrayHeader ns => ns
  | .entry .. => current

theorem build_cons (current : List Text) (es : Entries) (i : Item) (is : List Item) :
    build current es (i :: is) =
      (update (i.change current).1 (i.change current).2 es).bind fun es' =>
        build (i.currentAfter current) es' is := by
  cases i <;> rfl

theorem uniform_change (current : List Text) (i : Item) : Uniform (i.change current).1 := by
  cases i with
  | header => exact uniform_defineTable
  | arrayHeader => exact uniform_addTable
  | entry _ v => exact uniform_setOnce v

theorem build_append (current : List Text) (es : Entries) (is js : List Item) :
    build current es (is ++ js) =
      (build current es is).bind fun es' =>
        build (is.foldl Item.currentAfter current) es' js := by
  induction is generalizing current es with
  | nil => rfl
  | cons i is ih =>
    rw [List.cons_append, build_cons, build_cons, Option.bind_assoc]
    exact congrArg _ (funext fun es' => ih _ es')

theorem Sets.build {p current : List Text} {es es' es₁ es₁' : Entries} {is : List Item}
    (h : Sets id p es es') (hBuild : Toml.build current es is = some es₁)
    (hBuild' : Toml.build current es' is = some es₁') : Sets id p es₁ es₁' := by
  induction is generalizing current es es' with
  | nil =>
    cases hBuild
    cases hBuild'
    exact h
  | cons i is ih =>
    rw [build_cons, Option.bind_eq_some_iff] at hBuild hBuild'
    obtain ⟨es₂, hUpdate, hRest⟩ := hBuild
    obtain ⟨es₂', hUpdate', hRest'⟩ := hBuild'
    exact ih (h.update (uniform_change current i) hUpdate hUpdate') hRest hRest'

/-- Every key of the way leads to a table. -/
inductive Reaches : List Text → Entries → Prop
  | nil {es : Entries} : Reaches [] es
  | table {n : Text} {ns : List Text} {d : Bool} {t es : Entries}
      (h : es.lookup n = some (.table d t)) (hInner : Reaches ns t) : Reaches (n :: ns) es

theorem Reaches.update {p q : List Text} {es es₁ : Entries} (h : Reaches p es) (hf : Uniform f)
    (hq : Toml.update f q es = some es₁) : Reaches p es₁ := by
  induction h generalizing q es₁ with
  | nil => exact .nil
  | @table n ns d t es hHere hInner ih =>
    cases q with
    | nil => cases hq
    | cons m q =>
      obtain ⟨v, hv, hHere', hKept⟩ := lookup_update hq
      by_cases hm : m = n
      · subst hm
        rw [hHere] at hv
        cases q with
        | nil =>
          obtain ⟨d', hTable⟩ := hf.table hv
          rw [changed, hTable] at hv
          cases hv
          exact .table hHere' hInner
        | cons k q =>
          obtain ⟨t₁, ht₁, rfl⟩ := Option.map_eq_some_iff.mp hv
          exact .table hHere' (ih ht₁)
      · exact .table ((hKept n (Ne.symm hm)).trans hHere) hInner

theorem Reaches.build {p current : List Text} {es es₁ : Entries} {is : List Item}
    (h : Reaches p es) (hBuild : Toml.build current es is = some es₁) : Reaches p es₁ := by
  induction is generalizing current es with
  | nil =>
    cases hBuild
    exact h
  | cons i is ih =>
    rw [build_cons, Option.bind_eq_some_iff] at hBuild
    obtain ⟨es₂, hUpdate, hRest⟩ := hBuild
    exact ih (h.update (uniform_change current i) hUpdate) hRest

/-- The key leads to repeated tables. -/
def Repeats (n : Text) (es : Entries) : Prop := ∃ ts, es.lookup n = some (.tables ts)

theorem Repeats.update {n : Text} {q : List Text} {es es₁ : Entries} (h : Repeats n es)
    (hf : Uniform f) (hq : Toml.update f q es = some es₁) : Repeats n es₁ := by
  obtain ⟨ts, hHere⟩ := h
  cases q with
  | nil => cases hq
  | cons m q =>
    obtain ⟨v, hv, hHere', hKept⟩ := lookup_update hq
    by_cases hm : m = n
    · subst hm
      rw [hHere] at hv
      obtain ⟨ts', rfl⟩ := changed_tables hf hv
      exact ⟨ts', hHere'⟩
    · exact ⟨ts, (hKept n (Ne.symm hm)).trans hHere⟩

theorem Repeats.build {n : Text} {current : List Text} {es es₁ : Entries} {is : List Item}
    (h : Repeats n es) (hBuild : Toml.build current es is = some es₁) : Repeats n es₁ := by
  induction is generalizing current es with
  | nil =>
    cases hBuild
    exact h
  | cons i is ih =>
    rw [build_cons, Option.bind_eq_some_iff] at hBuild
    obtain ⟨es₂, hUpdate, hRest⟩ := hBuild
    exact ih (h.update (uniform_change current i) hUpdate) hRest

/-- A header of two keys leads to its table, unless the first key leads to repeated tables. -/
theorem reaches_or_repeats {n m : Text} {es es₁ : Entries}
    (h : update defineTable [n, m] es = some es₁) : Reaches [n, m] es₁ ∨ Repeats n es₁ := by
  obtain ⟨v, hv, hHere, _⟩ := lookup_update h
  have hInner {t t₁ : Entries} (ht : update defineTable [m] t = some t₁) : Reaches [m] t₁ := by
    obtain ⟨w, hw, hw', _⟩ := lookup_update ht
    obtain ⟨t', rfl⟩ : ∃ t', w = .table true t' := by
      rw [changed] at hw
      unfold defineTable at hw
      split at hw
      · exact ⟨_, (Option.some.inj hw).symm⟩
      · exact ⟨_, (Option.some.inj hw).symm⟩
      · cases hw
    exact .table hw' .nil
  cases hOld : es.lookup n with
  | none =>
    rw [hOld, changed] at hv
    obtain ⟨t₁, ht₁, rfl⟩ := Option.map_eq_some_iff.mp hv
    exact .inl (.table hHere (hInner ht₁))
  | some old =>
    rw [hOld] at hv
    cases old with
    | table d t =>
      obtain ⟨t₁, ht₁, rfl⟩ := Option.map_eq_some_iff.mp hv
      exact .inl (.table hHere (hInner ht₁))
    | tables ts =>
      obtain ⟨ts', rfl⟩ := changed_tables uniform_defineTable hv
      exact .inr ⟨ts', hHere⟩
    | _ => cases hv

theorem Reaches.sets {ns : List Text} {k : Text} {es es₁ : Entries} (h : Reaches ns es)
    (hq : Toml.update (setOnce (.string id)) (ns ++ [k]) es = some es₁) :
    Sets id (ns ++ [k]) es es₁ := by
  induction h generalizing es₁ with
  | nil =>
    obtain ⟨v, hv, hHere, hKept⟩ := lookup_update hq
    rw [changed] at hv
    unfold setOnce at hv
    split at hv
    · cases hv
      exact .last hHere hKept
    · cases hv
  | @table n ns d t es hTable _ ih =>
    obtain ⟨v, hv, hHere, hKept⟩ := lookup_update hq
    rw [hTable] at hv
    obtain ⟨t₁, ht₁, rfl⟩ : ∃ t₁, Toml.update (setOnce (.string id)) (ns ++ [k]) t = some t₁ ∧
        .table d t₁ = v := by
      cases ns <;> exact Option.map_eq_some_iff.mp hv
    exact .table hTable hHere (ih ht₁) hKept

/-- What was set instead of the string does not matter. -/
theorem Sets.of_setOnce {p : List Text} {v : Toml} {es es' es₁ : Entries} (h : Sets id p es es')
    (hq : Toml.update (setOnce v) p es = some es₁) : Sets id p es₁ es' := by
  induction h generalizing es₁ with
  | last hHere hOther =>
    obtain ⟨w, _, _, hKept⟩ := lookup_update hq
    exact .last hHere fun m hm => (hOther m hm).trans (hKept m hm).symm
  | @table n ns d t t' es es' hOld hNew hInner hOther ih =>
    obtain ⟨w, hw, hHere, hKept⟩ := lookup_update hq
    rw [hOld] at hw
    obtain ⟨t₁, ht₁, rfl⟩ : ∃ t₁, Toml.update (setOnce v) ns t = some t₁ ∧ .table d t₁ = w := by
      cases hInner <;> exact Option.map_eq_some_iff.mp hw
    exact .table hHere hNew (ih ht₁) fun m hm => (hOther m hm).trans (hKept m hm).symm

/-- What stands at the end of a way through tables. -/
def valueAt? : List Text → Entries → Option Toml
  | [], _ => none
  | [n], es => es.lookup n
  | n :: ns, es =>
    match es.lookup n with
    | some (.table _ t) => valueAt? ns t
    | _ => none

theorem valueAt?_cons {ns : List Text} (hns : ns ≠ []) (n : Text) (es : Entries) :
    valueAt? (n :: ns) es = match es.lookup n with
      | some (.table _ t) => valueAt? ns t
      | _ => none := by
  cases ns with
  | nil => exact (hns rfl).elim
  | cons => rfl

theorem valueAt?_congr {ns : List Text} {n : Text} {es es' : Entries}
    (h : es'.lookup n = es.lookup n) : valueAt? (n :: ns) es' = valueAt? (n :: ns) es := by
  cases ns with
  | nil => exact h
  | cons => rw [valueAt?_cons (by simp), valueAt?_cons (by simp), h]

theorem valueAt?_nil (ns : List Text) : valueAt? ns [] = none := by
  rcases ns with - | ⟨n, - | ⟨m, ns⟩⟩ <;> rfl

theorem Sets.ne_nil {p : List Text} {es es' : Entries} (h : Sets id p es es') : p ≠ [] := by
  cases h <;> simp

theorem Sets.valueAt?_self {p : List Text} {es es' : Entries} (h : Sets id p es es') :
    valueAt? p es' = some (.string id) := by
  induction h with
  | last hHere => exact hHere
  | table _ hNew hInner _ ih => rw [valueAt?_cons hInner.ne_nil, hNew]; exact ih

/-- Every other way of the same length ends as before. -/
theorem Sets.valueAt?_ne {p q : List Text} {es es' : Entries} (h : Sets id p es es')
    (hLength : q.length = p.length) (hq : q ≠ p) : valueAt? q es' = valueAt? q es := by
  induction h generalizing q with
  | last _ hOther =>
    obtain ⟨m, rfl⟩ := List.length_eq_one_iff.mp hLength
    exact hOther m fun hm => hq (by rw [hm])
  | @table n ns d t t' es es' hOld hNew hInner hOther ih =>
    obtain ⟨m, ms, rfl⟩ := List.exists_cons_of_length_eq_add_one hLength
    by_cases hm : m = n
    · subst hm
      have hInnerLength : ms.length = ns.length := Nat.succ.inj hLength
      have hms : ms ≠ [] := fun hNil => hInner.ne_nil (List.length_eq_zero_iff.mp (by
        rw [← hInnerLength, hNil]; rfl))
      rw [valueAt?_cons hms, valueAt?_cons hms, hOld, hNew]
      exact ih hInnerLength fun hEq => hq (by rw [hEq])
    · exact valueAt?_congr (hOther m hm)

/-- Defining a table changes nothing that stands in a table of its depth. -/
theorem valueAt?_defineTable {p q : List Text} {es es' : Entries}
    (h : update defineTable p es = some es') (hLength : q.length = p.length + 1) :
    valueAt? q es' = valueAt? q es := by
  induction p generalizing q es es' with
  | nil => cases h
  | cons n ns ih =>
    obtain ⟨m, ms, rfl⟩ := List.exists_cons_of_length_eq_add_one hLength
    have hInner : ms.length = ns.length + 1 := Nat.succ.inj hLength
    have hms : ms ≠ [] := fun hNil => by
      rw [hNil] at hInner
      cases hInner
    obtain ⟨v, hv, hHere, hKept⟩ := lookup_update h
    by_cases hm : m = n
    · subst hm
      rw [valueAt?_cons hms, valueAt?_cons hms, hHere]
      cases ns with
      | nil =>
        rw [changed] at hv
        unfold defineTable at hv
        split at hv
        · rename_i hNone
          cases hv
          rw [hNone]
          exact valueAt?_nil ms
        · rename_i hSilent
          cases hv
          rw [hSilent]
        · cases hv
      | cons k ns =>
        cases hOld : es.lookup m with
        | none =>
          rw [hOld] at hv
          obtain ⟨t', ht', rfl⟩ := Option.map_eq_some_iff.mp hv
          exact (ih ht' hInner).trans (valueAt?_nil ms)
        | some old =>
          rw [hOld] at hv
          cases old with
          | table d t =>
            obtain ⟨t', ht', rfl⟩ := Option.map_eq_some_iff.mp hv
            exact ih ht' hInner
          | tables ts =>
            obtain ⟨ts', rfl⟩ := changed_tables uniform_defineTable hv
            rfl
          | _ => cases hv
    · exact valueAt?_congr (hKept m hm)

def Item.IsEntry : Item → Prop
  | .entry .. => True
  | _ => False

theorem currentAfter_entries {current : List Text} {is : List Item} (h : ∀ i ∈ is, i.IsEntry) :
    is.foldl Item.currentAfter current = current := by
  induction is with
  | nil => rfl
  | cons i is ih =>
    obtain ⟨hi, his⟩ := List.forall_mem_cons.mp h
    cases i with
    | entry => exact ih his
    | header => cases hi
    | arrayHeader => cases hi

theorem reaches_or_repeats_of_build {n m : Text} {before body : List Item} {es : Entries}
    (hBuild : build [] [] (before ++ .header [n, m] :: body) = some es) :
    Reaches [n, m] es ∨ Repeats n es := by
  rw [build_append, Option.bind_eq_some_iff] at hBuild
  obtain ⟨es₀, _, hHeader⟩ := hBuild
  rw [build_cons, Option.bind_eq_some_iff] at hHeader
  obtain ⟨es₁, hUpdate, hBody⟩ := hHeader
  exact (reaches_or_repeats hUpdate).imp (·.build hBody) (·.build hBody)

/-- A document with a string set below a header, where there was nothing or another value, is the
document with this string at the end of the header's way. -/
theorem sets_of_build {n m k : Text} {before body after : List Item} {old : Option Toml}
    {es es' : Entries} (hBody : ∀ i ∈ body, i.IsEntry)
    (hOld : build [] []
      ((before ++ .header [n, m] :: body) ++ (old.toList.map (.entry k) ++ after)) = some es)
    (hNew : build [] []
      ((before ++ .header [n, m] :: body) ++ .entry k (.string id) :: after) = some es') :
    Sets id [n, m, k] es es' ∨ Repeats n es := by
  have hCurrent : (before ++ .header [n, m] :: body).foldl Item.currentAfter [] = [n, m] := by
    rw [List.foldl_append, List.foldl_cons, Item.currentAfter, currentAfter_entries hBody]
  rw [build_append, hCurrent, Option.bind_eq_some_iff] at hOld hNew
  obtain ⟨es₀, hLead, hOld⟩ := hOld
  obtain ⟨_, hLead', hNew⟩ := hNew
  obtain rfl := Option.some.inj (hLead.symm.trans hLead')
  rw [build_cons, Option.bind_eq_some_iff] at hNew
  obtain ⟨es₁', hSet, hNew⟩ := hNew
  rcases reaches_or_repeats_of_build hLead with hReaches | hRepeats
  · have hSets := hReaches.sets hSet
    refine .inl ?_
    cases old with
    | none => exact hSets.build hOld hNew
    | some v =>
      rw [Option.toList_some, List.map_singleton, List.singleton_append, build_cons,
        Option.bind_eq_some_iff] at hOld
      obtain ⟨es₁, hOldSet, hOld⟩ := hOld
      exact (hSets.of_setOnce hOldSet).build hOld hNew
  · exact .inr (hRepeats.build hOld)

end AnchorScript.Toml
