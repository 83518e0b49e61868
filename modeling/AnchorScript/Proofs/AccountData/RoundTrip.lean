import AnchorScript.AccountData.Decode
import AnchorScript.AccountData.Encode
import AnchorScript.Proofs.Compiler.DistinctNames

/-!
# Account data is read as it was written

The bytes of a value read back as the value whatever follows them, so the fields of an account read
back one after the other and the padding behind them is never looked at. What is read from any data
can be written again, because writing and reading agree on which values a field holds.
-/

namespace AnchorScript

open Outcome

namespace AccountData

variable {type : Text}

@[simp] theorem length_littleEndian (w n : Nat) : (littleEndian w n).length = w := by
  induction w generalizing n with
  | zero => rfl
  | succ w ih => rw [littleEndian, List.length_cons, ih]

theorem littleEndianValue_littleEndian {w n : Nat} (h : n < Nat.pow 256 w) :
    littleEndianValue (littleEndian w n) = n := by
  induction w generalizing n with
  | zero =>
    have hZero : n = 0 := Nat.lt_one_iff.mp h
    rw [hZero]
    rfl
  | succ w ih =>
    have hPow : Nat.pow 256 (w + 1) = 256 * Nat.pow 256 w := Nat.pow_succ'
    have hHigh : n / 256 < Nat.pow 256 w := Nat.div_lt_of_lt_mul (hPow ▸ h)
    have hLow : (n % 256).toUInt8.toNat = n % 256 := by simp
    rw [littleEndian, littleEndianValue, ih hHigh, hLow]
    omega

theorem littleEndianValue_lt (s : Text) : littleEndianValue s < Nat.pow 256 s.length := by
  induction s with
  | nil => exact Nat.one_pos
  | cons b r ih =>
    have hByte : b.toNat < 256 := b.toNat_lt
    have hPow : Nat.pow 256 (r.length + 1) = 256 * Nat.pow 256 r.length := Nat.pow_succ'
    rw [littleEndianValue, List.length_cons, hPow]
    omega

theorem modulus_eq (t : IntType) : t.modulus = Nat.pow 256 (t.bits / 8) := by
  obtain ⟨width, signed⟩ := t
  cases width <;> decide +revert

theorem even_modulus (t : IntType) : t.modulus % 2 = 0 ∧ 0 < t.modulus := by
  obtain ⟨width, signed⟩ := t
  cases width <;> decide +revert

theorem fits_iff {t : IntType} {n : Int} : t.fits n = true ↔ t.least ≤ n ∧ n < t.limit := by
  simp [IntType.fits]

theorem ofTwosComplement_emod {t : IntType} {n : Int} (h : t.fits n = true) :
    ofTwosComplement t (n % t.modulus).toNat = n := by
  obtain ⟨hEven, hPos⟩ := even_modulus t
  obtain ⟨hLeast, hLimit⟩ := fits_iff.mp h
  unfold IntType.least at hLeast
  unfold IntType.limit at hLimit
  unfold ofTwosComplement
  generalize t.modulus = m at *
  rcases Int.lt_or_le n 0 with hNeg | hNonneg
  · have hSigned : t.signed = true := by
      by_contra hUnsigned
      rw [if_neg hUnsigned] at hLeast
      omega
    rw [if_pos hSigned] at hLeast
    have hMod : n % (m : Int) = n + m := by
      rw [← Int.add_emod_right]
      exact Int.emod_eq_of_lt (by omega) (by omega)
    rw [hMod, hSigned, if_pos (by simp; omega)]
    omega
  · have hMod : n % (m : Int) = n := Int.emod_eq_of_lt hNonneg (by split at hLimit <;> omega)
    rw [hMod, if_neg]
    · omega
    · rintro hBoth
      simp only [Bool.and_eq_true, decide_eq_true_eq] at hBoth
      rw [if_pos hBoth.1] at hLimit
      omega

theorem fits_ofTwosComplement {t : IntType} {n : Nat} (h : n < t.modulus) :
    t.fits (ofTwosComplement t n) = true := by
  obtain ⟨hEven, hPos⟩ := even_modulus t
  rw [fits_iff, IntType.least, IntType.limit, ofTwosComplement]
  generalize t.modulus = m at *
  cases t.signed
  · simp only [Bool.false_and, Bool.false_eq_true, if_false]
    omega
  · simp only [Bool.true_and, decide_eq_true_eq, if_true]
    split <;> omega

/-- The value is of the kind and fits the room that the kind gives it. -/
inductive Holds : ValueKind → FieldValue → Prop
  | int {t : IntType} {n : Int} (hFits : t.fits n = true) : Holds (.int t) (.int n)
  | bool {b : Bool} : Holds .bool (.bool b)
  | string {max : Nat} {s : Text} (hRoom : s.length ≤ max) : Holds (.string max) (.string s)
  | key {k : KeyBytes} : Holds .pubkey (.key k)

/-- The kind of an extracted field: a string has some room, and a length of four bytes counts it. -/
def Bounded (k : ValueKind) : Prop := ∀ max, k = .string max → 0 < max ∧ max < Nat.pow 256 4

theorem holds_zero (k : ValueKind) : Holds k (.zero k) := by
  cases k with
  | int t =>
    obtain ⟨width, signed⟩ := t
    exact .int (by cases width <;> decide +revert)
  | bool => exact .bool
  | string max => exact .string (Nat.zero_le max)
  | pubkey => exact .key

theorem store_eq_ok_iff {f : StateField} {o : Offer} {v : FieldValue} (hf : Bounded f.type.kind) :
    store f o = .ok v ↔ o.value = some v ∧ Holds f.type.kind v := by
  unfold store
  constructor
  · intro h
    split at h
    · rename_i hKind hValue
      cases h
      exact ⟨hValue, hKind ▸ .bool⟩
    · rename_i max s hKind hValue
      obtain ⟨hRoom, hSame⟩ := refused_or_eq_ok_iff.mp h
      cases hSame
      have hPos := (hf max hKind).1
      simp only [Bool.and_eq_true, decide_eq_true_eq, not_and] at hRoom
      exact ⟨hValue, hKind ▸ .string (Nat.le_of_not_lt (hRoom hPos))⟩
    · rename_i hKind hValue
      cases h
      exact ⟨hValue, hKind ▸ .key⟩
    · rename_i hKind hValue
      obtain ⟨hFits, hSame⟩ := allowed_or_eq_ok_iff.mp h
      cases hSame
      exact ⟨hValue, hKind ▸ .int hFits⟩
    · cases h
  · rintro ⟨hValue, hHolds⟩
    generalize hKind : f.type.kind = k at hHolds ⊢
    cases hHolds with
    | int hFits => simp [hValue, hFits]
    | bool => simp [hValue]
    | @string max s hRoom => simp [hValue, Nat.not_lt.mpr hRoom]
    | key => simp [hValue]

theorem takeBytes_append {n : Nat} {b : Text} (h : b.length = n) (rest : Text) :
    takeBytes type n (b ++ rest) = .ok (⟨b, h⟩, rest) := by
  subst h
  simp [takeBytes]

theorem readValue_valueBytes {k : ValueKind} {v : FieldValue} (hk : Bounded k) (hv : Holds k v)
    (rest : Text) : readValue type k (valueBytes k v ++ rest) = .ok (v, rest) := by
  cases hv with
  | @int t n hFits =>
    have hPos := (even_modulus t).2
    have hBelow : (n % t.modulus).toNat < Nat.pow 256 (t.bits / 8) := by
      rw [← modulus_eq]
      have hLess := Int.emod_lt_of_pos n (Int.natCast_pos.mpr hPos)
      omega
    simp only [readValue, valueBytes, takeBytes_append (length_littleEndian _ _), pure, Except.pure,
      bind, Except.bind, littleEndianValue_littleEndian hBelow, ofTwosComplement_emod hFits]
  | @bool b =>
    cases b <;> rfl
  | @string max s hRoom =>
    have hBelow : s.length < Nat.pow 256 4 := Nat.lt_of_le_of_lt hRoom (hk max rfl).2
    have hLength := littleEndianValue_littleEndian hBelow
    simp only [readValue, valueBytes, List.append_assoc, takeBytes_append (length_littleEndian _ _),
      bind, Except.bind]
    rw [takeBytes_append hLength.symm]
    rfl
  | @key key =>
    simp only [readValue, valueBytes, takeBytes_append key.2, pure, Except.pure, bind, Except.bind]

theorem length_valueBytes {k : ValueKind} {v : FieldValue} (hv : Holds k v) :
    k.minSize ≤ (valueBytes k v).length ∧ (valueBytes k v).length ≤ k.byteSize := by
  cases hv with
  | int => simp [valueBytes, ValueKind.minSize, ValueKind.byteSize]
  | bool => simp [valueBytes, ValueKind.minSize, ValueKind.byteSize]
  | string hRoom => simpa [valueBytes, ValueKind.minSize, ValueKind.byteSize] using hRoom
  | @key key => simp [valueBytes, ValueKind.minSize, ValueKind.byteSize, key.2]

/-- What is read has the kind of the field; only the room of a string is left to check. -/
theorem holds_of_readValue {f : StateField} {s r : Text} {v : FieldValue}
    (hRead : readValue type f.type.kind s = .ok (v, r)) (hRoom : checkRoom f v = .ok ())
    (hf : Bounded f.type.kind) : Holds f.type.kind v := by
  unfold checkRoom at hRoom
  generalize hKind : f.type.kind = k at *
  cases k with
  | int t =>
    simp only [readValue, bind_eq_ok_iff, pure_eq_ok_iff, Prod.mk.injEq] at hRead
    obtain ⟨⟨⟨b, hb⟩, _⟩, _, rfl, rfl⟩ := hRead
    have hBelow := littleEndianValue_lt b
    rw [hb, ← modulus_eq] at hBelow
    exact .int (fits_ofTwosComplement hBelow)
  | bool =>
    simp only [readValue, bind_eq_ok_iff] at hRead
    obtain ⟨⟨⟨b, hb⟩, _⟩, _, hRead⟩ := hRead
    split at hRead
    · cases hRead
      exact .bool
    · cases hRead
      exact .bool
    · cases hRead
  | string max =>
    simp only [readValue, bind_eq_ok_iff, pure_eq_ok_iff, Prod.mk.injEq] at hRead
    obtain ⟨_, _, ⟨⟨t, ht⟩, _⟩, _, rfl, rfl⟩ := hRead
    have hPos := (hf max rfl).1
    simp only [refused_or_eq_ok_iff, Bool.and_eq_true, decide_eq_true_eq, not_and] at hRoom
    exact .string (Nat.le_of_not_lt (hRoom.1 hPos))
  | pubkey =>
    simp only [readValue, bind_eq_ok_iff, pure_eq_ok_iff, Prod.mk.injEq] at hRead
    obtain ⟨_, _, rfl, rfl⟩ := hRead
    exact .key

theorem checkRoom_of_holds {f : StateField} {v : FieldValue} (h : Holds f.type.kind v) :
    checkRoom f v = .ok () := by
  unfold checkRoom
  generalize f.type.kind = k at *
  cases h with
  | string hRoom => simp [Nat.not_lt.mpr hRoom]
  | _ => rfl

abbrev HoldAll (fs : List StateField) (vs : List FieldValue) : Prop :=
  List.Forall₂ (fun f v => Holds f.type.kind v) fs vs

/-- The bytes of the fields, one after the other. -/
abbrev fieldBytes (fs : List StateField) (vs : List FieldValue) : Text :=
  (fs.zip vs).flatMap fun (f, v) => valueBytes f.type.kind v

theorem fieldBytes_cons (f : StateField) (v : FieldValue) (fs : List StateField)
    (vs : List FieldValue) :
    fieldBytes (f :: fs) (v :: vs) = valueBytes f.type.kind v ++ fieldBytes fs vs :=
  rfl

theorem readFields_fieldBytes {fs : List StateField} {vs : List FieldValue}
    (hBounded : ∀ f ∈ fs, Bounded f.type.kind) (h : HoldAll fs vs) (rest : Text) :
    readFields type fs (fieldBytes fs vs ++ rest) = .ok vs := by
  induction h with
  | nil => rfl
  | @cons f v fs vs hv _ ih =>
    obtain ⟨hf, hfs⟩ := List.forall_mem_cons.mp hBounded
    rw [fieldBytes_cons, List.append_assoc, readFields]
    simp only [readValue_valueBytes hf hv, bind, Except.bind, ih hfs]
    rfl

theorem holdAll_of_readFields {fs : List StateField} {s : Text} {vs : List FieldValue}
    (hBounded : ∀ f ∈ fs, Bounded f.type.kind) (hRead : readFields type fs s = .ok vs)
    (hRoom : ∀ q ∈ fs.zip vs, checkRoom q.1 q.2 = .ok ()) : HoldAll fs vs := by
  induction fs generalizing s vs with
  | nil =>
    cases hRead
    exact .nil
  | cons f fs ih =>
    simp only [readFields, bind_eq_ok_iff, pure_eq_ok_iff] at hRead
    obtain ⟨⟨v, r⟩, hv, vs', hvs, rfl⟩ := hRead
    obtain ⟨hf, hfs⟩ := List.forall_mem_cons.mp hBounded
    rw [List.zip_cons_cons, List.forall_mem_cons] at hRoom
    exact .cons (holds_of_readValue hv hRoom.1 hf) (ih hfs hvs hRoom.2)

theorem length_fieldBytes {fs : List StateField} {vs : List FieldValue} (h : HoldAll fs vs) :
    fs.foldr (fun f size => f.type.kind.minSize + size) 0 ≤ (fieldBytes fs vs).length ∧
      (fieldBytes fs vs).length ≤ fs.foldr (fun f size => f.type.kind.byteSize + size) 0 := by
  induction h with
  | nil => exact ⟨Nat.le_refl 0, Nat.le_refl 0⟩
  | @cons f v fs vs hv _ ih =>
    have hFirst := length_valueBytes hv
    rw [fieldBytes_cons, List.length_append, List.foldr_cons, List.foldr_cons]
    omega

theorem forM_checkRoom {fs : List StateField} {vs : List FieldValue} (h : HoldAll fs vs) :
    (fs.zip vs).forM (fun (f, v) => checkRoom f v) = .ok () := by
  induction h with
  | nil => rfl
  | @cons f v fs vs hv _ ih =>
    refine bind_eq_ok_iff.mpr ⟨(), checkRoom_of_holds hv, ih⟩

theorem length_accountDiscriminator (name : Text) :
    (Interface.accountDiscriminator name).length = StateType.discriminatorSize := by
  simp [Interface.accountDiscriminator, Interface.discriminatorOf, Sha256.hash, Sha256.wordBytes,
    StateType.discriminatorSize]

/-- The value that the offers give the field: the one offered under its name, or zero. -/
def Given (offers : Text → Option Offer) (f : StateField) (v : FieldValue) : Prop :=
  match offers f.name with
  | some o => o.value = some v
  | none => v = .zero f.type.kind

theorem fieldValue_eq_ok_iff {offers : Text → Option Offer} {f : StateField} {v : FieldValue}
    (hf : Bounded f.type.kind) :
    fieldValue offers f = .ok v ↔ Given offers f v ∧ Holds f.type.kind v := by
  unfold fieldValue Given
  cases offers f.name with
  | some o => exact store_eq_ok_iff hf
  | none =>
    constructor
    · intro h
      cases h
      exact ⟨rfl, holds_zero _⟩
    · rintro ⟨rfl, _⟩
      rfl

/-- Data is written exactly for values that the offers give and the fields hold. -/
theorem encode_eq_ok_iff {st : StateType} {offers : Text → Option Offer} {data : Text}
    (hBounded : ∀ f ∈ st.fields, Bounded f.type.kind) :
    encode st offers = .ok data ↔
      ∃ vs, List.Forall₂ (Given offers) st.fields vs ∧ HoldAll st.fields vs ∧
        data = padTo st.space
          (Interface.accountDiscriminator st.name ++ fieldBytes st.fields vs) := by
  simp only [encode, bind_eq_ok_iff, pure_eq_ok_iff, mapM_eq_ok_iff]
  constructor
  · rintro ⟨vs, hValues, rfl⟩
    have hBoth := forall₂_imp_of_mem hValues fun f hf v hv =>
      (fieldValue_eq_ok_iff (hBounded f hf)).mp hv
    exact ⟨vs, hBoth.imp fun _ _ h => h.1, hBoth.imp fun _ _ h => h.2, rfl⟩
  · rintro ⟨vs, hGiven, hHolds, rfl⟩
    refine ⟨vs, ?_, rfl⟩
    have hBoth := List.Forall₂.mp (fun _ _ hg hh => And.intro hg hh) hGiven hHolds
    exact forall₂_imp_of_mem hBoth fun f hf v hv =>
      (fieldValue_eq_ok_iff (hBounded f hf)).mpr hv

theorem space_eq_byteSize {st : StateType} (h : (st.byteSize : Int) < -leastWord) :
    st.space = st.byteSize := by
  unfold leastWord at h
  unfold StateType.space signedWord
  have hLow : -(18446744073709551616 : Int) ≤ (st.byteSize : Int) * 2 := by omega
  have hHigh : (st.byteSize : Int) * 2 < 18446744073709551616 := by omega
  exact Int.bmod_eq_of_le_mul_two hLow hHigh

/-- Data that starts with the discriminator and the fields is read, whatever follows them. -/
theorem decode_of_holdAll {st : StateType} {vs : List FieldValue}
    (hBounded : ∀ f ∈ st.fields, Bounded f.type.kind) (h : HoldAll st.fields vs) (rest : Text) :
    decode st (Interface.accountDiscriminator st.name ++ (fieldBytes st.fields vs ++ rest)) =
      .ok (st.fields.zip vs) := by
  have hDisc := length_accountDiscriminator st.name
  have hLength := (length_fieldBytes h).1
  rw [decode, if_neg, if_neg]
  · rw [List.drop_left' hDisc, readFields_fieldBytes hBounded h]
    refine bind_eq_ok_iff.mpr ⟨vs, rfl, ?_⟩
    exact bind_eq_ok_iff.mpr ⟨(), forM_checkRoom h, rfl⟩
  · rw [List.take_left' hDisc]
    exact fun hne => hne rfl
  · rw [List.length_append, List.length_append, hDisc, StateType.minSize]
    omega

theorem exists_of_decode {st : StateType} {data : Text} {record : List (StateField × FieldValue)}
    (hBounded : ∀ f ∈ st.fields, Bounded f.type.kind) (h : decode st data = .ok record) :
    ∃ vs, HoldAll st.fields vs ∧ record = st.fields.zip vs := by
  simp only [decode, refused_or_eq_ok_iff, bind_eq_ok_iff, pure_eq_ok_iff] at h
  obtain ⟨_, _, vs, hRead, _, hRoom, rfl⟩ := h
  exact ⟨vs, holdAll_of_readFields hBounded hRead fun _ => eq_ok_of_forM_eq_ok hRoom, rfl⟩

/-- The values of a record, offered again under the names of their fields. -/
def offersOf (typeName : FieldValue → Text) (record : List (StateField × FieldValue))
    (name : Text) : Option Offer :=
  (record.find? (·.1.name = name)).map fun q => ⟨typeName q.2, some q.2⟩

theorem given_offersOf {typeName : FieldValue → Text} {record : List (StateField × FieldValue)}
    {f : StateField} {v : FieldValue} (hNodup : (record.map (·.1.name)).Nodup)
    (h : (f, v) ∈ record) : Given (offersOf typeName record) f v := by
  obtain ⟨q, hq⟩ : ∃ q, record.find? (·.1.name = f.name) = some q :=
    Option.isSome_iff_exists.mp (List.find?_isSome.mpr ⟨(f, v), h, by simp⟩)
  have hSame : q = (f, v) := by
    refine List.inj_on_of_nodup_map hNodup (List.mem_of_find?_eq_some hq) h ?_
    simpa using List.find?_some hq
  simp [Given, offersOf, hq, hSame]

theorem forall₂_given_offersOf (typeName : FieldValue → Text) {fs : List StateField}
    {vs : List FieldValue} (hNodup : (fs.map (·.name)).Nodup) (h : HoldAll fs vs) :
    List.Forall₂ (Given (offersOf typeName (fs.zip vs))) fs vs := by
  refine List.forall₂_iff_zip.mpr ⟨h.length_eq, fun {f v} hMem => given_offersOf ?_ hMem⟩
  have hNames : (fs.zip vs).map (·.1.name) = fs.map (·.name) := by
    conv_rhs => rw [← List.map_fst_zip (Nat.le_of_eq h.length_eq), List.map_map]
    rfl
  rwa [hNames]

end AccountData

theorem DataType.lookup?_string_pos {name : Text} {arg : Option Text} {isState : Text → Bool}
    {maxLen max : Nat} {t : ValueType} (hPos : 0 < maxLen)
    (h : lookup? name arg isState maxLen = some (.value t)) (hKind : t.kind = .string max) :
    0 < max := by
  unfold lookup? at h
  split at h
  · split at h
    · obtain ⟨n, hArg, hValue⟩ := Option.map_eq_some_iff.mp h
      cases hValue
      cases hKind
      unfold maxLenOfArg? at hArg
      split at hArg
      · split at hArg
        · cases hArg
          omega
        · cases hArg
      · cases hArg
    · cases h
  · split at h
    · rename_i u hFound
      cases h
      unfold valueType? at hFound
      repeat' split at hFound
      all_goals cases hFound
      all_goals cases hKind
      exact hPos
    · split at h
      · cases h
      · split at h <;> cases h

theorem Program.Settings.stringMaxLen_pos (n : Int) : 0 < (Settings.ofMaxLen n).stringMaxLen := by
  unfold ofMaxLen
  split
  · decide
  · show 0 < n.toNat
    omega

theorem Program.stateFields_string_pos {file stateName : Text} {s : Settings}
    {isState : Text → Bool} {seen : List Text} {fs : List Syntax.FieldDecl}
    {fields : List StateField} (hPos : 0 < s.stringMaxLen)
    (h : stateFields file s stateName isState seen fs = .ok fields) :
    ∀ f ∈ fields, ∀ max, f.type.kind = .string max → 0 < max := by
  fun_induction stateFields file s stateName isState seen fs generalizing fields with
  | case1 =>
    cases h
    simp
  | case2 => cases h
  | case3 seen f fs hSeen type hType ih =>
    simp only [bind_eq_ok_iff, pure_eq_ok_iff] at h
    obtain ⟨rest, hRest, rfl⟩ := h
    refine List.forall_mem_cons.mpr ⟨fun max hKind => ?_, ih hRest⟩
    exact DataType.lookup?_string_pos hPos hType hKind
  | case4 => cases h

theorem extractProgram_string_pos {o : CompileOptions} {name src : Text} {p : Program}
    (h : extractProgram o name src = .ok p) :
    ∀ st ∈ p.states, ∀ f ∈ st.fields, ∀ max, f.type.kind = .string max → 0 < max := by
  obtain ⟨f, _, hFile⟩ := bind_eq_ok_iff.mp h
  simp only [Program.ofFile, bind_eq_ok_iff, pure_eq_ok_iff] at hFile
  obtain ⟨_, _, names, _, states, hStates, _, _, is, _, rfl⟩ := hFile
  intro st hst
  obtain ⟨d, _, hState⟩ := exists_of_mem_right (mapM_eq_ok_iff.mp hStates) hst
  simp only [Program.stateType, bind_eq_ok_iff, pure_eq_ok_iff] at hState
  obtain ⟨fields, hFields, rfl⟩ := hState
  exact Program.stateFields_string_pos (Program.Settings.stringMaxLen_pos _) hFields

namespace AccountData

/-- Written data fills the space of its account and reads back as the values given, with any bytes
behind it; and what any data reads as can be written and reads back the same. -/
theorem decode_encode {o : CompileOptions} {name src : Text} {p : Program} {st : StateType}
    (hProgram : extractProgram o name src = .ok p) (hState : st ∈ p.states)
    (hSize : (st.byteSize : Int) < -leastWord)
    (hRooms : ∀ f ∈ st.fields, ∀ max, f.type.kind = .string max → max < Nat.pow 2 32) :
    (∀ offers data, encode st offers = .ok data →
      (data.length : Int) = st.space ∧ Interface.accountDiscriminator st.name <+: data ∧
      ∃ vs, List.Forall₂ (Given offers) st.fields vs ∧
        ∀ extra, decode st (data ++ extra) = .ok (st.fields.zip vs)) ∧
    ∀ data record, decode st data = .ok record → ∀ typeName, ∃ data',
      encode st (offersOf typeName record) = .ok data' ∧ decode st data' = .ok record := by
  have hBounded : ∀ f ∈ st.fields, Bounded f.type.kind := fun f hf max hKind =>
    ⟨extractProgram_string_pos hProgram st hState f hf max hKind, hRooms f hf max hKind⟩
  have hSpace := space_eq_byteSize hSize
  constructor
  · intro offers data hEncode
    obtain ⟨vs, hGiven, hHolds, rfl⟩ := (encode_eq_ok_iff hBounded).mp hEncode
    refine ⟨?_, ⟨_, List.append_assoc .. |>.symm⟩, vs, hGiven, fun extra => ?_⟩
    · have hFields := (length_fieldBytes hHolds).2
      have hDisc := length_accountDiscriminator st.name
      rw [hSpace, padTo, StateType.byteSize]
      simp only [List.length_append, List.length_replicate, hDisc]
      omega
    · rw [padTo, List.append_assoc, List.append_assoc]
      exact decode_of_holdAll hBounded hHolds _
  · intro data record hDecode typeName
    obtain ⟨vs, hHolds, rfl⟩ := exists_of_decode hBounded hDecode
    have hGiven := forall₂_given_offersOf typeName
      ((extractProgram_namedApart hProgram).fields st hState) hHolds
    refine ⟨_, (encode_eq_ok_iff hBounded).mpr ⟨vs, hGiven, hHolds, rfl⟩, ?_⟩
    rw [padTo, List.append_assoc]
    exact decode_of_holdAll hBounded hHolds _

def vaultDataSource : Text := Text.join [10] [
  "export default class P \x7b",
  "static PROGRAM_ID = new Pubkey('11111111111111111111111111111111')",
  "run(p: Signer) \x7b \x7d",
  "\x7d",
  "interface Vault extends Account \x7b delta: i128; label: Str<8>; open: bool; owner: Pubkey \x7d"]

/-- A negative number and a short string; the other two fields get nothing. -/
def vaultOffers (name : Text) : Option Offer :=
  if name = "delta" then some ⟨"int", some (.int (-1267650600228229401496703205376))⟩
  else if name = "label" then some ⟨"string", some (.string "till")⟩
  else none

def vaultValues : List FieldValue :=
  [.int (-1267650600228229401496703205376), .string "till", .bool false, .zero .pubkey]

theorem vaultData_reads_back : ∃ p st data, extractProgram {} "v.ts" vaultDataSource = .ok p ∧
    st ∈ p.states ∧ encode st vaultOffers = .ok data ∧ st.space = 69 ∧ data.length = 69 ∧
    ∀ extra, decode st (data ++ extra) = .ok (st.fields.zip vaultValues) := by
  obtain ⟨p, hp, hChecked⟩ := exists_ok_of_any (x := extractProgram {} "v.ts" vaultDataSource)
    (fun p => p.states.any fun st => st.byteSize == 69 &&
      st.fields.map (·.type.kind) == [.int ⟨.w128, true⟩, .string 8, .bool, .pubkey] &&
      (encode st vaultOffers).toOption.any fun data =>
        (decode st data).toOption.any fun record => record.map (·.2) == vaultValues)
    (by
      simp (disch := rfl) only [vaultDataSource, Text.ofString_literal]
      decide +kernel)
  obtain ⟨st, hState, hChecked⟩ := List.any_eq_true.mp hChecked
  simp only [Bool.and_eq_true, beq_iff_eq] at hChecked
  obtain ⟨⟨hSize, hKinds⟩, hEncode⟩ := hChecked
  obtain ⟨data, hEncode, hDecode⟩ := exists_ok_of_any _ hEncode
  obtain ⟨record, hDecode, hValues⟩ := exists_ok_of_any _ hDecode
  have hWord : (st.byteSize : Int) < -leastWord := by
    rw [hSize]
    decide
  have hRooms : ∀ f ∈ st.fields, ∀ max, f.type.kind = .string max → max < Nat.pow 2 32 := by
    intro f hf max hKind
    have hMem := List.mem_map_of_mem (f := fun f : StateField => f.type.kind) hf
    rw [hKinds, hKind] at hMem
    obtain rfl : max = 8 := by simpa using hMem
    decide
  obtain ⟨hLength, _, vs, hGiven, hReads⟩ := (decode_encode hp hState hWord hRooms).1 _ _ hEncode
  have hSpace : st.space = 69 := by
    rw [space_eq_byteSize hWord, hSize]
    rfl
  have hRecord : record = st.fields.zip vs :=
    Except.ok.inj (hDecode.symm.trans (by simpa using hReads []))
  rw [hRecord, beq_iff_eq, List.map_snd_zip (Nat.le_of_eq hGiven.length_eq.symm)] at hValues
  refine ⟨p, st, data, hp, hState, hEncode, hSpace, ?_, fun extra => ?_⟩
  · exact Int.ofNat.inj (hLength.trans hSpace)
  · rw [hReads, hValues]

end AccountData

end AnchorScript
