import AnchorScript.Interface.Basic
import AnchorScript.Proofs.Manifest.Descriptions

/-!
# Descriptions are read back

A reader of interface descriptions that goes by the names of members. A member that is left out says
that a flag is not set, that an address is not fixed or that a list is empty. The text of a
description is read as the description, if its strings are valid UTF-8.
-/

namespace AnchorScript

/-- What is written element by element is read element by element. -/
theorem mapM_map_of_reads {α β : Type} {read : β → Option α} {write : α → β} {as : List α}
    (h : ∀ a ∈ as, read (write a) = some a) : (as.map write).mapM read = some as := by
  rw [List.mapM_map]
  induction as with
  | nil => rfl
  | cons a as ih =>
    obtain ⟨hHere, hLater⟩ := List.forall_mem_cons.mp h
    rw [List.mapM_cons, Function.comp_apply, hHere, ih hLater]
    rfl

namespace Json

variable {α : Type}

def member? (key : Text) : Json → Option Json
  | object ms => ms.lookup key
  | _ => none

def text? : Json → Option Text
  | string s => some s
  | _ => none

def bool? : Json → Option Bool
  | bool b => some b
  | _ => none

def byte? : Json → Option UInt8
  | number (.ofNat n) => if n < 256 then some n.toUInt8 else none
  | _ => none

def list? (read : Json → Option α) : Json → Option (List α)
  | array es => es.mapM read
  | _ => none

theorem list?_map {read : Json → Option α} {write : α → Json}
    (h : ∀ a, read (write a) = some a) (as : List α) :
    list? read (.array (as.map write)) = some as :=
  mapM_map_of_reads fun a _ => h a

theorem mapM_map {f : Json → Option α} {g : α → Json} {o : Option α}
    (h : ∀ a, f (g a) = some a) : (o.map g).mapM f = some o := by
  cases o with
  | none => rfl
  | some a => simp [h a]

theorem list?_bytesJson (s : Text) : list? byte? (Interface.bytesJson s) = some s := by
  refine list?_map (fun b => ?_) s
  have hByte : b.toNat < 256 := b.toNat_lt
  change (if b.toNat < 256 then some b.toNat.toUInt8 else none) = some b
  rw [if_pos hByte]
  exact congrArg some UInt8.ofNat_toNat

end Json

namespace Interface

open Json

def SeedSpec.ofJson? (j : Json) : Option SeedSpec := do
  let kind ← (← j.member? "kind").text?
  if kind = "const" then
    return .const ((← (j.member? "value").mapM (list? byte?)).getD [])
  else if kind = "account" then return .account (← (← j.member? "path").text?)
  else if kind = "arg" then return .arg (← (← j.member? "path").text?)
  else none

def AddressSpec.ofJson? (j : Json) : Option AddressSpec := do
  let seeds ← list? SeedSpec.ofJson? (← j.member? "seeds")
  return ⟨seeds, ← (j.member? "program").mapM SeedSpec.ofJson?⟩

def AccountSpec.ofJson? (j : Json) : Option AccountSpec := do
  let name ← (← j.member? "name").text?
  let isWritable ← (j.member? "writable").mapM bool?
  let isSigner ← (j.member? "signer").mapM bool?
  let address ← (j.member? "address").mapM text?
  let derivation ← (j.member? "pda").mapM AddressSpec.ofJson?
  return ⟨name, isWritable.getD false, isSigner.getD false, address, derivation⟩

def FieldSpec.ofJson? (j : Json) : Option FieldSpec := do
  let name ← (← j.member? "name").text?
  return ⟨name, ← (← j.member? "type").text?⟩

def InstructionSpec.ofJson? (j : Json) : Option InstructionSpec := do
  let name ← (← j.member? "name").text?
  let discriminator ← list? byte? (← j.member? "discriminator")
  let accounts ← list? AccountSpec.ofJson? (← j.member? "accounts")
  return ⟨name, discriminator, accounts, ← list? FieldSpec.ofJson? (← j.member? "args")⟩

/-- A kind of account is listed twice, once with its discriminator and once with its fields. -/
def StateSpec.ofJson? (account type : Json) : Option StateSpec := do
  let name ← (← account.member? "name").text?
  let discriminator ← list? byte? (← account.member? "discriminator")
  let typeName ← (← type.member? "name").text?
  let fields ← list? FieldSpec.ofJson? (← (← type.member? "type").member? "fields")
  if typeName = name then return ⟨name, discriminator, fields⟩ else none

def Description.ofJson? (j : Json) : Option Description := do
  let address ← (← j.member? "address").text?
  let name ← (← (← j.member? "metadata").member? "name").text?
  let instructions ← list? InstructionSpec.ofJson? (← j.member? "instructions")
  let accounts ← (j.member? "accounts").mapM (list? some)
  let types ← (j.member? "types").mapM (list? some)
  let pairs := (accounts.getD []).zip (types.getD [])
  let states ← pairs.mapM fun q => StateSpec.ofJson? q.1 q.2
  if (accounts.getD []).length = (types.getD []).length then
    return ⟨address, name, instructions, states⟩
  else none

/-- The description that a text is. -/
def readDescription (s : Text) : Option Description := (Json.ofText? s).bind Description.ofJson?

theorem SeedSpec.ofJson?_json (s : SeedSpec) : ofJson? s.json = some s := by
  cases s with
  | const s =>
    cases s with
    | nil => rfl
    | cons b s =>
      have hValue := list?_bytesJson (b :: s)
      change (do
        return SeedSpec.const ((← (some (bytesJson (b :: s))).mapM (list? byte?)).getD [])) = _
      simp [hValue]
  | account p => rfl
  | arg p => rfl

theorem AddressSpec.ofJson?_json (a : AddressSpec) : ofJson? a.json = some a := by
  obtain ⟨seeds, program⟩ := a
  have hSeeds := list?_map SeedSpec.ofJson?_json seeds
  have hProgram := mapM_map (o := program) SeedSpec.ofJson?_json
  have hMembers : (AddressSpec.json ⟨seeds, program⟩).member? "seeds" =
        some (.array (seeds.map SeedSpec.json)) ∧
      (AddressSpec.json ⟨seeds, program⟩).member? "program" = program.map SeedSpec.json := by
    cases program <;> exact ⟨rfl, rfl⟩
  rw [ofJson?, hMembers.1, hMembers.2]
  simp [hSeeds, hProgram]

theorem AccountSpec.member?_json (a : AccountSpec) :
    a.json.member? "name" = some (.string a.name) ∧
      a.json.member? "writable" = (if a.isWritable then some (.bool true) else none) ∧
      a.json.member? "signer" = (if a.isSigner then some (.bool true) else none) ∧
      a.json.member? "address" = a.address.map .string ∧
      a.json.member? "pda" = a.derivation.map AddressSpec.json := by
  obtain ⟨name, isWritable, isSigner, address, derivation⟩ := a
  cases isWritable <;> cases isSigner <;> cases address <;> cases derivation <;>
    exact ⟨rfl, rfl, rfl, rfl, rfl⟩

theorem AccountSpec.ofJson?_json (a : AccountSpec) : ofJson? a.json = some a := by
  have hFlag (b : Bool) :
      ((if b then some (Json.bool true) else none).mapM bool?).map (·.getD false) = some b := by
    cases b <;> rfl
  obtain ⟨hName, hWritable, hSigner, hAddress, hDerivation⟩ := a.member?_json
  have hText := mapM_map (f := text?) (g := .string) (o := a.address) fun _ => rfl
  have hPda := mapM_map (o := a.derivation) AddressSpec.ofJson?_json
  rw [ofJson?, hName, hWritable, hSigner, hAddress, hDerivation]
  obtain ⟨w, hw, hwValue⟩ := Option.map_eq_some_iff.mp (hFlag a.isWritable)
  obtain ⟨s, hs, hsValue⟩ := Option.map_eq_some_iff.mp (hFlag a.isSigner)
  simp [hw, hs, hText, hPda, hwValue, hsValue, text?]

theorem FieldSpec.ofJson?_json (f : FieldSpec) : ofJson? f.json = some f := rfl

theorem InstructionSpec.ofJson?_json (i : InstructionSpec) : ofJson? i.json = some i := by
  have hAccounts := list?_map AccountSpec.ofJson?_json i.accounts
  have hArgs := list?_map FieldSpec.ofJson?_json i.args
  change (do
    let discriminator ← list? byte? (bytesJson i.discriminator)
    let accounts ← list? AccountSpec.ofJson? (.array (i.accounts.map AccountSpec.json))
    return (⟨i.name, discriminator, accounts,
      ← list? FieldSpec.ofJson? (.array (i.args.map FieldSpec.json))⟩ : InstructionSpec)) = _
  rw [list?_bytesJson, hAccounts, hArgs]
  rfl

theorem StateSpec.ofJson?_json (s : StateSpec) : ofJson? s.accountJson s.typeJson = some s := by
  have hFields := list?_map FieldSpec.ofJson?_json s.fields
  change (do
    let discriminator ← list? byte? (bytesJson s.discriminator)
    let fields ← list? FieldSpec.ofJson? (.array (s.fields.map FieldSpec.json))
    if s.name = s.name then return ⟨s.name, discriminator, fields⟩ else none : Option StateSpec) = _
  rw [list?_bytesJson, hFields]
  exact if_pos rfl

theorem Description.member?_json (d : Description) :
    d.json.member? "address" = some (.string d.address) ∧
      (d.json.member? "metadata").bind (·.member? "name") = some (.string d.name) ∧
      d.json.member? "instructions" = some (.array (d.instructions.map InstructionSpec.json)) ∧
      d.json.member? "accounts" = (if d.states.isEmpty then none
        else some (.array (d.states.map StateSpec.accountJson))) ∧
      d.json.member? "types" = (if d.states.isEmpty then none
        else some (.array (d.states.map StateSpec.typeJson))) := by
  obtain ⟨address, name, instructions, states⟩ := d
  cases states <;> exact ⟨rfl, rfl, rfl, rfl, rfl⟩

theorem list?_nonempty (es : List Json) : ((if es.isEmpty then none
    else some (array es)).mapM (list? some)).map (·.getD []) = some es := by
  have hElems : (es.map id).mapM some = some es := mapM_map_of_reads fun _ _ => rfl
  rw [List.map_id] at hElems
  cases es with
  | nil => rfl
  | cons e es => simp [list?, hElems]

theorem StateSpec.mapM_ofJson? (states : List StateSpec) :
    ((states.map accountJson).zip (states.map typeJson)).mapM (fun q => ofJson? q.1 q.2) =
      some states := by
  rw [List.zip_map']
  exact mapM_map_of_reads fun s _ => s.ofJson?_json

theorem Description.ofJson?_json (d : Description) : ofJson? d.json = some d := by
  have hInstructions := list?_map InstructionSpec.ofJson?_json d.instructions
  obtain ⟨hAddress, hName, hList, hAccounts, hTypes⟩ := d.member?_json
  obtain ⟨metadata, hMetadata, hName⟩ := Option.bind_eq_some_iff.mp hName
  obtain ⟨accounts, hAccountsRead, hAccountsEq⟩ :=
    Option.map_eq_some_iff.mp (list?_nonempty (d.states.map StateSpec.accountJson))
  obtain ⟨types, hTypesRead, hTypesEq⟩ :=
    Option.map_eq_some_iff.mp (list?_nonempty (d.states.map StateSpec.typeJson))
  rw [List.isEmpty_map] at hAccountsRead hTypesRead
  simp only [ofJson?, hAddress, hMetadata, hName, hList, hAccounts, hTypes, hAccountsRead,
    hTypesRead, text?, hInstructions, hAccountsEq, hTypesEq, StateSpec.mapM_ofJson?,
    Option.bind_eq_bind, Option.bind_some, List.length_map, if_true]
  rfl

end Interface

namespace Json

/-- A document that reading keeps as it is, within so many levels. -/
def IsKept (n : Nat) (j : Json) : Prop := j.mended = j ∧ j.depth ≤ n

def AreKept (n : Nat) (ms : List (Text × Json)) : Prop :=
  ∀ m ∈ ms, Text.IsAscii m.1 ∧ m.2.IsKept n

theorem IsKept.mono {n k : Nat} {j : Json} (h : j.IsKept n) (hLe : n ≤ k) : j.IsKept k :=
  ⟨h.1, h.2.trans hLe⟩

theorem isKept_string {n : Nat} {s : Text} (h : Text.IsAscii s) : (string s).IsKept n :=
  ⟨congrArg string (Text.mended_of_isAscii h), Nat.zero_le n⟩

theorem isKept_array {n : Nat} {es : List Json} (h : ∀ e ∈ es, e.IsKept n) :
    (array es).IsKept (n + 1) := by
  constructor
  · rw [mended, mendedElems_eq_map]
    exact congrArg array ((List.map_congr_left fun e he => (h e he).1).trans (List.map_id es))
  · exact Nat.succ_le_succ (depthOfElems_le_iff.mpr fun e he => (h e he).2)

theorem isKept_object {n : Nat} {ms : List (Text × Json)} (h : AreKept n ms) :
    (object ms).IsKept (n + 1) := by
  constructor
  · rw [mended, mendedMembers_eq_map]
    refine congrArg object ((List.map_congr_left fun m hm => ?_).trans (List.map_id ms))
    change (Text.mended m.1, m.2.mended) = m
    rw [Text.mended_of_isAscii (h m hm).1, (h m hm).2.1]
  · exact Nat.succ_le_succ (depthOfMembers_le_iff.mpr fun m hm => (h m hm).2.2)

theorem AreKept.append {n : Nat} {ms ms' : List (Text × Json)} (h : AreKept n ms)
    (h' : AreKept n ms') : AreKept n (ms ++ ms') :=
  List.forall_mem_append.mpr ⟨h, h'⟩

theorem ofText?_text_of_isKept {j : Json} (hPlain : j.isPlain = true) (h : j.IsKept maxDepth) :
    ofText? (j.text ++ "\n") = some j := by
  rw [ofText?_text hPlain, if_pos h.2, h.1]

end Json

namespace Interface

open Json Text

section Members

variable {n : Nat} {key : Text} (hKey : IsAscii key)

include hKey

theorem areKept_member {v : Json} (h : v.IsKept n) : AreKept n (member key v) :=
  List.forall_mem_singleton.mpr ⟨hKey, h⟩

theorem areKept_optional {v : Option Json} (h : ∀ j ∈ v, j.IsKept n) :
    AreKept n (optional key v) := by
  cases v with
  | none => exact List.forall_mem_nil _
  | some j => exact areKept_member hKey (h j rfl)

theorem areKept_flag (b : Bool) : AreKept n (flag key b) := by
  cases b with
  | false => exact List.forall_mem_nil _
  | true => exact areKept_member hKey ⟨rfl, Nat.zero_le n⟩

theorem areKept_nonempty {es : List Json} (h : (array es).IsKept n) :
    AreKept n (nonempty key es) := by
  unfold nonempty
  split
  · exact List.forall_mem_nil _
  · exact areKept_member hKey h

theorem areKept_cons {v : Json} {ms : List (Text × Json)} (h : v.IsKept n) (hms : AreKept n ms) :
    AreKept n ((key, v) :: ms) :=
  (areKept_member hKey h).append hms

end Members

/-- The names and paths that a seed shows. -/
def SeedSpec.texts : SeedSpec → List Text
  | const _ => []
  | account p | arg p => [p]

def AddressSpec.texts (a : AddressSpec) : List Text :=
  (a.seeds ++ a.program.toList).flatMap SeedSpec.texts

def AccountSpec.texts (a : AccountSpec) : List Text :=
  a.name :: a.address.toList ++ a.derivation.toList.flatMap AddressSpec.texts

def FieldSpec.texts (f : FieldSpec) : List Text := [f.name, f.type]

def InstructionSpec.texts (i : InstructionSpec) : List Text :=
  i.name :: i.accounts.flatMap AccountSpec.texts ++ i.args.flatMap FieldSpec.texts

def StateSpec.texts (s : StateSpec) : List Text := s.name :: s.fields.flatMap FieldSpec.texts

def Description.texts (d : Description) : List Text :=
  d.address :: d.name :: d.instructions.flatMap InstructionSpec.texts ++
    d.states.flatMap StateSpec.texts

theorem isKept_bytesJson (s : Text) : (bytesJson s).IsKept 1 :=
  isKept_array <| List.forall_mem_map.mpr fun _ _ => ⟨rfl, Nat.le_refl 0⟩

theorem SeedSpec.isKept_json {s : SeedSpec} (h : ∀ t ∈ s.texts, IsAscii t) : s.json.IsKept 2 := by
  have hKind {kind : Text} (hAscii : IsAscii kind) : AreKept 1 (member "kind" (.string kind)) :=
    areKept_member (by decide) (isKept_string hAscii)
  cases s with
  | const s =>
    refine isKept_object ((hKind (by decide)).append ?_)
    split
    · exact List.forall_mem_nil _
    · exact areKept_member (by decide) (isKept_bytesJson s)
  | account p =>
    refine isKept_object ((hKind (by decide)).append (areKept_member (by decide) ?_))
    exact isKept_string (List.forall_mem_singleton.mp h)
  | arg p =>
    refine isKept_object ((hKind (by decide)).append (areKept_member (by decide) ?_))
    exact isKept_string (List.forall_mem_singleton.mp h)

theorem AddressSpec.isKept_json {a : AddressSpec} (h : ∀ t ∈ a.texts, IsAscii t) :
    a.json.IsKept 4 := by
  have hSeed : ∀ s ∈ a.seeds ++ a.program.toList, s.json.IsKept 2 := fun s hs =>
    SeedSpec.isKept_json fun t ht => h t (List.mem_flatMap_of_mem hs ht)
  obtain ⟨hSeeds, hProgram⟩ := List.forall_mem_append.mp hSeed
  refine isKept_object ((areKept_member (by decide) ?_).append (areKept_optional (by decide) ?_))
  · exact isKept_array (List.forall_mem_map.mpr hSeeds)
  · intro j hj
    obtain ⟨s, hs, rfl⟩ := Option.mem_map.mp hj
    exact (hProgram s (Option.mem_toList.mpr hs)).mono (by decide)

theorem AccountSpec.isKept_json {a : AccountSpec} (h : ∀ t ∈ a.texts, IsAscii t) :
    a.json.IsKept 5 := by
  obtain ⟨hOwn, hPaths⟩ := List.forall_mem_append.mp h
  obtain ⟨hName, hAddress⟩ := List.forall_mem_cons.mp hOwn
  refine isKept_object (((((areKept_member (by decide) (isKept_string hName)).append
    (areKept_flag (by decide) _)).append (areKept_flag (by decide) _)).append
    (areKept_optional (by decide) ?_)).append (areKept_optional (by decide) ?_))
  · intro j hj
    obtain ⟨s, hs, rfl⟩ := Option.mem_map.mp hj
    exact isKept_string (hAddress s (Option.mem_toList.mpr hs))
  · intro j hj
    obtain ⟨d, hd, rfl⟩ := Option.mem_map.mp hj
    exact AddressSpec.isKept_json fun t ht =>
      hPaths t (List.mem_flatMap_of_mem (Option.mem_toList.mpr hd) ht)

theorem FieldSpec.isKept_json {f : FieldSpec} (h : ∀ t ∈ f.texts, IsAscii t) :
    f.json.IsKept 1 := by
  refine isKept_object (areKept_cons (by decide) (isKept_string ?_)
    (areKept_member (by decide) (isKept_string ?_)))
  · exact h _ (List.mem_cons_self ..)
  · exact h _ (List.mem_cons_of_mem _ (List.mem_cons_self ..))

theorem isKept_fields {fs : List FieldSpec} (h : ∀ t ∈ fs.flatMap FieldSpec.texts, IsAscii t) :
    (Json.array (fs.map FieldSpec.json)).IsKept 2 :=
  isKept_array <| List.forall_mem_map.mpr fun _ hf =>
    FieldSpec.isKept_json fun t ht => h t (List.mem_flatMap_of_mem hf ht)

theorem InstructionSpec.isKept_json {i : InstructionSpec} (h : ∀ t ∈ i.texts, IsAscii t) :
    i.json.IsKept 7 := by
  obtain ⟨hOwn, hArgs⟩ := List.forall_mem_append.mp h
  obtain ⟨hName, hAccounts⟩ := List.forall_mem_cons.mp hOwn
  refine isKept_object (areKept_cons (by decide) (isKept_string hName)
    (areKept_cons (by decide) ((isKept_bytesJson _).mono (by decide))
      (areKept_cons (by decide) ?_ (areKept_member (by decide) ?_))))
  · refine isKept_array (List.forall_mem_map.mpr fun a ha => ?_)
    exact AccountSpec.isKept_json fun t ht => hAccounts t (List.mem_flatMap_of_mem ha ht)
  · exact (isKept_fields hArgs).mono (by decide)

theorem StateSpec.isKept_accountJson {s : StateSpec} (h : IsAscii s.name) :
    s.accountJson.IsKept 2 :=
  isKept_object (areKept_cons (by decide) (isKept_string h)
    (areKept_member (by decide) (isKept_bytesJson _)))

theorem StateSpec.isKept_typeJson {s : StateSpec} (h : ∀ t ∈ s.texts, IsAscii t) :
    s.typeJson.IsKept 4 := by
  obtain ⟨hName, hFields⟩ := List.forall_mem_cons.mp h
  exact isKept_object (areKept_cons (by decide) (isKept_string hName)
    (areKept_member (by decide) (isKept_object (areKept_cons (by decide) (isKept_string (by decide))
      (areKept_member (by decide) (isKept_fields hFields))))))

theorem Description.isKept_json {d : Description} (h : ∀ t ∈ d.texts, IsAscii t) :
    d.json.IsKept 9 := by
  obtain ⟨hOwn, hStates⟩ := List.forall_mem_append.mp h
  obtain ⟨hAddress, hRest⟩ := List.forall_mem_cons.mp hOwn
  obtain ⟨hName, hInstructions⟩ := List.forall_mem_cons.mp hRest
  have hState : ∀ s ∈ d.states, ∀ t ∈ s.texts, IsAscii t := fun s hs t ht =>
    hStates t (List.mem_flatMap_of_mem hs ht)
  have hVersion : Text.IsAscii version := by decide
  refine isKept_object (((((areKept_member (by decide) (isKept_string hAddress)).append
    (areKept_member (by decide) ?_)).append (areKept_member (by decide) ?_)).append
    (areKept_nonempty (by decide) ?_)).append (areKept_nonempty (by decide) ?_))
  · exact (isKept_object (n := 0) (areKept_cons (by decide) (isKept_string hName)
      (areKept_cons (by decide) (isKept_string hVersion)
        (areKept_member (by decide) (isKept_string hVersion))))).mono (by decide)
  · refine isKept_array (List.forall_mem_map.mpr fun i hi => ?_)
    exact InstructionSpec.isKept_json fun t ht =>
      hInstructions t (List.mem_flatMap_of_mem hi ht)
  · refine isKept_array (List.forall_mem_map.mpr fun s hs => ?_)
    exact (StateSpec.isKept_accountJson (hState s hs _ (List.mem_cons_self ..))).mono (by decide)
  · refine isKept_array (List.forall_mem_map.mpr fun s hs => ?_)
    exact (StateSpec.isKept_typeJson (hState s hs)).mono (by decide)

/-- The text of a description is read as the description. -/
theorem readDescription_text {d : Description} (h : ∀ t ∈ d.texts, IsAscii t) :
    readDescription d.text = some d := by
  rw [readDescription, Description.text,
    ofText?_text_of_isKept d.isPlain_json ((Description.isKept_json h).mono (by decide)),
    Option.bind_some, d.ofJson?_json]

end Interface

end AnchorScript
