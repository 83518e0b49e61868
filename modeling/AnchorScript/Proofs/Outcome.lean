import Mathlib.Data.List.Forall2

/-!
# Chains of computations that may fail

Every stage of the compiler is a chain in `Except`. A chain succeeds exactly if each of its links
does, and a list is mapped successfully exactly if each element is, in order.
-/

namespace AnchorScript.Outcome

variable {ε α β : Type}

@[simp] theorem bind_eq_ok_iff {x : Except ε α} {f : α → Except ε β} {b : β} :
    (x >>= f) = .ok b ↔ ∃ a, x = .ok a ∧ f a = .ok b := by
  cases x <;> simp [bind, Except.bind]

theorem bind_eq_error_iff {x : Except ε α} {f : α → Except ε β} {e : ε} :
    (x >>= f) = .error e ↔ x = .error e ∨ ∃ a, x = .ok a ∧ f a = .error e := by
  cases x <;> simp [bind, Except.bind]

@[simp] theorem pure_eq_ok_iff {a b : α} : (pure a : Except ε α) = .ok b ↔ a = b := by
  simp [pure, Except.pure]

@[simp] theorem mapError_eq_ok_iff {ε' : Type} {x : Except ε α} {f : ε → ε'} {a : α} :
    x.mapError f = .ok a ↔ x = .ok a := by
  cases x <;> simp [Except.mapError]

/-- A refusal in front of a computation lets it through only where its condition fails. -/
@[simp] theorem refused_or_eq_ok_iff {c : Prop} [Decidable c] {e : ε} {x : Except ε α} {a : α} :
    (if c then .error e else x) = .ok a ↔ ¬c ∧ x = .ok a := by
  by_cases h : c <;> simp [h]

@[simp] theorem allowed_or_eq_ok_iff {c : Prop} [Decidable c] {e : ε} {x : Except ε α} {a : α} :
    (if c then x else .error e) = .ok a ↔ c ∧ x = .ok a := by
  by_cases h : c <;> simp [h]

theorem mapM_eq_ok_iff {f : α → Except ε β} {as : List α} {bs : List β} :
    as.mapM f = .ok bs ↔ List.Forall₂ (fun a b => f a = .ok b) as bs := by
  induction as generalizing bs with
  | nil =>
    rw [List.mapM_nil, pure_eq_ok_iff, List.forall₂_nil_left_iff, eq_comm]
  | cons a as ih =>
    simp only [List.mapM_cons, bind_eq_ok_iff, pure_eq_ok_iff, List.forall₂_cons_left_iff]
    constructor
    · rintro ⟨b, hb, bs', hbs, rfl⟩
      exact ⟨b, bs', hb, ih.mp hbs, rfl⟩
    · rintro ⟨b, bs', hb, hbs, rfl⟩
      exact ⟨b, hb, bs', ih.mpr hbs, rfl⟩

/-- A list that is not mapped has a first element that is not. -/
theorem exists_split_of_mapM_eq_error {f : α → Except ε β} {as : List α} {e : ε}
    (h : as.mapM f = .error e) :
    ∃ before a after, as = before ++ a :: after ∧ (∀ a ∈ before, ∃ b, f a = .ok b) ∧
      f a = .error e := by
  induction as with
  | nil => cases h
  | cons a as ih =>
    rw [List.mapM_cons, bind_eq_error_iff] at h
    rcases h with hHead | ⟨b, hHead, hRest⟩
    · exact ⟨[], a, as, rfl, List.forall_mem_nil _, hHead⟩
    · rcases bind_eq_error_iff.mp hRest with hTail | ⟨bs, _, hPure⟩
      · obtain ⟨before, a', after, rfl, hBefore, hError⟩ := ih hTail
        exact ⟨a :: before, a', after, rfl, List.forall_mem_cons.mpr ⟨⟨b, hHead⟩, hBefore⟩, hError⟩
      · cases hPure

/-- A list that is not mapped has an element that is not. -/
theorem exists_of_mapM_eq_error {f : α → Except ε β} {as : List α} {e : ε}
    (h : as.mapM f = .error e) : ∃ a ∈ as, f a = .error e := by
  obtain ⟨before, a, after, rfl, _, hError⟩ := exists_split_of_mapM_eq_error h
  exact ⟨a, List.mem_append_right before List.mem_cons_self, hError⟩

theorem eq_ok_of_forM_eq_ok {f : α → Except ε Unit} {as : List α} {u : Unit}
    (h : as.forM f = .ok u) {a : α} (ha : a ∈ as) : f a = .ok () := by
  induction as with
  | nil => cases ha
  | cons b as ih =>
    obtain ⟨_, hHead, hTail⟩ := bind_eq_ok_iff.mp h
    rcases List.mem_cons.mp ha with rfl | ha
    · exact hHead
    · exact ih hTail ha

theorem forM_eq_ok {f : α → Except ε Unit} {as : List α} (h : ∀ a ∈ as, f a = .ok ()) :
    as.forM f = .ok () := by
  induction as with
  | nil => rfl
  | cons a as ih =>
    obtain ⟨hHead, hTail⟩ := List.forall_mem_cons.mp h
    exact bind_eq_ok_iff.mpr ⟨(), hHead, ih hTail⟩

/-- A computation whose outcome passes a check succeeds. -/
theorem exists_ok_of_any {x : Except ε α} (check : α → Bool)
    (h : x.toOption.any check = true) : ∃ a, x = .ok a ∧ check a = true := by
  cases x with
  | error e => cases h
  | ok a => exact ⟨a, rfl, h⟩

/-- The error of a computation that fails. -/
def error? : Except ε α → Option ε
  | .error e => some e
  | .ok _ => none

theorem eq_error_of_error? {x : Except ε α} {e : ε} (h : error? x = some e) : x = .error e := by
  cases x with
  | error e' => exact congrArg _ (Option.some.inj h)
  | ok a => cases h

theorem exists_of_mem_right {R : α → β → Prop} {as : List α} {bs : List β}
    (h : List.Forall₂ R as bs) {b : β} (hb : b ∈ bs) : ∃ a ∈ as, R a b := by
  induction h with
  | nil => cases hb
  | @cons a b' as bs hab _ ih =>
    rcases List.mem_cons.mp hb with rfl | hb
    · exact ⟨a, List.mem_cons_self, hab⟩
    · obtain ⟨a', ha', hRel⟩ := ih hb
      exact ⟨a', List.mem_cons_of_mem a ha', hRel⟩

theorem exists_of_mem_left {R : α → β → Prop} {as : List α} {bs : List β}
    (h : List.Forall₂ R as bs) {a : α} (ha : a ∈ as) : ∃ b ∈ bs, R a b :=
  exists_of_mem_right h.flip ha

theorem forall₂_imp_of_mem {R S : α → β → Prop} {as : List α} {bs : List β}
    (h : List.Forall₂ R as bs) (hImp : ∀ a ∈ as, ∀ b, R a b → S a b) : List.Forall₂ S as bs := by
  induction h with
  | nil => exact .nil
  | @cons a b as bs hab _ ih =>
    obtain ⟨hHead, hTail⟩ := List.forall_mem_cons.mp hImp
    exact .cons (hHead b hab) (ih hTail)

theorem forall₂_map_map {γ : Type} {R : β → γ → Prop} {f : α → β} {g : α → γ} {as : List α}
    (h : ∀ a ∈ as, R (f a) (g a)) : List.Forall₂ R (as.map f) (as.map g) := by
  rw [List.forall₂_map_left_iff, List.forall₂_map_right_iff, List.forall₂_same]
  exact h

theorem forall₂_trans {γ : Type} {R : α → β → Prop} {S : β → γ → Prop} {as : List α}
    {bs : List β} {cs : List γ} (h : List.Forall₂ R as bs) (h' : List.Forall₂ S bs cs) :
    List.Forall₂ (fun a c => ∃ b, R a b ∧ S b c) as cs := by
  induction h generalizing cs with
  | nil =>
    cases h'
    exact .nil
  | @cons a b as bs hab _ ih =>
    cases h' with
    | cons hbc hRest => exact .cons ⟨b, hab, hbc⟩ (ih hRest)

theorem forall₂_zip {γ : Type} {R : α → β → Prop} {S : β → γ → Prop} {as : List α}
    {bs : List β} {cs : List γ} (h : List.Forall₂ R as bs) (h' : List.Forall₂ S bs cs) :
    List.Forall₂ (fun a bc => R a bc.1 ∧ S bc.1 bc.2) as (bs.zip cs) := by
  induction h generalizing cs with
  | nil => exact .nil
  | @cons a b as bs hab _ ih =>
    cases h' with
    | cons hbc hRest => exact .cons ⟨hab, hbc⟩ (ih hRest)

theorem exists_split_of_getElem? {l : List α} {index : Nat} {a : α} (h : l[index]? = some a) :
    ∃ before after, l = before ++ a :: after ∧ before.length = index := by
  obtain ⟨hLess, rfl⟩ := List.getElem?_eq_some_iff.mp h
  refine ⟨l.take index, l.drop (index + 1), ?_, List.length_take_of_le (Nat.le_of_lt hLess)⟩
  rw [List.getElem_cons_drop, List.take_append_drop]

section Agree

variable {ε' α' β' : Type} {E : ε → ε' → Prop} {R : α → α' → Prop} {S : β → β' → Prop}

/-- Two computations succeed with related results or fail with related errors. -/
inductive Agree (E : ε → ε' → Prop) (R : α → α' → Prop) : Except ε α → Except ε' α' → Prop
  | ok {a : α} {a' : α'} (h : R a a') : Agree E R (.ok a) (.ok a')
  | error {e : ε} {e' : ε'} (h : E e e') : Agree E R (.error e) (.error e')

theorem Agree.bind {x : Except ε α} {x' : Except ε' α'} {f : α → Except ε β}
    {f' : α' → Except ε' β'} (h : Agree E R x x')
    (hNext : ∀ a a', R a a' → Agree E S (f a) (f' a')) : Agree E S (x >>= f) (x' >>= f') := by
  cases h with
  | ok hSame => exact hNext _ _ hSame
  | error hSame => exact .error hSame

theorem Agree.ite {p q : Prop} [Decidable p] [Decidable q] {x y : Except ε α}
    {x' y' : Except ε' α'} (h : q ↔ p) (hThen : Agree E R x x') (hElse : Agree E R y y') :
    Agree E R (if p then x else y) (if q then x' else y') := by
  by_cases hp : p
  · rwa [if_pos hp, if_pos (h.2 hp)]
  · rwa [if_neg hp, if_neg (mt h.1 hp)]

/-- Two computations that agree with a third agree with one another. -/
theorem Agree.meet {ε₁ α₁ : Type} {F : ε₁ → ε' → Prop} {S : α₁ → α' → Prop} {x : Except ε α}
    {y : Except ε₁ α₁} {z : Except ε' α'} (h : Agree E R x z) (h' : Agree F S y z) :
    Agree (fun e e₁ => ∃ f, E e f ∧ F e₁ f) (fun a a₁ => ∃ b, R a b ∧ S a₁ b) x y := by
  cases h with
  | ok hLeft =>
    cases h' with
    | ok hRight => exact .ok ⟨_, hLeft, hRight⟩
  | error hLeft =>
    cases h' with
    | error hRight => exact .error ⟨_, hLeft, hRight⟩

theorem Agree.mono {E' : ε → ε' → Prop} {R' : α → α' → Prop} {x : Except ε α}
    {x' : Except ε' α'} (h : Agree E R x x') (hError : ∀ e e', E e e' → E' e e')
    (hOk : ∀ a a', R a a' → R' a a') : Agree E' R' x x' := by
  cases h with
  | ok hSame => exact .ok (hOk _ _ hSame)
  | error hSame => exact .error (hError _ _ hSame)

theorem Agree.mapError {ε₁ ε₁' : Type} {F : ε₁ → ε₁' → Prop} {g : ε → ε₁} {g' : ε' → ε₁'}
    {x : Except ε α} {x' : Except ε' α'} (h : Agree E R x x')
    (hNext : ∀ e e', E e e' → F (g e) (g' e')) : Agree F R (x.mapError g) (x'.mapError g') := by
  cases h with
  | ok hSame => exact .ok hSame
  | error hSame => exact .error (hNext _ _ hSame)

end Agree

section Ends

variable {E : ε → Prop} {A : α → Prop} {B : β → Prop}

/-- The computation gives a result with the property `A`, or fails with an error with `E`. -/
inductive Ends (E : ε → Prop) (A : α → Prop) : Except ε α → Prop
  | ok {a : α} (h : A a) : Ends E A (.ok a)
  | error {e : ε} (h : E e) : Ends E A (.error e)

theorem Ends.of_ok {x : Except ε α} (h : Ends E A x) {a : α} (ha : x = .ok a) : A a := by
  subst ha
  cases h with
  | ok hA => exact hA

theorem Ends.of_error {x : Except ε α} (h : Ends E A x) {e : ε} (he : x = .error e) : E e := by
  subst he
  cases h with
  | error hE => exact hE

theorem Ends.mono {E' : ε → Prop} {x : Except ε α} (h : Ends E A x) (hError : ∀ e, E e → E' e) :
    Ends E' A x := by
  cases h with
  | ok hA => exact .ok hA
  | error hE => exact .error (hError _ hE)

theorem Ends.bind {x : Except ε α} {f : α → Except ε β} (h : Ends E A x)
    (hNext : ∀ a, A a → Ends E B (f a)) : Ends E B (x >>= f) := by
  cases h with
  | ok hA => exact hNext _ hA
  | error hE => exact .error hE

theorem Ends.ite {p : Prop} [Decidable p] {x y : Except ε α} (hThen : Ends E A x)
    (hElse : Ends E A y) : Ends E A (if p then x else y) := by
  by_cases hp : p
  · rwa [if_pos hp]
  · rwa [if_neg hp]

theorem Ends.mapError {ε' : Type} {F : ε' → Prop} {g : ε → ε'} {x : Except ε α} (h : Ends E A x)
    (hNext : ∀ e, E e → F (g e)) : Ends F A (x.mapError g) := by
  cases h with
  | ok hA => exact .ok hA
  | error hE => exact .error (hNext _ hE)

theorem Ends.mapM {f : α → Except ε β} {as : List α} (h : ∀ a ∈ as, Ends E B (f a)) :
    Ends E (fun bs => ∀ b ∈ bs, B b) (as.mapM f) := by
  induction as with
  | nil => exact .ok (List.forall_mem_nil B)
  | cons a as ih =>
    obtain ⟨hHead, hTail⟩ := List.forall_mem_cons.mp h
    rw [List.mapM_cons]
    exact .bind hHead fun b hb => .bind (ih hTail) fun bs hbs =>
      .ok (List.forall_mem_cons.mpr ⟨hb, hbs⟩)

theorem Ends.forM {f : α → Except ε PUnit} {as : List α}
    (h : ∀ a ∈ as, Ends E (fun _ => True) (f a)) : Ends E (fun _ => True) (as.forM f) := by
  induction as with
  | nil => exact .ok trivial
  | cons a as ih =>
    obtain ⟨hHead, hTail⟩ := List.forall_mem_cons.mp h
    exact .bind hHead fun _ _ => ih hTail

end Ends

end AnchorScript.Outcome
