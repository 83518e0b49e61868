import AnchorScript.Proofs.Rust.Scoping

/-!
# Values of printed statements

Statements run one after the other, and each `let` binds its name to what the value is at that time.
An identifier has no mark of its own: `r#x` binds `x`, and the last binding counts. What expressions
mean besides their variables is left open, and it changes with the accounts, whenever a field is
written and whenever another program is called.
-/

namespace AnchorScript.Rust

/-- A meaning for every construct but variables. A handle is what a struct, a list of signer seeds
or a context is bound as. -/
structure Semantics (V : Type) where
  int : Text → V
  bool : Bool → V
  string : Text → V
  bytes : Text → V
  member : V → Text → V
  call : V → Text → V
  slice : V → V
  binary : ArithOp → V → V → V
  neg : V → V
  handle : Text → V

namespace Expr

variable {V : Type}

def eval (M : Semantics V) (env : Text → V) : Expr → V
  | int lit => M.int lit
  | bool b => M.bool b
  | string s => M.string s
  | bytes s => M.bytes s
  | var n => env (bare n)
  | member e n => M.member (e.eval M env) n
  | call e m => M.call (e.eval M env) m
  | slice e => M.slice (e.eval M env)
  | binary op l r => M.binary op (l.eval M env) (r.eval M env)
  | neg e => M.neg (e.eval M env)
  | paren e => e.eval M env

/-- The variables that the expression reads are among these. -/
def ReadsOnly (names : List Text) : Expr → Prop
  | int _ | bool _ | string _ | bytes _ => True
  | var n => n ∈ names
  | member e _ | call e _ | slice e | neg e | paren e => e.ReadsOnly names
  | binary _ l r => l.ReadsOnly names ∧ r.ReadsOnly names

theorem eval_congr {M : Semantics V} {env env' : Text → V} {names : List Text} {e : Expr}
    (he : e.ReadsOnly names) (h : ∀ n ∈ names, env (bare n) = env' (bare n)) :
    e.eval M env = e.eval M env' := by
  induction e with
  | int | bool | string | bytes => rfl
  | var n => exact h n he
  | member e n ih => exact congrArg (M.member · n) (ih he)
  | call e m ih => exact congrArg (M.call · m) (ih he)
  | slice e ih => exact congrArg M.slice (ih he)
  | binary op l r ihl ihr => rw [eval, eval, ihl he.1, ihr he.2]
  | neg e ih => exact congrArg M.neg (ih he)
  | paren e ih => exact ih he

theorem readsOnly_bytesOf {names : List Text} {e : Expr} {k : ValueKind} :
    (Constraint.bytesOf e k).ReadsOnly names ↔ e.ReadsOnly names := by
  cases k <;> rfl

end Expr

/-- The values of the variables after one more is bound. -/
def rebind {V : Type} (env : Text → V) (name : Text) (v : V) : Text → V :=
  fun n => if n = bare name then v else env n

section Run

variable {V : Type} (M : Nat → Semantics V)

/-- The time, which only goes on when accounts may change, and the values of the variables. -/
def Stmt.step (q : Nat × (Text → V)) : Stmt → Nat × (Text → V)
  | assign .. | invoke .. => (q.1 + 1, q.2)
  | bind name _ _ value => (q.1, rebind q.2 name (value.eval (M q.1) q.2))
  | record name .. | seeds name _ | context name .. =>
    (q.1, rebind q.2 name ((M q.1).handle name))

def stateAfter (q : Nat × (Text → V)) (body : List Stmt) : Nat × (Text → V) :=
  body.foldl (fun q s => s.step M q) q

theorem stateAfter_append (q : Nat × (Text → V)) (body rest : List Stmt) :
    stateAfter M q (body ++ rest) = stateAfter M (stateAfter M q body) rest :=
  List.foldl_append

/-- The values of expressions after these statements. -/
def values (env : Text → V) (before : List Stmt) (es : List Expr) : List V :=
  let q := stateAfter M (0, env) before
  es.map (Expr.eval (M q.1) q.2)

end Run

namespace Stmt

/-- The statement binds nothing, or one of these names. -/
def isOwn (own : List Text) (s : Stmt) : Bool := s.bound?.all own.contains

/-- Where the statement binds one of these names, its value reads the context and these names only,
and any other name that it binds is apart from them. -/
structure Respects (own : List Text) (s : Stmt) : Prop where
  reads : ∀ name isMutable type value, s = .bind name isMutable type value → name ∈ own →
    value.ReadsOnly ("ctx" :: own)
  apart : ∀ name, s.bound? = some name → name ∉ own → ∀ u ∈ Text.ofString "ctx" :: own,
    bare name ≠ bare u

end Stmt

/-- Both runs are at one time and give the names the same values. -/
def Agree {V : Type} (names : List Text) (q q' : Nat × (Text → V)) : Prop :=
  q.1 = q'.1 ∧ ∀ u ∈ names, q.2 (bare u) = q'.2 (bare u)

variable {V : Type} {M : Nat → Semantics V} {own : List Text}

theorem agree_rebind {names : List Text} {q q' : Nat × (Text → V)} (h : Agree names q q')
    (name : Text) (v : V) :
    Agree names (q.1, rebind q.2 name v) (q'.1, rebind q'.2 name v) := by
  refine ⟨h.1, fun u hu => ?_⟩
  simp only [rebind, h.2 u hu]

theorem agree_rebind_left {names : List Text} {q q' : Nat × (Text → V)} (h : Agree names q q')
    {name : Text} (hApart : ∀ u ∈ names, bare name ≠ bare u) (v : V) :
    Agree names (q.1, rebind q.2 name v) q' :=
  ⟨h.1, fun u hu => (if_neg (hApart u hu).symm).trans (h.2 u hu)⟩

/-- What is bound besides does not change the values of own names. -/
theorem agree_stateAfter {body : List Stmt} (hBody : ∀ s ∈ body, s.Respects own)
    {q q' : Nat × (Text → V)} (h : Agree ("ctx" :: own) q q') :
    Agree ("ctx" :: own) (stateAfter M q body) (stateAfter M q' (body.filter (·.isOwn own))) := by
  induction body generalizing q q' with
  | nil => exact h
  | cons s body ih =>
    obtain ⟨hHere, hLater⟩ := List.forall_mem_cons.mp hBody
    rw [List.filter_cons]
    split
    · rename_i hOwn
      refine ih hLater ?_
      obtain ⟨time, env⟩ := q
      obtain ⟨time', env'⟩ := q'
      obtain rfl : time = time' := h.1
      cases s with
      | assign | invoke => exact ⟨rfl, h.2⟩
      | record | seeds | context => exact agree_rebind h _ _
      | bind name isMutable type value =>
        have hName : name ∈ own := by simpa [Stmt.isOwn, Stmt.bound?] using hOwn
        have hSame := Expr.eval_congr (M := M time) (hHere.reads _ _ _ _ rfl hName) h.2
        simp only [Stmt.step, hSame]
        exact agree_rebind h name _
    · rename_i hOther
      refine ih hLater ?_
      have hApart (name : Text) (hName : s.bound? = some name) :
          ∀ u ∈ Text.ofString "ctx" :: own, bare name ≠ bare u :=
        hHere.apart name hName fun hOwn => hOther (by simpa [Stmt.isOwn, hName] using hOwn)
      cases s with
      | assign | invoke => exact absurd rfl hOther
      | bind name | record name | seeds name | context name =>
        exact agree_rebind_left h (hApart name rfl) _

end AnchorScript.Rust
