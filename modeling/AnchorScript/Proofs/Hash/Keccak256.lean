import AnchorScript.Hash.Keccak256
import AnchorScript.Proofs.Rust.Literals
import AnchorScript.Proofs.Text.Characters

/-!
# Digests

A digest is 32 bytes whatever the text is, because every round of the permutation gives twenty-five
lanes. In hexadecimal it is `0x` and 64 digits without capitals, and different digests are written
differently. A state can also be read as five rows of five named lanes, and every step of a round is
then a handful of operations on named lanes; each step on rows is shown equal to the step on the
array of lanes, and from the steps follows the digest of every text.
-/

namespace AnchorScript

namespace Text

/-- A hexadecimal digit without capitals. -/
def IsHexDigit (b : UInt8) : Prop := ∃ n < 16, b = hexDigit n.toUInt8

theorem forall_isHexDigit {P : UInt8 → Prop} (h : ∀ n < 16, P (hexDigit (Nat.toUInt8 n))) {b : UInt8}
    (hb : IsHexDigit b) : P b := by
  obtain ⟨n, hn, rfl⟩ := hb
  exact h n hn

theorem isHexDigit_hexDigit {b : UInt8} (h : b < 16) : IsHexDigit (hexDigit b) := by
  refine ⟨b.toNat, UInt8.lt_iff_toNat_lt.mp h, ?_⟩
  rw [Nat.toUInt8, UInt8.ofNat_toNat]

theorem isHexDigit_of_mem_hex {s : Text} {b : UInt8} (h : b ∈ hex s) : IsHexDigit b := by
  obtain ⟨a, _, hb⟩ := List.mem_flatMap.mp h
  simp only [hexByte, List.mem_cons, List.not_mem_nil, or_false] at hb
  rcases hb with rfl | rfl
  · refine isHexDigit_hexDigit ?_
    have := a.toNat_lt
    rw [UInt8.lt_iff_toNat_lt, UInt8.toNat_div]
    simp only [UInt8.reduceToNat]
    omega
  · refine isHexDigit_hexDigit ?_
    rw [UInt8.lt_iff_toNat_lt, UInt8.toNat_mod]
    exact Nat.mod_lt _ (by decide)

theorem length_hex (s : Text) : (hex s).length = 2 * s.length := by
  induction s with
  | nil => rfl
  | cons b s ih =>
    rw [hex, List.flatMap_cons, List.length_append, ← hex, ih, List.length_cons]
    simp only [hexByte, List.length_cons, List.length_nil]
    omega

theorem hex_injective {s t : Text} (h : hex s = hex t) : s = t := by
  induction s generalizing t with
  | nil =>
    have hLength := congrArg List.length h
    rw [length_hex, length_hex, List.length_nil] at hLength
    exact (List.eq_nil_of_length_eq_zero (by omega)).symm
  | cons b s ih =>
    cases t with
    | nil =>
      have hLength := congrArg List.length h
      rw [length_hex, length_hex, List.length_cons, List.length_nil] at hLength
      omega
    | cons c t =>
      have hCons : ∀ (b : UInt8) (s : Text),
          hex (b :: s) = hexDigit (b / 16) :: hexDigit (b % 16) :: hex s := fun _ _ => rfl
      rw [hCons, hCons, List.cons.injEq, List.cons.injEq] at h
      obtain ⟨hHigh, hLow, hRest⟩ := h
      have hByte := Rust.hexPair?_hexByte b
      rw [hHigh, hLow, Rust.hexPair?_hexByte c, Option.some.injEq] at hByte
      rw [hByte, ih hRest]

end Text

namespace Keccak256

theorem size_lanes (f : Nat → Nat → UInt64) : (lanes f).size = 25 := by
  simp [lanes]

theorem size_round (s : State) (k : UInt64) : (round s k).size = 25 := by
  rw [round, Array.size_modify, chi, size_lanes]

theorem size_permute {s : State} (h : s.size = 25) : (permute s).size = 25 :=
  List.foldlRecOn (motive := fun s : State => s.size = 25) roundConstants round h
    fun s _ k _ => size_round s k

theorem size_absorbAll {s : State} (h : s.size = 25) (text : Text) :
    (absorbAll s text).size = 25 := by
  fun_induction absorbAll s text with
  | case1 => exact h
  | case2 s text _ ih => exact ih (size_permute (by rw [Array.size_mapIdx, h]))

theorem length_hash (s : Text) : (hash s).length = 32 := by
  have hSize := size_absorbAll (s := Array.replicate 25 0) Array.size_replicate (padded s)
  have hLane : ∀ w, (laneBytes w).length = 8 := by
    intro w
    rw [laneBytes, List.length_map, List.length_range]
  rw [hash, List.length_flatMap, List.map_congr_left fun w _ => hLane w, List.map_const',
    List.length_take, Array.length_toList, hSize]
  rfl

/-- The digits behind the mark of a digest. -/
theorem length_digits (s : Text) : (Text.hex (hash s)).length = 64 := by
  rw [Text.length_hex, length_hash]

theorem hex_injective {s t : Text} (h : hex s = hex t) : hash s = hash t :=
  Text.hex_injective (List.append_cancel_left h)

theorem mem_hex {s : Text} {b : UInt8} (h : b ∈ hex s) : b = 120 ∨ Text.IsHexDigit b := by
  rcases List.mem_append.mp h with hMark | hDigit
  · have hBytes : Text.ofString "0x" = [48, 120] := by decide
    rw [hBytes, List.mem_cons, List.mem_singleton] at hMark
    rcases hMark with rfl | rfl
    · exact .inr ⟨0, by decide, rfl⟩
    · exact .inl rfl
  · exact .inr (Text.isHexDigit_of_mem_hex hDigit)

/-- What holds of all digits and of the mark holds of all bytes of a digest. -/
theorem forall_mem_hex {P : UInt8 → Prop} (hMark : P 120)
    (hDigits : ∀ n < 16, P (Text.hexDigit (Nat.toUInt8 n))) (s : Text) : ∀ b ∈ hex s, P b := by
  intro b hb
  rcases mem_hex hb with rfl | hDigit
  · exact hMark
  · exact Text.forall_isHexDigit hDigits hDigit

theorem isAscii_hex (s : Text) : Text.IsAscii (hex s) :=
  forall_mem_hex (P := (· < 128)) (by decide) (by decide) s

theorem map_lowerByte_hex (s : Text) : (hex s).map Text.lowerByte = hex s :=
  (List.map_congr_left
    (forall_mem_hex (P := fun b => Text.lowerByte b = b) (by decide) (by decide) s)).trans
    (List.map_id _)

structure Row where
  a : UInt64
  b : UInt64
  c : UInt64
  d : UInt64
  e : UInt64

namespace Row

def xor (r s : Row) : Row := ⟨r.a ^^^ s.a, r.b ^^^ s.b, r.c ^^^ s.c, r.d ^^^ s.d, r.e ^^^ s.e⟩

/-- Mixes the neighbours of each column in, given what the columns add up to. -/
def theta (sums r : Row) : Row :=
  ⟨r.a ^^^ sums.e ^^^ rotateLeft sums.b 1, r.b ^^^ sums.a ^^^ rotateLeft sums.c 1,
    r.c ^^^ sums.b ^^^ rotateLeft sums.d 1, r.d ^^^ sums.c ^^^ rotateLeft sums.e 1,
    r.e ^^^ sums.d ^^^ rotateLeft sums.a 1⟩

def chi (r : Row) : Row :=
  ⟨r.a ^^^ (~~~ r.b &&& r.c), r.b ^^^ (~~~ r.c &&& r.d), r.c ^^^ (~~~ r.d &&& r.e),
    r.d ^^^ (~~~ r.e &&& r.a), r.e ^^^ (~~~ r.a &&& r.b)⟩

end Row

structure Rows where
  p : Row
  q : Row
  r : Row
  s : Row
  t : Row

namespace Rows

def toState (m : Rows) : State :=
  #[m.p.a, m.p.b, m.p.c, m.p.d, m.p.e, m.q.a, m.q.b, m.q.c, m.q.d, m.q.e,
    m.r.a, m.r.b, m.r.c, m.r.d, m.r.e, m.s.a, m.s.b, m.s.c, m.s.d, m.s.e,
    m.t.a, m.t.b, m.t.c, m.t.d, m.t.e]

def ofLanes (f : Nat → Nat → UInt64) : Rows :=
  let row (y : Nat) : Row := ⟨f 0 y, f 1 y, f 2 y, f 3 y, f 4 y⟩
  ⟨row 0, row 1, row 2, row 3, row 4⟩

def map (f : Row → Row) (m : Rows) : Rows := ⟨f m.p, f m.q, f m.r, f m.s, f m.t⟩

def theta (m : Rows) : Rows := m.map (Row.theta ((((m.p.xor m.q).xor m.r).xor m.s).xor m.t))

def rhoPi (m : Rows) : Rows :=
  ⟨⟨m.p.a, rotateLeft m.q.b 44, rotateLeft m.r.c 43, rotateLeft m.s.d 21, rotateLeft m.t.e 14⟩,
    ⟨rotateLeft m.p.d 28, rotateLeft m.q.e 20, rotateLeft m.r.a 3, rotateLeft m.s.b 45,
      rotateLeft m.t.c 61⟩,
    ⟨rotateLeft m.p.b 1, rotateLeft m.q.c 6, rotateLeft m.r.d 25, rotateLeft m.s.e 8,
      rotateLeft m.t.a 18⟩,
    ⟨rotateLeft m.p.e 27, rotateLeft m.q.a 36, rotateLeft m.r.b 10, rotateLeft m.s.c 15,
      rotateLeft m.t.d 56⟩,
    ⟨rotateLeft m.p.c 62, rotateLeft m.q.d 55, rotateLeft m.r.e 39, rotateLeft m.s.a 41,
      rotateLeft m.t.b 2⟩⟩

def chi (m : Rows) : Rows := m.map Row.chi

def round (m : Rows) (k : UInt64) : Rows :=
  let n := chi (rhoPi (theta m))
  { n with p := { n.p with a := n.p.a ^^^ k } }

def permute (m : Rows) : Rows := roundConstants.foldl round m

def absorb (m : Rows) (block : Text) : Rows :=
  permute (ofLanes fun x y =>
    let i := x + 5 * y
    let w := lane m.toState x y
    if i < rate / 8 then w ^^^ laneOfBytes (block.toArray.extract (8 * i) (8 * i + 8)).toList else w)

def absorbAll (m : Rows) (text : Text) : Rows :=
  if text.length < rate then m else absorbAll (absorb m (text.take rate)) (text.drop rate)
termination_by text.length
decreasing_by simp_all [rate]; omega

def digest (m : Rows) : Text := [m.p.a, m.p.b, m.p.c, m.p.d].flatMap laneBytes

end Rows

theorem toState_ofLanes (f : Nat → Nat → UInt64) : (Rows.ofLanes f).toState = lanes f := by
  rw [lanes, ← Array.toList_inj, Array.toList_map, Array.toList_range]
  rfl

theorem mapIdx_eq_lanes {s : State} (h : s.size = 25) (f : Nat → UInt64 → UInt64) :
    s.mapIdx f = lanes fun x y => f (x + 5 * y) (lane s x y) := by
  refine Array.ext ?_ ?_
  · rw [size_lanes, Array.size_mapIdx, h]
  · intro i hi hLanes
    rw [Array.size_mapIdx] at hi
    have hIndex : i % 5 + 5 * (i / 5) = i := Nat.mod_add_div i 5
    have hLane : lane s (i % 5) (i / 5) = s[i] := by
      have hPlace : i % 5 % 5 + 5 * (i / 5 % 5) = i := by omega
      rw [lane, hPlace, Array.getD, dif_pos hi]
      rfl
    simp only [lanes, Array.getElem_mapIdx, Array.getElem_map, Array.getElem_range, hIndex, hLane]

theorem theta_toState (m : Rows) : theta m.toState = m.theta.toState := by
  -- The sums stand in an array of their own, which has to be written out like the lanes.
  have hSums : ∀ f : Nat → UInt64, (Array.range 5).map f = #[f 0, f 1, f 2, f 3, f 4] := by
    intro f
    rw [← Array.toList_inj, Array.toList_map, Array.toList_range]
    rfl
  simp only [theta, hSums, ← toState_ofLanes]
  rfl

theorem rhoPi_toState (m : Rows) : rhoPi m.toState = m.rhoPi.toState := by
  rw [rhoPi, ← toState_ofLanes]
  rfl

theorem chi_toState (m : Rows) : chi m.toState = m.chi.toState := by
  rw [chi, ← toState_ofLanes]
  rfl

theorem round_toState (m : Rows) (k : UInt64) : round m.toState k = (m.round k).toState := by
  rw [round, theta_toState, rhoPi_toState, chi_toState]
  rfl

theorem permute_toState (m : Rows) : permute m.toState = m.permute.toState :=
  List.foldl_hom Rows.toState round_toState

theorem absorb_toState (m : Rows) (block : Text) :
    absorb m.toState block = (m.absorb block).toState := by
  rw [absorb, mapIdx_eq_lanes rfl, ← toState_ofLanes, permute_toState]
  rfl

theorem absorbAll_toState (m : Rows) (text : Text) :
    absorbAll m.toState text = (m.absorbAll text).toState := by
  fun_induction Rows.absorbAll m text with
  | case1 m text hShort => rw [absorbAll, if_pos hShort]
  | case2 m text hLong ih => rw [absorbAll, if_neg hLong, absorb_toState, ih]

/-- Digests are computed row by row. -/
theorem hash_eq_digest (s : Text) :
    hash s = ((Rows.ofLanes fun _ _ => 0).absorbAll (padded s)).digest := by
  have hStart : (Rows.ofLanes fun _ _ => 0).toState = Array.replicate 25 0 := rfl
  rw [hash, ← hStart, absorbAll_toState]
  rfl

end Keccak256

end AnchorScript
