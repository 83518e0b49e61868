import AnchorScript.Proofs.FileTree.Entries
import AnchorScript.Workspace.Basic
import Mathlib.Data.List.Nodup

/-!
# The sources that are found

A walk through a directory meets every file below it once, under the path of the names that lead to it.
It takes the sources and leaves out what stands behind a hidden directory or one of installed packages.
The programs directory itself may be hidden; but if it is named like one of packages, nothing is found.
-/

namespace AnchorScript

namespace FileTree

mutual
/-- In every directory, the entries have different names that stand for themselves. -/
def WellFormed : FileTree → Prop
  | file _ => True
  | directory es => WellNamed es

def WellNamed : List (Text × FileTree) → Prop
  | [] => True
  | (n, t) :: es => Path.IsName n ∧ es.lookup n = none ∧ t.WellFormed ∧ WellNamed es
end

theorem WellNamed.of_lookup {es : List (Text × FileTree)} {n : Text} {u : FileTree}
    (h : WellNamed es) (hFound : es.lookup n = some u) : Path.IsName n ∧ u.WellFormed := by
  induction es with
  | nil => cases hFound
  | cons e es ih =>
    obtain ⟨m, v⟩ := e
    obtain ⟨hName, _, hTree, hRest⟩ := h
    rw [lookup_cons_eq] at hFound
    split at hFound
    · rename_i hSame
      cases hFound
      exact ⟨hSame ▸ hName, hTree⟩
    · exact ih hRest hFound

/-- What stands in a well-formed tree is well-formed, and the way to it is one of names. -/
theorem WellFormed.of_get? {t u : FileTree} {names : List Text} (h : t.WellFormed)
    (hHere : t.get? names = some u) : (∀ n ∈ names, Path.IsName n) ∧ u.WellFormed := by
  induction names generalizing t with
  | nil =>
    cases t <;> cases hHere <;> exact ⟨List.forall_mem_nil _, h⟩
  | cons n names ih =>
    cases t with
    | file d => cases hHere
    | directory es =>
      rw [get?] at hHere
      obtain ⟨v, hFound, hHere⟩ := Option.bind_eq_some_iff.mp hHere
      obtain ⟨hName, hTree⟩ := WellNamed.of_lookup h hFound
      obtain ⟨hNames, hEnd⟩ := ih hTree hHere
      exact ⟨List.forall_mem_cons.mpr ⟨hName, hNames⟩, hEnd⟩

theorem get?_file_eq_file_iff {d d' : Text} {names : List Text} :
    (file d).get? names = some (file d') ↔ names = [] ∧ d = d' := by
  cases names <;> simp [get?]

/-- A file in a directory stands in the first entry or in the others. -/
theorem get?_cons_eq_file_iff {n d : Text} {t : FileTree} {es : List (Text × FileTree)}
    {names : List Text} (hNew : es.lookup n = none) :
    (directory ((n, t) :: es)).get? names = some (file d) ↔
      (∃ ns, names = n :: ns ∧ t.get? ns = some (file d)) ∨
        (directory es).get? names = some (file d) := by
  cases names with
  | nil => simp [get?]
  | cons m ns =>
    rw [get?, get?, lookup_cons_eq]
    by_cases hSame : m = n
    · subst hSame
      simp [hNew]
    · simp [hSame]

end FileTree

namespace Path

/-- The path below `p` at the end of these names. -/
def descend (p : Text) (names : List Text) : Text := names.foldl (fun q n => join [q, n]) p

theorem place_descend {names : List Text} (h : ∀ n ∈ names, IsName n) (p : Text) :
    place (descend p names) = place p ++ names := by
  induction names generalizing p with
  | nil => exact (List.append_nil _).symm
  | cons n names ih =>
    obtain ⟨hName, hNames⟩ := List.forall_mem_cons.mp h
    calc place (descend p (n :: names)) = place (join [p, n]) ++ names := ih hNames (join [p, n])
      _ = place p ++ n :: names := by rw [place_join p hName, List.append_assoc]; rfl

end Path

namespace Workspace

open FileTree

/-- A walk enters the directories of these names. -/
def isEntered (name : Text) : Bool := !(isHidden name || isPackages name)

theorem isSource_iff {p : Text} :
    isSource p = true ↔ Text.ofString ".ts" <:+ p ∧ ¬Text.ofString ".d.ts" <:+ p := by
  rw [isSource, Bool.and_eq_true, List.isSuffixOf_iff_suffix, Bool.not_eq_true', ← Bool.not_eq_true,
    List.isSuffixOf_iff_suffix]

theorem isPackages_iff {n : Text} : isPackages n = true ↔ n = "node_modules" := decide_eq_true_iff

theorem isEntered_iff {n : Text} :
    isEntered n = true ↔ n.head? ≠ some 46 ∧ n ≠ "node_modules" := by
  simp [isEntered, isHidden, isPackages]

mutual
/-- A walk through an entry takes the sources in it, and enters the directories above them. -/
theorem mem_sourcesAt_iff {q p name : Text} {t : FileTree} (h : t.WellFormed) :
    q ∈ sourcesAt p name t ↔ ∃ names d, t.get? names = some (file d) ∧
      q = Path.descend p names ∧ isSource q = true ∧
      ∀ n ∈ (name :: names).dropLast, isEntered n = true := by
  cases t with
  | file d =>
    rw [sourcesAt]
    simp only [get?_file_eq_file_iff]
    constructor
    · intro hq
      split at hq
      · rename_i hSource
        obtain rfl := List.mem_singleton.mp hq
        exact ⟨[], d, ⟨rfl, rfl⟩, rfl, hSource, by simp⟩
      · cases hq
    · rintro ⟨_, _, ⟨rfl, rfl⟩, rfl, hSource, _⟩
      rw [if_pos hSource]
      exact List.mem_singleton_self _
  | directory es =>
    have hPassed {names : List Text} {d : Text} (hFile : (directory es).get? names = some (file d)) :
        (name :: names).dropLast = name :: names.dropLast := by
      cases names with
      | nil => cases hFile
      | cons n names => rfl
    rw [sourcesAt]
    split
    · rename_i hSkipped
      constructor
      · intro hq
        cases hq
      · rintro ⟨names, d, hFile, _, _, hEntered⟩
        have hName := hEntered name (hPassed hFile ▸ List.mem_cons_self)
        rw [isEntered, hSkipped] at hName
        cases hName
    · rename_i hName
      rw [mem_sourcesBelow_iff h]
      refine exists_congr fun names => exists_congr fun d => and_congr_right fun hFile => ?_
      rw [hPassed hFile, List.forall_mem_cons]
      simp [isEntered, hName]

/-- A walk below a directory takes the sources in its entries. -/
theorem mem_sourcesBelow_iff {q p : Text} {es : List (Text × FileTree)} (h : WellNamed es) :
    q ∈ sourcesBelow p es ↔ ∃ names d, (directory es).get? names = some (file d) ∧
      q = Path.descend p names ∧ isSource q = true ∧
      ∀ n ∈ names.dropLast, isEntered n = true := by
  cases es with
  | nil =>
    rw [sourcesBelow]
    constructor
    · intro hq
      cases hq
    · rintro ⟨names, d, hFile, _⟩
      cases names <;> cases hFile
  | cons e es =>
    obtain ⟨n, t⟩ := e
    obtain ⟨_, hNew, hTree, hRest⟩ := h
    rw [sourcesBelow, List.mem_append, mem_sourcesAt_iff hTree, mem_sourcesBelow_iff hRest]
    simp only [get?_cons_eq_file_iff hNew]
    constructor
    · rintro (⟨names, d, hFile, hPath, hSource, hEntered⟩ | ⟨names, d, hFile, hFound⟩)
      · exact ⟨n :: names, d, .inl ⟨names, rfl, hFile⟩, hPath, hSource, hEntered⟩
      · exact ⟨names, d, .inr hFile, hFound⟩
    · rintro ⟨names, d, ⟨ns, rfl, hFile⟩ | hFile, hFound⟩
      · exact .inl ⟨ns, d, hFile, hFound⟩
      · exact .inr ⟨names, d, hFile, hFound⟩
end

mutual
theorem nodup_sourcesAt {p name : Text} {t : FileTree} (h : t.WellFormed) :
    (sourcesAt p name t).Nodup := by
  cases t with
  | file d =>
    rw [sourcesAt]
    split
    · exact List.nodup_singleton p
    · exact List.nodup_nil
  | directory es =>
    rw [sourcesAt]
    split
    · exact List.nodup_nil
    · exact nodup_sourcesBelow h

/-- Different entries have their files at different places, and so under different paths. -/
theorem nodup_sourcesBelow {p : Text} {es : List (Text × FileTree)} (h : WellNamed es) :
    (sourcesBelow p es).Nodup := by
  cases es with
  | nil => exact List.nodup_nil
  | cons e es =>
    obtain ⟨n, t⟩ := e
    obtain ⟨hName, hNew, hTree, hRest⟩ := h
    rw [sourcesBelow]
    refine List.Nodup.append (nodup_sourcesAt hTree) (nodup_sourcesBelow hRest) fun q hFirst hOther => ?_
    obtain ⟨ns, d, hFile, rfl, _⟩ := (mem_sourcesAt_iff hTree).mp hFirst
    obtain ⟨ms, d', hFile', hPath, _⟩ := (mem_sourcesBelow_iff hRest).mp hOther
    obtain ⟨hNs, _⟩ := hTree.of_get? hFile
    obtain ⟨hMs, _⟩ := WellFormed.of_get? (t := directory es) hRest hFile'
    have hPlaces := congrArg Path.place hPath
    rw [Path.place_descend hNs, Path.place_descend hMs, Path.place_join p hName,
      List.append_assoc] at hPlaces
    obtain rfl : n :: ns = ms := List.append_cancel_left hPlaces
    rw [get?, hNew] at hFile'
    cases hFile'
end

/-- Different texts in order. -/
theorem pairwise_mergeSort_of_nodup {ps : List Text} (h : ps.Nodup) :
    (ps.mergeSort fun a b => decide (a ≤ b)).Pairwise (· < ·) := by
  have hTrans (a b c : Text) (hab : decide (a ≤ b) = true) (hbc : decide (b ≤ c) = true) :
      decide (a ≤ c) = true :=
    decide_eq_true (List.le_trans (of_decide_eq_true hab) (of_decide_eq_true hbc))
  have hTotal (a b : Text) : (decide (a ≤ b) || decide (b ≤ a)) = true := by
    simpa using List.le_total a b
  have hSorted := List.pairwise_mergeSort hTrans hTotal ps
  have hNodup := (List.mergeSort_perm ps fun a b => decide (a ≤ b)).nodup_iff.mpr h
  refine (hSorted.and hNodup).imp ?_
  rintro a b ⟨hLe, hNe⟩
  exact Std.lt_of_le_of_ne (of_decide_eq_true hLe) hNe

/-- The sources are found in ascending order, each of them once: the files below the programs directory
with ending `.ts` and not `.d.ts` and no hidden directory or directory of packages on the way to them.
The one exception is a programs directory that is itself named like a directory of packages; there
nothing is found. -/
theorem discover_finds {c : Config} {t : FileTree} {es : List (Text × FileTree)} (h : t.WellFormed)
    (hDir : t.find (path c c.workspace.programsDir) = .ok (.directory es)) :
    ∃ ps, discover c t = .ok ps ∧ ps.Pairwise (· < ·) ∧ ∀ p, p ∈ ps ↔
      Path.base (path c c.workspace.programsDir) ≠ "node_modules" ∧
      ∃ names d, t.get? (Path.place (path c c.workspace.programsDir) ++ names) = some (.file d) ∧
        p = Path.descend (path c c.workspace.programsDir) names ∧
        (Text.ofString ".ts" <:+ p ∧ ¬Text.ofString ".d.ts" <:+ p) ∧
        ∀ n ∈ names.dropLast, n.head? ≠ some 46 ∧ n ≠ "node_modules" := by
  have hHere := get?_of_find hDir
  obtain ⟨_, hTree⟩ := h.of_get? hHere
  simp only [get?_append, hHere, Option.bind_some]
  rw [discover]
  simp only [hDir]
  generalize path c c.workspace.programsDir = dir
  refine ⟨_, rfl, ?_, fun p => ?_⟩
  · refine pairwise_mergeSort_of_nodup ?_
    rw [sourcesOf]
    split
    · exact List.nodup_nil
    · exact nodup_sourcesBelow hTree
  · rw [List.mem_mergeSort, sourcesOf]
    by_cases hPackages : Path.base dir = "node_modules"
    · rw [if_pos (isPackages_iff.mpr hPackages)]
      simp [hPackages]
    · rw [if_neg (mt isPackages_iff.mp hPackages), mem_sourcesBelow_iff hTree]
      simp only [isSource_iff, isEntered_iff, ne_eq, hPackages, not_false_eq_true, true_and]

/-- A source in a programs directory that is named like installed packages. -/
def packagesTree : FileTree :=
  .directory [("node_modules", .directory [("p.ts", .file [])])]

def packagesConfig : Config := { workspace := { programsDir := "node_modules" } }

/-- Sources among declarations, a hidden directory and installed packages. -/
def nestedTree : FileTree :=
  .directory [("src", .directory [(".old", .directory [("p.ts", .file [])]),
    ("lib", .directory [("a.js", .file []), ("a.ts", .file []),
      ("node_modules", .directory [("p.ts", .file [])])]),
    ("p.d.ts", .file []), ("p.ts", .file [])])]

def nestedConfig : Config := { workspace := { programsDir := "src" } }

theorem wellFormed_nestedTree : nestedTree.WellFormed := by
  have hNames : ∀ n ∈ (["src", ".old", "p.ts", "lib", "a.js", "a.ts", "node_modules", "p.d.ts"] :
      List Text), Path.IsName n := by
    unfold Path.IsName
    decide
  simp only [List.forall_mem_cons] at hNames
  obtain ⟨hSrc, hOld, hSource, hLib, hScript, hOther, hPackages, hDeclarations, _⟩ := hNames
  have hOne : WellNamed [("p.ts", .file [])] := ⟨hSource, rfl, trivial, trivial⟩
  exact ⟨hSrc, rfl, ⟨hOld, rfl, hOne, hLib, rfl,
    ⟨hScript, rfl, trivial, hOther, rfl, trivial, hPackages, rfl, hOne, trivial⟩,
    hDeclarations, rfl, trivial, hOne⟩, trivial⟩

/-- The two sources that count are found. Where the programs directory is named like installed packages
there is a source too, and none is found. -/
theorem discover_finds_packages :
    (∃ ps, discover nestedConfig nestedTree = .ok ps ∧ ps.Pairwise (· < ·) ∧
      ps = [Text.ofString "src/lib/a.ts", Text.ofString "src/p.ts"]) ∧
    packagesTree.WellFormed ∧
    packagesTree.get? [Text.ofString "node_modules", Text.ofString "p.ts"] = some (.file []) ∧
    ∃ ps, discover packagesConfig packagesTree = .ok ps ∧ ∀ p, p ∉ ps := by
  constructor
  · obtain ⟨ps, hFound, hAscending, _⟩ := discover_finds (c := nestedConfig) wellFormed_nestedTree rfl
    refine ⟨ps, hFound, hAscending, ?_⟩
    have hFind : nestedTree.find (path nestedConfig nestedConfig.workspace.programsDir) = .ok _ := rfl
    rw [discover, hFind] at hFound
    refine (Except.ok.inj hFound).symm.trans (List.mergeSort_of_pairwise ?_)
    decide
  have hSource : Path.IsName "p.ts" := ⟨by decide, by decide, by decide, by decide⟩
  have hTop : Path.IsName "node_modules" := ⟨by decide, by decide, by decide, by decide⟩
  have hTree : packagesTree.WellFormed := ⟨hTop, rfl, ⟨hSource, rfl, trivial, trivial⟩, trivial⟩
  have hDir : packagesTree.find (path packagesConfig packagesConfig.workspace.programsDir) =
      .ok (.directory [("p.ts", .file [])]) := rfl
  obtain ⟨ps, hFound, _, hIff⟩ := discover_finds hTree hDir
  exact ⟨hTree, rfl, ps, hFound, fun p hp => ((hIff p).mp hp).1 (by decide)⟩

end Workspace

end AnchorScript
