import GatoCore.Stdlib.PathFacts

/-!
# The canonical form of a path

Source: `simplifyPath` of `stdlib/ptstdlib.js`.

A path is read here component by component, with no normal form in between: from a starting
directory a name descends and `..` goes back. `simplifyPath` keeps the directory a path leads to,
and what it writes has no component that could be left out.
-/

namespace GatoCore.Stdlib

open GatoCore.Lib

/-! ## Reading a path component by component -/

/-- A directory: its drive, which is empty where there are no drives, and the names down to it. -/
@[ext]
structure Directory where
  drive : Text
  names : List Text
deriving DecidableEq

/-- One component; the parent of the root is the root. -/
def enter (names : List Text) (part : Text) : List Text :=
  if part = [] ∨ part = dot then names
  else if part = dotDot then names.dropLast
  else names ++ [part]

/-- Where a path leads from a directory. -/
def follow (start : Directory) (path : Text) : Directory :=
  let text := normalizePath path
  if hasDrive text then ⟨text.take 2, ((text.drop 2).splitOn '/').foldl enter []⟩
  else if text.head? = some '/' then ⟨start.drive, (text.splitOn '/').foldl enter []⟩
  else ⟨start.drive, (text.splitOn '/').foldl enter start.names⟩

theorem enter_eq (names : List Text) (part : Text) :
    enter names part = (⟨0, names⟩ * partWalk part : RelPath Text).names := by
  unfold enter
  split
  · rename_i h
    rw [partWalk_eq_one h, mul_one]
  · rename_i h
    split
    · rename_i hdd
      rw [hdd, partWalk_dotDot, RelPath.mul_names, List.append_nil, List.dropLast_eq_take]
    · rename_i hdd
      rw [partWalk_name h hdd]
      simp [RelPath.mul_names]

theorem foldl_enter (parts : List Text) : ∀ names : List Text,
    parts.foldl enter names = (⟨0, names⟩ * (parts.map partWalk).prod : RelPath Text).names := by
  induction parts with
  | nil =>
      intro names
      simp
  | cons part parts ih =>
      intro names
      rw [List.foldl_cons, ih, enter_eq, List.map_cons, List.prod_cons, ← mul_assoc]
      exact names_mul_congr rfl _

theorem foldl_enter_splitOn (text : Text) (names : List Text) :
    (text.splitOn '/').foldl enter names = (⟨0, names⟩ * walk text : RelPath Text).names := by
  rw [foldl_enter, ← reduce_filterMap_pathStep]
  rfl

theorem foldl_enter_nil (text : Text) : (text.splitOn '/').foldl enter [] = (walk text).names := by
  rw [foldl_enter_splitOn]
  simp [RelPath.mul_names]

/-! ## The three kinds of paths -/

variable {path : Text}

theorem follow_rooted (h : Rooted path) (start : Directory) :
    follow start path = ⟨start.drive, (walk (normalizePath path)).names⟩ := by
  have hhead : (normalizePath path).head? = some '/' := h
  simp [follow, not_hasDrive_of_rooted h, hhead, foldl_enter_nil]

theorem follow_drive (h : hasDrive (normalizePath path) = true) (start : Directory) :
    follow start path =
      ⟨(normalizePath path).take 2, (walk ((normalizePath path).drop 2)).names⟩ := by
  simp [follow, h, foldl_enter_nil]

theorem follow_relative (h : isAbsolutePath path = false) (start : Directory) :
    follow start path =
      ⟨start.drive, (⟨0, start.names⟩ * walk (normalizePath path) : RelPath Text).names⟩ := by
  rw [isAbsolutePath, Bool.or_eq_false_iff] at h
  have hhead : ¬(normalizePath path).head? = some '/' := by simpa using h.1
  simp [follow, h.2, hhead, foldl_enter_splitOn]

/-! ## The components of a path -/

/-- What follows the drive and the slash of an absolute path. -/
def belowRoot (text : Text) : Text :=
  if hasDrive text then text.drop 3
  else if text.head? = some '/' then text.drop 1
  else text

/-- The components of a path; a root and the empty path have none. -/
def components (path : Text) : List Text :=
  if belowRoot (normalizePath path) = [] then []
  else (belowRoot (normalizePath path)).splitOn '/'

theorem components_of_written {parts : List Text}
    (h : belowRoot (normalizePath path) = ['/'].intercalate parts)
    (hparts : ∀ part ∈ parts, part ≠ [] ∧ '/' ∉ part) : components path = parts := by
  rw [components, h]
  cases parts with
  | nil => rfl
  | cons part parts =>
      have hne : ['/'].intercalate (part :: parts) ≠ [] := by
        have hpart := (hparts part List.mem_cons_self).1
        cases parts with
        | nil => simpa using hpart
        | cons q parts => simp [List.intercalate_cons_cons, hpart]
      rw [if_neg hne]
      exact List.splitOn_intercalate '/' (fun q hq => (hparts q hq).2) (by simp)

theorem walkParts_ne {p : RelPath Text} (hp : ∀ n ∈ p.names, PlainName n) :
    ∀ part ∈ walkParts p, part ≠ [] ∧ part ≠ dot := by
  intro part hpart
  rcases List.mem_append.mp hpart with h | h
  · rw [List.eq_of_mem_replicate h]
    decide
  · exact ⟨(hp part h).ne_nil, (hp part h).ne_dot⟩

/-- A path that keeps its only letter and colon in front stays relative. -/
theorem not_hasDrive_walkText (habs : isAbsolutePath path = false)
    (hdn : ∀ part ∈ ((normalizePath path).splitOn '/').tail, ¬DriveName part) :
    hasDrive (walkText (walk (normalizePath path))) = false := by
  rw [isAbsolutePath, Bool.or_eq_false_iff] at habs
  rw [Bool.eq_false_iff]
  intro hdrive
  obtain ⟨c, names, hc, hwalk, hne⟩ := walkText_of_hasDrive (fun n => plainName_of_walk) hdrive
  have hmem : [c, ':'] ∈ (normalizePath path).splitOn '/' :=
    (mem_splitOn_of_walk (by rw [hwalk]; exact List.mem_cons_self)).1
  cases hsplit : (normalizePath path).splitOn '/' with
  | nil => exact List.splitOn_ne_nil _ _ hsplit
  | cons first rest =>
      rw [hsplit] at hmem hdn
      rcases List.mem_cons.mp hmem with rfl | hmem
      · have htext : ['/'].intercalate ([c, ':'] :: rest) = normalizePath path := by
          rw [← hsplit, List.intercalate_splitOn]
        cases rest with
        | nil =>
            -- the text is `C:` alone, and its walk has one name only
            have hdrive' : DriveName (normalizePath path) := ⟨c, hc, by simpa using htext.symm⟩
            rw [walk_driveName hdrive', RelPath.mk.injEq] at hwalk
            simp only [List.cons.injEq] at hwalk
            exact hne hwalk.2.2.symm
        | cons q rest =>
            rw [List.intercalate_cons_cons] at htext
            have hfull : hasDrive (normalizePath path) = true :=
              hasDrive_iff.mpr ⟨c, _, hc, htext.symm⟩
            rw [habs.2] at hfull
            cases hfull
      · exact hdn _ hmem ⟨c, hc, rfl⟩

/-! ## The canonical form -/

/-- `result` is a canonical form of `path`. -/
structure CanonicalForm (path result : Text) : Prop where
  noEmpty : ∀ part ∈ components result, part ≠ [] ∧ part ≠ dot
  noParents : isAbsolutePath path = true → dotDot ∉ components result
  parentsFirst : isAbsolutePath path = false →
    ∃ n names, components result = List.replicate n dotDot ++ names ∧ dotDot ∉ names
  absolute : isAbsolutePath result = isAbsolutePath path
  samePlace : ∀ start, follow start result = follow start path

theorem dotDot_not_mem_walk (text : Text) : dotDot ∉ (walk text).names :=
  fun h => (plainName_of_walk h).ne_dotDot rfl

theorem canonicalForm_rooted (h : Rooted path) : CanonicalForm path (simplifyPath path) := by
  have hplain : ∀ n ∈ (walk (normalizePath path)).names, PlainName n := fun n => plainName_of_walk
  have hnorm := (simplified_simplifyPath path).normalizePath_eq
  have habs : isAbsolutePath path = true := isAbsolutePath_iff.mpr (.inl h)
  have hroot : Rooted (simplifyPath path) := by
    rw [Rooted, hnorm, simplifyPath_rooted h]
    rfl
  have hcomp : components (simplifyPath path) = (walk (normalizePath path)).names := by
    refine components_of_written ?_ fun n hn => ⟨(hplain n hn).ne_nil, (hplain n hn).no_slash⟩
    have hd := not_hasDrive_of_rooted hroot
    rw [hnorm] at hd ⊢
    rw [belowRoot, hd, if_neg Bool.false_ne_true, simplifyPath_rooted h]
    rfl
  constructor
  · rw [hcomp]
    exact fun n hn => ⟨(hplain n hn).ne_nil, (hplain n hn).ne_dot⟩
  · intro _
    rw [hcomp]
    exact dotDot_not_mem_walk _
  · intro hrel
    rw [habs] at hrel
    cases hrel
  · rw [habs, isAbsolutePath_simplifyPath habs]
  · intro start
    rw [follow_rooted hroot, follow_rooted h, hnorm, simplifyPath_rooted h, walk_cons_slash,
      walk_intercalate hplain]

theorem canonicalForm_drive (h : hasDrive (normalizePath path) = true) :
    CanonicalForm path (simplifyPath path) := by
  have hplain : ∀ n ∈ (walk ((normalizePath path).drop 2)).names, PlainName n :=
    fun n => plainName_of_walk
  have hnorm := (simplified_simplifyPath path).normalizePath_eq
  have habs : isAbsolutePath path = true := isAbsolutePath_iff.mpr (.inr h)
  obtain ⟨c, rest, hc, htext⟩ := hasDrive_iff.mp h
  have hresult : simplifyPath path =
      c :: ':' :: '/' :: ['/'].intercalate (walk ((normalizePath path).drop 2)).names := by
    rw [simplifyPath_drive h, htext]
    rfl
  have hdrive : hasDrive (simplifyPath path) = true :=
    hasDrive_iff.mpr ⟨c, _, hc, hresult⟩
  have hcomp : components (simplifyPath path) = (walk ((normalizePath path).drop 2)).names := by
    refine components_of_written ?_ fun n hn => ⟨(hplain n hn).ne_nil, (hplain n hn).no_slash⟩
    rw [hnorm, belowRoot, if_pos hdrive, hresult]
    rfl
  constructor
  · rw [hcomp]
    exact fun n hn => ⟨(hplain n hn).ne_nil, (hplain n hn).ne_dot⟩
  · intro _
    rw [hcomp]
    exact dotDot_not_mem_walk _
  · intro hrel
    rw [habs] at hrel
    cases hrel
  · rw [habs, isAbsolutePath_simplifyPath habs]
  · intro start
    have hdrive' : hasDrive (normalizePath (simplifyPath path)) = true := by
      rw [hnorm]
      exact hdrive
    rw [follow_drive h, follow_drive hdrive', hnorm]
    ext1
    · show (simplifyPath path).take 2 = (normalizePath path).take 2
      rw [hresult, htext]
      rfl
    · show (walk ((simplifyPath path).drop 2)).names = (walk ((normalizePath path).drop 2)).names
      rw [hresult]
      show (walk ('/' :: ['/'].intercalate (walk ((normalizePath path).drop 2)).names)).names = _
      rw [walk_cons_slash, walk_intercalate hplain]

theorem canonicalForm_relative (habs : isAbsolutePath path = false)
    (hdn : ∀ part ∈ ((normalizePath path).splitOn '/').tail, ¬DriveName part) :
    CanonicalForm path (simplifyPath path) := by
  have hplain : ∀ n ∈ (walk (normalizePath path)).names, PlainName n := fun n => plainName_of_walk
  have hnorm := (simplified_simplifyPath path).normalizePath_eq
  have hresult := simplifyPath_relative habs
  have hd := not_hasDrive_walkText habs hdn
  have hroot := not_rooted_walkText hplain
  have hrel : isAbsolutePath (simplifyPath path) = false := by
    rw [isAbsolutePath, hnorm, hresult, hd, Bool.or_false]
    exact decide_eq_false hroot
  have hcomp : components (simplifyPath path) = walkParts (walk (normalizePath path)) := by
    refine components_of_written ?_ fun part hpart =>
      ⟨(walkParts_ne hplain part hpart).1, slash_not_mem_walkParts hplain part hpart⟩
    rw [hnorm, hresult, belowRoot, hd, if_neg Bool.false_ne_true, if_neg hroot]
    rfl
  constructor
  · rw [hcomp]
    exact walkParts_ne hplain
  · intro h
    rw [habs] at h
    cases h
  · intro _
    exact ⟨_, _, hcomp, dotDot_not_mem_walk _⟩
  · rw [habs, hrel]
  · intro start
    rw [follow_relative hrel, follow_relative habs, hnorm, hresult, walk_walkText hplain]

/-- A path without letter-colon components below the first one has a canonical form, which
`simplifyPath` finds and keeps. -/
theorem simplifyPath_canonical (path : Text)
    (hdn : ∀ part ∈ ((normalizePath path).splitOn '/').tail, ¬DriveName part) :
    CanonicalForm path (simplifyPath path) ∧
      simplifyPath (simplifyPath path) = simplifyPath path := by
  refine ⟨?_, (simplified_simplifyPath path).simplifyPath_eq⟩
  by_cases hroot : Rooted path
  · exact canonicalForm_rooted hroot
  · by_cases hdrive : hasDrive (normalizePath path) = true
    · exact canonicalForm_drive hdrive
    · apply canonicalForm_relative _ hdn
      rw [Bool.eq_false_iff, Ne, isAbsolutePath_iff, not_or]
      exact ⟨hroot, hdrive⟩

theorem simplifyPath_canonical_climbing :
    CanonicalForm ['C', ':', '\\', 'a', '/', '.', '.', '/', '.', '.', '/', 'b', '/', '/']
        ['C', ':', '/', 'b'] ∧
      simplifyPath ['C', ':', '/', 'b'] = ['C', ':', '/', 'b'] :=
  simplifyPath_canonical
    ['C', ':', '\\', 'a', '/', '.', '.', '/', '.', '.', '/', 'b', '/', '/'] (by decide +kernel)

end GatoCore.Stdlib
