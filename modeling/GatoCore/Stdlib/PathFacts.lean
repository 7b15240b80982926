import GatoCore.Lib.Lists
import GatoCore.Stdlib.Paths

/-!
# What the path functions compute

`simplifyPath` writes the walk of its argument without detours, `joinPath` walks its arguments one
after the other, and so `resolveHostPath` is a product of walks.
-/

namespace GatoCore.Stdlib

open GatoCore.Lib

/-! ## Separators -/

theorem mem_intercalate {c d : Char} : ∀ {parts : List Text},
    d ∈ [c].intercalate parts → d = c ∨ ∃ part ∈ parts, d ∈ part
  | [], h => by simp at h
  | [part], h => .inr ⟨part, by simp, by simpa using h⟩
  | part :: next :: parts, h => by
      rw [List.intercalate_cons_cons, List.mem_append, List.mem_append] at h
      rcases h with (h | h) | h
      · exact .inr ⟨part, by simp, h⟩
      · exact .inl (by simpa using h)
      · rcases mem_intercalate h with h | ⟨q, hq, hd⟩
        · exact .inl h
        · exact .inr ⟨q, List.mem_cons_of_mem _ hq, hd⟩

theorem pathSteps_append (a b : Text) :
    pathSteps (a ++ '/' :: b) = pathSteps a ++ pathSteps b := by
  rw [pathSteps, List.splitOn_append_cons_self, List.filterMap_append]
  rfl

theorem walk_append (a b : Text) : walk (a ++ '/' :: b) = walk a * walk b := by
  rw [walk, pathSteps_append, RelPath.reduce_append]
  rfl

@[simp] theorem walk_nil : walk [] = 1 := rfl

@[simp] theorem walk_dot : walk dot = 1 := rfl

theorem walk_cons_slash (b : Text) : walk ('/' :: b) = walk b := by
  have h := walk_append [] b
  rwa [walk_nil, one_mul] at h

/-- A slash at the end of the first text is not doubled. -/
theorem walk_append_of_getLast {a : Text} (h : a.getLast? = some '/') (b : Text) :
    walk (a ++ b) = walk a * walk b := by
  obtain ⟨a, rfl⟩ := List.getLast?_eq_some_iff.mp h
  rw [List.append_assoc, List.singleton_append, walk_append, walk_append a [], walk_nil, mul_one]

/-! ## Names -/

/-- A component that is a name. -/
structure PlainName (name : Text) : Prop where
  ne_nil : name ≠ []
  ne_dot : name ≠ dot
  ne_dotDot : name ≠ dotDot
  no_slash : '/' ∉ name

theorem PlainName.pathStep {name : Text} (h : PlainName name) :
    pathStep name = some (.name name) := by
  simp [Stdlib.pathStep, h.ne_nil, h.ne_dot, h.ne_dotDot]

theorem plainName_of_pathStep {part name : Text} (hslash : '/' ∉ part)
    (h : pathStep part = some (.name name)) : part = name ∧ PlainName name := by
  unfold pathStep at h
  split at h
  · cases h
  · rename_i hne
    split at h
    · cases h
    · rename_i hdd
      cases h
      rw [not_or] at hne
      exact ⟨rfl, hne.1, hne.2, hdd, hslash⟩

theorem mem_splitOn_of_walk {text name : Text} (h : name ∈ (walk text).names) :
    name ∈ text.splitOn '/' ∧ PlainName name := by
  obtain ⟨part, hpart, hstep⟩ := List.mem_filterMap.mp (RelPath.mem_names_reduce h)
  obtain ⟨rfl, hplain⟩ := plainName_of_pathStep (mem_splitOn hpart).1 hstep
  exact ⟨hpart, hplain⟩

theorem plainName_of_walk {text name : Text} (h : name ∈ (walk text).names) : PlainName name :=
  (mem_splitOn_of_walk h).2

/-! ## Writing a walk -/

/-- The components of a walk. -/
def walkParts (p : RelPath Text) : List Text := List.replicate p.ups dotDot ++ p.names

/-- The text of a walk. -/
def walkText (p : RelPath Text) : Text := ['/'].intercalate (walkParts p)

theorem slash_not_mem_walkParts {p : RelPath Text} (hp : ∀ n ∈ p.names, PlainName n) :
    ∀ part ∈ walkParts p, '/' ∉ part := by
  intro part hpart
  rcases List.mem_append.mp hpart with h | h
  · rw [List.eq_of_mem_replicate h]
    decide
  · exact (hp part h).no_slash

theorem filterMap_walkParts {p : RelPath Text} (hp : ∀ n ∈ p.names, PlainName n) :
    (walkParts p).filterMap pathStep = p.steps := by
  have hups : (List.replicate p.ups dotDot).filterMap pathStep = List.replicate p.ups .up :=
    List.filterMap_replicate_of_some rfl
  rw [walkParts, List.filterMap_append, hups, RelPath.steps]
  congr 1
  rw [← List.filterMap_eq_map]
  exact List.filterMap_congr fun n hn => (hp n hn).pathStep

theorem walkParts_eq_nil {p : RelPath Text} : walkParts p = [] ↔ p = 1 := by
  constructor
  · intro h
    obtain ⟨hups, hnames⟩ := List.append_eq_nil_iff.mp h
    ext1
    · simpa using hups
    · exact hnames
  · rintro rfl
    rfl

/-- The walk of a written walk. -/
theorem walk_walkText {p : RelPath Text} (hp : ∀ n ∈ p.names, PlainName n) :
    walk (walkText p) = p := by
  by_cases hnil : walkParts p = []
  · rw [walkParts_eq_nil.mp hnil]
    rfl
  · rw [walk, pathSteps, walkText, List.splitOn_intercalate '/' (slash_not_mem_walkParts hp) hnil,
      filterMap_walkParts hp, RelPath.reduce_steps]

theorem walkText_injective {p q : RelPath Text} (hp : ∀ n ∈ p.names, PlainName n)
    (hq : ∀ n ∈ q.names, PlainName n) (h : walkText p = walkText q) : p = q := by
  rw [← walk_walkText hp, h, walk_walkText hq]

/-! ## `simplifyPath` -/

/-- The walk of one component. -/
def partWalk (part : Text) : RelPath Text := ((pathStep part).map RelPath.ofStep).getD 1

theorem partWalk_eq_one {part : Text} (h : part = [] ∨ part = dot) : partWalk part = 1 := by
  simp [partWalk, pathStep, h]

theorem partWalk_dotDot : partWalk dotDot = ⟨1, []⟩ := rfl

theorem partWalk_name {part : Text} (h : ¬(part = [] ∨ part = dot)) (h' : part ≠ dotDot) :
    partWalk part = ⟨0, [part]⟩ := by
  simp [partWalk, pathStep, h, h', RelPath.ofStep]

theorem reduce_filterMap_pathStep (parts : List Text) :
    RelPath.reduce (parts.filterMap pathStep) = (parts.map partWalk).prod := by
  induction parts with
  | nil => rfl
  | cons part parts ih =>
      rw [List.map_cons, List.prod_cons, ← ih, partWalk]
      cases h : pathStep part <;> simp [h]

theorem getLast?_walkParts (p : RelPath Text) (n : Text) :
    (walkParts ⟨p.ups, p.names ++ [n]⟩).getLast? = some n := by
  simp [walkParts, ← List.append_assoc]

theorem simplifyPart_relative {p : RelPath Text} (hp : dotDot ∉ p.names) (part : Text) :
    simplifyPart false (walkParts p) part = walkParts (p * partWalk part) := by
  unfold simplifyPart
  split
  · rename_i h
    rw [partWalk_eq_one h, mul_one]
  · rename_i h
    split
    · rename_i hdd
      rw [hdd, partWalk_dotDot]
      obtain ⟨ups, names⟩ := p
      -- `..` removes the last name, or climbs when there is none
      rcases List.eq_nil_or_concat names with rfl | ⟨names, n, rfl⟩
      · have hlast :
          ¬(walkParts ⟨ups, []⟩ ≠ [] ∧ (walkParts ⟨ups, []⟩).getLast? ≠ some dotDot) := by
          rintro ⟨hne, hlast⟩
          cases ups with
          | zero => exact hne rfl
          | succ ups =>
              apply hlast
              simp [walkParts, List.getLast?_replicate]
        rw [if_neg hlast]
        simp [walkParts, RelPath.mul_ups, RelPath.mul_names, List.replicate_succ']
      · have hn : n ≠ dotDot := by
          rintro rfl
          exact hp (by simp)
        have hlast := getLast?_walkParts ⟨ups, names⟩ n
        have hne : walkParts ⟨ups, names ++ [n]⟩ ≠ [] := by simp [walkParts]
        rw [List.concat_eq_append, if_pos ⟨hne, by rw [hlast]; simpa using hn⟩]
        simp [walkParts, RelPath.mul_ups, RelPath.mul_names, ← List.append_assoc]
    · rename_i hdd
      rw [partWalk_name h hdd]
      simp [walkParts, RelPath.mul_ups, RelPath.mul_names]

theorem simplifyPart_absolute {names : List Text} (hp : dotDot ∉ names) (part : Text) :
    simplifyPart true names part = (⟨0, names⟩ * partWalk part : RelPath Text).names := by
  unfold simplifyPart
  split
  · rename_i h
    rw [partWalk_eq_one h, mul_one]
  · rename_i h
    split
    · rename_i hdd
      rw [hdd, partWalk_dotDot]
      rcases List.eq_nil_or_concat names with rfl | ⟨names, n, rfl⟩
      · rfl
      · have hn : n ≠ dotDot := by
          rintro rfl
          exact hp (by simp)
        rw [List.concat_eq_append, if_pos ⟨by simp, by simpa using hn⟩]
        simp [RelPath.mul_names]
    · rename_i hdd
      rw [partWalk_name h hdd]
      simp [RelPath.mul_names]

theorem dotDot_not_mem_mul {p : RelPath Text} (hp : dotDot ∉ p.names) (part : Text) :
    dotDot ∉ (p * partWalk part).names := by
  intro h
  rcases RelPath.mem_names_mul h with h | h
  · exact hp h
  · by_cases hskip : part = [] ∨ part = dot
    · simp [partWalk_eq_one hskip] at h
    · by_cases hdd : part = dotDot
      · simp [hdd, partWalk_dotDot] at h
      · rw [partWalk_name hskip hdd, List.mem_singleton] at h
        exact hdd h.symm

/-- The loop of `simplifyPath` on a relative path. -/
theorem foldl_simplifyPart_relative (parts : List Text) :
    ∀ {p : RelPath Text}, dotDot ∉ p.names →
      parts.foldl (simplifyPart false) (walkParts p) =
          walkParts (p * (parts.map partWalk).prod) := by
  induction parts with
  | nil =>
      intro p _
      simp
  | cons part parts ih =>
      intro p hp
      rw [List.foldl_cons, simplifyPart_relative hp, ih (dotDot_not_mem_mul hp part), List.map_cons,
        List.prod_cons, mul_assoc]

/-- Names below the root lose the steps up that lead above it. -/
theorem names_mul_congr {p q : RelPath Text} (h : p.names = q.names) (r : RelPath Text) :
    (p * r).names = (q * r).names := by
  rw [RelPath.mul_names, RelPath.mul_names, h]

/-- The loop of `simplifyPath` on an absolute path. -/
theorem foldl_simplifyPart_absolute (parts : List Text) :
    ∀ {p : RelPath Text}, dotDot ∉ p.names →
      parts.foldl (simplifyPart true) p.names = (p * (parts.map partWalk).prod).names := by
  induction parts with
  | nil =>
      intro p _
      simp
  | cons part parts ih =>
      intro p hp
      rw [List.foldl_cons, simplifyPart_absolute hp,
        names_mul_congr (q := p) (p := ⟨0, p.names⟩) rfl, ih (dotDot_not_mem_mul hp part),
        List.map_cons, List.prod_cons, mul_assoc]

theorem foldl_splitOn_relative (text : Text) :
    (text.splitOn '/').foldl (simplifyPart false) [] = walkParts (walk text) := by
  have h := foldl_simplifyPart_relative (text.splitOn '/') (p := 1) (by simp)
  rwa [one_mul, ← reduce_filterMap_pathStep] at h

theorem foldl_splitOn_absolute (text : Text) :
    (text.splitOn '/').foldl (simplifyPart true) [] = (walk text).names := by
  have h := foldl_simplifyPart_absolute (text.splitOn '/') (p := 1) (by simp)
  rwa [one_mul, ← reduce_filterMap_pathStep] at h

/-! ## Backslashes -/

theorem backslash_not_mem_normalizePath (path : Text) : '\\' ∉ normalizePath path := by
  intro h
  obtain ⟨c, _, hc⟩ := List.mem_map.mp h
  split at hc
  · exact absurd hc (by decide)
  · rename_i hne
    exact hne hc

theorem normalizePath_of_not_mem {path : Text} (h : '\\' ∉ path) : normalizePath path = path := by
  refine (List.map_congr_left fun c hc => if_neg ?_).trans (List.map_id path)
  rintro rfl
  exact h hc

@[simp] theorem normalizePath_normalizePath (path : Text) :
    normalizePath (normalizePath path) = normalizePath path :=
  normalizePath_of_not_mem (backslash_not_mem_normalizePath path)

theorem normalizePath_eq_nil {path : Text} : normalizePath path = [] ↔ path = [] :=
  List.map_eq_nil_iff

@[simp] theorem isAbsolutePath_normalizePath (path : Text) :
    isAbsolutePath (normalizePath path) = isAbsolutePath path := by
  simp [isAbsolutePath]

/-! ## The three kinds of paths -/

/-- A path that begins with a slash, as the standard library reads it. -/
def Rooted (path : Text) : Prop := (normalizePath path).head? = some '/'

instance (path : Text) : Decidable (Rooted path) :=
  inferInstanceAs (Decidable ((normalizePath path).head? = some '/'))

theorem not_hasDrive_of_rooted {path : Text} (h : Rooted path) :
    hasDrive (normalizePath path) = false := by
  unfold Rooted at h
  cases hpath : normalizePath path with
  | nil => rfl
  | cons c rest =>
      rw [hpath] at h
      cases h
      unfold hasDrive
      split
      · rename_i heq
        cases heq
        rfl
      · rfl

theorem isAbsolutePath_iff {path : Text} :
    isAbsolutePath path = true ↔ Rooted path ∨ hasDrive (normalizePath path) = true := by
  simp [isAbsolutePath, Rooted]

theorem simplifyPath_relative {path : Text} (h : isAbsolutePath path = false) :
    simplifyPath path = walkText (walk (normalizePath path)) := by
  have hdrive : hasDrive (normalizePath path) = false := by
    rw [isAbsolutePath, Bool.or_eq_false_iff] at h
    exact h.2
  simp [simplifyPath, splitDrive, hdrive, h, foldl_splitOn_relative, walkText]

theorem simplifyPath_rooted {path : Text} (h : Rooted path) :
    simplifyPath path = '/' :: ['/'].intercalate (walk (normalizePath path)).names := by
  have habs : isAbsolutePath path = true := isAbsolutePath_iff.mpr (.inl h)
  simp [simplifyPath, splitDrive, not_hasDrive_of_rooted h, habs, foldl_splitOn_absolute]

theorem simplifyPath_drive {path : Text} (h : hasDrive (normalizePath path) = true) :
    simplifyPath path = (normalizePath path).take 2 ++
      '/' :: ['/'].intercalate (walk ((normalizePath path).drop 2)).names := by
  simp [simplifyPath, splitDrive, h, foldl_splitOn_absolute]

/-! ## `joinPath` -/

theorem walk_normalizePath_orDot (text : Text) :
    walk (normalizePath (orDot text)) = walk (normalizePath text) := by
  unfold orDot
  split
  · rename_i h
    subst h
    rfl
  · rfl

theorem normalizePath_orDot_ne_nil (text : Text) : normalizePath (orDot text) ≠ [] := by
  rw [Ne, normalizePath_eq_nil]
  unfold orDot
  split
  · simp [dot]
  · assumption

theorem isAbsolutePath_orDot (text : Text) : isAbsolutePath (orDot text) = isAbsolutePath text := by
  unfold orDot
  split
  · rename_i h
    subst h
    rfl
  · rfl

/-- How `joinPath` joins, with empty texts read as `.`. -/
inductive Joined (base part : Text) : Text → Prop
  | right (h : base = dot) : Joined base part part
  | left (h : part = dot) (hbase : base ≠ dot) : Joined base part base
  | slashed (h : base.getLast? = some '/') : Joined base part (base ++ part)
  | both : Joined base part (base ++ '/' :: part)

theorem joined_joinPath (base : Text) {part : Text} (hpart : isAbsolutePath part = false) :
    Joined (normalizePath (orDot base)) (normalizePath (orDot part)) (joinPath base part) := by
  have hb := normalizePath_orDot_ne_nil base
  have hq := normalizePath_orDot_ne_nil part
  have habs : isAbsolutePath (normalizePath (orDot part)) = false := by
    rw [isAbsolutePath_normalizePath, isAbsolutePath_orDot, hpart]
  simp only [joinPath, hb, hq, habs, false_or, Bool.false_eq_true, if_false]
  split
  · rename_i h
    exact .right h
  · rename_i h
    split
    · rename_i h'
      exact .left h' h
    · split
      · rename_i hlast
        exact .slashed hlast
      · exact .both

theorem Joined.walk_eq {base part text : Text} (h : Joined base part text) :
    walk text = walk base * walk part := by
  cases h with
  | right h => rw [h, walk_dot, one_mul]
  | left h _ => rw [h, walk_dot, mul_one]
  | slashed h => exact walk_append_of_getLast h part
  | both => exact walk_append base part

theorem walk_joinPath (base : Text) {part : Text} (hpart : isAbsolutePath part = false) :
    walk (joinPath base part) = walk (normalizePath base) * walk (normalizePath part) := by
  rw [(joined_joinPath base hpart).walk_eq, walk_normalizePath_orDot, walk_normalizePath_orDot]

/-- `joinPath` returns normalized texts. -/
theorem normalizePath_joinPath (base part : Text) :
    normalizePath (joinPath base part) = joinPath base part := by
  apply normalizePath_of_not_mem
  have hb := backslash_not_mem_normalizePath (orDot base)
  have hq := backslash_not_mem_normalizePath (orDot part)
  unfold joinPath
  dsimp only
  split_ifs <;> simp [hb, hq]

/-- A letter and a colon, which are a drive as soon as a slash follows. -/
def DriveName (text : Text) : Prop := ∃ c : Char, c.isAlpha = true ∧ text = [c, ':']

instance : (text : Text) → Decidable (DriveName text)
  | [c, d] => decidable_of_iff (c.isAlpha = true ∧ d = ':') <| by simp [DriveName, and_comm]
  | [] => isFalse <| by simp [DriveName]
  | [_] => isFalse <| by simp [DriveName]
  | _ :: _ :: _ :: _ => isFalse <| by simp [DriveName]

theorem head?_joined_of_ne {base part text : Text} (h : Joined base part text) (hne : base ≠ [])
    (hbase : base ≠ dot) : text.head? = base.head? := by
  obtain ⟨c, base, rfl⟩ := List.exists_cons_of_ne_nil hne
  cases h with
  | right h => exact absurd h hbase
  | left _ _ => rfl
  | slashed _ => rfl
  | both => rfl

theorem hasDrive_iff {text : Text} :
    hasDrive text = true ↔ ∃ c rest, c.isAlpha = true ∧ text = c :: ':' :: '/' :: rest := by
  constructor
  · intro h
    unfold hasDrive at h
    split at h
    · exact ⟨_, _, h, rfl⟩
    · cases h
  · rintro ⟨c, rest, hc, rfl⟩
    exact hc

/-- The drive of a joined path is that of its first part. -/
theorem hasDrive_joined {base part text : Text} (h : Joined base part text)
    (hpart : hasDrive part = false) (hdrive : hasDrive text = true) :
    hasDrive base = true ∨ DriveName base := by
  obtain ⟨c, rest, hc, htext⟩ := hasDrive_iff.mp hdrive
  cases h with
  | right h => exact absurd hdrive (by simp [hpart])
  | left _ _ => exact .inl hdrive
  | slashed hlast =>
      rcases base with _ | ⟨a, _ | ⟨b, _ | ⟨d, base⟩⟩⟩
      · simp at hlast
      · cases hlast
        cases htext
        exact absurd hc (by decide)
      · cases hlast
        cases htext
      · simp only [List.cons_append, List.cons.injEq] at htext
        obtain ⟨rfl, rfl, rfl, _⟩ := htext
        exact .inl hc
  | both =>
      rcases base with _ | ⟨a, _ | ⟨b, _ | ⟨d, base⟩⟩⟩
      · cases htext
        exact absurd hc (by decide)
      · cases htext
      · simp only [List.cons_append, List.nil_append, List.cons.injEq] at htext
        obtain ⟨rfl, rfl, _⟩ := htext
        exact .inr ⟨_, hc, rfl⟩
      · simp only [List.cons_append, List.cons.injEq] at htext
        obtain ⟨rfl, rfl, rfl, _⟩ := htext
        exact .inl hc

theorem hasDrive_joined_of_drive {base part text : Text} (h : Joined base part text)
    (hdrive : hasDrive base = true) : hasDrive text = true := by
  obtain ⟨c, rest, hc, rfl⟩ := hasDrive_iff.mp hdrive
  cases h with
  | right h => cases h
  | left _ _ => exact hdrive
  | slashed _ => exact hc
  | both => exact hc

/-! ## Simplified paths -/

theorem walk_mul_plain {a b : Text} : ∀ n ∈ (walk a * walk b).names, PlainName n := by
  intro n hn
  rcases RelPath.mem_names_mul hn with h | h
  · exact plainName_of_walk h
  · exact plainName_of_walk h

theorem subset_of_walk {text name : Text} (h : name ∈ (walk text).names) : name ⊆ text :=
  (mem_splitOn (mem_splitOn_of_walk h).1).2

theorem backslash_not_mem_intercalate {names : List Text} (h : ∀ n ∈ names, '\\' ∉ n) :
    '\\' ∉ ['/'].intercalate names := by
  intro hmem
  rcases mem_intercalate hmem with h' | ⟨n, hn, h'⟩
  · exact absurd h' (by decide)
  · exact h n hn h'

/-- A text without backslashes whose walk is written. -/
theorem backslash_not_mem_walkText {p : RelPath Text} (h : ∀ n ∈ p.names, '\\' ∉ n) :
    '\\' ∉ walkText p := by
  apply backslash_not_mem_intercalate
  intro n hn
  rcases List.mem_append.mp hn with hn | hn
  · rw [List.eq_of_mem_replicate hn]
    decide
  · exact h n hn

theorem backslash_not_mem_names {path name : Text} (h : name ∈ (walk (normalizePath path)).names) :
    '\\' ∉ name := fun hc => backslash_not_mem_normalizePath path (subset_of_walk h hc)

theorem walk_intercalate {names : List Text} (h : ∀ n ∈ names, PlainName n) :
    walk (['/'].intercalate names) = ⟨0, names⟩ := walk_walkText (p := ⟨0, names⟩) h

/-- A rooted path that is simplified. -/
theorem simplifyPath_rooted_names {names : List Text} (h : ∀ n ∈ names, PlainName n)
    (hb : ∀ n ∈ names, '\\' ∉ n) :
    simplifyPath ('/' :: ['/'].intercalate names) = '/' :: ['/'].intercalate names := by
  have hnorm : normalizePath ('/' :: ['/'].intercalate names) = '/' :: ['/'].intercalate names :=
    normalizePath_of_not_mem (by simp [backslash_not_mem_intercalate hb])
  have hroot : Rooted ('/' :: ['/'].intercalate names) := by simp [Rooted, hnorm]
  rw [simplifyPath_rooted hroot, hnorm, walk_cons_slash, walk_intercalate h]

/-- A path with a drive that is simplified. -/
theorem simplifyPath_drive_names {c : Char} {names : List Text} (hc : c.isAlpha = true)
    (h : ∀ n ∈ names, PlainName n) (hb : ∀ n ∈ names, '\\' ∉ n) :
    simplifyPath (c :: ':' :: '/' :: ['/'].intercalate names) =
      c :: ':' :: '/' :: ['/'].intercalate names := by
  have hcb : '\\' ≠ c := by
    rintro rfl
    exact absurd hc (by decide)
  have hnorm : normalizePath (c :: ':' :: '/' :: ['/'].intercalate names) =
      c :: ':' :: '/' :: ['/'].intercalate names :=
    normalizePath_of_not_mem (by simp [backslash_not_mem_intercalate hb, hcb])
  have hdrive : hasDrive (normalizePath (c :: ':' :: '/' :: ['/'].intercalate names)) = true := by
    rw [hnorm]
    exact hc
  rw [simplifyPath_drive hdrive, hnorm]
  simp [walk_cons_slash, walk_intercalate h]

theorem not_rooted_walkText {p : RelPath Text} (h : ∀ n ∈ p.names, PlainName n) :
    (walkText p).head? ≠ some '/' := by
  intro hhead
  cases hparts : walkParts p with
  | nil => simp [walkText, hparts] at hhead
  | cons part parts =>
      have hmem : part ∈ walkParts p := hparts ▸ List.mem_cons_self
      have hslash := slash_not_mem_walkParts h part hmem
      have hne : part ≠ [] := by
        rcases List.mem_append.mp hmem with hm | hm
        · rw [List.eq_of_mem_replicate hm]
          decide
        · exact (h part hm).ne_nil
      obtain ⟨c, part, rfl⟩ := List.exists_cons_of_ne_nil hne
      have hc : c = '/' := by
        rw [walkText, hparts] at hhead
        cases parts with
        | nil => simpa using hhead
        | cons q parts =>
            rw [List.intercalate_cons_cons] at hhead
            simpa using hhead
      exact hslash (hc ▸ List.mem_cons_self)

/-- A written walk that reads as a path with a drive begins with the name of the drive. -/
theorem walkText_of_hasDrive {p : RelPath Text} (h : ∀ n ∈ p.names, PlainName n)
    (hdrive : hasDrive (walkText p) = true) :
    ∃ c names, c.isAlpha = true ∧ p = ⟨0, [c, ':'] :: names⟩ ∧ names ≠ [] := by
  obtain ⟨c, rest, hc, htext⟩ := hasDrive_iff.mp hdrive
  have hcs : '/' ∉ [c, ':'] := by
    have : c ≠ '/' := by
      rintro rfl
      exact absurd hc (by decide)
    simp [this.symm]
  have hne : walkParts p ≠ [] := by
    intro hnil
    simp [walkText, hnil] at htext
  have hparts : walkParts p = [c, ':'] :: rest.splitOn '/' := by
    rw [← List.splitOn_intercalate '/' (slash_not_mem_walkParts h) hne, ← walkText, htext]
    exact List.splitOn_append_cons_self_of_not_mem hcs rest
  obtain ⟨ups, names⟩ := p
  cases ups with
  | succ ups =>
      rw [walkParts, List.replicate_succ, List.cons_append] at hparts
      cases hparts
  | zero =>
      have hnames : names = [c, ':'] :: rest.splitOn '/' := hparts
      exact ⟨c, _, hc, by rw [hnames], List.splitOn_ne_nil _ _⟩

theorem simplifyPath_walkText {p : RelPath Text} (h : ∀ n ∈ p.names, PlainName n)
    (hb : ∀ n ∈ p.names, '\\' ∉ n) : simplifyPath (walkText p) = walkText p := by
  have hnorm := normalizePath_of_not_mem (backslash_not_mem_walkText hb)
  by_cases hdrive : hasDrive (walkText p) = true
  · obtain ⟨c, names, hc, rfl, hne⟩ := walkText_of_hasDrive h hdrive
    obtain ⟨n, names, rfl⟩ := List.exists_cons_of_ne_nil hne
    have htext : walkText ⟨0, [c, ':'] :: n :: names⟩ =
        c :: ':' :: '/' :: ['/'].intercalate (n :: names) := by
      simp [walkText, walkParts, List.intercalate_cons_cons]
    rw [htext]
    exact simplifyPath_drive_names hc (fun m hm => h m (List.mem_cons_of_mem _ hm))
      fun m hm => hb m (List.mem_cons_of_mem _ hm)
  · have habs : isAbsolutePath (walkText p) = false := by
      rw [isAbsolutePath, hnorm]
      simp [not_rooted_walkText h, hdrive]
    rw [simplifyPath_relative habs, hnorm, walk_walkText h]

/-- The kinds of simplified paths. -/
inductive Simplified : Text → Prop
  | rooted {names : List Text} (h : ∀ n ∈ names, PlainName n) (hb : ∀ n ∈ names, '\\' ∉ n) :
      Simplified ('/' :: ['/'].intercalate names)
  | drive {c : Char} {names : List Text} (hc : c.isAlpha = true) (h : ∀ n ∈ names, PlainName n)
      (hb : ∀ n ∈ names, '\\' ∉ n) : Simplified (c :: ':' :: '/' :: ['/'].intercalate names)
  | relative {p : RelPath Text} (h : ∀ n ∈ p.names, PlainName n) (hb : ∀ n ∈ p.names, '\\' ∉ n) :
      Simplified (walkText p)

theorem simplified_simplifyPath (path : Text) : Simplified (simplifyPath path) := by
  have hplain : ∀ n ∈ (walk (normalizePath path)).names, PlainName n := fun n => plainName_of_walk
  have hb : ∀ n ∈ (walk (normalizePath path)).names, '\\' ∉ n := fun n => backslash_not_mem_names
  by_cases hroot : Rooted path
  · rw [simplifyPath_rooted hroot]
    exact .rooted hplain hb
  · by_cases hdrive : hasDrive (normalizePath path) = true
    · rw [simplifyPath_drive hdrive]
      obtain ⟨c, rest, hc, htext⟩ := hasDrive_iff.mp hdrive
      rw [htext]
      refine .drive hc (fun n => plainName_of_walk) fun n hn hmem => ?_
      have hsub : n ⊆ '/' :: rest := subset_of_walk hn
      refine backslash_not_mem_normalizePath path ?_
      rw [htext]
      exact List.mem_cons_of_mem _ (List.mem_cons_of_mem _ (hsub hmem))
    · have habs : isAbsolutePath path = false := by
        rw [Bool.eq_false_iff, Ne, isAbsolutePath_iff, not_or]
        exact ⟨hroot, hdrive⟩
      rw [simplifyPath_relative habs]
      exact .relative hplain hb

theorem Simplified.simplifyPath_eq {text : Text} (h : Simplified text) :
    simplifyPath text = text := by
  cases h with
  | rooted h hb => exact simplifyPath_rooted_names h hb
  | drive hc h hb => exact simplifyPath_drive_names hc h hb
  | relative h hb => exact simplifyPath_walkText h hb

theorem Simplified.backslash_not_mem {text : Text} (h : Simplified text) : '\\' ∉ text := by
  cases h with
  | rooted h hb => simp [backslash_not_mem_intercalate hb]
  | @drive c names hc h hb =>
      have hcb : '\\' ≠ c := by
        rintro rfl
        exact absurd hc (by decide)
      simp [backslash_not_mem_intercalate hb, hcb]
  | relative h hb => exact backslash_not_mem_walkText hb

theorem Simplified.normalizePath_eq {text : Text} (h : Simplified text) :
    normalizePath text = text := normalizePath_of_not_mem h.backslash_not_mem

/-! ## `resolveHostPath` -/

/-- The host of a script: `__pt_base_dir` is made of a C string, and it is not empty. -/
structure HasBase (host : HostDirs) (base : Text) : Prop where
  eq : host.ptBaseDir = some base
  ne_nil : base ≠ []
  no_nul : '\x00' ∉ base

section Resolve

variable {host : HostDirs} {base path : Text}

theorem HasBase.baseDir (h : HasBase host base) : baseDir host = base := by
  have hlen : base.length ≠ 0 := by simpa using h.ne_nil
  simp [Stdlib.baseDir, h.eq, hlen]

theorem orDot_of_ne_nil (h : base ≠ []) : orDot base = base := if_neg h

theorem resolveHostPath_absolute (h : isAbsolutePath path = true) :
    resolveHostPath host path = simplifyPath path := by
  simp [resolveHostPath, h]

theorem resolveHostPath_join (hbase : HasBase host base) (h : isAbsolutePath path = false) :
    resolveHostPath host path = simplifyPath (joinPath base path) := by
  simp [resolveHostPath, h, hbase.baseDir]

theorem simplified_resolveHostPath (host : HostDirs) (path : Text) :
    Simplified (resolveHostPath host path) := by
  unfold resolveHostPath
  split <;> exact simplified_simplifyPath _

theorem rooted_joinPath (hne : base ≠ []) (hbase : Rooted base)
    (h : isAbsolutePath path = false) : Rooted (joinPath base path) := by
  have hj := joined_joinPath base h
  rw [orDot_of_ne_nil hne] at hj
  have hdot : normalizePath base ≠ dot := by
    intro hdot
    unfold Rooted at hbase
    rw [hdot] at hbase
    exact absurd hbase (by decide)
  unfold Rooted at hbase ⊢
  rw [normalizePath_joinPath, head?_joined_of_ne hj (normalizePath_eq_nil.not.mpr hne) hdot, hbase]

theorem isAbsolutePath_joinPath_of_base (hne : base ≠ []) (hbase : isAbsolutePath base = true)
    (h : isAbsolutePath path = false) : isAbsolutePath (joinPath base path) = true := by
  rw [isAbsolutePath_iff, normalizePath_joinPath]
  rcases isAbsolutePath_iff.mp hbase with hroot | hdrive
  · exact .inl (rooted_joinPath hne hroot h)
  · have hj := joined_joinPath base h
    rw [orDot_of_ne_nil hne] at hj
    exact .inr (hasDrive_joined_of_drive hj hdrive)

/-- Relative paths join to a relative path. -/
theorem isAbsolutePath_joinPath_relative (hne : base ≠ []) (hbase : isAbsolutePath base = false)
    (hdn : ¬DriveName (normalizePath base)) (h : isAbsolutePath path = false) :
    isAbsolutePath (joinPath base path) = false := by
  have hj := joined_joinPath base h
  have hpart : isAbsolutePath (normalizePath (orDot path)) = false := by
    rw [isAbsolutePath_normalizePath, isAbsolutePath_orDot, h]
  rw [orDot_of_ne_nil hne] at hj
  rw [Bool.eq_false_iff, Ne, isAbsolutePath_iff, not_or] at hbase hpart ⊢
  rw [Rooted, normalizePath_normalizePath] at hpart
  rw [Rooted, normalizePath_joinPath]
  generalize joinPath base path = text at hj ⊢
  refine ⟨?_, ?_⟩
  · by_cases hdot : normalizePath base = dot
    · cases hj with
      | right _ => exact hpart.1
      | left _ h => exact absurd hdot h
      | slashed hlast =>
          rw [hdot] at hlast
          exact absurd hlast (by decide)
      | both =>
          rw [hdot]
          simp [dot]
    · rw [head?_joined_of_ne hj (normalizePath_eq_nil.not.mpr hne) hdot]
      exact hbase.1
  · intro hdrive
    rcases hasDrive_joined hj (Bool.eq_false_iff.mpr hpart.2) hdrive with h | h
    · exact hbase.2 h
    · exact hdn h

theorem resolveHostPath_join_relative (hhost : HasBase host base)
    (h : isAbsolutePath path = false) (hrel : isAbsolutePath (joinPath base path) = false) :
    resolveHostPath host path =
      walkText (walk (normalizePath base) * walk (normalizePath path)) := by
  rw [resolveHostPath_join hhost h, simplifyPath_relative hrel, normalizePath_joinPath,
    walk_joinPath base h]

theorem resolveHostPath_relative (hhost : HasBase host base) (hbase : isAbsolutePath base = false)
    (hdn : ¬DriveName (normalizePath base)) (h : isAbsolutePath path = false) :
    resolveHostPath host path =
      walkText (walk (normalizePath base) * walk (normalizePath path)) :=
  resolveHostPath_join_relative hhost h
    (isAbsolutePath_joinPath_relative hhost.ne_nil hbase hdn h)

theorem resolveHostPath_rooted (hhost : HasBase host base) (hbase : Rooted base)
    (h : isAbsolutePath path = false) :
    resolveHostPath host path =
      '/' :: ['/'].intercalate (walk (normalizePath base) * walk (normalizePath path)).names := by
  rw [resolveHostPath_join hhost h, simplifyPath_rooted (rooted_joinPath hhost.ne_nil hbase h),
    normalizePath_joinPath, walk_joinPath base h]

theorem isAbsolutePath_simplifyPath (h : isAbsolutePath path = true) :
    isAbsolutePath (simplifyPath path) = true := by
  have hnorm := (simplified_simplifyPath path).normalizePath_eq
  rw [isAbsolutePath_iff, Rooted, hnorm]
  rcases isAbsolutePath_iff.mp h with hroot | hdrive
  · left
    rw [simplifyPath_rooted hroot]
    rfl
  · right
    rw [simplifyPath_drive hdrive]
    obtain ⟨c, rest, hc, htext⟩ := hasDrive_iff.mp hdrive
    rw [htext]
    exact hc

/-- A resolved path that reads as absolute stays as it is. -/
theorem resolveHostPath_resolved (h : isAbsolutePath (resolveHostPath host path) = true) :
    resolveHostPath host (resolveHostPath host path) = resolveHostPath host path := by
  rw [resolveHostPath_absolute h, (simplified_resolveHostPath host path).simplifyPath_eq]

end Resolve

/-! ## Resolving twice -/

section Idempotent

variable {host : HostDirs} {base : Text}

theorem walk_driveName {text : Text} (h : DriveName text) : walk text = ⟨0, [text]⟩ := by
  obtain ⟨c, hc, rfl⟩ := h
  have hcs : '/' ∉ [c, ':'] := by
    have : c ≠ '/' := by
      rintro rfl
      exact absurd hc (by decide)
    simp [this.symm]
  have hsingle : [c, ':'].splitOn '/' = [[c, ':']] := List.splitOn_eq_singleton hcs
  simp [walk, pathSteps, hsingle, pathStep, dot, dotDot, RelPath.ofStep]

theorem resolve_idempotent_of_absolute (hhost : HasBase host base)
    (hbase : isAbsolutePath base = true) (path : Text) :
    resolveHostPath host (resolveHostPath host path) = resolveHostPath host path := by
  apply resolveHostPath_resolved
  by_cases h : isAbsolutePath path = true
  · rw [resolveHostPath_absolute h]
    exact isAbsolutePath_simplifyPath h
  · rw [Bool.not_eq_true] at h
    rw [resolveHostPath_join hhost h]
    exact isAbsolutePath_simplifyPath (isAbsolutePath_joinPath_of_base hhost.ne_nil hbase h)

theorem resolve_idempotent_of_balanced (hhost : HasBase host base)
    (hbase : isAbsolutePath base = false)
    (hbal : walk (normalizePath base) * walk (normalizePath base) = walk (normalizePath base))
    (path : Text) :
    resolveHostPath host (resolveHostPath host path) = resolveHostPath host path := by
  have hdn : ¬DriveName (normalizePath base) := by
    intro hdn
    rw [walk_driveName hdn, RelPath.mul_self_iff] at hbal
    simp at hbal
  by_cases habs : isAbsolutePath (resolveHostPath host path) = true
  · exact resolveHostPath_resolved habs
  · rw [Bool.not_eq_true] at habs
    have hpath : isAbsolutePath path = false := by
      by_contra h
      rw [Bool.not_eq_false] at h
      rw [resolveHostPath_absolute h, isAbsolutePath_simplifyPath h] at habs
      cases habs
    rw [resolveHostPath_relative hhost hbase hdn habs,
      (simplified_resolveHostPath host path).normalizePath_eq,
      resolveHostPath_relative hhost hbase hdn hpath, walk_walkText walk_mul_plain,
        ← mul_assoc, hbal]

/-- The path of `n` steps up. -/
def upPath (n : ℕ) : Text := walkText ⟨n, []⟩

theorem walk_upPath (n : ℕ) : walk (upPath n) = ⟨n, []⟩ := walk_walkText (by simp)

theorem normalizePath_upPath (n : ℕ) : normalizePath (upPath n) = upPath n :=
  normalizePath_of_not_mem (backslash_not_mem_walkText (by simp))

theorem isAbsolutePath_upPath (n : ℕ) : isAbsolutePath (upPath n) = false := by
  rw [Bool.eq_false_iff, Ne, isAbsolutePath_iff, Rooted, normalizePath_upPath]
  rintro (h | h)
  · exact not_rooted_walkText (by simp) h
  · obtain ⟨c, names, _, hp, _⟩ := walkText_of_hasDrive (by simp) h
    cases hp

theorem isAbsolutePath_walkText_of_ups {p : RelPath Text} (h : ∀ n ∈ p.names, PlainName n)
    (hb : ∀ n ∈ p.names, '\\' ∉ n) (hups : p.ups ≠ 0) : isAbsolutePath (walkText p) = false := by
  rw [Bool.eq_false_iff, Ne, isAbsolutePath_iff, Rooted,
    normalizePath_of_not_mem (backslash_not_mem_walkText hb)]
  rintro (hroot | hdrive)
  · exact not_rooted_walkText h hroot
  · obtain ⟨c, names, _, rfl, _⟩ := walkText_of_hasDrive h hdrive
    exact hups rfl

/-- `C:/` begins an absolute path, but `C:` alone does not. -/
theorem not_resolve_idempotent_of_driveName (hhost : HasBase host base)
    (hdn : DriveName (normalizePath base)) :
    resolveHostPath host (resolveHostPath host dot) ≠ resolveHostPath host dot := by
  obtain ⟨c, hc, hbase⟩ := hdn
  have hcs : c ≠ '/' := by
    rintro rfl
    exact absurd hc (by decide)
  have hcb : c ≠ '\\' := by
    rintro rfl
    exact absurd hc (by decide)
  have hcd : c ≠ '.' := by
    rintro rfl
    exact absurd hc (by decide)
  have hdrive : DriveName [c, ':'] := ⟨c, hc, rfl⟩
  have hnorm : normalizePath [c, ':'] = [c, ':'] := normalizePath_of_not_mem (by simp [hcb.symm])
  have hrel : isAbsolutePath [c, ':'] = false := by
    simp [isAbsolutePath, hnorm, hcs, hasDrive]
  have hfirst : resolveHostPath host dot = [c, ':'] := by
    have hjoin : joinPath base dot = [c, ':'] := by
      have hpart : normalizePath (orDot ['.']) = ['.'] := rfl
      simp [joinPath, orDot_of_ne_nil hhost.ne_nil, hbase, hpart, dot]
    rw [resolveHostPath_join hhost rfl, hjoin, simplifyPath_relative hrel, hnorm,
      walk_driveName hdrive]
    rfl
  have hsecond : resolveHostPath host [c, ':'] = [c, ':', '/', c, ':'] := by
    have hjoin : joinPath base [c, ':'] = [c, ':', '/', c, ':'] := by
      have hpart : normalizePath (orDot [c, ':']) = [c, ':'] := hnorm
      simp [joinPath, orDot_of_ne_nil hhost.ne_nil, hbase, hpart, dot, hrel]
    have hnorm' : normalizePath [c, ':', '/', c, ':'] = [c, ':', '/', c, ':'] :=
      normalizePath_of_not_mem (by simp [hcb.symm])
    have hd : hasDrive (normalizePath [c, ':', '/', c, ':']) = true := by
      rw [hnorm']
      exact hc
    rw [resolveHostPath_join hhost hrel, hjoin, simplifyPath_drive hd, hnorm']
    simp [walk_cons_slash, walk_driveName hdrive]
  rw [hfirst, hsecond]
  simp

/-- Resolving is idempotent exactly for absolute base directories and for relative ones that go
down as far as they go up. -/
theorem resolve_idempotent_iff (hhost : HasBase host base) :
    (∀ path, resolveHostPath host (resolveHostPath host path) = resolveHostPath host path) ↔
      isAbsolutePath base = true ∨
        (walk (normalizePath base)).names.length = (walk (normalizePath base)).ups := by
  rw [← RelPath.mul_self_iff]
  constructor
  · intro h
    by_contra hnot
    rw [not_or, Bool.not_eq_true] at hnot
    obtain ⟨hbase, hbal⟩ := hnot
    have hplain : ∀ n ∈ (walk (normalizePath base)).names, PlainName n := fun n => plainName_of_walk
    by_cases hdn : DriveName (normalizePath base)
    · exact not_resolve_idempotent_of_driveName hhost hdn (h dot)
    · by_cases hups : (walk (normalizePath base)).ups = 0
      · -- climbing out of the base directory gives the empty path, which resolves to the base
        let n := (walk (normalizePath base)).names.length
        have hup : resolveHostPath host (upPath n) = [] := by
          rw [resolveHostPath_relative hhost hbase hdn (isAbsolutePath_upPath n),
            normalizePath_upPath, walk_upPath]
          have : walk (normalizePath base) * ⟨n, []⟩ = 1 := by
            ext1 <;> simp [RelPath.mul_ups, RelPath.mul_names, hups, n]
          rw [this]
          rfl
        have hnil := h (upPath n)
        have hempty : walk (normalizePath []) = 1 := rfl
        rw [hup, resolveHostPath_relative hhost hbase hdn rfl, hempty, mul_one] at hnil
        have hone := walkText_injective (q := 1) hplain (by simp) hnil
        exact hbal (by rw [hone, one_mul])
      · have hfirst : resolveHostPath host dot = walkText (walk (normalizePath base)) := by
          rw [resolveHostPath_relative hhost hbase hdn rfl]
          simp [normalizePath, dot, walk, pathSteps, pathStep, List.splitOn_cons_eq_if_modifyHead]
        have hdot := h dot
        have hb : ∀ n ∈ (walk (normalizePath base)).names, '\\' ∉ n :=
          fun n => backslash_not_mem_names
        rw [hfirst, resolveHostPath_relative hhost hbase hdn
          (isAbsolutePath_walkText_of_ups hplain hb hups),
          normalizePath_of_not_mem (backslash_not_mem_walkText hb), walk_walkText hplain] at hdot
        exact hbal (walkText_injective walk_mul_plain hplain hdot)
  · rintro (hbase | hbal)
    · exact resolve_idempotent_of_absolute hhost hbase
    · by_cases hbase : isAbsolutePath base = true
      · exact resolve_idempotent_of_absolute hhost hbase
      · exact resolve_idempotent_of_balanced hhost (Bool.not_eq_true _ ▸ hbase) hbal

end Idempotent

end GatoCore.Stdlib
