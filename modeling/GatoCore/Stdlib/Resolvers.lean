import GatoCore.Stdlib.PathFacts

/-!
# The two path resolvers

`resolveHostPath` rewrites separators, knows drive letters and removes detours; the C builtins
join the bytes of the base directory and of the path. Where both lead is compared here.
-/

namespace GatoCore.Stdlib

open GatoCore.Lib

/-! ## Where a simplified path leads -/

theorem locate_rooted {names : List Text} (h : ∀ n ∈ names, PlainName n) :
    locate ('/' :: ['/'].intercalate names) = some (.absolute names) := by
  simp [locate, walk_cons_slash, walk_intercalate h]

theorem locate_drive {c : Char} {names : List Text} (hc : c.isAlpha = true)
    (h : ∀ n ∈ names, PlainName n) :
    locate (c :: ':' :: '/' :: ['/'].intercalate names) =
      some (.relative ⟨0, [c, ':'] :: names⟩) := by
  have hcs : c ≠ '/' := by
    rintro rfl
    exact absurd hc (by decide)
  have hwalk : walk (c :: ':' :: '/' :: ['/'].intercalate names) = ⟨0, [c, ':'] :: names⟩ := by
    have hsplit := walk_append [c, ':'] (['/'].intercalate names)
    rw [walk_driveName ⟨c, hc, rfl⟩, walk_intercalate h] at hsplit
    exact hsplit.trans (by ext1 <;> simp [RelPath.mul_ups, RelPath.mul_names])
  simp [locate, hcs, hwalk]

theorem walkText_eq_nil {p : RelPath Text} (h : ∀ n ∈ p.names, PlainName n) :
    walkText p = [] ↔ p = 1 := by
  constructor
  · intro hnil
    exact walkText_injective h (by simp) hnil
  · rintro rfl
    rfl

theorem locate_walkText {p : RelPath Text} (h : ∀ n ∈ p.names, PlainName n) :
    locate (walkText p) = if p = 1 then none else some (.relative p) := by
  simp [locate, walkText_eq_nil h, not_rooted_walkText h, walk_walkText h]

/-! ## The two readings of a base directory and a path -/

/-- The standard library takes the joined path as rooted. -/
def StdlibRooted (base path : Text) : Prop :=
  Rooted path ∨ (isAbsolutePath path = false ∧ Rooted base)

instance (base path : Text) : Decidable (StdlibRooted base path) :=
  inferInstanceAs (Decidable (Rooted path ∨ (isAbsolutePath path = false ∧ Rooted base)))

/-- The C builtin takes the joined path as rooted. -/
def BuiltinRooted (base path : Text) : Prop := path.head? = some '/' ∨ base.head? = some '/'

instance (base path : Text) : Decidable (BuiltinRooted base path) :=
  inferInstanceAs (Decidable (path.head? = some '/' ∨ base.head? = some '/'))

/-- A path with a drive: what climbs above the drive is lost. -/
def driveWalk (drive : Text) (rest : RelPath Text) : RelPath Text := ⟨0, drive :: rest.names⟩

/-- The components the standard library finds: backslashes are separators and drives are kept. -/
def stdlibWalk (base path : Text) : RelPath Text :=
  let b := normalizePath base
  let p := normalizePath path
  if hasDrive p then driveWalk (p.take 2) (walk (p.drop 2))
  else if Rooted path then walk p
  else if hasDrive b then driveWalk (b.take 2) (walk (b.drop 2) * walk p)
  else if DriveName b ∧ p ≠ [] ∧ p ≠ dot then driveWalk b (walk p)
  else walk b * walk p

/-- The components the C builtin finds: only slashes are separators, but a backslash at the end of
the base directory is not followed by one. -/
def builtinWalk (base path : Text) : RelPath Text :=
  if path.head? = some '/' then walk path
  else if base.getLast? = some '\\' then walk (base ++ path)
  else walk base * walk path

theorem driveWalk_ne_one (drive : Text) (rest : RelPath Text) : driveWalk drive rest ≠ 1 := by
  intro h
  cases congrArg RelPath.names h

/-- A path joined to a base directory with a drive. -/
theorem drive_joined {base part text : Text} (h : Joined base part text)
    (hdrive : hasDrive base = true) :
    text.take 2 = base.take 2 ∧ walk (text.drop 2) = walk (base.drop 2) * walk part := by
  obtain ⟨c, rest, hc, rfl⟩ := hasDrive_iff.mp hdrive
  cases h with
  | right h => cases h
  | left h _ => exact ⟨rfl, by rw [h, walk_dot, mul_one]⟩
  | slashed hlast =>
      have hlast' : ('/' :: rest).getLast? = some '/' := by simpa using hlast
      exact ⟨rfl, walk_append_of_getLast hlast' part⟩
  | both => exact ⟨rfl, walk_append ('/' :: rest) part⟩

section Stdlib

variable {host : HostDirs} {base path : Text}

/-- The place of a path with a drive. -/
theorem locate_simplifyPath_drive (h : hasDrive (normalizePath path) = true) :
    locate (simplifyPath path) = some (.relative
      (driveWalk ((normalizePath path).take 2) (walk ((normalizePath path).drop 2)))) := by
  rw [simplifyPath_drive h]
  obtain ⟨c, rest, hc, htext⟩ := hasDrive_iff.mp h
  rw [htext]
  exact locate_drive hc fun n => plainName_of_walk

theorem isAbsolutePath_false_iff :
    isAbsolutePath path = false ↔ ¬Rooted path ∧ hasDrive (normalizePath path) = false := by
  rw [Bool.eq_false_iff, Ne, isAbsolutePath_iff, not_or, Bool.not_eq_true]

theorem joinPath_driveName (hne : base ≠ []) (hdn : DriveName (normalizePath base))
    (h : isAbsolutePath path = false) : joinPath base path =
      if normalizePath path ≠ [] ∧ normalizePath path ≠ dot then
        normalizePath base ++ '/' :: normalizePath path
      else normalizePath base := by
  obtain ⟨c, hc, hbase⟩ := hdn
  have habs : isAbsolutePath (normalizePath (orDot path)) = false := by
    rw [isAbsolutePath_normalizePath, isAbsolutePath_orDot, h]
  unfold joinPath
  dsimp only
  rw [habs, orDot_of_ne_nil hne, hbase]
  by_cases hpath : path = []
  · subst hpath
    have hnil : normalizePath (orDot []) = ['.'] := rfl
    have hnil' : normalizePath [] = [] := rfl
    simp [hnil, hnil', dot]
  · have hp : normalizePath path ≠ [] := normalizePath_eq_nil.not.mpr hpath
    rw [orDot_of_ne_nil hpath]
    by_cases hdot : normalizePath path = dot
    · simp [hdot, dot]
    · have hdot' : normalizePath path ≠ ['.'] := hdot
      simp [hp, hdot', dot]

/-- The place of a joined path of known components. -/
def stdlibPlace (base path : Text) : Option Location :=
  if StdlibRooted base path then some (.absolute (stdlibWalk base path).names)
  else if stdlibWalk base path = 1 then none
  else some (.relative (stdlibWalk base path))

theorem locate_resolve_absolute (h : isAbsolutePath path = true) :
    locate (resolveHostPath host path) = stdlibPlace base path := by
  rw [resolveHostPath_absolute h, stdlibPlace]
  by_cases hroot : Rooted path
  · rw [simplifyPath_rooted hroot, locate_rooted fun n => plainName_of_walk, if_pos (.inl hroot)]
    simp [stdlibWalk, not_hasDrive_of_rooted hroot, hroot]
  · have hdrive := (isAbsolutePath_iff.mp h).resolve_left hroot
    have hnot : ¬StdlibRooted base path := by simp [StdlibRooted, hroot, h]
    have hwalk : stdlibWalk base path = driveWalk ((normalizePath path).take 2)
        (walk ((normalizePath path).drop 2)) := by simp [stdlibWalk, hdrive]
    rw [locate_simplifyPath_drive hdrive, if_neg hnot, hwalk, if_neg (driveWalk_ne_one _ _)]

theorem locate_resolve_rooted_base (hhost : HasBase host base) (hbase : Rooted base)
    (h : isAbsolutePath path = false) :
    locate (resolveHostPath host path) = stdlibPlace base path := by
  obtain ⟨hroot, hdrive⟩ := isAbsolutePath_false_iff.mp h
  have hdn : ¬DriveName (normalizePath base) := by
    rintro ⟨c, hc, hb⟩
    unfold Rooted at hbase
    rw [hb] at hbase
    cases hbase
    exact absurd hc (by decide)
  rw [resolveHostPath_rooted hhost hbase h, locate_rooted walk_mul_plain, stdlibPlace,
    if_pos (.inr ⟨h, hbase⟩)]
  simp [stdlibWalk, hdrive, hroot, not_hasDrive_of_rooted hbase, hdn]

theorem not_stdlibRooted (hbase : ¬Rooted base) (h : isAbsolutePath path = false) :
    ¬StdlibRooted base path := by
  simp [StdlibRooted, (isAbsolutePath_false_iff.mp h).1, hbase]

theorem locate_resolve_drive_base (hhost : HasBase host base) (hbase : ¬Rooted base)
    (hdrive : hasDrive (normalizePath base) = true) (h : isAbsolutePath path = false) :
    locate (resolveHostPath host path) = stdlibPlace base path := by
  obtain ⟨hroot, hpd⟩ := isAbsolutePath_false_iff.mp h
  have hj := joined_joinPath base h
  rw [orDot_of_ne_nil hhost.ne_nil] at hj
  obtain ⟨htake, hdrop⟩ := drive_joined hj hdrive
  have hjd : hasDrive (normalizePath (joinPath base path)) = true := by
    rw [normalizePath_joinPath]
    exact hasDrive_joined_of_drive hj hdrive
  have hwalk : stdlibWalk base path = driveWalk ((normalizePath base).take 2)
      (walk ((normalizePath base).drop 2) * walk (normalizePath path)) := by
    simp [stdlibWalk, hpd, hroot, hdrive]
  rw [resolveHostPath_join hhost h, locate_simplifyPath_drive hjd, normalizePath_joinPath, htake,
    hdrop, walk_normalizePath_orDot, stdlibPlace, if_neg (not_stdlibRooted hbase h), hwalk,
    if_neg (driveWalk_ne_one _ _)]

/-- A relative path joined to a relative base directory. -/
theorem locate_resolve_join_relative (hhost : HasBase host base) (hbase : ¬Rooted base)
    (h : isAbsolutePath path = false) (hrel : isAbsolutePath (joinPath base path) = false)
    (hwalk : stdlibWalk base path = walk (normalizePath base) * walk (normalizePath path)) :
    locate (resolveHostPath host path) = stdlibPlace base path := by
  rw [resolveHostPath_join_relative hhost h hrel, locate_walkText walk_mul_plain, stdlibPlace,
    if_neg (not_stdlibRooted hbase h), hwalk]

theorem locate_resolve_driveName_base (hhost : HasBase host base) (hbase : ¬Rooted base)
    (hbd : hasDrive (normalizePath base) = false) (hdn : DriveName (normalizePath base))
    (h : isAbsolutePath path = false) :
    locate (resolveHostPath host path) = stdlibPlace base path := by
  obtain ⟨hroot, hpd⟩ := isAbsolutePath_false_iff.mp h
  have hjoin := joinPath_driveName hhost.ne_nil hdn h
  by_cases hpart : normalizePath path ≠ [] ∧ normalizePath path ≠ dot
  · rw [if_pos hpart] at hjoin
    have hwalk : stdlibWalk base path =
        driveWalk (normalizePath base) (walk (normalizePath path)) := by
      simp [stdlibWalk, hpd, hroot, hbd, hdn, hpart]
    have hnorm := normalizePath_joinPath base path
    rw [hjoin] at hnorm
    obtain ⟨c, hc, hb⟩ := hdn
    have hjd : hasDrive (normalizePath (normalizePath base ++ '/' :: normalizePath path)) =
        true := by
      rw [hnorm, hb]
      exact hc
    rw [resolveHostPath_join hhost h, hjoin, locate_simplifyPath_drive hjd, hnorm, stdlibPlace,
      if_neg (not_stdlibRooted hbase h), hwalk, if_neg (driveWalk_ne_one _ _), hb]
    simp [walk_cons_slash]
  · rw [if_neg hpart] at hjoin
    have hrel : isAbsolutePath (joinPath base path) = false := by
      rw [hjoin, isAbsolutePath_normalizePath]
      exact isAbsolutePath_false_iff.mpr ⟨hbase, hbd⟩
    refine locate_resolve_join_relative hhost hbase h hrel ?_
    simp [stdlibWalk, hpd, hroot, hbd, hpart]

/-- The place of the path the standard library computes. -/
theorem locate_resolveHostPath (hhost : HasBase host base) (path : Text) :
    locate (resolveHostPath host path) = stdlibPlace base path := by
  by_cases h : isAbsolutePath path = true
  · exact locate_resolve_absolute h
  · rw [Bool.not_eq_true] at h
    obtain ⟨hroot, hpd⟩ := isAbsolutePath_false_iff.mp h
    by_cases hbroot : Rooted base
    · exact locate_resolve_rooted_base hhost hbroot h
    · by_cases hbd : hasDrive (normalizePath base) = true
      · exact locate_resolve_drive_base hhost hbroot hbd h
      · rw [Bool.not_eq_true] at hbd
        by_cases hdn : DriveName (normalizePath base)
        · exact locate_resolve_driveName_base hhost hbroot hbd hdn h
        · have hbase : isAbsolutePath base = false := isAbsolutePath_false_iff.mpr ⟨hbroot, hbd⟩
          refine locate_resolve_join_relative hhost hbroot h
            (isAbsolutePath_joinPath_relative hhost.ne_nil hbase hdn h) ?_
          simp [stdlibWalk, hpd, hroot, hbd, hdn]

end Stdlib

/-! ## The C builtins -/

section Builtin

variable {host : HostDirs} {base path : Text}

theorem jsPtResolvePath_eq (hhost : HasBase host base) (path : Text) :
    jsPtResolvePath host path = printToBuffer (jsPtPathText base path) := by
  unfold jsPtResolvePath jsPtPathJoin
  split
  · rename_i h
    rw [jsPtPathText, if_pos h]
  · rw [hhost.eq, Option.getD_some, cText_of_not_mem hhost.no_nul]

/-- The place of a joined path of known components, which is never empty. -/
def builtinPlace (base path : Text) : Location :=
  if BuiltinRooted base path then .absolute (builtinWalk base path).names
  else .relative (builtinWalk base path)

theorem head?_append_of_ne_nil {a b : Text} (h : a ≠ []) : (a ++ b).head? = a.head? := by
  obtain ⟨c, a, rfl⟩ := List.exists_cons_of_ne_nil h
  rfl

/-- The path of the builtin after the base directory. -/
theorem walk_jsPtPathText (hne : base ≠ []) (hpath : path.head? ≠ some '/') :
    walk (jsPtPathText base path) = builtinWalk base path := by
  have hlen : base.length ≠ 0 := by simpa using hne
  have habs : jsPtPathIsAbs path = false := by simp [jsPtPathIsAbs, hpath]
  simp only [jsPtPathText, habs, hlen, Bool.false_eq_true, if_false, builtinWalk, hpath]
  by_cases hslash : base.getLast? = some '/'
  · have hback : base.getLast? ≠ some '\\' := by
      rw [hslash]
      decide
    simp [hslash, walk_append_of_getLast hslash]
  · by_cases hback : base.getLast? = some '\\'
    · simp [hback]
    · simp [hslash, hback, walk_append]

theorem locate_jsPtPathText (hne : base ≠ []) (path : Text) :
    locate (jsPtPathText base path) = some (builtinPlace base path) := by
  by_cases hpath : path.head? = some '/'
  · have habs : jsPtPathIsAbs path = true := by simp [jsPtPathIsAbs, hpath]
    have hnil : path ≠ [] := by
      rintro rfl
      cases hpath
    rw [jsPtPathText, if_pos habs, builtinPlace, if_pos (.inl hpath)]
    simp [locate, hnil, hpath, builtinWalk]
  · have hwalk := walk_jsPtPathText hne hpath
    have hlen : base.length ≠ 0 := by simpa using hne
    have habs : jsPtPathIsAbs path = false := by simp [jsPtPathIsAbs, hpath]
    have hhead : (jsPtPathText base path).head? = base.head? := by
      simp only [jsPtPathText, habs, hlen, Bool.false_eq_true, if_false]
      rw [List.append_assoc]
      exact head?_append_of_ne_nil hne
    have hnil : jsPtPathText base path ≠ [] := by
      intro hnil
      rw [hnil] at hhead
      exact hne (List.head?_eq_none_iff.mp hhead.symm)
    simp only [locate, hnil, if_false, hhead, hwalk, builtinPlace, BuiltinRooted, hpath, false_or]
    split <;> rfl

end Builtin

/-! ## Agreement -/

/-- The builtin opens the file the standard library names. -/
def SameFile (host : HostDirs) (path : Text) : Prop :=
  ∃ opened, jsPtResolvePath host (cText path) = some opened ∧
    locate (resolveHostPath host path) = locate opened

/-- The drive letters the standard library knows make no difference: a path with one is joined to a
base directory that leads where the path climbs from, and a path joined to a base directory with one
does not climb above it. -/
def DriveHarmless (base path : Text) : Prop :=
  if path.head? = some '/' then True
  else if hasDrive path then
    base.head? ≠ some '/' ∧ (walk base).ups = 0 ∧
      (walk base).names.length = (walk (path.drop 2)).ups ∧
      ((walk base).names ++ [path.take 2]).head? = some (path.take 2)
  else if hasDrive base ∨ DriveName base then (walk (base.drop 2) * walk path).ups = 0
  else True

/-- A base directory and a path that both resolvers read alike. -/
structure ReadAlike (base path : Text) : Prop where
  fits : utf8Length (jsPtPathText base path) < 4096
  slashes : '\\' ∉ path ∧ (path.head? = some '/' ∨ '\\' ∉ base)
  drive : DriveHarmless base path
  /-- The path is rooted or leads away from the current directory, whose path is empty. -/
  leads : path.head? = some '/' ∨ base.head? = some '/' ∨ walk base * walk path ≠ 1

section Agreement

variable {host : HostDirs} {base path : Text}

theorem sameFile_iff (hhost : HasBase host base) (hpath : '\x00' ∉ path) : SameFile host path ↔
    utf8Length (jsPtPathText base path) < 4096 ∧
      stdlibPlace base path = some (builtinPlace base path) := by
  unfold SameFile
  rw [cText_of_not_mem hpath, jsPtResolvePath_eq hhost, locate_resolveHostPath hhost]
  unfold printToBuffer
  by_cases hlong : utf8Length (jsPtPathText base path) ≥ 4096
  · have hnot : ¬utf8Length (jsPtPathText base path) < 4096 := Nat.not_lt.mpr hlong
    simp [hlong, hnot]
  · simp [hlong, locate_jsPtPathText hhost.ne_nil, Nat.lt_of_not_ge hlong]

theorem backslash_jsPtPathText (hne : base ≠ []) : '\\' ∉ jsPtPathText base path ↔
    '\\' ∉ path ∧ (path.head? = some '/' ∨ '\\' ∉ base) := by
  have hlen : base.length ≠ 0 := by simpa using hne
  by_cases hpath : path.head? = some '/'
  · simp [jsPtPathText, jsPtPathIsAbs, hpath]
  · have habs : jsPtPathIsAbs path = false := by simp [jsPtPathIsAbs, hpath]
    simp only [jsPtPathText, habs, hlen, Bool.false_eq_true, if_false, hpath, false_or]
    split <;> simp [and_comm]

/-! ### Without backslashes -/

theorem drive_mul_eq {c : Text} {q : RelPath Text} :
    (⟨0, [c]⟩ * q : RelPath Text) = driveWalk c q ↔ q.ups = 0 := by
  constructor
  · intro h
    have hlen := congrArg (List.length ∘ RelPath.names) h
    simp only [Function.comp, RelPath.mul_names, driveWalk, List.length_append, List.length_take,
      List.length_cons, List.length_nil] at hlen
    omega
  · intro h
    ext1 <;> simp [driveWalk, RelPath.mul_ups, RelPath.mul_names, h]

theorem mul_drive_mul_eq {p q : RelPath Text} {c : Text} :
    p * (⟨0, [c]⟩ * q) = driveWalk c q ↔
      p.ups = 0 ∧ p.names.length = q.ups ∧ (p.names ++ [c]).head? = some c := by
  have hprod : p * ⟨0, [c]⟩ = ⟨p.ups, p.names ++ [c]⟩ := by
    ext1 <;> simp [RelPath.mul_ups, RelPath.mul_names]
  rw [← mul_assoc, hprod]
  constructor
  · intro h
    have hups := congrArg RelPath.ups h
    have hnames := congrArg RelPath.names h
    have hlen := congrArg List.length hnames
    simp only [driveWalk, RelPath.mul_ups, RelPath.mul_names, List.length_append, List.length_take,
      List.length_cons, List.length_nil] at hups hlen
    -- one name is left of the base, and it is the drive
    have htake : (p.names ++ [c]).length - q.ups = 1 := by
      simp only [List.length_append, List.length_cons, List.length_nil]
      omega
    rw [RelPath.mul_names, driveWalk, htake] at hnames
    refine ⟨by omega, by omega, ?_⟩
    cases hcons : p.names ++ [c] with
    | nil => simp at hcons
    | cons a rest =>
        rw [hcons] at hnames
        simp at hnames
        simp [hnames]
  · rintro ⟨hups, hlen, hhead⟩
    obtain ⟨rest, hrest⟩ : ∃ rest, p.names ++ [c] = c :: rest := by
      cases hcons : p.names ++ [c] with
      | nil => simp at hcons
      | cons a rest =>
          rw [hcons] at hhead
          cases hhead
          exact ⟨rest, rfl⟩
    have hlen' := congrArg List.length hrest
    simp only [List.length_append, List.length_cons, List.length_nil] at hlen'
    have htake : (c :: rest).length - q.ups = 1 := by
      simp only [List.length_cons]
      omega
    ext1
    · simp only [driveWalk, RelPath.mul_ups, hrest, List.length_cons]
      omega
    · rw [RelPath.mul_names, driveWalk, hrest, htake]
      rfl

theorem walk_of_hasDrive {text : Text} (h : hasDrive text = true) :
    walk text = ⟨0, [text.take 2]⟩ * walk (text.drop 2) := by
  obtain ⟨c, rest, hc, rfl⟩ := hasDrive_iff.mp h
  have hsplit := walk_append [c, ':'] rest
  rw [walk_driveName ⟨c, hc, rfl⟩] at hsplit
  rw [show (c :: ':' :: '/' :: rest).drop 2 = '/' :: rest from rfl, walk_cons_slash]
  exact hsplit

section Plain

variable (hroot : path.head? ≠ some '/') (hp : normalizePath path = path)
  (hb : normalizePath base = base) (hback : '\\' ∉ base)

include hroot hback in
theorem builtinWalk_plain : builtinWalk base path = walk base * walk path := by
  have hlast : base.getLast? ≠ some '\\' := fun h => hback (List.mem_of_getLast? h)
  simp [builtinWalk, hroot, hlast]

include hroot hp in
theorem not_rooted_plain : ¬Rooted path := by rwa [Rooted, hp]

include hroot hp hback in
/-- A path with a drive. -/
theorem places_eq_drive_path (hdrive : hasDrive path = true) :
    stdlibPlace base path = some (builtinPlace base path) ↔
      base.head? ≠ some '/' ∧ (walk base).ups = 0 ∧
        (walk base).names.length = (walk (path.drop 2)).ups ∧
        ((walk base).names ++ [path.take 2]).head? = some (path.take 2) := by
  have hnot : ¬StdlibRooted base path := by
    rintro (h | ⟨h, _⟩)
    · exact not_rooted_plain hroot hp h
    · rw [isAbsolutePath_false_iff, hp] at h
      simp [hdrive] at h
  have hwalk : stdlibWalk base path = driveWalk (path.take 2) (walk (path.drop 2)) := by
    simp [stdlibWalk, hp, hdrive]
  rw [stdlibPlace, if_neg hnot, hwalk, if_neg (driveWalk_ne_one _ _), builtinPlace,
    builtinWalk_plain hroot hback, walk_of_hasDrive hdrive, ← mul_drive_mul_eq]
  by_cases hbase : base.head? = some '/'
  · simp [BuiltinRooted, hbase]
  · simp only [BuiltinRooted, hroot, hbase, or_self, if_false, Option.some.injEq,
      Location.relative.injEq, ne_eq, not_false_eq_true, true_and]
    exact eq_comm

include hroot hp hb hback in
/-- A path without a drive in a base directory with one. -/
theorem places_eq_drive_base (hdrive : hasDrive path = false)
    (hbd : hasDrive base = true ∨ DriveName base) :
    stdlibPlace base path = some (builtinPlace base path) ↔
      (walk (base.drop 2) * walk path).ups = 0 := by
  have hrooted := not_rooted_plain hroot hp
  have habs : isAbsolutePath path = false := isAbsolutePath_false_iff.mpr ⟨hrooted, by rwa [hp]⟩
  have hbase : base.head? ≠ some '/' := by
    rcases hbd with h | ⟨c, hc, rfl⟩
    · obtain ⟨c, rest, hc, rfl⟩ := hasDrive_iff.mp h
      rintro ⟨⟩
      exact absurd hc (by decide)
    · rintro ⟨⟩
      exact absurd hc (by decide)
  have hnot : ¬StdlibRooted base path := not_stdlibRooted (by rwa [Rooted, hb]) habs
  have hbnot : ¬BuiltinRooted base path := by simp [BuiltinRooted, hroot, hbase]
  rw [stdlibPlace, if_neg hnot, builtinPlace, if_neg hbnot, builtinWalk_plain hroot hback]
  -- the stdlib keeps the drive in front; the builtin takes it for a name
  have hdriveWalk : ∀ (drive : Text) {rest : RelPath Text},
      stdlibWalk base path = driveWalk drive rest →
      walk base * walk path = ⟨0, [drive]⟩ * rest →
      ((if stdlibWalk base path = 1 then none else some (.relative (stdlibWalk base path))) =
        some (Location.relative (walk base * walk path)) ↔ rest.ups = 0) := by
    intro drive rest hstd hbuiltin
    rw [hstd, if_neg (driveWalk_ne_one _ _), hbuiltin, ← drive_mul_eq (c := drive)]
    simp [eq_comm]
  by_cases hbdrive : hasDrive base = true
  · refine hdriveWalk (base.take 2)
      (by simp [stdlibWalk, hp, hb, hdrive, hrooted, hbdrive]) ?_
    rw [walk_of_hasDrive hbdrive, mul_assoc]
  · have hdn := hbd.resolve_left hbdrive
    obtain ⟨c, hc, hbc⟩ := id hdn
    have hdrop : walk (base.drop 2) = 1 := by rw [hbc]; rfl
    rw [hdrop, one_mul]
    by_cases hpart : path ≠ [] ∧ path ≠ dot
    · refine hdriveWalk base
        (by simp [stdlibWalk, hp, hb, hdrive, hrooted, hbdrive, hdn, hpart]) ?_
      rw [walk_driveName hdn]
    -- a path that names nothing leaves the base as it is
    · have hone : walk path = 1 := by
        by_cases hnil : path = []
        · rw [hnil, walk_nil]
        · rw [not_and_not_right.mp hpart hnil, walk_dot]
      have hstd : stdlibWalk base path = walk base := by
        simp [stdlibWalk, hp, hb, hdrive, hrooted, hbdrive, hpart, hone]
      have hne : walk base ≠ 1 := by
        rw [walk_driveName hdn]
        exact driveWalk_ne_one base 1
      simp [hstd, hone, hne]

include hroot hp hb hback in
theorem places_eq_no_drive (hdrive : hasDrive path = false) (hbd : hasDrive base = false)
    (hdn : ¬DriveName base) :
    stdlibPlace base path = some (builtinPlace base path) ↔
      base.head? = some '/' ∨ walk base * walk path ≠ 1 := by
  have hrooted := not_rooted_plain hroot hp
  have habs : isAbsolutePath path = false := isAbsolutePath_false_iff.mpr ⟨hrooted, by rwa [hp]⟩
  have hwalk : stdlibWalk base path = walk base * walk path := by
    simp [stdlibWalk, hp, hb, hdrive, hrooted, hbd, hdn]
  have hbrooted : Rooted base ↔ base.head? = some '/' := by rw [Rooted, hb]
  simp only [stdlibPlace, builtinPlace, StdlibRooted, BuiltinRooted, hrooted, habs, hbrooted, hwalk,
    builtinWalk_plain hroot hback, hroot, true_and, false_or]
  by_cases hbase : base.head? = some '/'
  · simp [hbase]
  · by_cases hone : walk base * walk path = 1 <;> simp [hbase, hone]

end Plain

theorem walk_of_drive_base (h : hasDrive base = true ∨ DriveName base) :
    walk base = ⟨0, [base.take 2]⟩ * walk (base.drop 2) := by
  rcases h with h | ⟨c, hc, rfl⟩
  · exact walk_of_hasDrive h
  · rw [walk_driveName ⟨c, hc, rfl⟩]
    exact (mul_one _).symm

/-- Without backslashes the resolvers agree exactly when drive letters make no difference and the
path does not lead back to the current directory. -/
theorem places_eq_iff (hpath : '\\' ∉ path) (hbase : path.head? = some '/' ∨ '\\' ∉ base) :
    stdlibPlace base path = some (builtinPlace base path) ↔
      DriveHarmless base path ∧
        (path.head? = some '/' ∨ base.head? = some '/' ∨ walk base * walk path ≠ 1) := by
  have hp := normalizePath_of_not_mem hpath
  by_cases hroot : path.head? = some '/'
  · have hrooted : Rooted path := by rwa [Rooted, hp]
    have hdrive := not_hasDrive_of_rooted hrooted
    rw [hp] at hdrive
    simp [stdlibPlace, builtinPlace, StdlibRooted, BuiltinRooted, DriveHarmless, hrooted, hroot,
      stdlibWalk, builtinWalk, hdrive, hp]
  · have hback := hbase.resolve_left hroot
    have hb := normalizePath_of_not_mem hback
    simp only [DriveHarmless, hroot, if_false, false_or]
    by_cases hdrive : hasDrive path = true
    · rw [if_pos hdrive, places_eq_drive_path hroot hp hback hdrive]
      refine (and_iff_left_of_imp fun h => .inr ?_).symm
      rw [walk_of_hasDrive hdrive, mul_drive_mul_eq.mpr h.2]
      exact driveWalk_ne_one _ _
    · rw [Bool.not_eq_true] at hdrive
      rw [if_neg (by simp [hdrive])]
      by_cases hbd : hasDrive base = true ∨ DriveName base
      · rw [if_pos hbd, places_eq_drive_base hroot hp hb hback hdrive hbd]
        refine (and_iff_left_of_imp fun h => .inr ?_).symm
        rw [walk_of_drive_base hbd, mul_assoc, drive_mul_eq.mpr h]
        exact driveWalk_ne_one _ _
      · rw [if_neg hbd, true_and]
        rw [not_or, Bool.not_eq_true] at hbd
        exact places_eq_no_drive hroot hp hb hback hdrive hbd.1 hbd.2

/-! ### With backslashes -/

/-- A path without `..` keeps every name. -/
theorem reduce_of_no_dotDot {parts : List Text} (h : dotDot ∉ parts) :
    RelPath.reduce (parts.filterMap pathStep) =
      ⟨0, parts.filter fun name => name ≠ [] ∧ name ≠ dot⟩ := by
  induction parts with
  | nil => rfl
  | cons first parts ih =>
      rw [List.mem_cons, not_or] at h
      obtain ⟨hfirst, hrest⟩ := h
      by_cases hskip : first = [] ∨ first = dot
      · have hstep : pathStep first = none := if_pos hskip
        have hdrop : ¬(first ≠ [] ∧ first ≠ dot) := by rwa [← not_or, not_not]
        rw [List.filterMap_cons_none hstep, ih hrest,
          List.filter_cons_of_neg (by simpa using hdrop)]
      · have hstep : pathStep first = some (.name first) := by
          rw [pathStep, if_neg hskip, if_neg (Ne.symm hfirst)]
        have hkeep : first ≠ [] ∧ first ≠ dot := not_or.mp hskip
        rw [List.filterMap_cons_some hstep, RelPath.reduce_cons, ih hrest,
          List.filter_cons_of_pos (by simpa using hkeep)]
        ext1 <;> simp [RelPath.ofStep, RelPath.mul_ups, RelPath.mul_names]

theorem exists_backslash_name {text : Text} (hback : '\\' ∈ text)
    (hdots : dotDot ∉ text.splitOn '/') : ∃ name ∈ (walk text).names, '\\' ∈ name := by
  have htext : ['/'].intercalate (text.splitOn '/') = text := List.intercalate_splitOn '/'
  rw [← htext] at hback
  rcases mem_intercalate hback with hslash | ⟨part, hpart, hmem⟩
  · exact absurd hslash (by decide)
  · have hkeep : part ≠ [] ∧ part ≠ dot := by
      constructor <;> rintro rfl <;> exact absurd hmem (by decide)
    refine ⟨part, ?_, hmem⟩
    rw [walk, pathSteps, reduce_of_no_dotDot hdots]
    exact List.mem_filter.mpr ⟨hpart, by simp [hkeep]⟩

def Location.names : Location → List Text
  | .absolute names => names
  | .relative p => p.names

theorem names_of_locate {text : Text} {location : Location} (h : locate text = some location) :
    location.names = (walk text).names := by
  unfold locate at h
  split at h
  · cases h
  · split at h <;> cases h <;> rfl

/-- A text with a backslash and without `..` is no place the standard library names. -/
theorem not_sameFile_of_backslash (hhost : HasBase host base) (hpath : '\x00' ∉ path)
    (hback : '\\' ∈ jsPtPathText base path)
    (hdots : dotDot ∉ (jsPtPathText base path).splitOn '/') :
    ¬SameFile host path := by
  rintro ⟨opened, hopened, hsame⟩
  rw [cText_of_not_mem hpath, jsPtResolvePath_eq hhost, printToBuffer] at hopened
  split at hopened
  · cases hopened
  · cases hopened
    rw [locate_jsPtPathText hhost.ne_nil] at hsame
    obtain ⟨name, hname, hmem⟩ := exists_backslash_name hback hdots
    rw [← names_of_locate (locate_jsPtPathText hhost.ne_nil path), names_of_locate hsame] at hname
    exact (simplified_resolveHostPath host path).backslash_not_mem (subset_of_walk hname hmem)

/-- The resolvers agree on every path that both read alike, and on no other path without a
backslash or without `..`. -/
theorem resolvers_agree_iff (hhost : HasBase host base) (hpath : '\x00' ∉ path) :
    (ReadAlike base path → SameFile host path) ∧
      ('\\' ∉ jsPtPathText base path ∨ dotDot ∉ (jsPtPathText base path).splitOn '/' →
        SameFile host path → ReadAlike base path) := by
  have hread : '\\' ∉ jsPtPathText base path → (ReadAlike base path ↔ SameFile host path) := by
    intro hback
    have hslashes := (backslash_jsPtPathText hhost.ne_nil).mp hback
    rw [sameFile_iff hhost hpath, places_eq_iff hslashes.1 hslashes.2]
    exact ⟨fun h => ⟨h.fits, h.drive, h.leads⟩, fun h => ⟨h.1, hslashes, h.2.1, h.2.2⟩⟩
  refine ⟨fun h => ?_, fun htext hsame => ?_⟩
  · exact (hread ((backslash_jsPtPathText hhost.ne_nil).mpr h.slashes)).mp h
  · by_cases hback : '\\' ∈ jsPtPathText base path
    · have hdots := htext.resolve_left (not_not_intro hback)
      exact absurd hsame (not_sameFile_of_backslash hhost hpath hback hdots)
    · exact (hread hback).mpr hsame

end Agreement

theorem resolvers_agree_iff_plain :
    (ReadAlike "samples".toList "./dados.txt".toList →
        SameFile ⟨some "samples".toList, "/work".toList⟩ "./dados.txt".toList) ∧
      ('\\' ∉ jsPtPathText "samples".toList "./dados.txt".toList ∨
          dotDot ∉ (jsPtPathText "samples".toList "./dados.txt".toList).splitOn '/' →
        SameFile ⟨some "samples".toList, "/work".toList⟩ "./dados.txt".toList →
          ReadAlike "samples".toList "./dados.txt".toList) :=
  resolvers_agree_iff ⟨rfl, by decide, by decide⟩ (by decide)

/-- The standard library names `samples/a/b`, and the builtin opens the file `a\b` of `samples`. -/
theorem backslash_resolvers_disagree :
    ¬SameFile ⟨some "samples".toList, "/work".toList⟩ "a\\b".toList := by
  rintro ⟨opened, hopened, hsame⟩
  have htext : jsPtResolvePath ⟨some "samples".toList, "/work".toList⟩
      (cText "a\\b".toList) = some "samples/a\\b".toList := by decide
  cases htext.symm.trans hopened
  exact absurd hsame (by decide)

end GatoCore.Stdlib
