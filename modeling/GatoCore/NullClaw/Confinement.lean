import GatoCore.NullClaw.Tools

/-!
# Where the tools of the agent can reach

The tools take paths from the user or from the model and join them to the root of a workspace. A
path stays below that root when it does not climb above it, or comes down again by the names it has
climbed; absolute paths and drives do not care for the root.
-/

namespace GatoCore.NullClaw

open GatoCore.Lib GatoCore.Stdlib

/-! ## Targets -/

/-- What the operating system sees of a path without detours: a C string, which may end in the
middle of a name. -/
def seenWalk (p : RelPath Text) : RelPath Text :=
  ⟨p.ups, []⟩ * walk (cText (['/'].intercalate p.names))

/-- Where a target leads, up to the first NUL that is left of it. -/
def targetWalk (target : Text) : RelPath Text := seenWalk (walk (normalizePath target))

/-- Names without a NUL are seen as they are. -/
theorem walk_cText_intercalate {rest : List Text} : ∀ {names : List Text},
    (∀ n ∈ names, PlainName n) → (∀ n ∈ names, '\x00' ∉ n) →
      walk (cText (['/'].intercalate (names ++ rest))) =
        ⟨0, names⟩ * walk (cText (['/'].intercalate rest))
  | [], _, _ => (one_mul _).symm
  | name :: names, hplain, hnul => by
      have hname : walk name = ⟨0, [name]⟩ := by
        simpa using walk_intercalate (show ∀ n ∈ [name], PlainName n by
          simpa using hplain name List.mem_cons_self)
      have hclean := hnul name List.mem_cons_self
      have ih : walk (cText (['/'].intercalate (names ++ rest))) =
          ⟨0, names⟩ * walk (cText (['/'].intercalate rest)) := walk_cText_intercalate
        (fun n hn => hplain n (List.mem_cons_of_mem _ hn))
        (fun n hn => hnul n (List.mem_cons_of_mem _ hn))
      have hcons : (⟨0, name :: names⟩ : RelPath Text) = ⟨0, [name]⟩ * ⟨0, names⟩ := by
        ext1 <;> simp [RelPath.mul_ups, RelPath.mul_names]
      rw [hcons, mul_assoc, ← ih, ← hname, List.cons_append]
      cases names ++ rest with
      | nil =>
          rw [List.intercalate_singleton, cText_of_not_mem hclean]
          exact (mul_one _).symm
      | cons next more =>
          have hslash : '\x00' ∉ name ++ ['/'] := by simpa using hclean
          rw [List.intercalate_cons_cons, cText_append hslash, List.append_assoc]
          exact walk_append _ _

/-- The place of names joined to a directory, as the operating system sees it. -/
theorem cut_absolute_mul {names : List Text} (hplain : ∀ n ∈ names, PlainName n)
    (hnul : ∀ n ∈ names, '\x00' ∉ n) (p : RelPath Text) :
    (Location.absolute (⟨0, names⟩ * p : RelPath Text).names).cut =
      .absolute (⟨0, names⟩ * seenWalk p : RelPath Text).names := by
  have hslash : cText ('/' :: ['/'].intercalate (⟨0, names⟩ * p : RelPath Text).names) =
      '/' :: cText (['/'].intercalate (⟨0, names⟩ * p : RelPath Text).names) :=
    cText_append (a := ['/']) (by decide) _
  have hseen : walk (cText (['/'].intercalate (names.take (names.length - p.ups) ++ p.names))) =
      ⟨0, names.take (names.length - p.ups)⟩ * walk (cText (['/'].intercalate p.names)) :=
    walk_cText_intercalate
    (fun n hn => hplain n (List.mem_of_mem_take (i := names.length - p.ups) hn))
    (fun n hn => hnul n (List.mem_of_mem_take (i := names.length - p.ups) hn))
  rw [Location.cut, hslash, walk_cons_slash, RelPath.mul_names, hseen, seenWalk, ← mul_assoc]
  refine congrArg Location.absolute (names_mul_congr ?_ _)
  simp [RelPath.mul_names]

/-- The target leads below `raiz` from the directory at `names`, or from `drive` when it has a
drive letter. -/
def StaysBelow (cwd : Text) (raiz names : List Text) (drive : Location) (target : Text) : Prop :=
  if hasDrive (normalizePath target) then raiz <+: placeNames cwd drive
  else if Rooted target then raiz <+: (targetWalk target).names
  else raiz.drop (names.length - (targetWalk target).ups) <+: (targetWalk target).names

/-- Where a target goes that has no drive letter. -/
def targetNames (names : List Text) (target : Text) : List Text :=
  if Rooted target then (walk (normalizePath target)).names
  else (⟨0, names⟩ * walk (normalizePath target) : RelPath Text).names

/-- Where the operating system finds it. -/
def seenNames (names : List Text) (target : Text) : List Text :=
  if Rooted target then (targetWalk target).names
  else (⟨0, names⟩ * targetWalk target : RelPath Text).names

theorem cut_targetNames {names : List Text} (hplain : ∀ n ∈ names, PlainName n)
    (hnul : ∀ n ∈ names, '\x00' ∉ n) (target : Text) :
    (Location.absolute (targetNames names target)).cut = .absolute (seenNames names target) := by
  rw [targetNames, seenNames]
  split
  · have hone : (⟨0, []⟩ * walk (normalizePath target) : RelPath Text) =
        walk (normalizePath target) := one_mul _
    have hroot := cut_absolute_mul (List.forall_mem_nil PlainName)
      (List.forall_mem_nil fun n => '\x00' ∉ n) (walk (normalizePath target))
    rw [hone] at hroot
    exact hroot.trans (congrArg (Location.absolute ∘ RelPath.names) (one_mul _))
  · exact cut_absolute_mul hplain hnul _

theorem prefix_mul_names_iff {raiz names : List Text} (h : names <+: raiz) (p : RelPath Text) :
    raiz <+: (⟨0, names⟩ * p : RelPath Text).names ↔
      raiz.drop (names.length - p.ups) <+: p.names := by
  have htake : names.take (names.length - p.ups) = raiz.take (names.length - p.ups) := by
    obtain ⟨rest, rfl⟩ := h
    rw [List.take_append_of_le_length (by omega)]
  have hsplit := List.take_append_drop (names.length - p.ups) raiz
  rw [RelPath.mul_names, htake]
  nth_rewrite 1 [← hsplit]
  exact List.prefix_append_right_inj _

theorem staysBelow_iff {cwd : Text} {raiz names : List Text} (h : names <+: raiz) (drive : Location)
    {target : Text} (hdrive : hasDrive (normalizePath target) = false) :
    StaysBelow cwd raiz names drive target ↔ raiz <+: seenNames names target := by
  rw [StaysBelow, hdrive, seenNames]
  simp only [Bool.false_eq_true, if_false]
  split
  · rfl
  · rw [prefix_mul_names_iff h]

/-! ## The path of a target -/

section Target

variable {host : HostDirs} {base : Text} {names : List Text}

theorem localPath_of_absolute {raiz target : Text} (habs : isAbsolutePath target = true)
    (hraiz : isAbsolutePath raiz = true) :
    localPath host raiz target = simplifyPath target := by
  have hne : target ≠ [] := by
    rintro rfl
    cases habs
  have hdot : normalizePath target ≠ dot := by
    intro h
    rw [← isAbsolutePath_normalizePath, h] at habs
    cases habs
  have hnil : normalizePath target ≠ [] := fun h => hne (normalizePath_eq_nil.mp h)
  have hbase : ¬(normalizePath (orDot raiz) = [] ∨ normalizePath (orDot raiz) = dot) := by
    rintro (h | h)
    · exact normalizePath_orDot_ne_nil raiz h
    · rw [← isAbsolutePath_orDot, ← isAbsolutePath_normalizePath, h] at hraiz
      cases hraiz
  have hjoin : joinPath raiz target = normalizePath target := by
    rw [joinPath, orDot_of_ne_nil hne]
    simp only [hbase, hnil, hdot, or_self, if_false, isAbsolutePath_normalizePath, habs, if_true]
  have hnorm : normalizePath (normalizePath target) = normalizePath target :=
    normalizePath_of_not_mem (backslash_not_mem_normalizePath target)
  rw [localPath, if_neg hne, hjoin,
    resolveHostPath_absolute (by rw [isAbsolutePath_normalizePath, habs]), simplifyPath,
    simplifyPath, hnorm]

theorem isAbsolutePath_rootText (names : List Text) :
    isAbsolutePath ('/' :: ['/'].intercalate names) = true := by
  rw [isAbsolutePath_iff]
  exact .inl rfl

/-- The path of a target without a drive letter is settled. -/
theorem settled_localPath (h : ∀ n ∈ names, PlainName n) (hb : ∀ n ∈ names, '\\' ∉ n)
    {target : Text} (hdrive : hasDrive (normalizePath target) = false) :
    Settled host base (localPath host ('/' :: ['/'].intercalate names) target)
      (.absolute (targetNames names target)) := by
  by_cases hroot : Rooted target
  · have habs : isAbsolutePath target = true := isAbsolutePath_iff.mpr (.inl hroot)
    rw [localPath_of_absolute habs (isAbsolutePath_rootText names), simplifyPath_rooted hroot,
      targetNames, if_pos hroot]
    exact settled_rooted (fun n => plainName_of_walk) fun n => backslash_not_mem_names
  · have hrel : isAbsolutePath target = false := isAbsolutePath_false_iff.mpr ⟨hroot, hdrive⟩
    rw [localPath_rooted h hb hrel, targetNames, if_neg hroot]
    exact settled_rooted (names_mul_plain h target) (names_mul_backslash hb target 0)

theorem isAbsolutePath_simplifyPath_drive {target : Text}
    (hdrive : hasDrive (normalizePath target) = true) :
    isAbsolutePath (simplifyPath target) = true := by
  obtain ⟨c, rest, hc, htext⟩ := hasDrive_iff.mp hdrive
  have hcolon : (':' : Char) ≠ '\\' := by decide
  rw [isAbsolutePath_iff, (simplified_simplifyPath target).normalizePath_eq,
    simplifyPath_drive hdrive,
    htext, hasDrive_iff]
  exact .inr ⟨c, _, hc, rfl⟩

theorem localPath_drive {target : Text} (hdrive : hasDrive (normalizePath target) = true) :
    localPath host ('/' :: ['/'].intercalate names) target = simplifyPath target :=
  localPath_of_absolute (isAbsolutePath_iff.mpr (.inr hdrive)) (isAbsolutePath_rootText names)

end Target

/-! ## The roots -/

/-- The names of the directory of the sample. -/
def sampleNames (dir : Text) : List Text := (walk (normalizePath dir)).names

/-- The names of the root of `USER_WS`. -/
def userNames (dir : Text) : List Text := sampleNames dir ++ ["nullclaw_workspace".toList]

theorem resolvedRoot_eq {host : HostDirs} {dir : Text} (h : Rooted dir) :
    resolvedRoot host dir = '/' :: ['/'].intercalate (sampleNames dir) := by
  rw [resolvedRoot, resolveHostPath_absolute (isAbsolutePath_iff.mpr (.inl h)),
    simplifyPath_rooted h, sampleNames]

theorem rooted_append {dir : Text} (h : Rooted dir) (rest : Text) : Rooted (dir ++ rest) := by
  rw [Rooted] at h ⊢
  rw [normalizePath, List.map_append, head?_append_of_ne_nil]
  · exact h
  · intro hnil
    rw [normalizePath, hnil] at h
    cases h

theorem sampleNames_append (dir : Text) {name : Text} (h : PlainName name) (hb : '\\' ∉ name) :
    sampleNames (dir ++ '/' :: name) = sampleNames dir ++ [name] := by
  have hnorm : normalizePath (dir ++ '/' :: name) = normalizePath dir ++ '/' :: name := by
    rw [normalizePath, List.map_append, ← normalizePath, ← normalizePath,
      normalizePath_of_not_mem (show '\\' ∉ '/' :: name by simp [hb])]
  have hname : walk name = ⟨0, [name]⟩ := by
    simpa using walk_intercalate (show ∀ n ∈ [name], PlainName n by simpa using h)
  rw [sampleNames, hnorm, walk_append, hname, RelPath.mul_names]
  simp [sampleNames]

theorem sampleNames_plain (dir : Text) : ∀ n ∈ sampleNames dir, PlainName n :=
  fun _ => plainName_of_walk

theorem sampleNames_backslash (dir : Text) : ∀ n ∈ sampleNames dir, '\\' ∉ n :=
  fun _ => backslash_not_mem_names

section Roots

variable {host : HostDirs} {dir : Text}

theorem sampleNames_user : sampleNames (dir ++ "/nullclaw_workspace".toList) = userNames dir :=
  sampleNames_append dir ⟨by decide, by decide, by decide, by decide⟩ (by decide)

theorem userRoot_eq (h : Rooted dir) :
    userRoot host dir = '/' :: ['/'].intercalate (userNames dir) := by
  rw [userRoot, resolvedRoot_eq (rooted_append h _), sampleNames_user]

theorem userNames_plain : ∀ n ∈ userNames dir, PlainName n := by
  rw [← sampleNames_user]
  exact sampleNames_plain _

theorem nul_not_mem_normalizePath {path : Text} (h : '\x00' ∉ path) :
    '\x00' ∉ normalizePath path := by
  intro hmem
  obtain ⟨c, hc, heq⟩ := List.mem_map.mp hmem
  split at heq
  · exact absurd heq (by decide)
  · exact h (heq ▸ hc)

theorem sampleNames_nul {dir : Text} (h : '\x00' ∉ dir) : ∀ n ∈ sampleNames dir, '\x00' ∉ n :=
  nul_not_mem_walk (nul_not_mem_normalizePath h)

theorem userNames_nul (h : '\x00' ∉ dir) : ∀ n ∈ userNames dir, '\x00' ∉ n := by
  intro n hn
  rcases List.mem_append.mp hn with hm | hm
  · exact sampleNames_nul h n hm
  · rw [List.mem_singleton.mp hm]
    decide

theorem userNames_backslash : ∀ n ∈ userNames dir, '\\' ∉ n := by
  rw [← sampleNames_user]
  exact sampleNames_backslash _

theorem locate_userRoot (h : Rooted dir) :
    locate (userRoot host dir) = some (.absolute (userNames dir)) := by
  rw [userRoot_eq h, locate_rooted userNames_plain]

theorem rooted_dirnamePath {path : Text} (h : Rooted path) : Rooted (dirnamePath path) := by
  rw [Rooted] at h
  cases hpath : normalizePath path with
  | nil =>
      rw [hpath] at h
      cases h
  | cons c rest =>
      obtain rfl : c = '/' := by simpa [hpath] using h
      have hindex : lastIndexOf '/' (normalizePath path) ≠ none := by
        intro hnone
        rw [lastIndexOf, Option.map_eq_none_iff, List.idxOf?_eq_none_iff, hpath] at hnone
        simp at hnone
      rw [dirnamePath]
      split
      · rename_i hnone
        exact absurd hnone hindex
      · rfl
      · rename_i idx hzero _
        obtain ⟨k, rfl⟩ : ∃ k, idx = k + 1 := Nat.exists_eq_succ_of_ne_zero hzero
        rw [hpath, List.take_succ_cons]
        rfl

theorem rooted_scriptPath {cwd scriptArg : Text} (hcwd : cwd.head? = some '/')
    (hscript : startsAbsolute scriptArg = true → scriptArg.head? = some '/') :
    (scriptPath cwd scriptArg).head? = some '/' := by
  rw [scriptPath]
  split
  · rename_i habs
    rw [normalizePath, List.head?_map, hscript habs]
    rfl
  · cases hdir : (normalizePath cwd).rdropWhile (· = '/') with
    | nil => rfl
    | cons c rest =>
        have hcut := List.rdropWhile_prefix (fun c => decide (c = '/')) (l := normalizePath cwd)
        have hhead : (normalizePath cwd).head? = some '/' := by
          rw [normalizePath, List.head?_map, hcwd]
          rfl
        rw [hdir] at hcut
        obtain ⟨tail, htail⟩ := hcut
        rw [← htail] at hhead
        exact hhead

/-- The directory of the sample starts at the root when the current directory does. -/
theorem rooted_sampleDir {cwd scriptArg : Text} (hcwd : cwd.head? = some '/')
    (hscript : startsAbsolute scriptArg = true → scriptArg.head? = some '/') :
    Rooted (sampleDir cwd scriptArg) := by
  apply rooted_dirnamePath
  rw [Rooted, normalizePath, List.head?_map, rooted_scriptPath hcwd hscript]
  rfl

theorem sampleDir_nul {cwd scriptArg : Text} (hcwd : '\x00' ∉ cwd) (hscript : '\x00' ∉ scriptArg) :
    '\x00' ∉ sampleDir cwd scriptArg := by
  have hpath : '\x00' ∉ scriptPath cwd scriptArg := by
    rw [scriptPath]
    split
    · exact nul_not_mem_normalizePath hscript
    · rw [List.mem_append, List.mem_cons, not_or, not_or]
      refine ⟨fun hmem => ?_, by decide, fun hmem => ?_⟩
      · exact nul_not_mem_normalizePath hcwd ((List.rdropWhile_prefix _ _).subset hmem)
      · exact nul_not_mem_normalizePath hscript ((List.dropWhile_sublist _).subset hmem)
  rw [sampleDir, dirnameSimples, dirnamePath]
  split
  · decide
  · decide
  · exact fun hmem => nul_not_mem_normalizePath hpath (List.mem_of_mem_take hmem)

end Roots

/-! ## Accesses -/

section Accesses

variable {host : HostDirs} {base raiz : Text} {accesses : List Access}

theorem confined_append {more : List Access} :
    Confined host raiz (accesses ++ more) ↔ Confined host raiz accesses ∧ Confined host raiz more :=
  List.forall_mem_append

theorem confined_cons_stat (path : Text) :
    Confined host raiz (⟨.stat, path⟩ :: accesses) ↔ Confined host raiz accesses := by
  simp [Confined]

theorem confined_nil : Confined host raiz [] := by simp [Confined]

variable {names : List Text}

theorem confined_singleton {use : FileUse} (huse : use ≠ .stat) {path : Text} {l : Location}
    (hraiz : locate raiz = some (.absolute names)) (hl : locate path = some l) :
    Confined host raiz [⟨use, path⟩] ↔ names <+: placeNames host.getcwd l := by
  simp [Confined, huse, Access.Within, hraiz, hl, placeNames]

theorem builtinAccess_eq (hhost : HasBase host base) (use : FileUse) (path : Text) :
    builtinAccess host use path =
      if 4096 ≤ utf8Length (jsPtPathText base (cText path)) then []
      else [⟨use, jsPtPathText base (cText path)⟩] := by
  rw [builtinAccess, jsPtResolvePath_eq hhost, printToBuffer]
  split <;> rfl

theorem confined_builtin (hhost : HasBase host base) {use : FileUse} (huse : use ≠ .stat)
    (hraiz : locate raiz = some (.absolute names)) (path : Text) :
    Confined host raiz (builtinAccess host use path) ↔
      4096 ≤ utf8Length (jsPtPathText base (cText path)) ∨
        names <+: placeNames host.getcwd (builtinPlace base (cText path)) := by
  rw [builtinAccess_eq hhost]
  split
  · rename_i hlong
    simp [confined_nil, hlong]
  · rename_i hfits
    rw [confined_singleton huse hraiz (locate_jsPtPathText hhost.ne_nil (cText path))]
    simp [hfits]

theorem confined_builtin_stat (hhost : HasBase host base) (path : Text) :
    Confined host raiz (builtinAccess host .stat path) := by
  rw [builtinAccess_eq hhost]
  split
  · exact confined_nil
  · exact (confined_cons_stat _).mpr confined_nil

end Accesses

/-! ## What the tools reach -/

/-- Where the standard library goes for a target with a drive letter. -/
def drivePlace (target : Text) : Location :=
  .relative (walk (cText (simplifyPath target)))

/-- A builtin given the path of the target below `root` stays below the workspace, or does not
take the path. -/
def ReadsBelow (host : HostDirs) (base dir root : Text) (names : List Text) (target : Text) :
    Prop :=
  4096 ≤ utf8Length (jsPtPathText base (cText (localPath host root target))) ∨
    StaysBelow host.getcwd (userNames dir) names
      (builtinPlace base (cText (localPath host root target))) target

/-- When a tool keeps to the workspace. -/
def KeepsInside {W : Type} (host : HostDirs) (fs : FileSystem W) (base dir : Text) (tool : Tool)
    (payload : Text) (w : W) : Prop :=
  match tool with
  | .ls =>
      StaysBelow host.getcwd (userNames dir) (userNames dir) (drivePlace (orDefault payload dot))
        (orDefault payload dot)
  | .read =>
      ReadsBelow host base dir (userRoot host dir) (userNames dir)
        (orDefault payload "AGENTS.md".toList)
  | .write => False
  | .scan =>
      let target := orDefault payload "AGENTS.md".toList
      if Workspace.existe host fs (userRoot host dir) target w then
        ReadsBelow host base dir (userRoot host dir) (userNames dir) target
      else
        arquivoExiste host fs (localPath host (sampleRoot host dir) target) w = some true →
          ReadsBelow host base dir (sampleRoot host dir) (sampleNames dir) target

section Tools

variable {W : Type} {host : HostDirs} {fs : FileSystem W} {base dir : Text}

theorem orDefault_ne_nil {text default : Text} (h : default ≠ []) :
    orDefault text default ≠ [] := by
  rw [orDefault]
  split
  · exact h
  · assumption

/-- What a builtin reaches of the workspace at `names`. -/
theorem readsBelow_iff (hhost : HasBase host base) {names : List Text}
    (h : ∀ n ∈ names, PlainName n) (hb : ∀ n ∈ names, '\\' ∉ n) (hnul : ∀ n ∈ names, '\x00' ∉ n)
    (hnames : names <+: userNames dir)
    {root : Text} (hroot : root = '/' :: ['/'].intercalate names) (target : Text) :
    ReadsBelow host base dir root names target ↔
      4096 ≤ utf8Length (jsPtPathText base (cText (localPath host root target))) ∨
        userNames dir <+:
          placeNames host.getcwd (builtinPlace base (cText (localPath host root target))) := by
  subst hroot
  rw [ReadsBelow]
  refine or_congr_right ?_
  by_cases hdrive : hasDrive (normalizePath target) = true
  · rw [StaysBelow, if_pos hdrive]
  · rw [Bool.not_eq_true] at hdrive
    have hsettled : Settled host base (localPath host ('/' :: ['/'].intercalate names) target) _ :=
      settled_localPath h hb hdrive
    have hbuiltin := hsettled.builtin
    rw [locate_jsPtPathText hhost.ne_nil, cut_targetNames h hnul] at hbuiltin
    rw [staysBelow_iff hnames _ hdrive, Option.some.inj hbuiltin]
    rfl

theorem locate_cText_drive {target : Text} (hdrive : hasDrive (normalizePath target) = true) :
    locate (cText (simplifyPath target)) = some (drivePlace target) := by
  obtain ⟨c, rest, hc, htext⟩ := hasDrive_iff.mp hdrive
  have hclean : '\x00' ∉ [c] := by
    rw [List.mem_singleton]
    rintro rfl
    exact absurd hc (by decide)
  have hslash : c ≠ '/' := by
    rintro rfl
    exact absurd hc (by decide)
  have hcut : ∃ more, cText (simplifyPath target) = c :: more := by
    rw [simplifyPath_drive hdrive, htext]
    exact ⟨_, cText_append hclean _⟩
  obtain ⟨more, hmore⟩ := hcut
  rw [drivePlace, hmore]
  simp [locate, hslash]

theorem ls_confined_iff (hdir : Rooted dir) (hnul : '\x00' ∉ dir) (payload : Text) (w : W) :
    Confined host (userRoot host dir) (ls host fs dir payload w).accesses ↔
      KeepsInside host fs base dir .ls payload w := by
  have hne : orDefault payload dot ≠ [] := orDefault_ne_nil (by decide)
  simp only [ls, KeepsInside, orDot_of_ne_nil hne]
  generalize orDefault payload dot = target at hne
  by_cases hdrive : hasDrive (normalizePath target) = true
  · have hpath : localPath host (userRoot host dir) target = simplifyPath target := by
      rw [userRoot_eq hdir, localPath_drive hdrive]
    have habs := isAbsolutePath_simplifyPath_drive hdrive
    have hnil : simplifyPath target ≠ [] := by
      intro h
      rw [h] at habs
      cases habs
    rw [hpath, orDot_of_ne_nil hnil, resolveHostPath_absolute habs,
      (simplified_simplifyPath target).simplifyPath_eq,
      confined_singleton (by decide) (locate_userRoot hdir) (locate_cText_drive hdrive),
      StaysBelow, if_pos hdrive]
  · rw [Bool.not_eq_true] at hdrive
    have hsettled : Settled host base (localPath host (userRoot host dir) target)
        (.absolute (targetNames (userNames dir) target)) := by
      rw [userRoot_eq hdir]
      exact settled_localPath userNames_plain userNames_backslash hdrive
    have hseen := hsettled.locate_cText_rooted
    rw [cut_targetNames userNames_plain (userNames_nul hnul)] at hseen
    rw [orDot_of_ne_nil hsettled.pathTo.ne_nil, hsettled.resolve,
      confined_singleton (by decide) (locate_userRoot hdir) hseen,
      staysBelow_iff (List.prefix_refl _) _ hdrive]
    rfl

theorem read_confined_iff (hhost : HasBase host base) (hdir : Rooted dir) (hnul : '\x00' ∉ dir)
    (target : Text) :
    Confined host (userRoot host dir)
        (builtinAccess host .read (localPath host (userRoot host dir) target)) ↔
      ReadsBelow host base dir (userRoot host dir) (userNames dir) target := by
  rw [confined_builtin hhost (by decide) (locate_userRoot hdir),
    readsBelow_iff hhost userNames_plain userNames_backslash (userNames_nul hnul)
      (List.prefix_refl _) (userRoot_eq hdir)]

theorem sample_read_confined_iff (hhost : HasBase host base) (hdir : Rooted dir)
    (hnul : '\x00' ∉ dir) (target : Text) :
    Confined host (userRoot host dir)
        (builtinAccess host .read (localPath host (sampleRoot host dir) target)) ↔
      ReadsBelow host base dir (sampleRoot host dir) (sampleNames dir) target := by
  have hroot : sampleRoot host dir = '/' :: ['/'].intercalate (sampleNames dir) :=
    resolvedRoot_eq hdir
  rw [confined_builtin hhost (by decide) (locate_userRoot hdir),
    readsBelow_iff hhost (sampleNames_plain dir) (sampleNames_backslash dir) (sampleNames_nul hnul)
      (List.prefix_append _ _) hroot]

theorem scan_confined_iff (hhost : HasBase host base) (hdir : Rooted dir) (hnul : '\x00' ∉ dir)
    (payload : Text) (w : W) :
    Confined host (userRoot host dir) (scan host fs dir payload w).accesses ↔
      KeepsInside host fs base dir .scan payload w := by
  simp only [scan, KeepsInside, confined_cons_stat]
  generalize orDefault payload "AGENTS.md".toList = target
  by_cases hexists : Workspace.existe host fs (userRoot host dir) target w = true
  · have hfound : existsHost host fs (localPath host (userRoot host dir) target) w = true := hexists
    simp only [hexists, if_true, engineScan, hfound, confined_cons_stat]
    exact read_confined_iff hhost hdir hnul target
  · simp only [hexists, if_false, Bool.false_eq_true, varrerArquivo]
    cases hfile : arquivoExiste host fs (localPath host (sampleRoot host dir) target) w with
    | none => simp [confined_nil]
    | some found =>
        cases found with
        | false => simp [confined_builtin_stat hhost]
        | true =>
            simp only [confined_append, confined_builtin_stat hhost, true_and, forall_const]
            exact sample_read_confined_iff hhost hdir hnul target

/-! ### The memory file -/

theorem memoryFile_eq (hdir : Rooted dir) : memoryFile host dir = '/' :: ['/'].intercalate
    (sampleNames dir ++ ["nullclaw_state".toList, "memory.json".toList]) := by
  have hstate : sampleNames (dir ++ "/nullclaw_state".toList) =
      sampleNames dir ++ ["nullclaw_state".toList] :=
    sampleNames_append dir ⟨by decide, by decide, by decide, by decide⟩ (by decide)
  have hname : walk (normalizePath "memory.json".toList) = ⟨0, ["memory.json".toList]⟩ := by decide
  rw [memoryFile, stateRoot, resolvedRoot_eq (rooted_append hdir _),
    localPath_rooted (sampleNames_plain _) (sampleNames_backslash _) (by decide), hstate, hname,
    RelPath.mul_names, Nat.sub_zero, List.take_length, List.append_assoc]
  rfl

/-- The memory of the agent is not in the workspace of the user. -/
theorem memory_not_within (hhost : HasBase host base) (hdir : Rooted dir) (hnul : '\x00' ∉ dir)
    (hfits : utf8Length (memoryFile host dir) < 4096) :
    ¬Confined host (userRoot host dir) (builtinAccess host .read (memoryFile host dir)) := by
  have hplain : ∀ n ∈ sampleNames dir ++ ["nullclaw_state".toList, "memory.json".toList],
      PlainName n := by
    intro n hn
    rcases List.mem_append.mp hn with h | h
    · exact sampleNames_plain dir n h
    · rcases List.mem_pair.mp h with rfl | rfl
      · exact ⟨by decide, by decide, by decide, by decide⟩
      · exact ⟨by decide, by decide, by decide, by decide⟩
  have htext : jsPtPathText base (memoryFile host dir) = memoryFile host dir := by
    simp [memoryFile_eq hdir, jsPtPathText, jsPtPathIsAbs]
  have hplace : builtinPlace base (memoryFile host dir) =
      .absolute (sampleNames dir ++ ["nullclaw_state".toList, "memory.json".toList]) := by
    apply Option.some.inj
    rw [← locate_jsPtPathText hhost.ne_nil, htext, memoryFile_eq hdir, locate_rooted hplain]
  have hclean : '\x00' ∉ memoryFile host dir := by
    rw [memoryFile_eq hdir, List.mem_cons, not_or]
    refine ⟨by decide, nul_not_mem_intercalate fun n hn => ?_⟩
    rcases List.mem_append.mp hn with h | h
    · exact sampleNames_nul hnul n h
    · rcases List.mem_pair.mp h with rfl | rfl
      · decide
      · decide
  rw [confined_builtin hhost (by decide) (locate_userRoot hdir), cText_of_not_mem hclean, htext,
    hplace, placeNames, userNames, List.prefix_append_right_inj]
  -- memory.json stands beside the directory of the user, not below it
  rintro (hlong | hproper)
  · omega
  · exact absurd hproper (by decide)

theorem appendMemory_accesses (host : HostDirs) (fs : FileSystem W) (dir : Text)
    (remember : Option Text → Text → Option Text) (texto : Text) (w : W) :
    ∃ more, (appendMemory host fs dir remember texto w).2.1 =
      builtinAccess host .read (memoryFile host dir) ++ more := by
  rw [appendMemory]
  split
  · exact ⟨[], (List.append_nil _).symm⟩
  · exact ⟨_, rfl⟩

theorem write_not_confined (hhost : HasBase host base) (hdir : Rooted dir) (hnul : '\x00' ∉ dir)
    (hfits : utf8Length (memoryFile host dir) < 4096)
    (remember : Option Text → Text → Option Text) (payload : Text) (w : W) :
    ¬Confined host (userRoot host dir) (write host fs dir remember payload w).accesses := by
  intro h
  rw [write, confined_append] at h
  obtain ⟨more, hmore⟩ := appendMemory_accesses host fs dir remember
    ("arquivo ".toList ++ orDefault ((splitSpaces payload).headD []) "nota.txt".toList ++
      " atualizado".toList)
    (Workspace.escreverTexto host fs (userRoot host dir)
      (orDefault ((splitSpaces payload).headD []) "nota.txt".toList)
      (orDefault ([' '].intercalate (splitSpaces payload).tail) "conteudo vazio".toList ++ ['\n'])
      w).2
  rw [hmore, confined_append] at h
  exact memory_not_within hhost hdir hnul hfits h.2.1

end Tools

/-! ## Every tool on every payload -/

/-- A tool keeps its files in the workspace exactly when `KeepsInside` says so. The path of the
script begins with a slash or is joined to the current directory, and the memory file has a path
that the builtins take: the sample has written it when it started. The current directory and the
arguments of a process are C strings. -/
theorem tools_confined_iff {W : Type} {host : HostDirs} {base scriptArg : Text}
    (hhost : HasBase host base) (hcwd : host.getcwd.head? = some '/')
    (hscript : startsAbsolute scriptArg = true → scriptArg.head? = some '/')
    (hcwdNul : '\x00' ∉ host.getcwd) (hscriptNul : '\x00' ∉ scriptArg)
    (hfits : utf8Length (memoryFile host (sampleDir host.getcwd scriptArg)) < 4096)
    (fs : FileSystem W) (remember : Option Text → Text → Option Text) (tool : Tool) (payload : Text)
    (w : W) :
    Confined host (userRoot host (sampleDir host.getcwd scriptArg))
        (runTool host fs (sampleDir host.getcwd scriptArg) remember tool payload w).accesses ↔
      KeepsInside host fs base (sampleDir host.getcwd scriptArg) tool payload w := by
  have hdir : Rooted (sampleDir host.getcwd scriptArg) := rooted_sampleDir hcwd hscript
  have hnul := sampleDir_nul hcwdNul hscriptNul
  cases tool with
  | ls => exact ls_confined_iff hdir hnul payload w
  | read => exact read_confined_iff hhost hdir hnul (orDefault payload "AGENTS.md".toList)
  | write =>
      exact iff_of_false (write_not_confined hhost hdir hnul hfits remember payload w) id
  | scan => exact scan_confined_iff hhost hdir hnul payload w

/-- A file system that has nothing and takes nothing. -/
def emptyDisk : FileSystem Unit where
  Info := Unit
  stat := fun _ _ => .error 2
  mkdir := fun _ w => (-13, w)
  readdir := fun _ _ => .error 2
  remove := fun _ w => (-2, w)
  rename := fun _ _ w => (-2, w)
  load := fun _ _ => none
  store := fun _ _ _ => none

/-- A script of the directory `samples`, started beside it. -/
def samplesHost : HostDirs := { ptBaseDir := some "samples".toList, getcwd := "/srv".toList }

theorem tools_confined_iff_samples :
    Confined samplesHost
        (userRoot samplesHost (sampleDir samplesHost.getcwd "samples/nullclaw.ptjs".toList))
        (runTool samplesHost emptyDisk
          (sampleDir samplesHost.getcwd "samples/nullclaw.ptjs".toList) (fun _ text => some text)
          .ls "a/..".toList ()).accesses ↔
      KeepsInside samplesHost emptyDisk "samples".toList
        (sampleDir samplesHost.getcwd "samples/nullclaw.ptjs".toList) .ls "a/..".toList () :=
  tools_confined_iff ⟨rfl, by decide, by decide⟩ (by decide) (by decide) (by decide) (by decide)
    (by decide +kernel) _ _ _ _ _

/-- The parent of the root is listed. -/
theorem ls_leaves_workspace :
    ¬∀ (tool : Tool) (payload : Text),
      Confined samplesHost
        (userRoot samplesHost (sampleDir samplesHost.getcwd "samples/nullclaw.ptjs".toList))
        (runTool samplesHost emptyDisk
          (sampleDir samplesHost.getcwd "samples/nullclaw.ptjs".toList) (fun _ text => some text)
          tool payload ()).accesses := by
  intro h
  have hparent := h .ls "..".toList _ (List.mem_singleton_self _) (by decide)
  exact absurd (hparent (.absolute ["srv".toList, "samples".toList, "nullclaw_workspace".toList])
    (by decide +kernel) (.absolute ["srv".toList, "samples".toList]) (by decide +kernel))
    (by decide)

end GatoCore.NullClaw
