import Mathlib.Data.List.Induction
import GatoCore.Lib.Lists
import GatoCore.Lib.Moves
import GatoCore.Stdlib.FileFrame
import GatoCore.Stdlib.Quarantine

/-!
# What the quarantine loses

The name of a file in the quarantine is made of its path or its alias, many of which make the same
name, and moving a file replaces the file that has that name. No file is lost in a run whose moves
have no place in common.
-/

namespace GatoCore.Stdlib

open GatoCore.Lib

/-! ## Names of files in the quarantine -/

theorem isNameChar_of_mem_replaceRuns {c : Char} : ∀ {t : Text} {inside : Bool},
    c ∈ replaceRuns inside t → isNameChar c = true := by
  intro t
  induction t with
  | nil =>
      intro inside h
      cases h
  | cons d t ih =>
      intro inside h
      unfold replaceRuns at h
      split_ifs at h with hd hin
      · rcases List.mem_cons.mp h with rfl | h
        · exact hd
        · exact ih h
      · exact ih h
      · rcases List.mem_cons.mp h with rfl | h
        · decide
        · exact ih h

theorem mem_of_mem_stripUnderscores {c : Char} {t : Text} (h : c ∈ stripUnderscores t) : c ∈ t := by
  have hsuffix := List.dropWhile_suffix (fun c : Char => decide (c = '_')) (l := t)
  have hrest := List.dropWhile_suffix (fun c : Char => decide (c = '_'))
    (l := (t.dropWhile (· = '_')).reverse)
  exact hsuffix.subset (List.mem_reverse.mp (hrest.subset (List.mem_reverse.mp h)))

theorem isNameChar_of_isDigit {c : Char} (h : c.isDigit = true) : isNameChar c = true := by
  simp [isNameChar, Char.isAlphanum, h]

theorem isNameChar_of_mem_targetName {c : Char} {call : Isolamento} (h : c ∈ call.targetName) :
    isNameChar c = true := by
  unfold Isolamento.targetName sanitizeNamePart at h
  simp only at h
  split_ifs at h
  · have hitem : "item_".toList.all isNameChar = true := by decide
    rcases List.mem_append.mp h with h | h
    · exact List.all_eq_true.mp hitem c h
    · exact isNameChar_of_isDigit (Nat.isDigit_of_mem_toDigits (by decide) (by decide) h)
  · exact isNameChar_of_mem_replaceRuns (mem_of_mem_stripUnderscores h)

theorem targetName_ne_nil (call : Isolamento) : call.targetName ≠ [] := by
  unfold Isolamento.targetName sanitizeNamePart
  simp only
  split_ifs with h
  · simp
  · exact h

/-- A text that is one component of a path. -/
structure OneName (t : Text) : Prop where
  ne_nil : t ≠ []
  no_slash : '/' ∉ t
  no_backslash : '\\' ∉ t

theorem oneName_targetName (call : Isolamento) : OneName call.targetName where
  ne_nil := targetName_ne_nil call
  no_slash h := absurd (isNameChar_of_mem_targetName h) (by decide)
  no_backslash h := absurd (isNameChar_of_mem_targetName h) (by decide)

theorem OneName.normalizePath_eq {t : Text} (h : OneName t) : normalizePath t = t :=
  normalizePath_of_not_mem h.no_backslash

theorem OneName.isAbsolutePath {t : Text} (h : OneName t) : isAbsolutePath t = false :=
  isAbsolutePath_of_no_slash h.no_slash h.no_backslash

/-- A component of a path stays, goes up, or goes down by one name. -/
theorem OneName.walk_cases {t : Text} (h : OneName t) :
    walk t = 1 ∨ walk t = ⟨1, []⟩ ∨ walk t = ⟨0, [t]⟩ := by
  have hsteps : walk t = partWalk t := by
    have hsplit : t.splitOn '/' = [t] := by
      have hone := List.splitOn_intercalate '/' (show ∀ x ∈ [t], '/' ∉ x by simpa using h.no_slash)
        (by simp)
      simpa using hone
    unfold walk pathSteps partWalk
    rw [hsplit]
    cases hstep : pathStep t <;> simp [hstep]
  rw [hsteps]
  by_cases hdot : t = [] ∨ t = dot
  · exact Or.inl (partWalk_eq_one hdot)
  · by_cases hup : t = dotDot
    · rw [hup]
      exact Or.inr (Or.inl partWalk_dotDot)
    · exact Or.inr (Or.inr (partWalk_name hdot hup))

/-! ## The files -/

variable {W : Type}

/-- The file at the end of the names from the root. -/
def fileAt (fs : FileSystem W) (w : W) (names : List Text) : Option Text :=
  fs.load (.absolute names) w

/-- The file that a path denotes. -/
def contents (fs : FileSystem W) (path : Text) (w : W) : Option Text :=
  onPath path none (fs.load · w)

/-- The names down to the place that a path denotes. -/
def spot (host : HostDirs) (path : Text) : Option (List Text) :=
  (locate path).map (placeNames host.getcwd)

/-- Files have been renamed, and nothing else has happened. -/
inductive FileSystem.Renamed (fs : FileSystem W) (w : W) : W → Prop
  | refl : fs.Renamed w w
  | rename {w' : W} {l l' : Location} {t : Text} (h : fs.Renamed w w')
      (hfile : fs.load l w' = some t) : fs.Renamed w (fs.rename l l' w').2

/-- Files and directories without links. -/
structure FileSystem.Posix (cwd : Text) (fs : FileSystem W) : Prop where
  /-- A relative place is the one it leads to. -/
  load_place : ∀ l w, fs.load l w = fileAt fs w (placeNames cwd l)
  rename_place : ∀ l l' w, fs.rename l l' w =
    fs.rename (.absolute (placeNames cwd l)) (.absolute (placeNames cwd l')) w
  load_stat : ∀ {l w t}, fs.load l w = some t → (fs.stat l w).isOk = true
  mkdir_load : fs.KeepsFiles
  mkdir_stat : ∀ {l w w' ret}, fs.mkdir l w = (ret, w') → 0 ≤ ret ∨ ret = -17 →
    (fs.stat l w').isOk = true
  mkdir_keeps : ∀ {l k w}, (fs.stat k w).isOk = true → (fs.stat k (fs.mkdir l w).2).isOk = true
  /-- A file is renamed, and the file that was there is replaced. -/
  rename_load : ∀ {a b w w' ret t}, fs.rename (.absolute a) (.absolute b) w = (ret, w') →
    fileAt fs w a = some t → 0 ≤ ret → fileAt fs w' = move (fileAt fs w) (a, b)
  rename_failed : ∀ {a b w w' ret}, fs.rename (.absolute a) (.absolute b) w = (ret, w') →
    ret < 0 → w' = w
  rename_keeps : ∀ {a b k w t}, fileAt fs w a = some t → k ≠ a →
    (fs.stat (.absolute k) w).isOk = true →
    (fs.stat (.absolute k) (fs.rename (.absolute a) (.absolute b) w).2).isOk = true
  /-- A file is no directory, and none is replaced. -/
  rename_nested : ∀ {a b w t}, fileAt fs w a = some t →
    0 ≤ (fs.rename (.absolute a) (.absolute b) w).1 → a <+: b ∨ b <+: a → a = b
  /-- What was renamed can be renamed back. -/
  rename_back : ∀ {a b w w' t t'}, fileAt fs w a = some t →
    0 ≤ (fs.rename (.absolute a) (.absolute b) w).1 →
    fs.Renamed (fs.rename (.absolute a) (.absolute b) w).2 w' → fileAt fs w' b = some t' →
    0 ≤ (fs.rename (.absolute b) (.absolute a) w').1

section Files

variable {host : HostDirs} {fs : FileSystem W}

theorem FileSystem.Renamed.trans {w₁ w₂ w₃ : W} (h : fs.Renamed w₁ w₂) (h' : fs.Renamed w₂ w₃) :
    fs.Renamed w₁ w₃ := by
  induction h' with
  | refl => exact h
  | rename _ hfile ih => exact ih.rename hfile

theorem contents_eq (hfs : fs.Posix host.getcwd) {path : Text} {names : List Text}
    (h : spot host path = some names) (w : W) : contents fs path w = fileAt fs w names := by
  obtain ⟨l, hl, rfl⟩ := Option.map_eq_some_iff.mp h
  unfold contents
  rw [onPath_eq hl, hfs.load_place]

theorem renameHost_eq (hfs : fs.Posix host.getcwd) {path path' : Text} {a b : List Text}
    (ha : spot host (resolveHostPath host path) = some a)
    (hb : spot host (resolveHostPath host path') = some b) (w : W) :
    (renameHost host fs path path' w).2 = (fs.rename (.absolute a) (.absolute b) w).2 ∧
      ((renameHost host fs path path' w).1.isOk = true ↔
        0 ≤ (fs.rename (.absolute a) (.absolute b) w).1) := by
  obtain ⟨l, hl, rfl⟩ := Option.map_eq_some_iff.mp ha
  obtain ⟨l', hl', rfl⟩ := Option.map_eq_some_iff.mp hb
  have hcall : (onPath (resolveHostPath host path) (-2, w) fun l =>
      onPath (resolveHostPath host path') (-2, w) fun l' => fs.rename l l' w) =
        fs.rename (.absolute (placeNames host.getcwd l)) (.absolute (placeNames host.getcwd l'))
            w := by
    rw [onPath_eq hl, onPath_eq hl', hfs.rename_place]
  unfold renameHost
  rw [hcall]
  rcases fs.rename (.absolute (placeNames host.getcwd l))
    (.absolute (placeNames host.getcwd l')) w with ⟨ret, w'⟩
  simp only
  split_ifs with hret
  · exact ⟨rfl, by simpa [Resultado.isOk] using hret⟩
  · exact ⟨rfl, by simpa [Resultado.isOk] using hret⟩

end Files

/-! ## The directory of the quarantine -/

section Directory

variable {host : HostDirs} {fs : FileSystem W} {names : List Text}

def rootText (names : List Text) : Text := '/' :: ['/'].intercalate names

/-- The directory and those above it are there. -/
def DirThere (fs : FileSystem W) (names : List Text) (w : W) : Prop :=
  ∀ pre, pre <+: names → pre ≠ [] → (fs.stat (.absolute pre) w).isOk = true

/-- Names of directories as they stand in a simplified path. -/
def AllParts (names : List Text) : Prop := ∀ n ∈ names, PlainName n ∧ '\\' ∉ n

theorem AllParts.pathPart (h : AllParts names) : ∀ n ∈ names, PathPart n :=
  fun n hn => (h n hn).1.pathPart (h n hn).2

theorem AllParts.of_prefix (h : AllParts names) {pre : List Text} (hpre : pre <+: names) :
    AllParts pre := fun n hn => h n (hpre.subset hn)

theorem AllParts.settled (h : AllParts names) (host : HostDirs) (base : Text) :
    Settled host base (rootText names) (.absolute names) :=
  settled_rooted (fun n hn => (h n hn).1) fun n hn => (h n hn).2

theorem extendPath_rootText {pre : List Text} {part : Text} (h : AllParts (pre ++ [part])) :
    (if rootText pre ≠ [] then joinPath (rootText pre) part else part) =
      rootText (pre ++ [part]) := by
  have hall := foldl_extendPath_rooted h.pathPart
  rw [List.foldl_append, foldl_extendPath_rooted
    (fun p hp => h.pathPart p (List.mem_append_left _ hp))] at hall
  exact hall

theorem existsHost_rootText (h : AllParts names) (w : W) :
    existsHost host fs (rootText names) w = (fs.stat (.absolute names) w).isOk := by
  have hsettled := h.settled host []
  exact existsHost_eq (by rw [hsettled.resolve, hsettled.pathTo.locate_eq]) w

/-- A loop that ends well leaves all its directories. -/
theorem mkdirParts_there (hfs : fs.Posix host.getcwd) (hnames : AllParts names) :
    ∀ {post pre : List Text} {w w' : W}, pre ++ post = names → DirThere fs pre w →
      mkdirParts host fs post (rootText pre) w = (none, w') → DirThere fs names w'
  | [], pre, w, w', hsplit, hthere, h => by
      rw [List.append_nil] at hsplit
      cases h
      rwa [← hsplit]
  | part :: post, pre, w, w', hsplit, hthere, h => by
      have hnext : (pre ++ [part]) ++ post = names := by simpa using hsplit
      have hparts : AllParts (pre ++ [part]) := hnames.of_prefix ⟨post, hnext⟩
      have hpart : part ≠ [] := (hparts.pathPart part (by simp)).ne_nil
      have hextend : ∀ w, DirThere fs pre w → (fs.stat (.absolute (pre ++ [part])) w).isOk = true →
          DirThere fs (pre ++ [part]) w := by
        intro w hpre hone p hp hne
        rcases List.prefix_concat_iff.mp hp with rfl | hp
        · exact hone
        · exact hpre p hp hne
      simp only [mkdirParts, hpart, if_false] at h
      rw [extendPath_rootText hparts, existsHost_rootText hparts] at h
      split_ifs at h with hexists
      · exact mkdirParts_there hfs hnames hnext (hextend w hthere hexists) h
      · rcases hat : mkdirAt fs (rootText (pre ++ [part])) w with ⟨_ | err, w₁⟩
        · rw [hat] at h
          obtain ⟨ret, hmk, hret⟩ := mkdirAt_none (hparts.settled host []).pathTo.locate_eq hat
          have hworld : (fs.mkdir (.absolute (pre ++ [part])) w).2 = w₁ := by rw [hmk]
          refine mkdirParts_there hfs hnames hnext (hextend w₁ ?_ (hfs.mkdir_stat hmk hret)) h
          intro p hp hne
          rw [← hworld]
          exact hfs.mkdir_keeps (hthere p hp hne)
        · rw [hat] at h
          cases h

/-- Directories that are there are not made. -/
theorem mkdirParts_of_there (hnames : AllParts names) {w : W} (hthere : DirThere fs names w) :
    ∀ {post pre : List Text}, pre ++ post = names →
      mkdirParts host fs post (rootText pre) w = (none, w)
  | [], _, _ => rfl
  | part :: post, pre, hsplit => by
      have hnext : (pre ++ [part]) ++ post = names := by simpa using hsplit
      have hparts : AllParts (pre ++ [part]) := hnames.of_prefix ⟨post, hnext⟩
      have hpart : part ≠ [] := (hparts.pathPart part (by simp)).ne_nil
      have hexists : existsHost host fs (rootText (pre ++ [part])) w = true := by
        rw [existsHost_rootText hparts]
        exact hthere _ ⟨post, hnext⟩ (by simp)
      simp only [mkdirParts, hpart, if_false]
      rw [extendPath_rootText hparts, if_pos hexists]
      exact mkdirParts_of_there hnames hthere hnext

theorem mkdirHost_rootText (hnames : AllParts names) (w : W) :
    mkdirHost host fs (rootText names) true w =
      match mkdirParts host fs names (rootText []) w with
      | (some err, w) => (.erro err, w)
      | (none, w) => (.ok (rootText names) none, w) := by
  have hsettled := hnames.settled host []
  simp only [mkdirHost, hsettled.resolve, hsettled.pathTo.simplified.simplifyPath_eq, Bool.not_true,
    Bool.false_eq_true, if_false]
  have hloop : mkdirParts host fs ((rootText names).splitOn '/')
      (if (rootText names).head? = some '/' then ['/'] else []) w =
        mkdirParts host fs names (rootText []) w := by
    by_cases hnil : names = []
    · subst hnil
      rfl
    · have hsplit := List.splitOn_append_cons_self [] (['/'].intercalate names) (a := '/')
      rw [List.splitOn_intercalate '/' (fun p hp => (hnames p hp).1.no_slash) hnil] at hsplit
      rw [show (rootText names).splitOn '/' = [] :: names from hsplit]
      rfl
  rw [hloop]
  rcases mkdirParts host fs names (rootText []) w with ⟨_ | err, w'⟩ <;> rfl

/-- Where a name of the quarantine leads. -/
def targetPlace (names : List Text) (t : Text) : List Text :=
  (⟨0, names⟩ * walk t : RelPath Text).names

theorem spot_destination (hnames : AllParts names) {t : Text} (ht : OneName t) :
    spot host (joinPath (rootText names) t) = some (targetPlace names t) ∧
      spot host (resolveHostPath host (joinPath (rootText names) t)) =
        some (targetPlace names t) := by
  have hsimplified := (hnames.settled host []).pathTo.simplified
  have hroot : Rooted (rootText names) := by
    rw [Rooted, hsimplified.normalizePath_eq]
    rfl
  have hjoined := rooted_joinPath (show rootText names ≠ [] from List.cons_ne_nil _ _) hroot
    ht.isAbsolutePath
  have hwalk : walk (joinPath (rootText names) t) = ⟨0, names⟩ * walk t := by
    rw [walk_joinPath _ ht.isAbsolutePath, hsimplified.normalizePath_eq, ht.normalizePath_eq,
      rootText, walk_cons_slash, walk_intercalate fun n hn => (hnames n hn).1]
  constructor
  · have hhead : (joinPath (rootText names) t).head? = some '/' := by
      rw [← normalizePath_joinPath]
      exact hjoined
    have hne : joinPath (rootText names) t ≠ [] := by
      intro hnil
      rw [hnil] at hhead
      cases hhead
    rw [spot, locate, if_neg hne, if_pos hhead, hwalk]
    rfl
  · have hplain : ∀ n ∈ (⟨0, names⟩ * walk t : RelPath Text).names, PlainName n := by
      have h := names_mul_plain (fun n hn => (hnames n hn).1) t
      rwa [ht.normalizePath_eq] at h
    rw [resolveHostPath_absolute (isAbsolutePath_iff.mpr (.inl hjoined)),
      simplifyPath_rooted hjoined,
      normalizePath_joinPath, hwalk, spot, locate_rooted hplain]
    rfl

/-- A directory above the quarantine is above its files, or one of them is above it. -/
theorem targetPlace_comparable {t : Text} (ht : OneName t) {pre : List Text}
    (hpre : pre <+: names) :
    pre <+: targetPlace names t ∨ targetPlace names t <+: pre := by
  unfold targetPlace
  rw [RelPath.mul_names]
  rcases ht.walk_cases with h | h | h
  · left
    simpa [h] using hpre
  · have htake : names.take (names.length - 1) <+: names := List.take_prefix _ _
    simpa [h] using List.prefix_or_prefix_of_prefix hpre htake
  · left
    rw [h]
    simpa using hpre.trans (List.prefix_append names [t])

/-- A file that has moved into the quarantine was no directory above it. -/
theorem dirThere_rename (hfs : fs.Posix host.getcwd) {t : Text} (ht : OneName t)
    {a : List Text} {w : W} {text : Text} (hfile : fileAt fs w a = some text)
    (hok : 0 ≤ (fs.rename (.absolute a) (.absolute (targetPlace names t)) w).1)
    (hthere : DirThere fs names w) :
    DirThere fs names (fs.rename (.absolute a) (.absolute (targetPlace names t)) w).2 := by
  intro pre hpre hne
  by_cases hpa : pre = a
  · have hsame : a = targetPlace names t := by
      subst hpa
      exact hfs.rename_nested hfile hok (targetPlace_comparable ht hpre)
    have hload := hfs.rename_load rfl hfile hok
    have hafter : fileAt fs (fs.rename (.absolute a) (.absolute (targetPlace names t)) w).2 a =
        some text := by
      rw [hload, ← hfile]
      exact if_pos hsame
    rw [hpa]
    exact hfs.load_stat hafter
  · exact hfs.rename_keeps hfile hpa (hthere pre hpre hne)

end Directory

/-! ## One call -/

section Runs

variable {host : HostDirs} {fs : FileSystem W} {names : List Text}

/-- The place of a file and where it has been moved. -/
def moveOf (host : HostDirs) (r : Registro) : List Text × List Text :=
  ((spot host r.origem).getD [], (spot host r.destino).getD [])

/-- An entry whose paths denote places, and the same ones when they are resolved. -/
structure Known (host : HostDirs) (r : Registro) : Prop where
  origem : spot host r.origem = some (moveOf host r).1
  origem_again : spot host (resolveHostPath host r.origem) = some (moveOf host r).1
  destino : spot host r.destino = some (moveOf host r).2
  destino_again : spot host (resolveHostPath host r.destino) = some (moveOf host r).2

/-- The entry that a call adds. -/
def entryOf (host : HostDirs) (q : Quarentena) (c : Isolamento) : Registro :=
  { origem := resolveHostPath host c.path, destino := q.destino c }

/-- A call whose file and whose name in the quarantine are no places of an earlier file, and whose
path stays the same when it is resolved again. -/
structure Sound (host : HostDirs) (q : Quarentena) (c : Isolamento) : Prop where
  settled : spot host (resolveHostPath host (resolveHostPath host c.path)) =
    spot host (resolveHostPath host c.path)
  fresh : ∀ r ∈ q.registros, spot host (q.destino c) ≠ spot host r.destino ∧
    spot host (q.destino c) ≠ spot host r.origem ∧
    spot host (resolveHostPath host c.path) ≠ spot host r.destino

/-- A file that was moved can be moved back from a state and those that follow. -/
def Returns (fs : FileSystem W) (w : W) (m : List Text × List Text) : Prop :=
  ∀ w' t, fs.Renamed w w' → fileAt fs w' m.2 = some t →
    0 ≤ (fs.rename (.absolute m.2) (.absolute m.1) w').1

theorem Returns.later {w w' : W} {m : List Text × List Text} (h : Returns fs w m)
    (hw : fs.Renamed w w') : Returns fs w' m := fun w'' t hw' hfile => h w'' t (hw.trans hw') hfile

/-- What a run of sound calls keeps. -/
structure Tracked (host : HostDirs) (fs : FileSystem W) (names : List Text) (w₀ : W)
    (s : Quarentena × W) : Prop where
  diretorio : s.1.diretorio = rootText names
  known : ∀ r ∈ s.1.registros, Known host r
  apart : (s.1.registros.map (moveOf host)).Pairwise Apart
  files : fileAt fs s.2 = (s.1.registros.map (moveOf host)).foldl move (fileAt fs w₀)
  sources : ∀ r ∈ s.1.registros, (fileAt fs w₀ (moveOf host r).1).isSome = true
  there : s.1.registros ≠ [] → DirThere fs names s.2
  returns : ∀ r ∈ s.1.registros, Returns fs s.2 (moveOf host r)

theorem preparar_cases (hfs : fs.Posix host.getcwd) (hnames : AllParts names) {w₀ : W}
    {s : Quarentena × W} (h : Tracked host fs names w₀ s) :
    (∃ err w, s.1.preparar host fs s.2 = (.erro err, w) ∧ Tracked host fs names w₀ (s.1, w)) ∨
      ∃ path w, s.1.preparar host fs s.2 = (.ok path none, w) ∧ DirThere fs names w ∧
        Tracked host fs names w₀ (s.1, w) := by
  unfold Quarentena.preparar
  rw [h.diretorio]
  by_cases hnil : s.1.registros = []
  · have hload : ∀ l, fs.load l (mkdirHost host fs (rootText names) true s.2).2 = fs.load l s.2 :=
      fun l => mkdirHost_load host hfs.mkdir_load (rootText names) true l s.2
    have htracked : Tracked host fs names w₀
        (s.1, (mkdirHost host fs (rootText names) true s.2).2) := by
      refine ⟨h.diretorio, h.known, h.apart, ?_, h.sources, fun hne => absurd hnil hne, ?_⟩
      · rw [← h.files]
        exact funext fun names => hload _
      · intro r hr
        rw [hnil] at hr
        cases hr
    rw [mkdirHost_rootText hnames] at htracked ⊢
    rcases hparts : mkdirParts host fs names (rootText []) s.2 with ⟨_ | err, w⟩
    · rw [hparts] at htracked
      refine Or.inr ⟨_, w, rfl, ?_, htracked⟩
      refine mkdirParts_there hfs hnames (List.nil_append names) ?_ hparts
      intro pre hpre hne
      exact absurd (List.prefix_nil.mp hpre) hne
    · rw [hparts] at htracked
      exact Or.inl ⟨err, w, rfl, htracked⟩
  · right
    rw [mkdirHost_rootText hnames, mkdirParts_of_there hnames (h.there hnil)
      (List.nil_append names)]
    exact ⟨_, s.2, rfl, h.there hnil, h⟩

theorem Tracked.file_isSome {w₀ : W} {s : Quarentena × W} (h : Tracked host fs names w₀ s)
    {a : List Text} {t : Text} (hfile : fileAt fs w₀ a = some t)
    (hnew : ∀ r ∈ s.1.registros, (moveOf host r).1 ≠ a) : ∃ t', fileAt fs s.2 a = some t' := by
  rw [h.files]
  by_cases htarget : ∃ r ∈ s.1.registros, (moveOf host r).2 = a
  · obtain ⟨r, hr, rfl⟩ := htarget
    rw [moves_target h.apart (List.mem_map_of_mem hr)]
    exact Option.isSome_iff_exists.mp (h.sources r hr)
  · refine ⟨t, ?_⟩
    rw [moves_of_not_mem, hfile]
    intro m hm
    obtain ⟨r, hr, rfl⟩ := List.mem_map.mp hm
    exact ⟨(hnew r hr).symm, fun heq => htarget ⟨r, hr, heq.symm⟩⟩

/-- A file that is moved apart from the others is tracked too. -/
theorem Tracked.add (hfs : fs.Posix host.getcwd) {w₀ w : W} {q : Quarentena}
    (h : Tracked host fs names w₀ (q, w)) {r₀ : Registro} (hknown : Known host r₀)
    (hnew : ∀ r ∈ q.registros, Lib.Apart (moveOf host r) (moveOf host r₀)) {t : Text}
    (hfile : fileAt fs w₀ (moveOf host r₀).1 = some t) {w' : W}
    (hworld : w' = (fs.rename (.absolute (moveOf host r₀).1) (.absolute (moveOf host r₀).2) w).2)
    (hok : 0 ≤ (fs.rename (.absolute (moveOf host r₀).1) (.absolute (moveOf host r₀).2) w).1)
    (hthere : DirThere fs names w') :
    Tracked host fs names w₀ ({ q with registros := q.registros ++ [r₀] }, w') := by
  have hfileNow : fileAt fs w (moveOf host r₀).1 = some t := by
    rw [h.files, moves_of_not_mem, hfile]
    intro m hm
    obtain ⟨r, hr, rfl⟩ := List.mem_map.mp hm
    exact ⟨(hnew r hr).sources.symm, (hnew r hr).target_source.symm⟩
  have hstep : fs.Renamed w w' := by
    rw [hworld]
    exact FileSystem.Renamed.refl.rename hfileNow
  constructor
  case diretorio => exact h.diretorio
  case known => exact List.forall_mem_append.mpr ⟨h.known, List.forall_mem_singleton.mpr hknown⟩
  case apart =>
    rw [List.map_append, List.pairwise_append]
    refine ⟨h.apart, List.pairwise_singleton _ _, ?_⟩
    intro m hm m' hm'
    obtain ⟨r, hr, rfl⟩ := List.mem_map.mp hm
    obtain rfl := List.mem_singleton.mp hm'
    exact hnew r hr
  case files =>
    rw [List.map_append, List.foldl_append, ← h.files, hworld]
    exact hfs.rename_load rfl hfileNow hok
  case sources =>
    refine List.forall_mem_append.mpr ⟨h.sources, List.forall_mem_singleton.mpr ?_⟩
    rw [hfile]
    rfl
  case there => exact fun _ => hthere
  case returns =>
    refine List.forall_mem_append.mpr ⟨fun r hr => (h.returns r hr).later hstep,
      List.forall_mem_singleton.mpr ?_⟩
    intro w'' t' hw'' hback
    rw [hworld] at hw''
    exact hfs.rename_back hfileNow hok hw'' hback

theorem Tracked.isolar (hfs : fs.Posix host.getcwd) (hnames : AllParts names) {w₀ : W}
    {s : Quarentena × W} (h : Tracked host fs names w₀ s) {c : Isolamento} {a : List Text}
    {t : Text} (ha : spot host (resolveHostPath host c.path) = some a)
    (hfile : fileAt fs w₀ a = some t) (hnew : ∀ r ∈ s.1.registros, (moveOf host r).1 ≠ a)
    (hsound : (s.1.isolar host fs c s.2).1.isOk = true → Sound host s.1 c) :
    Tracked host fs names w₀ (s.1.isolar host fs c s.2).2 ∧
      ∀ r ∈ (s.1.isolar host fs c s.2).2.1.registros, r ∈ s.1.registros ∨
          (moveOf host r).1 = a := by
  rcases preparar_cases hfs hnames h with ⟨err, w, hprep, hw⟩ | ⟨path, w, hprep, hthere, hw⟩
  · rw [Quarentena.isolar, hprep]
    exact ⟨hw, fun r hr => Or.inl hr⟩
  -- the move
  have hdest : s.1.destino c = joinPath (rootText names) c.targetName := by
    rw [Quarentena.destino, h.diretorio]
  obtain ⟨hspot, hspot'⟩ : spot host (s.1.destino c) = some (targetPlace names c.targetName) ∧
      spot host (resolveHostPath host (s.1.destino c)) = some (targetPlace names c.targetName) := by
    rw [hdest]
    exact spot_destination hnames (oneName_targetName c)
  obtain ⟨hworld, hret⟩ := renameHost_eq hfs ha hspot' w
  rw [Quarentena.isolar, hprep] at hsound ⊢
  rcases hmove : renameHost host fs c.path (s.1.destino c) w with ⟨result, w'⟩
  rw [hmove] at hworld hret
  simp only [hmove] at hworld hret hsound ⊢
  cases result with
  | erro err =>
      have hfail : (fs.rename (.absolute a) (.absolute (targetPlace names c.targetName)) w).1 <
          0 := by
        refine Int.not_le.mp fun hle => ?_
        cases hret.mpr hle
      rw [hworld, hfs.rename_failed rfl hfail]
      exact ⟨hw, fun r hr => Or.inl hr⟩
  | ok valor caminho =>
      have hok := hret.mp rfl
      have hsound := hsound rfl
      have hmoveOf : moveOf host (entryOf host s.1 c) = (a, targetPlace names c.targetName) := by
        rw [moveOf, entryOf, ha, hspot]
        rfl
      have hknown : Known host (entryOf host s.1 c) := by
        constructor
        · rw [hmoveOf]
          exact ha
        · rw [hmoveOf]
          exact hsound.settled.trans ha
        · rw [hmoveOf]
          exact hspot
        · rw [hmoveOf]
          exact hspot'
      have happart : ∀ r ∈ s.1.registros,
          Lib.Apart (moveOf host r) (moveOf host (entryOf host s.1 c)) := by
        intro r hr
        obtain ⟨htargets, hsource, htarget⟩ := hsound.fresh r hr
        have hold := h.known r hr
        rw [hspot, hold.destino] at htargets
        rw [hspot, hold.origem] at hsource
        rw [ha, hold.destino] at htarget
        rw [hmoveOf]
        exact ⟨hnew r hr, fun heq => htargets (congrArg some heq.symm),
          fun heq => hsource (congrArg some heq.symm), fun heq => htarget (congrArg some heq.symm)⟩
      obtain ⟨t', ht'⟩ := hw.file_isSome hfile hnew
      have hthere' : DirThere fs names w' := by
        rw [hworld]
        exact dirThere_rename hfs (oneName_targetName c) ht' hok hthere
      have hadd := hw.add hfs hknown happart (by rw [hmoveOf]; exact hfile)
        (by rw [hmoveOf]; exact hworld) (by rw [hmoveOf]; exact hok) hthere'
      refine ⟨hadd, List.forall_mem_append.mpr ⟨fun r hr => Or.inl hr, ?_⟩⟩
      exact List.forall_mem_singleton.mpr (Or.inr (congrArg Prod.fst hmoveOf))

/-! ## Runs -/

/-- No file of a run is lost: each is in the quarantine under a name of its own, and restoring all
of them, in any order, brings each of them back. -/
structure NothingLost (host : HostDirs) (fs : FileSystem W) (w₀ : W) (s : Quarentena × W) :
    Prop where
  intact : ∀ r ∈ s.1.registros, ∃ t, contents fs r.origem w₀ = some t ∧
    contents fs r.destino s.2 = some t
  distinct : s.1.registros.Pairwise fun r r' => spot host r.destino ≠ spot host r'.destino
  back : ∀ order, order.Perm s.1.registros → ∀ r ∈ order,
    contents fs r.origem (restaurarRun host fs order s.2) = contents fs r.origem w₀

theorem ne_nil_of_spot {path : Text} {a : List Text} (h : spot host path = some a) : path ≠ [] := by
  rintro rfl
  cases h

theorem restaurar_eq (hfs : fs.Posix host.getcwd) {r : Registro} (h : Known host r) (w : W) :
    (Quarentena.restaurar host fs (.registro r) [] w).2 =
      (fs.rename (.absolute (moveOf host r).2) (.absolute (moveOf host r).1) w).2 := by
  have hpaths : ¬(Entrada.source (.registro r) = [] ∨ Entrada.origem (.registro r) = []) :=
    not_or.mpr ⟨ne_nil_of_spot h.destino, ne_nil_of_spot h.origem⟩
  unfold Quarentena.restaurar
  simp only [if_true, if_neg hpaths]
  exact (renameHost_eq hfs h.destino_again h.origem_again w).1

theorem restaurarRun_files (hfs : fs.Posix host.getcwd) {order : List Registro} :
    ∀ {w : W}, (∀ r ∈ order, Known host r) → (order.map (moveOf host)).Pairwise Lib.Apart →
      (∀ r ∈ order, Returns fs w (moveOf host r)) →
      (∀ r ∈ order, (fileAt fs w (moveOf host r).2).isSome = true) →
      fileAt fs (restaurarRun host fs order w) =
        ((order.map (moveOf host)).map Prod.swap).foldl move (fileAt fs w) := by
  induction order with
  | nil => exact fun _ _ _ _ => rfl
  | cons r order ih =>
      intro w hknown hapart hreturns hthere
      obtain ⟨hr, hknown⟩ := List.forall_mem_cons.mp hknown
      obtain ⟨hrapart, hapart⟩ := List.pairwise_cons.mp hapart
      obtain ⟨hreturn, hreturns⟩ := List.forall_mem_cons.mp hreturns
      obtain ⟨hfile, hthere⟩ := List.forall_mem_cons.mp hthere
      obtain ⟨t, ht⟩ := Option.isSome_iff_exists.mp hfile
      have hworld := restaurar_eq hfs hr w
      have hok := hreturn w t .refl ht
      have hload : fileAt fs (Quarentena.restaurar host fs (.registro r) [] w).2 =
          move (fileAt fs w) (moveOf host r).swap := by
        rw [hworld]
        exact hfs.rename_load rfl ht hok
      have hstep : fs.Renamed w (Quarentena.restaurar host fs (.registro r) [] w).2 := by
        rw [hworld]
        exact FileSystem.Renamed.refl.rename ht
      have hrun : restaurarRun host fs (r :: order) w =
          restaurarRun host fs order (Quarentena.restaurar host fs (.registro r) [] w).2 := rfl
      rw [hrun, ih hknown hapart (fun r' hr' => (hreturns r' hr').later hstep), hload]
      · rfl
      · intro r' hr'
        have hne := hrapart _ (List.mem_map_of_mem hr')
        rw [hload, move_of_ne hne.targets.symm hne.source_target.symm]
        exact hthere r' hr'

theorem Tracked.nothingLost (hfs : fs.Posix host.getcwd) {w₀ : W} {s : Quarentena × W}
    (h : Tracked host fs names w₀ s) : NothingLost host fs w₀ s := by
  have hfile : ∀ r ∈ s.1.registros, fileAt fs s.2 (moveOf host r).2 =
      fileAt fs w₀ (moveOf host r).1 := by
    intro r hr
    rw [h.files]
    exact moves_target h.apart (List.mem_map_of_mem hr)
  constructor
  case intact =>
    intro r hr
    obtain ⟨t, ht⟩ := Option.isSome_iff_exists.mp (h.sources r hr)
    have hknown := h.known r hr
    rw [contents_eq hfs hknown.origem, contents_eq hfs hknown.destino, hfile r hr]
    exact ⟨t, ht, ht⟩
  case distinct =>
    refine (List.pairwise_map.mp h.apart).imp_of_mem ?_
    intro r r' hr hr' hapart
    rw [(h.known r hr).destino, (h.known r' hr').destino]
    exact fun heq => hapart.targets (Option.some.inj heq)
  case back =>
    intro order horder r hr
    have hmem : ∀ r' ∈ order, r' ∈ s.1.registros := fun r' hr' => horder.mem_iff.mp hr'
    have happart : (order.map (moveOf host)).Pairwise Lib.Apart :=
      ((horder.map (moveOf host)).pairwise_iff Lib.Apart.symm).mpr h.apart
    rw [contents_eq hfs (h.known r (hmem r hr)).origem, contents_eq hfs
      (h.known r (hmem r hr)).origem,
      restaurarRun_files hfs (fun r' hr' => h.known r' (hmem r' hr')) happart
        (fun r' hr' => h.returns r' (hmem r' hr'))]
    · refine moves_back h.apart (horder.map (moveOf host)) ?_ (List.mem_map_of_mem (hmem r hr))
      intro m hm
      obtain ⟨r', hr', rfl⟩ := List.mem_map.mp hm
      exact hfile r' hr'
    · intro r' hr'
      rw [hfile r' (hmem r' hr')]
      exact h.sources r' (hmem r' hr')

theorem tracked_newQuarentena (host : HostDirs) (fs : FileSystem W) {dir : Text}
    (hdir : Rooted dir) (w₀ : W) :
    ∃ names, AllParts names ∧ Tracked host fs names w₀ (newQuarentena host dir, w₀) := by
  have hne : dir ≠ [] := by
    rintro rfl
    cases hdir
  refine ⟨(walk (normalizePath dir)).names, fun n hn =>
    ⟨plainName_of_walk hn, backslash_not_mem_names hn⟩, ?_⟩
  have hroot : (newQuarentena host dir).diretorio = rootText (walk (normalizePath dir)).names := by
    rw [newQuarentena, if_neg hne, resolveHostPath_absolute (isAbsolutePath_iff.mpr (.inl hdir)),
      simplifyPath_rooted hdir, rootText]
  exact ⟨hroot, nofun, List.Pairwise.nil, rfl, nofun, fun h => absurd rfl h, nofun⟩

/-- In every run of calls on different files, no file is lost as long as each call that succeeds is
sound. -/
theorem quarantine_loses_no_file {dir : Text} (hdir : Rooted dir) (hfs : fs.Posix host.getcwd)
    {w₀ : W} {calls : List Isolamento}
    (hfiles : ∀ c ∈ calls, (contents fs (resolveHostPath host c.path) w₀).isSome = true)
    (hdistinct : calls.Pairwise fun c c' =>
      spot host (resolveHostPath host c.path) ≠ spot host (resolveHostPath host c'.path))
    (hsound : ∀ pre c post, calls = pre ++ c :: post →
      ∀ s, s = isolarRun host fs (newQuarentena host dir, w₀) pre →
        (s.1.isolar host fs c s.2).1.isOk = true → Sound host s.1 c) :
    ∀ pre post, calls = pre ++ post →
      NothingLost host fs w₀ (isolarRun host fs (newQuarentena host dir, w₀) pre) := by
  obtain ⟨names, hnames, hstart⟩ := tracked_newQuarentena host fs hdir w₀
  have hrun : ∀ pre post, calls = pre ++ post →
      Tracked host fs names w₀ (isolarRun host fs (newQuarentena host dir, w₀) pre) ∧
        ∀ r ∈ (isolarRun host fs (newQuarentena host dir, w₀) pre).1.registros, ∃ c ∈ pre,
          spot host (resolveHostPath host c.path) = some (moveOf host r).1 := by
    intro pre
    induction pre using List.reverseRecOn with
    | nil => exact fun post _ => ⟨hstart, nofun⟩
    | append_singleton pre c ih =>
        intro post hsplit
        rw [List.append_assoc, List.singleton_append] at hsplit
        obtain ⟨htracked, hsources⟩ := ih (c :: post) hsplit
        have hc : c ∈ calls := by rw [hsplit]; simp
        obtain ⟨t, ht⟩ := Option.isSome_iff_exists.mp (hfiles c hc)
        obtain ⟨a, ha⟩ : ∃ a, spot host (resolveHostPath host c.path) = some a := by
          unfold contents onPath at ht
          unfold spot
          cases hl : locate (resolveHostPath host c.path) with
          | none => rw [hl] at ht; cases ht
          | some l => exact ⟨_, rfl⟩
        rw [contents_eq hfs ha] at ht
        have hnew : ∀ r ∈ (isolarRun host fs (newQuarentena host dir, w₀) pre).1.registros,
            (moveOf host r).1 ≠ a := by
          intro r hr heq
          obtain ⟨c', hc', hspot⟩ := hsources r hr
          rw [hsplit] at hdistinct
          have hne := (List.pairwise_append.mp hdistinct).2.2 c' hc' c (by simp)
          rw [hspot, ha, heq] at hne
          exact hne rfl
        obtain ⟨hnext, hold⟩ :=
          htracked.isolar hfs hnames ha ht hnew (hsound pre c post hsplit _ rfl)
        have hstep : isolarRun host fs (newQuarentena host dir, w₀) (pre ++ [c]) =
            ((isolarRun host fs (newQuarentena host dir, w₀) pre).1.isolar host fs c
              (isolarRun host fs (newQuarentena host dir, w₀) pre).2).2 := by
          unfold isolarRun
          rw [List.foldl_append]
          rfl
        rw [hstep]
        refine ⟨hnext, fun r hr => ?_⟩
        rcases hold r hr with hr | hr
        · obtain ⟨c', hc', hspot⟩ := hsources r hr
          exact ⟨c', List.mem_append_left _ hc', hspot⟩
        · exact ⟨c, by simp, by rw [ha, hr]⟩
  exact fun pre post hsplit => (hrun pre post hsplit).1.nothingLost hfs

end Runs

/-! ## Two files and one name -/

/-- Files and directories by their names from the root. -/
structure Disk where
  files : List Text → Option Text
  dirs : List Text → Bool
  below : ∀ a, (files a).isSome = true → dirs a = false ∧ dirs a.dropLast = true

def slash : Text := ['/']

/-- Whether a file can be renamed so. -/
def Disk.Fits (w : Disk) (a b : List Text) : Prop :=
  (w.files a).isSome = true ∧ w.dirs b = false ∧ w.dirs b.dropLast = true ∧
    (a <+: b ∨ b <+: a → a = b)

instance (w : Disk) (a b : List Text) : Decidable (w.Fits a b) :=
  inferInstanceAs (Decidable (_ ∧ _))

def Disk.moved (w : Disk) (a b : List Text) (h : w.Fits a b) : Disk where
  files := move w.files (a, b)
  dirs := w.dirs
  below x hx := by
    unfold move at hx
    split_ifs at hx with hb ha
    · rw [hb]
      exact ⟨h.2.1, h.2.2.1⟩
    · cases hx
    · exact w.below x hx

/-- What is at a place after it is made a directory, or left alone. -/
def Disk.made (w : Disk) (a : List Text) : ℤ × Disk :=
  if h : (w.files a).isSome = true ∨ w.dirs a = true then (-17, w)
  else if w.dirs a.dropLast then
    (0, { files := w.files
          dirs := Function.update w.dirs a true
          below := fun x hx => by
            have hxa : x ≠ a := by
              rintro rfl
              exact h (Or.inl hx)
            obtain ⟨hno, hup⟩ := w.below x hx
            refine ⟨by rw [Function.update_of_ne hxa, hno], ?_⟩
            by_cases hdrop : x.dropLast = a
            · rw [hdrop, Function.update_self]
            · rw [Function.update_of_ne hdrop, hup] })
  else (-2, w)

def Disk.written (w : Disk) (a : List Text) (t : Text)
    (h : w.dirs a = false ∧ w.dirs a.dropLast = true) : Disk where
  files := Function.update w.files a (some t)
  dirs := w.dirs
  below x hx := by
    by_cases hxa : x = a
    · rw [hxa]
      exact h
    · rw [Function.update_of_ne hxa] at hx
      exact w.below x hx

def Disk.removed (w : Disk) (a : List Text) : Disk where
  files := Function.update w.files a none
  dirs := w.dirs
  below x hx := by
    by_cases hxa : x = a
    · rw [hxa, Function.update_self] at hx
      cases hx
    · rw [Function.update_of_ne hxa] at hx
      exact w.below x hx

/-- The calls on a disk, from its root. -/
def diskFiles : FileSystem Disk where
  Info := Unit
  stat l w :=
    if (w.files (placeNames slash l)).isSome = true ∨ w.dirs (placeNames slash l) = true then .ok ()
    else .error 2
  mkdir l w := w.made (placeNames slash l)
  readdir l w := if w.dirs (placeNames slash l) then .ok [] else .error 20
  remove l w :=
    if (w.files (placeNames slash l)).isSome then (0, w.removed (placeNames slash l)) else (-2, w)
  rename l l' w :=
    if h : w.Fits (placeNames slash l) (placeNames slash l') then (0, w.moved _ _ h) else (-1, w)
  load l w := w.files (placeNames slash l)
  store l t w :=
    if h : w.dirs (placeNames slash l) = false ∧ w.dirs (placeNames slash l).dropLast = true then
      some (w.written _ t h)
    else none

theorem isOk_stat {l : Location} {w : Disk} : (diskFiles.stat l w).isOk = true ↔
    (w.files (placeNames slash l)).isSome = true ∨ w.dirs (placeNames slash l) = true := by
  show (ite _ (Except.ok ()) (Except.error 2) : Except ℕ Unit).isOk = true ↔ _
  split_ifs with h
  · exact iff_of_true rfl h
  · exact iff_of_false nofun h

theorem dirs_of_renamed {w w' : Disk} (h : diskFiles.Renamed w w') : w'.dirs = w.dirs := by
  induction h with
  | refl => rfl
  | @rename w₁ l l' t _ _ ih =>
      rw [← ih]
      show (dite _ _ _ : ℤ × Disk).2.dirs = _
      split_ifs <;> rfl

theorem rename_diskFiles (a b : List Text) (w : Disk) :
    diskFiles.rename (.absolute a) (.absolute b) w =
      if h : w.Fits a b then (0, w.moved a b h) else (-1, w) := rfl

theorem fits_of_rename {a b : List Text} {w : Disk}
    (h : 0 ≤ (diskFiles.rename (.absolute a) (.absolute b) w).1) : w.Fits a b := by
  rw [rename_diskFiles] at h
  split_ifs at h with hfits
  · exact hfits
  · exact absurd h (show ¬(0 : ℤ) ≤ -1 by decide)

theorem posix_diskFiles : diskFiles.Posix slash where
  load_place l w := rfl
  rename_place l l' w := rfl
  load_stat {l w t} h := isOk_stat.mpr (Or.inl (by rw [show w.files _ = some t from h]; rfl))
  mkdir_load l l' w := by
    show (w.made _).2.files _ = w.files _
    unfold Disk.made
    split_ifs <;> rfl
  mkdir_stat {l w w' ret} h hret := by
    refine isOk_stat.mpr ?_
    have hmade : w.made (placeNames slash l) = (ret, w') := h
    unfold Disk.made at hmade
    -- it was there, it is made, or its parent is missing
    split_ifs at hmade with hthere hup
    · cases hmade
      exact hthere
    · cases hmade
      exact Or.inr (Function.update_self _ _ _)
    · cases hmade
      omega
  mkdir_keeps {l k w} h := by
    refine isOk_stat.mpr ?_
    have hk := isOk_stat.mp h
    show ((w.made (placeNames slash l)).2.files _).isSome = true ∨
      (w.made (placeNames slash l)).2.dirs _ = true
    unfold Disk.made
    split_ifs
    · exact hk
    · refine hk.imp_right fun hdir => ?_
      by_cases heq : placeNames slash k = placeNames slash l
      · rw [heq]
        exact Function.update_self _ _ _
      · exact (Function.update_of_ne heq _ _).trans hdir
    · exact hk
  rename_load {a b w w' ret t} h _ hret := by
    rw [rename_diskFiles] at h
    split_ifs at h
    · cases h
      rfl
    · cases h
      exact absurd hret (show ¬(0 : ℤ) ≤ -1 by decide)
  rename_failed {a b w w' ret} h hret := by
    rw [rename_diskFiles] at h
    split_ifs at h
    · cases h
      exact absurd hret (show ¬(0 : ℤ) < 0 by decide)
    · cases h
      rfl
  rename_keeps {a b k w t} _ hka h := by
    have hk := isOk_stat.mp h
    refine isOk_stat.mpr ?_
    rw [rename_diskFiles]
    split_ifs with hfits
    · refine hk.imp_left fun hfile => ?_
      show (move w.files (a, b) k).isSome = true
      unfold move
      split_ifs
      · exact hfits.1
      · exact hfile
    · exact hk
  rename_nested {a b w t} _ hret := (fits_of_rename hret).2.2.2
  rename_back {a b w w' t t'} hfile hret hw' hback := by
    have hfits := fits_of_rename hret
    have hdirs : w'.dirs = w.dirs := by
      rw [dirs_of_renamed hw', rename_diskFiles, dif_pos hfits]
      rfl
    obtain ⟨hno, hup⟩ := w.below a hfits.1
    have hback : w'.Fits b a := by
      refine ⟨by rw [show w'.files b = some t' from hback]; rfl, by rw [hdirs, hno],
        by rw [hdirs, hup], fun h => ?_⟩
      exact (hfits.2.2.2 h.symm).symm
    have hzero : (diskFiles.rename (.absolute b) (.absolute a) w').1 = 0 := by
      rw [rename_diskFiles, dif_pos hback]
    omega

def rootHost : HostDirs := { ptBaseDir := some slash, getcwd := slash }

/-- The files `x` in the directories `a` and `b`. -/
def twoFiles : Disk where
  files names :=
    if names = ["a".toList, "x".toList] then some "1".toList
    else if names = ["b".toList, "x".toList] then some "2".toList
    else none
  dirs names := decide (names ∈ [[], ["a".toList], ["b".toList]])
  below names h := by
    split_ifs at h with ha hb
    · rw [ha]
      decide
    · rw [hb]
      decide
    · cases h

def isolarAs (path apelido : String) : Isolamento :=
  { path := path.toList, apelido := some apelido.toList, agora := 0 }

theorem quarantine_loses_no_file_two :
    NothingLost rootHost diskFiles twoFiles
      (isolarRun rootHost diskFiles (newQuarentena rootHost "/q".toList, twoFiles)
        [isolarAs "/a/x" "a.bin", isolarAs "/b/x" "b.bin"]) := by
  refine quarantine_loses_no_file (by decide) posix_diskFiles (by decide +kernel)
    (by decide +kernel) ?_ _ [] (List.append_nil _).symm
  refine forall_split_cons.mpr ⟨?_, forall_split_cons.mpr ⟨?_, forall_split_nil⟩⟩
  · rintro s rfl _
    exact ⟨by decide +kernel, by decide +kernel⟩
  · rintro s rfl _
    exact ⟨by decide +kernel, by decide +kernel⟩

/-- Two files get one name, and the second one replaces the first. -/
theorem same_alias_loses_file :
    ¬∀ calls : List Isolamento,
      (∀ c ∈ calls, (contents diskFiles (resolveHostPath rootHost c.path) twoFiles).isSome = true) →
      (calls.Pairwise fun c c' =>
        spot rootHost (resolveHostPath rootHost c.path) ≠
          spot rootHost (resolveHostPath rootHost c'.path)) →
      NothingLost rootHost diskFiles twoFiles
        (isolarRun rootHost diskFiles (newQuarentena rootHost "/q".toList, twoFiles) calls) := by
  intro h
  have hlost := h [isolarAs "/a/x" "sample.bin", isolarAs "/b/x" "sample.bin"] (by decide +kernel)
    (by decide +kernel)
  obtain ⟨t, hbefore, hafter⟩ := hlost.intact
    { origem := "/a/x".toList, destino := "/q/sample.bin".toList } (by decide +kernel)
  exact absurd (hbefore.trans hafter.symm) (by decide +kernel)

end GatoCore.Stdlib
