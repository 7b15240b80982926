import GatoCore.Stdlib.Workspace

/-!
# Coherent workspaces

Two kinds of roots keep every operation of a workspace on one file: those that begin with a slash,
and relative ones that begin by going up and that resolving again does not move.
-/

namespace GatoCore.Stdlib

open GatoCore.Lib

/-! ## Making directories -/

section Mkdir

variable {W : Type} {host : HostDirs} {fs : FileSystem W}

theorem onPath_eq {α : Type} {path : Text} {l : Location} (h : locate path = some l) (noFile : α)
    (call : Location → α) : onPath path noFile call = call l := by
  simp [onPath, h]

/-- The next value of `current`. -/
def extendPath (current part : Text) : Text := if current ≠ [] then joinPath current part else part

theorem mkdirAt_none {path : Text} {l : Location} (h : locate path = some l) {w w' : W}
    (hmk : mkdirAt fs path w = (none, w')) :
    ∃ ret, fs.mkdir l w = (ret, w') ∧ (0 ≤ ret ∨ ret = -17) := by
  have hcall : onPath path (-2, w) (fs.mkdir · w) = fs.mkdir l w := onPath_eq h _ _
  obtain ⟨ret, w₁, hm⟩ : ∃ ret w₁, fs.mkdir l w = (ret, w₁) := ⟨_, _, rfl⟩
  rw [mkdirAt, hcall, hm] at hmk
  dsimp only at hmk
  split at hmk
  · cases hmk
  · rename_i hret
    cases hmk
    exact ⟨ret, hm, by omega⟩

theorem existsHost_eq {path : Text} {l : Location}
    (h : locate (resolveHostPath host path) = some l) (w : W) :
    existsHost host fs path w = (fs.stat l w).isOk := by
  rw [existsHost, statHost, onPath_eq h]
  cases fs.stat l w <;> rfl

/-- A loop that succeeds ends with the directory at its last path. -/
theorem mkdirParts_ensured {path : Text} {l : Location} (hl : locate path = some l)
    (hr : resolveHostPath host path = path) : ∀ {parts : List Text} {current : Text} {w w' : W},
      (∀ part ∈ parts, part ≠ []) → parts ≠ [] → parts.foldl extendPath current = path →
      mkdirParts host fs parts current w = (none, w') → ∃ w₁, Ensured fs l w₁ w'
  | [], _, _, _, _, hne, _, _ => absurd rfl hne
  | part :: parts, current, w, w', hparts, _, hfold, hmk => by
      have hpart : part ≠ [] := hparts part List.mem_cons_self
      have hrest : ∀ p ∈ parts, p ≠ [] := fun p hp => hparts p (List.mem_cons_of_mem _ hp)
      rw [List.foldl_cons] at hfold
      simp only [mkdirParts, hpart, if_false] at hmk
      rw [← extendPath] at hmk
      generalize extendPath current part = next at hfold hmk
      -- the last component is the path itself, the others come earlier
      by_cases hnil : parts = []
      · subst hnil
        cases hfold
        split at hmk
        · rename_i hex
          cases hmk
          rw [existsHost_eq (hr.symm ▸ hl)] at hex
          refine ⟨w, .inl ⟨?_, rfl⟩⟩
          cases hstat : fs.stat l w with
          | error e => simp [hstat, Except.isOk, Except.toBool] at hex
          | ok info => exact ⟨info, rfl⟩
        · split at hmk
          · cases hmk
          · rename_i w₁ hat
            cases hmk
            exact ⟨w, .inr (mkdirAt_none hl hat)⟩
      · split at hmk
        · exact mkdirParts_ensured hl hr hrest hnil hfold hmk
        · split at hmk
          · cases hmk
          · exact mkdirParts_ensured hl hr hrest hnil hfold hmk

end Mkdir

/-! ## The paths of the loop -/

/-- A component of a simplified path. -/
structure PathPart (part : Text) : Prop where
  ne_nil : part ≠ []
  ne_dot : part ≠ dot
  no_slash : '/' ∉ part
  no_backslash : '\\' ∉ part

theorem PlainName.pathPart {name : Text} (h : PlainName name) (hb : '\\' ∉ name) :
    PathPart name := ⟨h.ne_nil, h.ne_dot, h.no_slash, hb⟩

theorem isAbsolutePath_of_no_slash {part : Text} (hslash : '/' ∉ part) (hb : '\\' ∉ part) :
    isAbsolutePath part = false := by
  rw [isAbsolutePath_false_iff, Rooted, normalizePath_of_not_mem hb]
  constructor
  · exact fun hhead => hslash (List.mem_of_mem_head? hhead)
  · rw [Bool.eq_false_iff]
    intro hdrive
    obtain ⟨c, rest, _, rfl⟩ := hasDrive_iff.mp hdrive
    exact hslash (by simp)

theorem PathPart.isAbsolutePath {part : Text} (h : PathPart part) : isAbsolutePath part = false :=
  isAbsolutePath_of_no_slash h.no_slash h.no_backslash

theorem extendPath_eq {current part : Text} (hpart : PathPart part) (hne : current ≠ [])
    (hdot : current ≠ dot) (hb : '\\' ∉ current) : extendPath current part =
      if current.getLast? = some '/' then current ++ part else current ++ '/' :: part := by
  have hnb := normalizePath_of_not_mem hb
  have hnp := normalizePath_of_not_mem hpart.no_backslash
  rw [extendPath, if_pos hne, joinPath, orDot_of_ne_nil hne, orDot_of_ne_nil hpart.ne_nil]
  simp [hnb, hnp, hne, hdot, hpart.ne_nil, hpart.ne_dot, hpart.isAbsolutePath]

theorem intercalate_cons_eq (part : Text) : ∀ parts : List Text,
    ['/'].intercalate (part :: parts) = part ++ parts.flatMap ('/' :: ·)
  | [] => by simp
  | next :: parts => by
      rw [List.intercalate_cons_cons, intercalate_cons_eq next parts]
      simp

theorem foldl_extendPath {parts : List Text} (hparts : ∀ p ∈ parts, PathPart p) :
    ∀ {current : Text}, current ≠ [] → current ≠ dot → current.getLast? ≠ some '/' →
      '\\' ∉ current → parts.foldl extendPath current = current ++ parts.flatMap ('/' :: ·) := by
  induction parts with
  | nil =>
      intro current _ _ _ _
      simp
  | cons part parts ih =>
      intro current hne hdot hlast hb
      have hpart := hparts part List.mem_cons_self
      have hnext : extendPath current part = current ++ '/' :: part := by
        rw [extendPath_eq hpart hne hdot hb, if_neg hlast]
      have hlast' : (current ++ '/' :: part).getLast? ≠ some '/' := by
        intro h
        rw [List.getLast?_append, List.getLast?_cons] at h
        have hmem : part.getLast? = some '/' ∨ part = [] := by
          cases hp : part.getLast? with
          | none => exact .inr (List.getLast?_eq_none_iff.mp hp)
          | some c => simp [hp] at h; simp [h]
        rcases hmem with h | h
        · exact hpart.no_slash (List.mem_of_getLast? h)
        · exact hpart.ne_nil h
      have hdot' : current ++ '/' :: part ≠ dot := by
        intro h
        have := congrArg List.length h
        simp [dot] at this
        exact hne (List.eq_nil_of_length_eq_zero (by omega))
      rw [List.foldl_cons, hnext, ih (fun p hp => hparts p (List.mem_cons_of_mem _ hp)) (by simp)
        hdot' hlast' (by simp [hb, hpart.no_backslash])]
      simp

theorem foldl_extendPath_relative {parts : List Text} (hparts : ∀ p ∈ parts, PathPart p) :
    parts.foldl extendPath [] = ['/'].intercalate parts := by
  cases parts with
  | nil => rfl
  | cons part parts =>
      have hpart := hparts part List.mem_cons_self
      have hfirst : extendPath [] part = part := by simp [extendPath]
      rw [List.foldl_cons, hfirst, intercalate_cons_eq]
      exact foldl_extendPath (fun p hp => hparts p (List.mem_cons_of_mem _ hp)) hpart.ne_nil
        hpart.ne_dot (fun h => hpart.no_slash (List.mem_of_getLast? h)) hpart.no_backslash

theorem foldl_extendPath_rooted {parts : List Text} (hparts : ∀ p ∈ parts, PathPart p) :
    parts.foldl extendPath ['/'] = '/' :: ['/'].intercalate parts := by
  cases parts with
  | nil => rfl
  | cons part parts =>
      have hpart := hparts part List.mem_cons_self
      have hfirst : extendPath ['/'] part = '/' :: part :=
        extendPath_eq hpart (by simp) (by decide) (by decide)
      have hlast : ('/' :: part).getLast? ≠ some '/' := by
        intro h
        obtain ⟨c, part', rfl⟩ := List.exists_cons_of_ne_nil hpart.ne_nil
        exact hpart.no_slash (List.mem_of_getLast? (by simpa using h))
      have hdot : '/' :: part ≠ dot := by simp [dot]
      rw [List.foldl_cons, hfirst, intercalate_cons_eq, ← List.cons_append]
      exact foldl_extendPath (fun p hp => hparts p (List.mem_cons_of_mem _ hp)) (by simp) hdot hlast
        (by simp [hpart.no_backslash])

/-! ## Settled paths -/

/-- A simplified path without a drive, and the place it denotes. -/
inductive PathTo : Text → Location → Prop
  | rooted {names : List Text} (h : ∀ n ∈ names, PlainName n) (hb : ∀ n ∈ names, '\\' ∉ n) :
      PathTo ('/' :: ['/'].intercalate names) (.absolute names)
  | relative {p : RelPath Text} (h : ∀ n ∈ p.names, PlainName n) (hb : ∀ n ∈ p.names, '\\' ∉ n)
      (hne : p ≠ 1) : PathTo (walkText p) (.relative p)

theorem PathTo.locate_eq {path : Text} {l : Location} (h : PathTo path l) :
    locate path = some l := by
  cases h with
  | rooted h _ => exact locate_rooted h
  | relative h _ hne => rw [locate_walkText h, if_neg hne]

theorem PathTo.simplified {path : Text} {l : Location} (h : PathTo path l) : Simplified path := by
  cases h with
  | rooted h hb => exact .rooted h hb
  | relative h hb _ => exact .relative h hb

theorem PathTo.ne_nil {path : Text} {l : Location} (h : PathTo path l) : path ≠ [] := by
  rintro rfl
  cases h.locate_eq

theorem pathPart_of_walkParts {p : RelPath Text} (h : ∀ n ∈ p.names, PlainName n)
    (hb : ∀ n ∈ p.names, '\\' ∉ n) : ∀ part ∈ walkParts p, PathPart part := by
  intro part hpart
  rcases List.mem_append.mp hpart with hm | hm
  · rw [List.eq_of_mem_replicate hm]
    exact ⟨by decide, by decide, by decide, by decide⟩
  · exact (h part hm).pathPart (hb part hm)

/-- A path that resolves to itself, for the standard library and for the builtins. -/
structure Settled (host : HostDirs) (base path : Text) (l : Location) : Prop where
  pathTo : PathTo path l
  resolve : resolveHostPath host path = path
  builtin : locate (jsPtPathText base (cText path)) = some l.cut

section Settled

variable {W : Type} {host : HostDirs} {fs : FileSystem W} {base path : Text} {l : Location}

theorem Settled.mkdirHost_ensured (h : Settled host base path l) {w w' : W} {target : Text}
    (hmk : mkdirHost host fs path true w = (.ok target none, w')) :
    l = .absolute [] ∨ ∃ w₁, Ensured fs l w₁ w' := by
  have hl := h.pathTo.locate_eq
  simp only [mkdirHost, h.resolve, h.pathTo.simplified.simplifyPath_eq, Bool.not_true,
    Bool.false_eq_true, if_false] at hmk
  obtain ⟨err, w₁, hparts⟩ : ∃ err w₁, mkdirParts host fs (path.splitOn '/')
      (if path.head? = some '/' then ['/'] else []) w = (err, w₁) := ⟨_, _, rfl⟩
  rw [hparts] at hmk
  cases err with
  | some err => cases hmk
  | none =>
      cases hmk
      have hr := h.resolve
      -- the parts of the path are its names, after an empty one when it begins with a slash
      cases h.pathTo with
      | @rooted names hplain hb =>
          by_cases hnil : names = []
          · exact .inl (by rw [hnil])
          · right
            have hpp : ∀ p ∈ names, PathPart p := fun p hp => (hplain p hp).pathPart (hb p hp)
            have hsplit : ('/' :: ['/'].intercalate names).splitOn '/' = [] :: names := by
              have hs := List.splitOn_append_cons_self [] (['/'].intercalate names) (a := '/')
              rw [List.splitOn_intercalate '/' (fun p hp => (hplain p hp).no_slash) hnil] at hs
              exact hs
            rw [hsplit] at hparts
            exact mkdirParts_ensured hl hr (fun p hp => (hpp p hp).ne_nil) hnil
              (foldl_extendPath_rooted hpp) hparts
      | @relative p hplain hb hne =>
          right
          have hpp := pathPart_of_walkParts hplain hb
          have hnil : walkParts p ≠ [] := walkParts_eq_nil.not.mpr hne
          have hsplit : (walkText p).splitOn '/' = walkParts p :=
            List.splitOn_intercalate '/' (slash_not_mem_walkParts hplain) hnil
          rw [hsplit, if_neg (not_rooted_walkText hplain)] at hparts
          exact mkdirParts_ensured hl hr (fun p hp => (hpp p hp).ne_nil) hnil
            (foldl_extendPath_relative hpp) hparts

/-- A rooted path as a C string. -/
theorem Settled.locate_cText_rooted {names : List Text}
    (h : Settled host base path (.absolute names)) :
    locate (cText path) = some (Location.absolute names).cut := by
  cases h.pathTo with
  | rooted hplain hb =>
      have hcut : cText ('/' :: ['/'].intercalate names) =
          '/' :: cText (['/'].intercalate names) :=
        cText_append (a := ['/']) (by decide) _
      rw [Location.cut, hcut]
      simp [locate]

theorem Settled.resolved (h : Settled host base path l) (hhost : HasBase host base)
    {resolved : Text} (hr : jsPtResolvePath host (cText path) = some resolved) :
    locate resolved = some l.cut := by
  rw [jsPtResolvePath_eq hhost, printToBuffer] at hr
  split at hr
  · cases hr
  · cases hr
    exact h.builtin

theorem Settled.lerTexto (h : Settled host base path l) (hhost : HasBase host base)
    (hc : fs.CStrings) {resolved : Text} (hr : jsPtResolvePath host (cText path) = some resolved)
    (w : W) : lerTexto host fs path w = fs.load l w := by
  rw [Stdlib.lerTexto, hr, ← hc.load_cut]
  exact onPath_eq (h.resolved hhost hr) _ _

theorem Settled.escreverTexto (h : Settled host base path l) (hhost : HasBase host base)
    (hc : fs.CStrings) {resolved : Text} (hr : jsPtResolvePath host (cText path) = some resolved)
    (text : Text) (w : W) :
    escreverTexto host fs path text w = (fs.store l text w).map (utf8Length text, ·) := by
  rw [Stdlib.escreverTexto, hr]
  simp only [Option.bind_eq_bind, Option.bind_some, onPath_eq (h.resolved hhost hr), hc.store_cut]
  cases fs.store l text w <;> rfl

theorem Settled.writeTextHost (h : Settled host base path l) (hhost : HasBase host base)
    (hc : fs.CStrings) {resolved : Text} (hr : jsPtResolvePath host (cText path) = some resolved)
    (text : Text) (w : W) :
    (writeTextHost host fs path text w).2 = (fs.store l text w).getD w := by
  rw [Stdlib.writeTextHost, h.escreverTexto hhost hc hr]
  cases fs.store l text w <;> rfl

theorem Settled.readTextHost (h : Settled host base path l) (hhost : HasBase host base)
    (hc : fs.CStrings) {resolved : Text} (hr : jsPtResolvePath host (cText path) = some resolved)
    (w : W) : (readTextHost host fs path w).valor = fs.load l w := by
  rw [Stdlib.readTextHost, h.lerTexto hhost hc hr]
  cases fs.load l w <;> rfl

theorem Settled.existsHost (h : Settled host base path l) (w : W) :
    existsHost host fs path w = (fs.stat l w).isOk :=
  existsHost_eq (h.resolve.symm ▸ h.pathTo.locate_eq) w

/-- A text is reported as written exactly when the file can be opened. -/
theorem Settled.writeTextHost_ok (h : Settled host base path l) (hhost : HasBase host base)
    (hc : fs.CStrings) {resolved : Text} (hr : jsPtResolvePath host (cText path) = some resolved)
    {text : Text} {w w' : W} :
    (∃ size c, Stdlib.writeTextHost host fs path text w = (.ok size c, w')) ↔
      fs.store l text w = some w' := by
  rw [Stdlib.writeTextHost, h.escreverTexto hhost hc hr]
  cases fs.store l text w with
  | none => simp
  | some w₁ => simp

/-- What is reported as written is read again exactly when the file keeps it. -/
theorem Settled.roundTrip_iff (h : Settled host base path l) (hhost : HasBase host base)
    (hc : fs.CStrings) {text : Text} {w : W} :
    (∀ size c w', Stdlib.writeTextHost host fs path text w = (.ok size c, w') →
        (Stdlib.readTextHost host fs path w').valor = some text ∧
          Stdlib.existsHost host fs path w' = true) ↔
      ((jsPtResolvePath host (cText path)).isSome → fs.Stores l text w) := by
  cases hr : jsPtResolvePath host (cText path) with
  | none => simp [Stdlib.writeTextHost, Stdlib.escreverTexto, hr]
  | some resolved =>
      simp only [Option.isSome_some, forall_const, h.existsHost, h.readTextHost hhost hc hr]
      constructor
      · intro hround w' hstore
        obtain ⟨size, c, hw⟩ := (h.writeTextHost_ok hhost hc hr).mpr hstore
        exact hround size c w' hw
      · intro hstores size c w' hw
        exact hstores w' ((h.writeTextHost_ok hhost hc hr).mp ⟨size, c, hw⟩)

end Settled

/-- All operations act on a settled path whose file keeps what is written to it. -/
theorem ActsOn.of_settled {W : Type} {host : HostDirs} {fs : FileSystem W}
    {base raiz rel : Text} {l : Location} (hhost : HasBase host base) (hc : fs.CStrings)
    (h : Settled host base (localPath host raiz rel) l)
    (hdot : localPath host raiz (orDot rel) = localPath host raiz rel)
    (hkeeps : (jsPtResolvePath host (cText (localPath host raiz rel))).isSome → ∀ text w,
      fs.Stores l text (mkdirHost host fs (dirnamePath (localPath host raiz rel)) true w).2) :
    ActsOn host fs base raiz rel l := by
  have hl := h.pathTo.locate_eq
  have hr := h.resolve
  refine
    { caminho := hl
      builtin := h.builtin
      existe := fun w => h.existsHost w
      stat := fun w => ?_
      listar := fun w => ?_
      criarDiretorio := fun w => ?_
      criarDiretorios := fun w w' target hmk => ?_
      lerTexto := fun w hsome => ?_
      escreverTexto := fun text w hsome => ?_
      lerJson := fun parse w hsome => ?_
      escreverJson := fun stringify value w hsome => ?_
      remover := fun w => ?_
      renomear := fun destino l' w hl' => ?_
      roundTrip := fun text size c w w' hw => ?_ }
  · rw [Workspace.stat, statHost, hr, onPath_eq hl]
    cases fs.stat l w <;> rfl
  · rw [Workspace.listar, readdirHost, hdot, orDot_of_ne_nil h.pathTo.ne_nil, hr, onPath_eq hl]
    cases fs.readdir l w <;> rfl
  · have hcall : onPath (localPath host raiz rel) (-2, w) (fs.mkdir · w) = fs.mkdir l w :=
      onPath_eq hl _ _
    simp only [Workspace.criarDiretorio, mkdirHost, hdot, hr, mkdirAt, hcall, Bool.not_false,
      if_true]
    by_cases hret : (fs.mkdir l w).1 < 0 ∧ (fs.mkdir l w).1 ≠ -17
    · rw [if_pos hret]
    · rw [if_neg hret]
  · rw [Workspace.criarDiretorio, hdot] at hmk
    exact h.mkdirHost_ensured hmk
  -- a path the builtin can hold is read and written where the stdlib looks
  · obtain ⟨resolved, hres⟩ := Option.isSome_iff_exists.mp hsome
    exact h.readTextHost hhost hc hres w
  · obtain ⟨resolved, hres⟩ := Option.isSome_iff_exists.mp hsome
    exact ⟨_, h.writeTextHost hhost hc hres text _⟩
  · obtain ⟨resolved, hres⟩ := Option.isSome_iff_exists.mp hsome
    rw [Workspace.lerJson, readJsonHost, readTextHost, h.lerTexto hhost hc hres]
    cases fs.load l w with
    | none => rfl
    | some text =>
        dsimp only [Option.bind_some]
        cases parse text <;> rfl
  · obtain ⟨resolved, hres⟩ := Option.isSome_iff_exists.mp hsome
    exact ⟨_, h.writeTextHost hhost hc hres _ _⟩
  · have hcall : onPath (localPath host raiz rel) (-2, w) (fs.remove · w) = fs.remove l w :=
      onPath_eq hl _ _
    simp only [Workspace.remover, removeHost, hr, hcall]
    split <;> rfl
  · simp only [Workspace.renomear, renameHost, hr, onPath_eq hl, onPath_eq hl']
    split <;> rfl
  · exact (h.roundTrip_iff hhost hc).mpr (fun hsome => hkeeps hsome text w) size c w' hw

/-! ## Roots that begin with a slash -/

section Root

variable {host : HostDirs} {base raiz rel : Text}

/-- A simplified path whose place is below the root. -/
theorem rooted_of_locate {text : Text} {names : List Text} (h : Simplified text)
    (hl : locate text = some (.absolute names)) :
    text = '/' :: ['/'].intercalate names ∧ (∀ n ∈ names, PlainName n) ∧
      ∀ n ∈ names, '\\' ∉ n := by
  cases h with
  | rooted h hb =>
      rw [locate_rooted h] at hl
      cases hl
      exact ⟨rfl, h, hb⟩
  | drive hc h hb =>
      rw [locate_drive hc h] at hl
      cases hl
  | relative h hb =>
      rw [locate_walkText h] at hl
      split at hl <;> cases hl

theorem names_mul_plain {names : List Text} (h : ∀ n ∈ names, PlainName n) (rel : Text) :
    ∀ n ∈ (⟨0, names⟩ * walk (normalizePath rel) : RelPath Text).names, PlainName n := by
  intro n hn
  rcases RelPath.mem_names_mul hn with hm | hm
  · exact h n hm
  · exact plainName_of_walk hm

theorem names_mul_backslash {names : List Text} (h : ∀ n ∈ names, '\\' ∉ n) (rel : Text) (k : ℕ) :
    ∀ n ∈ (⟨k, names⟩ * walk (normalizePath rel) : RelPath Text).names, '\\' ∉ n := by
  intro n hn
  rcases RelPath.mem_names_mul hn with hm | hm
  · exact h n hm
  · exact backslash_not_mem_names hm

theorem localPath_rooted {names : List Text} (h : ∀ n ∈ names, PlainName n)
    (hb : ∀ n ∈ names, '\\' ∉ n) (hrel : isAbsolutePath rel = false) :
    localPath host ('/' :: ['/'].intercalate names) rel = '/' :: ['/'].intercalate
      (⟨0, names⟩ * walk (normalizePath rel) : RelPath Text).names := by
  have hs : Simplified ('/' :: ['/'].intercalate names) := .rooted h hb
  have hroot : Rooted ('/' :: ['/'].intercalate names) := by
    rw [Rooted, hs.normalizePath_eq]
    rfl
  unfold localPath
  split
  · rename_i hnil
    subst hnil
    have hone : walk (normalizePath []) = 1 := rfl
    rw [hone, mul_one]
  · have hj := rooted_joinPath (by simp) hroot hrel
    rw [resolveHostPath_absolute (isAbsolutePath_iff.mpr (.inl hj)), simplifyPath_rooted hj,
      normalizePath_joinPath, walk_joinPath _ hrel, hs.normalizePath_eq, walk_cons_slash,
      walk_intercalate h]

theorem settled_rooted {names : List Text} (h : ∀ n ∈ names, PlainName n)
    (hb : ∀ n ∈ names, '\\' ∉ n) :
    Settled host base ('/' :: ['/'].intercalate names) (.absolute names) := by
  have hpath : PathTo ('/' :: ['/'].intercalate names) (.absolute names) := .rooted h hb
  have habs : isAbsolutePath ('/' :: ['/'].intercalate names) = true := by
    rw [isAbsolutePath_iff, Rooted, hpath.simplified.normalizePath_eq]
    exact .inl rfl
  refine ⟨hpath, ?_, ?_⟩
  · rw [resolveHostPath_absolute habs, hpath.simplified.simplifyPath_eq]
  · have hcut : cText ('/' :: ['/'].intercalate names) =
        '/' :: cText (['/'].intercalate names) :=
      cText_append (a := ['/']) (by decide) _
    rw [Location.cut, hcut]
    simp [jsPtPathText, jsPtPathIsAbs, locate]

/-- The names of a workspace whose root is below `/`. -/
theorem settled_of_rooted (hhost : HasBase host base) {root : Text}
    (hroot : StdlibRooted base root) (hrel : isAbsolutePath rel = false) :
    Settled host base (localPath host (resolvedRoot host root) rel)
        (workspacePlace (resolvedRoot host root) rel) ∧
      localPath host (resolvedRoot host root) (orDot rel) =
        localPath host (resolvedRoot host root) rel := by
  have hloc := locate_resolveHostPath hhost root
  rw [stdlibPlace, if_pos hroot] at hloc
  obtain ⟨hraiz, hplain, hb⟩ := rooted_of_locate (simplified_resolveHostPath host root) hloc
  have hplace : workspacePlace (resolvedRoot host root) rel = .absolute
      (⟨0, (stdlibWalk base root).names⟩ * walk (normalizePath rel) : RelPath Text).names := by
    rw [workspacePlace, resolvedRoot, hloc]
    rfl
  have hpath : localPath host _ rel = _ := localPath_rooted hplain hb hrel
  constructor
  · rw [hplace, resolvedRoot, hraiz, hpath]
    exact settled_rooted (names_mul_plain hplain rel) (names_mul_backslash hb rel 0)
  · have hrel' : isAbsolutePath (orDot rel) = false := by rw [isAbsolutePath_orDot, hrel]
    rw [resolvedRoot, hraiz, hpath, localPath_rooted hplain hb hrel', walk_normalizePath_orDot]

end Root

/-! ## Roots that begin by going up -/

/-- A walk without its first step up. -/
def dropUp (p : RelPath Text) : RelPath Text := ⟨p.ups - 1, p.names⟩

/-- A walk that goes up begins with `..`. -/
theorem walkText_of_ups {p : RelPath Text} (hp : 1 ≤ p.ups) : walkText p =
    if dropUp p = 1 then dotDot else dotDot ++ '/' :: walkText (dropUp p) := by
  obtain ⟨ups, names⟩ := p
  obtain ⟨k, rfl⟩ : ∃ k, ups = k + 1 := ⟨ups - 1, by simp at hp; omega⟩
  have hparts : walkParts ⟨k + 1, names⟩ = dotDot :: walkParts ⟨k, names⟩ := by
    simp [walkParts, List.replicate_succ]
  have hdrop : dropUp ⟨k + 1, names⟩ = ⟨k, names⟩ := rfl
  rw [walkText, hparts, hdrop]
  split
  · rename_i hone
    rw [hone]
    rfl
  · rename_i hone
    obtain ⟨part, parts, hcons⟩ := List.exists_cons_of_ne_nil (walkParts_eq_nil.not.mpr hone)
    rw [walkText, hcons, List.intercalate_cons_cons]
    simp

/-- Where the builtin is after the first component of a path that goes up. -/
def builtinUp (base : Text) : RelPath Text :=
  if base.getLast? = some '\\' then walk (base ++ dotDot) else walk base * ⟨1, []⟩

theorem up_mul_dropUp {p : RelPath Text} (hp : 1 ≤ p.ups) : ⟨1, []⟩ * dropUp p = p := by
  ext1
  · simp only [dropUp, RelPath.mul_ups, List.length_nil]
    omega
  · simp [dropUp, RelPath.mul_names]

theorem builtinWalk_dotDot (base : Text) : builtinWalk base dotDot = builtinUp base := by
  rw [builtinWalk, if_neg (by decide), builtinUp]
  rfl

theorem builtinWalk_up (base rest : Text) :
    builtinWalk base (dotDot ++ '/' :: rest) = builtinUp base * walk rest := by
  rw [builtinWalk, if_neg (by simp [dotDot]), builtinUp]
  split
  · rw [← List.append_assoc, walk_append]
  · rw [walk_append, mul_assoc]
    rfl

theorem builtinWalk_walkText (base : Text) {p : RelPath Text} (h : ∀ n ∈ p.names, PlainName n)
    (hp : 1 ≤ p.ups) : builtinWalk base (walkText p) = builtinUp base * dropUp p := by
  rw [walkText_of_ups hp]
  split
  · rename_i hone
    rw [hone, mul_one, builtinWalk_dotDot]
  · rw [builtinWalk_up, walk_walkText (p := dropUp p) h]

/-! ### Up to the first NUL -/

theorem cText_walkText_of_ups {p : RelPath Text} (hp : 1 ≤ p.ups) : cText (walkText p) =
    if dropUp p = 1 then dotDot else dotDot ++ '/' :: cText (walkText (dropUp p)) := by
  rw [walkText_of_ups hp]
  split
  · rfl
  · rw [cText_append (by decide)]
    rfl

theorem walk_cText_walkText {p : RelPath Text} (hp : 1 ≤ p.ups) :
    walk (cText (walkText p)) = ⟨1, []⟩ * walk (cText (walkText (dropUp p))) := by
  rw [cText_walkText_of_ups hp]
  split
  · rename_i hone
    rw [hone]
    rfl
  · rw [walk_append]
    rfl

theorem builtinWalk_cText_walkText (base : Text) {p : RelPath Text} (hp : 1 ≤ p.ups) :
    builtinWalk base (cText (walkText p)) =
      builtinUp base * walk (cText (walkText (dropUp p))) := by
  rw [cText_walkText_of_ups hp]
  split
  · rename_i hone
    rw [hone, builtinWalk_dotDot]
    exact (mul_one _).symm
  · rw [builtinWalk_up]

theorem nul_not_mem_intercalate {names : List Text} (h : ∀ n ∈ names, '\x00' ∉ n) :
    '\x00' ∉ ['/'].intercalate names := by
  intro hmem
  rcases mem_intercalate hmem with hslash | ⟨part, hpart, hmem⟩
  · exact absurd hslash (by decide)
  · exact h part hpart hmem

theorem nul_not_mem_walkText {p : RelPath Text} (h : ∀ n ∈ p.names, '\x00' ∉ n) :
    '\x00' ∉ walkText p := by
  refine nul_not_mem_intercalate fun part hpart => ?_
  rcases List.mem_append.mp hpart with hup | hname
  · rw [List.eq_of_mem_replicate hup]
    decide
  · exact h part hname

section Cut

variable {text : Text} (hnul : '\x00' ∉ text)

include hnul in
theorem nul_not_mem_walk : ∀ n ∈ (walk text).names, '\x00' ∉ n :=
  fun _ hn hmem => hnul (subset_of_walk hn hmem)

include hnul in
theorem cut_absolute_walk :
    (Location.absolute (walk text).names).cut = .absolute (walk text).names := by
  have hclean : '\x00' ∉ '/' :: ['/'].intercalate (walk text).names := by
    rw [List.mem_cons, not_or]
    exact ⟨by decide, nul_not_mem_intercalate (nul_not_mem_walk hnul)⟩
  rw [Location.cut, cText_of_not_mem hclean, walk_cons_slash,
    walk_intercalate fun n => plainName_of_walk]

include hnul in
theorem cut_relative_walk : (Location.relative (walk text)).cut = .relative (walk text) := by
  have hclean := nul_not_mem_walkText (nul_not_mem_walk hnul)
  rw [Location.cut, cText_of_not_mem hclean, walk_walkText fun n => plainName_of_walk]

end Cut

theorem cut_of_locate {text : Text} {l : Location} (h : locate text = some l)
    (hnul : '\x00' ∉ text) : l.cut = l := by
  unfold locate at h
  split at h
  · cases h
  · split at h
    · cases h
      exact cut_absolute_walk hnul
    · cases h
      exact cut_relative_walk hnul

@[simp] theorem Location.cut_cut (l : Location) : l.cut.cut = l.cut := by
  cases l with
  | absolute names => exact cut_absolute_walk (nul_not_mem_cText _)
  | relative p => exact cut_relative_walk (nul_not_mem_cText _)

/-- A path stops climbing where its text ends, or later. -/
theorem ups_le_cText_walkText (ups : ℕ) (names : List Text) :
    ups ≤ (walk (cText (walkText ⟨ups, names⟩))).ups := by
  induction ups with
  | zero => exact Nat.zero_le _
  | succ ups ih =>
      rw [walk_cText_walkText (by simp)]
      have hdrop : dropUp ⟨ups + 1, names⟩ = ⟨ups, names⟩ := rfl
      rw [hdrop, RelPath.mul_ups]
      simp only [List.length_nil]
      omega

/-- What leads from one climbing path one step up leads from every path that climbs as far. -/
theorem mul_eq_up_mul {b p q : RelPath Text} (h : b * p = ⟨1, []⟩ * p) (hle : p.ups ≤ q.ups) :
    b * q = ⟨1, []⟩ * q := by
  have hups := congrArg RelPath.ups h
  have hlen := congrArg (List.length ∘ RelPath.names) h
  simp only [Function.comp, RelPath.mul_ups, RelPath.mul_names, List.length_append,
    List.length_take, List.length_nil] at hups hlen
  have htake : b.names.length - q.ups = 0 := by omega
  ext1
  · simp only [RelPath.mul_ups, List.length_nil]
    omega
  · simp [RelPath.mul_names, htake]

/-- The base directory, then the root, as reduced components. -/
def rootWalk (base root : Text) : RelPath Text :=
  walk (normalizePath base) * walk (normalizePath root)

/-- A relative root that begins by going up, and that neither the standard library nor the
builtins move when they resolve it again. -/
structure StaysPut (base root : Text) : Prop where
  base_relative : isAbsolutePath base = false
  root_relative : isAbsolutePath root = false
  ups : 1 ≤ (rootWalk base root).ups
  stdlib : walk (normalizePath base) * rootWalk base root = rootWalk base root
  builtin : builtinWalk base (walkText (rootWalk base root)) = rootWalk base root

section Relative

variable {host : HostDirs} {base root rel : Text}

theorem rootWalk_plain : ∀ n ∈ (rootWalk base root).names, PlainName n := walk_mul_plain

theorem rootWalk_backslash : ∀ n ∈ (rootWalk base root).names, '\\' ∉ n := by
  intro n hn
  rcases RelPath.mem_names_mul hn with hm | hm
  · exact backslash_not_mem_names hm
  · exact backslash_not_mem_names hm

/-- No drive, since the first component of the root would be the name of the drive. -/
theorem StaysPut.not_driveName (h : StaysPut base root) : ¬DriveName (normalizePath base) := by
  intro hdn
  have hups := congrArg RelPath.ups h.stdlib
  rw [walk_driveName hdn, RelPath.mul_ups] at hups
  have := h.ups
  simp at hups
  omega

theorem not_driveName_walkText {p : RelPath Text} (hp : 1 ≤ p.ups) : ¬DriveName (walkText p) := by
  rintro ⟨c, hc, htext⟩
  rw [walkText_of_ups hp] at htext
  split at htext <;> cases htext

theorem walkText_rootWalk_ne_nil (hups : 1 ≤ (rootWalk base root).ups) :
    walkText (rootWalk base root) ≠ [] := by
  rw [walkText_of_ups hups]
  split <;> simp [dotDot]

/-- A name is resolved from the base directory once more. -/
theorem localPath_of_ups (hhost : HasBase host base) (hbase : isAbsolutePath base = false)
    (hdn : ¬DriveName (normalizePath base)) (hups : 1 ≤ (rootWalk base root).ups)
    (hrel : isAbsolutePath rel = false) (hne : rel ≠ []) :
    localPath host (walkText (rootWalk base root)) rel =
      walkText (walk (normalizePath base) * (rootWalk base root * walk (normalizePath rel))) := by
  have hs : Simplified (walkText (rootWalk base root)) :=
    .relative rootWalk_plain rootWalk_backslash
  have habs := isAbsolutePath_walkText_of_ups (p := rootWalk base root) rootWalk_plain
    rootWalk_backslash (Nat.one_le_iff_ne_zero.mp hups)
  have hj : isAbsolutePath (joinPath (walkText (rootWalk base root)) rel) = false := by
    refine isAbsolutePath_joinPath_relative (walkText_rootWalk_ne_nil hups) habs ?_ hrel
    rw [hs.normalizePath_eq]
    exact not_driveName_walkText hups
  rw [localPath, if_neg hne, resolveHostPath_relative hhost hbase hdn hj, normalizePath_joinPath,
    walk_joinPath _ hrel, hs.normalizePath_eq, walk_walkText rootWalk_plain]

/-- A root that resolving again does not move. -/
theorem localPath_of_stays (hhost : HasBase host base) (hbase : isAbsolutePath base = false)
    (hdn : ¬DriveName (normalizePath base)) (hups : 1 ≤ (rootWalk base root).ups)
    (hstays : walk (normalizePath base) * rootWalk base root = rootWalk base root)
    (hrel : isAbsolutePath rel = false) :
    localPath host (walkText (rootWalk base root)) rel =
      walkText (rootWalk base root * walk (normalizePath rel)) := by
  by_cases hnil : rel = []
  · subst hnil
    have hone : walk (normalizePath []) = 1 := rfl
    rw [hone, mul_one]
    rfl
  · rw [localPath_of_ups hhost hbase hdn hups hrel hnil, ← mul_assoc, hstays]

theorem localPath_relative (hhost : HasBase host base) (h : StaysPut base root)
    (hrel : isAbsolutePath rel = false) :
    localPath host (walkText (rootWalk base root)) rel =
      walkText (rootWalk base root * walk (normalizePath rel)) :=
  localPath_of_stays hhost h.base_relative h.not_driveName h.ups h.stdlib hrel

theorem not_builtinRooted (hne : base ≠ []) (hbase : isAbsolutePath base = false) {p : RelPath Text}
    (hp : 1 ≤ p.ups) : ¬BuiltinRooted base (cText (walkText p)) := by
  rintro (hroot | hroot)
  · rw [cText_walkText_of_ups hp] at hroot
    split at hroot <;> cases hroot
  · obtain ⟨c, rest, rfl⟩ := List.exists_cons_of_ne_nil hne
    cases hroot
    exact (isAbsolutePath_false_iff.mp hbase).1 rfl

theorem settled_relative (hhost : HasBase host base) (h : StaysPut base root) (w : RelPath Text)
    (hw : ∀ n ∈ (rootWalk base root * w).names, PlainName n)
    (hb : ∀ n ∈ (rootWalk base root * w).names, '\\' ∉ n) :
    Settled host base (walkText (rootWalk base root * w)) (.relative (rootWalk base root * w)) := by
  have hups : 1 ≤ (rootWalk base root * w).ups := by
    rw [RelPath.mul_ups]
    have := h.ups
    omega
  have hne : rootWalk base root * w ≠ 1 := by
    intro hone
    rw [hone] at hups
    exact absurd hups (by decide)
  have hpath : PathTo _ _ := .relative hw hb hne
  refine ⟨hpath, ?_, ?_⟩
  · have habs := isAbsolutePath_walkText_of_ups hw hb (Nat.one_le_iff_ne_zero.mp hups)
    rw [resolveHostPath_relative hhost h.base_relative h.not_driveName habs,
      hpath.simplified.normalizePath_eq, walk_walkText hw, ← mul_assoc, h.stdlib]
  · have hstay := h.builtin
    rw [builtinWalk_walkText base rootWalk_plain h.ups] at hstay
    have hup : builtinUp base * dropUp (rootWalk base root) =
        ⟨1, []⟩ * dropUp (rootWalk base root) := by rw [hstay, up_mul_dropUp h.ups]
    have hclimbs : (dropUp (rootWalk base root)).ups ≤
        (walk (cText (walkText (dropUp (rootWalk base root * w))))).ups := by
      refine le_trans ?_ (ups_le_cText_walkText _ _)
      simp only [dropUp, RelPath.mul_ups]
      omega
    rw [locate_jsPtPathText hhost.ne_nil, builtinPlace,
      if_neg (not_builtinRooted hhost.ne_nil h.base_relative hups), Location.cut,
      builtinWalk_cText_walkText base hups, mul_eq_up_mul hup hclimbs, walk_cText_walkText hups]

theorem StaysPut.resolvedRoot_eq (h : StaysPut base root) (hhost : HasBase host base) :
    resolvedRoot host root = walkText (rootWalk base root) :=
  resolveHostPath_relative hhost h.base_relative h.not_driveName h.root_relative

/-- The names of a workspace whose root stays where it is. -/
theorem settled_of_staysPut (hhost : HasBase host base) (h : StaysPut base root)
    (hrel : isAbsolutePath rel = false) :
    Settled host base (localPath host (resolvedRoot host root) rel)
        (workspacePlace (resolvedRoot host root) rel) ∧
      localPath host (resolvedRoot host root) (orDot rel) =
        localPath host (resolvedRoot host root) rel := by
  have hpath := localPath_relative hhost h hrel
  have hplain : ∀ n ∈ (rootWalk base root * walk (normalizePath rel)).names, PlainName n := by
    intro n hn
    rcases RelPath.mem_names_mul hn with hm | hm
    · exact rootWalk_plain n hm
    · exact plainName_of_walk hm
  have hone : rootWalk base root ≠ 1 := by
    intro hone
    have := h.ups
    rw [hone] at this
    exact absurd this (by decide)
  have hplace : workspacePlace (resolvedRoot host root) rel =
      .relative (rootWalk base root * walk (normalizePath rel)) := by
    rw [workspacePlace, h.resolvedRoot_eq hhost, locate_walkText rootWalk_plain, if_neg hone]
    rfl
  constructor
  · rw [hplace, h.resolvedRoot_eq hhost, hpath]
    exact settled_relative hhost h _ hplain (names_mul_backslash rootWalk_backslash rel _)
  · have hrel' : isAbsolutePath (orDot rel) = false := by rw [isAbsolutePath_orDot, hrel]
    rw [h.resolvedRoot_eq hhost, hpath, localPath_relative hhost h hrel', walk_normalizePath_orDot]

end Relative

/-! ## All other roots -/

section Necessary

variable {W : Type} {host : HostDirs} {fs : FileSystem W} {base root : Text}

theorem stdlibPlace_ne_one (base path : Text) : stdlibPlace base path ≠ some (.relative 1) := by
  unfold stdlibPlace
  split
  · simp
  · split
    · simp
    · rename_i h
      simpa using h

/-- A resolved path is never the current directory. -/
theorem locate_localPath_ne_one (hhost : HasBase host base) (rel : Text) :
    locate (localPath host (resolvedRoot host root) rel) ≠ some (.relative 1) := by
  unfold localPath
  split
  · rw [resolvedRoot, locate_resolveHostPath hhost]
    exact stdlibPlace_ne_one _ _
  · rw [locate_resolveHostPath hhost]
    exact stdlibPlace_ne_one _ _

theorem mul_up_eq_one {p : RelPath Text} (hp : p.ups = 0) : p * ⟨p.names.length, []⟩ = 1 := by
  ext1 <;> simp [RelPath.mul_ups, RelPath.mul_names, hp]

/-- The root of a coherent workspace is below `/` or begins by going up. -/
theorem Coherent.goes_up (hhost : HasBase host base) (h : Coherent host fs base root)
    (hroot : ¬StdlibRooted base root) :
    ∃ p : RelPath Text, stdlibWalk base root = p ∧ 1 ≤ p.ups ∧
      locate (resolvedRoot host root) = some (.relative p) := by
  have hloc : locate (resolvedRoot host root) = stdlibPlace base root :=
    locate_resolveHostPath hhost root
  rw [stdlibPlace, if_neg hroot] at hloc
  by_cases hone : stdlibWalk base root = 1
  · rw [if_pos hone] at hloc
    have hcaminho := (h [] rfl).caminho
    have hpath : localPath host (resolvedRoot host root) [] = resolvedRoot host root := rfl
    rw [hpath, hloc] at hcaminho
    cases hcaminho
  · rw [if_neg hone] at hloc
    refine ⟨_, rfl, ?_, hloc⟩
    -- otherwise going up leads to the current directory, which no resolved path denotes
    by_contra hups
    have hzero : (stdlibWalk base root).ups = 0 := by omega
    let n := (stdlibWalk base root).names.length
    have hcaminho := (h (upPath n) (isAbsolutePath_upPath n)).caminho
    rw [workspacePlace, hloc, normalizePath_upPath, walk_upPath] at hcaminho
    have hplace : joinPlace ((some (.relative (stdlibWalk base root))).getD (.relative 1)) ⟨n, []⟩ =
        .relative 1 := congrArg Location.relative (mul_up_eq_one hzero)
    rw [hplace] at hcaminho
    exact locate_localPath_ne_one hhost _ hcaminho

/-- Components found without a drive. -/
theorem stdlibWalk_of_ups (hroot : ¬StdlibRooted base root)
    (hups : 1 ≤ (stdlibWalk base root).ups) :
    isAbsolutePath base = false ∧ ¬DriveName (normalizePath base) ∧ isAbsolutePath root = false ∧
      stdlibWalk base root = rootWalk base root := by
  have hr : ¬Rooted root := fun hr => hroot (.inl hr)
  unfold stdlibWalk at hups ⊢
  dsimp only at hups ⊢
  split at hups
  · exact absurd hups (by simp [driveWalk])
  · rename_i hrd
    have habs : isAbsolutePath root = false :=
      isAbsolutePath_false_iff.mpr ⟨hr, Bool.eq_false_iff.mpr hrd⟩
    split at hups
    · exact absurd hups (by simp [driveWalk])
    · rename_i hbd
      have hb : isAbsolutePath base = false :=
        isAbsolutePath_false_iff.mpr ⟨fun hb => hroot (.inr ⟨habs, hb⟩), Bool.eq_false_iff.mpr hbd⟩
      split at hups
      · exact absurd hups (by simp [driveWalk])
      · rename_i hdn
        have hname : ¬DriveName (normalizePath base) := by
          intro hname
          have hskip : walk (normalizePath root) = 1 := by
            by_cases hnil : normalizePath root = []
            · rw [hnil, walk_nil]
            · have hdot : normalizePath root = dot := by
                by_contra hdot
                exact hdn ⟨hname, hnil, hdot⟩
              rw [hdot, walk_dot]
          rw [hskip, mul_one, walk_driveName hname] at hups
          exact absurd hups (by simp)
        rw [if_neg hrd, if_neg hr, if_neg hbd, if_neg hdn]
        exact ⟨hb, hname, habs, rfl⟩

theorem Coherent.staysPut (hhost : HasBase host base) (h : Coherent host fs base root)
    (hroot : ¬StdlibRooted base root) : StaysPut base root := by
  obtain ⟨p, hp, hups, hloc⟩ := h.goes_up hhost hroot
  obtain ⟨hb, hdn, hr, hwalk⟩ := stdlibWalk_of_ups hroot (hp.symm ▸ hups)
  have hpr : p = rootWalk base root := hp.symm.trans hwalk
  subst hpr
  have hraiz : resolvedRoot host root = walkText (rootWalk base root) :=
    resolveHostPath_relative hhost hb hdn hr
  have hstays : walk (normalizePath base) * rootWalk base root = rootWalk base root := by
    have hcaminho := (h dot rfl).caminho
    have hdot : walk (normalizePath dot) = 1 := rfl
    have hplain : ∀ n ∈ (walk (normalizePath base) * rootWalk base root).names, PlainName n := by
      intro n hn
      rcases RelPath.mem_names_mul hn with hm | hm
      · exact plainName_of_walk hm
      · exact rootWalk_plain n hm
    rw [workspacePlace, hloc, hraiz, localPath_of_ups hhost hb hdn hups rfl (by decide), hdot,
      mul_one, locate_walkText hplain] at hcaminho
    split at hcaminho
    · cases hcaminho
    · simpa [joinPlace] using hcaminho
  refine ⟨hb, hr, hups, hstays, ?_⟩
  -- up to where the names of the root begin there is no NUL, whatever the root is
  let n := (rootWalk base root).names.length
  have hbuiltin := (h (upPath n) (isAbsolutePath_upPath n)).builtin
  have hup : rootWalk base root * ⟨n, []⟩ = ⟨(rootWalk base root).ups, []⟩ := by
    ext1 <;> simp [RelPath.mul_ups, RelPath.mul_names, n]
  have hplace : joinPlace ((some (.relative (rootWalk base root))).getD (.relative 1)) ⟨n, []⟩ =
      .relative ⟨(rootWalk base root).ups, []⟩ := congrArg Location.relative hup
  generalize hq : (⟨(rootWalk base root).ups, []⟩ : RelPath Text) = q at hup hplace
  have hqups : 1 ≤ q.ups := by rwa [← hq]
  rw [workspacePlace, hloc, hraiz,
    localPath_of_stays hhost hb hdn hups hstays (isAbsolutePath_upPath n), normalizePath_upPath,
    walk_upPath, hup, hplace, locate_jsPtPathText hhost.ne_nil, builtinPlace,
    if_neg (not_builtinRooted hhost.ne_nil hb hqups), builtinWalk_cText_walkText base hqups,
    Location.cut, walk_cText_walkText hqups] at hbuiltin
  have hnames : (dropUp q).names = [] := by rw [← hq]; rfl
  have hcut : walk (cText (walkText (dropUp q))) = dropUp q := by
    rw [cText_of_not_mem (nul_not_mem_walkText (by simp [hnames])),
      walk_walkText (by simp [hnames])]
  rw [hcut] at hbuiltin
  have hlike := Location.relative.inj (Option.some.inj hbuiltin)
  have hle : (dropUp q).ups ≤ (dropUp (rootWalk base root)).ups := by rw [← hq]; rfl
  rw [builtinWalk_walkText base rootWalk_plain hups, mul_eq_up_mul hlike hle, up_mul_dropUp hups]

end Necessary

theorem settled_of_root {host : HostDirs} {base root rel : Text} (hhost : HasBase host base)
    (hroot : StdlibRooted base root ∨ StaysPut base root) (hrel : isAbsolutePath rel = false) :
    Settled host base (localPath host (resolvedRoot host root) rel)
        (workspacePlace (resolvedRoot host root) rel) ∧
      localPath host (resolvedRoot host root) (orDot rel) =
        localPath host (resolvedRoot host root) rel := by
  rcases hroot with hroot | hstay
  · exact settled_of_rooted hhost hroot hrel
  · exact settled_of_staysPut hhost hstay hrel

/-- Resolving is idempotent exactly for absolute base directories and for relative ones that go
down as far as they go up, and a workspace is coherent exactly when its root is below `/` or stays
where it is when it is resolved again, and its files keep what is written to them. -/
theorem workspaces_coherent_iff {W : Type} {host : HostDirs} {fs : FileSystem W} {base : Text}
    (hhost : HasBase host base) (hc : fs.CStrings) :
    ((∀ path, resolveHostPath host (resolveHostPath host path) = resolveHostPath host path) ↔
      isAbsolutePath base = true ∨
        (walk (normalizePath base)).names.length = (walk (normalizePath base)).ups) ∧
    ∀ root, Coherent host fs base root ↔
      (StdlibRooted base root ∨ StaysPut base root) ∧
        KeepsTexts host fs (resolvedRoot host root) := by
  refine ⟨resolve_idempotent_iff hhost, fun root => ⟨fun h => ?_, ?_⟩⟩
  · have hroot : StdlibRooted base root ∨ StaysPut base root := by
      by_cases hroot : StdlibRooted base root
      · exact .inl hroot
      · exact .inr (h.staysPut hhost hroot)
    refine ⟨hroot, fun rel hrel hsome text w => ?_⟩
    obtain ⟨hsettled, _⟩ := settled_of_root hhost hroot hrel
    exact (hsettled.roundTrip_iff hhost hc).mp
      (fun size c w' hw => (h rel hrel).roundTrip text size c w w' hw) hsome
  · rintro ⟨hroot, hkeeps⟩ rel hrel
    obtain ⟨hsettled, hdot⟩ := settled_of_root hhost hroot hrel
    exact .of_settled hhost hc hsettled hdot (hkeeps rel hrel)

/-- The host after `js_set_pt_base_dir` for a script. -/
def scriptHost (filename : Text) : HostDirs :=
  { ptBaseDir := some (ptDirname filename), getcwd := "/work".toList }

/-- A disk is a list of files, the newest first; every path has its directory. -/
def listDisk : FileSystem (List (Location × Text)) where
  Info := Unit
  stat := fun l w => if (w.lookup l.cut).isSome then .ok () else .error 2
  mkdir := fun _ w => (0, w)
  readdir := fun _ _ => .ok []
  remove := fun l w => (0, w.filter fun file => file.1 ≠ l.cut)
  rename := fun _ _ w => (-2, w)
  load := fun l w => w.lookup l.cut
  store := fun l t w => some ((l.cut, t) :: w)

theorem listDisk_cStrings : listDisk.CStrings where
  load_cut := fun l w => congrArg (List.lookup · w) l.cut_cut
  store_cut := fun l t w => congrArg (fun l => some ((l, t) :: w)) l.cut_cut

theorem listDisk_stores (l : Location) (text : Text) (w : List (Location × Text)) :
    listDisk.Stores l text w := by
  intro w' h
  obtain rfl := Option.some.inj h
  have hload : List.lookup l.cut ((l.cut, text) :: w) = some text := by simp
  have hstat : listDisk.stat l ((l.cut, text) :: w) = .ok () := by simp [listDisk]
  exact ⟨hload, by rw [hstat]; rfl⟩

theorem workspaces_coherent_iff_absolute :
    ((∀ path, resolveHostPath (scriptHost "/srv/main.ptjs".toList)
        (resolveHostPath (scriptHost "/srv/main.ptjs".toList) path) =
          resolveHostPath (scriptHost "/srv/main.ptjs".toList) path) ↔
      isAbsolutePath "/srv".toList = true ∨
        (walk (normalizePath "/srv".toList)).names.length =
          (walk (normalizePath "/srv".toList)).ups) ∧
    ∀ root, Coherent (scriptHost "/srv/main.ptjs".toList) listDisk "/srv".toList root ↔
      (StdlibRooted "/srv".toList root ∨ StaysPut "/srv".toList root) ∧
        KeepsTexts (scriptHost "/srv/main.ptjs".toList) listDisk
          (resolvedRoot (scriptHost "/srv/main.ptjs".toList) root) :=
  workspaces_coherent_iff ⟨by decide, by decide, by decide⟩ listDisk_cStrings

/-- For the script `samples/main.ptjs`, the path `x` resolves to `samples/x` and that to
`samples/samples/x`. -/
theorem samples_not_coherent :
    ¬((∀ path, resolveHostPath (scriptHost "samples/main.ptjs".toList)
        (resolveHostPath (scriptHost "samples/main.ptjs".toList) path) =
          resolveHostPath (scriptHost "samples/main.ptjs".toList) path) ∧
      ∀ root, Coherent (scriptHost "samples/main.ptjs".toList) listDisk "samples".toList root) := by
  rintro ⟨h, _⟩
  exact absurd (h "x".toList) (by decide)

end GatoCore.Stdlib
