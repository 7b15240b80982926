import GatoCore.Stdlib.WorkspaceFacts

/-!
# What an operation of a workspace leaves alone

A file system is framed when it changes a file only where that file is written. Then an operation
that writes a text changes one file at most, and none when it fails.
-/

namespace GatoCore.Stdlib

open GatoCore.Lib

variable {W : Type} {host : HostDirs} {fs : FileSystem W}

/-- Writing a file leaves the other files as they are, making a directory all of them. -/
structure FileSystem.Framed (fs : FileSystem W) : Prop where
  store_load : ∀ {l t w w'}, fs.store l t w = some w' → ∀ l', l'.cut ≠ l.cut →
    fs.load l' w' = fs.load l' w
  mkdir_load : ∀ l l' w, fs.load l' (fs.mkdir l w).2 = fs.load l' w

/-- Making a directory leaves all files as they are. -/
def FileSystem.KeepsFiles (fs : FileSystem W) : Prop :=
  ∀ l l' w, fs.load l' (fs.mkdir l w).2 = fs.load l' w

theorem mkdirAt_load (hf : fs.KeepsFiles) (path : Text) (l : Location) (w : W) :
    fs.load l (mkdirAt fs path w).2 = fs.load l w := by
  have hcall : fs.load l (onPath path (-2, w) (fs.mkdir · w)).2 = fs.load l w := by
    rw [onPath]
    split
    · exact hf _ _ _
    · rfl
  have hworld : (mkdirAt fs path w).2 = (onPath path (-2, w) (fs.mkdir · w)).2 := by
    simp only [mkdirAt]
    split <;> rfl
  rw [hworld, hcall]

theorem mkdirParts_load (host : HostDirs) (hf : fs.KeepsFiles) (l : Location) (parts : List Text) :
    ∀ (current : Text) (w : W),
      fs.load l (mkdirParts host fs parts current w).2 = fs.load l w := by
  induction parts with
  | nil =>
      intro current w
      rfl
  | cons part parts ih =>
      intro current w
      simp only [mkdirParts]
      generalize (if current ≠ [] then joinPath current part else part) = next
      by_cases hpart : part = []
      · rw [if_pos hpart]
        exact ih current w
      · rw [if_neg hpart]
        by_cases hexists : existsHost host fs next w = true
        · rw [if_pos hexists]
          exact ih next w
        · rw [if_neg hexists]
          have hmk := mkdirAt_load hf next l w
          rcases heq : mkdirAt fs next w with ⟨_ | err, w'⟩
          · rw [heq] at hmk
            exact (ih next w').trans hmk
          · rwa [heq] at hmk

theorem mkdirHost_load (host : HostDirs) (hf : fs.KeepsFiles) (path : Text) (recursive : Bool)
    (l : Location) (w : W) :
    fs.load l (mkdirHost host fs path recursive w).2 = fs.load l w := by
  have hone := mkdirAt_load hf (resolveHostPath host path) l w
  have hall := mkdirParts_load host hf l
    ((simplifyPath (resolveHostPath host path)).splitOn '/')
    (if (resolveHostPath host path).head? = some '/' then ['/'] else []) w
  simp only [mkdirHost]
  cases recursive with
  | false =>
      rcases hmk : mkdirAt fs (resolveHostPath host path) w with ⟨_ | err, w'⟩
      · rwa [hmk] at hone
      · rwa [hmk] at hone
  | true =>
      rcases hmk : mkdirParts host fs ((simplifyPath (resolveHostPath host path)).splitOn '/')
        (if (resolveHostPath host path).head? = some '/' then ['/'] else []) w with ⟨_ | err, w'⟩
      · rwa [hmk] at hall
      · rwa [hmk] at hall

/-- Where the builtins find a path of a workspace. -/
def filePlace (host : HostDirs) (base raiz rel : Text) : Location :=
  builtinPlace base (cText (localPath host raiz rel))

theorem nul_not_mem_jsPtPathText {base path : Text} (hbase : '\x00' ∉ base)
    (hpath : '\x00' ∉ path) : '\x00' ∉ jsPtPathText base path := by
  unfold jsPtPathText
  split
  · exact hpath
  · split
    · exact hpath
    · simp only [List.mem_append, not_or]
      refine ⟨⟨hbase, ?_⟩, hpath⟩
      split
      · simp
      · decide

theorem filePlace_cut {base : Text} (hhost : HasBase host base) (raiz rel : Text) :
    (filePlace host base raiz rel).cut = filePlace host base raiz rel :=
  cut_of_locate (locate_jsPtPathText hhost.ne_nil _)
    (nul_not_mem_jsPtPathText hhost.no_nul (nul_not_mem_cText _))

/-- A text that a workspace has written is in its file when the file takes it; the other files, and
all of them when it fails, are as before. -/
theorem escreverTexto_frame {base : Text} (hhost : HasBase host base) (hf : fs.Framed)
    (raiz rel text : Text) (w : W) :
    (fs.Stores (filePlace host base raiz rel) text
        (mkdirHost host fs (dirnamePath (localPath host raiz rel)) true w).2 →
      (Workspace.escreverTexto host fs raiz rel text w).1.isOk = true →
      fs.load (filePlace host base raiz rel)
        (Workspace.escreverTexto host fs raiz rel text w).2 = some text) ∧
    ∀ l, (Workspace.escreverTexto host fs raiz rel text w).1.isOk = false ∨
        l.cut ≠ filePlace host base raiz rel →
      fs.load l (Workspace.escreverTexto host fs raiz rel text w).2 = fs.load l w := by
  have hmk := mkdirHost_load host hf.mkdir_load (dirnamePath (localPath host raiz rel)) true
  simp only [Workspace.escreverTexto, writeTextHost, escreverTexto, jsPtResolvePath_eq hhost,
    printToBuffer]
  by_cases hlong : utf8Length (jsPtPathText base (cText (localPath host raiz rel))) ≥ 4096
  · rw [if_pos hlong]
    simp only [Option.bind_eq_bind, Option.bind_none]
    exact ⟨fun _ hok => (by cases hok), fun l _ => hmk l w⟩
  · rw [if_neg hlong]
    have hplace : ∀ (call : Location → Option W),
        onPath (jsPtPathText base (cText (localPath host raiz rel))) none call =
          call (filePlace host base raiz rel) := by
      intro call
      exact onPath_eq (locate_jsPtPathText hhost.ne_nil _) _ _
    simp only [Option.bind_eq_bind, Option.bind_some, hplace]
    cases hstore : fs.store (filePlace host base raiz rel) text
        (mkdirHost host fs (dirnamePath (localPath host raiz rel)) true w).2 with
    | none =>
        simp only [Option.bind_none]
        exact ⟨fun _ hok => (by cases hok), fun l _ => hmk l w⟩
    | some w' =>
        refine ⟨fun hstores _ => (hstores w' hstore).1, ?_⟩
        rintro l (hfail | hl)
        · cases hfail
        · rw [← filePlace_cut hhost] at hl
          exact (hf.store_load hstore l hl).trans (hmk l w)

end GatoCore.Stdlib
