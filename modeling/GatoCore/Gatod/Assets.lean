import GatoCore.Gatod.Selection

/-!
# Importing assets

Source: `assetTypeFromName`, `inspectImportedAsset` and `importAssets` of
`samples/gatod_engine/src/engine/api.ptjs`, `gatod.util.fnv1aBytes` of
`samples/gatod_engine/src/bootstrap/core.ptjs`, `specialFactories.asset` of `stdlib/ptstdlib.js` and
the builtin `ler_bytes` of `engines/quickjs/quickjs-libc.c`.

`ler_bytes` returns an `ArrayBuffer`, and `fnv1aBytes` reads what has a `length` and indices.
-/

namespace GatoCore.Gatod

open GatoCore.Lib GatoCore.Stdlib

/-! ## Bytes and their hash -/

/-- The two kinds of values that hold bytes. -/
inductive HostBytes where
  | arrayBuffer (bytes : List UInt8)
  | uint8Array (bytes : List UInt8)

namespace HostBytes

/-- `bytes.length`, `none` where it is undefined: an `ArrayBuffer` has a `byteLength`. -/
def length : HostBytes → Option ℕ
  | arrayBuffer _ => none
  | uint8Array bytes => some bytes.length

/-- `bytes[idx]`. -/
def get? (idx : ℕ) : HostBytes → Option UInt8
  | arrayBuffer _ => none
  | uint8Array bytes => bytes[idx]?

end HostBytes

/-- `("00000000" + hash.toString(16)).slice(-8)`. -/
def hashText (hash : UInt32) : Text :=
  let text := "00000000".toList ++ Nat.toDigits 16 hash.toNat
  text.drop (text.length - 8)

def fnvOffset : UInt32 := 0x811c9dc5

def fnvPrime : UInt32 := 0x01000193

/-- No index is below a length that is undefined. -/
def fnv1aBytes (bytes : HostBytes) : Text :=
  hashText ((List.range (bytes.length.getD 0)).foldl
    (fun hash idx => (hash ^^^ ((bytes.get? idx).getD 0).toUInt32) * fnvPrime) fnvOffset)

/-- The hash of 32 bits: each byte is taken in by an exclusive or, and multiplied. -/
def fnv1a (bytes : List UInt8) : UInt32 :=
  bytes.foldl (fun hash byte => (hash ^^^ byte.toUInt32) * fnvPrime) fnvOffset

/-! ## The files -/

/-- What the host answers while files are imported. -/
structure ImportFiles where
  /-- The names of `ws.listar("imports")`, where it is `ok`. -/
  listar : Option (List Text)
  /-- `mode` of `ws.stat("imports/" + name)`, where it is `ok`. -/
  stat : Text → Option ℕ
  /-- `ws.caminho("imports/" + name)`. -/
  caminho : Text → Text
  ler_bytes : Text → Option (List UInt8)
  ler_texto : Text → Option Text

def S_IFMT : ℕ := 0o170000

def S_IFDIR : ℕ := 0o040000

def isDirectory (mode : ℕ) : Bool := mode ≠ 0 && mode &&& S_IFMT = S_IFDIR

/-! ## Records -/

/-- `name.split(".").pop()`. -/
def lastPart (name : Text) : Text := ((name.splitOn '.').getLast?).getD []

section Names

variable (toLowerCase : Text → Text)

def assetTypeFromName (name : Text) : Text :=
  let parts := (toLowerCase name).splitOn '.'
  let ext := if parts.length > 1 then lastPart (toLowerCase name) else []
  if ext ∈ ["png".toList, "jpg".toList, "jpeg".toList, "bmp".toList, "gif".toList] then
    "imagem".toList
  else if ext ∈ ["wav".toList, "ogg".toList, "mp3".toList] then "audio".toList
  else if ext ∈ ["ttf".toList, "otf".toList, "fnt".toList] then "fonte".toList
  else if ext ∈ ["obj".toList, "glb".toList, "gltf".toList] then "malha".toList
  else if ext = "ptjs".toList then "script".toList
  else if ext ∈ ["gatod".toList, "scene".toList] then "scene".toList
  else if ext = "json".toList then
    if ".gatod.json".toList <:+: name then "scene".toList else "json".toList
  else if ext ≠ [] then "arquivo_".toList ++ ext
  else "arquivo".toList

end Names

/-- The first entry of the text split at its ends of line. -/
def firstLine : Text → Text
  | [] => []
  | '\n' :: _ => []
  | '\r' :: '\n' :: _ => []
  | c :: text => c :: firstLine text

/-- What is found out about a file. A field that is undefined is `none`. -/
structure AssetMeta (N : Type) where
  tipo : Text
  origem : Text
  extensao : Text
  tamanho_bytes : Option ℕ
  hash_fnv1a : Text
  preview : Json N
  scene_payload : Option (Json N)

/-- A record of the assets with the fields an import gives it; the others have none of them. -/
structure Asset (N : Type) where
  nome : Text
  importado : Option (AssetMeta N)

/-- `assets` and `selected_asset_id`. -/
structure AssetList (N : Type) where
  assets : List (Asset N)
  selected_asset_id : Text

def AssetList.names {N : Type} (s : AssetList N) : List Text := s.assets.map Asset.nome

section Import

variable {N : Type} [NumberText N] [DecidableEq N] (toLowerCase : Text → Text) (files : ImportFiles)

/-- The kinds of which the text is read. -/
def hasText (tipo : Text) : Bool :=
  tipo = "json".toList || tipo = "scene".toList || tipo = "script".toList ||
    "arquivo_".toList.isPrefixOf tipo

/-- The preview of a scene and its payload, for the value of its text. -/
def sceneFields (parsed : Json N) : Json N × Json N :=
  (orElse (parsed.field "nome".toList)
      (orElse (parsed.field "tipo_no".toList) (.text "scene".toList)),
    orElse (parsed.field "scene".toList) parsed)

/-- There is no outcome where a builtin throws. -/
def inspectImportedAsset (absolutePath name : Text) : Option (AssetMeta N) := do
  let bytes ← (files.ler_bytes absolutePath).map HostBytes.arrayBuffer
  let tipo := assetTypeFromName toLowerCase name
  let record : AssetMeta N :=
    { tipo := tipo
      origem := absolutePath
      extensao := toLowerCase (lastPart name)
      tamanho_bytes := bytes.length
      hash_fnv1a := fnv1aBytes bytes
      preview := .text []
      scene_payload := none }
  if hasText tipo then
    let text ← files.ler_texto absolutePath
    let record := { record with preview := .text (firstLine text) }
    if tipo = "scene".toList then
      match (Json.parse text).filter Json.truthy with
      | some parsed =>
          return { record with
            preview := (sceneFields parsed).1, scene_payload := some (sceneFields parsed).2 }
      | none => return record
    else return record
  else return record

/-- The file is read, or skipped; the state has the number of files imported so far. -/
def importAsset (state : AssetList N × ℕ) (name : Text) : Option (AssetList N × ℕ) :=
  match files.stat name with
  | none => some state
  | some mode =>
      if name ∈ state.1.names ∨ isDirectory mode then some state
      else
        (inspectImportedAsset toLowerCase files (files.caminho name) name).map fun found =>
          let record :=
            { nome := if name = [] then "asset".toList else name, importado := some found }
          ({ assets := state.1.assets ++ [record], selected_asset_id := record.nome }, state.2 + 1)

/-- The assets after the import and how many are new. There is no outcome where a builtin throws. -/
def importAssets (s : AssetList N) : Option (AssetList N × ℕ) :=
  (files.listar.getD []).foldlM (importAsset toLowerCase files) (s, 0)

end Import

/-! ## What an import should do -/

section Spec

variable {N : Type} [NumberText N] [DecidableEq N] (toLowerCase : Text → Text) (files : ImportFiles)

/-- The file is there and is no directory. -/
def ImportFiles.Importable (name : Text) : Prop :=
  name ∈ files.listar.getD [] ∧ ∃ mode, files.stat name = some mode ∧ isDirectory mode = false

/-- The record has the length and the hash of its file. -/
def ImportFiles.Recorded (record : Asset N) : Prop :=
  ∃ bytes found, files.ler_bytes (files.caminho record.nome) = some bytes ∧
    record.importado = some found ∧ found.tamanho_bytes = some bytes.length ∧
    found.hash_fnv1a = hashText (fnv1a bytes)

/-- The records that are new have what is in their files, each new file has one record, and
importing again adds nothing. -/
structure ImportsRight (before after : AssetList N) : Prop where
  recorded : ∃ added, after.assets = before.assets ++ added ∧
    ∀ record ∈ added, files.Recorded record
  once : ∀ name, files.Importable name → name ∉ before.names → after.names.count name = 1
  again : importAssets toLowerCase files after = some (after, 0)

end Spec

/-! ## The hash -/

/-- Of the bytes of a typed array, it is the hash. -/
theorem fnv1aBytes_uint8Array (bytes : List UInt8) :
    fnv1aBytes (.uint8Array bytes) = hashText (fnv1a bytes) := by
  have hloop : ∀ hash : UInt32, (List.range bytes.length).foldl
      (fun hash idx => (hash ^^^ ((bytes[idx]?).getD 0).toUInt32) * fnvPrime) hash =
        bytes.foldl (fun hash byte => (hash ^^^ byte.toUInt32) * fnvPrime) hash := by
    intro hash
    have hbytes : bytes = (List.range bytes.length).map fun idx => (bytes[idx]?).getD 0 := by
      apply List.ext_getElem
      · rw [List.length_map, List.length_range]
      · intro idx hidx _
        rw [List.getElem_map, List.getElem_range, List.getElem?_eq_getElem hidx, Option.getD_some]
    conv_rhs => rw [hbytes, List.foldl_map]
  exact congrArg hashText (hloop fnvOffset)

section Run

variable {N : Type} [NumberText N] [DecidableEq N] {toLowerCase : Text → Text} {files : ImportFiles}

/-! ## What an import does -/

/-- No record has the length of its file. -/
theorem inspectImportedAsset_tamanho {path name : Text} {found : AssetMeta N}
    (h : inspectImportedAsset toLowerCase files path name = some found) :
    found.tamanho_bytes = none := by
  obtain ⟨bytes, hbytes, h⟩ := Option.bind_eq_some_iff.mp h
  obtain ⟨content, -, rfl⟩ := Option.map_eq_some_iff.mp hbytes
  simp only at h
  split_ifs at h
  · obtain ⟨text, -, h⟩ := Option.bind_eq_some_iff.mp h
    split at h
    · obtain rfl := Option.some.inj h
      rfl
    · obtain rfl := Option.some.inj h
      rfl
  · obtain ⟨text, -, h⟩ := Option.bind_eq_some_iff.mp h
    obtain rfl := Option.some.inj h
    rfl
  · obtain rfl := Option.some.inj h
    rfl

/-- A file is new: it is there, it is no directory, and no record has its name. -/
def IsNewFile (files : ImportFiles) (names : List Text) (name : Text) : Prop :=
  name ∉ names ∧ ∃ mode, files.stat name = some mode ∧ isDirectory mode = false

/-- One file: it is skipped, or it is new and has a record now. -/
theorem importAsset_cases {state state' : AssetList N × ℕ} {name : Text}
    (h : importAsset toLowerCase files state name = some state') :
    (¬ IsNewFile files state.1.names name ∧ state' = state) ∨
      (IsNewFile files state.1.names name ∧ ∃ record : Asset N,
        state'.1.assets = state.1.assets ++ [record] ∧ state'.2 = state.2 + 1 ∧
          record.nome = (if name = [] then "asset".toList else name) ∧
          ∀ found, record.importado = some found → found.tamanho_bytes = none) := by
  rw [importAsset] at h
  rcases hstat : files.stat name with _ | mode
  · rw [hstat] at h
    refine Or.inl ⟨?_, (Option.some.inj h).symm⟩
    rintro ⟨-, mode, hmode, -⟩
    rw [hstat] at hmode
    cases hmode
  · rw [hstat] at h
    simp only at h
    by_cases hskip : name ∈ state.1.names ∨ isDirectory mode = true
    · rw [if_pos hskip] at h
      refine Or.inl ⟨?_, (Option.some.inj h).symm⟩
      rintro ⟨hname, mode', hmode', hdir⟩
      obtain rfl := Option.some.inj (hstat.symm.trans hmode')
      rcases hskip with hmem | htrue
      · exact hname hmem
      · rw [hdir] at htrue
        cases htrue
    · rw [if_neg hskip] at h
      rw [not_or, Bool.not_eq_true] at hskip
      obtain ⟨found, hfound, rfl⟩ := Option.map_eq_some_iff.mp h
      refine Or.inr ⟨⟨hskip.1, mode, hstat, hskip.2⟩, _, rfl, rfl, rfl, ?_⟩
      rintro found' h'
      obtain rfl := Option.some.inj h'
      exact inspectImportedAsset_tamanho hfound

theorem importAsset_skip {state : AssetList N × ℕ} {name : Text}
    (h : ¬ IsNewFile files state.1.names name) :
    importAsset toLowerCase files state name = some state := by
  rw [importAsset]
  rcases hstat : files.stat name with _ | mode
  · rfl
  · have hskip : name ∈ state.1.names ∨ isDirectory mode = true := by
      by_contra hnot
      rw [not_or, Bool.not_eq_true] at hnot
      exact h ⟨hnot.1, mode, hstat, hnot.2⟩
    exact if_pos hskip

/-- Where no file is new, nothing changes. -/
theorem importAssets_skip {names : List Text} {state : AssetList N × ℕ}
    (h : ∀ name ∈ names, ¬ IsNewFile files state.1.names name) :
    names.foldlM (importAsset toLowerCase files) state = some state := by
  induction names with
  | nil => rfl
  | cons name names ih =>
      obtain ⟨hname, hnames⟩ := List.forall_mem_cons.mp h
      rw [List.foldlM_cons, importAsset_skip hname]
      exact ih hnames

/-- The records that are new are behind the others, none has the length of its file, and there are
some where a file is new. -/
theorem importAssets_added {names : List Text} : ∀ {state state' : AssetList N × ℕ},
    names.foldlM (importAsset toLowerCase files) state = some state' →
      ∃ added, state'.1.assets = state.1.assets ++ added ∧ state'.2 = state.2 + added.length ∧
        (∀ record ∈ added, ∀ found, record.importado = some found → found.tamanho_bytes = none) ∧
        ((∃ name ∈ names, IsNewFile files state.1.names name) → added ≠ []) := by
  induction names with
  | nil =>
      intro state state' h
      obtain rfl := Option.some.inj h
      refine ⟨[], (List.append_nil _).symm, rfl, ?_, ?_⟩
      · rintro record hrecord
        cases hrecord
      · rintro ⟨name, hname, -⟩
        cases hname
  | cons name names ih =>
      intro state state' h
      rw [List.foldlM_cons] at h
      obtain ⟨state₁, hname, h⟩ := Option.bind_eq_some_iff.mp h
      obtain ⟨added, hassets, hcount, hsizes, hsome⟩ := ih h
      rcases importAsset_cases hname with ⟨hold, rfl⟩ | ⟨hnew, record, hrecord, hone, -, hsize⟩
      · refine ⟨added, hassets, hcount, hsizes, ?_⟩
        rintro ⟨name', hmem, hname'⟩
        rcases List.mem_cons.mp hmem with rfl | hmem
        · exact absurd hname' hold
        · exact hsome ⟨name', hmem, hname'⟩
      · refine ⟨record :: added, ?_, ?_, ?_, fun _ => List.cons_ne_nil _ _⟩
        · rw [hassets, hrecord, List.append_assoc]
          rfl
        · rw [hcount, hone, List.length_cons, Nat.add_assoc, Nat.add_comm 1]
        · intro record' hmem
          rcases List.mem_cons.mp hmem with rfl | hmem
          · exact hsize
          · exact hsizes record' hmem

theorem isNewFile_iff {names : List Text} :
    (∃ name ∈ files.listar.getD [], IsNewFile files names name) ↔
      ∃ name, files.Importable name ∧ name ∉ names := by
  constructor
  · rintro ⟨name, hmem, hname, hmode⟩
    exact ⟨name, ⟨hmem, hmode⟩, hname⟩
  · rintro ⟨name, ⟨hmem, hmode⟩, hname⟩
    exact ⟨name, hmem, hname, hmode⟩

/-- An import does what it should exactly where it adds nothing: each file there is has a record
already. -/
theorem imports_right_iff {before after : AssetList N} {n : ℕ}
    (h : importAssets toLowerCase files before = some (after, n)) :
    ImportsRight toLowerCase files before after ↔
      ∀ name, files.Importable name → name ∈ before.names := by
  constructor
  · rintro ⟨⟨added, hadded, hrecorded⟩, -, -⟩
    by_contra hnew
    push Not at hnew
    obtain ⟨added', hassets, -, hsizes, hsome⟩ := importAssets_added h
    obtain rfl : added = added' := List.append_cancel_left (hadded.symm.trans hassets)
    obtain ⟨record, hrecord⟩ := List.exists_mem_of_ne_nil _ (hsome (isNewFile_iff.mpr hnew))
    obtain ⟨bytes, found, -, hfound, hsize, -⟩ := hrecorded record hrecord
    rw [hsizes record hrecord found hfound] at hsize
    cases hsize
  · intro hold
    have hnone : ∀ name ∈ files.listar.getD [], ¬ IsNewFile files before.names name :=
      fun name hmem hname => hname.1 (hold name ⟨hmem, hname.2⟩)
    have hskip : importAssets toLowerCase files before = some (before, 0) := importAssets_skip hnone
    obtain ⟨rfl, rfl⟩ := Prod.mk.inj (Option.some.inj (hskip.symm.trans h))
    refine ⟨⟨[], (List.append_nil _).symm, ?_⟩, ?_, hskip⟩
    · rintro record hrecord
      cases hrecord
    · exact fun name hname hnot => absurd (hold name hname) hnot

/-! ## The names of the records -/

theorem IsNewFile.anti {names names' : List Text} {name : Text} (h : IsNewFile files names' name)
    (hsub : names ⊆ names') : IsNewFile files names name :=
  ⟨fun hmem => h.1 (hsub hmem), h.2⟩

/-- A file that is new has its name in the list then. No file has the empty name. -/
theorem importAsset_names {state state' : AssetList N × ℕ} {name : Text} (hname : name ≠ [])
    (h : importAsset toLowerCase files state name = some state')
    (hnew : IsNewFile files state.1.names name) : state'.1.names = state.1.names ++ [name] := by
  rcases importAsset_cases h with ⟨hold, -⟩ | ⟨-, record, hassets, -, hnome, -⟩
  · exact absurd hnew hold
  · rw [AssetList.names, hassets, List.map_append, List.map_singleton, hnome, if_neg hname]
    rfl

/-- Each new name is added once, and no file is new afterwards. -/
theorem importAssets_names {names : List Text} : ∀ {state state' : AssetList N × ℕ},
    [] ∉ names → names.foldlM (importAsset toLowerCase files) state = some state' →
      ∃ new, state'.1.names = state.1.names ++ new ∧ new.Nodup ∧ (∀ n ∈ new, n ∉ state.1.names) ∧
        ∀ name ∈ names, ¬ IsNewFile files state'.1.names name := by
  induction names with
  | nil =>
      intro state state' _ h
      obtain rfl := Option.some.inj h
      refine ⟨[], (List.append_nil _).symm, List.nodup_nil, ?_, ?_⟩
      · rintro n hn
        cases hn
      · rintro n hn
        cases hn
  | cons name names ih =>
      intro state state' hne h
      rw [List.mem_cons, not_or] at hne
      rw [List.foldlM_cons] at h
      obtain ⟨state₁, hstep, h⟩ := Option.bind_eq_some_iff.mp h
      obtain ⟨new, hnames, hnodup, hfresh, hdone⟩ := ih hne.2 h
      have hsub : state₁.1.names ⊆ state'.1.names := hnames ▸ List.subset_append_left _ _
      by_cases hnew : IsNewFile files state.1.names name
      · have hnames₁ := importAsset_names (Ne.symm hne.1) hstep hnew
        have hmem : name ∈ state₁.1.names := by
          rw [hnames₁]
          exact List.mem_append_right _ (List.mem_singleton_self name)
        refine ⟨name :: new, ?_, ?_, ?_, ?_⟩
        · rw [hnames, hnames₁, List.append_assoc]
          rfl
        · exact List.nodup_cons.mpr ⟨fun hn => hfresh name hn hmem, hnodup⟩
        · intro n hn
          rcases List.mem_cons.mp hn with rfl | hn
          · exact hnew.1
          · intro hstate
            apply hfresh n hn
            rw [hnames₁]
            exact List.mem_append_left _ hstate
        · exact List.forall_mem_cons.mpr ⟨fun hname => hname.1 (hsub hmem), hdone⟩
      · obtain rfl : state = state₁ :=
          Option.some.inj ((importAsset_skip hnew).symm.trans hstep)
        refine ⟨new, hnames, hnodup, hfresh, ?_⟩
        exact List.forall_mem_cons.mpr ⟨fun hname => hnew (hname.anti hsub), hdone⟩

/-- What an import does right for all files: each new one has one record, and there is nothing left
for a second import. -/
theorem import_adds_once {before after : AssetList N} {count : ℕ}
    (hne : [] ∉ files.listar.getD [])
    (h : importAssets toLowerCase files before = some (after, count)) :
    (∀ name, files.Importable name → name ∉ before.names → after.names.count name = 1) ∧
      importAssets toLowerCase files after = some (after, 0) := by
  obtain ⟨new, hnames, hnodup, -, hdone⟩ := importAssets_names hne h
  refine ⟨?_, importAssets_skip hdone⟩
  rintro name ⟨hmem, hmode⟩ hnot
  have hafter : name ∈ after.names := by
    by_contra hafter
    exact hdone name hmem ⟨hafter, hmode⟩
  simp only at hnames
  rw [hnames] at hafter ⊢
  rw [List.count_append, List.count_eq_zero_of_not_mem hnot, Nat.zero_add]
  apply List.count_eq_one_of_mem hnodup
  exact (List.mem_append.mp hafter).resolve_left hnot

/-- The file is there and is no directory. -/
def ImportFiles.isFile (files : ImportFiles) (name : Text) : Bool :=
  (files.stat name).any fun mode => !isDirectory mode

omit [NumberText N] [DecidableEq N] in
theorem isNewFile_iff_isFile {names : List Text} {name : Text} :
    IsNewFile files names name ↔ name ∉ names ∧ files.isFile name = true := by
  rw [IsNewFile, ImportFiles.isFile, Option.any_eq_true]
  simp

/-- The names are those the project has after the import of these files. -/
theorem importAssets_refines {names : List Text} : ∀ {state state' : AssetList N × ℕ}
    {p : Project N}, [] ∉ names → p.assets = state.1.names →
      names.foldlM (importAsset toLowerCase files) state = some state' →
        (p.importAssets (names.filter files.isFile)).assets = state'.1.names := by
  induction names with
  | nil =>
      intro state state' p _ hp h
      obtain rfl := Option.some.inj h
      exact hp
  | cons name names ih =>
      intro state state' p hne hp h
      rw [List.mem_cons, not_or] at hne
      rw [List.foldlM_cons] at h
      obtain ⟨state₁, hstep, h⟩ := Option.bind_eq_some_iff.mp h
      by_cases hnew : IsNewFile files state.1.names name
      · have hnames₁ := importAsset_names (Ne.symm hne.1) hstep hnew
        obtain ⟨hname, hfile⟩ := isNewFile_iff_isFile.mp hnew
        rw [List.filter_cons_of_pos hfile, Project.importAssets, List.foldl_cons,
          if_neg (hp ▸ hname)]
        exact ih hne.2 (by rw [hnames₁, ← hp]) h
      · obtain rfl : state = state₁ :=
          Option.some.inj ((importAsset_skip hnew).symm.trans hstep)
        rw [isNewFile_iff_isFile, not_and] at hnew
        by_cases hname : name ∈ state.1.names
        · rw [List.filter_cons]
          split
          · rw [Project.importAssets, List.foldl_cons, if_pos (hp ▸ hname)]
            exact ih hne.2 hp h
          · exact ih hne.2 hp h
        · rw [List.filter_cons_of_neg (hnew hname)]
          exact ih hne.2 hp h

end Run

/-! ## One file of two bytes -/

def imageFile : ImportFiles where
  listar := some ["a.png".toList]
  stat := fun name => if name = "a.png".toList then some 0o100644 else none
  caminho := fun name => "/r/runtime/imports/".toList ++ name
  ler_bytes := fun path =>
    if path = "/r/runtime/imports/a.png".toList then some [0x68, 0x69] else none
  ler_texto := fun _ => none

/-- Once there is a record, there is nothing to import. -/
theorem imports_right_iff_image :
    ImportsRight id imageFile (⟨[⟨"a.png".toList, none⟩], []⟩ : AssetList ℕ)
        ⟨[⟨"a.png".toList, none⟩], []⟩ ↔
      ∀ name, imageFile.Importable name →
        name ∈ (⟨[⟨"a.png".toList, none⟩], []⟩ : AssetList ℕ).names :=
  imports_right_iff (n := 0) rfl

/-- The record of the image. -/
def imageRecord : Asset ℕ where
  nome := "a.png".toList
  importado := some
    { tipo := "imagem".toList
      origem := "/r/runtime/imports/a.png".toList
      extensao := "png".toList
      tamanho_bytes := none
      hash_fnv1a := "811c9dc5".toList
      preview := .text []
      scene_payload := none }

/-- It has no length, and its hash is that of no bytes. -/
theorem import_loses_length :
    importAssets id imageFile (⟨[], []⟩ : AssetList ℕ) =
        some (⟨[imageRecord], "a.png".toList⟩, 1) ∧
      hashText (fnv1a [0x68, 0x69]) = "683af69a".toList ∧
      ¬ ImportsRight id imageFile ⟨[], []⟩ ⟨[imageRecord], "a.png".toList⟩ := by
  refine ⟨rfl, by decide +kernel, ?_⟩
  rintro ⟨⟨added, hadded, hrecorded⟩, -, -⟩
  obtain rfl : [imageRecord] = added := hadded
  obtain ⟨bytes, found, -, hfound, hsize, -⟩ := hrecorded imageRecord (List.mem_singleton_self _)
  obtain rfl := Option.some.inj hfound
  cases hsize

end GatoCore.Gatod
