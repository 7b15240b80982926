import GatoCore.Gatod.Nodes

/-!
# Packing a scene and loading it

A scene that the factories made is loaded as it was packed: every factory leaves its defaults in
their places, the record it makes has no value that a second shallow copy would change, and the
factory that loads it has the same defaults.
-/

namespace GatoCore.Gatod

open GatoCore.Lib GatoCore.Stdlib

variable {N : Type}

/-! ## Fields -/

/-- The keys that every record has as fields of their own. -/
def recordKeys : List Text :=
  ["tipo_recurso".toList, "tipo_no".toList, "id".toList, "nome".toList, "visivel".toList]

namespace NodeFields

/-- The fields without a place of their own. -/
def object (f : NodeFields N) : JsObject (Json N) := ⟨f.indices, f.outros⟩

def withObject (f : NodeFields N) (o : JsObject (Json N)) : NodeFields N :=
  { f with indices := o.indices, outros := o.names }

/-- Every entry is set, one after the other. -/
def setEntries (f : NodeFields N) (es : List (Text × Json N)) : NodeFields N :=
  es.foldl (fun f e => f.set e.1 e.2) f

theorem set_of_not_mem {f : NodeFields N} {key : Text} {v : Json N} (h : key ∉ recordKeys) :
    f.set key v = f.withObject (f.object.set key v) := by
  simp only [recordKeys, List.mem_cons, List.not_mem_nil, or_false, not_or] at h
  obtain ⟨h1, h2, h3, h4, h5⟩ := h
  rw [set, if_neg h1, if_neg h2, if_neg h3, if_neg h4, if_neg h5, JsObject.set, object]
  cases asIndex key <;> rfl

theorem setEntries_of_not_mem {es : List (Text × Json N)} (h : ∀ e ∈ es, e.1 ∉ recordKeys)
    {f : NodeFields N} : f.setEntries es = f.withObject (f.object.setAll es) := by
  induction es generalizing f with
  | nil => rfl
  | cons e es ih =>
      obtain ⟨he, hrest⟩ := List.forall_mem_cons.mp h
      rw [setEntries, List.foldl_cons, set_of_not_mem he]
      exact ih hrest

theorem setEntries_append {es es' : List (Text × Json N)} {f : NodeFields N} :
    f.setEntries (es ++ es') = (f.setEntries es).setEntries es' := List.foldl_append

end NodeFields

/-- No key of a record is an index. -/
theorem asIndex_of_mem_recordKeys : ∀ key ∈ recordKeys, asIndex key = none := by
  intro key hkey
  simp only [recordKeys, List.mem_cons, List.not_mem_nil, or_false] at hkey
  rcases hkey with rfl | rfl | rfl | rfl | rfl <;> exact asIndex_eq_none (by decide)

theorem indexText_ne {c : Char} {rest : Text} (hc : c.isDigit = false) {n : ℕ}
    (hn : n < 4294967295) : indexText n ≠ c :: rest := by
  intro h
  have hindex := asIndex_indexText hn
  rw [h, asIndex_eq_none hc] at hindex
  cases hindex

theorem not_mem_recordKeys_of_asIndex {key : Text} {n : ℕ} (h : asIndex key = some n) :
    key ∉ recordKeys := by
  intro hmem
  rw [asIndex_of_mem_recordKeys key hmem] at h
  cases h

/-! ## Values -/

section Values

variable [NumberText N]

/-- A value as a record keeps it. -/
def Kept (v : Json N) : Prop := v.Canonical ∧ shallowClone v = v

theorem kept_text (t : Text) : Kept (.text t : Json N) := ⟨.text t, rfl⟩

theorem kept_bool (b : Bool) : Kept (.bool b : Json N) := ⟨.bool b, rfl⟩

theorem kept_null : Kept (.null : Json N) := ⟨.null, rfl⟩

theorem kept_num {n : ℕ} (h : n < 2 ^ 53) : Kept (num n : Json N) :=
  ⟨.number (NumberText.finite_natCast n h), rfl⟩

theorem filterKeys_filterKeys {V : Type} (p : Text → Bool) (o : JsObject V) :
    (o.filterKeys p).filterKeys p = o.filterKeys p := by
  simp [JsObject.filterKeys]

theorem filterKeys_eq_self {V : Type} {p : Text → Bool} {o : JsObject V}
    (h : ∀ e ∈ o.entries, p e.1) : o.filterKeys p = o := by
  have hindices : o.indices.filter (fun e => p (indexText e.1)) = o.indices :=
    List.filter_eq_self.mpr fun e he => h _ (List.mem_append_left _ (List.mem_map_of_mem he))
  have hnames : o.names.filter (fun e => p e.1) = o.names :=
    List.filter_eq_self.mpr fun e he => h e (List.mem_append_right _ he)
  rw [JsObject.filterKeys, hindices, hnames]

theorem kept_shallowClone {v : Json N} (h : v.Canonical) : Kept (shallowClone v) := by
  cases h with
  | null => exact kept_null
  | bool b => exact kept_bool b
  | number hn => exact ⟨.number hn, rfl⟩
  | text t => exact kept_text t
  | array hitems => exact ⟨.array hitems, rfl⟩
  | object ho hentries =>
      refine ⟨.object (ho.filterKeys _) ?_, ?_⟩
      · intro e he
        exact hentries e (JsObject.mem_entries_filterKeys he).1
      · exact congrArg Json.object (filterKeys_filterKeys _ _)

theorem clone_of_canonical {v : Json N} (h : v.Canonical) : clone v = v := by
  rw [clone, Json.parse_stringify h]
  rfl

/-! ## Records -/

/-- The keys that the factory of a kind sets on its own when a record of that kind is loaded. -/
def defaultKeys (typeName : Text) : List Text :=
  if typeName = "Node2D".toList then
    ["x".toList, "y".toList, "rotacao".toList, "escala_x".toList, "escala_y".toList]
  else if typeName = "Sprite2D".toList then
    ["x".toList, "y".toList, "largura".toList, "altura".toList, "cor".toList]
  else if typeName = "Camera2D".toList then
    ["x".toList, "y".toList, "zoom".toList, "seguir".toList]
  else if typeName = "Control".toList then
    ["x".toList, "y".toList, "largura".toList, "altura".toList, "texto".toList]
  else if typeName = "Label".toList then
    ["x".toList, "y".toList, "texto".toList, "cor".toList]
  else if typeName = "TileMap".toList then
    ["x".toList, "y".toList, "largura_mapa".toList, "altura_mapa".toList, "tamanho_tile".toList,
     "tiles".toList, "paleta".toList]
  else []

/-- What holds of a record while the keys `pending` of its config have not been set yet. -/
structure Regular (typeName : Text) (pending : List Text) (f : NodeFields N) : Prop where
  tipo_recurso : f.tipo_recurso = .text "no".toList
  tipo_no : f.tipo_no = .text typeName
  id : "id".toList ∈ pending ∨ Kept f.id
  nome : "nome".toList ∈ pending ∨ Kept f.nome
  visivel : Kept f.visivel
  increasing : Increasing Prod.fst f.indices
  bounded : ∀ e ∈ f.indices, e.1 < 4294967295
  nodup : (f.outros.map Prod.fst).Nodup
  named : ∀ e ∈ f.outros, asIndex e.1 = none ∧ e.1 ∉ recordKeys ∧ e.1 ≠ "filhos".toList
  kept_indices : ∀ e ∈ f.indices, Kept e.2
  kept_outros : ∀ e ∈ f.outros, e.1 ∈ pending ∨ Kept e.2
  defaults : defaultKeys typeName <+: f.outros.map Prod.fst

/-- The keys that no config has, as they are a node's own. -/
def ownKeys : List Text :=
  ["filhos".toList, "tipo_no".toList, "tipo_recurso".toList, "__proto__".toList,
   "adicionar_filho".toList, "remover_filho".toList]

theorem resolve_pending {key : Text} {pending : List Text} {key' : Text} {v : Json N}
    (h : key' ∈ key :: pending ∨ Kept v) (hne : key' ≠ key) : key' ∈ pending ∨ Kept v :=
  h.imp_left fun hmem => (List.mem_cons.mp hmem).resolve_left hne

/-- A key of the config is set. -/
theorem Regular.set {typeName key : Text} {pending : List Text} {f : NodeFields N} {v : Json N}
    (h : Regular typeName (key :: pending) f) (hkey : key ∉ ownKeys) (hv : Kept v) :
    Regular typeName pending (f.set key v) := by
  have hfilhos : key ≠ "filhos".toList := fun heq => hkey (heq ▸ by decide)
  have hold : ∀ e ∈ f.outros, e.1 ≠ key → e.1 ∈ pending ∨ Kept e.2 := fun e he hne =>
    resolve_pending (h.kept_outros e he) hne
  have hrecord : ∀ key' ∈ recordKeys, ∀ e ∈ f.outros, e.1 ≠ key' := fun key' hmem e he heq =>
    (h.named e he).2.1 (heq ▸ hmem)
  -- a field of the record, an index or another name
  by_cases hmem : key ∈ recordKeys
  · have hcases := hmem
    simp only [recordKeys, List.mem_cons, List.not_mem_nil, or_false] at hcases
    have hothers : ∀ e ∈ f.outros, e.1 ∈ pending ∨ Kept e.2 := fun e he =>
      hold e he (hrecord key hmem e he)
    rcases hcases with rfl | rfl | rfl | rfl | rfl
    · exact absurd (by decide) hkey
    · exact absurd (by decide) hkey
    · exact { h with
        id := .inr hv
        nome := resolve_pending h.nome (by decide)
        kept_outros := hothers }
    · exact { h with
        id := resolve_pending h.id (by decide)
        nome := .inr hv
        kept_outros := hothers }
    · exact { h with
        id := resolve_pending h.id (by decide)
        nome := resolve_pending h.nome (by decide)
        visivel := hv
        kept_outros := hothers }
  · have hid : "id".toList ≠ key := fun heq => hmem (heq ▸ by decide)
    have hnome : "nome".toList ≠ key := fun heq => hmem (heq ▸ by decide)
    rw [NodeFields.set_of_not_mem hmem, JsObject.set, NodeFields.object]
    cases hindex : asIndex key with
    | some n =>
        have hne : ∀ e ∈ f.outros, e.1 ≠ key := by
          intro e he heq
          have hnone := (h.named e he).1
          rw [heq, hindex] at hnone
          cases hnone
        exact { h with
          id := resolve_pending h.id hid
          nome := resolve_pending h.nome hnome
          increasing := JsObject.increasing_setIndex h.increasing
          bounded := by
            intro e he
            rcases JsObject.mem_setIndex he with rfl | hold
            · exact (indexText_of_asIndex hindex).2
            · exact h.bounded e hold
          kept_indices := by
            intro e he
            rcases JsObject.mem_setIndex he with rfl | hold
            · exact hv
            · exact h.kept_indices e hold
          kept_outros := fun e he => hold e he (hne e he) }
    | none =>
        exact { h with
          id := resolve_pending h.id hid
          nome := resolve_pending h.nome hnome
          nodup := JsObject.nodup_setName h.nodup
          named := by
            intro e he
            rcases JsObject.mem_setName h.nodup he with rfl | ⟨hin, -⟩
            · exact ⟨hindex, hmem, hfilhos⟩
            · exact h.named e hin
          kept_outros := by
            intro e he
            rcases JsObject.mem_setName h.nodup he with rfl | ⟨hin, hne⟩
            · exact .inr hv
            · exact hold e hin hne
          defaults := by
            refine h.defaults.trans ?_
            show f.outros.map Prod.fst <+: (JsObject.setName key v f.outros).map Prod.fst
            rw [JsObject.map_fst_setName]
            split_ifs
            · exact List.prefix_rfl
            · exact List.prefix_append _ _ }

/-- All keys of the config are set. -/
theorem Regular.setEntries {typeName : Text} {es : List (Text × Json N)} {f : NodeFields N}
    (h : Regular typeName (es.map Prod.fst) f) (hes : ∀ e ∈ es, e.1 ∉ ownKeys ∧ Kept e.2) :
    Regular typeName [] (f.setEntries es) := by
  induction es generalizing f with
  | nil => exact h
  | cons e es ih =>
      obtain ⟨he, hrest⟩ := List.forall_mem_cons.mp hes
      exact ih (h.set he.1 he.2) hrest

/-- What a config may be. -/
structure IsConfig (config : JsObject (Json N)) : Prop where
  canonical : (Json.object config).Canonical
  keys : ∀ e ∈ config.entries, e.1 ∉ ownKeys

/-- The keys of the entries that are set. -/
def configKeys (config : JsObject (Json N)) : List Text := config.entries.map Prod.fst

theorem mem_entries_of_get? {V : Type} {o : JsObject V} {key : Text} {v : V}
    (hindex : asIndex key = none) (h : o.get? key = some v) : (key, v) ∈ o.entries := by
  rw [JsObject.get?, hindex] at h
  refine List.mem_append_right _ ?_
  generalize o.names = names at h
  induction names with
  | nil => cases h
  | cons e names ih =>
      obtain ⟨key', w⟩ := e
      by_cases hkey : key = key'
      · subst hkey
        rw [List.lookup_cons_self] at h
        rw [Option.some.inj h]
        exact List.mem_cons_self
      · simp only [JsObject.lookup_cons_of_ne hkey] at h
        exact List.mem_cons_of_mem _ (ih h)

theorem kept_tiles (config : JsObject (Json N)) :
    "tiles".toList ∈ configKeys config ∨
      Kept (match config.get? "tiles".toList with
        | some (.array tiles) => .array tiles
        | _ => .array [] : Json N) := by
  cases hget : config.get? "tiles".toList with
  | none => exact .inr ⟨.array (by simp), rfl⟩
  | some v => exact .inl (List.mem_map_of_mem (mem_entries_of_get? (by decide) hget))

theorem kept_defaultPalette : Kept (.object defaultPalette : Json N) := by
  have hbounded : ∀ e ∈ (defaultPalette : JsObject (Json N)).indices, e.1 < 4294967295 := by
    simp only [defaultPalette, List.forall_mem_cons]
    exact ⟨by decide, by decide, by decide, by simp⟩
  refine ⟨.object ⟨?_, hbounded, ?_, ?_⟩ ?_, ?_⟩
  · simp [Increasing, defaultPalette]
  · exact List.nodup_nil
  · intro e he
    cases he
  · simp [defaultPalette, JsObject.entries, Json.Canonical.text]
  · refine congrArg Json.object (filterKeys_eq_self ?_)
    intro e he
    obtain ⟨a, ha, rfl⟩ :=
      List.mem_map.mp ((List.mem_append.mp he).resolve_right List.not_mem_nil)
    exact decide_eq_true (indexText_ne (by decide) (hbounded a ha))

theorem kept_paleta (config : JsObject (Json N)) :
    "paleta".toList ∈ configKeys config ∨
      Kept (match config.get? "paleta".toList with
        | some (.object paleta) => shallowClone (.object paleta)
        | _ => .object defaultPalette : Json N) := by
  cases hget : config.get? "paleta".toList with
  | none => exact .inr kept_defaultPalette
  | some v => exact .inl (List.mem_map_of_mem (mem_entries_of_get? (by decide) hget))

variable [DecidableEq N]

/-- A field with a default is the default, or the config sets it. -/
theorem orElse_get? (config : JsObject (Json N)) {key : Text} (hindex : asIndex key = none)
    {w : Json N} (hw : Kept w) :
    key ∈ configKeys config ∨ Kept (orElse (config.get? key) w) := by
  cases hget : config.get? key with
  | none => exact .inr hw
  | some v => exact .inl (List.mem_map_of_mem (mem_entries_of_get? hindex hget))

/-- What the keys of the defaults of a factory have to be. -/
def AreDefaults (typeName : Text) (keys : List Text) : Prop :=
  keys.Nodup ∧
  (∀ key ∈ keys, asIndex key = none ∧ key ∉ recordKeys ∧ key ≠ "filhos".toList) ∧
  defaultKeys typeName <+: keys

instance (typeName : Text) (keys : List Text) : Decidable (AreDefaults typeName keys) :=
  inferInstanceAs (Decidable (_ ∧ _ ∧ _))

theorem createNodeRecord_eq (agora : N) (typeName : Text) (name : Option (Json N))
    (config : JsObject (Json N)) (defaults : List (Text × Json N)) :
    createNodeRecord agora typeName name config defaults =
      .mk (({ indices := []
              tipo_recurso := .text "no".toList
              tipo_no := .text typeName
              id := orElse (config.get? "id".toList) (.text (generatedId agora typeName))
              nome := orElse name (.text typeName)
              visivel := .bool (((config.get? "visivel".toList).map Json.isNotFalse).getD true)
              outros := defaults } : NodeFields N).setEntries
            (config.entries.map fun e => (e.1, shallowClone e.2))) [] := by
  rw [createNodeRecord, NodeFields.setEntries, List.foldl_map]

/-- Every record is regular. -/
theorem createNodeRecord_regular {agora : N} {typeName : Text} {name : Option (Json N)}
    {config : JsObject (Json N)} {defaults : List (Text × Json N)} (hconfig : IsConfig config)
    (hname : "nome".toList ∈ configKeys config ∨ Kept (orElse name (.text typeName)))
    (hkeys : AreDefaults typeName (defaults.map Prod.fst))
    (hkept : ∀ e ∈ defaults, e.1 ∈ configKeys config ∨ Kept e.2) :
    Regular typeName [] (createNodeRecord agora typeName name config defaults).campos := by
  rw [createNodeRecord_eq]
  have hmap : (config.entries.map fun e => (e.1, shallowClone e.2)).map Prod.fst =
      configKeys config := by
    rw [List.map_map]
    rfl
  refine Regular.setEntries ?_ ?_
  · rw [hmap]
    exact
      { tipo_recurso := rfl
        tipo_no := rfl
        id := orElse_get? config (asIndex_of_mem_recordKeys _ (by decide)) (kept_text _)
        nome := hname
        visivel := kept_bool _
        increasing := List.Pairwise.nil
        bounded := by simp
        nodup := hkeys.1
        named := fun e he => hkeys.2.1 e.1 (List.mem_map_of_mem he)
        kept_indices := by simp
        kept_outros := hkept
        defaults := hkeys.2.2 }
  · intro e he
    obtain ⟨a, ha, rfl⟩ := List.mem_map.mp he
    refine ⟨hconfig.keys a ha, kept_shallowClone ?_⟩
    cases hconfig.canonical with
    | object _ hentries => exact hentries a ha

/-! ## The factories -/

inductive Fabrica where
  | no
  | no2d
  | no3d
  | controle
  | label
  | camera2d
  | camera3d
  | sprite2d
  | tilemap
  deriving DecidableEq

/-- The node a factory makes. The cameras and the tile map have no argument for the name. -/
def fabricar (fabrica : Fabrica) (agora : N) (name : Option Text) (config : JsObject (Json N)) :
    Node N :=
  match fabrica with
  | .no => no agora (name.map .text) config
  | .no2d => no2d agora (name.map .text) config
  | .no3d => no3d agora (name.map .text) config
  | .controle => controle agora (name.map .text) config
  | .label => label agora (name.map .text) config
  | .camera2d => camera2d agora config
  | .camera3d => camera3d agora config
  | .sprite2d => sprite2d agora (name.map .text) config
  | .tilemap => tilemap agora config

theorem kept_orElse_text (name : Option Text) (t : Text) :
    Kept (orElse (name.map .text) (.text t) : Json N) := by
  cases name with
  | none => exact kept_text t
  | some name =>
      simp only [orElse, Option.map_some, Option.getD_some, Json.or]
      split_ifs
      · exact kept_text name
      · exact kept_text t

/-- Every factory makes regular records of its kind. -/
theorem fabricar_regular (fabrica : Fabrica) (agora : N) (name : Option Text)
    {config : JsObject (Json N)} (hconfig : IsConfig config) :
    ∃ typeName, Regular typeName [] (fabricar fabrica agora name config).campos := by
  have hname : ∀ typeName : Text, "nome".toList ∈ configKeys config ∨
      Kept (orElse (name.map .text) (.text typeName) : Json N) :=
    fun typeName => .inr (kept_orElse_text name typeName)
  -- A camera or a tile map has its name from the config.
  have hnome : ∀ typeName : Text, "nome".toList ∈ configKeys config ∨
      Kept (orElse (some (orElse (config.get? "nome".toList) (.text typeName))) (.text typeName) :
        Json N) := by
    intro typeName
    cases hget : config.get? "nome".toList with
    | none => exact .inr (kept_orElse_text (some typeName) typeName)
    | some v => exact .inl (List.mem_map_of_mem (mem_entries_of_get? (by decide) hget))
  have hfield : ∀ {key : Text} {w : Json N}, asIndex key = none → Kept w →
      key ∈ configKeys config ∨ Kept (orElse (config.get? key) w) :=
    fun hindex hw => orElse_get? config hindex hw
  have hnum : ∀ {key : Text} {n : ℕ}, n < 2 ^ 53 → key ∈ configKeys config ∨
      Kept (num n : Json N) :=
    fun h => .inr (kept_num h)
  cases fabrica with
  | no =>
      exact ⟨_, createNodeRecord_regular hconfig (hname _)
        (show AreDefaults "Node".toList [] by decide) (by simp)⟩
  | no2d =>
      refine ⟨_, createNodeRecord_regular hconfig (hname _) (show AreDefaults "Node2D".toList
        ["x".toList, "y".toList, "rotacao".toList, "escala_x".toList, "escala_y".toList]
          by decide) ?_⟩
      simp [kept_num]
  | no3d =>
      refine ⟨_, createNodeRecord_regular hconfig (hname _) (show AreDefaults "Node3D".toList
        ["x".toList, "y".toList, "z".toList, "rotacao_x".toList, "rotacao_y".toList,
         "rotacao_z".toList, "escala_x".toList, "escala_y".toList, "escala_z".toList]
          by decide) ?_⟩
      simp [kept_num]
  | controle =>
      refine ⟨_, createNodeRecord_regular hconfig (hname _) (show AreDefaults "Control".toList
        ["x".toList, "y".toList, "largura".toList, "altura".toList, "texto".toList]
          by decide) ?_⟩
      simp [kept_num, kept_text]
  | label =>
      refine ⟨_, createNodeRecord_regular hconfig (hname _) (show AreDefaults "Label".toList
        ["x".toList, "y".toList, "texto".toList, "cor".toList] by decide) ?_⟩
      simp only [List.forall_mem_cons]
      exact ⟨hnum (by decide), hnum (by decide), .inr (kept_orElse_text name _),
        .inr (kept_text _), by simp⟩
  | camera2d =>
      refine ⟨_, createNodeRecord_regular hconfig (hnome _) (show AreDefaults "Camera2D".toList
        ["x".toList, "y".toList, "zoom".toList, "seguir".toList] by decide) ?_⟩
      simp only [List.forall_mem_cons]
      exact ⟨hfield (by decide) (kept_num (by decide)), hfield (by decide) (kept_num (by decide)),
        hfield (by decide) (kept_num (by decide)), hfield (by decide) kept_null, by simp⟩
  | camera3d =>
      refine ⟨_, createNodeRecord_regular hconfig (hnome _) (show AreDefaults "Camera3D".toList
        ["x".toList, "y".toList, "z".toList, "fov".toList] by decide) ?_⟩
      simp only [List.forall_mem_cons]
      exact ⟨hfield (by decide) (kept_num (by decide)), hfield (by decide) (kept_num (by decide)),
        hfield (by decide) (kept_num (by decide)), hfield (by decide) (kept_num (by decide)),
        by simp⟩
  | sprite2d =>
      refine ⟨_, createNodeRecord_regular hconfig (hname _) (show AreDefaults "Sprite2D".toList
        ["x".toList, "y".toList, "largura".toList, "altura".toList, "cor".toList]
          by decide) ?_⟩
      simp [kept_num, kept_text]
  | tilemap =>
      refine ⟨_, createNodeRecord_regular hconfig (hnome _) (show AreDefaults "TileMap".toList
        ["x".toList, "y".toList, "largura_mapa".toList, "altura_mapa".toList,
         "tamanho_tile".toList, "tiles".toList, "paleta".toList] by decide) ?_⟩
      simp only [List.forall_mem_cons]
      exact ⟨hnum (by decide), hnum (by decide), hfield (by decide) (kept_num (by decide)),
        hfield (by decide) (kept_num (by decide)), hfield (by decide) (kept_num (by decide)),
        kept_tiles config, kept_paleta config, by simp⟩

/-! ## Loading a record -/

/-- The fields of a record as a config. -/
def configOf (f : NodeFields N) : JsObject (Json N) :=
  ⟨f.indices, [("tipo_recurso".toList, f.tipo_recurso), ("tipo_no".toList, f.tipo_no),
    ("id".toList, f.id), ("visivel".toList, f.visivel)] ++ f.outros⟩

/-- The record that is exported. -/
def rawOf (f : NodeFields N) (filhos : Json N) : JsObject (Json N) :=
  ⟨f.indices, [("tipo_recurso".toList, f.tipo_recurso), ("tipo_no".toList, f.tipo_no),
    ("id".toList, f.id), ("nome".toList, f.nome), ("visivel".toList, f.visivel),
    ("filhos".toList, filhos)] ++ f.outros⟩

omit [DecidableEq N] in
theorem Regular.kept_values {typeName : Text} {f : NodeFields N} (h : Regular typeName [] f) :
    Kept f.tipo_recurso ∧ Kept f.tipo_no ∧ Kept f.id ∧ Kept f.nome ∧ Kept f.visivel ∧
      ∀ e ∈ f.outros, Kept e.2 := by
  refine ⟨?_, ?_, ?_, ?_, h.visivel, ?_⟩
  · rw [h.tipo_recurso]
    exact kept_text _
  · rw [h.tipo_no]
    exact kept_text _
  · exact h.id.resolve_left List.not_mem_nil
  · exact h.nome.resolve_left List.not_mem_nil
  · exact fun e he => (h.kept_outros e he).resolve_left List.not_mem_nil

/-- A config that a regular record gives makes the record again. -/
theorem createNodeRecord_configOf {typeName : Text} {f : NodeFields N}
    (h : Regular typeName [] f) (agora : N) (typeName' : Text) (name : Option (Json N))
    {defaults : List (Text × Json N)} (hkeys : defaults.map Prod.fst <+: f.outros.map Prod.fst) :
    createNodeRecord agora typeName' name (configOf f) defaults =
      .mk { f with nome := orElse name (.text typeName') } [] := by
  obtain ⟨hrecurso, htipo, hid, -, hvisivel, houtros⟩ := h.kept_values
  have hmap : (configOf f).entries.map (fun e => (e.1, shallowClone e.2)) =
      (configOf f).entries := by
    refine (List.map_congr_left fun e he => ?_).trans (List.map_id _)
    have hkept : Kept e.2 := by
      rcases List.mem_append.mp he with hmem | hmem
      · obtain ⟨a, ha, rfl⟩ := List.mem_map.mp hmem
        exact h.kept_indices a ha
      · rcases List.mem_append.mp hmem with hfour | hmem
        · simp only [List.mem_cons, List.not_mem_nil, or_false] at hfour
          rcases hfour with rfl | rfl | rfl | rfl
          · exact hrecurso
          · exact htipo
          · exact hid
          · exact hvisivel
        · exact houtros e hmem
    rw [hkept.2]
    rfl
  have hindices : ∀ e ∈ f.indices.map (fun e => (indexText e.1, e.2)), e.1 ∉ recordKeys := by
    intro e he
    obtain ⟨a, ha, rfl⟩ := List.mem_map.mp he
    exact not_mem_recordKeys_of_asIndex (asIndex_indexText (h.bounded a ha))
  have hsetIndices : ∀ g : NodeFields N, g.indices = [] →
      g.withObject (g.object.setAll (f.indices.map fun e => (indexText e.1, e.2))) =
        { g with indices := f.indices } := by
    intro g hg
    rw [JsObject.setAll_indices h.increasing h.bounded (by simp [NodeFields.object, hg])]
    simp [NodeFields.withObject, NodeFields.object, hg]
  have hsetFour : ∀ g : NodeFields N,
      g.setEntries [("tipo_recurso".toList, f.tipo_recurso), ("tipo_no".toList, f.tipo_no),
        ("id".toList, f.id), ("visivel".toList, f.visivel)] =
          { g with
            tipo_recurso := f.tipo_recurso, tipo_no := f.tipo_no, id := f.id
            visivel := f.visivel } := fun _ => rfl
  have hsetOthers : ∀ g : NodeFields N, g.outros = defaults →
      g.withObject (g.object.setAll f.outros) = { g with outros := f.outros } := by
    intro g hg
    rw [JsObject.setAll_names fun e he => (h.named e he).1]
    simp only [NodeFields.withObject, NodeFields.object, hg,
      JsObject.foldl_setName h.nodup (h.nodup.sublist hkeys.sublist),
      JsObject.overrideNames_of_prefix h.nodup hkeys]
  rw [createNodeRecord_eq, hmap, JsObject.entries, configOf, NodeFields.setEntries_append,
    NodeFields.setEntries_append, NodeFields.setEntries_of_not_mem hindices,
    NodeFields.setEntries_of_not_mem fun e he => (h.named e he).2.1, hsetIndices _ rfl, hsetFour,
    hsetOthers _ rfl]

theorem orElse_of_truthy {v : Json N} (h : v.truthy) (w : Json N) : orElse (some v) w = v := by
  simp [orElse, Json.or, h]

omit [DecidableEq N] in
/-- The config that a regular record is loaded with. -/
theorem configOf_eq {typeName : Text} {f : NodeFields N} (h : Regular typeName [] f)
    (filhos : Json N) :
    let kept := (rawOf f filhos).filterKeys fun key => key ≠ "filhos".toList ∧ key ≠ "nome".toList
    (⟨kept.indices.map fun e => (e.1, clone e.2), kept.names.map fun e => (e.1, clone e.2)⟩ :
      JsObject (Json N)) = configOf f := by
  obtain ⟨hrecurso, htipo, hid, -, hvisivel, houtros⟩ := h.kept_values
  have hclone : ∀ {v : Json N}, Kept v → clone v = v := fun hv => clone_of_canonical hv.1
  have hindices : f.indices.filter (fun e =>
      decide (indexText e.1 ≠ "filhos".toList ∧ indexText e.1 ≠ "nome".toList)) = f.indices := by
    refine List.filter_eq_self.mpr fun e he => decide_eq_true ?_
    exact ⟨indexText_ne (by decide) (h.bounded e he), indexText_ne (by decide) (h.bounded e he)⟩
  have hothers : f.outros.filter (fun e =>
      decide (e.1 ≠ "filhos".toList ∧ e.1 ≠ "nome".toList)) = f.outros := by
    refine List.filter_eq_self.mpr fun e he => decide_eq_true ⟨(h.named e he).2.2, ?_⟩
    exact fun heq => (h.named e he).2.1 (heq ▸ by decide)
  have hmapIndices : f.indices.map (fun e => (e.1, clone e.2)) = f.indices := by
    refine (List.map_congr_left fun e he => ?_).trans (List.map_id _)
    rw [hclone (h.kept_indices e he)]
    rfl
  have hmapOthers : f.outros.map (fun e => (e.1, clone e.2)) = f.outros := by
    refine (List.map_congr_left fun e he => ?_).trans (List.map_id _)
    rw [hclone (houtros e he)]
    rfl
  have hnames : ((rawOf f filhos).names.filter fun e =>
      decide (e.1 ≠ "filhos".toList ∧ e.1 ≠ "nome".toList)) =
        [("tipo_recurso".toList, f.tipo_recurso), ("tipo_no".toList, f.tipo_no),
          ("id".toList, f.id), ("visivel".toList, f.visivel)] ++ f.outros := by
    rw [rawOf, List.filter_append, hothers]
    rfl
  simp only [JsObject.filterKeys, hnames, List.map_append, hmapOthers, List.map_cons,
    List.map_nil, hclone hrecurso, hclone htipo, hclone hid, hclone hvisivel]
  rw [rawOf, hindices, hmapIndices, configOf]

/-- A regular record with a name is loaded as it was exported. -/
theorem hydrateRecord_rawOf {typeName : Text} {f : NodeFields N} (h : Regular typeName [] f)
    (hnome : f.nome.truthy) (agora : N) (filhos : Json N) :
    hydrateRecord agora (rawOf f filhos) = .mk f [] := by
  have hget : (rawOf f filhos).get? "nome".toList = some f.nome := rfl
  have htipo : (rawOf f filhos).get? "tipo_no".toList = some (.text typeName) := by
    rw [← h.tipo_no]
    rfl
  have hnamed : ∀ t : Text, ({ f with nome := orElse (some f.nome) (.text t) } : NodeFields N) =
      f :=
    fun t => by rw [orElse_of_truthy hnome]
  have hdefaults := h.defaults
  simp only [hydrateRecord, configOf_eq h filhos, hget, htipo, asText, Option.some.injEq]
  have hmake : ∀ (typeName' : Text) {defaults : List (Text × Json N)},
      defaults.map Prod.fst <+: f.outros.map Prod.fst →
      createNodeRecord agora typeName' (some f.nome) (configOf f) defaults = .mk f [] := by
    intro typeName' defaults hkeys
    rw [createNodeRecord_configOf h agora _ _ hkeys, hnamed]
  have hrename : ∀ (typeName' : Text) (name : Option (Json N)) {defaults : List (Text × Json N)},
      defaults.map Prod.fst <+: f.outros.map Prod.fst →
      withNome (createNodeRecord agora typeName' name (configOf f) defaults) (some f.nome) =
        .mk f [] := by
    intro typeName' name defaults hkeys
    rw [createNodeRecord_configOf h agora _ _ hkeys]
    rfl
  split_ifs with h1 h2 h3 h4 h5 h6
  · subst h1
    exact hmake _ hdefaults
  · subst h2
    exact hmake _ hdefaults
  · subst h3
    exact hrename _ _ hdefaults
  · subst h4
    exact hmake _ hdefaults
  · subst h5
    exact hmake _ hdefaults
  · subst h6
    exact hrename _ _ hdefaults
  · exact hmake _ List.nil_prefix

/-! ## Loading a tree -/

/-- Every record of the tree is regular and has a name. -/
inductive Packable : Node N → Prop where
  | mk {typeName : Text} {f : NodeFields N} {filhos : List (Node N)} :
      Regular typeName [] f → f.nome.truthy → (∀ child ∈ filhos, Packable child) →
      Packable (.mk f filhos)

/-- A record that is loaded as it was exported. -/
def GoodRecord (f : NodeFields N) : Prop := (∃ typeName, Regular typeName [] f) ∧ f.nome.truthy

mutual
theorem packable_iff : ∀ {node : Node N}, Packable node ↔ ∀ f ∈ node.values, GoodRecord f
  | .mk f filhos => by
      rw [RoseTree.values_node, List.forall_mem_cons, ← packableAll_iff]
      constructor
      · rintro ⟨hregular, hnome, hfilhos⟩
        exact ⟨⟨⟨_, hregular⟩, hnome⟩, hfilhos⟩
      · rintro ⟨⟨⟨_, hregular⟩, hnome⟩, hfilhos⟩
        exact .mk hregular hnome hfilhos

theorem packableAll_iff : ∀ {nodes : List (Node N)},
    (∀ node ∈ nodes, Packable node) ↔ ∀ f ∈ RoseTree.valuesAll nodes, GoodRecord f
  | [] => by simp
  | node :: nodes => by
      rw [List.forall_mem_cons, RoseTree.valuesAll_cons, List.forall_mem_append, packable_iff,
        packableAll_iff]
end

theorem Packable.adicionar_filho {node child : Node N} (hnode : Packable node)
    (hchild : Packable child) : Packable (node.adicionar_filho child) := by
  rw [packable_iff] at hnode hchild ⊢
  rw [Node.adicionar_filho, RoseTree.values_push, List.forall_mem_append]
  exact ⟨hnode, hchild⟩

omit [DecidableEq N] in
theorem exportNode_eq {typeName : Text} {f : NodeFields N} (h : Regular typeName [] f)
    (filhos : List (Node N)) :
    exportNode (.mk f filhos) = .object (rawOf f (.array (exportNodes filhos))) := by
  obtain ⟨hrecurso, htipo, hid, hnome, hvisivel, houtros⟩ := h.kept_values
  have hindices : f.indices.map (fun e => (e.1, clone e.2)) = f.indices := by
    refine (List.map_congr_left fun e he => ?_).trans (List.map_id _)
    rw [clone_of_canonical (h.kept_indices e he).1]
    rfl
  have hothers : f.outros.map (fun e => (e.1, clone e.2)) = f.outros := by
    refine (List.map_congr_left fun e he => ?_).trans (List.map_id _)
    rw [clone_of_canonical (houtros e he).1]
    rfl
  rw [exportNode, hindices, hothers, clone_of_canonical hrecurso.1, clone_of_canonical htipo.1,
    clone_of_canonical hid.1, clone_of_canonical hnome.1, clone_of_canonical hvisivel.1, rawOf]

omit [NumberText N] [DecidableEq N] in
theorem foldl_adicionar_filho (f : NodeFields N) (filhos nodes : List (Node N)) :
    nodes.foldl Node.adicionar_filho (.mk f filhos) = .mk f (filhos ++ nodes) := by
  induction nodes generalizing filhos with
  | nil => rw [List.append_nil, List.foldl_nil]
  | cons node nodes ih =>
      rw [List.foldl_cons]
      exact (ih (filhos ++ [node])).trans (by rw [List.append_assoc, List.singleton_append])

theorem hydrateNode_object (relogio : List ℕ → N) (o : JsObject (Json N)) :
    hydrateNode relogio (.object o) =
      (hydrateFilhos relogio o.names).map fun filhos =>
        filhos.foldl Node.adicionar_filho (hydrateRecord (relogio []) o) := by
  cases o
  rw [hydrateNode]

theorem hydrateFilhos_rawOf (relogio : List ℕ → N) (f : NodeFields N) (raws : List (Json N)) :
    hydrateFilhos relogio (rawOf f (.array raws)).names = hydrateNodes relogio 0 raws := by
  simp only [rawOf, List.cons_append, List.nil_append]
  rw [hydrateFilhos, if_neg (by decide), hydrateFilhos, if_neg (by decide), hydrateFilhos,
    if_neg (by decide), hydrateFilhos, if_neg (by decide), hydrateFilhos, if_neg (by decide),
    hydrateFilhos, if_pos rfl, hydrateChildren]

mutual
theorem hydrateNode_exportNode :
    ∀ (node : Node N) (relogio : List ℕ → N), Packable node →
      hydrateNode relogio (exportNode node) = some node
  | .mk f filhos, relogio, .mk h hnome hfilhos => by
      rw [exportNode_eq h, hydrateNode_object, hydrateFilhos_rawOf,
        hydrateNodes_exportNodes filhos relogio 0 hfilhos, Option.map_some,
        hydrateRecord_rawOf h hnome, foldl_adicionar_filho, List.nil_append]

theorem hydrateNodes_exportNodes :
    ∀ (nodes : List (Node N)) (relogio : List ℕ → N) (i : ℕ),
      (∀ node ∈ nodes, Packable node) →
      hydrateNodes relogio i (exportNodes nodes) = some nodes
  | [], relogio, i, _ => rfl
  | node :: nodes, relogio, i, h => by
      obtain ⟨hnode, hrest⟩ := List.forall_mem_cons.mp h
      rw [exportNodes, hydrateNodes, hydrateNode_exportNode node _ hnode,
        hydrateNodes_exportNodes nodes relogio (i + 1) hrest]
      rfl
end

omit [DecidableEq N] in
theorem canonical_rawOf {typeName : Text} {f : NodeFields N} (h : Regular typeName [] f)
    {raws : List (Json N)} (hraws : ∀ v ∈ raws, v.Canonical) :
    (Json.object (rawOf f (.array raws))).Canonical := by
  obtain ⟨hrecurso, htipo, hid, hnome, hvisivel, houtros⟩ := h.kept_values
  refine .object ⟨h.increasing, h.bounded, ?_, ?_⟩ ?_
  · rw [rawOf, List.map_append, List.nodup_append]
    refine ⟨?_, h.nodup, ?_⟩
    · show (["tipo_recurso".toList, "tipo_no".toList, "id".toList, "nome".toList,
        "visivel".toList, "filhos".toList] : List Text).Nodup
      decide
    rintro a ha b hb rfl
    obtain ⟨e, he, rfl⟩ := List.mem_map.mp hb
    obtain ⟨-, hrecord, hfilhos⟩ := h.named e he
    simp only [recordKeys, List.mem_cons, List.not_mem_nil, or_false, not_or] at hrecord
    simp only [List.map_cons, List.map_nil, List.mem_cons, List.not_mem_nil, or_false] at ha
    rcases ha with heq | heq | heq | heq | heq | heq
    · exact hrecord.1 heq
    · exact hrecord.2.1 heq
    · exact hrecord.2.2.1 heq
    · exact hrecord.2.2.2.1 heq
    · exact hrecord.2.2.2.2 heq
    · exact hfilhos heq
  · intro e he
    rcases List.mem_append.mp he with hmem | hmem
    · simp only [List.mem_cons, List.not_mem_nil, or_false] at hmem
      rcases hmem with rfl | rfl | rfl | rfl | rfl | rfl <;> exact asIndex_eq_none (by decide)
    · exact (h.named e hmem).1
  · intro e he
    rcases List.mem_append.mp he with hmem | hmem
    · obtain ⟨a, ha, rfl⟩ := List.mem_map.mp hmem
      exact (h.kept_indices a ha).1
    · rcases List.mem_append.mp hmem with hsix | hmem
      · simp only [List.mem_cons, List.not_mem_nil, or_false] at hsix
        rcases hsix with rfl | rfl | rfl | rfl | rfl | rfl
        · exact hrecurso.1
        · exact htipo.1
        · exact hid.1
        · exact hnome.1
        · exact hvisivel.1
        · exact .array hraws
      · exact (houtros e hmem).1

mutual
/-- What is exported of a tree is a value that JSON can write. -/
theorem canonical_exportNode : ∀ node : Node N, Packable node → (exportNode node).Canonical
  | .mk f filhos, .mk h _ hfilhos => by
      rw [exportNode_eq h]
      exact canonical_rawOf h (canonical_exportNodes filhos hfilhos)

theorem canonical_exportNodes :
    ∀ nodes : List (Node N), (∀ node ∈ nodes, Packable node) →
      ∀ v ∈ exportNodes nodes, v.Canonical
  | [], _ => fun _ hv => absurd hv List.not_mem_nil
  | node :: nodes, h => by
      obtain ⟨hnode, hrest⟩ := List.forall_mem_cons.mp h
      intro v hv
      rcases List.mem_cons.mp hv with rfl | hmem
      · exact canonical_exportNode node hnode
      · exact canonical_exportNodes nodes hrest v hmem
end

/-! ## Scenes of the factories -/

/-- A tree that the factories and `adicionar_filho` make, with a name at every node. -/
inductive Built : Node N → Prop where
  | factory (fabrica : Fabrica) (agora : N) (name : Option Text) {config : JsObject (Json N)} :
      IsConfig config → (fabricar fabrica agora name config).nome.truthy →
      Built (fabricar fabrica agora name config)
  | child {node child : Node N} :
      Built node → Built child → Built (node.adicionar_filho child)

theorem fabricar_filhos (fabrica : Fabrica) (agora : N) (name : Option Text)
    (config : JsObject (Json N)) : (fabricar fabrica agora name config).filhos = [] := by
  cases fabrica <;> rfl

theorem Built.packable {node : Node N} (h : Built node) : Packable node := by
  induction h with
  | factory fabrica agora name hconfig hnome =>
      rename_i config
      obtain ⟨typeName, hregular⟩ := fabricar_regular fabrica agora name hconfig
      have hfilhos := fabricar_filhos fabrica agora name config
      cases hnode : fabricar fabrica agora name config with
      | node f filhos =>
          rw [hnode] at hregular hnome hfilhos
          subst hfilhos
          exact .mk hregular hnome fun _ h => absurd h List.not_mem_nil
  | child _ _ ihnode ihchild => exact ihnode.adicionar_filho ihchild

theorem Packable.load {node : Node N} (h : Packable node) (relogio : List ℕ → N) :
    loadPackedScene relogio (packScene node) = some node := by
  rw [loadPackedScene, packScene, Json.parse_stringify (canonical_exportNode node h),
    Option.bind_some, hydrateNode_exportNode node relogio h]

/-- A scene is loaded as it was packed, whatever the clock shows, and packs to the same text. -/
theorem loadPackedScene_packScene {s : Node N} (h : Built s) (relogio : List ℕ → N) :
    loadPackedScene relogio (packScene s) = some s ∧
      (loadPackedScene relogio (packScene s)).map packScene = some (packScene s) := by
  have hload := h.packable.load relogio
  exact ⟨hload, by rw [hload, Option.map_some]⟩

end Values

/-- A config with a name, an id, a flag and a nested field. -/
def sampleConfig : JsObject (Json ℕ) :=
  ⟨[(7, .null)], [("nome".toList, .text "Olho".toList), ("id".toList, .text "c".toList),
    ("visivel".toList, .bool false), ("extra".toList, .array [.number 1, .object JsObject.empty])]⟩

theorem isConfig_empty : IsConfig (JsObject.empty : JsObject (Json ℕ)) where
  canonical := .object ⟨.nil, by simp [JsObject.empty], by simp [JsObject.empty],
    by simp [JsObject.empty]⟩ (by simp [JsObject.empty, JsObject.entries])
  keys := by simp [JsObject.empty, JsObject.entries]

theorem isConfig_sampleConfig : IsConfig sampleConfig where
  canonical := by
    refine .object ⟨by simp [sampleConfig, Increasing], ?_, by decide, by decide⟩ ?_
    · simp only [sampleConfig, List.forall_mem_cons]
      exact ⟨by decide, by simp⟩
    · simp only [sampleConfig, JsObject.entries, List.map_cons, List.map_nil, List.cons_append,
        List.nil_append, List.forall_mem_cons]
      refine ⟨.null, .text _, .text _, .bool _, .array ?_, by simp⟩
      simp only [List.forall_mem_cons]
      exact ⟨.number rfl, isConfig_empty.canonical, by simp⟩
  keys := by decide

def sampleScene : Node ℕ :=
  (no2d 5 (some (.text "Main".toList)) JsObject.empty).adicionar_filho (camera3d 5 sampleConfig)

theorem loadPackedScene_packScene_sampleScene :
    loadPackedScene (fun _ => 9) (packScene sampleScene) = some sampleScene ∧
      (loadPackedScene (fun _ => 9) (packScene sampleScene)).map packScene =
        some (packScene sampleScene) :=
  loadPackedScene_packScene
    (.child (.factory .no2d 5 (some "Main".toList) isConfig_empty rfl)
      (.factory .camera3d 5 none isConfig_sampleConfig rfl)) fun _ => 9

end GatoCore.Gatod
