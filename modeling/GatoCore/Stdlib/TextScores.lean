import GatoCore.Stdlib.Doubles
import GatoCore.Stdlib.VectorIndex

/-!
# Scores of texts

Source: `simpleEmbedding`, `normalizeVector`, `simpleEmbeddingCompact`, `typedArrayFrom` and
`cosineSimilarityPackedRow` of `stdlib/ptstdlib.js`.

The score of a row for a list of numbers can be NaN; that of a text for a text is a finite number.
-/

namespace GatoCore.Stdlib

open GatoCore.Lib

section Embedding

variable (r : Rounding)

def vectorLength (vec : List JsNumber) : JsNumber :=
  (vec.foldl (fun acc item => JsNumber.add r acc (item.mul r item)) (.finite 0)).sqrt r

def normalizeVector (vec : List JsNumber) : List JsNumber :=
  let magnitude := vectorLength r vec
  if magnitude.isFalsy then vec.map fun _ => .finite 0 else vec.map fun item => item.div r magnitude

/-- The body of the loop over the code points of a text, at index `i`. -/
def addCodePoint (dims : ℕ) (out : List JsNumber) (code i : ℕ) : List JsNumber :=
  let pos := i % dims
  let first := (JsNumber.finite ((code % 97 + 1 : ℕ))).div r (.finite 100)
  let second := (JsNumber.finite ((code % 37 + 1 : ℕ))).div r (.finite 200)
  (out.modify pos fun v => v.add r first).modify ((pos * 7 + 3) % dims) fun v => v.add r second

/-- `out` after the loop over the rest of a text. -/
def addCodePoints (dims : ℕ) : List JsNumber → Text → ℕ → List JsNumber
  | out, [], _ => out
  | out, c :: text, i => addCodePoints dims (addCodePoint r dims out c.toNat i) text (i + 1)

def simpleEmbedding (text : Text) (dims : ℕ) : List JsNumber :=
  normalizeVector r (addCodePoints r dims (List.replicate dims (.finite 0)) text 0)

def simpleEmbeddingCompact (text : Text) (dims : ℕ) : List JsNumber :=
  (simpleEmbedding r text dims).map fun n => n.toSingle r

/-- What is searched for: a text, or the numbers of an array. -/
inductive Query where
  | text (t : Text)
  | numbers (values : List JsNumber)

/-- `queryEmbedding` of `vizinho_proximo`. -/
def Query.embedding (dims : ℕ) : Query → List JsNumber
  | .text t => simpleEmbeddingCompact r t dims
  | .numbers values => values.map fun n => (n.orElse 0).toSingle r

/-- `dot`, `aa` and `bb`. -/
structure Products where
  dot : JsNumber
  aa : JsNumber
  bb : JsNumber

/-- The body of the loop of `cosineSimilarityPackedRow`, for one index. -/
def Products.step (row query : List JsNumber) (s : Products) (i : ℕ) : Products :=
  let av := (row.getD i (.finite 0)).orElse 0
  let bv := (query.getD i (.finite 0)).orElse 0
  { dot := s.dot.add r (av.mul r bv)
    aa := s.aa.add r (av.mul r av)
    bb := s.bb.add r (bv.mul r bv) }

def products (row query : List JsNumber) : Products :=
  (List.range row.length).foldl (Products.step r row query) ⟨.finite 0, .finite 0, .finite 0⟩

/-- The answer for the numbers of a row. -/
def cosineSimilarityPackedRow (row query : List JsNumber) : JsNumber :=
  let s := products r row query
  if s.aa.isFalsy || s.bb.isFalsy then .finite 0
  else s.dot.div r ((s.aa.sqrt r).mul r (s.bb.sqrt r))

end Embedding

/-! ## Bounds of a text -/

section Bounds

variable {r : Rounding}

theorem isFalsy_of_graded {a b : ℚ} {x : JsNumber} (h : Graded a b x) :
    x.isFalsy = true ↔ x = .finite 0 := by
  rw [JsNumber.isFalsy, Bool.or_eq_true, decide_eq_true_eq, decide_eq_true_eq]
  refine or_iff_right ?_
  rintro rfl
  rcases h with h | ⟨q, h, -⟩
  · cases h
  · cases h

/-- A modified element keeps a property all elements have. -/
theorem forall_mem_modify {P Q : JsNumber → Prop} {list : List JsNumber} {i : ℕ}
    {f : JsNumber → JsNumber} (hweak : ∀ x, P x → Q x) (hf : ∀ x, P x → Q (f x))
    (h : ∀ x ∈ list, P x) : ∀ x ∈ list.modify i f, Q x := by
  intro x hx
  obtain ⟨k, hk, rfl⟩ := List.getElem_of_mem hx
  rw [List.getElem_modify]
  have hmem := h _ (List.getElem_mem (by simpa using hk))
  split
  · exact hf _ hmem
  · exact hweak _ hmem

/-- The number a code point adds, of either kind. -/
theorem graded_codePoint {n k : ℕ} (hn : n + 1 ≤ k) (hk : k ≤ 200) (hpos : 0 < k) :
    Graded (2 ^ (-8 : ℤ)) 1 ((JsNumber.finite ((n + 1 : ℕ))).div r (.finite k)) := by
  have hk₀ : (0 : ℚ) < k := by exact_mod_cast hpos
  rw [JsNumber.div, if_neg hk₀.ne']
  have hone : DoubleFormat 1 := by
    simpa using doubleFormat_pow (e := 0) (by norm_num) (by norm_num)
  refine .inr (r.double_rounds _ _ _ (doubleFormat_pow (by norm_num) (by norm_num)) hone ?_ ?_)
  · rw [le_div_iff₀ hk₀]
    have hk' : (k : ℚ) ≤ 200 := by exact_mod_cast hk
    have hn' : (1 : ℚ) ≤ (n + 1 : ℕ) := by exact_mod_cast Nat.le_add_left 1 n
    norm_num
    push_cast at hn'
    linarith
  · show ((n + 1 : ℕ) : ℚ) / k ≤ 1
    rw [div_le_one hk₀]
    exact_mod_cast hn

theorem graded_addCodePoint {dims k : ℕ} {out : List JsNumber} (code i : ℕ) (hk : k ≤ 2 ^ 31)
    (h : ∀ x ∈ out, Graded (2 ^ (-8 : ℤ)) k x) :
    ∀ x ∈ addCodePoint r dims out code i, Graded (2 ^ (-8 : ℤ)) ((k + 1 : ℕ) + 1 : ℕ) x := by
  have hadd : ∀ {m : ℕ} {v x : JsNumber}, m + 1 ≤ 2 ^ 53 → Graded (2 ^ (-8 : ℤ)) 1 v →
      Graded (2 ^ (-8 : ℤ)) m x → Graded (2 ^ (-8 : ℤ)) (m + 1 : ℕ) (x.add r v) := by
    intro m v x hm hv hx
    have hformat : DoubleFormat ((m + 1 : ℕ) * 2 ^ (0 : ℤ)) :=
      doubleFormat_mul hm (by norm_num) (by norm_num)
    have hsum := hx.add (r := r) hv (by positivity) (by positivity) zero_le_one
      (doubleFormat_pow (by norm_num) (by norm_num)) (by simpa using hformat)
    simpa using hsum
  have hweak : ∀ (m : ℕ) (x : JsNumber), Graded (2 ^ (-8 : ℤ)) m x →
      Graded (2 ^ (-8 : ℤ)) (m + 1 : ℕ) x := fun m x hx =>
    hx.mono (le_refl _) (by exact_mod_cast Nat.le_succ m)
  have hfirst := graded_codePoint (r := r) (n := code % 97) (k := 100) (by omega) (by norm_num)
    (by norm_num)
  have hsecond := graded_codePoint (r := r) (n := code % 37) (k := 200) (by omega) (by norm_num)
    (by norm_num)
  have hout := forall_mem_modify (i := i % dims) (hweak k)
    (fun x hx => hadd (by omega) hfirst hx) h
  exact forall_mem_modify (hweak (k + 1)) (fun x hx => hadd (by omega) hsecond hx) hout

theorem graded_addCodePoints {dims : ℕ} (text : Text) : ∀ (out : List JsNumber) (i k : ℕ),
    k + 2 * text.length ≤ 2 ^ 31 → (∀ x ∈ out, Graded (2 ^ (-8 : ℤ)) k x) →
    ∀ x ∈ addCodePoints r dims out text i, Graded (2 ^ (-8 : ℤ)) (2 ^ (31 : ℤ)) x := by
  induction text with
  | nil =>
      intro out i k hk h x hx
      have hk' : k ≤ 2 ^ 31 := by simpa using hk
      refine (h x hx).mono (le_refl _) ?_
      exact_mod_cast hk'
  | cons c text ih =>
      intro out i k hk h
      rw [List.length_cons] at hk
      exact ih _ _ (k + 1 + 1) (by omega) (graded_addCodePoint c.toNat i (by omega) h)

theorem length_addCodePoints {dims : ℕ} (text : Text) : ∀ (out : List JsNumber) (i : ℕ),
    (addCodePoints r dims out text i).length = out.length := by
  induction text with
  | nil => exact fun _ _ => rfl
  | cons c text ih =>
      intro out i
      rw [addCodePoints, ih, addCodePoint, List.length_modify, List.length_modify]

/-- The sum of the squares of some numbers. -/
theorem graded_squares (vec : List JsNumber) : ∀ (acc : JsNumber) (n : ℕ),
    n + vec.length ≤ 2 ^ 32 → Graded (2 ^ (-16 : ℤ)) (n * 2 ^ (62 : ℤ)) acc →
    (∀ x ∈ vec, Graded (2 ^ (-8 : ℤ)) (2 ^ (31 : ℤ)) x) →
    Graded (2 ^ (-16 : ℤ)) (2 ^ (94 : ℤ))
      (vec.foldl (fun acc item => JsNumber.add r acc (item.mul r item)) acc) := by
  induction vec with
  | nil =>
      intro acc n hn hacc _
      exact hacc.le_pow (k := 32) hn
  | cons x vec ih =>
      intro acc n hn hacc hvec
      rw [List.length_cons] at hn
      have hx := hvec x List.mem_cons_self
      have hsquare := hx.mul_pow (r := r) hx (by norm_num) (by norm_num) (by norm_num)
      refine ih _ (n + 1) (by omega) ?_ fun y hy => hvec y (List.mem_cons_of_mem _ hy)
      exact hacc.add_term hsquare (by omega) (by norm_num) (by norm_num) (by norm_num)

theorem graded_vectorLength {vec : List JsNumber} (hlength : vec.length ≤ 2 ^ 32)
    (h : ∀ x ∈ vec, Graded (2 ^ (-8 : ℤ)) (2 ^ (31 : ℤ)) x) :
    Graded (2 ^ (-8 : ℤ)) (2 ^ (47 : ℤ)) (vectorLength r vec) := by
  have hsquares := graded_squares (r := r) vec (.finite 0) 0 (by omega) (.inl rfl) h
  exact hsquares.sqrt_pow rfl rfl (by norm_num) (by norm_num) (by norm_num)

theorem graded_normalizeVector {vec : List JsNumber} (hlength : vec.length ≤ 2 ^ 32)
    (h : ∀ x ∈ vec, Graded (2 ^ (-8 : ℤ)) (2 ^ (31 : ℤ)) x) :
    ∀ x ∈ normalizeVector r vec, Graded (2 ^ (-55 : ℤ)) (2 ^ (39 : ℤ)) x := by
  intro x hx
  have hmagnitude := graded_vectorLength (r := r) hlength h
  rw [normalizeVector] at hx
  split at hx
  · obtain ⟨item, -, rfl⟩ := List.mem_map.mp hx
    exact .inl rfl
  · rename_i hnot
    rw [isFalsy_of_graded hmagnitude] at hnot
    obtain ⟨item, hitem, rfl⟩ := List.mem_map.mp hx
    exact (h item hitem).div_pow (hmagnitude.between hnot) (by norm_num) (by norm_num) (by norm_num)

/-- What is stored of a text. -/
theorem graded_embedding {dims : ℕ} {text : Text} (hdims : dims < 2 ^ 32)
    (htext : text.length ≤ 2 ^ 30) :
    ∀ x ∈ simpleEmbeddingCompact r text dims, Graded (2 ^ (-55 : ℤ)) (2 ^ (39 : ℤ)) x := by
  intro x hx
  obtain ⟨y, hy, rfl⟩ := List.mem_map.mp hx
  refine Graded.single_pow (graded_normalizeVector ?_ ?_ y hy) (by norm_num) (by norm_num)
    (by norm_num)
  · rw [length_addCodePoints, List.length_replicate]
    exact hdims.le
  · refine graded_addCodePoints text _ 0 0 (by omega) ?_
    intro z hz
    exact .inl (List.eq_of_mem_replicate hz)

/-! ## Scores -/

/-- An element of an embedding, as the loop reads it. -/
theorem graded_getD {list : List JsNumber} {a b : ℚ} (h : ∀ x ∈ list, Graded a b x) (i : ℕ) :
    Graded a b ((list.getD i (.finite 0)).orElse 0) := by
  have hread : Graded a b (list.getD i (.finite 0)) := by
    rw [List.getD_eq_getElem?_getD]
    cases hi : list[i]? with
    | none => exact .inl rfl
    | some x => exact h x (List.mem_of_getElem? hi)
  rw [JsNumber.orElse]
  split
  · exact .inl (by norm_num)
  · exact hread

/-- The sums after as many steps. -/
structure Products.Bounded (n : ℕ) (s : Products) : Prop where
  dot : Graded (2 ^ (-110 : ℤ)) (n * 2 ^ (78 : ℤ)) s.dot
  aa : Graded (2 ^ (-110 : ℤ)) (n * 2 ^ (78 : ℤ)) s.aa
  bb : Graded (2 ^ (-110 : ℤ)) (n * 2 ^ (78 : ℤ)) s.bb

section Rows

variable {row query : List JsNumber} (hrow : ∀ x ∈ row, Graded (2 ^ (-55 : ℤ)) (2 ^ (39 : ℤ)) x)
  (hquery : ∀ x ∈ query, Graded (2 ^ (-55 : ℤ)) (2 ^ (39 : ℤ)) x)

include hrow hquery

theorem Products.Bounded.step {n : ℕ} {s : Products} (h : s.Bounded n)
    (hn : n + 1 ≤ 2 ^ 32) (i : ℕ) :
    (Products.step r row query s i).Bounded (n + 1) := by
  have hav := graded_getD hrow i
  have hbv := graded_getD hquery i
  have hterm : ∀ {x y z : JsNumber}, Graded (2 ^ (-110 : ℤ)) (n * 2 ^ (78 : ℤ)) z →
      Graded (2 ^ (-55 : ℤ)) (2 ^ (39 : ℤ)) x →
      Graded (2 ^ (-55 : ℤ)) (2 ^ (39 : ℤ)) y →
      Graded (2 ^ (-110 : ℤ)) ((n + 1 : ℕ) * 2 ^ (78 : ℤ)) (z.add r (x.mul r y)) := by
    intro x y z hz hx hy
    exact hz.add_term (hx.mul_pow hy (by norm_num) (by norm_num) (by norm_num)) (by omega)
      (by norm_num) (by norm_num) (by norm_num)
  exact ⟨hterm h.dot hav hbv, hterm h.aa hav hav, hterm h.bb hbv hbv⟩

theorem graded_products : ∀ n ≤ 2 ^ 32,
    ((List.range n).foldl (Products.step r row query)
      ⟨.finite 0, .finite 0, .finite 0⟩).Bounded n := by
  intro n
  induction n with
  | zero => exact fun _ => ⟨.inl rfl, .inl rfl, .inl rfl⟩
  | succ n ih =>
      intro hn
      rw [List.range_succ, List.foldl_append]
      exact (ih (by omega)).step hrow hquery hn n

/-- The score of two embeddings of texts is a finite number. -/
theorem cosineSimilarityPackedRow_finite (hlength : row.length ≤ 2 ^ 32) :
    ∃ q, 0 ≤ q ∧ cosineSimilarityPackedRow r row query = .finite q := by
  have hs : (products r row query).Bounded row.length :=
    graded_products hrow hquery row.length hlength
  have haa := hs.aa.le_pow (k := 32) hlength
  have hbb := hs.bb.le_pow (k := 32) hlength
  rw [cosineSimilarityPackedRow]
  split
  · exact ⟨0, le_refl _, rfl⟩
  · rename_i hnot
    rw [Bool.or_eq_true, isFalsy_of_graded haa, isFalsy_of_graded hbb, not_or] at hnot
    have hrootA := (haa.between hnot.1).sqrt_pow (r := r) (e := -55) (f := 55) rfl rfl
      (by norm_num) (by norm_num) (by norm_num)
    have hrootB := (hbb.between hnot.2).sqrt_pow (r := r) (e := -55) (f := 55) rfl rfl
      (by norm_num) (by norm_num) (by norm_num)
    have hroots := hrootA.mul_pow (r := r) hrootB (by norm_num) (by norm_num) (by norm_num)
    have hquotient := (hs.dot.le_pow (k := 32) hlength).div_pow (r := r) hroots (by norm_num)
      (by norm_num) (by norm_num)
    rcases hquotient with hzero | ⟨q, hq, hlow, -⟩
    · exact ⟨0, le_refl _, hzero⟩
    · exact ⟨q, le_trans (by positivity) hlow, hq⟩

end Rows

theorem length_simpleEmbeddingCompact (text : Text) (dims : ℕ) :
    (simpleEmbeddingCompact r text dims).length = dims := by
  rw [simpleEmbeddingCompact, List.length_map, simpleEmbedding, normalizeVector]
  split <;> rw [List.length_map, length_addCodePoints, List.length_replicate]

end Bounds

/-! ## Search -/

/-- `dims` of `indice_vetorial`. -/
def vectorDims (size : JsNumber) : ℕ := if intOr size 16 = 0 then 16 else intOr size 16

def textEmbeddings (r : Rounding) (dims : ℕ) : Embeddings Query JsNumber where
  dimensao := dims
  zero := .finite 0
  simpleEmbeddingCompact text := simpleEmbeddingCompact r text dims
  queryEmbedding := Query.embedding r dims
  cosineSimilarity row query := (cosineSimilarityPackedRow r row query).toFixed6 r
  length_embedding text := length_simpleEmbeddingCompact text dims

/-- The score of a text for a text. -/
theorem scoredText_text {r : Rounding} {dims : ℕ} {item query : Text} (hdims : dims < 2 ^ 32)
    (hitem : item.length < 2 ^ 30) (hquery : query.length < 2 ^ 30) :
    ∃ q, Scored (scoredText (textEmbeddings r dims) (.text query) item) q := by
  have hlength : (simpleEmbeddingCompact r item dims).length ≤ 2 ^ 32 := by
    rw [length_simpleEmbeddingCompact]
    exact hdims.le
  obtain ⟨q, hq, hscore⟩ := cosineSimilarityPackedRow_finite (r := r)
    (graded_embedding hdims hitem.le) (graded_embedding hdims hquery.le) hlength
  obtain ⟨s, hs⟩ := toFixed6_finite (r := r) hq
  refine ⟨s, ?_⟩
  show (cosineSimilarityPackedRow r (simpleEmbeddingCompact r item dims)
    (simpleEmbeddingCompact r query dims)).toFixed6 r = .finite s
  rw [hscore, hs]

/-- The answer for a text is what comes first when all texts of the index are ranked. -/
theorem vizinhoProximo_best (r : Rounding) (c : Collation) {size : JsNumber}
    (hsize : vectorDims size < 2 ^ 32) {items : List Text}
    (hitems : ∀ item ∈ items, item.length < 2 ^ 30) {index : VectorIndex JsNumber}
    (hindex : indiceVetorial (textEmbeddings r (vectorDims size)) items = some index)
    {query : Text} (hquery : query.length < 2 ^ 30) (limit : JsNumber) :
    let e := textEmbeddings r (vectorDims size)
    let found := vizinhoProximo e c index (.text query) limit
    (∃ rest, (found ++ rest).Perm (items.map (scoredText e (.text query))) ∧
      Ranked c (found ++ rest)) ∧
      ∀ k : ℕ, 1 ≤ k → limit = .finite k → found.length = min k items.length :=
  vizinhoProximo_ranks hindex
    (fun item hitem => scoredText_text hsize (hitems item hitem) hquery) limit

/-! ### Two texts -/

/-- The doubles are multiples of `1 / grain`. -/
def grain : ℚ := 2 ^ 1074

theorem grain_pos : 0 < grain := pow_pos two_pos _

theorem doubleFormat_div {a : ℚ} (h : DoubleFormat a) : ∃ n : ℕ, a = n / grain := by
  obtain ⟨m, e, -, hlow, -, rfl⟩ := h
  obtain ⟨k, hk⟩ := Int.eq_ofNat_of_zero_le (a := e + 1074) (by omega)
  refine ⟨m * 2 ^ k, ?_⟩
  obtain rfl : e = k - (1074 : ℕ) := by omega
  rw [zpow_sub₀ two_ne_zero, zpow_natCast, zpow_natCast]
  push_cast
  exact (mul_div_assoc _ _ _).symm

/-- The rounding of numbers that are doubles already. -/
def exactRounding : Rounding where
  double := .finite
  single := .finite
  sqrt q := .finite (Nat.sqrt ⌊q * (grain * grain)⌋₊ / grain)
  double_rounds q _ _ _ _ ha hb := ⟨q, rfl, ha, hb⟩
  single_rounds q _ _ _ _ ha hb := ⟨q, rfl, ha, hb⟩
  sqrt_rounds q a b ha hb haq hbq := by
    obtain ⟨m, rfl⟩ := doubleFormat_div ha
    obtain ⟨n, rfl⟩ := doubleFormat_div hb
    have hpos := mul_pos grain_pos grain_pos
    beta_reduce at haq hbq
    rw [div_mul_div_comm, div_le_iff₀ hpos] at haq
    rw [div_mul_div_comm, le_div_iff₀ hpos] at hbq
    have hlow : m * m ≤ ⌊q * (grain * grain)⌋₊ := Nat.le_floor (by exact_mod_cast haq)
    have hhigh : ⌊q * (grain * grain)⌋₊ ≤ n * n := by
      have hfloor := Nat.floor_le_floor hbq
      rwa [← Nat.cast_mul, Nat.floor_natCast] at hfloor
    have hsqrt := Nat.sqrt_le_sqrt hhigh
    rw [Nat.sqrt_eq] at hsqrt
    refine ⟨_, rfl, ?_, ?_⟩
    · exact div_le_div_of_nonneg_right (by exact_mod_cast Nat.le_sqrt.mpr hlow) grain_pos.le
    · exact div_le_div_of_nonneg_right (by exact_mod_cast hsqrt) grain_pos.le

/-- The empty text and one whose embedding is computed without rounding. -/
theorem vizinhoProximo_best_letter :
    ∃ (index : VectorIndex JsNumber) (rest : List Neighbour),
      indiceVetorial (textEmbeddings exactRounding (vectorDims (.finite 1))) [[], ['ฝ']] =
        some index ∧
      Ranked codePointCollation (vizinhoProximo (textEmbeddings exactRounding 1) codePointCollation
        index (.text ['ฝ']) (.finite (1 : ℕ)) ++ rest) ∧
      (vizinhoProximo (textEmbeddings exactRounding 1) codePointCollation index (.text ['ฝ'])
        (.finite (1 : ℕ))).length = 1 := by
  have hdims : vectorDims (.finite 1) = 1 := by decide
  have hsize : vectorDims (.finite 1) < 2 ^ 32 := by rw [hdims]; decide
  have hitems : ∀ item ∈ [[], ['ฝ']], item.length < 2 ^ 30 := by decide
  have hquery : ['ฝ'].length < 2 ^ 30 := by decide
  obtain ⟨⟨rest, -, hranked⟩, hlength⟩ := vizinhoProximo_best exactRounding codePointCollation
    hsize hitems (indiceVetorial_eq _) hquery (.finite (1 : ℕ))
  rw [hdims] at hranked hlength
  exact ⟨_, rest, by rw [hdims]; exact indiceVetorial_eq _, hranked, hlength 1 (by decide) rfl⟩

end GatoCore.Stdlib
