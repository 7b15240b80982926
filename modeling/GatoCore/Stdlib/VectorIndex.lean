import GatoCore.Lib.ByteBuffer
import GatoCore.Lib.Lists
import GatoCore.Stdlib.Numbers
import GatoCore.Stdlib.Paths
import Mathlib.Data.Char
import Mathlib.Data.List.Lex
import Mathlib.Data.List.Nodup
import Mathlib.Data.Rat.Floor
import Mathlib.Order.Defs.LinearOrder

/-!
# Index of texts

Source: `indice_vetorial` and `vizinho_proximo` of `stdlib/ptstdlib.js`, for an index of texts.

The rows of the matrix are the embeddings of the texts, one after another. Scores are only compared.
-/

namespace GatoCore.Stdlib

open GatoCore.Lib

/-! ## Numbers as bounds -/

/-- `list.slice(0, bound)`. -/
def sliceHead {α : Type} (list : List α) : JsNumber → List α
  | .nan => []
  | .infinity negative => if negative then [] else list
  | .finite q =>
      let bound := q.num.tdiv q.den
      if bound < 0 then list.take (list.length + bound).toNat else list.take bound.toNat

theorem sliceHead_prefix {α : Type} (list : List α) (bound : JsNumber) :
    sliceHead list bound <+: list := by
  cases bound with
  | nan => exact List.nil_prefix
  | infinity negative =>
      cases negative with
      | true => exact List.nil_prefix
      | false => exact List.prefix_rfl
  | finite q =>
      rw [sliceHead]
      split
      · exact List.take_prefix ..
      · exact List.take_prefix ..

theorem sliceHead_natCast {α : Type} (list : List α) (k : ℕ) :
    sliceHead list (.finite k) = list.take k := by
  rw [sliceHead]
  simp

theorem orElse_natCast {k : ℕ} (hk : 1 ≤ k) (fallback : ℕ) :
    (JsNumber.finite k).orElse fallback = .finite k := by
  have hne : (k : ℚ) ≠ 0 := Nat.cast_ne_zero.mpr (by omega)
  rw [JsNumber.orElse, if_neg]
  simpa [JsNumber.isFalsy] using hne

/-! ## Sorting -/

structure Neighbour where
  item : Text
  score : JsNumber
  deriving DecidableEq

/-- A function given to `sort` that orders the elements of a list. -/
structure ConsistentOn {α : Type} (compare : α → α → JsNumber) (list : List α) : Prop where
  signs : ∀ a ∈ list, ∀ b ∈ list, (compare a b).gt 0 = (compare b a).lt 0
  trans : ∀ a ∈ list, ∀ b ∈ list, ∀ c ∈ list, (compare a b).gt 0 = false →
    (compare b c).gt 0 = false → (compare a c).gt 0 = false

/-- What a search takes from the engine: `localeCompare`, and the `sort` of an array. How `sort`
arranges the elements when the function it is given does not order them is left open. -/
structure Collation where
  localeCompare : Text → Text → ℤ
  sort : (Neighbour → Neighbour → JsNumber) → List Neighbour → List Neighbour
  localeCompare_signs : ∀ s t, 0 < localeCompare s t ↔ localeCompare t s < 0
  localeCompare_trans : ∀ s t u, localeCompare s t ≤ 0 → localeCompare t u ≤ 0 →
    localeCompare s u ≤ 0
  sort_perm : ∀ compare list, (sort compare list).Perm list
  sort_pairwise : ∀ compare list, ConsistentOn compare list →
    (sort compare list).Pairwise fun a b => (compare a b).gt 0 = false

/-- The order of the code points. -/
def codePointCompare (s t : Text) : ℤ := if s = t then 0 else if s < t then -1 else 1

theorem codePointCompare_pos (s t : Text) :
    0 < codePointCompare s t ↔ codePointCompare t s < 0 := by
  rcases lt_trichotomy s t with h | rfl | h
  · simp [codePointCompare, h, h.ne, h.ne', h.not_gt]
  · simp [codePointCompare]
  · simp [codePointCompare, h, h.ne, h.ne', h.not_gt]

theorem codePointCompare_le (s t : Text) : codePointCompare s t ≤ 0 ↔ s ≤ t := by
  rcases lt_trichotomy s t with h | rfl | h
  · simp [codePointCompare, h, h.ne, h.le]
  · simp [codePointCompare]
  · simp [codePointCompare, h.ne', h.not_gt, h]

/-- The texts in the order of their code points, and a merge sort. -/
def codePointCollation : Collation where
  localeCompare := codePointCompare
  sort compare list := list.mergeSort fun a b => !(compare a b).gt 0
  localeCompare_signs := codePointCompare_pos
  localeCompare_trans s t u := by
    rw [codePointCompare_le, codePointCompare_le, codePointCompare_le]
    exact le_trans
  sort_perm _ list := List.mergeSort_perm list _
  sort_pairwise compare list h := by
    have hsorted : (list.mergeSort fun a b => !(compare a b).gt 0).Pairwise fun a b =>
        (!(compare a b).gt 0) = true := by
      refine pairwise_mergeSort_of_mem (by simpa using h.trans) ?_
      intro a ha b hb
      rw [h.signs a ha b hb]
      exact JsNumber.not_lt_or_not_gt (compare b a)
    simpa using hsorted

/-! ## Index -/

/-- The numbers of a text and of a query, and the score of a row. -/
structure Embeddings (Q F : Type) where
  dimensao : ℕ
  zero : F
  simpleEmbeddingCompact : Text → List F
  queryEmbedding : Q → List F
  cosineSimilarity : List F → List F → JsNumber
  length_embedding : ∀ text, (simpleEmbeddingCompact text).length = dimensao

structure IndexEntry where
  item : Text
  offset : ℕ
  deriving DecidableEq

structure VectorIndex (F : Type) where
  dimensao : ℕ
  entradas : List IndexEntry
  matriz : List F

section Index

variable {Q F : Type} (e : Embeddings Q F)

/-- `matrix.set`, for one item after the other; `none` when an embedding does not fit. -/
def setRows : List Text → ℕ → List F → Option (List F)
  | [], _, matriz => some matriz
  | item :: items, i, matriz => do
      let matriz ← writeAt matriz (i * e.dimensao) (e.simpleEmbeddingCompact item)
      setRows items (i + 1) matriz

def indiceVetorial (items : List Text) : Option (VectorIndex F) := do
  let matriz ← setRows e items 0 (List.replicate (items.length * e.dimensao) e.zero)
  return {
    dimensao := e.dimensao
    entradas := items.mapIdx fun i item => ⟨item, i * e.dimensao⟩
    matriz := matriz }

/-- The numbers `cosineSimilarityPackedRow` reads from an offset on. -/
def packedRow (matriz : List F) (offset dims : ℕ) : List F :=
  (List.range dims).map fun i => matriz.getD (offset + i) e.zero

/-- The function given to `sort`. -/
def compareNeighbours (c : Collation) (a b : Neighbour) : JsNumber :=
  if !b.score.strictEq a.score then b.score.sub a.score
  else .finite (c.localeCompare a.item b.item)

def vizinhoProximo (c : Collation) (index : VectorIndex F) (query : Q) (limit : JsNumber) :
    List Neighbour :=
  let queryEmbedding := e.queryEmbedding query
  let scored := index.entradas.mapIdx fun idx entry =>
    { item := entry.item
      score := e.cosineSimilarity (packedRow e index.matriz (idx * index.dimensao) index.dimensao)
        queryEmbedding : Neighbour }
  sliceHead (c.sort (compareNeighbours c) scored) (limit.orElse 1)

end Index

/-! ## The matrix -/

section Matrix

variable {Q F : Type} {e : Embeddings Q F}

/-- The rows written so far, followed by zeros for those to come. -/
theorem setRows_eq (items : List Text) : ∀ (before : List F) (i : ℕ),
    before.length = i * e.dimensao →
    setRows e items i (before ++ List.replicate (items.length * e.dimensao) e.zero) =
      some (before ++ items.flatMap e.simpleEmbeddingCompact) := by
  induction items with
  | nil =>
      intro before i hbefore
      simp [setRows]
  | cons item items ih =>
      intro before i hbefore
      have hrow := e.length_embedding item
      have hblank : (item :: items).length * e.dimensao =
          (e.simpleEmbeddingCompact item).length + items.length * e.dimensao := by
        rw [List.length_cons, hrow, Nat.succ_mul, Nat.add_comm]
      have hnext : (before ++ e.simpleEmbeddingCompact item).length = (i + 1) * e.dimensao := by
        rw [List.length_append, hbefore, hrow, Nat.succ_mul]
      rw [setRows, hblank, writeAt_blank hbefore.symm]
      show setRows e items (i + 1) _ = _
      rw [ih _ _ hnext, List.flatMap_cons, List.append_assoc]

theorem indiceVetorial_eq (items : List Text) :
    indiceVetorial e items = some {
      dimensao := e.dimensao
      entradas := items.mapIdx fun i item => ⟨item, i * e.dimensao⟩
      matriz := items.flatMap e.simpleEmbeddingCompact } := by
  have hrows := setRows_eq (e := e) items [] 0 (by simp)
  rw [List.nil_append, List.nil_append] at hrows
  rw [indiceVetorial, hrows]
  rfl

/-- The row at the offset of a text is its embedding. -/
theorem packedRow_flatMap {items : List Text} {i : ℕ} {item : Text} (h : items[i]? = some item) :
    packedRow e (items.flatMap e.simpleEmbeddingCompact) (i * e.dimensao) e.dimensao =
      e.simpleEmbeddingCompact item := by
  apply List.ext_getElem?
  intro j
  rw [packedRow, List.getElem?_map]
  rcases Nat.lt_or_ge j e.dimensao with hj | hj
  · have hlt : j < (e.simpleEmbeddingCompact item).length := by rwa [e.length_embedding]
    have hcell := getElem?_flatMap (fun t _ => e.length_embedding t) h hj
    rw [List.getElem?_range hj, Option.map_some, List.getD_eq_getElem?_getD, hcell,
      List.getElem?_eq_getElem hlt, Option.getD_some]
  · rw [List.getElem?_eq_none (by rwa [List.length_range]),
      List.getElem?_eq_none (by rwa [e.length_embedding]), Option.map_none]

end Matrix

/-! ## The ranking -/

section Ranking

variable {Q F : Type} {e : Embeddings Q F} {c : Collation}

/-- A text with its score for a query. -/
def scoredText (e : Embeddings Q F) (query : Q) (item : Text) : Neighbour :=
  ⟨item, e.cosineSimilarity (e.simpleEmbeddingCompact item) (e.queryEmbedding query)⟩

/-- The answer of an index of texts: the texts with their scores, sorted, as many as asked for. -/
theorem vizinhoProximo_indiceVetorial {items : List Text} {index : VectorIndex F}
    (hindex : indiceVetorial e items = some index) (query : Q) (limit : JsNumber) :
    vizinhoProximo e c index query limit =
      sliceHead (c.sort (compareNeighbours c) (items.map (scoredText e query)))
        (limit.orElse 1) := by
  rw [indiceVetorial_eq] at hindex
  cases hindex
  have hscored : (items.mapIdx fun idx item => (⟨item, e.cosineSimilarity
      (packedRow e (items.flatMap e.simpleEmbeddingCompact) (idx * e.dimensao) e.dimensao)
        (e.queryEmbedding query)⟩ : Neighbour)) = items.map (scoredText e query) := by
    apply List.ext_getElem?
    intro i
    rw [List.getElem?_mapIdx, List.getElem?_map]
    cases h : items[i]? with
    | none => rfl
    | some item =>
        rw [Option.map_some, Option.map_some, packedRow_flatMap h]
        rfl
  rw [vizinhoProximo, List.mapIdx_mapIdx]
  exact congrArg (fun scored => sliceHead (c.sort _ scored) _) hscored

/-- A score that is a finite number. -/
def Scored (n : Neighbour) (q : ℚ) : Prop := n.score = .finite q

/-- No text comes before one of a higher score, nor before one of the same score that
`localeCompare` puts first. -/
def Ranked (c : Collation) (found : List Neighbour) : Prop :=
  found.Pairwise fun a b => ∃ p q, Scored a p ∧ Scored b q ∧
    (q < p ∨ p = q ∧ c.localeCompare a.item b.item ≤ 0)

theorem compareNeighbours_of_ne {a b : Neighbour} {p q : ℚ} (ha : Scored a p) (hb : Scored b q)
    (h : p ≠ q) : compareNeighbours c a b = .finite (q - p) := by
  rw [compareNeighbours, ha, hb, if_pos]
  · rfl
  · simp [JsNumber.strictEq, h.symm]

theorem compareNeighbours_of_eq {a b : Neighbour} {p : ℚ} (ha : Scored a p) (hb : Scored b p) :
    compareNeighbours c a b = .finite (c.localeCompare a.item b.item) := by
  rw [compareNeighbours, ha, hb, if_neg]
  simp [JsNumber.strictEq]

/-- On finite scores the function given to `sort` puts the higher score first, and the texts of one
score in the order of `localeCompare`. -/
theorem compareNeighbours_gt {a b : Neighbour} {p q : ℚ} (ha : Scored a p) (hb : Scored b q) :
    (compareNeighbours c a b).gt 0 = false ↔
      q < p ∨ p = q ∧ c.localeCompare a.item b.item ≤ 0 := by
  rcases eq_or_ne p q with rfl | hne
  · rw [compareNeighbours_of_eq ha hb]
    simp [JsNumber.gt]
  · rw [compareNeighbours_of_ne ha hb hne]
    rw [JsNumber.gt, decide_eq_false_iff_not, sub_pos, not_lt, or_iff_left fun h => hne h.1]
    exact (lt_iff_le_and_ne.trans (and_iff_left hne.symm)).symm

theorem compareNeighbours_signs {a b : Neighbour} {p q : ℚ} (ha : Scored a p) (hb : Scored b q) :
    (compareNeighbours c a b).gt 0 = (compareNeighbours c b a).lt 0 := by
  rcases eq_or_ne p q with rfl | hne
  · rw [compareNeighbours_of_eq ha hb, compareNeighbours_of_eq hb ha]
    simp [JsNumber.gt, JsNumber.lt, c.localeCompare_signs]
  · rw [compareNeighbours_of_ne ha hb hne, compareNeighbours_of_ne hb ha hne.symm]
    simp [JsNumber.gt, JsNumber.lt]

theorem compareNeighbours_consistent {list : List Neighbour}
    (hscores : ∀ n ∈ list, ∃ q, Scored n q) : ConsistentOn (compareNeighbours c) list := by
  constructor
  · intro a ha b hb
    obtain ⟨p, hp⟩ := hscores a ha
    obtain ⟨q, hq⟩ := hscores b hb
    exact compareNeighbours_signs hp hq
  · intro a ha b hb d hd hab hbd
    obtain ⟨p, hp⟩ := hscores a ha
    obtain ⟨q, hq⟩ := hscores b hb
    obtain ⟨r, hr⟩ := hscores d hd
    rw [compareNeighbours_gt hp hq] at hab
    rw [compareNeighbours_gt hq hr] at hbd
    rw [compareNeighbours_gt hp hr]
    rcases hab with hab | ⟨hab, habText⟩
    · rcases hbd with hbd | ⟨hbd, -⟩
      · exact Or.inl (hbd.trans hab)
      · exact Or.inl (hbd ▸ hab)
    · rcases hbd with hbd | ⟨hbd, hbdText⟩
      · exact Or.inl (hab ▸ hbd)
      · exact Or.inr ⟨hab.trans hbd, c.localeCompare_trans _ _ _ habText hbdText⟩

theorem ranked_sort {list : List Neighbour} (hscores : ∀ n ∈ list, ∃ q, Scored n q) :
    Ranked c (c.sort (compareNeighbours c) list) := by
  have hperm := c.sort_perm (compareNeighbours c) list
  have hsorted := c.sort_pairwise (compareNeighbours c) list (compareNeighbours_consistent hscores)
  refine List.Pairwise.imp_of_mem ?_ hsorted
  intro a b ha hb hab
  obtain ⟨p, hp⟩ := hscores a (hperm.mem_iff.mp ha)
  obtain ⟨q, hq⟩ := hscores b (hperm.mem_iff.mp hb)
  exact ⟨p, q, hp, hq, (compareNeighbours_gt hp hq).mp hab⟩

/-- The answer of an index whose texts have finite scores is what comes first when all its texts
are ranked. -/
theorem vizinhoProximo_ranks {items : List Text} {index : VectorIndex F} {query : Q}
    (hindex : indiceVetorial e items = some index)
    (hscores : ∀ item ∈ items, ∃ q, Scored (scoredText e query item) q) (limit : JsNumber) :
    (∃ rest,
      (vizinhoProximo e c index query limit ++ rest).Perm (items.map (scoredText e query)) ∧
      Ranked c (vizinhoProximo e c index query limit ++ rest)) ∧
      ∀ k : ℕ, 1 ≤ k → limit = .finite k →
        (vizinhoProximo e c index query limit).length = min k items.length := by
  rw [vizinhoProximo_indiceVetorial hindex]
  have hperm := c.sort_perm (compareNeighbours c) (items.map (scoredText e query))
  constructor
  · obtain ⟨rest, hrest⟩ := sliceHead_prefix
      (c.sort (compareNeighbours c) (items.map (scoredText e query))) (limit.orElse 1)
    refine ⟨rest, ?_, ?_⟩
    · rw [hrest]
      exact hperm
    · rw [hrest]
      apply ranked_sort
      intro n hn
      obtain ⟨item, hitem, rfl⟩ := List.mem_map.mp hn
      exact hscores item hitem
  · rintro k hk rfl
    rw [orElse_natCast hk, sliceHead_natCast, List.length_take, hperm.length_eq, List.length_map]

end Ranking

end GatoCore.Stdlib
