import GatoCore.Stdlib.VectorIndex

/-!
# Memory search

Source: `loadMemoryIndex` and `memorySearch` of `samples/nullclaw.ptjs`, on top of
`indice_vetorial` and `vizinho_proximo` of `stdlib/ptstdlib.js`.

`memorySearch` looks for the text of a hit among the entries of the index, which are objects made
by the index itself. None of them is a text, and the filter takes the hits without an entry away.
-/

namespace GatoCore.NullClaw

open GatoCore.Lib GatoCore.Stdlib

/-- An entry of `memory.json`. -/
structure MemoryEntry (M : Type) where
  id : Text
  categoria : Text
  texto : Text
  criado_em_ms : ℤ
  entryMeta : M
  deriving DecidableEq

structure MemoryHit (M : Type) where
  score : JsNumber
  item : MemoryEntry M
  deriving DecidableEq

/-! ## Lookup by identity -/

/-- What `===` compares here: a text, or an object, which is equal to itself only. -/
inductive Operand where
  | text (t : Text)
  | object (identity : ℕ)
  deriving DecidableEq

/-- `values.indexOf(needle)`. -/
def indexOf (values : List Operand) (needle : Operand) : ℤ :=
  match values.findIdx? (· == needle) with
  | some i => i
  | none => -1

/-- `list[i]`; `none` is `undefined`. -/
def elementAt {α : Type} (list : List α) (i : ℤ) : Option α :=
  if i < 0 then none else list[i.toNat]?

/-- The entries of an index, one object each. -/
def entradaObjects (entradas : List IndexEntry) : List Operand :=
  (List.range entradas.length).map .object

section Search

variable {M Q F : Type} (e : Embeddings Q F) (c : Collation)

structure MemoryStore (M F : Type) where
  entries : List (MemoryEntry M)
  index : VectorIndex F

def loadMemoryIndex (entries : List (MemoryEntry M)) : Option (MemoryStore M F) := do
  let index ← indiceVetorial e (entries.map MemoryEntry.texto)
  return ⟨entries, index⟩

/-- The answer on a memory; `none` when the index cannot be built. -/
def memorySearch (entries : List (MemoryEntry M)) (query : Q) (limit : JsNumber) :
    Option (List (MemoryHit M)) := do
  let store ← loadMemoryIndex e entries
  if store.entries = [] then
    return []
  let hits := vizinhoProximo e c store.index query (limit.orElse 3)
  return hits.filterMap fun hit =>
    let idx := indexOf (entradaObjects store.index.entradas) (.text hit.item)
    (elementAt store.entries idx).map fun item => ⟨hit.score, item⟩

/-! ## What a search is for -/

/-- The hits are the texts `vizinho_proximo` ranks for the query, with their scores and in its
order, each with the entry of that text; there are as many as asked for, or as many as there are
entries. -/
structure Recalls (entries : List (MemoryEntry M)) (query : Q) (k : ℕ)
    (hits : List (MemoryHit M)) : Prop where
  length_eq : hits.length = min k entries.length
  stored : ∀ hit ∈ hits, hit.item ∈ entries
  once : (hits.map MemoryHit.item).Nodup
  ranked : ∃ index, indiceVetorial e (entries.map MemoryEntry.texto) = some index ∧
    hits.map (fun hit => (⟨hit.item.texto, hit.score⟩ : Neighbour)) =
      vizinhoProximo e c index query (.finite k)

end Search

section Facts

variable {M Q F : Type} {e : Embeddings Q F} {c : Collation}

/-- The hits ranked as they should be: the entries in the order of their texts. -/
theorem exists_recalls {entries : List (MemoryEntry M)}
    (htexts : (entries.map MemoryEntry.texto).Nodup) (query : Q) {k : ℕ} (hk : 1 ≤ k) :
    ∃ hits, Recalls e c entries query k hits := by
  let hitOf : MemoryEntry M → MemoryHit M := fun entry =>
    ⟨(scoredText e query entry.texto).score, entry⟩
  let textOf : MemoryEntry M → Neighbour := fun entry => scoredText e query entry.texto
  -- the sorted texts, with the entries they are the texts of
  have hsort : Relation.Comp (· = List.map textOf ·) List.Perm
      (c.sort (compareNeighbours c) (entries.map textOf)) entries := by
    rw [List.eq_map_comp_perm]
    exact c.sort_perm _ _
  obtain ⟨sorted, hsorted, hperm⟩ := hsort
  refine ⟨(sorted.take k).map hitOf, ?_, ?_, ?_, _, indiceVetorial_eq _, ?_⟩
  · rw [List.length_map, List.length_take, hperm.length_eq]
  · intro hit hhit
    obtain ⟨entry, hentry, rfl⟩ := List.mem_map.mp hhit
    exact hperm.mem_iff.mp (List.mem_of_mem_take hentry)
  · rw [List.map_map]
    show ((sorted.take k).map fun entry => entry).Nodup
    rw [List.map_id']
    exact (hperm.nodup_iff.mpr (List.Nodup.of_map _ htexts)).sublist (List.take_sublist ..)
  · have htextOf : (entries.map MemoryEntry.texto).map (scoredText e query) =
        entries.map textOf := List.map_map
    rw [vizinhoProximo_indiceVetorial (indiceVetorial_eq _), orElse_natCast hk,
      sliceHead_natCast, htextOf, hsorted, ← List.map_take, List.map_map]
    rfl

/-- No object is a text. -/
theorem indexOf_entradaObjects (entradas : List IndexEntry) (t : Text) :
    indexOf (entradaObjects entradas) (.text t) = -1 := by
  have hnone : (entradaObjects entradas).findIdx? (· == .text t) = none := by
    rw [List.findIdx?_eq_none_iff]
    intro value hvalue
    obtain ⟨identity, -, rfl⟩ := List.mem_map.mp hvalue
    rfl
  rw [indexOf, hnone]

/-- Every hit loses its entry, and the filter leaves nothing. -/
theorem memorySearch_eq (entries : List (MemoryEntry M)) (query : Q) (limit : JsNumber) :
    memorySearch e c entries query limit = some [] := by
  rw [memorySearch, loadMemoryIndex, indiceVetorial_eq]
  show (if entries = [] then some [] else some _) = _
  split
  · rfl
  · congr 1
    rw [List.filterMap_eq_nil_iff]
    intro hit _
    show (elementAt entries (indexOf _ _)).map _ = none
    rw [indexOf_entradaObjects]
    rfl

/-- A search of a memory that is not empty never answers what it is for. -/
theorem memorySearch_never_recalls {entries : List (MemoryEntry M)} (hentries : entries ≠ [])
    (query : Q) {k : ℕ} (hk : 1 ≤ k) :
    ¬∃ hits, memorySearch e c entries query (.finite k) = some hits ∧
      Recalls e c entries query k hits := by
  rintro ⟨hits, hsearch, hrecalls⟩
  rw [memorySearch_eq] at hsearch
  cases hsearch
  have hlength := hrecalls.length_eq
  have hpos := List.length_pos_iff.mpr hentries
  rw [List.length_nil] at hlength
  omega

end Facts

/-! ### One memory -/

/-- Scores that tell an equal embedding from another one. -/
def plainEmbeddings : Embeddings Text ℕ where
  dimensao := 16
  zero := 0
  simpleEmbeddingCompact text := (text.map Char.toNat).takeD 16 0
  queryEmbedding text := (text.map Char.toNat).takeD 16 0
  cosineSimilarity row query := if row = query then .finite 1 else .finite 0
  length_embedding _ := List.takeD_length ..

def oneMemory : List (MemoryEntry Unit) :=
  [⟨"mem-0-1".toList, "nota".toList, "gato".toList, 0, ()⟩]

/-- The one memory is not found under its own text. -/
theorem oneMemory_not_recalled :
    ¬∃ hits, memorySearch plainEmbeddings codePointCollation oneMemory "gato".toList (.finite 1) =
        some hits ∧ Recalls plainEmbeddings codePointCollation oneMemory "gato".toList 1 hits := by
  rintro ⟨hits, hsearch, hrecalls⟩
  rw [memorySearch_eq] at hsearch
  cases hsearch
  have hlength := hrecalls.length_eq
  simp [oneMemory] at hlength

theorem oneMemory_never_recalled :
    ¬∃ hits, memorySearch plainEmbeddings codePointCollation oneMemory "gato curioso".toList
          (.finite (3 : ℕ)) = some hits ∧
        Recalls plainEmbeddings codePointCollation oneMemory "gato curioso".toList 3 hits :=
  memorySearch_never_recalls (by decide) _ (by decide)

end GatoCore.NullClaw
