import GatoCore.Lib.Binary64
import GatoCore.Lib.ByteBuffer
import GatoCore.Lib.Machine
import GatoCore.Stdlib.IndexRange

/-!
# The arena

Source: `arena` of `specialFactories` in `stdlib/ptstdlib.js`.

An arena hands out its bytes from the front to the back. Lengths and alignments may be larger than
what a double counts exactly, so sums and differences are rounded; an arena itself has fewer than
`2 ^ 31` bytes.
-/

namespace GatoCore.Stdlib

open GatoCore.Lib
open GatoCore.Lib.Binary64 (nearest nearest_le_iff nearest_of_lt)

/-! ## The operations -/

structure Arena where
  bytes : List UInt8
  cursor : ℕ
deriving DecidableEq

/-- `none` is the exception of `new Uint8Array`. -/
def arenaFactory (size : JsNumber) : Option Arena :=
  if validBufferLength (intOr size 0) then some ⟨List.replicate (intOr size 0) 0, 0⟩ else none

/-- `intOr(alignment, 1) || 1`. -/
def alignmentOf (alignment : JsNumber) : ℕ :=
  if intOr alignment 1 = 0 then 1 else intOr alignment 1

def align (cursor : ℕ) (alignment : JsNumber) : ℕ :=
  let a := alignmentOf alignment
  let mod := cursor % a
  if mod = 0 then cursor else nearest (cursor + nearest (a - mod))

inductive ArenaOp where
  | alocar (length alignment : JsNumber)
  | resetar
  | limpar (fillValue : JsNumber)
  | escrever (offset : JsNumber) (src : List UInt8)

/-- What an operation returns; `threw` is the exception of `bytes.set`. -/
inductive ArenaAnswer where
  | alocado (offset tamanho : ℕ)
  | escrito (n : ℕ)
  | number (n : ℕ)
  | erro (codigo mensagem : String) (info : List (String × ℕ))
  | threw
deriving DecidableEq

namespace Arena

def capacidade (s : Arena) : ℕ := s.bytes.length

def usado (s : Arena) : ℕ := s.cursor

def resetar (s : Arena) : Arena := { s with cursor := 0 }

def limpar (s : Arena) (fillValue : JsNumber) : Arena :=
  { bytes := s.bytes.map fun _ => UInt8.ofNat fillValue.orZero.toInt32.toNat, cursor := 0 }

def alocar (s : Arena) (length alignment : JsNumber) : Arena × ArenaAnswer :=
  let len := intOr length 0
  let start := align s.cursor alignment
  if nearest (start + len) > s.bytes.length then
    (s, .erro "arena_sem_espaco" "arena sem espaco livre suficiente"
      [("solicitado", len), ("cursor", s.cursor), ("capacidade", s.bytes.length)])
  else ({ s with cursor := nearest (start + len) }, .alocado start len)

def escrever (s : Arena) (offset : JsNumber) (src : List UInt8) : Arena × ArenaAnswer :=
  let start := intOr offset 0
  if nearest (start + src.length) > s.bytes.length then
    (s, .erro "arena_oob" "escrita excede capacidade da arena"
      [("offset", start), ("tamanho", src.length)])
  else
    match writeAt s.bytes start src with
    | none => (s, .threw)
    | some bytes => ({ s with bytes := bytes }, .escrito src.length)

end Arena

def arenaStep : Machine Arena ArenaOp ArenaAnswer
  | s, .alocar length alignment => s.alocar length alignment
  | s, .resetar => (s.resetar, .number 0)
  | s, .limpar fillValue => (s.limpar fillValue, .number 0)
  | s, .escrever offset src => s.escrever offset src

/-! ## The regions given out -/

/-- A region given out, with the alignment it was asked for. -/
structure Grant where
  offset : ℕ
  tamanho : ℕ
  alinhamento : ℕ
deriving DecidableEq

/-- The regions given out since the last reset. -/
def grantsAfter (grants : List Grant) : ArenaOp × ArenaAnswer → List Grant
  | (.alocar _ alignment, .alocado offset tamanho) =>
      grants ++ [⟨offset, tamanho, alignmentOf alignment⟩]
  | (.resetar, _) | (.limpar _, _) => []
  | _ => grants

def grantsOf (history : List (ArenaOp × ArenaAnswer)) : List Grant := history.foldl grantsAfter []

/-! ## Alignment -/

/-- The first multiple of `a` from `cursor` on. -/
def alignUp (cursor a : ℕ) : ℕ := if cursor % a = 0 then cursor else cursor + (a - cursor % a)

theorem alignmentOf_pos (alignment : JsNumber) : 0 < alignmentOf alignment := by
  unfold alignmentOf
  split
  · exact Nat.one_pos
  · omega

theorem alignUp_eq {cursor a : ℕ} (ha : 0 < a) (h : cursor % a ≠ 0) :
    alignUp cursor a = a * (cursor / a + 1) := by
  have hmod := Nat.mod_lt cursor ha
  rw [alignUp, if_neg h, Nat.mul_add, Nat.mul_one]
  conv_lhs => rw [← Nat.div_add_mod cursor a]
  rw [Nat.mul_add_mod, Nat.mod_mod]
  omega

theorem dvd_alignUp {cursor a : ℕ} (ha : 0 < a) : a ∣ alignUp cursor a := by
  by_cases h : cursor % a = 0
  · rw [alignUp, if_pos h]
    exact Nat.dvd_of_mod_eq_zero h
  · rw [alignUp_eq ha h]
    exact Nat.dvd_mul_right _ _

theorem le_alignUp (cursor a : ℕ) : cursor ≤ alignUp cursor a := by
  unfold alignUp
  split
  · exact Nat.le_refl _
  · exact Nat.le_add_right _ _

theorem alignUp_le {cursor a start : ℕ} (ha : 0 < a) (hle : cursor ≤ start) (hdvd : a ∣ start) :
    alignUp cursor a ≤ start := by
  by_cases h : cursor % a = 0
  · rwa [alignUp, if_pos h]
  · rw [alignUp_eq ha h]
    obtain ⟨k, rfl⟩ := hdvd
    apply Nat.mul_le_mul_left
    rw [Nat.succ_le_iff, Nat.div_lt_iff_lt_mul ha, Nat.mul_comm]
    refine lt_of_le_of_ne hle fun heq => h ?_
    rw [heq, Nat.mul_mod_right]

/-- Rounding moves no start that matters. -/
theorem align_eq_alignUp {cursor c : ℕ} (hc : c + 1 < 2 ^ 53) {alignment : JsNumber}
    (h : align cursor alignment ≤ c ∨ alignUp cursor (alignmentOf alignment) ≤ c) :
    align cursor alignment = alignUp cursor (alignmentOf alignment) := by
  unfold align alignUp at h ⊢
  dsimp only at h ⊢
  split
  · rfl
  · rename_i hmod
    rw [if_neg hmod, if_neg hmod, nearest_le_iff hc] at h
    have hgap : alignmentOf alignment - cursor % alignmentOf alignment ≤ c := by
      rcases h with h | h
      · exact (nearest_le_iff hc).mp (by omega)
      · omega
    have hround := nearest_of_lt (n := alignmentOf alignment - cursor % alignmentOf alignment)
      (by omega)
    rw [hround] at h ⊢
    exact nearest_of_lt (by omega)

/-- The test of `alocar` is exact. -/
theorem fits_iff {cursor c len : ℕ} (hc : c + 1 < 2 ^ 53) (alignment : JsNumber) :
    nearest (align cursor alignment + len) ≤ c ↔
      alignUp cursor (alignmentOf alignment) + len ≤ c := by
  rw [nearest_le_iff hc]
  constructor
  · intro h
    rwa [← align_eq_alignUp hc (.inl (by omega))]
  · intro h
    rwa [align_eq_alignUp hc (.inr (by omega))]

/-! ## One allocation -/

/-- Both outcomes of `alocar`. -/
theorem alocar_cases {s : Arena} (hcap : s.capacidade < 2 ^ 31) (length alignment : JsNumber) :
    (alignUp s.cursor (alignmentOf alignment) + intOr length 0 ≤ s.capacidade ∧
      s.alocar length alignment =
        ({ s with cursor := alignUp s.cursor (alignmentOf alignment) + intOr length 0 },
          .alocado (alignUp s.cursor (alignmentOf alignment)) (intOr length 0))) ∨
    (¬ alignUp s.cursor (alignmentOf alignment) + intOr length 0 ≤ s.capacidade ∧
      s.alocar length alignment =
        (s, .erro "arena_sem_espaco" "arena sem espaco livre suficiente"
          [("solicitado", intOr length 0), ("cursor", s.cursor),
            ("capacidade", s.bytes.length)])) := by
  have hc : s.bytes.length + 1 < 2 ^ 53 := by
    have hlt : s.bytes.length < 2 ^ 31 := hcap
    omega
  have hfits : nearest (align s.cursor alignment + intOr length 0) ≤ s.bytes.length ↔
      alignUp s.cursor (alignmentOf alignment) + intOr length 0 ≤ s.bytes.length :=
    fits_iff hc alignment
  by_cases h : alignUp s.cursor (alignmentOf alignment) + intOr length 0 ≤ s.bytes.length
  · refine .inl ⟨h, ?_⟩
    have hstart : align s.cursor alignment = alignUp s.cursor (alignmentOf alignment) :=
      align_eq_alignUp hc (.inr (by omega))
    have htest := hfits.mpr h
    rw [Arena.alocar, if_neg (Nat.not_lt.mpr htest), hstart, nearest_of_lt (by omega)]
  · refine .inr ⟨h, ?_⟩
    have htest := mt hfits.mp h
    rw [Arena.alocar, if_pos (Nat.lt_of_not_le htest)]

/-- A region fits exactly when its first place does. -/
theorem exists_fit_iff {cursor a len cap : ℕ} (ha : 0 < a) :
    (∃ start, cursor ≤ start ∧ a ∣ start ∧ start + len ≤ cap) ↔ alignUp cursor a + len ≤ cap := by
  constructor
  · rintro ⟨start, hle, hdvd, hfit⟩
    have := alignUp_le ha hle hdvd
    omega
  · intro h
    exact ⟨_, le_alignUp cursor a, dvd_alignUp ha, h⟩

/-! ## Runs -/

/-- The regions lie one after the other below the cursor. -/
structure Stacked (n : ℕ) (state : Arena × List Grant) : Prop where
  capacidade : state.1.capacidade = n
  cursor_le : state.1.cursor ≤ n
  below : ∀ r ∈ state.2, r.offset + r.tamanho ≤ state.1.cursor
  aligned : ∀ r ∈ state.2, r.alinhamento ∣ r.offset
  ordered : state.2.Pairwise fun r r' => r.offset + r.tamanho ≤ r'.offset

theorem stacked_empty {s : Arena} {n : ℕ} (hcap : s.capacidade = n) (hcursor : s.cursor = 0) :
    Stacked n (s, []) :=
  ⟨hcap, by rw [hcursor]; exact Nat.zero_le n, nofun, nofun, .nil⟩

theorem Stacked.alocar {n : ℕ} (hn : n < 2 ^ 31) {s : Arena} {grants : List Grant}
    (h : Stacked n (s, grants)) (length alignment : JsNumber) :
    Stacked n ((s.alocar length alignment).1,
      grantsAfter grants (.alocar length alignment, (s.alocar length alignment).2)) := by
  have hcap : s.capacidade = n := h.capacidade
  rcases alocar_cases (s := s) (by omega) length alignment with ⟨hfit, heq⟩ | ⟨-, heq⟩
  · rw [heq]
    have hstart := le_alignUp s.cursor (alignmentOf alignment)
    refine ⟨h.capacidade, by rw [← hcap]; exact hfit, ?_, ?_, ?_⟩
    · rintro r hr
      rcases List.mem_append.mp hr with hr | hr
      · have hbelow : r.offset + r.tamanho ≤ s.cursor := h.below r hr
        show r.offset + r.tamanho ≤ alignUp s.cursor (alignmentOf alignment) + intOr length 0
        omega
      · rw [List.mem_singleton.mp hr]
    · rintro r hr
      rcases List.mem_append.mp hr with hr | hr
      · exact h.aligned r hr
      · rw [List.mem_singleton.mp hr]
        exact dvd_alignUp (alignmentOf_pos alignment)
    · refine List.pairwise_append.mpr ⟨h.ordered, List.pairwise_singleton _ _, ?_⟩
      intro r hr r' hr'
      rw [List.mem_singleton.mp hr']
      exact (h.below r hr).trans hstart
  · rw [heq]
    exact h

/-- A write leaves the cursor and the length alone. -/
theorem escrever_frame (s : Arena) (offset : JsNumber) (src : List UInt8) :
    (s.escrever offset src).1.cursor = s.cursor ∧
      (s.escrever offset src).1.capacidade = s.capacidade := by
  unfold Arena.escrever
  dsimp only
  split
  · exact ⟨rfl, rfl⟩
  · split
    · exact ⟨rfl, rfl⟩
    · rename_i hwrite
      exact ⟨rfl, length_of_writeAt hwrite⟩

theorem stacked_preserved {n : ℕ} (hn : n < 2 ^ 31) :
    (arenaStep.record grantsAfter).Preserves (Stacked n) := by
  rintro ⟨s, grants⟩ o h
  cases o with
  | alocar length alignment => exact h.alocar hn length alignment
  | resetar => exact stacked_empty h.capacidade rfl
  | limpar fillValue =>
      refine stacked_empty ?_ rfl
      rw [← h.capacidade]
      exact List.length_map _
  | escrever offset src =>
      obtain ⟨hcursor, hcap⟩ := escrever_frame s offset src
      have hcap' : (s.escrever offset src).1.capacidade = n := hcap.trans h.capacidade
      refine ⟨hcap', ?_, ?_, h.aligned, h.ordered⟩
      · exact hcursor.trans_le h.cursor_le
      · intro r hr
        exact (h.below r hr).trans_eq hcursor.symm

/-! ## What a program may rely on -/

/-- What holds of an arena of `n` bytes and the regions given out since its last reset. -/
structure ArenaSound (n : ℕ) (s : Arena) (grants : List Grant) : Prop where
  capacidade : s.capacidade = n
  usado_le : s.usado ≤ s.capacidade
  inside : ∀ r ∈ grants, r.offset + r.tamanho ≤ s.capacidade
  aligned : ∀ r ∈ grants, r.alinhamento ∣ r.offset
  disjoint : grants.Pairwise fun r r' => ∀ p, r.offset ≤ p → p < r.offset + r.tamanho →
    ¬ (r'.offset ≤ p ∧ p < r'.offset + r'.tamanho)
  granted_iff : ∀ length alignment,
    (∃ offset, (s.alocar length alignment).2 = .alocado offset (intOr length 0)) ↔
      ∃ start, s.cursor ≤ start ∧ alignmentOf alignment ∣ start ∧
        start + intOr length 0 ≤ s.capacidade
  refused : ∀ length alignment,
    (¬ ∃ offset, (s.alocar length alignment).2 = .alocado offset (intOr length 0)) →
      (s.alocar length alignment).1 = s ∧
        ∃ codigo mensagem info, (s.alocar length alignment).2 = .erro codigo mensagem info
  written : ∀ i j : ℕ, i ≠ j → ∀ r r' : Grant, grants[i]? = some r → grants[j]? = some r' →
    ∀ src : List UInt8, src.length ≤ r.tamanho →
      (s.escrever (.finite r.offset) src).2 = .escrito src.length ∧
      ∀ p, r'.offset ≤ p → p < r'.offset + r'.tamanho →
        (s.escrever (.finite r.offset) src).1.bytes[p]? = s.bytes[p]?

/-- A write into the arena succeeds when it fits. -/
theorem escrever_eq {s : Arena} (hcap : s.capacidade < 2 ^ 31) {offset : ℕ} {src : List UInt8}
    (hfit : offset + src.length ≤ s.capacidade) :
    ∃ bytes, writeAt s.bytes offset src = some bytes ∧
      s.escrever (.finite offset) src = ({ s with bytes := bytes }, .escrito src.length) := by
  have hlt : s.bytes.length < 2 ^ 31 := hcap
  have hfit' : offset + src.length ≤ s.bytes.length := hfit
  refine ⟨_, if_pos hfit', ?_⟩
  rw [Arena.escrever, intOr_natCast, nearest_of_lt (by omega), if_neg (Nat.not_lt.mpr hfit'),
    writeAt, if_pos hfit']

/-- Regions in the order in which they were given out, apart from each other. -/
theorem apart_of_ordered {grants : List Grant}
    (h : grants.Pairwise fun r r' => r.offset + r.tamanho ≤ r'.offset) {i j : ℕ} (hij : i ≠ j)
    {r r' : Grant} (hr : grants[i]? = some r) (hr' : grants[j]? = some r') :
    r.offset + r.tamanho ≤ r'.offset ∨ r'.offset + r'.tamanho ≤ r.offset := by
  obtain ⟨hi, rfl⟩ := List.getElem?_eq_some_iff.mp hr
  obtain ⟨hj, rfl⟩ := List.getElem?_eq_some_iff.mp hr'
  rcases Nat.lt_or_gt_of_ne hij with hlt | hgt
  · exact .inl (List.pairwise_iff_getElem.mp h i j hi hj hlt)
  · exact .inr (List.pairwise_iff_getElem.mp h j i hj hi hgt)

theorem Stacked.sound {n : ℕ} (hn : n < 2 ^ 31) {s : Arena} {grants : List Grant}
    (h : Stacked n (s, grants)) : ArenaSound n s grants := by
  have hcap : s.capacidade = n := h.capacidade
  have hcursor : s.cursor ≤ s.capacidade := hcap ▸ h.cursor_le
  have hlt : s.capacidade < 2 ^ 31 := by omega
  have hinside : ∀ r ∈ grants, r.offset + r.tamanho ≤ s.capacidade :=
    fun r hr => (h.below r hr).trans hcursor
  constructor
  · exact hcap
  · exact hcursor
  · exact hinside
  · exact h.aligned
  · refine h.ordered.imp fun {r r'} hrr' p _ hp hp' => ?_
    omega
  · intro length alignment
    rw [exists_fit_iff (alignmentOf_pos alignment)]
    rcases alocar_cases hlt length alignment with ⟨hfit, heq⟩ | ⟨hfit, heq⟩
    · rw [heq]
      exact iff_of_true ⟨_, rfl⟩ hfit
    · rw [heq]
      exact iff_of_false nofun hfit
  · intro length alignment hrefused
    rcases alocar_cases hlt length alignment with ⟨-, heq⟩ | ⟨-, heq⟩
    · exact (hrefused ⟨_, by rw [heq]⟩).elim
    · rw [heq]
      exact ⟨rfl, _, _, _, rfl⟩
  · intro i j hij r r' hr hr' src hsrc
    have hfit := hinside r (List.mem_of_getElem? hr)
    obtain ⟨bytes, hwrite, heq⟩ := escrever_eq hlt (show r.offset + src.length ≤ s.capacidade by
      omega)
    rw [heq]
    refine ⟨rfl, fun p hp hp' => getElem?_writeAt hwrite ?_⟩
    rcases apart_of_ordered h.ordered hij hr hr' with hapart | hapart
    · right
      omega
    · left
      omega

/-- After any operations the regions given out since the last reset are apart, aligned and inside,
and `alocar` refuses exactly what does not fit. -/
theorem arena_sound (size : JsNumber) (start : Arena) (hstart : arenaFactory size = some start)
    (ops : List ArenaOp) :
    ArenaSound (intOr size 0) (arenaStep.run start ops).1
      (grantsOf (ops.zip (arenaStep.run start ops).2)) := by
  unfold arenaFactory at hstart
  split at hstart
  · rename_i hvalid
    cases hstart
    have hn : intOr size 0 < 2 ^ 31 := of_decide_eq_true hvalid
    have hrun := (stacked_preserved hn).run
      (stacked_empty (s := ⟨List.replicate (intOr size 0) 0, 0⟩) List.length_replicate rfl) ops
    rw [Machine.record_run] at hrun
    exact hrun.sound hn
  · cases hstart

/-- An arena of eight bytes, whose second region is aligned. -/
theorem arena_sound_padding :
    ArenaSound (intOr (.finite 8) 0)
      (arenaStep.run ⟨List.replicate 8 0, 0⟩
        [.alocar (.finite 3) (.finite 0), .alocar (.finite 4) (.finite 4)]).1
      (grantsOf ([.alocar (.finite 3) (.finite 0), .alocar (.finite 4) (.finite 4)].zip
        (arenaStep.run ⟨List.replicate 8 0, 0⟩
          [.alocar (.finite 3) (.finite 0), .alocar (.finite 4) (.finite 4)]).2)) :=
  arena_sound (.finite 8) ⟨List.replicate 8 0, 0⟩ (by decide +kernel)
    [.alocar (.finite 3) (.finite 0), .alocar (.finite 4) (.finite 4)]

end GatoCore.Stdlib
