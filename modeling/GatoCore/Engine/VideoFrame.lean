import GatoCore.Engine.VideoLife
import Mathlib.Algebra.Order.Ring.Abs
import Mathlib.Data.List.Induction
import Mathlib.Tactic.Linarith
import Mathlib.Tactic.NormNum
import Mathlib.Tactic.Ring

/-!
# Frames and the image

The image is asked for with products of 32-bit integers and written with products of `size_t`. The
two agree when no product wraps.
-/

namespace GatoCore.Engine

open GatoCore.Lib

/-! ## The sizes of the window -/

/-- The variables are those of a window that was opened with these sizes. -/
structure OpenedAs (s : VideoState) (width height scale : BitVec 32) : Prop where
  image_data : ∃ buffer, s.image_data = some buffer ∧ buffer.size = frameBytes width height scale
  width : s.width = width
  height : s.height = height
  scale : s.scale = scale

/-- What opening leaves: the sizes it was asked for, or a window that is not active. -/
def Answers (width height scale : BitVec 32) (opened : VideoState × List XCall × Bool) : Prop :=
  if opened.2.2 then
    OpenedAs opened.1 width height scale ∧ (frameBytes width height scale).toNat < 2 ^ 63
  else opened.1.active = false

section Opening

variable {width height scale : BitVec 32} {reply : OpenReply}

theorem answers_failOpening (s : VideoState) (calls : List XCall) (message : String) :
    Answers width height scale (failOpening s calls message) := by
  rw [Answers, if_neg (by simp [failOpening])]
  rfl

theorem answers_buffer (s : VideoState) (d : ℕ) :
    Answers width height scale (openBuffer s d width height scale reply) := by
  rw [openBuffer]
  split
  · rename_i hmalloc
    rw [openImage]
    split
    · rw [Answers, if_pos rfl]
      exact ⟨⟨⟨_, rfl, rfl⟩, rfl, rfl, rfl⟩, reply.malloc_le _ hmalloc⟩
    · exact answers_failOpening ..
  · exact answers_failOpening ..

theorem answers_gc (s : VideoState) (d w : ℕ) :
    Answers width height scale (openGC s d w width height scale reply) := by
  rw [openGC]
  split
  · exact answers_buffer { s with gc := some s.created, created := s.created + 1 } d
  · exact answers_failOpening ..

theorem answers_window (s : VideoState) (d : ℕ) :
    Answers width height scale (openWindow s d width height scale reply) := by
  rw [openWindow]
  split
  · exact answers_gc { s with window := some s.created, created := s.created + 1 } d s.created
  · exact answers_failOpening ..

theorem answers_display {s : VideoState} (h : s.active = false) :
    Answers width height scale (openDisplay s width height scale reply) := by
  rw [openDisplay]
  split
  · exact answers_window { s with display := some s.created, created := s.created + 1 } s.created
  · rw [Answers, if_neg (by simp)]
    exact h

end Opening

theorem active_loadBackend {s : VideoState} (h : s.active = false) (reply : BackendReply) :
    (jsPtVideoLoadBackend s reply).1.active = false := by
  unfold jsPtVideoLoadBackend
  split
  · exact h
  · cases reply with
    | noLibrary => exact h
    | missingSymbol sym => rfl
    | found => rfl

/-- `video_abrir` changes nothing, or it leaves a window of the sizes it was asked for, or none that
is active. -/
theorem abrir_cases (s : VideoState) (args : OpenArgs) (reply : OpenReply) :
    ((jsPtVideoAbrir s args reply).1 = s ∧ (jsPtVideoAbrir s args reply).2.2 ≠ .ok true) ∨
      ∃ width height scale, args = .sizes width height scale ∧ 0 < width.toInt ∧
        0 < height.toInt ∧ ∃ opened, Answers width height (clampScale scale) opened ∧
          (jsPtVideoAbrir s args reply).1 = opened.1 ∧
            (jsPtVideoAbrir s args reply).2.2 = .ok opened.2.2 := by
  cases args with
  | threw => exact Or.inl ⟨rfl, by simp [jsPtVideoAbrir]⟩
  | sizes width height scale =>
      by_cases hpos : width.toInt ≤ 0 ∨ height.toInt ≤ 0
      · left
        simp [jsPtVideoAbrir, if_pos hpos]
      · right
        obtain ⟨hwidth, hheight⟩ := not_or.mp hpos
        refine ⟨width, height, scale, rfl, by omega, by omega, ?_⟩
        simp only [jsPtVideoAbrir, if_neg hpos]
        rw [← clampScale]
        have hclosed : (if s.active = true then jsPtVideoClose s else (s, [])).1.active =
            false := by
          cases hactive : s.active with
          | false => simpa using hactive
          | true => rfl
        generalize (if s.active = true then jsPtVideoClose s else (s, [])) = closed at hclosed ⊢
        have hloaded := active_loadBackend hclosed reply.backend
        generalize jsPtVideoLoadBackend closed.1 reply.backend = loaded at hloaded ⊢
        cases hok : loaded.2 with
        | false =>
            refine ⟨(loaded.1, [], false), ?_, by simp, by simp⟩
            simpa [Answers] using hloaded
        | true =>
            cases henv : reply.displayEnv with
            | false =>
                refine ⟨(loaded.1.setError "DISPLAY nao definido", [], false), ?_, by simp, by simp⟩
                simpa [Answers, VideoState.setError] using hloaded
            | true =>
                have hopened : Answers width height (clampScale scale)
                    (openDisplay { loaded.1 with cleanup_registered := true } width height
                      (clampScale scale) reply) := answers_display hloaded
                exact ⟨_, hopened, by simp, by simp⟩

/-! ## After the window is opened -/

/-- A step that opens a window. -/
def VideoOp.Succeeds (s : VideoState) : VideoOp → Prop
  | .abrir args reply => (jsPtVideoAbrir s args reply).2.2 = .ok true
  | _ => False

/-- No step opens a window. -/
def NoneSucceeds (s : VideoState) (ops : List VideoOp) : Prop :=
  ∀ pre op post, ops = pre ++ op :: post → ¬op.Succeeds (videoStep.run s pre).1

theorem noneSucceeds_cons {s : VideoState} {op : VideoOp} {ops : List VideoOp} :
    NoneSucceeds s (op :: ops) ↔ ¬op.Succeeds s ∧ NoneSucceeds (videoStep s op).1 ops :=
  forall_split_cons (P := fun (pre : List VideoOp) (op : VideoOp) =>
    ¬op.Succeeds (videoStep.run s pre).1)

section Later

variable {s : VideoState} {width height scale : BitVec 32}

/-- While the window is active the sizes are those it was opened with. -/
def KeepsSizes (s : VideoState) (width height scale : BitVec 32) : Prop :=
  s.active = true → OpenedAs s width height scale

theorem OpenedAs.of_input (h : OpenedAs s width height scale) (input : VideoInput)
    (active : Bool) : OpenedAs { s with input := input, active := active } width height scale :=
  ⟨h.image_data, h.width, h.height, h.scale⟩

theorem OpenedAs.draw (h : OpenedAs s width height scale) (writes : List (BitVec 64 × UInt8)) :
    OpenedAs { s with image_data := s.image_data.map fun buffer => buffer.draw writes } width height
      scale := by
  obtain ⟨buffer, hbuffer, hsize⟩ := h.image_data
  refine ⟨⟨buffer.draw writes, ?_, hsize⟩, h.width, h.height, h.scale⟩
  simp [hbuffer]

theorem OpenedAs.pump (h : OpenedAs s width height scale) (events : List XEvent) :
    OpenedAs (jsPtVideoPumpEvents s events).1 width height scale := by
  obtain ⟨input, active, hpumped⟩ := pumpEvents_eq s events
  rw [hpumped]
  exact h.of_input input active

theorem keepsSizes_abrir (h : KeepsSizes s width height scale) {args : OpenArgs}
    {reply : OpenReply} (hfail : (jsPtVideoAbrir s args reply).2.2 ≠ .ok true) :
    KeepsSizes (jsPtVideoAbrir s args reply).1 width height scale := by
  rcases abrir_cases s args reply with ⟨hsame, -⟩ | ⟨_, _, _, -, -, -, opened, hanswers,
    hstate, hres⟩
  · rw [hsame]
    exact h
  · intro hactive
    rw [hres] at hfail
    cases hopened : opened.2.2 with
    | true => exact absurd (by rw [hopened]) hfail
    | false =>
        rw [Answers, hopened] at hanswers
        rw [hstate] at hactive
        simp [hactive] at hanswers

theorem keepsSizes_apresentar (h : KeepsSizes s width height scale) (arg : FrameArg)
    (events : List XEvent) :
    KeepsSizes (jsPtVideoApresentar s arg events).1 width height scale := by
  unfold jsPtVideoApresentar
  split
  · rename_i d i hactive hd hi
    cases arg with
    | notABuffer | noBytes => exact h
    | frame f =>
        by_cases hlen : f.bytes.length < (expectedBytes s.width s.height).toNat
        · simp only [if_pos hlen]
          exact h
        · simp only [if_neg hlen]
          intro _
          exact ((h hactive).draw _).pump events
  · exact h

/-- Only a step that opens a window changes the sizes of one that is active. -/
theorem keepsSizes_step (h : KeepsSizes s width height scale) {op : VideoOp}
    (hop : ¬op.Succeeds s) : KeepsSizes (videoStep s op).1 width height scale := by
  cases op with
  | abrir args reply => exact keepsSizes_abrir h hop
  | apresentar arg events => exact keepsSizes_apresentar h arg events
  | entrada events =>
      simp only [videoStep, jsPtVideoEntrada]
      by_cases hactive : s.active = true
      · simp only [if_pos hactive]
        intro _
        exact (h hactive).pump events
      · simp only [if_neg hactive]
        exact h
  | fechar =>
      intro hactive
      cases hactive
  | sair converted =>
      cases converted with
      | false => exact h
      | true =>
          intro hactive
          simp only [videoStep, jsPtSair, if_true] at hactive
          split at hactive <;> cases hactive

theorem keepsSizes_run (h : KeepsSizes s width height scale) {ops : List VideoOp}
    (hops : NoneSucceeds s ops) : KeepsSizes (videoStep.run s ops).1 width height scale := by
  induction ops generalizing s with
  | nil => exact h
  | cons op ops ih =>
      obtain ⟨hop, hrest⟩ := noneSucceeds_cons.mp hops
      exact ih (keepsSizes_step h hop) hrest

end Later

/-! ## The bytes asked for -/

theorem toNat_signExtend_of_lt {v : BitVec 32} (h : v.toNat < 2 ^ 31) :
    (v.signExtend 64).toNat = v.toNat := by
  have hmsb : v.msb = false := by
    rw [BitVec.msb_eq_false_iff_two_mul_lt]
    omega
  rw [BitVec.signExtend_eq_setWidth_of_msb_false hmsb, BitVec.toNat_setWidth]
  exact Nat.mod_eq_of_lt (by omega)

theorem toNat_lt_of_pos {v : BitVec 32} (h : 0 < v.toInt) : 0 < v.toNat ∧ v.toNat < 2 ^ 31 := by
  rw [BitVec.toInt_eq_toNat_cond] at h
  have hlt := v.isLt
  split at h <;> omega

theorem clampScale_pos (scale : BitVec 32) : 0 < (clampScale scale).toInt := by
  unfold clampScale
  split
  · decide
  · omega

/-- The bytes asked for, from the sizes as 32-bit integers. -/
theorem toNat_frameBytes (width height scale : BitVec 32) :
    ((frameBytes width height scale).toNat : ℤ) =
      (width * scale).toInt * (height * scale).toInt * 4 % 2 ^ 64 := by
  have hint : (frameBytes width height scale).toInt =
      ((width * scale).toInt * (height * scale).toInt * 4).bmod (2 ^ 64) := by
    rw [frameBytes, BitVec.toInt_mul, BitVec.toInt_mul, BitVec.toInt_signExtend_of_le (by decide),
      BitVec.toInt_signExtend_of_le (by decide)]
    exact Int.bmod_mul_bmod
  have hnat : ((frameBytes width height scale).toNat : ℤ) =
      (frameBytes width height scale).toInt % 2 ^ 64 := by
    rw [BitVec.toInt_eq_toNat_cond]
    have hlt := (frameBytes width height scale).isLt
    split <;> omega
  rw [hnat, hint]
  exact Int.bmod_emod

/-- `p` is what 32-bit integers make of the positive number `n`. -/
structure Wrapped (n p : ℤ) : Prop where
  pos : 0 < n
  neg_le : -n ≤ p
  le : p ≤ n
  lt : p < 2 ^ 31
  neg_le_pow : -2 ^ 31 ≤ p
  eq_neg : p = -n → n = 2 ^ 31

theorem wrapped_bmod {n : ℤ} (h : 0 < n) : Wrapped n (n.bmod (2 ^ 32)) := by
  rw [Int.bmod_eq_emod]
  split <;> exact ⟨h, by omega, by omega, by omega, by omega, by omega⟩

section Wrapped

variable {W H p q : ℤ}

/-- The product of the sizes is smaller than it should be, if one of them wraps. -/
theorem mul_le_of_nonneg (hp : Wrapped W p) (hq : Wrapped H q) (hp0 : 0 ≤ p) (hq0 : 0 ≤ q)
    (hbig : 2 ^ 31 ≤ W ∨ 2 ^ 31 ≤ H) : p * q + 1 ≤ W * H := by
  have hW := hp.pos
  have hH := hq.pos
  rcases hbig with hbig | hbig
  · have hlt : p ≤ W - 1 := by have := hp.lt; omega
    have hmul : p * q ≤ (W - 1) * H := mul_le_mul hlt hq.le hq0 (by omega)
    linarith
  · have hlt : q ≤ H - 1 := by have := hq.lt; omega
    have hmul : p * q ≤ W * (H - 1) := mul_le_mul hp.le hlt hq0 (by omega)
    linarith

/-- Two negative sizes: the product is smaller than it should be, or it is `2 ^ 62`. -/
theorem mul_le_of_neg (hp : Wrapped W p) (hq : Wrapped H q) (hp0 : p < 0) (hq0 : q < 0) :
    p * q + 1 ≤ W * H ∨ p * q = 2 ^ 62 := by
  have hW := hp.pos
  have hH := hq.pos
  have hpW := hp.neg_le
  have hqH := hq.neg_le
  by_cases hpe : p = -W
  · by_cases hqe : q = -H
    · right
      rw [hpe, hqe, hp.eq_neg hpe, hq.eq_neg hqe]
      norm_num
    · left
      have hmul : -p * -q ≤ W * (H - 1) := mul_le_mul (by omega) (by omega) (by omega) (by omega)
      linarith
  · left
    have hmul : -p * -q ≤ (W - 1) * H := mul_le_mul (by omega) (by omega) (by omega) (by omega)
    linarith

/-- Sizes of different signs: the product is not below the negative of what it should be. -/
theorem neg_mul_le (hp : Wrapped W p) (hq : Wrapped H q) : -(p * q) ≤ W * H ∧ -2 ^ 62 ≤ p * q := by
  have hW := hp.pos
  have hH := hq.pos
  have hpabs : |p| ≤ W := abs_le.mpr ⟨hp.neg_le, hp.le⟩
  have hqabs : |q| ≤ H := abs_le.mpr ⟨hq.neg_le, hq.le⟩
  have hppow : |p| ≤ 2 ^ 31 := abs_le.mpr ⟨hp.neg_le_pow, hp.lt.le⟩
  have hqpow : |q| ≤ 2 ^ 31 := abs_le.mpr ⟨hq.neg_le_pow, hq.lt.le⟩
  have habs : -(p * q) ≤ |p| * |q| := by
    rw [← abs_mul]
    exact neg_le_abs _
  have hmul : |p| * |q| ≤ W * H := mul_le_mul hpabs hqabs (abs_nonneg q) hW.le
  have hmul' : |p| * |q| ≤ 2 ^ 31 * 2 ^ 31 := mul_le_mul hppow hqpow (abs_nonneg q) (by norm_num)
  constructor
  · linarith
  · norm_num at hmul' ⊢
    linarith

/-- An image whose sizes wrap is asked for with fewer bytes than its pixels take. -/
theorem wrapped_bytes (hp : Wrapped W p) (hq : Wrapped H q) (hbig : 2 ^ 31 ≤ W ∨ 2 ^ 31 ≤ H)
    (hmalloc : p * q * 4 % 2 ^ 64 < 2 ^ 63) : p * q * 4 % 2 ^ 64 + 2 ≤ 4 * (W * H) := by
  have hWH : 0 < W * H := mul_pos hp.pos hq.pos
  obtain ⟨hle, hge⟩ := neg_mul_le hp hq
  have hcases : p * q + 1 ≤ W * H ∧ 0 ≤ p * q ∨ p * q = 2 ^ 62 ∨ p * q < 0 := by
    by_cases hneg : p * q < 0
    · exact Or.inr (Or.inr hneg)
    · have hnonneg : 0 ≤ p * q := by omega
      by_cases hp0 : p < 0
      · have hq0 : q ≤ 0 := by
          by_contra hq0
          exact hneg (mul_neg_of_neg_of_pos hp0 (by omega))
        rcases hq0.lt_or_eq with hq0 | rfl
        · rcases mul_le_of_neg hp hq hp0 hq0 with h | h
          · exact Or.inl ⟨h, hnonneg⟩
          · exact Or.inr (Or.inl h)
        · left
          constructor
          · linarith
          · exact hnonneg
      · by_cases hq0 : q < 0
        · have hpz : p = 0 := by
            by_contra hpz
            exact hneg (mul_neg_of_pos_of_neg (by omega) hq0)
          left
          rw [hpz]
          constructor <;> omega
        · exact Or.inl ⟨mul_le_of_nonneg hp hq (by omega) (by omega) hbig, hnonneg⟩
  generalize p * q = n at *
  generalize W * H = m at *
  rcases hcases with ⟨h, h0⟩ | h | h <;> omega

end Wrapped

/-! ## The pixels written -/

/-- An index to which all writes give one value. -/
theorem writeBytes_eq {bytes : ℕ → UInt8} {writes : List (BitVec 64 × UInt8)} {i : ℕ} {v : UInt8}
    (hall : ∀ write ∈ writes, write.1.toNat = i → write.2 = v)
    (hsome : ∃ write ∈ writes, write.1.toNat = i) : writeBytes bytes writes i = v := by
  induction writes using List.reverseRecOn with
  | nil =>
      obtain ⟨write, hwrite, -⟩ := hsome
      cases hwrite
  | append_singleton writes last ih =>
      rw [writeBytes, List.foldl_append]
      show Function.update (writeBytes bytes writes) last.1.toNat last.2 i = v
      by_cases hlast : last.1.toNat = i
      · rw [hlast, Function.update_self]
        exact hall last (by simp) hlast
      · rw [Function.update_of_ne (Ne.symm hlast)]
        apply ih
        · intro write hwrite
          exact hall write (List.mem_append_left _ hwrite)
        · obtain ⟨write, hwrite, hi⟩ := hsome
          rcases List.mem_append.mp hwrite with hwrite | hwrite
          · exact ⟨write, hwrite, hi⟩
          · rw [List.mem_singleton] at hwrite
            exact absurd (hwrite ▸ hi) hlast

/-- A place in the loops: the pixel of the frame and the one of its copies. -/
structure Place (width height scale : ℕ) where
  x : ℕ
  y : ℕ
  sx : ℕ
  sy : ℕ
  x_lt : x < width
  y_lt : y < height
  sx_lt : sx < scale
  sy_lt : sy < scale

namespace Place

variable {width height scale : ℕ}

/-- The column and the row of a copy in the image. -/
def column (p : Place width height scale) : ℕ := p.x * scale + p.sx

def row (p : Place width height scale) : ℕ := p.y * scale + p.sy

/-- The number of the pixel in the image. -/
def number (p : Place width height scale) : ℕ := p.row * (width * scale) + p.column

/-- The first byte of the pixel in the frame. -/
def source (p : Place width height scale) : ℕ := (p.y * width + p.x) * 4

/-- The bytes of the pixel in the image: blue, green, red and none. -/
def bytes (p : Place width height scale) (src : List UInt8) : List UInt8 :=
  [src.getD (p.source + 2) 0, src.getD (p.source + 1) 0, src.getD p.source 0, 0]

theorem column_lt (p : Place width height scale) : p.column < width * scale := by
  have hx := p.x_lt
  have hsx := p.sx_lt
  calc p.x * scale + p.sx < p.x * scale + scale := by omega
    _ = (p.x + 1) * scale := by ring
    _ ≤ width * scale := Nat.mul_le_mul_right scale hx

theorem row_lt (p : Place width height scale) : p.row < height * scale := by
  have hy := p.y_lt
  have hsy := p.sy_lt
  calc p.y * scale + p.sy < p.y * scale + scale := by omega
    _ = (p.y + 1) * scale := by ring
    _ ≤ height * scale := Nat.mul_le_mul_right scale hy

theorem number_lt (p : Place width height scale) :
    p.number < height * scale * (width * scale) := by
  have hcolumn := p.column_lt
  calc p.row * (width * scale) + p.column < p.row * (width * scale) + width * scale := by omega
    _ = (p.row + 1) * (width * scale) := by ring
    _ ≤ height * scale * (width * scale) := Nat.mul_le_mul_right _ p.row_lt

/-- The place of a pixel of the image. -/
def ofPixel (hscale : 0 < scale) {X Y : ℕ} (hX : X < width * scale) (hY : Y < height * scale) :
    Place width height scale where
  x := X / scale
  y := Y / scale
  sx := X % scale
  sy := Y % scale
  x_lt := Nat.div_lt_of_lt_mul (by rwa [Nat.mul_comm])
  y_lt := Nat.div_lt_of_lt_mul (by rwa [Nat.mul_comm])
  sx_lt := Nat.mod_lt X hscale
  sy_lt := Nat.mod_lt Y hscale

theorem number_ofPixel (hscale : 0 < scale) {X Y : ℕ} (hX : X < width * scale)
    (hY : Y < height * scale) : (ofPixel hscale hX hY).number = Y * (width * scale) + X := by
  have hcolumn : (ofPixel hscale hX hY).column = X := Nat.div_add_mod' X scale
  have hrow : (ofPixel hscale hX hY).row = Y := Nat.div_add_mod' Y scale
  rw [number, hcolumn, hrow]

/-- A pixel of the image has one place. -/
theorem source_of_number_eq {p q : Place width height scale} (h : p.number = q.number) :
    p.source = q.source := by
  have hW : 0 < width * scale := Nat.lt_of_le_of_lt (Nat.zero_le _) p.column_lt
  have hscale : 0 < scale := Nat.lt_of_le_of_lt (Nat.zero_le _) p.sx_lt
  have split : ∀ r : Place width height scale,
      r.number / (width * scale) = r.row ∧ r.number % (width * scale) = r.column ∧
        r.row / scale = r.y ∧ r.column / scale = r.x := by
    intro r
    refine ⟨?_, ?_, ?_, ?_⟩
    · rw [number, Nat.add_comm, Nat.add_mul_div_right _ _ hW, Nat.div_eq_of_lt r.column_lt,
        Nat.zero_add]
    · rw [number, Nat.add_comm, Nat.add_mul_mod_self_right, Nat.mod_eq_of_lt r.column_lt]
    · rw [row, Nat.add_comm, Nat.add_mul_div_right _ _ hscale, Nat.div_eq_of_lt r.sy_lt,
        Nat.zero_add]
    · rw [column, Nat.add_comm, Nat.add_mul_div_right _ _ hscale, Nat.div_eq_of_lt r.sx_lt,
        Nat.zero_add]
  obtain ⟨hprow, hpcolumn, hpy, hpx⟩ := split p
  obtain ⟨hqrow, hqcolumn, hqy, hqx⟩ := split q
  have hrow : p.row = q.row := by rw [← hprow, ← hqrow, h]
  have hcolumn : p.column = q.column := by rw [← hpcolumn, ← hqcolumn, h]
  rw [source, source, ← hpy, ← hpx, ← hqy, ← hqx, hrow, hcolumn]

end Place

theorem pixelWrites_eq (dst : BitVec 64) (r g b : UInt8) :
    pixelWrites dst r g b =
      (List.range 4).map fun k => (dst + BitVec.ofNat 64 k, [b, g, r, 0].getD k 0) := by
  simp [pixelWrites, List.range_succ]

/-- Sizes whose products are 32-bit integers. -/
structure Fits (width height scale : BitVec 32) : Prop where
  width_pos : 0 < width.toInt
  height_pos : 0 < height.toInt
  scale_pos : 0 < scale.toInt
  width_lt : width.toNat * scale.toNat < 2 ^ 31
  height_lt : height.toNat * scale.toNat < 2 ^ 31

namespace Fits

variable {width height scale : BitVec 32}

theorem pixels_lt (h : Fits width height scale) :
    height.toNat * scale.toNat * (width.toNat * scale.toNat) * 4 < 2 ^ 64 := by
  have hmul : height.toNat * scale.toNat * (width.toNat * scale.toNat) ≤
      (2 ^ 31 - 1) * (2 ^ 31 - 1) :=
    Nat.mul_le_mul (Nat.le_sub_one_of_lt h.height_lt) (Nat.le_sub_one_of_lt h.width_lt)
  omega

theorem toNat_mul (a : BitVec 32) (h : a.toNat * scale.toNat < 2 ^ 31) :
    ((a * scale).signExtend 64).toNat = a.toNat * scale.toNat := by
  have hmul : (a * scale).toNat = a.toNat * scale.toNat := by
    rw [BitVec.toNat_mul]
    exact Nat.mod_eq_of_lt (by omega)
  rw [toNat_signExtend_of_lt (by omega), hmul]

/-- The image has the bytes of its pixels. -/
theorem toNat_frameBytes_eq (h : Fits width height scale) :
    (frameBytes width height scale).toNat =
      height.toNat * scale.toNat * (width.toNat * scale.toNat) * 4 := by
  have hlt := h.pixels_lt
  have hcomm : width.toNat * scale.toNat * (height.toNat * scale.toNat) =
      height.toNat * scale.toNat * (width.toNat * scale.toNat) := Nat.mul_comm _ _
  have hfour : (4 : BitVec 64).toNat = 4 := rfl
  have hmod := Nat.mod_eq_of_lt (show height.toNat * scale.toNat * (width.toNat * scale.toNat) <
    2 ^ 64 by omega)
  rw [frameBytes, BitVec.toNat_mul, BitVec.toNat_mul, toNat_mul width h.width_lt,
    toNat_mul height h.height_lt, hcomm, hmod, hfour]
  exact Nat.mod_eq_of_lt hlt

/-- The first byte of a pixel of the image. -/
theorem toNat_dstIdx (h : Fits width height scale)
    (p : Place width.toNat height.toNat scale.toNat) :
    (dstIdx width scale p.x p.y p.sx p.sy).toNat = p.number * 4 := by
  have hlt := h.pixels_lt
  have hnumber := p.number_lt
  have hscale : scale.signExtend 64 = BitVec.ofNat 64 scale.toNat := by
    apply BitVec.eq_of_toNat_eq
    rw [toNat_signExtend_of_lt (toNat_lt_of_pos h.scale_pos).2, BitVec.toNat_ofNat]
    have := scale.isLt
    exact (Nat.mod_eq_of_lt (by omega)).symm
  have hwidth : (width * scale).signExtend 64 = BitVec.ofNat 64 (width.toNat * scale.toNat) := by
    apply BitVec.eq_of_toNat_eq
    rw [toNat_mul width h.width_lt, BitVec.toNat_ofNat]
    have := h.width_lt
    exact (Nat.mod_eq_of_lt (by omega)).symm
  have hindex : dstIdx width scale p.x p.y p.sx p.sy = BitVec.ofNat 64 (p.number * 4) := by
    have heq : p.number * 4 = ((p.y * scale.toNat + p.sy) * (width.toNat * scale.toNat) +
        p.x * scale.toNat) * 4 + p.sx * 4 := by
      rw [Place.number, Place.row, Place.column]
      ring
    simp only [dstIdx, hscale, hwidth, heq, BitVec.ofNat_add, BitVec.ofNat_mul]
    rfl
  rw [hindex, BitVec.toNat_ofNat]
  exact Nat.mod_eq_of_lt (by omega)

theorem mem_frameWrites (h : Fits width height scale) {src : List UInt8}
    {write : BitVec 64 × UInt8} :
    write ∈ frameWrites width height scale src ↔
      ∃ p : Place width.toNat height.toNat scale.toNat,
        write ∈ pixelWrites (dstIdx width scale p.x p.y p.sx p.sy) (src.getD p.source 0)
          (src.getD (p.source + 1) 0) (src.getD (p.source + 2) 0) := by
  have hscale : scale.toInt.toNat = scale.toNat := by
    have := (toNat_lt_of_pos h.scale_pos).2
    rw [BitVec.toInt_eq_toNat_of_lt (by omega)]
    rfl
  simp only [frameWrites, hscale, toNat_signExtend_of_lt (toNat_lt_of_pos h.width_pos).2,
    toNat_signExtend_of_lt (toNat_lt_of_pos h.height_pos).2, List.mem_flatMap, List.mem_range]
  constructor
  · rintro ⟨y, hy, x, hx, sy, hsy, sx, hsx, hwrite⟩
    exact ⟨⟨x, y, sx, sy, hx, hy, hsx, hsy⟩, hwrite⟩
  · rintro ⟨p, hwrite⟩
    exact ⟨p.y, p.y_lt, p.x, p.x_lt, p.sy, p.sy_lt, p.sx, p.sx_lt, hwrite⟩

/-- What is written: the bytes of each pixel of the image. -/
theorem mem_writes (h : Fits width height scale) {src : List UInt8}
    {write : BitVec 64 × UInt8} :
    write ∈ frameWrites width height scale src ↔
      ∃ (p : Place width.toNat height.toNat scale.toNat) (k : ℕ), k < 4 ∧
        write.1.toNat = p.number * 4 + k ∧ write.2 = (p.bytes src).getD k 0 := by
  have hlt := h.pixels_lt
  have hdst : ∀ (p : Place width.toNat height.toNat scale.toNat) (k : ℕ), k < 4 →
      (dstIdx width scale p.x p.y p.sx p.sy + BitVec.ofNat 64 k).toNat = p.number * 4 + k := by
    intro p k hk
    have hnumber := p.number_lt
    rw [BitVec.toNat_add, h.toNat_dstIdx, BitVec.toNat_ofNat, Nat.mod_eq_of_lt (a := k) (by omega)]
    exact Nat.mod_eq_of_lt (by omega)
  rw [h.mem_frameWrites]
  apply exists_congr
  intro p
  rw [pixelWrites_eq, List.mem_map]
  constructor
  · rintro ⟨k, hk, rfl⟩
    have hk := List.mem_range.mp hk
    exact ⟨k, hk, hdst p k hk, rfl⟩
  · rintro ⟨k, hk, hindex, hvalue⟩
    refine ⟨k, List.mem_range.mpr hk, Prod.ext ?_ hvalue.symm⟩
    apply BitVec.eq_of_toNat_eq
    rw [hindex]
    exact hdst p k hk

end Fits

/-! ## The frame and the image -/

/-- The frame is shown: the window is there and the frame is long enough. -/
structure Accepts (s : VideoState) (f : Frame) : Prop where
  active : s.active = true
  display : s.display.isSome = true
  image : s.image.isSome = true
  length : (expectedBytes s.width s.height).toNat ≤ f.bytes.length

/-- Every byte is written inside the block that was asked for, and the image shows the frame with
each pixel `scale` times in both directions. -/
structure FrameExact (s : VideoState) (f : Frame) (events : List XEvent)
    (width height scale : ℕ) : Prop where
  inside : ∀ write ∈ frameWrites s.width s.height s.scale f.bytes, ∀ buffer,
    s.image_data = some buffer → write.1.toNat < buffer.size.toNat
  pixels : ∃ buffer, (jsPtVideoApresentar s (.frame f) events).1.image_data = some buffer ∧
    ∀ X Y, X < width * scale → Y < height * scale →
      let src := (Y / scale * width + X / scale) * 4
      let dst := (Y * (width * scale) + X) * 4
      dst + 2 < buffer.size.toNat ∧ buffer.bytes dst = f.bytes.getD (src + 2) 0 ∧
        buffer.bytes (dst + 1) = f.bytes.getD (src + 1) 0 ∧
        buffer.bytes (dst + 2) = f.bytes.getD src 0

section Frames

variable {s : VideoState} {width height scale : BitVec 32} {f : Frame} {events : List XEvent}

theorem image_data_pumpEvents (s : VideoState) (events : List XEvent) :
    (jsPtVideoPumpEvents s events).1.image_data = s.image_data := by
  obtain ⟨input, active, hpumped⟩ := pumpEvents_eq s events
  rw [hpumped]

/-- The image after a frame is shown. -/
theorem image_data_apresentar (h : Accepts s f) :
    (jsPtVideoApresentar s (.frame f) events).1.image_data = s.image_data.map fun buffer =>
      buffer.draw (frameWrites s.width s.height s.scale f.bytes) := by
  obtain ⟨d, hd⟩ := Option.isSome_iff_exists.mp h.display
  obtain ⟨i, hi⟩ := Option.isSome_iff_exists.mp h.image
  have hlen : ¬f.bytes.length < (expectedBytes s.width s.height).toNat := by
    have := h.length
    omega
  simp only [jsPtVideoApresentar, h.active, hd, hi, if_neg hlen]
  rw [image_data_pumpEvents]

theorem frameExact_of_fits (hopened : OpenedAs s width height scale) (haccept : Accepts s f)
    (hfits : Fits width height scale) :
    FrameExact s f events width.toNat height.toNat scale.toNat := by
  obtain ⟨buffer, hbuffer, hsize⟩ := hopened.image_data
  have hbytes := hfits.toNat_frameBytes_eq
  have himage : (jsPtVideoApresentar s (.frame f) events).1.image_data =
      some (buffer.draw (frameWrites width height scale f.bytes)) := by
    rw [image_data_apresentar haccept, hopened.width, hopened.height, hopened.scale, hbuffer]
    rfl
  constructor
  · intro write hwrite buffer' hbuffer'
    rw [hopened.width, hopened.height, hopened.scale, hfits.mem_writes] at hwrite
    obtain ⟨p, k, hk, hindex, -⟩ := hwrite
    rw [hbuffer] at hbuffer'
    cases hbuffer'
    have hnumber := p.number_lt
    rw [hindex, hsize, hbytes]
    omega
  · refine ⟨_, himage, ?_⟩
    intro X Y hX hY
    let p : Place width.toNat height.toNat scale.toNat :=
      .ofPixel (toNat_lt_of_pos hfits.scale_pos).1 hX hY
    have hnumber : p.number = Y * (width.toNat * scale.toNat) + X := Place.number_ofPixel ..
    have hbyte : ∀ k < 4, writeBytes buffer.bytes (frameWrites width height scale f.bytes)
        (p.number * 4 + k) = (p.bytes f.bytes).getD k 0 := by
      intro k hk
      apply writeBytes_eq
      · intro write hwrite hindex
        obtain ⟨q, k', hk', hindex', hvalue⟩ := hfits.mem_writes.mp hwrite
        have hsame : q.number = p.number ∧ k' = k := by omega
        rw [hvalue, hsame.2, Place.bytes, Place.bytes, Place.source_of_number_eq hsame.1]
      · have hlt := p.number_lt
        have hpixels := hfits.pixels_lt
        have hindex : (BitVec.ofNat 64 (p.number * 4 + k)).toNat = p.number * 4 + k := by
          rw [BitVec.toNat_ofNat]
          exact Nat.mod_eq_of_lt (by omega)
        exact ⟨(BitVec.ofNat 64 (p.number * 4 + k), (p.bytes f.bytes).getD k 0),
          hfits.mem_writes.mpr ⟨p, k, hk, hindex, rfl⟩, hindex⟩
    rw [hnumber] at hbyte
    refine ⟨?_, hbyte 0 (by omega), hbyte 1 (by omega), hbyte 2 (by omega)⟩
    have hlt := p.number_lt
    rw [hnumber] at hlt
    show _ < buffer.size.toNat
    rw [hsize, hbytes]
    omega

/-- An image of fewer bytes than its pixels take does not show a frame. -/
theorem fits_of_frameExact (hopened : OpenedAs s width height scale) (haccept : Accepts s f)
    (hwidth : 0 < width.toInt) (hheight : 0 < height.toInt) (hscale : 0 < scale.toInt)
    (hmalloc : (frameBytes width height scale).toNat < 2 ^ 63)
    (h : FrameExact s f events width.toNat height.toNat scale.toNat) :
    width.toNat * scale.toNat < 2 ^ 31 ∧ height.toNat * scale.toNat < 2 ^ 31 := by
  by_contra hnot
  obtain ⟨buffer, hbuffer, hsize⟩ := hopened.image_data
  obtain ⟨buffer', hbuffer', hpixels⟩ := h.pixels
  rw [image_data_apresentar haccept, hbuffer] at hbuffer'
  cases hbuffer'
  have hW : 0 < width.toNat * scale.toNat :=
    Nat.mul_pos (toNat_lt_of_pos hwidth).1 (toNat_lt_of_pos hscale).1
  have hH : 0 < height.toNat * scale.toNat :=
    Nat.mul_pos (toNat_lt_of_pos hheight).1 (toNat_lt_of_pos hscale).1
  obtain ⟨hlast, -⟩ := hpixels _ _ (Nat.sub_one_lt hW.ne') (Nat.sub_one_lt hH.ne')
  have hbytes := toNat_frameBytes width height scale
  have hwrapped : ∀ a : BitVec 32, 0 < a.toNat * scale.toNat →
      Wrapped ((a.toNat * scale.toNat : ℕ) : ℤ) (a * scale).toInt := by
    intro a ha
    have hint : (a * scale).toInt = ((a.toNat * scale.toNat : ℕ) : ℤ).bmod (2 ^ 32) := by
      rw [BitVec.toInt_eq_toNat_bmod, BitVec.toNat_mul]
      push_cast
      exact Int.emod_bmod ..
    rw [hint]
    exact wrapped_bmod (by omega)
  have hless := wrapped_bytes (hwrapped width hW) (hwrapped height hH) (by omega) (by omega)
  -- the last pixel would lie inside the block
  have hlast : ((height.toNat * scale.toNat - 1) * (width.toNat * scale.toNat) +
      (width.toNat * scale.toNat - 1)) * 4 + 2 < (frameBytes width height scale).toNat := by
    rw [← hsize]
    exact hlast
  rw [← hbytes, ← Nat.cast_mul] at hless
  generalize width.toNat * scale.toNat = W at *
  generalize height.toNat * scale.toNat = H at *
  have hle : W ≤ W * H := Nat.le_mul_of_pos_right W hH
  rw [Nat.sub_one_mul, Nat.mul_comm H W] at hlast
  omega

end Frames

/-- The frame of a window is shown exactly when the sizes of its image are 32-bit integers. -/
theorem frame_exact_iff {s : VideoState} {width height scale : BitVec 32} {reply : OpenReply}
    {ops : List VideoOp} {f : Frame} {events : List XEvent}
    (hopen : (jsPtVideoAbrir s (.sizes width height scale) reply).2.2 = .ok true)
    (hops : NoneSucceeds (jsPtVideoAbrir s (.sizes width height scale) reply).1 ops)
    (haccept : Accepts
      (videoStep.run (jsPtVideoAbrir s (.sizes width height scale) reply).1 ops).1 f) :
    FrameExact (videoStep.run (jsPtVideoAbrir s (.sizes width height scale) reply).1 ops).1 f events
        width.toNat height.toNat (clampScale scale).toNat ↔
      width.toNat * (clampScale scale).toNat < 2 ^ 31 ∧
        height.toNat * (clampScale scale).toNat < 2 ^ 31 := by
  have hscale := clampScale_pos scale
  rcases abrir_cases s (.sizes width height scale) reply with
    ⟨-, hfail⟩ | ⟨_, _, _, hsizes, hwidth, hheight, opened, hanswers, hstate, hres⟩
  · exact absurd hopen hfail
  · cases hsizes
    have hsuccess : opened.2.2 = true := by
      rw [hres] at hopen
      exact Except.ok.inj hopen
    rw [Answers, if_pos hsuccess, ← hstate] at hanswers
    obtain ⟨hsized, hmalloc⟩ := hanswers
    have hlater := keepsSizes_run (fun _ => hsized) hops haccept.active
    constructor
    · intro h
      exact fits_of_frameExact hlater haccept hwidth hheight hscale hmalloc h
    · rintro ⟨hw, hh⟩
      exact frameExact_of_fits hlater haccept ⟨hwidth, hheight, hscale, hw, hh⟩

/-! ## Two windows -/

/-- A black frame of four pixels. -/
def smallFrame : Frame := ⟨List.replicate 16 0, by decide⟩

theorem accepts_smallFrame :
    Accepts (jsPtVideoAbrir .start (.sizes 2 2 3) working).1 smallFrame := by
  constructor <;> decide

/-- A small window shows its frames. -/
theorem frame_exact_iff_small :
    FrameExact (jsPtVideoAbrir .start (.sizes 2 2 3) working).1 smallFrame [] 2 2 3 := by
  have hopen : (jsPtVideoAbrir .start (.sizes 2 2 3) working).2.2 = .ok true := rfl
  have hops : NoneSucceeds (jsPtVideoAbrir .start (.sizes 2 2 3) working).1 [] := by
    intro pre op post hsplit
    simp at hsplit
  exact (frame_exact_iff hopen hops accepts_smallFrame).mpr ⟨by decide, by decide⟩

/-- A frame of nine pixels. -/
def nineFrame : Frame := ⟨List.replicate 36 0, by decide⟩

/-- A window of three by three whose scale makes both sizes come out as two. -/
theorem wrapped_not_exact :
    ¬∀ (s : VideoState) (width height scale : BitVec 32) (reply : OpenReply) (f : Frame)
      (events : List XEvent),
      (jsPtVideoAbrir s (.sizes width height scale) reply).2.2 = .ok true →
      Accepts (jsPtVideoAbrir s (.sizes width height scale) reply).1 f →
      FrameExact (jsPtVideoAbrir s (.sizes width height scale) reply).1 f events width.toNat
        height.toNat (clampScale scale).toNat := by
  intro h
  have haccept : Accepts (jsPtVideoAbrir .start (.sizes 3 3 1431655766) working).1 nineFrame := by
    constructor <;> decide
  have hexact := h .start 3 3 1431655766 working nineFrame [] rfl haccept
  have hopened : OpenedAs (jsPtVideoAbrir .start (.sizes 3 3 1431655766) working).1 3 3
      (clampScale 1431655766) := ⟨⟨_, rfl, rfl⟩, rfl, rfl, rfl⟩
  obtain ⟨hwidth, -⟩ := fits_of_frameExact hopened haccept (by decide) (by decide) (by decide)
    (by decide) hexact
  revert hwidth
  decide

end GatoCore.Engine
