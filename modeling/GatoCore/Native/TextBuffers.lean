import GatoCore.Lib.Ring
import GatoCore.Native.NativeRuntime

/-!
# The text buffers of the C runtime

Source: the static arrays of `ptjs_string_char_at` and the `ptjs_identificar_*` functions of
`runtime/native_runtime.c`.

A text made at run time lives in one of a few buffers that are filled in turn. It is what it was
when it was returned only until its buffer is filled with another text.
-/

namespace GatoCore.Native

open GatoCore.Lib

/-! ## Families of buffers -/

/-- The static arrays: `slots` of `ptjs_string_char_at`, and `buffer` of the function
`ptjs_identificar_*` for a type. -/
inductive BufferFamily where
  | slots
  | buffer (type : RuntimeTy)
deriving DecidableEq

namespace BufferFamily

def size : BufferFamily → ℕ
  | .slots => 16
  | .buffer _ => 4

instance (f : BufferFamily) : NeZero f.size := by
  constructor
  cases f <;> simp [size]

def address : (f : BufferFamily) → Fin f.size → TextAddress
  | .slots => .slot
  | .buffer type => .buffer type

end BufferFamily

/-- The buffers of a family and the one that is filled next. -/
def NativeWorld.ring (w : NativeWorld) : (f : BufferFamily) → Ring f.size Bytes
  | .slots => ⟨w.slots, w.nextSlot⟩
  | .buffer type => ⟨w.buffers type, w.nextBuffer type⟩

theorem NativeWorld.read_address (w : NativeWorld) (f : BufferFamily) (i : Fin f.size) :
    w.read (f.address i) = (w.ring f).cells i := by
  cases f <;> rfl

theorem NativeWorld.ring_write (w : NativeWorld) (bytes : Bytes) (f : BufferFamily) :
    (w.write bytes).ring f = w.ring f := by
  cases f <;> rfl

/-! ## Calls -/

structure RuntimeCall where
  fn : RuntimeFn
  args : List NativeValue

/-- The call makes a new text. -/
def RuntimeCall.MakesText (c : RuntimeCall) : Prop :=
  c.fn = .stringCharAt ∨ ∃ type, c.fn = .identificar type

/-- The character `ptjs_string_char_at` finds. -/
def NativeWorld.charAt (w : NativeWorld) (v i : NativeValue) : Option Bytes := do
  let index ← wordArg i
  let bytes ← w.textArg v
  if index.toInt < 0 then none else (bytes[index.toNat]?).map fun byte => [byte]

/-- The text a call writes to a buffer of a family. -/
def RuntimeCall.written (c : RuntimeCall) (w : NativeWorld) (f : BufferFamily) : Option Bytes :=
  match f, c with
  | .slots, ⟨.stringCharAt, [v, i]⟩ => w.charAt v i
  | .buffer type, ⟨.identificar type', [v]⟩ =>
      if type' = type ∧ type ≠ .null then w.identity type v else none
  | _, _ => none

/-- The state after a run of calls that all return. -/
def runCalls : List RuntimeCall → NativeWorld → Option NativeWorld
  | [], w => some w
  | c :: cs, w => (nativeCall c.fn c.args w).bind fun r => runCalls cs r.2

/-- The texts the calls of a run write to the buffers of a family, in order. -/
def writtenTexts (f : BufferFamily) : List RuntimeCall → NativeWorld → List Bytes
  | [], _ => []
  | c :: cs, w =>
      match nativeCall c.fn c.args w with
      | none => []
      | some (_, w') => (c.written w f).toList ++ writtenTexts f cs w'

/-- What a pointer made by a call reads is, at every later moment of the run, what it read when it
was returned. -/
def TextsImmutable (calls : List RuntimeCall) (w : NativeWorld) : Prop :=
  ∀ pre c mid post, calls = pre ++ c :: (mid ++ post) → c.MakesText →
    ∀ w₁ address w₂ w₃, runCalls pre w = some w₁ →
      nativeCall c.fn c.args w₁ = some (.text address, w₂) → runCalls mid w₂ = some w₃ →
      w₃.read address = w₂.read address

/-! ## One call -/

section Step

variable {c : RuntimeCall} {w w' : NativeWorld} {v : NativeValue}

theorem NativeWorld.ring_pushSlot (w : NativeWorld) (bytes : Bytes) (f : BufferFamily) :
    (w.pushSlot bytes).2.ring f =
      match f with
      | .slots => (w.ring .slots).push bytes
      | .buffer type => w.ring (.buffer type) := by
  cases f <;> rfl

theorem NativeWorld.ring_pushBuffer (w : NativeWorld) (type : RuntimeTy) (bytes : Bytes)
    (f : BufferFamily) :
    (w.pushBuffer type bytes).2.ring f =
      match f with
      | .slots => w.ring .slots
      | .buffer type' =>
          if type = type' then (w.ring (.buffer type')).push bytes else w.ring (.buffer type') := by
  cases f with
  | slots => rfl
  | buffer type' =>
      by_cases h : type = type'
      · subst h
        simp only [NativeWorld.ring, NativeWorld.pushBuffer, Ring.push,
          Function.update_self, if_true]
        rfl
      · have hne : type' ≠ type := fun heq => h heq.symm
        simp [NativeWorld.ring, NativeWorld.pushBuffer, h, hne]

/-- A call to `ptjs_string_char_at` fills the next slot when it finds a character. -/
theorem nativeStringCharAt_eq {a i : NativeValue}
    (h : nativeStringCharAt a i w = some (v, w')) :
    (∃ bytes, w.charAt a i = some bytes ∧ v = .text (.slot w.nextSlot) ∧
      w' = (w.pushSlot bytes).2) ∨
      (w.charAt a i = none ∧ v = .text (.rodata []) ∧ w' = w) := by
  unfold nativeStringCharAt at h
  unfold NativeWorld.charAt
  cases hi : wordArg i with
  | none => simp [hi] at h
  | some index =>
      cases ht : w.textArg a with
      | none => simp [hi, ht] at h
      | some bytes =>
          simp only [hi, ht, Option.bind_eq_bind, Option.bind_some] at h ⊢
          by_cases hneg : index.toInt < 0
          · rw [if_pos hneg] at h
            cases h
            exact .inr ⟨if_pos hneg, rfl, rfl⟩
          · rw [if_neg hneg] at h
            cases hbyte : bytes[index.toNat]? with
            | none =>
                rw [hbyte] at h
                cases h
                exact .inr ⟨by simp [hneg], rfl, rfl⟩
            | some byte =>
                rw [hbyte] at h
                cases h
                exact .inl ⟨[byte], by simp [hneg], rfl, rfl⟩

/-- A call to `ptjs_identificar_*` fills the next buffer of its type, but for the null value. -/
theorem nativeIdentificar_eq {a : NativeValue} {type : RuntimeTy}
    (h : nativeIdentificar type a w = some (v, w')) :
    ∃ bytes, w.identity type a = some bytes ∧
      ((type ≠ .null ∧ v = .text (.buffer type (w.nextBuffer type)) ∧
          w' = (w.pushBuffer type bytes).2) ∨
        (type = .null ∧ v = .text (.rodata bytes) ∧ w' = w)) := by
  unfold nativeIdentificar at h
  cases hid : w.identity type a with
  | none => simp [hid] at h
  | some bytes =>
      simp only [hid, Option.bind_eq_bind, Option.bind_some] at h
      refine ⟨bytes, rfl, ?_⟩
      by_cases htype : type = .null
      · rw [if_pos htype] at h
        cases h
        exact .inr ⟨htype, rfl, rfl⟩
      · rw [if_neg htype] at h
        cases h
        exact .inl ⟨htype, rfl, rfl⟩

/-- A call that makes a text fills the next buffer of one family and returns it, or returns a
constant and fills none. -/
theorem nativeCall_makesText (hc : c.MakesText) (h : nativeCall c.fn c.args w = some (v, w')) :
    (∃ f bytes, c.written w f = some bytes ∧ v = .text (f.address (w.ring f).next) ∧
        w'.ring f = (w.ring f).push bytes ∧
        ∀ g, g ≠ f → c.written w g = none ∧ w'.ring g = w.ring g) ∨
      ((∀ g, c.written w g = none) ∧ (∃ bytes, v = .text (.rodata bytes)) ∧ w' = w) := by
  obtain ⟨fn, args⟩ := c
  obtain rfl | ⟨type, rfl⟩ := hc
  · rcases args with _ | ⟨a, _ | ⟨i, _ | _⟩⟩ <;> try cases h
    obtain ⟨bytes, hchar, rfl, rfl⟩ | ⟨hchar, rfl, rfl⟩ := nativeStringCharAt_eq h
    · refine .inl ⟨.slots, bytes, hchar, rfl, w.ring_pushSlot bytes .slots, fun g hg => ?_⟩
      cases g with
      | slots => exact absurd rfl hg
      | buffer type => exact ⟨rfl, w.ring_pushSlot bytes (.buffer type)⟩
    · refine .inr ⟨fun g => ?_, ⟨[], rfl⟩, rfl⟩
      cases g with
      | slots => exact hchar
      | buffer type => rfl
  · rcases args with _ | ⟨a, _ | _⟩ <;> try cases h
    obtain ⟨bytes, hid, ⟨htype, rfl, rfl⟩ | ⟨rfl, rfl, rfl⟩⟩ := nativeIdentificar_eq h
    · refine .inl ⟨.buffer type, bytes, ?_, rfl, ?_, fun g hg => ?_⟩
      · simp [RuntimeCall.written, htype, hid]
      · rw [w.ring_pushBuffer type bytes (.buffer type)]
        simp
      · rw [w.ring_pushBuffer type bytes g]
        cases g with
        | slots => exact ⟨rfl, rfl⟩
        | buffer type' =>
            have hne : type ≠ type' := fun heq => hg (by rw [heq])
            simp [RuntimeCall.written, hne]
    · refine .inr ⟨fun g => ?_, ⟨bytes, rfl⟩, rfl⟩
      cases g with
      | slots => rfl
      | buffer type' =>
          by_cases htype : RuntimeTy.null = type'
          · subst htype
            simp [RuntimeCall.written]
          · simp [RuntimeCall.written, htype]

/-- The functions that make no text leave the buffers alone. -/
theorem ring_eq_of_not_makesText (hc : ¬ c.MakesText) (h : nativeCall c.fn c.args w = some (v, w'))
    (f : BufferFamily) : w'.ring f = w.ring f := by
  obtain ⟨fn, args⟩ := c
  cases fn with
  | print type =>
      rcases args with _ | ⟨a, _ | _⟩ <;> try cases h
      obtain ⟨bytes, -, heq⟩ := Option.bind_eq_some_iff.mp h
      cases heq
      exact NativeWorld.ring_write w _ f
  | observar type =>
      rcases args with _ | ⟨a, _ | _⟩ <;> try cases h
      obtain ⟨bytes, -, h⟩ := Option.bind_eq_some_iff.mp h
      obtain ⟨result, -, heq⟩ := Option.bind_eq_some_iff.mp h
      cases heq
      exact NativeWorld.ring_write w _ f
  | identificar type => exact absurd (.inr ⟨type, rfl⟩) hc
  | strlen =>
      rcases args with _ | ⟨a, _ | _⟩ <;> try cases h
      obtain ⟨bytes, -, heq⟩ := Option.map_eq_some_iff.mp h
      cases heq
      rfl
  | arrayLen =>
      rcases args with _ | ⟨a, _ | _⟩ <;> try cases h
      obtain ⟨list, -, heq⟩ := Option.map_eq_some_iff.mp h
      cases list <;> cases heq <;> rfl
  | arrayGetI64 =>
      rcases args with _ | ⟨a, _ | ⟨i, _ | _⟩⟩ <;> try cases h
      obtain ⟨r, -, heq⟩ := Option.map_eq_some_iff.mp h
      cases heq
      rfl
  | arrayGetPtr =>
      rcases args with _ | ⟨a, _ | ⟨i, _ | _⟩⟩ <;> try cases h
      obtain ⟨r, -, heq⟩ := Option.map_eq_some_iff.mp h
      cases heq
      rfl
  | stringCharAt => exact absurd (.inl rfl) hc

theorem written_eq_none (hc : ¬ c.MakesText) (f : BufferFamily) : c.written w f = none := by
  unfold RuntimeCall.written
  split
  · exact absurd (.inl rfl) hc
  · exact absurd (.inr ⟨_, rfl⟩) hc
  · rfl

/-- What a call does to the buffers of a family: it fills the next one with the text it writes. -/
theorem ring_nativeCall (h : nativeCall c.fn c.args w = some (v, w')) (f : BufferFamily) :
    w'.ring f = (w.ring f).pushAll (c.written w f).toList := by
  by_cases hc : c.MakesText
  · obtain ⟨g, bytes, hwritten, -, hring, hrest⟩ | ⟨hnone, -, rfl⟩ := nativeCall_makesText hc h
    · by_cases hg : f = g
      · subst hg
        rw [hwritten, hring]
        rfl
      · rw [(hrest f hg).1, (hrest f hg).2]
        rfl
    · rw [hnone f]
      rfl
  · rw [ring_eq_of_not_makesText hc h, written_eq_none hc]
    rfl

/-- A call that writes a text returns the buffer it writes to. -/
theorem eq_address_of_written {f : BufferFamily} {bytes : Bytes} (hw : c.written w f = some bytes)
    (h : nativeCall c.fn c.args w = some (v, w')) :
    c.MakesText ∧ v = .text (f.address (w.ring f).next) := by
  by_cases hc : c.MakesText
  · obtain ⟨g, bytes', -, hv, -, hrest⟩ | ⟨hnone, -⟩ := nativeCall_makesText hc h
    · by_cases hg : f = g
      · subst hg
        exact ⟨hc, hv⟩
      · rw [(hrest f hg).1] at hw
        cases hw
    · rw [hnone f] at hw
      cases hw
  · rw [written_eq_none hc] at hw
    cases hw

end Step

/-! ## Runs -/

section Runs

variable {f : BufferFamily} {calls p q : List RuntimeCall} {w w' : NativeWorld}

theorem runCalls_cons {c : RuntimeCall} {cs : List RuntimeCall} :
    runCalls (c :: cs) w = some w' ↔
      ∃ v w₁, nativeCall c.fn c.args w = some (v, w₁) ∧ runCalls cs w₁ = some w' := by
  rw [runCalls, Option.bind_eq_some_iff]
  exact Prod.exists

theorem runCalls_append {w₁ : NativeWorld} (hp : runCalls p w = some w₁) :
    runCalls (p ++ q) w = runCalls q w₁ := by
  induction p generalizing w with
  | nil =>
      cases hp
      rfl
  | cons c p ih =>
      obtain ⟨v, w₂, hc, hp⟩ := runCalls_cons.mp hp
      rw [List.cons_append, runCalls, hc]
      exact ih hp

theorem writtenTexts_cons {c : RuntimeCall} {cs : List RuntimeCall} {v : NativeValue}
    {w₁ : NativeWorld} (hc : nativeCall c.fn c.args w = some (v, w₁)) :
    writtenTexts f (c :: cs) w = (c.written w f).toList ++ writtenTexts f cs w₁ := by
  rw [writtenTexts, hc]

theorem writtenTexts_append {w₁ : NativeWorld} (hp : runCalls p w = some w₁) :
    writtenTexts f (p ++ q) w = writtenTexts f p w ++ writtenTexts f q w₁ := by
  induction p generalizing w with
  | nil =>
      cases hp
      rfl
  | cons c p ih =>
      obtain ⟨v, w₂, hc, hp⟩ := runCalls_cons.mp hp
      rw [List.cons_append, writtenTexts_cons hc, writtenTexts_cons hc, ih hp, List.append_assoc]

/-- The buffers of a family after a run: its texts were pushed in order. -/
theorem ring_runCalls (h : runCalls calls w = some w') (f : BufferFamily) :
    w'.ring f = (w.ring f).pushAll (writtenTexts f calls w) := by
  induction calls generalizing w with
  | nil =>
      cases h
      rfl
  | cons c cs ih =>
      obtain ⟨v, w₁, hc, hcs⟩ := runCalls_cons.mp h
      rw [ih hcs, ring_nativeCall hc, writtenTexts_cons hc, Ring.pushAll_append]

/-- The call that writes a text of a run. -/
theorem exists_call_of_writtenTexts {pre rest : List Bytes} {x : Bytes}
    (h : writtenTexts f calls w = pre ++ x :: rest) :
    ∃ p c q w₁ v w₂, calls = p ++ c :: q ∧ runCalls p w = some w₁ ∧ writtenTexts f p w = pre ∧
      c.written w₁ f = some x ∧ nativeCall c.fn c.args w₁ = some (v, w₂) ∧
      writtenTexts f q w₂ = rest := by
  induction calls generalizing w pre with
  | nil => exact absurd h.symm (List.append_ne_nil_of_right_ne_nil pre (List.cons_ne_nil x rest))
  | cons c cs ih =>
      rcases hc : nativeCall c.fn c.args w with _ | ⟨v, w₁⟩
      · rw [writtenTexts, hc] at h
        exact absurd h.symm (List.append_ne_nil_of_right_ne_nil pre (List.cons_ne_nil x rest))
      · rw [writtenTexts_cons hc] at h
        -- the text is that of the first call, or of one after it
        cases hx : c.written w f with
        | none =>
            rw [hx] at h
            obtain ⟨p, c', q, w₂, v', w₃, rfl, hp, hpre, hrest⟩ := ih h
            refine ⟨c :: p, c', q, w₂, v', w₃, rfl, runCalls_cons.mpr ⟨v, w₁, hc, hp⟩, ?_, hrest⟩
            rw [writtenTexts_cons hc, hx, hpre]
            rfl
        | some y =>
            rw [hx] at h
            cases pre with
            | nil =>
                simp only [Option.toList_some, List.singleton_append, List.nil_append,
                  List.cons.injEq] at h
                obtain ⟨rfl, hrest⟩ := h
                exact ⟨[], c, cs, w, v, w₁, rfl, rfl, rfl, hx, hc, hrest⟩
            | cons z pre =>
                simp only [Option.toList_some, List.cons_append, List.cons.injEq] at h
                obtain ⟨rfl, h⟩ := h
                obtain ⟨p, c', q, w₂, v', w₃, rfl, hp, hpre, hrest⟩ := ih h
                refine ⟨c :: p, c', q, w₂, v', w₃, rfl, runCalls_cons.mpr ⟨v, w₁, hc, hp⟩, ?_,
                  hrest⟩
                rw [writtenTexts_cons hc, hx, hpre]
                rfl

/-- The part of a run that writes the first texts. -/
theorem exists_prefix_of_writtenTexts {mid post : List Bytes}
    (h : writtenTexts f calls w = mid ++ post) :
    ∃ p q w₁, calls = p ++ q ∧ runCalls p w = some w₁ ∧ writtenTexts f p w = mid := by
  rcases mid.eq_nil_or_concat with rfl | ⟨mid, y, rfl⟩
  · exact ⟨[], calls, w, rfl, rfl, rfl⟩
  · rw [List.concat_eq_append, List.append_assoc, List.singleton_append] at h
    obtain ⟨p, c, q, w₁, v, w₂, rfl, hp, hmid, hy, hc, -⟩ := exists_call_of_writtenTexts h
    refine ⟨p ++ [c], q, w₂, by simp, ?_, ?_⟩
    · rw [runCalls_append hp]
      exact runCalls_cons.mpr ⟨v, w₂, hc, rfl⟩
    · rw [writtenTexts_append hp, hmid]
      rw [writtenTexts_cons hc, hy, List.concat_eq_append]
      rfl

/-- Immutable texts are those that stay in the buffers they were written to. -/
theorem textsImmutable_iff_kept (calls : List RuntimeCall) (w : NativeWorld) :
    TextsImmutable calls w ↔ ∀ f, (w.ring f).Kept (writtenTexts f calls w) := by
  constructor
  · rintro h f pre x mid post htexts
    obtain ⟨p, c, q, w₁, v, w₂, rfl, hp, rfl, hx, hc, hq⟩ := exists_call_of_writtenTexts htexts
    obtain ⟨m, q, w₃, rfl, hm, rfl⟩ := exists_prefix_of_writtenTexts hq
    obtain ⟨htext, rfl⟩ := eq_address_of_written hx hc
    have hread := h p c m q rfl htext w₁ _ w₂ w₃ hp hc hm
    rw [NativeWorld.read_address, NativeWorld.read_address, ring_runCalls hm, ring_nativeCall hc,
      ring_runCalls hp, hx] at hread
    rw [Ring.pushAll_append]
    exact hread.trans (Ring.push_cells_next _ x)
  · rintro h p c m q rfl htext w₁ address w₂ w₃ hp hc hm
    obtain ⟨f, x, hx, hv, hring, -⟩ | ⟨-, ⟨bytes, hv⟩, -⟩ := nativeCall_makesText htext hc
    · cases hv
      have htexts : writtenTexts f (p ++ c :: (m ++ q)) w = writtenTexts f p w ++
          x :: (writtenTexts f m w₂ ++ writtenTexts f q w₃) := by
        rw [writtenTexts_append hp]
        rw [writtenTexts_cons hc, hx, writtenTexts_append hm]
        rfl
      have hkept := h f _ _ _ _ htexts
      rw [Ring.pushAll_append, ← ring_runCalls hp, Ring.pushAll_cons, ← hring, ← ring_runCalls hm]
        at hkept
      rw [NativeWorld.read_address, NativeWorld.read_address, hkept, hring, Ring.push_cells_next]
    · cases hv
      rfl

/-- The texts of a run are immutable exactly when each function that makes texts writes the same
one whenever it comes back to a buffer. -/
theorem textsImmutable_iff (calls : List RuntimeCall) (w : NativeWorld) :
    TextsImmutable calls w ↔ ∀ f : BufferFamily, Ring.Periodic f.size (writtenTexts f calls w) := by
  rw [textsImmutable_iff_kept]
  exact forall_congr' fun f => (w.ring f).kept_iff_periodic _

end Runs

/-- The calls a loop over the characters of `aaaaaaaaaaaaaaaab` makes. -/
def seventeenChars : List RuntimeCall :=
  (List.range 17).map fun i =>
    ⟨.stringCharAt, [.text (.rodata (List.replicate 16 97 ++ [98])), .word (BitVec.ofNat 64 i)]⟩

/-- The first character a loop finds is another one after sixteen more. -/
theorem seventeenChars_not_immutable :
    ¬ TextsImmutable seventeenChars NativeWorld.initial := by
  intro h
  have hperiodic := ((textsImmutable_iff_kept _ _).mp h .slots).periodic 0 [97] [98]
  exact absurd (hperiodic (by decide) (by decide)) (by decide)

end GatoCore.Native
