import GatoCore.Gatod.Util
import GatoCore.Lib.Increasing
import GatoCore.Lib.Json
import GatoCore.Stdlib.Numbers
import Mathlib.Algebra.Order.Ring.Rat
import Mathlib.Algebra.Order.Floor.Defs
import Mathlib.Data.Rat.Floor

/-!
# The timeline of the editor

Source: `selectedTimelineTrack`, `selectedTimelineKey`, `syncTimelineMetadata`, `sampleTrackValue`,
`cycleTimelineKey`, `moveTimelineKey`, `addTimelineKey`, `removeTimelineKey`, `moveCursor`,
`syncSelectionsFromCursors` and `step` of `samples/gatod_engine/src/engine/api.ptjs`, and
`handlePanelPointer` and `handleTimelineContextPointer` of
`samples/gatod_engine/src/editor/runtime.ptjs`, as far as they read or change the first animation,
the timeline and its editor.

`fl` rounds the result of an addition, a subtraction, a multiplication or a division to a
floating-point number; what it rounds is exact. A sum too large for a frame is one that is clamped.
A key is an array that its track owns: `indexOf` finds it by its identity. `plugin_editor` does not
keep the field `comportamento` of its argument, so that no plugin reacts to an event.
-/

namespace GatoCore.Gatod

open GatoCore.Lib GatoCore.Stdlib

structure Key where
  frame : ℚ
  value : ℚ
  deriving DecidableEq

structure Track where
  node_id : Json ℚ
  node_name : Json ℚ
  property : List Char
  keys : List Key

/-- `animator.animacoes[0].trilhas`, `timeline`, `timeline_editor` and `panel_cursor.timeline`. -/
structure Timeline where
  trilhas : List Track
  cursor : ℚ
  reproduzindo : Bool
  duracao_frames : ℚ
  track_index : ℕ
  key_index : ℕ
  panel_cursor : ℕ
  duracao_pos : 0 < duracao_frames

/-- The name of the node with an id, where there is one. -/
abbrev NodeNames := Json ℚ → Option (Json ℚ)

/-! ## Keys in order -/

/-- `keys.sort` by frames; the sort is stable. -/
def sortKeys (keys : List Key) : List Key := sortBy Key.frame keys

/-- The index after the sort of the key that was at `i`. -/
def sortedIndex (keys : List Key) (i : ℕ) : ℕ :=
  (sortBy (fun a => a.1.frame) keys.zipIdx).findIdx fun a => a.2 = i

/-- `Math.round`. -/
def mathRound (x : ℚ) : ℚ := ⌊x + 1 / 2⌋

/-- `a % b`, for a positive `b`. -/
def jsMod (a b : ℚ) : ℚ := if 0 ≤ a then a - b * ⌊a / b⌋ else a - b * ⌈a / b⌉

section Sample

variable (fl : ℚ → ℚ)

/-- The loop of `sampleTrackValue`. -/
def sampleFrom (frame : ℚ) : Key → List Key → ℚ
  | a, [] => a.value
  | a, b :: keys =>
      if frame ≤ b.frame then
        let span := max 1 (fl (b.frame - a.frame))
        let t := fl (fl (frame - a.frame) / span)
        fl (a.value + fl (fl (b.value - a.value) * t))
      else sampleFrom frame b keys

def sampleTrackValue (keys : List Key) (frame : ℚ) : ℚ :=
  match keys with
  | [] => 0
  | key :: keys => if frame ≤ key.frame then key.value else sampleFrom fl frame key keys

end Sample

namespace Timeline

/-! ## Selection -/

/-- What `selectedTimelineTrack` does to the index. -/
def clampTrack (s : Timeline) : Timeline :=
  { s with track_index := min s.track_index (s.trilhas.length - 1) }

def selectedTimelineTrack (s : Timeline) : Option Track :=
  s.clampTrack.trilhas[s.clampTrack.track_index]?

/-- What `selectedTimelineKey` does to the index, for a track with keys. -/
def clampKey (s : Timeline) (keys : List Key) : Timeline :=
  { s with key_index := min s.key_index (keys.length - 1) }

/-- The selected track with other keys. -/
def setKeys (s : Timeline) (track : Track) (keys : List Key) : Timeline :=
  { s with trilhas := s.trilhas.set s.track_index { track with keys := keys } }

/-! ## Metadata -/

def syncTrack (nome : NodeNames) (track : Track) : Track :=
  { track with
    node_name := (nome track.node_id).getD (track.node_name.or (.text "sem_no".toList))
    keys := sortKeys track.keys }

def syncTimelineMetadata (nome : NodeNames) (s : Timeline) : Timeline :=
  { s with trilhas := s.trilhas.map (syncTrack nome) }

/-! ## Editing -/

def cycleTimelineKey (delta : ℤ) (s : Timeline) : Timeline :=
  match s.selectedTimelineTrack with
  | none => s
  | some track =>
      if track.keys = [] then s.clampTrack
      else
        { s.clampTrack with
          key_index := clampIndex
            (((s.key_index : ℤ) + delta + track.keys.length).tmod track.keys.length)
            (track.keys.length - 1) }

section Frames

variable (fl : ℚ → ℚ)

/-- The last frame of an animation. -/
def lastFrame (duracao_frames : ℚ) : ℚ := fl (duracao_frames - 1)

/-- The lowest frame the key at `i` may move to. -/
def minFrame (keys : List Key) (i : ℕ) : ℚ :=
  if 0 < i then (keys[i - 1]?.map fun k => fl (k.frame + 1)).getD 0 else 0

/-- The highest frame the key at `i` may move to. -/
def maxFrame (keys : List Key) (i : ℕ) (duracao_frames : ℚ) : ℚ :=
  (keys[i + 1]?.map fun k => fl (k.frame - 1)).getD (max 0 (lastFrame fl duracao_frames))

/-- `clamp(frame + delta, min, max)`; there is no frame when that is not a number. -/
def clampFrame (frame min max : ℚ) : JsNumber → Option ℚ
  | .nan => none
  | .infinity negative => some (if negative then min else Max.max min max)
  | .finite delta => some (Max.max min (Min.min max (fl (frame + delta))))

end Frames

/-- There is no outcome when the frame of the key is no number afterwards. -/
def moveTimelineKey (fl : ℚ → ℚ) (delta : JsNumber) (s : Timeline) : Option (Timeline × Bool) :=
  match s.selectedTimelineTrack with
  | none => some (s, false)
  | some track =>
      let s := s.clampTrack
      if track.keys = [] then some (s, false)
      else
        let s := s.clampKey track.keys
        match track.keys[s.key_index]? with
        | none => some (s, false)
        | some key =>
            (clampFrame fl key.frame (minFrame fl track.keys s.key_index)
              (maxFrame fl track.keys s.key_index s.duracao_frames) delta).map fun frame =>
                let keys := track.keys.set s.key_index { key with frame := frame }
                ({ s.setKeys track (sortKeys keys) with
                    key_index := sortedIndex keys s.key_index }, true)

def addTimelineKey (fl : ℚ → ℚ) (s : Timeline) : Timeline × Bool :=
  match s.selectedTimelineTrack with
  | none => (s, false)
  | some track =>
      let s := s.clampTrack
      let value := mathRound (sampleTrackValue fl track.keys s.cursor)
      let keys := track.keys ++ [⟨s.cursor, value⟩]
      ({ s.setKeys track (sortKeys keys) with
          key_index := sortedIndex keys track.keys.length }, true)

def removeTimelineKey (s : Timeline) : Timeline × Bool :=
  match s.selectedTimelineTrack with
  | none => (s, false)
  | some track =>
      let s := s.clampTrack
      if track.keys.length ≤ 1 then (s, false)
      else
        let keys := track.keys.eraseIdx s.key_index
        ({ s.setKeys track keys with key_index := min s.key_index (keys.length - 1) }, true)

/-! ## Cursors -/

/-- `moveCursor` of the panel of the timeline. -/
def moveCursor (delta : ℤ) (size : ℕ) (s : Timeline) : Timeline :=
  { s with
    panel_cursor := clampIndex (s.panel_cursor + delta) (size - 1)
    track_index := clampIndex (s.panel_cursor + delta) (size - 1) - 1 }

/-- The part of `syncSelectionsFromCursors`. -/
def syncSelectionsFromCursors (s : Timeline) : Timeline :=
  if s.trilhas.length = 0 then s
  else
    { s with
      panel_cursor := min s.panel_cursor s.trilhas.length
      track_index := min s.panel_cursor s.trilhas.length - 1 }

/-- A click into the panel of the timeline. -/
def handlePanelPointer (row : ℕ) (s : Timeline) : Timeline :=
  { s with panel_cursor := row }.syncSelectionsFromCursors

/-- A click at a key of the selected track, where it has one. -/
def handleTimelineContextPointer (best : ℕ) (s : Timeline) : Timeline :=
  match s.selectedTimelineTrack with
  | none => s
  | some track =>
      match track.keys[best]? with
      | none => s.clampTrack
      | some key => { s.clampTrack with key_index := best, cursor := key.frame }

def toggle (s : Timeline) : Timeline := { s with reproduzindo := !s.reproduzindo }

/-- The part of `step`. -/
def step (fl : ℚ → ℚ) (nome : NodeNames) (s : Timeline) : Timeline :=
  let s := s.syncSelectionsFromCursors.syncTimelineMetadata nome
  if s.reproduzindo then { s with cursor := jsMod (fl (s.cursor + 1)) s.duracao_frames } else s

end Timeline

/-! ## Runs -/

/-- `step` and `sync` read the names of the nodes at their time. -/
inductive TimelineEvent where
  | add
  | move (delta : JsNumber)
  | remove
  | cycle (delta : ℤ)
  | cursor (delta : ℤ) (size : ℕ)
  | row (row : ℕ)
  | key (best : ℕ)
  | toggle
  | step (nome : NodeNames)
  | sync (nome : NodeNames)

section Runs

variable (fl : ℚ → ℚ)

/-- The timeline after an event, with what an edit returns. -/
def timelineEvent (s : Timeline) : TimelineEvent → Option (Timeline × Bool)
  | .add => some (s.addTimelineKey fl)
  | .move delta => s.moveTimelineKey fl delta
  | .remove => some s.removeTimelineKey
  | .cycle delta => some (s.cycleTimelineKey delta, false)
  | .cursor delta size => some (s.moveCursor delta size, false)
  | .row row => some (s.handlePanelPointer row, false)
  | .key best => some (s.handleTimelineContextPointer best, false)
  | .toggle => some (s.toggle, false)
  | .step nome => some (s.step fl nome, false)
  | .sync nome => some (s.syncTimelineMetadata nome, false)

def timelineRun (s : Timeline) : List TimelineEvent → Option Timeline
  | [] => some s
  | e :: events => (timelineEvent fl s e).bind fun next => timelineRun next.1 events

end Runs

/-- The timeline of `createProject`. -/
def defaultTimeline : Timeline where
  trilhas :=
    [{ node_id := .null, node_name := .text "Enemy".toList, property := "x".toList
       keys := [⟨0, 220⟩, ⟨60, 260⟩, ⟨119, 220⟩] }]
  cursor := 0
  reproduzindo := true
  duracao_frames := 120
  track_index := 0
  key_index := 0
  panel_cursor := 0
  duracao_pos := by decide

end GatoCore.Gatod
