import GatoCore.Engine.Video
import GatoCore.Lib.Lists

/-!
# The life of a window

The handles that are open are those the variables hold, as long as no window is opened while the
handles of one that an event has ended are still held.
-/

namespace GatoCore.Engine

open GatoCore.Lib

/-! ## Handles held -/

namespace VideoState

/-- The handles in the variables. -/
def handles (s : VideoState) : List Handle :=
  s.display.toList.map .display ++ s.window.toList.map .window ++ s.gc.toList.map .gc ++
    s.image.toList.map .image

def pool (s : VideoState) : Pool Handle := ⟨s.handles, s.created⟩

/-- No handle is held. -/
structure Closed (s : VideoState) : Prop where
  display : s.display = none
  window : s.window = none
  gc : s.gc = none
  image : s.image = none
  active : s.active = false

/-- All four handles are held. -/
structure Opened (s : VideoState) : Prop where
  display : s.display.isSome = true
  window : s.window.isSome = true
  gc : s.gc.isSome = true
  image : s.image.isSome = true
  loaded : s.loaded = true

/-- Between two calls all handles are held or none is. -/
def Settled (s : VideoState) : Prop := s.Closed ∨ s.Opened

/-- An event has ended the window, and its handles are held. -/
def Abandoned (s : VideoState) : Prop := s.display.isSome = true ∧ s.active = false

end VideoState

/-- The calls do to the handles what the change of the variables says. -/
def Accounted (s : VideoState) (calls : List XCall) (s' : VideoState) : Prop :=
  s.pool.run Handle.number Handle.isDisplay (calls.flatMap XCall.actions) = some s'.pool

namespace Accounted

variable {s s' s'' : VideoState} {calls calls' : List XCall}

theorem refl {s s' : VideoState} (h : s.pool = s'.pool) : Accounted s [] s' := by
  rw [Accounted, h]
  rfl

theorem append (h : Accounted s calls s') (h' : Accounted s' calls' s'') :
    Accounted s (calls ++ calls') s'' := by
  rw [Accounted, List.flatMap_append, Pool.run_append, h]
  exact h'

theorem cons {call : XCall} (h : Accounted s [call] s') (h' : Accounted s' calls s'') :
    Accounted s (call :: calls) s'' := append h h'

/-- A call that is given handles that are held. -/
theorem plain {name : String} {args : List Handle} (h : ∀ k ∈ args, k ∈ s.handles) :
    Accounted s [.plain name args] s := by
  have huse : ∀ args : List Handle, (∀ k ∈ args, k ∈ s.handles) →
      s.pool.run Handle.number Handle.isDisplay (args.map .use) = some s.pool := by
    intro args h
    induction args with
    | nil => rfl
    | cons k args ih =>
        rw [List.map_cons, Pool.run_cons, Pool.step]
        rw [if_pos (show k ∈ s.pool.live from h k (List.mem_cons_self ..))]
        exact ih fun k' hk' => h k' (List.mem_cons_of_mem _ hk')
  simpa [Accounted, XCall.actions, XCall.plain] using huse args h

theorem making {name : String} {args : List Handle} {k : Handle} (h : ∀ k ∈ args, k ∈ s.handles)
    (hnumber : k.number = s.created)
    (hexcl : k.isDisplay = true → ∀ k' ∈ s.handles, k'.isDisplay = false)
    (hhandles : s'.handles = s.handles ++ [k]) (hcreated : s'.created = s.created + 1) :
    Accounted s [.making name args k] s' := by
  have hargs : Accounted s [.plain name args] s := plain h
  rw [Accounted] at hargs ⊢
  simp only [List.flatMap_cons, List.flatMap_nil, XCall.actions, XCall.plain, XCall.making,
    Option.toList_none, Option.toList_some, List.map_nil, List.map_cons, List.append_nil] at hargs ⊢
  rw [Pool.run_append, hargs, Option.bind_some, Pool.run_cons, Pool.step]
  rw [if_pos ⟨hnumber, hexcl⟩, Option.bind_some, Pool.run_nil]
  show some (⟨s.handles ++ [k], s.created + 1⟩ : Pool Handle) = some ⟨s'.handles, s'.created⟩
  rw [hhandles, hcreated]

end Accounted

/-! ## Closing and opening -/

section Close

variable {s : VideoState} (h : s.display = none → s.window = none ∧ s.gc = none)
include h

theorem closed_close : (jsPtVideoClose s).1.Closed := by
  refine ⟨rfl, ?_, ?_, rfl, rfl⟩
  · cases hd : s.display with
    | none => simp [jsPtVideoClose, hd, (h hd).1]
    | some d => simp [jsPtVideoClose, hd]
  · cases hd : s.display with
    | none => simp [jsPtVideoClose, hd, (h hd).2]
    | some d => simp [jsPtVideoClose, hd]

/-- Closing releases the handles that are held. -/
theorem accounted_close : Accounted s (jsPtVideoClose s).2 (jsPtVideoClose s).1 := by
  rw [Accounted, VideoState.pool, VideoState.pool, VideoState.handles, VideoState.handles]
  cases hd : s.display with
  | none =>
      obtain ⟨hw, hg⟩ := h hd
      cases hi : s.image <;>
        simp [jsPtVideoClose, XCall.actions, XCall.releasing, Pool.step, hd, hw, hg, hi]
  | some d =>
      cases hw : s.window <;> cases hg : s.gc <;> cases hi : s.image <;>
        simp [jsPtVideoClose, XCall.actions, XCall.releasing, Pool.step, hd, hw, hg, hi]

theorem accounted_failOpening {calls : List XCall} (hcalls : Accounted s calls s)
    (message : String) :
    Accounted s (failOpening s calls message).2.1 (failOpening s calls message).1 ∧
      (failOpening s calls message).1.Closed := by
  have hclose := accounted_close (s := s.setError message) h
  exact ⟨hcalls.append hclose, closed_close (s := s.setError message) h⟩

end Close

/-- What an opening does to the handles. -/
def Opens (s : VideoState) (opened : VideoState × List XCall × Bool) : Prop :=
  Accounted s opened.2.1 opened.1 ∧ opened.1.Settled

theorem opens_failOpening {s : VideoState} (h : s.display = none → s.window = none ∧ s.gc = none)
    {calls : List XCall} (hcalls : Accounted s calls s) (message : String) :
    Opens s (failOpening s calls message) := by
  obtain ⟨hacc, hclosed⟩ := accounted_failOpening h hcalls message
  exact ⟨hacc, Or.inl hclosed⟩

section Opening

variable {s : VideoState} {d w g : ℕ} {width height scale : BitVec 32} {reply : OpenReply}
variable (hloaded : s.loaded = true) (hd : s.display = some d)
include hloaded hd

theorem opens_image (hw : s.window = some w) (hg : s.gc = some g) (hi : s.image = none) :
    Opens s (openImage s d reply) := by
  have hmem : ∀ k ∈ [Handle.display d], k ∈ s.handles := by
    simp [VideoState.handles, hd]
  rw [openImage]
  split
  · refine ⟨(Accounted.making hmem rfl (by simp [Handle.isDisplay]) ?_ rfl).cons
      (Accounted.plain ?_), Or.inr ?_⟩
    · simp [VideoState.handles, hi]
    · simp [VideoState.handles, hd]
    · constructor <;> simp [hd, hw, hg, hloaded]
  · exact opens_failOpening (by simp [hd]) (Accounted.plain hmem) _

theorem opens_buffer (hw : s.window = some w) (hg : s.gc = some g) (hi : s.image = none) :
    Opens s (openBuffer s d width height scale reply) := by
  rw [openBuffer]
  split
  · exact opens_image (s := { s with
      width := width, height := height, scale := scale,
      image_data := some ⟨frameBytes width height scale, fun _ => 0⟩ }) hloaded hd hw hg hi
  · exact opens_failOpening (s := { s with width := width, height := height, scale := scale })
      (by simp [hd]) (Accounted.refl rfl) _

theorem opens_gc (hw : s.window = some w) (hg : s.gc = none) (hi : s.image = none) :
    Opens s (openGC s d w width height scale reply) := by
  have hmem : ∀ k ∈ [Handle.display d, .window w], k ∈ s.handles := by
    simp [VideoState.handles, hd, hw]
  rw [openGC]
  split
  · obtain ⟨hacc, hsettled⟩ : Opens { s with gc := some s.created, created := s.created + 1 }
        (openBuffer { s with gc := some s.created, created := s.created + 1 } d width height scale
          reply) := opens_buffer hloaded hd hw rfl hi
    refine ⟨(Accounted.making hmem rfl (by simp [Handle.isDisplay]) ?_ rfl).cons hacc, hsettled⟩
    simp [VideoState.handles, hg, hi]
  · have hsame : { s with gc := none } = s := by rw [← hg]
    rw [hsame]
    exact opens_failOpening (by simp [hd]) (Accounted.plain hmem) _

theorem opens_window (hw : s.window = none) (hg : s.gc = none) (hi : s.image = none) :
    Opens s (openWindow s d width height scale reply) := by
  have hmem : ∀ k ∈ [Handle.display d], k ∈ s.handles := by
    simp [VideoState.handles, hd]
  rw [openWindow]
  split
  · obtain ⟨hacc, hsettled⟩ : Opens { s with window := some s.created, created := s.created + 1 }
        (openGC { s with window := some s.created, created := s.created + 1 } d s.created width
          height scale reply) := opens_gc hloaded hd rfl hg hi
    refine ⟨(Accounted.making hmem rfl (by simp [Handle.isDisplay]) ?_ rfl).cons <|
      .cons (.plain ?_) <| .cons (.plain ?_) <| .cons (.plain ?_) <| .cons (.plain ?_) <|
        .cons (.plain ?_) hacc, hsettled⟩ <;> simp [VideoState.handles, hd, hw, hg, hi]
  · have hsame : { s with window := none } = s := by rw [← hw]
    rw [hsame]
    exact opens_failOpening (by simp [hd]) (Accounted.plain hmem) _

end Opening

theorem opens_display {s : VideoState} (h : s.Closed) (hloaded : s.loaded = true)
    (width height scale : BitVec 32) (reply : OpenReply) :
    Opens s (openDisplay s width height scale reply) := by
  rw [openDisplay]
  split
  · obtain ⟨hacc, hsettled⟩ : Opens { s with display := some s.created, created := s.created + 1 }
        (openWindow { s with display := some s.created, created := s.created + 1 } s.created width
          height scale reply) := opens_window hloaded rfl h.window h.gc h.image
    refine ⟨(Accounted.making ?_ rfl ?_ ?_ rfl).cons <| .cons (.plain ?_) <| .cons (.plain ?_) <|
      .cons (.plain ?_) <| .cons (.plain ?_) <| .cons (.plain ?_) <| .cons (.plain ?_) hacc,
      hsettled⟩ <;> simp [VideoState.handles, h.display, h.window, h.gc, h.image]
  · refine ⟨?_, Or.inl ⟨rfl, h.window, h.gc, h.image, h.active⟩⟩
    have hcall : Accounted s [.plain "XOpenDisplay" []] s := Accounted.plain (by simp)
    have hnone : Accounted s [] ({ s with display := none }.setError
        "nao foi possivel abrir o display X11") := Accounted.refl ?_
    · exact hcall.append hnone
    simp [VideoState.pool, VideoState.handles, VideoState.setError, h.display]

theorem VideoState.Settled.none_of_display {s : VideoState} (h : s.Settled) :
    s.display = none → s.window = none ∧ s.gc = none := by
  intro hd
  rcases h with h | h
  · exact ⟨h.window, h.gc⟩
  · have hsome := h.display
    rw [hd] at hsome
    cases hsome

/-- The backend is loaded, or it is not and the variables are those of the start. -/
theorem closed_loadBackend {s : VideoState} (h : s.Closed) (reply : BackendReply) :
    (jsPtVideoLoadBackend s reply).1.Closed ∧ (jsPtVideoLoadBackend s reply).1.pool = s.pool ∧
      ((jsPtVideoLoadBackend s reply).2 = true → (jsPtVideoLoadBackend s reply).1.loaded =
          true) := by
  have hhandles : s.handles = [] := by
    simp [VideoState.handles, h.display, h.window, h.gc, h.image]
  have hpool : s.pool = { VideoState.start with created := s.created }.pool := by
    rw [VideoState.pool, hhandles]
    rfl
  unfold jsPtVideoLoadBackend
  split
  · rename_i hloaded
    exact ⟨h, rfl, fun _ => hloaded⟩
  · cases reply with
    | noLibrary => exact ⟨⟨h.display, h.window, h.gc, h.image, h.active⟩, rfl, by simp⟩
    | missingSymbol sym => exact ⟨⟨rfl, rfl, rfl, rfl, rfl⟩, hpool.symm, by simp⟩
    | found => exact ⟨⟨rfl, rfl, rfl, rfl, rfl⟩, hpool.symm, fun _ => rfl⟩

/-! ## What a step does -/

/-- A window is not opened while the handles of one that an event has ended are held. -/
def VideoOp.Allowed (s : VideoState) : VideoOp → Prop
  | .abrir (.sizes width height _) reply =>
      s.Abandoned → 0 < width.toInt → 0 < height.toInt → reply.displayEnv = false
  | _ => True

/-- What a step does to the handles. -/
def Keeps (s : VideoState) (next : VideoState × List XCall) : Prop :=
  Accounted s next.2 next.1 ∧ next.1.Settled

theorem keeps_close {s : VideoState} (h : s.Settled) : Keeps s (jsPtVideoClose s) :=
  ⟨accounted_close h.none_of_display, Or.inl (closed_close h.none_of_display)⟩

/-- The part of opening that comes after the window of before is closed. -/
def reopen (s : VideoState) (width height scale : BitVec 32) (reply : OpenReply) :
    VideoState × List XCall :=
  let loaded := jsPtVideoLoadBackend s reply.backend
  if !loaded.2 then (loaded.1, [])
  else if !reply.displayEnv then (loaded.1.setError "DISPLAY nao definido", [])
  else
    let opened := openDisplay { loaded.1 with cleanup_registered := true } width height scale reply
    (opened.1, opened.2.1)

theorem keeps_reopen {s : VideoState} (h : s.Closed) (width height scale : BitVec 32)
    (reply : OpenReply) : Keeps s (reopen s width height scale reply) := by
  obtain ⟨hclosed, hpool, hloaded⟩ := closed_loadBackend h reply.backend
  rw [reopen]
  split
  · exact ⟨Accounted.refl hpool.symm, Or.inl hclosed⟩
  · rename_i hok
    split
    · exact ⟨Accounted.refl hpool.symm,
        Or.inl ⟨hclosed.display, hclosed.window, hclosed.gc, hclosed.image, hclosed.active⟩⟩
    · obtain ⟨hacc, hsettled⟩ := opens_display
        (s := { (jsPtVideoLoadBackend s reply.backend).1 with cleanup_registered := true })
        ⟨hclosed.display, hclosed.window, hclosed.gc, hclosed.image, hclosed.active⟩
        (hloaded (by simpa using hok)) width height scale reply
      have hstart : Accounted s []
          { (jsPtVideoLoadBackend s reply.backend).1 with cleanup_registered := true } :=
        Accounted.refl hpool.symm
      exact ⟨hstart.append hacc, hsettled⟩

/-- The scale `video_abrir` works with. -/
def clampScale (scale : BitVec 32) : BitVec 32 := if scale.toInt < 1 then 1 else scale

/-- With positive sizes the window of before is closed if it is active, and one is opened. -/
theorem videoStep_abrir {s : VideoState} {width height scale : BitVec 32} {reply : OpenReply}
    (hpos : ¬(width.toInt ≤ 0 ∨ height.toInt ≤ 0)) :
    videoStep s (.abrir (.sizes width height scale) reply) =
      let closed := if s.active then jsPtVideoClose s else (s, [])
      let opened := reopen closed.1 width height (clampScale scale) reply
      (opened.1, closed.2 ++ opened.2) := by
  simp only [videoStep, jsPtVideoAbrir, if_neg hpos, reopen, clampScale]
  generalize (if s.active = true then jsPtVideoClose s else (s, [])) = closed
  cases hok : (jsPtVideoLoadBackend closed.1 reply.backend).2 with
  | false => simp
  | true => cases henv : reply.displayEnv <;> simp

theorem keeps_abrir {s : VideoState} (h : s.Settled) {args : OpenArgs} {reply : OpenReply}
    (hallowed : (VideoOp.abrir args reply).Allowed s) :
    Keeps s (videoStep s (.abrir args reply)) := by
  cases args with
  | threw => exact ⟨Accounted.refl rfl, h⟩
  | sizes width height scale =>
      by_cases hpos : width.toInt ≤ 0 ∨ height.toInt ≤ 0
      · simp only [videoStep, jsPtVideoAbrir, if_pos hpos]
        exact ⟨Accounted.refl rfl, h⟩
      · rw [videoStep_abrir hpos]
        obtain ⟨hwidth, hheight⟩ := not_or.mp hpos
        by_cases hactive : s.active = true
        · -- the window of before is closed
          simp only [if_pos hactive]
          obtain ⟨hacc, -⟩ := keeps_close h
          obtain ⟨hacc', hsettled⟩ := keeps_reopen (closed_close h.none_of_display) width height
            (clampScale scale) reply
          exact ⟨hacc.append hacc', hsettled⟩
        · simp only [if_neg hactive]
          rcases h with h | h
          · exact keeps_reopen h width height (clampScale scale) reply
          · -- the handles of an ended window are held: nothing is opened
            have henv := hallowed ⟨h.display, by simpa using hactive⟩ (by omega) (by omega)
            have hreopen : reopen s width height (clampScale scale) reply =
                (s.setError "DISPLAY nao definido", []) := by
              simp [reopen, jsPtVideoLoadBackend, h.loaded, henv]
            rw [hreopen]
            exact ⟨Accounted.refl rfl, Or.inr ⟨h.display, h.window, h.gc, h.image, h.loaded⟩⟩

/-! ## Events and frames -/

/-- An event changes the keys and the flag. -/
theorem handleEvent_eq (s : VideoState) (event : XEvent) :
    ∃ input active, s.handleEvent event = { s with input := input, active := active } := by
  cases event with
  | clientMessage deletes => cases deletes <;> exact ⟨_, _, rfl⟩
  | buttonPress x y button | buttonRelease x y button =>
      simp only [VideoState.handleEvent]
      unfold VideoState.applyButton
      split <;> exact ⟨_, _, rfl⟩
  | _ => exact ⟨_, _, rfl⟩

theorem foldl_handleEvent_eq (s : VideoState) (events : List XEvent) :
    ∃ input active, events.foldl VideoState.handleEvent s =
      { s with input := input, active := active } := by
  induction events generalizing s with
  | nil => exact ⟨s.input, s.active, rfl⟩
  | cons event events ih =>
      obtain ⟨input, active, hevent⟩ := handleEvent_eq s event
      obtain ⟨input', active', hevents⟩ := ih (s.handleEvent event)
      exact ⟨input', active', by rw [List.foldl_cons, hevents, hevent]⟩

theorem pumpEvents_eq (s : VideoState) (events : List XEvent) :
    ∃ input active, (jsPtVideoPumpEvents s events).1 =
      { s with input := input, active := active } := by
  unfold jsPtVideoPumpEvents
  split
  · exact foldl_handleEvent_eq s events
  · exact ⟨s.input, s.active, rfl⟩

/-- The same handles are held. -/
structure SameHandles (s s' : VideoState) : Prop where
  display : s'.display = s.display
  window : s'.window = s.window
  gc : s'.gc = s.gc
  image : s'.image = s.image
  loaded : s'.loaded = s.loaded
  created : s'.created = s.created

namespace SameHandles

variable {s s' s'' : VideoState}

theorem trans (h : SameHandles s s') (h' : SameHandles s' s'') : SameHandles s s'' :=
  ⟨h'.display.trans h.display, h'.window.trans h.window, h'.gc.trans h.gc, h'.image.trans h.image,
    h'.loaded.trans h.loaded, h'.created.trans h.created⟩

theorem pool_eq (h : SameHandles s s') : s'.pool = s.pool := by
  simp [VideoState.pool, VideoState.handles, h.display, h.window, h.gc, h.image, h.created]

theorem settled (h : SameHandles s s') (hopened : s.Opened) : s'.Settled := by
  right
  constructor
  · rw [h.display, hopened.display]
  · rw [h.window, hopened.window]
  · rw [h.gc, hopened.gc]
  · rw [h.image, hopened.image]
  · rw [h.loaded, hopened.loaded]

/-- The keys and the flag are not handles. -/
theorem of_input (s : VideoState) (input : VideoInput) (active : Bool) :
    SameHandles s { s with input := input, active := active } := ⟨rfl, rfl, rfl, rfl, rfl, rfl⟩

end SameHandles

theorem Accounted.of_sameHandles {s s' : VideoState} (h : SameHandles s s') : Accounted s [] s' :=
  Accounted.refl h.pool_eq.symm

/-- Calls that are given handles that are held. -/
theorem Accounted.plains {s : VideoState} {calls : List XCall}
    (h : ∀ call ∈ calls, ∃ name args, call = .plain name args ∧ ∀ k ∈ args, k ∈ s.handles) :
    Accounted s calls s := by
  induction calls with
  | nil => exact Accounted.refl rfl
  | cons call calls ih =>
      obtain ⟨name, args, rfl, hargs⟩ := h call (List.mem_cons_self ..)
      exact (Accounted.plain hargs).cons (ih fun c hc => h c (List.mem_cons_of_mem _ hc))

/-- Events are asked for on the display that is open. -/
theorem accounted_pumpEvents (s : VideoState) (events : List XEvent) :
    Accounted s (jsPtVideoPumpEvents s events).2 (jsPtVideoPumpEvents s events).1 ∧
      SameHandles s (jsPtVideoPumpEvents s events).1 := by
  have hsame : SameHandles s (jsPtVideoPumpEvents s events).1 := by
    obtain ⟨input, active, hpumped⟩ := pumpEvents_eq s events
    rw [hpumped]
    exact SameHandles.of_input s input active
  refine ⟨?_, hsame⟩
  revert hsame
  unfold jsPtVideoPumpEvents
  split
  · intro hsame
    rename_i d hactive hd
    have hcalls : ∀ call ∈ (events.flatMap fun _ =>
        [XCall.plain "XPending" [.display d], .plain "XNextEvent" [.display d]]) ++
          [.plain "XPending" [.display d]],
        ∃ name args, call = .plain name args ∧ ∀ k ∈ args, k ∈ s.handles := by
      have hmem : ∀ k ∈ [Handle.display d], k ∈ s.handles := by simp [VideoState.handles, hd]
      intro call hcall
      simp only [List.mem_append, List.mem_flatMap, List.mem_cons, List.not_mem_nil,
        or_false] at hcall
      rcases hcall with ⟨event, -, rfl | rfl⟩ | rfl
      · exact ⟨_, _, rfl, hmem⟩
      · exact ⟨_, _, rfl, hmem⟩
      · exact ⟨_, _, rfl, hmem⟩
    have hboth := (Accounted.plains hcalls).append (Accounted.of_sameHandles hsame)
    simpa using hboth
  · exact fun _ => Accounted.refl rfl

theorem VideoState.Settled.opened {s : VideoState} (h : s.Settled) (hactive : s.active = true) :
    s.Opened := by
  rcases h with h | h
  · rw [h.active] at hactive
    cases hactive
  · exact h

theorem keeps_apresentar {s : VideoState} (h : s.Settled) (arg : FrameArg) (events : List XEvent) :
    Keeps s (videoStep s (.apresentar arg events)) := by
  have hstay : Keeps s (s, []) := ⟨Accounted.refl rfl, h⟩
  rw [videoStep, jsPtVideoApresentar]
  split
  · rename_i d i hactive hd hi
    have hopened := h.opened hactive
    cases arg with
    | notABuffer | noBytes => exact hstay
    | frame f =>
        by_cases hlen : f.bytes.length < (expectedBytes s.width s.height).toNat
        · simp only [if_pos hlen]
          exact hstay
        · simp only [if_neg hlen]
          let writes := frameWrites s.width s.height s.scale f.bytes
          let drawn : VideoState :=
            { s with image_data := s.image_data.map fun buffer => buffer.draw writes }
          have hdrawn : SameHandles s drawn := ⟨rfl, rfl, rfl, rfl, rfl, rfl⟩
          obtain ⟨hacc, hsame⟩ := accounted_pumpEvents drawn events
          have hall := hdrawn.trans hsame
          have hput : Accounted s [.plain "XPutImage" (.display d :: s.window.toList.map .window ++
              s.gc.toList.map .gc ++ [.image i]), .plain "XFlush" [.display d]] s := by
            apply Accounted.plains
            intro call hcall
            simp only [List.mem_cons, List.not_mem_nil, or_false] at hcall
            rcases hcall with rfl | rfl
            · refine ⟨_, _, rfl, ?_⟩
              simp [VideoState.handles, hd, hi]
            · exact ⟨_, _, rfl, by simp [VideoState.handles, hd]⟩
          have hput' : Accounted (jsPtVideoPumpEvents drawn events).1
              [.plain "XPutImage" (.display d :: s.window.toList.map .window ++
                s.gc.toList.map .gc ++ [.image i]), .plain "XFlush" [.display d]]
              (jsPtVideoPumpEvents drawn events).1 := by
            rw [Accounted, hall.pool_eq]
            exact hput
          have hboth := ((Accounted.of_sameHandles hdrawn).append hacc).append hput'
          exact ⟨hboth, hall.settled hopened⟩
  · exact hstay

theorem keeps_entrada {s : VideoState} (h : s.Settled) (events : List XEvent) :
    Keeps s (videoStep s (.entrada events)) := by
  simp only [videoStep, jsPtVideoEntrada]
  by_cases hactive : s.active = true
  · simp only [if_pos hactive]
    obtain ⟨hacc, hsame⟩ := accounted_pumpEvents s events
    exact ⟨hacc, hsame.settled (h.opened hactive)⟩
  · simp only [if_neg hactive]
    exact ⟨Accounted.refl rfl, h⟩

/-- The end of the program closes the window, and closes it again to no effect. -/
theorem keeps_sair {s : VideoState} (h : s.Settled) (converted : Bool) :
    Keeps s (videoStep s (.sair converted)) := by
  simp only [videoStep, jsPtSair]
  cases converted with
  | false => exact ⟨Accounted.refl rfl, h⟩
  | true =>
      obtain ⟨hacc, hsettled⟩ := keeps_close h
      simp only [if_true]
      split
      · obtain ⟨hacc', hsettled'⟩ := keeps_close hsettled
        exact ⟨hacc.append hacc', hsettled'⟩
      · exact ⟨by simpa using hacc, hsettled⟩

/-- A step that is allowed accounts for its calls. -/
theorem keeps_step {s : VideoState} (h : s.Settled) {op : VideoOp} (hallowed : op.Allowed s) :
    Keeps s (videoStep s op) := by
  cases op with
  | abrir args reply => exact keeps_abrir h hallowed
  | apresentar arg events => exact keeps_apresentar h arg events
  | entrada events => exact keeps_entrada h events
  | fechar => exact keeps_close h
  | sair converted => exact keeps_sair h converted

/-! ## Runs -/

/-- The calls of a run. -/
def videoCalls (s : VideoState) (ops : List VideoOp) : List XCall := (videoStep.run s ops).2.flatten

/-- Every step is allowed where it is made. -/
def AllAllowed (s : VideoState) (ops : List VideoOp) : Prop :=
  ∀ pre op post, ops = pre ++ op :: post → op.Allowed (videoStep.run s pre).1

theorem allAllowed_cons {s : VideoState} {op : VideoOp} {ops : List VideoOp} :
    AllAllowed s (op :: ops) ↔ op.Allowed s ∧ AllAllowed (videoStep s op).1 ops :=
  forall_split_cons (P := fun (pre : List VideoOp) (op : VideoOp) =>
    op.Allowed (videoStep.run s pre).1)

theorem allAllowed_nil (s : VideoState) : AllAllowed s [] := by
  intro pre op post hsplit
  simp at hsplit

theorem allAllowed_append {s : VideoState} {ops ops' : List VideoOp} :
    AllAllowed s (ops ++ ops') ↔ AllAllowed s ops ∧ AllAllowed (videoStep.run s ops).1 ops' := by
  induction ops generalizing s with
  | nil => simp [allAllowed_nil]
  | cons op ops ih => rw [List.cons_append, allAllowed_cons, allAllowed_cons, ih, and_assoc]; rfl

theorem keeps_run {s : VideoState} (h : s.Settled) {ops : List VideoOp}
    (hall : AllAllowed s ops) : Keeps s ((videoStep.run s ops).1, videoCalls s ops) := by
  induction ops generalizing s with
  | nil => exact ⟨Accounted.refl rfl, h⟩
  | cons op ops ih =>
      obtain ⟨hop, hops⟩ := allAllowed_cons.mp hall
      obtain ⟨hacc, hsettled⟩ := keeps_step h hop
      obtain ⟨hacc', hsettled'⟩ := ih hsettled hops
      exact ⟨hacc.append hacc', hsettled'⟩

/-- What is done with handles in a run that ends with the window closed. -/
def lifeActions (ops : List VideoOp) : List (Action Handle) :=
  (videoCalls .start (ops ++ [.fechar])).flatMap XCall.actions

/-- At most one display is open at a time, what was made is released once by the end, and no call
is given a handle that was released. -/
structure LifeCycle (acts : List (Action Handle)) : Prop where
  one_display : ∀ pre post, acts = pre ++ post → ∀ k k', k.isDisplay = true → k'.isDisplay = true →
    StillOpen pre k → StillOpen pre k' → k = k'
  released_once : ∀ k, .create k ∈ acts → acts.count (.release k) = 1
  not_released : ∀ pre a post, acts = pre ++ a :: post → ∀ k, a.Touches k → .release k ∉ pre

/-- The handles of a run are looked after when no window is opened while those of one that an event
has ended are held. -/
theorem life_cycle {ops : List VideoOp} (hall : AllAllowed .start ops) :
    LifeCycle (lifeActions ops) := by
  have hstart : VideoState.start.Settled := Or.inl ⟨rfl, rfl, rfl, rfl, rfl⟩
  have hfechar : AllAllowed .start (ops ++ [.fechar]) :=
    allAllowed_append.mpr ⟨hall, allAllowed_cons.mpr ⟨trivial, allAllowed_nil _⟩⟩
  obtain ⟨hacc, hsettled⟩ := keeps_run hstart hfechar
  have hclosed : (videoStep.run VideoState.start (ops ++ [.fechar])).1.Closed := by
    rw [Machine.run_append]
    obtain ⟨-, hops⟩ := keeps_run hstart hall
    exact closed_close hops.none_of_display
  have hlive : (videoStep.run VideoState.start (ops ++ [.fechar])).1.pool.live = [] := by
    simp [VideoState.pool, VideoState.handles, hclosed.display, hclosed.window, hclosed.gc,
      hclosed.image]
  have hrun : Pool.empty.run Handle.number Handle.isDisplay (lifeActions ops) =
      some (videoStep.run VideoState.start (ops ++ [.fechar])).1.pool := hacc
  constructor
  · intro pre post hsplit k k' hk hk' hopen hopen'
    exact Pool.open_unique hrun hsplit hk hk' hopen hopen'
  · intro k hk
    exact Pool.released_once hrun hlive hk
  · intro pre a post hsplit k hk
    exact (Pool.open_of_touches hrun hsplit hk).2

/-! ## Two windows -/

/-- A system in which everything works, but for blocks longer than half the memory. -/
def working : OpenReply where
  backend := .found
  displayEnv := true
  openDisplay := true
  createWindow := true
  createGC := true
  malloc n := n.toNat < 2 ^ 63
  createImage := true
  malloc_le n h := by simpa using h

def openSmall : VideoOp := .abrir (.sizes 2 2 1) working

/-- A window that is closed before another is opened. -/
theorem life_cycle_closed :
    AllAllowed .start [openSmall, .entrada [.clientMessage true], .fechar, openSmall] ∧
      LifeCycle (lifeActions [openSmall, .entrada [.clientMessage true], .fechar, openSmall]) := by
  have hall : AllAllowed .start
      [openSmall, .entrada [.clientMessage true], .fechar, openSmall] := by
    simp only [allAllowed_cons, allAllowed_nil, and_true]
    refine ⟨?_, trivial, trivial, ?_⟩
    · rintro ⟨hdisplay, -⟩
      cases hdisplay
    · rintro ⟨hdisplay, -⟩
      cases hdisplay
  exact ⟨hall, life_cycle hall⟩

/-- A window whose end an event asks for is lost when another is opened: its display is never
released. -/
theorem reopened_not_lifeCycle :
    ¬∀ ops, LifeCycle (lifeActions ops) := by
  intro h
  have hlife := h [openSmall, .entrada [.clientMessage true], openSmall]
  have hcount := hlife.released_once (.display 0) (by decide)
  revert hcount
  decide

end GatoCore.Engine
