import Mathlib.Algebra.Ring.Nat
import Mathlib.Algebra.Ring.Int.Defs
import GatoCore.Lib.Machine
import GatoCore.Lib.Resources
import Mathlib.Data.Int.Notation
import Mathlib.Logic.Function.Basic

/-!
# The window

Source: `js_pt_video_abrir`, `js_pt_video_apresentar`, `js_pt_video_entrada`, `js_pt_video_fechar`,
`js_pt_sair` and the functions they call in `quickjs-libc.c`.

One window is described by global variables: the handles X11 gave, the bytes of its image and the
state of the keys. What X11 and the system answer is part of each call. A handle gets the next
number when it is created. The products of sizes are those of 32-bit integers.
-/

namespace GatoCore.Engine

open GatoCore.Lib

/-! ## Handles and calls -/

inductive Handle where
  | display (n : ℕ)
  | window (n : ℕ)
  | gc (n : ℕ)
  | image (n : ℕ)
  deriving DecidableEq

def Handle.number : Handle → ℕ
  | display n | window n | gc n | image n => n

def Handle.isDisplay : Handle → Bool
  | display _ => true
  | _ => false

/-- A call of X11: the handles given to it, the one it makes and the one it releases. -/
structure XCall where
  name : String
  args : List Handle
  makes : Option Handle
  releases : Option Handle

namespace XCall

def plain (name : String) (args : List Handle) : XCall := ⟨name, args, none, none⟩

def making (name : String) (args : List Handle) (h : Handle) : XCall := ⟨name, args, some h, none⟩

def releasing (name : String) (args : List Handle) (h : Handle) : XCall :=
  ⟨name, args, none, some h⟩

/-- What a call does with handles. -/
def actions (call : XCall) : List (Action Handle) :=
  call.args.map .use ++ call.makes.toList.map .create ++ call.releases.toList.map .release

end XCall

/-! ## State -/

/-- The keys and the mouse. -/
structure VideoInput where
  w : Bool
  a : Bool
  s : Bool
  d : Bool
  left : Bool
  right : Bool
  up : Bool
  down : Bool
  q : Bool
  e : Bool
  tab : Bool
  m : Bool
  r : Bool
  space : Bool
  enter : Bool
  x : Bool
  mouse_x : ℤ
  mouse_y : ℤ
  mouse_left : Bool
  mouse_middle : Bool
  mouse_right : Bool
  mouse_inside : Bool
  quit : Bool

def VideoInput.clear : VideoInput :=
  ⟨false, false, false, false, false, false, false, false, false, false, false, false, false, false,
    false, false, 0, 0, false, false, false, false, false⟩

/-- The bytes of the image, and how many `malloc` was asked for. -/
structure FrameBuffer where
  size : BitVec 64
  bytes : ℕ → UInt8

/-- `created` counts the handles made so far. -/
structure VideoState where
  loaded : Bool
  cleanup_registered : Bool
  active : Bool
  display : Option ℕ
  window : Option ℕ
  gc : Option ℕ
  image : Option ℕ
  image_data : Option FrameBuffer
  width : BitVec 32
  height : BitVec 32
  scale : BitVec 32
  input : VideoInput
  last_error : String
  created : ℕ

namespace VideoState

def start : VideoState :=
  ⟨false, false, false, none, none, none, none, none, 0, 0, 0, .clear, "", 0⟩

def setError (s : VideoState) (message : String) : VideoState := { s with last_error := message }

end VideoState

/-! ## Closing -/

def jsPtVideoClose (s : VideoState) : VideoState × List XCall :=
  let images := s.image.toList.map fun i => XCall.releasing "XDestroyImage" [] (.image i)
  let onDisplay := s.display.toList.flatMap fun d =>
    (s.gc.toList.map fun g => XCall.releasing "XFreeGC" [.display d] (.gc g)) ++
      (s.window.toList.map fun w => XCall.releasing "XDestroyWindow" [.display d] (.window w)) ++
        [XCall.releasing "XCloseDisplay" [] (.display d)]
  ({ s with
      image := none
      image_data := none
      gc := if s.display.isSome then none else s.gc
      window := if s.display.isSome then none else s.window
      display := none
      active := false
      input := .clear }, images ++ onDisplay)

/-! ## Opening -/

inductive VideoFault where
  | engine
  | rangeError (message : String)
  | typeError (message : String)

/-- What `dlopen` and `dlsym` find. -/
inductive BackendReply where
  | noLibrary
  | missingSymbol (sym : String)
  | found

/-- What the system answers while a window is opened; `malloc` gives no block longer than
`PTRDIFF_MAX`. -/
structure OpenReply where
  backend : BackendReply
  displayEnv : Bool
  openDisplay : Bool
  createWindow : Bool
  createGC : Bool
  malloc : BitVec 64 → Bool
  createImage : Bool
  malloc_le : ∀ n, malloc n = true → n.toNat < 2 ^ 63

/-- The arguments of `video_abrir` after their conversion, which may throw. -/
inductive OpenArgs where
  | threw
  | sizes (width height scale : BitVec 32)

def jsPtVideoLoadBackend (s : VideoState) (reply : BackendReply) : VideoState × Bool :=
  if s.loaded then (s, true)
  else
    match reply with
    | .noLibrary => (s.setError "libX11.so.6 nao disponivel", false)
    | .missingSymbol sym =>
        ({ VideoState.start with created := s.created }.setError
          ("falha ao carregar simbolo X11: " ++ sym), false)
    | .found => ({ VideoState.start with created := s.created, loaded := true }, true)

/-- The answer when a step of opening fails. -/
def failOpening (s : VideoState) (call : List XCall) (message : String) :
    VideoState × List XCall × Bool :=
  let closed := jsPtVideoClose (s.setError message)
  (closed.1, call ++ closed.2, false)

/-- The bytes asked for: the products are made before they are widened. -/
def frameBytes (width height scale : BitVec 32) : BitVec 64 :=
  (width * scale).signExtend 64 * (height * scale).signExtend 64 * 4

def openImage (s : VideoState) (d : ℕ) (reply : OpenReply) : VideoState × List XCall × Bool :=
  if reply.createImage then
    ({ s with
        image := some s.created
        created := s.created + 1
        active := true
        input := .clear
        last_error := "" },
      [.making "XCreateImage" [.display d] (.image s.created), .plain "XFlush" [.display d]], true)
  else failOpening s [.plain "XCreateImage" [.display d]] "nao foi possivel criar a imagem X11"

def openBuffer (s : VideoState) (d : ℕ) (width height scale : BitVec 32) (reply : OpenReply) :
    VideoState × List XCall × Bool :=
  let s := { s with width := width, height := height, scale := scale }
  let size := frameBytes width height scale
  if reply.malloc size then openImage { s with image_data := some ⟨size, fun _ => 0⟩ } d reply
  else failOpening s [] "memoria insuficiente para o framebuffer da janela"

def openGC (s : VideoState) (d w : ℕ) (width height scale : BitVec 32) (reply : OpenReply) :
    VideoState × List XCall × Bool :=
  if reply.createGC then
    let rest := openBuffer { s with gc := some s.created, created := s.created + 1 } d width height
      scale reply
    (rest.1, .making "XCreateGC" [.display d, .window w] (.gc s.created) :: rest.2.1, rest.2.2)
  else
    failOpening { s with gc := none } [.plain "XCreateGC" [.display d, .window w]]
      "nao foi possivel criar o GC da janela"

def openWindow (s : VideoState) (d : ℕ) (width height scale : BitVec 32) (reply : OpenReply) :
    VideoState × List XCall × Bool :=
  if reply.createWindow then
    let w := s.created
    let rest := openGC { s with window := some w, created := s.created + 1 } d w width height scale
      reply
    (rest.1, .making "XCreateSimpleWindow" [.display d] (.window w) ::
      .plain "XStoreName" [.display d, .window w] :: .plain "XSelectInput"
        [.display d, .window w] ::
      .plain "XInternAtom" [.display d] :: .plain "XSetWMProtocols" [.display d, .window w] ::
      .plain "XMapWindow" [.display d, .window w] :: rest.2.1, rest.2.2)
  else
    failOpening { s with window := none } [.plain "XCreateSimpleWindow" [.display d]]
      "nao foi possivel criar a janela X11"

/-- From `XOpenDisplay` on. -/
def openDisplay (s : VideoState) (width height scale : BitVec 32) (reply : OpenReply) :
    VideoState × List XCall × Bool :=
  if reply.openDisplay then
    let d := s.created
    let rest := openWindow { s with display := some d, created := s.created + 1 } d width height
      scale reply
    (rest.1, .making "XOpenDisplay" [] (.display d) :: .plain "XDefaultScreen" [.display d] ::
      .plain "XRootWindow" [.display d] :: .plain "XDefaultVisual" [.display d] ::
      .plain "XDefaultDepth" [.display d] :: .plain "XBlackPixel" [.display d] ::
      .plain "XWhitePixel" [.display d] :: rest.2.1, rest.2.2)
  else
    ({ s with display := none }.setError "nao foi possivel abrir o display X11",
      [.plain "XOpenDisplay" []], false)

def jsPtVideoAbrir (s : VideoState) (args : OpenArgs) (reply : OpenReply) :
    VideoState × List XCall × Except VideoFault Bool :=
  match args with
  | .threw => (s, [], .error .engine)
  | .sizes width height scale =>
      if width.toInt ≤ 0 ∨ height.toInt ≤ 0 then
        (s, [], .error (.rangeError "largura e altura devem ser positivas"))
      else
        let scale := if scale.toInt < 1 then 1 else scale
        let closed := if s.active then jsPtVideoClose s else (s, [])
        let loaded := jsPtVideoLoadBackend closed.1 reply.backend
        if !loaded.2 then (loaded.1, closed.2, .ok false)
        else if !reply.displayEnv then
          (loaded.1.setError "DISPLAY nao definido", closed.2, .ok false)
        else
          let opened :=
            openDisplay { loaded.1 with cleanup_registered := true } width height scale reply
          (opened.1, closed.2 ++ opened.2.1, .ok opened.2.2)

/-! ## Events -/

inductive Keysym where
  | left
  | right
  | up
  | down
  | tab
  | ret
  | kpEnter
  | other (code : ℕ)

/-- `text` is what `XLookupString` makes of a key; `deletes` says that the message of a client is
`WM_DELETE_WINDOW`. -/
inductive XEvent where
  | keyPress (text : List Char) (keysym : Keysym)
  | keyRelease (text : List Char) (keysym : Keysym)
  | buttonPress (x y : ℤ) (button : ℕ)
  | buttonRelease (x y : ℤ) (button : ℕ)
  | motionNotify (x y : ℤ)
  | clientMessage (deletes : Bool)
  | destroyNotify
  | focusOut
  | other

def jsPtVideoApplyKey (input : VideoInput) (key : Char) (value : Bool) : VideoInput :=
  match key with
  | 'w' => { input with w := value }
  | 'a' => { input with a := value }
  | 's' => { input with s := value }
  | 'd' => { input with d := value }
  | 'q' => { input with q := value }
  | 'e' => { input with e := value }
  | 'm' => { input with m := value }
  | 'r' => { input with r := value }
  | 'x' => { input with x := value }
  | ' ' => { input with space := value }
  | '\r' | '\n' => { input with enter := value }
  | _ => input

/-- A key that gives no text. -/
def applyKeysym (input : VideoInput) (keysym : Keysym) (value : Bool) : VideoInput :=
  match keysym with
  | .left => { input with left := value }
  | .right => { input with right := value }
  | .up => { input with up := value }
  | .down => { input with down := value }
  | .tab => { input with tab := value }
  | .ret | .kpEnter => { input with enter := value }
  | .other _ => input

/-- A capital letter counts as the small one. -/
def applyLookup (input : VideoInput) (text : List Char) (keysym : Keysym) (value : Bool) :
    VideoInput :=
  match text with
  | ch :: _ => jsPtVideoApplyKey input (if 'A' ≤ ch ∧ ch ≤ 'Z' then ch.toLower else ch) value
  | [] => applyKeysym input keysym value

/-- A coordinate of the window in pixels of the frame. -/
def logicalPosition (coordinate scale size : ℤ) : ℤ :=
  let logical := coordinate.tdiv (if scale > 0 then scale else 1)
  let logical := if logical < 0 then 0 else logical
  if logical ≥ size then (if size > 0 then size - 1 else 0) else logical

namespace VideoState

def updateMousePosition (s : VideoState) (x y : ℤ) : VideoState :=
  { s with
    input := { s.input with
      mouse_x := logicalPosition x s.scale.toInt s.width.toInt
      mouse_y := logicalPosition y s.scale.toInt s.height.toInt } }

def applyButton (s : VideoState) (button : ℕ) (value : Bool) : VideoState :=
  let input := { s.input with mouse_inside := true }
  match button with
  | 1 => { s with input := { input with mouse_left := value } }
  | 2 => { s with input := { input with mouse_middle := value } }
  | 3 => { s with input := { input with mouse_right := value } }
  | _ => { s with input := input }

/-- The window is to go. -/
def quit (s : VideoState) : VideoState :=
  { s with input := { s.input with quit := true }, active := false }

def handleEvent (s : VideoState) : XEvent → VideoState
  | .keyPress text keysym => { s with input := applyLookup s.input text keysym true }
  | .keyRelease text keysym => { s with input := applyLookup s.input text keysym false }
  | .buttonPress x y button => (s.updateMousePosition x y).applyButton button true
  | .buttonRelease x y button => (s.updateMousePosition x y).applyButton button false
  | .motionNotify x y =>
      let s := s.updateMousePosition x y
      { s with input := { s.input with mouse_inside := true } }
  | .clientMessage deletes => if deletes then s.quit else s
  | .destroyNotify => s.quit
  | .focusOut => { s with input := .clear }
  | .other => s

end VideoState

/-- `events` are those that are pending. -/
def jsPtVideoPumpEvents (s : VideoState) (events : List XEvent) : VideoState × List XCall :=
  match s.active, s.display with
  | true, some d =>
      (events.foldl VideoState.handleEvent s,
        (events.flatMap fun _ =>
          [XCall.plain "XPending" [.display d], .plain "XNextEvent" [.display d]]) ++
          [.plain "XPending" [.display d]])
  | _, _ => (s, [])

/-! ## Frames -/

/-- The bytes of an `ArrayBuffer` or of a view of one; the engine makes none of more than
`INT32_MAX` bytes. -/
structure Frame where
  bytes : List UInt8
  length_le : bytes.length < 2 ^ 31

/-- `noBytes` is a view of a buffer that has none. -/
inductive FrameArg where
  | notABuffer
  | noBytes
  | frame (f : Frame)

/-- The index of a byte of the image, as `size_t` arithmetic gives it. -/
def dstIdx (width scale : BitVec 32) (x y sx sy : ℕ) : BitVec 64 :=
  let scaled_width := width * scale
  let row := ((BitVec.ofNat 64 y * scale.signExtend 64 + BitVec.ofNat 64 sy) *
    scaled_width.signExtend 64 + BitVec.ofNat 64 x * scale.signExtend 64) * 4
  row + BitVec.ofNat 64 sx * 4

/-- The four bytes of a pixel. -/
def pixelWrites (dst : BitVec 64) (r g b : UInt8) : List (BitVec 64 × UInt8) :=
  [(dst, b), (dst + 1, g), (dst + 2, r), (dst + 3, 0)]

/-- What the four loops write, in their order. -/
def frameWrites (width height scale : BitVec 32) (src : List UInt8) : List (BitVec 64 × UInt8) :=
  (List.range (height.signExtend 64).toNat).flatMap fun y =>
    (List.range (width.signExtend 64).toNat).flatMap fun x =>
      let src_idx := (y * (width.signExtend 64).toNat + x) * 4
      let r := src.getD src_idx 0
      let g := src.getD (src_idx + 1) 0
      let b := src.getD (src_idx + 2) 0
      (List.range scale.toInt.toNat).flatMap fun sy =>
        (List.range scale.toInt.toNat).flatMap fun sx =>
          pixelWrites (dstIdx width scale x y sx sy) r g b

/-- The bytes after some are written. -/
def writeBytes (bytes : ℕ → UInt8) (writes : List (BitVec 64 × UInt8)) : ℕ → UInt8 :=
  writes.foldl (fun bytes write => Function.update bytes write.1.toNat write.2) bytes

def FrameBuffer.draw (buffer : FrameBuffer) (writes : List (BitVec 64 × UInt8)) : FrameBuffer :=
  { buffer with bytes := writeBytes buffer.bytes writes }

/-- The bytes a frame must have. -/
def expectedBytes (width height : BitVec 32) : BitVec 64 :=
  width.signExtend 64 * height.signExtend 64 * 4

def jsPtVideoApresentar (s : VideoState) (arg : FrameArg) (events : List XEvent) :
    VideoState × List XCall × Except VideoFault Bool :=
  match s.active, s.display, s.image with
  | true, some d, some i =>
      match arg with
      | .notABuffer => (s, [], .error .engine)
      | .noBytes => (s, [], .error (.typeError "frame precisa ser ArrayBuffer ou Uint8Array"))
      | .frame f =>
          if f.bytes.length < (expectedBytes s.width s.height).toNat then
            (s, [], .error (.rangeError "frame RGBA menor que o esperado"))
          else
            let writes := frameWrites s.width s.height s.scale f.bytes
            let pumped := jsPtVideoPumpEvents
              { s with image_data := s.image_data.map fun buffer => buffer.draw writes } events
            (pumped.1, pumped.2 ++
              [.plain "XPutImage" (.display d :: s.window.toList.map .window ++
                s.gc.toList.map .gc ++ [.image i]), .plain "XFlush" [.display d]],
              .ok pumped.1.active)
  | _, _, _ => (s, [], .ok false)

def jsPtVideoEntrada (s : VideoState) (events : List XEvent) :
    VideoState × List XCall × VideoInput :=
  let pumped := if s.active then jsPtVideoPumpEvents s events else (s, [])
  (pumped.1, pumped.2,
    { pumped.1.input with quit := pumped.1.input.quit || !pumped.1.active })

/-! ## Runs -/

/-- `sair` closes the window and ends the program, which closes it again if that was asked for; its
argument may fail to convert. -/
inductive VideoOp where
  | abrir (args : OpenArgs) (reply : OpenReply)
  | apresentar (arg : FrameArg) (events : List XEvent)
  | entrada (events : List XEvent)
  | fechar
  | sair (converted : Bool)

def jsPtSair (s : VideoState) (converted : Bool) : VideoState × List XCall :=
  if converted then
    let closed := jsPtVideoClose s
    let exited := if closed.1.cleanup_registered then jsPtVideoClose closed.1 else (closed.1, [])
    (exited.1, closed.2 ++ exited.2)
  else (s, [])

def videoStep : Machine VideoState VideoOp (List XCall)
  | s, .abrir args reply => let next := jsPtVideoAbrir s args reply; (next.1, next.2.1)
  | s, .apresentar arg events => let next := jsPtVideoApresentar s arg events; (next.1, next.2.1)
  | s, .entrada events => let next := jsPtVideoEntrada s events; (next.1, next.2.1)
  | s, .fechar => jsPtVideoClose s
  | s, .sair converted => jsPtSair s converted

end GatoCore.Engine
