import GatoCore.Lib.ByteBuffer
import GatoCore.Lib.StateExcept
import GatoCore.Stdlib.Paths

/-!
# WAD files

Source: `toBytes`, `readAscii`, `readU32LE`, `writeU32LE` and `assert` of
`samples/doom_ptjs/src/bootstrap/core.ptjs`, and `parseBytes`, `find`, `lumpBytes` and
`fixtureBytes` of `samples/doom_ptjs/src/assets/wad.ptjs`. A `DataView` throws a `RangeError` where
an access leaves it.

`fixtureBytes` writes two lumps; `layoutBytes` is its body over any list of lumps.
-/

namespace GatoCore.Doom

open GatoCore.Lib GatoCore.Stdlib

abbrev Bytes := List UInt8

/-! ## `doom.util` -/

inductive WadErro where
  | assercao (message : Text)
  /-- The `RangeError` of an access out of bounds. -/
  | intervalo
deriving DecidableEq, Repr

def assert (condition : Bool) (message : Text) : Except WadErro Unit :=
  if condition then .ok () else .error (.assercao ("doom_ptjs: ".toList ++ message))

/-- What a caller may pass as a buffer. -/
inductive Buffer where
  | arrayBuffer (bytes : Bytes)
  /-- A view of a part of an array buffer. -/
  | view (bytes : Bytes) (byteOffset byteLength : ℕ) (fits : byteOffset + byteLength ≤ bytes.length)
  | other

def toBytes : Buffer → Bytes
  | .arrayBuffer bytes => bytes
  | .view bytes byteOffset byteLength _ => (bytes.drop byteOffset).take byteLength
  | .other => []

/-- `String.fromCharCode` of a byte. -/
def byteChar (b : UInt8) : Char := Char.ofNat b.toNat

/-- The characters from `offset` on, up to the first zero, the length or the end of the bytes. -/
def readAscii (bytes : Bytes) (offset length : ℕ) : Text :=
  (((bytes.drop offset).take length).takeWhile fun b => decide (b ≠ 0)).map byteChar

def readU32LE (view : Bytes) (offset : ℕ) : Except WadErro ℕ :=
  match readAt view offset 4 with
  | some word => .ok (leValue word)
  | none => .error .intervalo

/-- `view.setUint32(offset, value >>> 0, true)`. -/
def writeU32LE (view : Bytes) (offset value : ℕ) : Except WadErro Bytes :=
  match writeAt view offset (leBytes 4 value) with
  | some view => .ok view
  | none => .error .intervalo

/-- `bytes.set(data, offset)`. -/
def setBytes (bytes : Bytes) (data : Bytes) (offset : ℕ) : Except WadErro Bytes :=
  match writeAt bytes offset data with
  | some bytes => .ok bytes
  | none => .error .intervalo

/-! ## `doom.wad` -/

structure Lump where
  index : ℕ
  name : Text
  offset : ℕ
  size : ℕ
deriving DecidableEq, Repr

structure Wad where
  identification : Text
  lump_count : ℕ
  directory_offset : ℕ
  origin : Text
  bytes : Bytes
  lumps : List Lump
deriving DecidableEq, Repr

/-- One turn of the loop over the directory. -/
def parseEntry (bytes : Bytes) (directoryOffset idx : ℕ) : Except WadErro Lump := do
  let entryOffset := directoryOffset + idx * 16
  let lumpOffset ← readU32LE bytes entryOffset
  let lumpSize ← readU32LE bytes (entryOffset + 4)
  let lumpName := readAscii bytes (entryOffset + 8) 8
  assert (decide (lumpOffset + lumpSize ≤ bytes.length))
    ("lump fora do arquivo: ".toList ++ lumpName)
  return ⟨idx, lumpName, lumpOffset, lumpSize⟩

def parseBytes (buffer : Buffer) (origin : Option Text) : Except WadErro Wad := do
  let bytes := toBytes buffer
  assert (decide (12 ≤ bytes.length)) "WAD curto demais".toList
  let identification := readAscii bytes 0 4
  let lumpCount ← readU32LE bytes 4
  let directoryOffset ← readU32LE bytes 8
  assert (identification = "IWAD".toList || identification = "PWAD".toList)
    "identificacao WAD invalida".toList
  assert (decide (directoryOffset + lumpCount * 16 ≤ bytes.length))
    "diretorio WAD fora do arquivo".toList
  let lumps ← (List.range lumpCount).mapM (parseEntry bytes directoryOffset)
  return ⟨identification, lumpCount, directoryOffset, origin.getD "<memoria>".toList, bytes, lumps⟩

/-- `toUpperCase` is the engine's. -/
def find (toUpperCase : Text → Text) (wad : Wad) (name : Text) : Option Lump :=
  wad.lumps.find? fun lump => toUpperCase lump.name = toUpperCase name

/-- `wad.bytes.slice(start, end)`. -/
def lumpBytes (wad : Wad) (lump : Lump) : Bytes :=
  (wad.bytes.take (lump.offset + lump.size)).drop lump.offset

/-! ## The writer -/

/-- A lump before it has a place in a file. -/
structure LumpData where
  name : Text
  bytes : Bytes
deriving DecidableEq, Repr

/-- `ch.charCodeAt(0) & 0xff` of every character of the name; none is beyond the first plane. -/
def nameBytes (name : Text) : Bytes := name.map fun ch => UInt8.ofNat ch.toNat

def headerSize : ℕ := 12

def dataSize (lumps : List LumpData) : ℕ :=
  lumps.foldl (fun acc lump => acc + lump.bytes.length) 0

def totalSize (lumps : List LumpData) : ℕ := headerSize + dataSize lumps + lumps.length * 16

/-- The first loop: the data of each lump, and the offsets they got. -/
def writeData : List LumpData → Bytes → ℕ → Except WadErro (Bytes × List ℕ)
  | [], bytes, _ => .ok (bytes, [])
  | lump :: lumps, bytes, offset => do
      let bytes ← setBytes bytes lump.bytes offset
      let (bytes, offsets) ← writeData lumps bytes (offset + lump.bytes.length)
      return (bytes, offset :: offsets)

/-- The second loop: the entries of the directory. -/
def writeEntries : List (LumpData × ℕ) → Bytes → ℕ → Except WadErro Bytes
  | [], bytes, _ => .ok bytes
  | (lump, offset) :: lumps, bytes, entryOffset => do
      let bytes ← writeU32LE bytes entryOffset offset
      let bytes ← writeU32LE bytes (entryOffset + 4) lump.bytes.length
      let bytes ← setBytes bytes (nameBytes lump.name) (entryOffset + 8)
      writeEntries lumps bytes (entryOffset + 16)

def layoutBytes (lumps : List LumpData) : Except WadErro Bytes := do
  let directoryOffset := headerSize + dataSize lumps
  let bytes : Bytes := List.replicate (totalSize lumps) 0
  let bytes ← setBytes bytes [0x50, 0x57, 0x41, 0x44] 0
  let bytes ← writeU32LE bytes 4 lumps.length
  let bytes ← writeU32LE bytes 8 directoryOffset
  let (bytes, offsets) ← writeData lumps bytes headerSize
  writeEntries (lumps.zip offsets) bytes directoryOffset

def fixtureLumps : List LumpData :=
  [⟨"PLAYPAL".toList, [0, 1, 2, 3]⟩, ⟨"E1M1".toList, [10, 20, 30, 40, 50, 60]⟩]

def fixtureBytes : Except WadErro Bytes := layoutBytes fixtureLumps

end GatoCore.Doom
