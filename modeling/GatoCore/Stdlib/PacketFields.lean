import GatoCore.Stdlib.Packets

/-!
# The fields of a packet

Source: `dissectPacket` of `stdlib/ptstdlib.js`.

A frame is laid out here field by field, as Ethernet II, IPv4, TCP, UDP and ICMP do. Dissecting its
bytes gives the fields back.
-/

namespace GatoCore.Stdlib

/-! ## Frames -/

/-- The two bytes of a number, the high one first. -/
def be16 (x : UInt16) : List UInt8 := [UInt8.ofNat (x.toNat / 2 ^ 8), UInt8.ofNat x.toNat]

/-- The four bytes of a number, the highest first. -/
def be32 (x : UInt32) : List UInt8 :=
  [UInt8.ofNat (x.toNat / 2 ^ 24), UInt8.ofNat (x.toNat / 2 ^ 16), UInt8.ofNat (x.toNat / 2 ^ 8),
    UInt8.ofNat x.toNat]

structure MacAddress where
  b₀ : UInt8
  b₁ : UInt8
  b₂ : UInt8
  b₃ : UInt8
  b₄ : UInt8
  b₅ : UInt8

namespace MacAddress

def bytes (m : MacAddress) : List UInt8 := [m.b₀, m.b₁, m.b₂, m.b₃, m.b₄, m.b₅]

/-- Two hexadecimal digits for each byte, with colons between them. -/
def text (m : MacAddress) : Text :=
  [':'].intercalate (m.bytes.map fun b =>
    [Nat.digitChar (b.toNat / 16), Nat.digitChar (b.toNat % 16)])

end MacAddress

structure Ipv4Address where
  a : UInt8
  b : UInt8
  c : UInt8
  d : UInt8

namespace Ipv4Address

def bytes (i : Ipv4Address) : List UInt8 := [i.a, i.b, i.c, i.d]

/-- The bytes in decimal, with dots between them. -/
def text (i : Ipv4Address) : Text :=
  ['.'].intercalate (i.bytes.map fun b => Nat.toDigits 10 b.toNat)

end Ipv4Address

/-- A header with up to ten words of options. -/
structure Ipv4Header where
  tos : UInt8
  totalLength : UInt16
  identification : UInt16
  fragment : UInt16
  ttl : UInt8
  checksum : UInt16
  source : Ipv4Address
  destination : Ipv4Address
  words : Fin 11
  options : List UInt8
  length_options : options.length = 4 * words

namespace Ipv4Header

def ihl (h : Ipv4Header) : ℕ := 5 + h.words

/-- The header up to its options; version 4 stands in front of the length. -/
def fixed (h : Ipv4Header) (protocol : UInt8) : List UInt8 :=
  [UInt8.ofNat (0x40 + h.ihl), h.tos] ++ be16 h.totalLength ++ be16 h.identification ++
    be16 h.fragment ++ [h.ttl, protocol] ++ be16 h.checksum ++ h.source.bytes ++
    h.destination.bytes

end Ipv4Header

/-- What an IPv4 packet carries: a complete header and whatever follows. -/
inductive Segment where
  | tcp (source destination : UInt16) (seq ack : UInt32) (rest : List UInt8)
      (complete : 8 ≤ rest.length)
  | udp (source destination length checksum : UInt16) (payload : List UInt8)
  | icmp (type code : UInt8) (checksum : UInt16) (rest : List UInt8)

namespace Segment

def protocol : Segment → UInt8
  | tcp .. => 6
  | udp .. => 17
  | icmp .. => 1

def bytes : Segment → List UInt8
  | tcp source destination seq ack rest _ =>
      be16 source ++ be16 destination ++ be32 seq ++ be32 ack ++ rest
  | udp source destination length checksum payload =>
      be16 source ++ be16 destination ++ be16 length ++ be16 checksum ++ payload
  | icmp type code checksum rest => [type, code] ++ be16 checksum ++ rest

/-- The fields as numbers without a sign. -/
def fields : Segment → Transporte
  | tcp source destination seq ack _ _ =>
      .tcp source.toNat destination.toNat seq.toNat ack.toNat
  | udp source destination length _ _ => .udp source.toNat destination.toNat length.toNat
  | icmp type code _ _ => .icmp type.toNat code.toNat

end Segment

structure EthernetFrame where
  destination : MacAddress
  source : MacAddress
  header : Ipv4Header
  segment : Segment

namespace EthernetFrame

/-- The frame before its segment. -/
def front (f : EthernetFrame) : List UInt8 :=
  f.destination.bytes ++ f.source.bytes ++ [0x08, 0x00] ++ f.header.fixed f.segment.protocol ++
    f.header.options

def bytes (f : EthernetFrame) : List UInt8 := f.front ++ f.segment.bytes

/-- What the fields of the frame say. -/
def dissected (f : EthernetFrame) : PacoteDissecado where
  tamanho_bytes := f.bytes.length
  enlace := some ⟨f.destination.text, f.source.text, "0x800".toList⟩
  rede := some ⟨"ipv4", f.header.source.text, f.header.destination.text,
    f.segment.protocol.toNat, f.header.ttl.toNat⟩
  transporte := some f.segment.fields

end EthernetFrame

/-! ## Numbers from bytes -/

theorem toNat_operand (b : UInt8) : (operand b).toNat = b.toNat := by
  have := b.toNat_lt
  rw [operand, BitVec.toNat_ofNat]
  omega

/-- Two bytes put together. -/
theorem toNat_word16 (a b : UInt8) :
    (operand a <<< 8 ||| operand b).toNat = a.toNat * 2 ^ 8 + b.toNat := by
  have ha := a.toNat_lt
  have hb : b.toNat < 2 ^ 8 := b.toNat_lt
  have hshift : (operand a <<< 8).toNat = a.toNat <<< 8 := by
    rw [BitVec.toNat_shiftLeft, toNat_operand, Nat.shiftLeft_eq]
    exact Nat.mod_eq_of_lt (by omega)
  rw [BitVec.toNat_or, hshift, toNat_operand, ← Nat.shiftLeft_add_eq_or_of_lt hb,
    Nat.shiftLeft_eq]

/-- A byte that is shifted by less than 24 places stays positive. -/
theorem toInt_shiftLeft (b : UInt8) {k : ℕ} (hk : k ≤ 16) :
    (operand b <<< k).toInt = b.toNat * 2 ^ k := by
  have hb := b.toNat_lt
  have hpow : 2 ^ k ≤ 2 ^ 16 := Nat.pow_le_pow_right (by decide) hk
  have hlt : b.toNat * 2 ^ k < 2 ^ 31 := by
    calc b.toNat * 2 ^ k ≤ 255 * 2 ^ 16 := Nat.mul_le_mul (by omega) hpow
      _ < 2 ^ 31 := by decide
  have hnat : (operand b <<< k).toNat = b.toNat * 2 ^ k := by
    rw [BitVec.toNat_shiftLeft, toNat_operand, Nat.shiftLeft_eq]
    exact Nat.mod_eq_of_lt (by omega)
  rw [BitVec.toInt_eq_toNat_of_lt (by omega), hnat]
  norm_cast

theorem toNat_toInt32 {n : ℕ} (h : n < 2 ^ 32) : (toInt32 n).toNat = n := by
  rw [toInt32, BitVec.ofInt_natCast, BitVec.toNat_ofNat, Nat.mod_eq_of_lt h]

theorem readU16BE_be16 (x : UInt16) (rest : List UInt8) :
    readU16BE (be16 x ++ rest) 0 = some x.toNat := by
  have hx := x.toNat_lt
  show some (operand _ <<< 8 ||| operand _).toNat = _
  rw [toNat_word16, UInt8.toNat_ofNat', UInt8.toNat_ofNat']
  congr 1
  omega

theorem readU32BE_be32 (x : UInt32) (rest : List UInt8) :
    readU32BE (be32 x ++ rest) 0 = some x.toNat := by
  have hx := x.toNat_lt
  show some (toInt32 (_ * 0x1000000 + (operand _ <<< 16).toInt + (operand _ <<< 8).toInt +
    _)).toNat = _
  rw [toInt_shiftLeft _ (by decide), toInt_shiftLeft _ (by decide), UInt8.toNat_ofNat',
    UInt8.toNat_ofNat', UInt8.toNat_ofNat', UInt8.toNat_ofNat']
  have hvalue : ∀ v : ℤ, v = x.toNat → some (toInt32 v).toNat = some x.toNat := by
    rintro _ rfl
    rw [toNat_toInt32 hx]
  apply hvalue
  push_cast
  omega

/-! ## Reads further on -/

theorem byteAt_add (bytes : List UInt8) (n i : ℕ) :
    byteAt bytes (n + i) = byteAt (bytes.drop n) i := by
  rw [byteAt, byteAt, List.getElem?_drop]

theorem readU16BE_add (bytes : List UInt8) (n i : ℕ) :
    readU16BE bytes (n + i) = readU16BE (bytes.drop n) i := by
  simp only [readU16BE, Nat.add_assoc, byteAt_add bytes n]

theorem readU32BE_add (bytes : List UInt8) (n i : ℕ) :
    readU32BE bytes (n + i) = readU32BE (bytes.drop n) i := by
  simp only [readU32BE, Nat.add_assoc, byteAt_add bytes n]

theorem hexByte_eq (b : UInt8) :
    hexByte b = [Nat.digitChar (b.toNat / 16), Nat.digitChar (b.toNat % 16)] := by
  have hall : ∀ n : Fin 256, hexByte (UInt8.ofNat n) =
      [Nat.digitChar (n / 16), Nat.digitChar (n % 16)] := by
    decide +kernel
  have h := hall ⟨b.toNat, b.toNat_lt⟩
  rwa [UInt8.ofNat_toNat] at h

/-! ## The layers -/

namespace EthernetFrame

variable (f : EthernetFrame)

theorem length_front : f.front.length = 14 + f.header.ihl * 4 := by
  have hoptions := f.header.length_options
  simp only [front, Ipv4Header.fixed, Ipv4Header.ihl, MacAddress.bytes, Ipv4Address.bytes, be16,
    List.length_append, List.length_cons, List.length_nil]
  omega

theorem drop_front : f.bytes.drop (14 + f.header.ihl * 4) = f.segment.bytes := by
  rw [bytes, ← f.length_front, List.drop_left]

theorem length_bytes : f.bytes.length = 14 + f.header.ihl * 4 + f.segment.bytes.length := by
  rw [bytes, List.length_append, length_front]

/-- The nibble holds the length of the header in words. -/
theorem ihl_nibble (h : Ipv4Header) :
    ((UInt8.ofNat (0x40 + h.ihl) &&& 0x0f).toNat) * 4 = h.ihl * 4 := by
  have hall : ∀ n : Fin 11, (UInt8.ofNat (0x40 + (5 + n)) &&& 0x0f).toNat * 4 = (5 + n) * 4 := by
    decide
  exact hall h.words

/-- The segment is read behind the options. -/
theorem dissectTransporte_eq :
    dissectTransporte f.bytes (f.header.ihl * 4) f.segment.protocol =
        some (some f.segment.fields) := by
  have hlen := f.length_bytes
  have hdrop := f.drop_front
  have hat : ∀ i, byteAt f.bytes (14 + f.header.ihl * 4 + i) = byteAt f.segment.bytes i := by
    intro i
    rw [byteAt_add, hdrop]
  have h16 : ∀ i, readU16BE f.bytes (14 + f.header.ihl * 4 + i) = readU16BE f.segment.bytes i := by
    intro i
    rw [readU16BE_add, hdrop]
  have h32 : ∀ i, readU32BE f.bytes (14 + f.header.ihl * 4 + i) = readU32BE f.segment.bytes i := by
    intro i
    rw [readU32BE_add, hdrop]
  -- offsets are counted from the frame; the header of IP moves them to the segment
  cases hseg : f.segment with
  | tcp source destination seq ack rest complete =>
      have hfits : f.bytes.length ≥ 14 + f.header.ihl * 4 + 20 := by
        rw [hseg] at hlen
        simp only [Segment.bytes, be16, be32, List.length_append, List.length_cons,
          List.length_nil] at hlen
        omega
      rw [hseg] at h16 h32
      have hsource : readU16BE f.bytes (14 + f.header.ihl * 4) = some source.toNat := by
        rw [← Nat.add_zero (14 + f.header.ihl * 4), h16]
        exact readU16BE_be16 source _
      have hdestination : readU16BE f.bytes (14 + f.header.ihl * 4 + 2) =
          some destination.toNat := by
        rw [h16]
        exact readU16BE_be16 destination (be32 seq ++ be32 ack ++ rest)
      have hseq : readU32BE f.bytes (14 + f.header.ihl * 4 + 4) = some seq.toNat := by
        rw [h32]
        exact readU32BE_be32 seq (be32 ack ++ rest)
      have hack : readU32BE f.bytes (14 + f.header.ihl * 4 + 8) = some ack.toNat := by
        rw [h32]
        exact readU32BE_be32 ack rest
      rw [dissectTransporte, if_pos ⟨rfl, hfits⟩, hsource, hdestination, hseq, hack]
      rfl
  | udp source destination length checksum payload =>
      have hfits : f.bytes.length ≥ 14 + f.header.ihl * 4 + 8 := by
        rw [hseg] at hlen
        simp only [Segment.bytes, be16, List.length_append, List.length_cons,
          List.length_nil] at hlen
        omega
      rw [hseg] at h16
      have hsource : readU16BE f.bytes (14 + f.header.ihl * 4) = some source.toNat := by
        rw [← Nat.add_zero (14 + f.header.ihl * 4), h16]
        exact readU16BE_be16 source _
      have hdestination : readU16BE f.bytes (14 + f.header.ihl * 4 + 2) =
          some destination.toNat := by
        rw [h16]
        exact readU16BE_be16 destination (be16 length ++ be16 checksum ++ payload)
      have hlength : readU16BE f.bytes (14 + f.header.ihl * 4 + 4) = some length.toNat := by
        rw [h16]
        exact readU16BE_be16 length (be16 checksum ++ payload)
      have hprotocol : (17 : UInt8) ≠ 6 := by decide
      rw [dissectTransporte, if_neg fun h => hprotocol h.1, if_pos ⟨rfl, hfits⟩, hsource,
        hdestination, hlength]
      rfl
  | icmp type code checksum rest =>
      have hfits : f.bytes.length ≥ 14 + f.header.ihl * 4 + 4 := by
        rw [hseg] at hlen
        simp only [Segment.bytes, be16, List.length_append, List.length_cons,
          List.length_nil] at hlen
        omega
      rw [hseg] at hat
      have htype : byteAt f.bytes (14 + f.header.ihl * 4) = some type := by
        rw [← Nat.add_zero (14 + f.header.ihl * 4), hat]
        rfl
      have hcode : byteAt f.bytes (14 + f.header.ihl * 4 + 1) = some code := by
        rw [hat]
        rfl
      have htcp : (1 : UInt8) ≠ 6 := by decide
      have hudp : (1 : UInt8) ≠ 17 := by decide
      rw [dissectTransporte, if_neg fun h => htcp h.1, if_neg fun h =>
        hudp h.1, if_pos ⟨rfl, hfits⟩, htype, hcode]
      rfl

theorem dissectRede_eq :
    dissectRede f.bytes = some (⟨"ipv4", f.header.source.text, f.header.destination.text,
      f.segment.protocol.toNat, f.header.ttl.toNat⟩, some f.segment.fields) := by
  have hfirst : byteAt f.bytes 14 = some (UInt8.ofNat (0x40 + f.header.ihl)) := rfl
  have hprotocol : byteAt f.bytes 23 = some f.segment.protocol := rfl
  have hsource : ipv4ToString f.bytes 26 = some f.header.source.text := rfl
  have hdestination : ipv4ToString f.bytes 30 = some f.header.destination.text := rfl
  have httl : byteAt f.bytes 22 = some f.header.ttl := rfl
  rw [dissectRede, hfirst, hprotocol, hsource, hdestination, httl]
  show (dissectTransporte f.bytes ((UInt8.ofNat (0x40 + f.header.ihl) &&& 0x0f).toNat * 4)
    f.segment.protocol).bind _ = _
  rw [ihl_nibble, dissectTransporte_eq]
  rfl

theorem macToString_eq :
    macToString f.bytes 0 = some f.destination.text ∧
      macToString f.bytes 6 = some f.source.text := by
  have htext : ∀ m : MacAddress, [':'].intercalate (m.bytes.map hexByte) = m.text := by
    intro m
    rw [MacAddress.text]
    congr 1
    exact List.map_congr_left fun b _ => hexByte_eq b
  rw [← htext f.destination, ← htext f.source]
  exact ⟨rfl, rfl⟩

theorem dissectPacket_eq : dissectPacket f.bytes = some f.dissected := by
  have hlen := f.length_bytes
  have hihl : 5 ≤ f.header.ihl := Nat.le_add_right 5 _
  have hether : readU16BE f.bytes 12 = some 0x0800 := rfl
  obtain ⟨hdestination, hsource⟩ := f.macToString_eq
  rw [dissectPacket, if_pos (by omega), hether, hdestination, hsource]
  simp only [Option.bind_eq_bind, Option.bind_some]
  rw [if_pos ⟨trivial, by omega⟩, dissectRede_eq]
  rfl

end EthernetFrame

/-- Dissecting never reads outside the bytes, and gives the fields of every frame that carries a
complete TCP, UDP or ICMP header over IPv4. -/
theorem dissectPacket_exact :
    (∀ bytes, ∃ p, dissectPacket bytes = some p) ∧
      ∀ f : EthernetFrame, dissectPacket f.bytes = some f.dissected :=
  ⟨dissectPacket_total, EthernetFrame.dissectPacket_eq⟩

end GatoCore.Stdlib
