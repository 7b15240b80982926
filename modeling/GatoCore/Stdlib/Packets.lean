import GatoCore.Lib.Lists
import GatoCore.Stdlib.Bitset
import GatoCore.Stdlib.Paths

/-!
# Packets

Source: `macToString`, `ipv4ToString`, `readU16BE`, `readU32BE`, `dissectPacket`,
`estatistica_conversa` and `seguir_fluxo` of `stdlib/ptstdlib.js`.

A read outside the bytes is `none` here, so that what is dissected is `some` only when no read was.
-/

namespace GatoCore.Stdlib

open GatoCore.Lib

/-! ## Reading fields -/

/-- `bytes[i]`. -/
def byteAt (bytes : List UInt8) (i : ℕ) : Option UInt8 := bytes[i]?

/-- A byte as an operand of the operators. -/
def operand (b : UInt8) : BitVec 32 := BitVec.ofNat 32 b.toNat

def readU16BE (bytes : List UInt8) (offset : ℕ) : Option ℕ := do
  let a ← byteAt bytes offset
  let b ← byteAt bytes (offset + 1)
  return (operand a <<< 8 ||| operand b).toNat

def readU32BE (bytes : List UInt8) (offset : ℕ) : Option ℕ := do
  let a ← byteAt bytes offset
  let b ← byteAt bytes (offset + 1)
  let c ← byteAt bytes (offset + 2)
  let d ← byteAt bytes (offset + 3)
  return (toInt32 (a.toNat * 0x1000000 + (operand b <<< 16).toInt + (operand c <<< 8).toInt +
    d.toNat)).toNat

/-- `n.toString(16)`. -/
def hex (n : ℕ) : Text := Nat.toDigits 16 n

/-- `n.toString()`. -/
def decimal (n : ℕ) : Text := Nat.toDigits 10 n

/-- `("0" + byte.toString(16)).slice(-2)`. -/
def hexByte (b : UInt8) : Text :=
  let text := '0' :: hex b.toNat
  text.drop (text.length - 2)

def macToString (bytes : List UInt8) (offset : ℕ) : Option Text := do
  let parts ← (List.range 6).mapM fun i => byteAt bytes (offset + i)
  return [':'].intercalate (parts.map hexByte)

def ipv4ToString (bytes : List UInt8) (offset : ℕ) : Option Text := do
  let a ← byteAt bytes offset
  let b ← byteAt bytes (offset + 1)
  let c ← byteAt bytes (offset + 2)
  let d ← byteAt bytes (offset + 3)
  return ['.'].intercalate ([a, b, c, d].map fun x => decimal x.toNat)

/-! ## Dissecting -/

structure Enlace where
  destino : Text
  origem : Text
  tipo : Text
deriving DecidableEq

structure Rede where
  tipo : String
  origem : Text
  destino : Text
  protocolo : ℕ
  ttl : ℕ
deriving DecidableEq

inductive Transporte where
  | tcp (origem destino seq ack : ℕ)
  | udp (origem destino tamanho : ℕ)
  | icmp (codigo_tipo codigo_subtipo : ℕ)
deriving DecidableEq

structure PacoteDissecado where
  tamanho_bytes : ℕ
  enlace : Option Enlace
  rede : Option Rede
  transporte : Option Transporte
deriving DecidableEq

/-- The transport layer, behind an IPv4 header of `ihl` bytes. -/
def dissectTransporte (bytes : List UInt8) (ihl : ℕ) (protocol : UInt8) :
    Option (Option Transporte) := do
  let offset := 14 + ihl
  if protocol = 6 ∧ bytes.length ≥ 14 + ihl + 20 then
    let origem ← readU16BE bytes offset
    let destino ← readU16BE bytes (offset + 2)
    let seq ← readU32BE bytes (offset + 4)
    let ack ← readU32BE bytes (offset + 8)
    return some (.tcp origem destino seq ack)
  else if protocol = 17 ∧ bytes.length ≥ 14 + ihl + 8 then
    let origem ← readU16BE bytes offset
    let destino ← readU16BE bytes (offset + 2)
    let tamanho ← readU16BE bytes (offset + 4)
    return some (.udp origem destino tamanho)
  else if protocol = 1 ∧ bytes.length ≥ 14 + ihl + 4 then
    let codigo_tipo ← byteAt bytes offset
    let codigo_subtipo ← byteAt bytes (offset + 1)
    return some (.icmp codigo_tipo.toNat codigo_subtipo.toNat)
  else return none

/-- The IPv4 layer and what it carries. -/
def dissectRede (bytes : List UInt8) : Option (Rede × Option Transporte) := do
  let first ← byteAt bytes 14
  let ihl := (first &&& 0x0f).toNat * 4
  let protocol ← byteAt bytes 23
  let origem ← ipv4ToString bytes 26
  let destino ← ipv4ToString bytes 30
  let ttl ← byteAt bytes 22
  let transporte ← dissectTransporte bytes ihl protocol
  return (⟨"ipv4", origem, destino, protocol.toNat, ttl.toNat⟩, transporte)

def dissectPacket (bytes : List UInt8) : Option PacoteDissecado := do
  if bytes.length ≥ 14 then
    let etherType ← readU16BE bytes 12
    let destino ← macToString bytes 0
    let origem ← macToString bytes 6
    let enlace : Enlace := ⟨destino, origem, "0x".toList ++ hex etherType⟩
    if etherType = 0x0800 ∧ bytes.length ≥ 34 then
      let (rede, transporte) ← dissectRede bytes
      return ⟨bytes.length, some enlace, some rede, transporte⟩
    else return ⟨bytes.length, some enlace, none, none⟩
  else return ⟨bytes.length, none, none, none⟩

/-! ## Reads inside the bytes -/

section Bounds

variable {bytes : List UInt8}

theorem byteAt_of_lt {i : ℕ} (h : i < bytes.length) : ∃ b, byteAt bytes i = some b :=
  ⟨_, List.getElem?_eq_getElem h⟩

theorem readU16BE_of_lt {offset : ℕ} (h : offset + 1 < bytes.length) :
    ∃ n, readU16BE bytes offset = some n := by
  obtain ⟨a, ha⟩ := byteAt_of_lt (show offset < bytes.length by omega)
  obtain ⟨b, hb⟩ := byteAt_of_lt h
  exact ⟨_, by rw [readU16BE, ha, hb]; rfl⟩

theorem readU32BE_of_lt {offset : ℕ} (h : offset + 3 < bytes.length) :
    ∃ n, readU32BE bytes offset = some n := by
  obtain ⟨a, ha⟩ := byteAt_of_lt (show offset < bytes.length by omega)
  obtain ⟨b, hb⟩ := byteAt_of_lt (show offset + 1 < bytes.length by omega)
  obtain ⟨c, hc⟩ := byteAt_of_lt (show offset + 2 < bytes.length by omega)
  obtain ⟨d, hd⟩ := byteAt_of_lt h
  exact ⟨_, by rw [readU32BE, ha, hb, hc, hd]; rfl⟩

theorem macToString_of_lt {offset : ℕ} (h : offset + 5 < bytes.length) :
    ∃ t, macToString bytes offset = some t := by
  have hparts : ∃ parts, (List.range 6).mapM (fun i => byteAt bytes (offset + i)) = some parts := by
    refine ⟨(List.range 6).map fun i => bytes.getD (offset + i) 0, ?_⟩
    refine mapM_eq_some_iff.mpr ?_
    rw [List.forall₂_map_right_iff, List.forall₂_same]
    intro i hi
    have hlt : offset + i < bytes.length := by
      have := List.mem_range.mp hi
      omega
    rw [byteAt, List.getD_eq_getElem _ _ hlt, List.getElem?_eq_getElem hlt]
  obtain ⟨parts, hparts⟩ := hparts
  exact ⟨_, by rw [macToString, hparts]; rfl⟩

theorem ipv4ToString_of_lt {offset : ℕ} (h : offset + 3 < bytes.length) :
    ∃ t, ipv4ToString bytes offset = some t := by
  obtain ⟨a, ha⟩ := byteAt_of_lt (show offset < bytes.length by omega)
  obtain ⟨b, hb⟩ := byteAt_of_lt (show offset + 1 < bytes.length by omega)
  obtain ⟨c, hc⟩ := byteAt_of_lt (show offset + 2 < bytes.length by omega)
  obtain ⟨d, hd⟩ := byteAt_of_lt h
  exact ⟨_, by rw [ipv4ToString, ha, hb, hc, hd]; rfl⟩

/-- Each transport layer tests the length for its own fields. -/
theorem dissectTransporte_total (bytes : List UInt8) (ihl : ℕ) (protocol : UInt8) :
    ∃ t, dissectTransporte bytes ihl protocol = some t := by
  unfold dissectTransporte
  dsimp only
  split
  · rename_i htcp
    obtain ⟨origem, horigem⟩ := readU16BE_of_lt (show 14 + ihl + 1 < bytes.length by omega)
    obtain ⟨destino, hdestino⟩ := readU16BE_of_lt (show 14 + ihl + 2 + 1 < bytes.length by omega)
    obtain ⟨seq, hseq⟩ := readU32BE_of_lt (show 14 + ihl + 4 + 3 < bytes.length by omega)
    obtain ⟨ack, hack⟩ := readU32BE_of_lt (show 14 + ihl + 8 + 3 < bytes.length by omega)
    exact ⟨_, by rw [horigem, hdestino, hseq, hack]; rfl⟩
  · split
    · rename_i hudp
      obtain ⟨origem, horigem⟩ := readU16BE_of_lt (show 14 + ihl + 1 < bytes.length by omega)
      obtain ⟨destino, hdestino⟩ :=
        readU16BE_of_lt (show 14 + ihl + 2 + 1 < bytes.length by omega)
      obtain ⟨tamanho, htamanho⟩ :=
        readU16BE_of_lt (show 14 + ihl + 4 + 1 < bytes.length by omega)
      exact ⟨_, by rw [horigem, hdestino, htamanho]; rfl⟩
    · split
      · rename_i hicmp
        obtain ⟨tipo, htipo⟩ := byteAt_of_lt (show 14 + ihl < bytes.length by omega)
        obtain ⟨subtipo, hsubtipo⟩ := byteAt_of_lt (show 14 + ihl + 1 < bytes.length by omega)
        exact ⟨_, by rw [htipo, hsubtipo]; rfl⟩
      · exact ⟨none, rfl⟩

theorem dissectRede_total (h : 34 ≤ bytes.length) : ∃ r, dissectRede bytes = some r := by
  obtain ⟨first, hfirst⟩ := byteAt_of_lt (show 14 < bytes.length by omega)
  obtain ⟨protocol, hprotocol⟩ := byteAt_of_lt (show 23 < bytes.length by omega)
  obtain ⟨origem, horigem⟩ := ipv4ToString_of_lt (show 26 + 3 < bytes.length by omega)
  obtain ⟨destino, hdestino⟩ := ipv4ToString_of_lt (show 30 + 3 < bytes.length by omega)
  obtain ⟨ttl, httl⟩ := byteAt_of_lt (show 22 < bytes.length by omega)
  obtain ⟨transporte, htransporte⟩ :=
    dissectTransporte_total bytes ((first &&& 0x0f).toNat * 4) protocol
  refine ⟨(⟨"ipv4", origem, destino, protocol.toNat, ttl.toNat⟩, transporte), ?_⟩
  rw [dissectRede, hfirst, hprotocol, horigem, hdestino, httl]
  show (dissectTransporte bytes ((first &&& 0x0f).toNat * 4) protocol).bind _ = _
  rw [htransporte]
  rfl

theorem dissectPacket_total (bytes : List UInt8) : ∃ p, dissectPacket bytes = some p := by
  unfold dissectPacket
  split
  · rename_i hlen
    obtain ⟨etherType, hether⟩ := readU16BE_of_lt (show 12 + 1 < bytes.length by omega)
    obtain ⟨destino, hdestino⟩ := macToString_of_lt (show 0 + 5 < bytes.length by omega)
    obtain ⟨origem, horigem⟩ := macToString_of_lt (show 6 + 5 < bytes.length by omega)
    rw [hether, hdestino, horigem]
    show ∃ p, (if etherType = 0x0800 ∧ bytes.length ≥ 34 then _ else _) = some p
    split
    · rename_i hrede
      obtain ⟨r, hr⟩ := dissectRede_total hrede.2
      rw [hr]
      exact ⟨_, rfl⟩
    · exact ⟨_, rfl⟩
  · exact ⟨_, rfl⟩

end Bounds

end GatoCore.Stdlib
