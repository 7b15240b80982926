import GatoCore.Lib.Tally
import GatoCore.Stdlib.Packets

/-!
# Conversations

Source: `dissectPacket`, `quadro`, `pacote`, `estatistica_conversa` and `seguir_fluxo` of
`stdlib/ptstdlib.js`.

The statistics take a packet that is dissected already as it is; following a flow dissects it once
more, and finds no bytes in it.
-/

namespace GatoCore.Stdlib

open GatoCore.Lib

/-! ## Items -/

/-- What a list of packets may hold: bytes, what `pacote` and `quadro` make of them, and what
`dissecar` returns. -/
inductive NetItem where
  | bytes (b : List UInt8)
  | pacote (b : List UInt8)
  | quadro (b : List UInt8)
  | dissecado (p : PacoteDissecado)
deriving DecidableEq

/-- The bytes `dissectPacket` takes from its argument: a dissected packet has neither `bytes` nor
`dados`. -/
def NetItem.input : NetItem → List UInt8
  | bytes b | pacote b | quadro b => b
  | dissecado _ => []

def dissectItem (item : NetItem) : Option PacoteDissecado := dissectPacket item.input

/-- `item.tipo_recurso === "pacote_dissecado" ? item : dissectPacket(item)`. -/
def parsedItem : NetItem → Option PacoteDissecado
  | .dissecado p => some p
  | item => dissectItem item

/-! ## Keys -/

/-- `text || "?"`. -/
def textOrMark (t : Text) : Text := if t = [] then ['?'] else t

/-- `n || "?"`, as a text. -/
def numberOrMark (n : ℕ) : Text := if n = 0 then ['?'] else decimal n

def Transporte.tipo : Transporte → Text
  | tcp .. => "tcp".toList
  | udp .. => "udp".toList
  | icmp .. => "icmp".toList

/-- The ports, which ICMP does not have. -/
def Transporte.ports : Transporte → Option (ℕ × ℕ)
  | tcp origem destino _ _ | udp origem destino _ => some (origem, destino)
  | icmp .. => none

/-- The key of a conversation. -/
def conversationKey (p : PacoteDissecado) : Text :=
  let network (field : Rede → Text) := (p.rede.map fun r => textOrMark (field r)).getD ['?']
  let port (side : ℕ × ℕ → ℕ) :=
    ((p.transporte.bind Transporte.ports).map fun ports => numberOrMark (side ports)).getD ['?']
  ['>'].intercalate [network Rede.origem, port Prod.fst, network Rede.destino, port Prod.snd,
    (p.transporte.map Transporte.tipo).getD ['?']]

/-! ## The two functions -/

def estatistica_conversa (items : List NetItem) : Option (List (Text × ℕ)) :=
  items.foldlM (fun acc item => do
    let parsed ← parsedItem item
    return bump (conversationKey parsed) acc) []

def seguir_fluxo (items : List NetItem) (key : Text) : Option (List PacoteDissecado) :=
  if key = [] then items.mapM dissectItem
  else do
    let parsed ← items.mapM dissectItem
    return parsed.filter fun item => conversationKey item = key

/-- What is dissected of no bytes. -/
def blankPacket : PacoteDissecado := ⟨0, none, none, none⟩

/-- For every key of the statistics, the flow has as many packets as they say, and these are the
packets of the list with that key, in order; and the counts add up. -/
def FlowsAgree (items : List NetItem) : Prop :=
  ∃ stats parsed, estatistica_conversa items = some stats ∧ items.mapM parsedItem = some parsed ∧
    (∀ k n, entry k stats = some n → ∃ flow, seguir_fluxo items k = some flow ∧
      flow.length = n ∧ flow = parsed.filter fun item => conversationKey item = k) ∧
    (stats.map Prod.snd).sum = items.length

/-! ## Dissecting always succeeds -/

/-- What `dissectPacket` returns. -/
def dissectedOf (item : NetItem) : PacoteDissecado := (dissectItem item).getD blankPacket

/-- What the statistics count. -/
def parsedOf (item : NetItem) : PacoteDissecado := (parsedItem item).getD blankPacket

theorem dissectItem_eq (item : NetItem) : dissectItem item = some (dissectedOf item) := by
  obtain ⟨p, hp⟩ := dissectPacket_total item.input
  rw [dissectedOf, dissectItem, hp]
  rfl

theorem parsedItem_eq (item : NetItem) : parsedItem item = some (parsedOf item) := by
  cases item with
  | dissecado p => rfl
  | bytes b => exact dissectItem_eq (.bytes b)
  | pacote b => exact dissectItem_eq (.pacote b)
  | quadro b => exact dissectItem_eq (.quadro b)

/-- Only a packet that is dissected already is read in two ways. -/
theorem dissectedOf_cases (item : NetItem) :
    dissectedOf item = parsedOf item ∨
      ∃ p, item = .dissecado p ∧ parsedOf item = p ∧ dissectedOf item = blankPacket := by
  cases item with
  | dissecado p => exact .inr ⟨p, rfl, rfl, rfl⟩
  | bytes b => exact .inl rfl
  | pacote b => exact .inl rfl
  | quadro b => exact .inl rfl

theorem mapM_some {α β : Type} (f : α → β) (as : List α) :
    as.mapM (fun a => some (f a)) = some (as.map f) := List.mapM_pure

theorem mapM_dissectItem (items : List NetItem) :
    items.mapM dissectItem = some (items.map dissectedOf) := by
  rw [funext dissectItem_eq, mapM_some]

theorem mapM_parsedItem (items : List NetItem) :
    items.mapM parsedItem = some (items.map parsedOf) := by
  rw [funext parsedItem_eq, mapM_some]

theorem estatistica_conversa_eq (items : List NetItem) :
    estatistica_conversa items =
      some (tally (items.map fun item => conversationKey (parsedOf item))) := by
  have hstep : (fun (acc : List (Text × ℕ)) item => do
      let parsed ← parsedItem item
      return bump (conversationKey parsed) acc) =
      fun acc item => some (bump (conversationKey (parsedOf item)) acc) := by
    funext acc item
    rw [parsedItem_eq]
    rfl
  rw [estatistica_conversa, hstep, tally, List.foldl_map]
  exact List.foldlM_pure ..

theorem conversationKey_ne_nil (p : PacoteDissecado) : conversationKey p ≠ [] := by
  unfold conversationKey
  dsimp only
  rw [List.intercalate_cons_cons]
  simp

theorem seguir_fluxo_eq (items : List NetItem) {key : Text} (hkey : key ≠ []) :
    seguir_fluxo items key =
      some ((items.map dissectedOf).filter fun item => conversationKey item = key) := by
  rw [seguir_fluxo, if_neg hkey, mapM_dissectItem]
  rfl

/-! ## When the two agree -/

/-- The flows agree when, for each key, the packets dissected anew are the packets counted. -/
theorem flowsAgree_iff_filters (items : List NetItem) :
    FlowsAgree items ↔ ∀ item ∈ items,
      (items.map dissectedOf).filter (conversationKey · = conversationKey (parsedOf item)) =
        (items.map parsedOf).filter (conversationKey · = conversationKey (parsedOf item)) := by
  constructor
  · rintro ⟨stats, parsed, hstats, hparsed, hflows, -⟩ item hitem
    rw [estatistica_conversa_eq] at hstats
    rw [mapM_parsedItem] at hparsed
    cases hstats
    cases hparsed
    have hkey := entry_tally (items.map fun item => conversationKey (parsedOf item))
      (conversationKey (parsedOf item))
    rw [if_pos (List.mem_map_of_mem hitem)] at hkey
    obtain ⟨flow, hflow, -, heq⟩ := hflows _ _ hkey
    rw [seguir_fluxo_eq items (conversationKey_ne_nil _), Option.some.injEq] at hflow
    rw [hflow, heq]
  · intro h
    refine ⟨_, _, estatistica_conversa_eq items, mapM_parsedItem items, ?_, ?_⟩
    · intro k n hk
      rw [entry_tally] at hk
      split at hk
      · rename_i hmem
        obtain ⟨item, hitem, rfl⟩ := List.mem_map.mp hmem
        cases hk
        refine ⟨_, seguir_fluxo_eq items (conversationKey_ne_nil _), ?_, h item hitem⟩
        rw [h item hitem, ← List.countP_eq_length_filter, List.countP_map, List.countP_map]
        apply List.countP_congr
        intro other _
        simp
      · cases hk
    · rw [sum_tally, List.length_map]

/-- As soon as the packets with a key are as many in both readings, each item with that key in the
second reading has it in the first. -/
theorem key_of_same_filter {items : List NetItem} {k : Text}
    (hk : k ≠ conversationKey blankPacket)
    (h : (items.map dissectedOf).filter (conversationKey · = k) =
      (items.map parsedOf).filter (conversationKey · = k)) {item : NetItem} (hitem : item ∈ items)
    (hkey : conversationKey (parsedOf item) = k) : conversationKey (dissectedOf item) = k := by
  have hone : ∀ i ∈ items, conversationKey (dissectedOf i) = k → conversationKey (parsedOf i) =
      k := by
    intro i _ hi
    rcases dissectedOf_cases i with heq | ⟨p, -, -, hblank⟩
    · rwa [← heq]
    · rw [hblank] at hi
      exact (hk hi.symm).elim
  by_contra hother
  -- the item is counted in the second reading only
  have hlt : items.countP (fun i => conversationKey (dissectedOf i) = k) <
      items.countP (fun i => conversationKey (parsedOf i) = k) :=
    countP_lt_countP (fun i hi => by simpa using hone i hi) hitem (by simpa using hother)
      (by simpa using hkey)
  have hlen := congrArg List.length h
  rw [← List.countP_eq_length_filter, ← List.countP_eq_length_filter, List.countP_map,
    List.countP_map] at hlen
  exact absurd hlen (Nat.ne_of_lt hlt)

/-- The two functions agree exactly when every packet of the list that is dissected already was
dissected of no bytes. -/
theorem flowsAgree_iff (items : List NetItem) :
    FlowsAgree items ↔ ∀ p, .dissecado p ∈ items → p = blankPacket := by
  rw [flowsAgree_iff_filters]
  constructor
  · intro h
    have hkeys : ∀ p, NetItem.dissecado p ∈ items →
        conversationKey p = conversationKey blankPacket := by
      intro p hp
      by_contra hne
      exact hne (key_of_same_filter hne (h _ hp) hp rfl).symm
    intro p hp
    -- with one key for all of them, the two readings keep the same items
    have hfilter := h _ hp
    have hkey : conversationKey (parsedOf (.dissecado p)) = conversationKey blankPacket :=
      hkeys p hp
    have hsame : ∀ item ∈ items,
        (conversationKey (dissectedOf item) = conversationKey blankPacket) =
          (conversationKey (parsedOf item) = conversationKey blankPacket) := by
      intro item hitem
      rcases dissectedOf_cases item with heq | ⟨p', rfl, hparsed, hblank⟩
      · rw [heq]
      · rw [hblank, hparsed, hkeys p' hitem]
    rw [hkey, List.filter_map, List.filter_map] at hfilter
    have hitems :
      items.filter ((fun q => decide (conversationKey q = conversationKey blankPacket)) ∘
          dissectedOf) =
        items.filter ((fun q => decide (conversationKey q = conversationKey blankPacket)) ∘
          parsedOf) := by
      apply List.filter_congr
      intro item hitem
      exact decide_eq_decide.mpr (hsame item hitem).to_iff
    rw [hitems, List.map_inj_left] at hfilter
    have hmem : NetItem.dissecado p ∈
        items.filter ((fun q => decide (conversationKey q = conversationKey blankPacket)) ∘
          parsedOf) := List.mem_filter.mpr ⟨hp, decide_eq_true hkey⟩
    exact (hfilter _ hmem).symm
  · intro h item _
    have hsame : ∀ other ∈ items, dissectedOf other = parsedOf other := by
      intro other hother
      rcases dissectedOf_cases other with heq | ⟨p, rfl, hparsed, hblank⟩
      · exact heq
      · rw [hblank, hparsed, h p hother]
    rw [List.map_congr_left hsame]

/-- A UDP datagram between two hosts, without contents. -/
def udpFrame : List UInt8 :=
  [0, 0, 0, 0, 0, 2, 0, 0, 0, 0, 0, 1, 0x08, 0x00, 0x45, 0, 0, 28, 0, 0, 0, 0, 64, 17, 0, 0,
    10, 0, 0, 1, 10, 0, 0, 2, 0, 53, 0, 80, 0, 8, 0, 0]

def udpPacket : PacoteDissecado where
  tamanho_bytes := 42
  enlace := some ⟨"00:00:00:00:00:02".toList, "00:00:00:00:00:01".toList, "0x800".toList⟩
  rede := some ⟨"ipv4", "10.0.0.1".toList, "10.0.0.2".toList, 17, 64⟩
  transporte := some (.udp 53 80 8)

/-- The statistics count the dissected packet, and its flow has none. -/
theorem dissected_packet_not_followed :
    dissectPacket udpFrame = some udpPacket ∧
      ¬ (∀ items, FlowsAgree items) ∧ ¬ FlowsAgree [.dissecado udpPacket] := by
  have hbroken : ¬ FlowsAgree [.dissecado udpPacket] := by
    intro h
    have hfilter := (flowsAgree_iff_filters _).mp h _ List.mem_cons_self
    revert hfilter
    decide +kernel
  exact ⟨by decide +kernel, fun hall => hbroken (hall _), hbroken⟩

end GatoCore.Stdlib
