import GatoCore.Doom.Wad
import GatoCore.Lib.Lists

/-!
# Decoding is safe and inverts the writer

A file either fails an assertion of `parseBytes` or gives lumps that lie in it; no access is out of
bounds. The writer's files are header, data and entries of 16 bytes one after the other, and each
entry is read back at its place.
-/

namespace GatoCore.Doom

open GatoCore.Lib GatoCore.Stdlib

variable {α β : Type}

/-! ## Safety -/

/-- A good result or a failed assertion; never an access out of bounds. -/
def Decodes (good : α → Prop) : Except WadErro α → Prop
  | .ok a => good a
  | .error e => ∃ message, e = .assercao message

theorem Decodes.bind {good : α → Prop} {good' : β → Prop} {x : Except WadErro α}
    {f : α → Except WadErro β} (hx : Decodes good x) (hf : ∀ a, good a → Decodes good' (f a)) :
    Decodes good' (x >>= f) := by
  cases x with
  | ok a => exact hf a hx
  | error e => exact hx

theorem decodes_assert (condition : Bool) (message : Text) :
    Decodes (fun _ => condition = true) (assert condition message) := by
  rw [assert]
  split
  next h => exact h
  next => exact ⟨_, rfl⟩

theorem decodes_readU32LE {view : Bytes} {offset : ℕ} (h : offset + 4 ≤ view.length) :
    Decodes (fun _ => True) (readU32LE view offset) := by
  obtain ⟨word, hword⟩ := readAt_isSome h
  rw [readU32LE, hword]
  exact trivial

theorem decodes_mapM {good : β → Prop} {f : α → Except WadErro β} {as : List α}
    (h : ∀ a ∈ as, Decodes good (f a)) : Decodes (fun bs => ∀ b ∈ bs, good b) (as.mapM f) := by
  induction as with
  | nil => exact fun b hb => absurd hb List.not_mem_nil
  | cons a as ih =>
      obtain ⟨ha, has⟩ := List.forall_mem_cons.mp h
      rw [List.mapM_cons]
      refine Decodes.bind ha ?_
      intro b hb
      refine Decodes.bind (ih has) ?_
      intro bs hbs
      exact List.forall_mem_cons.mpr ⟨hb, hbs⟩

/-- A lump lies in the file. -/
def Lump.Within (bytes : Bytes) (lump : Lump) : Prop := lump.offset + lump.size ≤ bytes.length

theorem decodes_parseEntry {bytes : Bytes} {directoryOffset idx : ℕ}
    (h : directoryOffset + idx * 16 + 16 ≤ bytes.length) :
    Decodes (Lump.Within bytes) (parseEntry bytes directoryOffset idx) := by
  refine Decodes.bind (decodes_readU32LE (by omega)) ?_
  intro lumpOffset _
  refine Decodes.bind (decodes_readU32LE (by omega)) ?_
  intro lumpSize _
  refine Decodes.bind (decodes_assert _ _) ?_
  intro _ hwithin
  have hwithin := of_decide_eq_true hwithin
  exact hwithin

/-- What `parseBytes` guarantees of a directory. -/
structure Wad.Good (buffer : Buffer) (wad : Wad) : Prop where
  bytes : wad.bytes = toBytes buffer
  within : ∀ lump ∈ wad.lumps, lump.Within wad.bytes

theorem decodes_parseBytes (buffer : Buffer) (origin : Option Text) :
    Decodes (Wad.Good buffer) (parseBytes buffer origin) := by
  refine Decodes.bind (decodes_assert _ _) ?_
  intro _ hshort
  have hshort := of_decide_eq_true hshort
  refine Decodes.bind (decodes_readU32LE (by omega)) ?_
  intro lumpCount _
  refine Decodes.bind (decodes_readU32LE (by omega)) ?_
  intro directoryOffset _
  refine Decodes.bind (decodes_assert _ _) ?_
  intro _ _
  refine Decodes.bind (decodes_assert _ _) ?_
  intro _ hdirectory
  have hdirectory := of_decide_eq_true hdirectory
  -- the directory as a whole is in the file, so each entry is
  have hentries : ∀ idx ∈ List.range lumpCount,
      Decodes (Lump.Within (toBytes buffer)) (parseEntry (toBytes buffer) directoryOffset idx) := by
    intro idx hidx
    have hidx := List.mem_range.mp hidx
    exact decodes_parseEntry (by omega)
  refine Decodes.bind (decodes_mapM hentries) ?_
  intro lumps hlumps
  exact ⟨rfl, hlumps⟩

theorem length_lumpBytes {wad : Wad} {lump : Lump} (h : lump.Within wad.bytes) :
    (lumpBytes wad lump).length = lump.size := by
  rw [Lump.Within] at h
  rw [lumpBytes, List.length_drop, List.length_take]
  omega

/-! ## What the writer lays out -/

/-- A name of at most eight non-zero bytes. -/
def LumpData.Named (lump : LumpData) : Prop :=
  lump.name.length ≤ 8 ∧ ∀ ch ∈ lump.name, 0 < ch.toNat ∧ ch.toNat < 256

instance (lump : LumpData) : Decidable lump.Named :=
  decidable_of_iff (lump.name.length ≤ 8 ∧
    lump.name.all fun ch => decide (0 < ch.toNat ∧ ch.toNat < 256)) (by simp [LumpData.Named])

/-- The data of the lumps, one after the other. -/
def dataArea (lumps : List LumpData) : Bytes := lumps.flatMap LumpData.bytes

/-- The offsets of lumps laid out from `offset` on. -/
def offsetsFrom : ℕ → List LumpData → List ℕ
  | _, [] => []
  | offset, lump :: lumps => offset :: offsetsFrom (offset + lump.bytes.length) lumps

/-- An entry of the directory: offset, size and the name filled up with zeros. -/
def entryBytes (entry : LumpData × ℕ) : Bytes :=
  leBytes 4 entry.2 ++ leBytes 4 entry.1.bytes.length ++
    (nameBytes entry.1.name ++ List.replicate (8 - entry.1.name.length) 0)

def headerBytes (lumps : List LumpData) : Bytes :=
  [0x50, 0x57, 0x41, 0x44] ++ leBytes 4 lumps.length ++ leBytes 4 (headerSize + dataSize lumps)

def layout (lumps : List LumpData) : Bytes :=
  headerBytes lumps ++ dataArea lumps ++
    (lumps.zip (offsetsFrom headerSize lumps)).flatMap entryBytes

@[simp] theorem length_nameBytes (name : Text) : (nameBytes name).length = name.length :=
  List.length_map _

theorem length_entryBytes {entry : LumpData × ℕ} (h : entry.1.Named) :
    (entryBytes entry).length = 16 := by
  have hname := h.1
  simp only [entryBytes, List.length_append, length_leBytes, length_nameBytes,
    List.length_replicate]
  omega

theorem length_entries {entries : List (LumpData × ℕ)} (h : ∀ e ∈ entries, e.1.Named) :
    (entries.flatMap entryBytes).length = 16 * entries.length := by
  induction entries with
  | nil => rfl
  | cons entry entries ih =>
      obtain ⟨hentry, hentries⟩ := List.forall_mem_cons.mp h
      rw [List.flatMap_cons, List.length_append, length_entryBytes hentry, ih hentries,
        List.length_cons]
      omega

@[simp] theorem length_headerBytes (lumps : List LumpData) :
    (headerBytes lumps).length = headerSize := by
  simp only [headerBytes, List.length_append, length_leBytes, List.length_cons, List.length_nil]
  rfl

theorem dataSize_eq (lumps : List LumpData) : dataSize lumps = (dataArea lumps).length := by
  have hfold : ∀ acc, lumps.foldl (fun acc lump => acc + lump.bytes.length) acc
      = acc + (dataArea lumps).length := by
    induction lumps with
    | nil => exact fun acc => rfl
    | cons lump lumps ih =>
        intro acc
        rw [List.foldl_cons, ih, dataArea, dataArea, List.flatMap_cons, List.length_append,
          Nat.add_assoc]
  rw [dataSize, hfold, Nat.zero_add]

@[simp] theorem length_offsetsFrom (offset : ℕ) (lumps : List LumpData) :
    (offsetsFrom offset lumps).length = lumps.length := by
  induction lumps generalizing offset with
  | nil => rfl
  | cons lump lumps ih => rw [offsetsFrom, List.length_cons, List.length_cons, ih]

/-! ### The writer's loops -/

theorem setBytes_blank {written data : Bytes} {offset n : ℕ} (h : offset = written.length) :
    setBytes (written ++ List.replicate (data.length + n) 0) data offset
      = .ok (written ++ data ++ List.replicate n 0) := by
  rw [setBytes, writeAt_blank h]

theorem writeU32LE_blank {written : Bytes} {offset value n : ℕ} (h : offset = written.length) :
    writeU32LE (written ++ List.replicate (4 + n) 0) offset value
      = .ok (written ++ leBytes 4 value ++ List.replicate n 0) := by
  have hwrite := @writeAt_blank UInt8 written (leBytes 4 value) 0 offset n h
  rw [length_leBytes] at hwrite
  rw [writeU32LE, hwrite]

theorem writeData_blank (lumps : List LumpData) (n : ℕ) : ∀ (written : Bytes) (offset : ℕ),
    offset = written.length →
    writeData lumps (written ++ List.replicate ((dataArea lumps).length + n) 0) offset
      = .ok (written ++ dataArea lumps ++ List.replicate n 0, offsetsFrom offset lumps) := by
  induction lumps with
  | nil =>
      intro written offset _
      simp [writeData, dataArea, offsetsFrom]
  | cons lump lumps ih =>
      intro written offset h
      have hlen : (dataArea (lump :: lumps)).length + n
          = lump.bytes.length + ((dataArea lumps).length + n) := by
        rw [dataArea, List.flatMap_cons, List.length_append, Nat.add_assoc]
        rfl
      have hnext : offset + lump.bytes.length = (written ++ lump.bytes).length := by
        rw [h, List.length_append]
      have hcons : written ++ dataArea (lump :: lumps) = written ++ lump.bytes ++
          dataArea lumps := by
        rw [dataArea, List.flatMap_cons, List.append_assoc]
        rfl
      rw [writeData, hlen, setBytes_blank h, hcons, offsetsFrom]
      simp only [bind, Except.bind, ih _ _ hnext, pure, Except.pure]

theorem writeEntries_blank {entries : List (LumpData × ℕ)} (hnamed : ∀ e ∈ entries, e.1.Named) :
    ∀ (written : Bytes) (offset : ℕ), offset = written.length →
    writeEntries entries (written ++ List.replicate (16 * entries.length) 0) offset
      = .ok (written ++ entries.flatMap entryBytes) := by
  induction entries with
  | nil =>
      intro written offset _
      simp [writeEntries]
  | cons entry entries ih =>
      obtain ⟨lump, place⟩ := entry
      obtain ⟨hname, hnamed⟩ := List.forall_mem_cons.mp hnamed
      intro written offset h
      have hfits := hname.1
      -- the space of an entry: two words, the name and what the name leaves blank
      have hlen : 16 * (entries.length + 1) = 4 + (4 + ((nameBytes lump.name).length +
          ((8 - lump.name.length) + 16 * entries.length))) := by
        rw [length_nameBytes]
        simp only at hfits
        omega
      have hsize : offset + 4 = (written ++ leBytes 4 place).length := by
        rw [h, List.length_append, length_leBytes]
      have hat : offset + 8
          = (written ++ leBytes 4 place ++ leBytes 4 lump.bytes.length).length := by
        rw [List.length_append, ← hsize, length_leBytes]
      rw [List.length_cons, hlen, writeEntries, writeU32LE_blank h]
      simp only [bind, Except.bind]
      rw [writeU32LE_blank hsize]
      simp only
      rw [setBytes_blank hat]
      simp only
      rw [← List.replicate_append_replicate, ← List.append_assoc]
      have hentry : written ++ leBytes 4 place ++ leBytes 4 lump.bytes.length ++
          nameBytes lump.name ++ List.replicate (8 - lump.name.length) 0
          = written ++ entryBytes (lump, place) := by
        simp only [entryBytes, List.append_assoc]
      have hnext : offset + 16 = (written ++ entryBytes (lump, place)).length := by
        rw [List.length_append, length_entryBytes hname, h]
      rw [hentry, ih hnamed _ _ hnext, List.flatMap_cons, List.append_assoc]

theorem layoutBytes_eq {lumps : List LumpData} (hnamed : ∀ lump ∈ lumps, lump.Named) :
    layoutBytes lumps = .ok (layout lumps) := by
  have hlen : totalSize lumps = ([0x50, 0x57, 0x41, 0x44] : Bytes).length + (4 + (4 +
      ((dataArea lumps).length + 16 * (lumps.zip (offsetsFrom headerSize lumps)).length))) := by
    rw [totalSize, dataSize_eq, List.length_zip, length_offsetsFrom, Nat.min_self]
    show 12 + _ + _ = 4 + _
    omega
  have hmagic := @setBytes_blank [] [0x50, 0x57, 0x41, 0x44] 0 (4 + (4 +
      ((dataArea lumps).length + 16 * (lumps.zip (offsetsFrom headerSize lumps)).length))) rfl
  rw [List.nil_append, List.nil_append] at hmagic
  have hcount : 8 = (([0x50, 0x57, 0x41, 0x44] : Bytes) ++ leBytes 4 lumps.length).length := by
    rw [List.length_append, length_leBytes]
    rfl
  have hentries : ∀ e ∈ lumps.zip (offsetsFrom headerSize lumps), e.1.Named :=
    fun e he => hnamed e.1 (List.of_mem_zip he).1
  have hdirectory : headerSize + dataSize lumps = (headerBytes lumps ++ dataArea lumps).length := by
    rw [List.length_append, length_headerBytes, dataSize_eq]
  rw [layoutBytes, hlen]
  simp only [hmagic, bind, Except.bind]
  rw [writeU32LE_blank (show 4 = _ from rfl)]
  simp only
  rw [writeU32LE_blank hcount]
  simp only
  rw [show ([0x50, 0x57, 0x41, 0x44] : Bytes) ++ leBytes 4 lumps.length ++
    leBytes 4 (headerSize + dataSize lumps) = headerBytes lumps from rfl,
    writeData_blank lumps _ _ _ (length_headerBytes lumps).symm]
  simp only
  rw [writeEntries_blank hentries _ _ hdirectory, layout]

/-! ## Reading the layout back -/

theorem readU32LE_append {bytes before after : Bytes} {offset value : ℕ}
    (hbytes : bytes = before ++ leBytes 4 value ++ after) (hoffset : offset = before.length)
    (hvalue : value < 2 ^ 32) : readU32LE bytes offset = .ok value := by
  rw [hbytes, readU32LE, readAt_append hoffset (length_leBytes 4 value).symm]
  have hvalue : value < 256 ^ 4 := hvalue
  simp only [leValue_leBytes]
  rw [Nat.mod_eq_of_lt hvalue]

theorem byteChar_ofNat {ch : Char} (h : ch.toNat < 256) : byteChar (UInt8.ofNat ch.toNat) = ch := by
  have hbyte : (UInt8.ofNat ch.toNat).toNat = ch.toNat % 256 := UInt8.toNat_ofNat'
  rw [byteChar, hbyte, Nat.mod_eq_of_lt h, Char.ofNat_toNat]

/-- A name is read up to its zeros. -/
theorem readAscii_name {bytes before after : Bytes} {name : Text} {offset k : ℕ}
    (hbytes : bytes = before ++ (nameBytes name ++ List.replicate k 0) ++ after)
    (hoffset : offset = before.length) (hlen : name.length + k = 8)
    (hname : ∀ ch ∈ name, 0 < ch.toNat ∧ ch.toNat < 256) : readAscii bytes offset 8 = name := by
  subst hbytes
  subst hoffset
  have hfield : (nameBytes name ++ List.replicate k (0 : UInt8)).length = 8 := by
    rw [List.length_append, length_nameBytes, List.length_replicate, hlen]
  have hnonzero : ∀ b ∈ nameBytes name, decide (b ≠ 0) = true := by
    intro b hb
    obtain ⟨ch, hch, rfl⟩ := List.mem_map.mp hb
    obtain ⟨hpos, hlt⟩ := hname ch hch
    have hbyte : (UInt8.ofNat ch.toNat).toNat = ch.toNat % 256 := UInt8.toNat_ofNat'
    rw [decide_eq_true_eq]
    intro hzero
    rw [hzero, Nat.mod_eq_of_lt hlt] at hbyte
    exact absurd hbyte (by show ¬ 0 = ch.toNat; omega)
  have hzeros : (List.replicate k (0 : UInt8)).takeWhile (fun b => decide (b ≠ 0)) = [] := by
    cases k with
    | zero => rfl
    | succ k => rfl
  rw [readAscii, List.append_assoc, List.drop_left, ← hfield, List.take_left,
    List.takeWhile_append_of_pos hnonzero, hzeros, List.append_nil, nameBytes, List.map_map]
  refine (List.map_congr_left ?_).trans (List.map_id name)
  intro ch hch
  exact byteChar_ofNat (hname ch hch).2

/-- An entry of the directory is read back at its place. -/
theorem parseEntry_append {before after : Bytes} {entry : LumpData × ℕ}
    {directoryOffset idx : ℕ} (hoffset : directoryOffset + idx * 16 = before.length)
    (hnamed : entry.1.Named) (hplace : entry.2 < 2 ^ 32) (hsize : entry.1.bytes.length < 2 ^ 32)
    (hwithin : entry.2 + entry.1.bytes.length ≤ (before ++ entryBytes entry ++ after).length) :
    parseEntry (before ++ entryBytes entry ++ after) directoryOffset idx
      = .ok ⟨idx, entry.1.name, entry.2, entry.1.bytes.length⟩ := by
  obtain ⟨lump, place⟩ := entry
  have hfits := hnamed.1
  simp only at hnamed hplace hsize hwithin hfits ⊢
  generalize hbytes : before ++ entryBytes (lump, place) ++ after = bytes at hwithin ⊢
  have hfirst : bytes = before ++ leBytes 4 place ++ (leBytes 4 lump.bytes.length ++
      (nameBytes lump.name ++ List.replicate (8 - lump.name.length) 0) ++ after) := by
    rw [← hbytes]
    simp only [entryBytes, List.append_assoc]
  have hsecond : bytes = before ++ leBytes 4 place ++ leBytes 4 lump.bytes.length ++
      (nameBytes lump.name ++ List.replicate (8 - lump.name.length) 0 ++ after) := by
    rw [hfirst]
    simp only [List.append_assoc]
  have hthird : bytes = before ++ leBytes 4 place ++ leBytes 4 lump.bytes.length ++
      (nameBytes lump.name ++ List.replicate (8 - lump.name.length) 0) ++ after := by
    rw [hsecond]
    simp only [List.append_assoc]
  have hplaced := readU32LE_append hfirst hoffset hplace
  have hsized := readU32LE_append hsecond (show directoryOffset + idx * 16 + 4 = _
    by rw [List.length_append, length_leBytes, hoffset]) hsize
  have hread := readAscii_name hthird (show directoryOffset + idx * 16 + 8 = _
    by rw [List.length_append, List.length_append, length_leBytes, length_leBytes, hoffset])
    (by omega) hnamed.2
  simp only [parseEntry, hplaced, hsized, hread, assert, hwithin, decide_true, if_true, bind,
    Except.bind, pure, Except.pure]

/-- The place of a lump is where the data before it ends. -/
theorem getElem?_offsetsFrom {lumps before after : List LumpData} {lump : LumpData} (offset : ℕ)
    (h : lumps = before ++ lump :: after) :
    (offsetsFrom offset lumps)[before.length]? = some (offset + (dataArea before).length) := by
  subst h
  induction before generalizing offset with
  | nil => rfl
  | cons first before ih =>
      rw [List.cons_append, offsetsFrom, List.length_cons, List.getElem?_cons_succ, ih, dataArea,
        dataArea, List.flatMap_cons, List.length_append, Nat.add_assoc]

/-- What the directory of a layout says of one lump. -/
def Recovers (bytes : Bytes) (lump : LumpData) (found : Lump) : Prop :=
  found.name = lump.name ∧ found.size = lump.bytes.length ∧
    (bytes.take (found.offset + found.size)).drop found.offset = lump.bytes

theorem length_layout {lumps : List LumpData} (hnamed : ∀ lump ∈ lumps, lump.Named) :
    (layout lumps).length = totalSize lumps := by
  have hentries : ∀ e ∈ lumps.zip (offsetsFrom headerSize lumps), e.1.Named :=
    fun e he => hnamed e.1 (List.of_mem_zip he).1
  rw [layout, List.length_append, List.length_append, length_headerBytes, length_entries hentries,
    List.length_zip, length_offsetsFrom, Nat.min_self, totalSize, dataSize_eq, Nat.mul_comm]

/-- The data of a lump is at its offset. -/
theorem layout_data {lumps before after : List LumpData} {lump : LumpData}
    (h : lumps = before ++ lump :: after) :
    ∃ front back, layout lumps = front ++ lump.bytes ++ back ∧
      front.length = headerSize + (dataArea before).length := by
  have harea : dataArea lumps = dataArea before ++ lump.bytes ++ dataArea after := by
    rw [h, dataArea, dataArea, dataArea, List.flatMap_append, List.flatMap_cons, List.append_assoc]
  refine ⟨headerBytes lumps ++ dataArea before,
    dataArea after ++ (lumps.zip (offsetsFrom headerSize lumps)).flatMap entryBytes, ?_, ?_⟩
  · rw [layout, harea]
    simp only [List.append_assoc]
  · rw [List.length_append, length_headerBytes]

/-- The entry of a lump is at its place in the directory. -/
theorem layout_entry {lumps before after : List LumpData} {lump : LumpData}
    (hnamed : ∀ lump ∈ lumps, lump.Named) (h : lumps = before ++ lump :: after) :
    ∃ front back, layout lumps
        = front ++ entryBytes (lump, headerSize + (dataArea before).length) ++ back ∧
      headerSize + dataSize lumps + before.length * 16 = front.length := by
  generalize hentries : lumps.zip (offsetsFrom headerSize lumps) = entries
  have hget : entries[before.length]? = some (lump, headerSize + (dataArea before).length) := by
    rw [← hentries, List.getElem?_zip_eq_some]
    refine ⟨?_, getElem?_offsetsFrom headerSize h⟩
    rw [h, List.getElem?_append_right (Nat.le_refl _), Nat.sub_self]
    rfl
  obtain ⟨hlt, hentry⟩ := List.getElem?_eq_some_iff.mp hget
  have hsplit : entries = entries.take before.length ++
      (lump, headerSize + (dataArea before).length) :: entries.drop (before.length + 1) := by
    rw [← hentry, List.getElem_cons_drop, List.take_append_drop]
  have hearlier : ∀ e ∈ entries.take before.length, e.1.Named := by
    intro e he
    have he := List.mem_of_mem_take he
    rw [← hentries] at he
    exact hnamed e.1 (List.of_mem_zip he).1
  refine ⟨headerBytes lumps ++ dataArea lumps ++ (entries.take before.length).flatMap entryBytes,
    (entries.drop (before.length + 1)).flatMap entryBytes, ?_, ?_⟩
  · rw [layout, hentries]
    conv_lhs => rw [hsplit]
    rw [List.flatMap_append, List.flatMap_cons]
    simp only [List.append_assoc]
  · rw [List.length_append, List.length_append, length_headerBytes, length_entries hearlier,
      List.length_take, Nat.min_eq_left (Nat.le_of_lt hlt), dataSize_eq, Nat.mul_comm]

theorem parseEntry_layout {lumps : List LumpData} (hnamed : ∀ lump ∈ lumps, lump.Named)
    (hsize : totalSize lumps < 2 ^ 32) (i : ℕ) (lump : LumpData) (hi : lumps[i]? = some lump) :
    ∃ found, parseEntry (layout lumps) (headerSize + dataSize lumps) i = .ok found ∧
      Recovers (layout lumps) lump found := by
  obtain ⟨hlt, hlump⟩ := List.getElem?_eq_some_iff.mp hi
  have hsplit : lumps = lumps.take i ++ lump :: lumps.drop (i + 1) := by
    rw [← hlump, List.getElem_cons_drop, List.take_append_drop]
  have hlen : (lumps.take i).length = i := List.length_take_of_le (Nat.le_of_lt hlt)
  obtain ⟨front, back, hdata, hfront⟩ := layout_data hsplit
  obtain ⟨front', back', hentry, hfront'⟩ := layout_entry hnamed hsplit
  have htotal := length_layout hnamed
  -- the data of the lump ends in the file, whose size is below 2 ^ 32
  have hend : headerSize + (dataArea (lumps.take i)).length + lump.bytes.length
      ≤ (layout lumps).length := by
    rw [hdata, List.length_append, List.length_append, hfront]
    omega
  refine ⟨⟨i, lump.name, headerSize + (dataArea (lumps.take i)).length, lump.bytes.length⟩, ?_,
    rfl, rfl, ?_⟩
  · rw [hentry]
    refine parseEntry_append (by rw [← hfront', hlen]) (hnamed lump (List.mem_of_getElem? hi)) ?_ ?_
      (by rw [← hentry]; exact hend)
    · simp only
      omega
    · simp only
      omega
  · simp only
    rw [hdata, ← hfront, ← List.length_append, List.take_left, List.drop_left]

/-- The file a writer lays out is read back as the same lumps. -/
theorem parseBytes_layout {lumps : List LumpData} (hnamed : ∀ lump ∈ lumps, lump.Named)
    (hsize : totalSize lumps < 2 ^ 32) (origin : Option Text) :
    ∃ wad, parseBytes (.arrayBuffer (layout lumps)) origin = .ok wad ∧
      wad.bytes = layout lumps ∧ List.Forall₂ (Recovers (layout lumps)) lumps wad.lumps := by
  obtain ⟨found, hfound, hall⟩ := mapM_range_ok (parseEntry_layout hnamed hsize)
  have htotal := length_layout hnamed
  have hheader : layout lumps = [0x50, 0x57, 0x41, 0x44] ++ leBytes 4 lumps.length ++
      (leBytes 4 (headerSize + dataSize lumps) ++ dataArea lumps ++
        (lumps.zip (offsetsFrom headerSize lumps)).flatMap entryBytes) := by
    simp only [layout, headerBytes, List.append_assoc]
  have hheader' : layout lumps = ([0x50, 0x57, 0x41, 0x44] ++ leBytes 4 lumps.length) ++
      leBytes 4 (headerSize + dataSize lumps) ++ (dataArea lumps ++
        (lumps.zip (offsetsFrom headerSize lumps)).flatMap entryBytes) := by
    simp only [layout, headerBytes, List.append_assoc]
  rw [totalSize] at htotal hsize
  have hshort : 12 ≤ (layout lumps).length := by
    rw [htotal]
    exact Nat.le_trans (Nat.le_add_right 12 _) (Nat.le_add_right _ _)
  have hmagic : readAscii (layout lumps) 0 4 = "PWAD".toList := by
    rw [hheader]
    rfl
  have hcount := readU32LE_append hheader (show 4 = _ from rfl) (by omega)
  have hdirectory := readU32LE_append hheader' (show 8 = _ by
    rw [List.length_append, length_leBytes]
    rfl) (by omega)
  have hfits : headerSize + dataSize lumps + lumps.length * 16 ≤ (layout lumps).length :=
    Nat.le_of_eq htotal.symm
  refine ⟨⟨"PWAD".toList, lumps.length, headerSize + dataSize lumps,
    origin.getD "<memoria>".toList, layout lumps, found⟩, ?_, rfl, hall⟩
  simp only [parseBytes, toBytes, assert, hshort, hmagic, hcount, hdirectory, hfits, hfound,
    decide_true, Bool.or_true, if_true, bind, Except.bind, pure, Except.pure]

/-- Every file either fails an assertion or gives lumps inside it, each read whole; and what the
writer lays out is read back as the same lumps in the same order. -/
theorem parseBytes_safe_and_inverts (buffer : Buffer) (origin : Option Text)
    (lumps : List LumpData) (hnamed : ∀ lump ∈ lumps, lump.Named)
    (hsize : totalSize lumps < 2 ^ 32) :
    Decodes (fun wad => wad.bytes = toBytes buffer ∧ ∀ lump ∈ wad.lumps,
        lump.Within wad.bytes ∧ (lumpBytes wad lump).length = lump.size)
      (parseBytes buffer origin) ∧
    ∃ file wad, layoutBytes lumps = .ok file ∧
      parseBytes (.arrayBuffer file) origin = .ok wad ∧
      wad.lumps.map (fun lump => (⟨lump.name, lumpBytes wad lump⟩ : LumpData)) = lumps := by
  constructor
  · have hgood := decodes_parseBytes buffer origin
    cases hparse : parseBytes buffer origin with
    | error e =>
        rw [hparse] at hgood
        exact hgood
    | ok wad =>
        rw [hparse] at hgood
        exact ⟨hgood.bytes, fun lump hlump =>
          ⟨hgood.within lump hlump, length_lumpBytes (hgood.within lump hlump)⟩⟩
  · obtain ⟨wad, hwad, hbytes, hall⟩ := parseBytes_layout hnamed hsize origin
    refine ⟨layout lumps, wad, layoutBytes_eq hnamed, hwad, ?_⟩
    have hsame : List.Forall₂ Eq lumps
        (wad.lumps.map fun lump => (⟨lump.name, lumpBytes wad lump⟩ : LumpData)) := by
      rw [List.forall₂_map_right_iff]
      refine hall.imp ?_
      rintro lump found ⟨hname, _, hdata⟩
      rw [hname, lumpBytes, hbytes, hdata]
    exact (List.forall₂_eq_eq_eq ▸ hsame : lumps = _).symm

theorem parseBytes_safe_and_inverts_fixture :
    ∃ file wad, fixtureBytes = .ok file ∧ parseBytes (.arrayBuffer file) none = .ok wad ∧
      wad.lumps.map (fun lump => (⟨lump.name, lumpBytes wad lump⟩ : LumpData)) = fixtureLumps :=
  (parseBytes_safe_and_inverts .other none fixtureLumps (by decide) (by decide)).2

end GatoCore.Doom
