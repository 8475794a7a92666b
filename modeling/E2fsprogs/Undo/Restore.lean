import E2fsprogs.Undo.Layout

/-!
# What an undo file is good for

The undo I/O manager keeps the undo file in order (`E2fsprogs.UndoInv`) as long as the file system
starts on an undo block and the blocks it saves are whole numbers of blocks of the size that is
recorded in the end: every undo block that has been saved is that of the device at the beginning,
and the others have not been written. Replaying such a file therefore puts everything back, in
whatever order the keys are taken.
-/

namespace E2fsprogs

/-! ### Extending the last key -/

section Keys

variable {dev₀ : Block} {T B O : ℕ} {bytes bytes' : Block}

theorem ext2fsCrc32cLe_append (crc : ℕ) (p q : List UInt8) :
    ext2fsCrc32cLe crc (p ++ q) = ext2fsCrc32cLe (ext2fsCrc32cLe crc p) q := List.foldl_append

theorem bytesOf_append (b : Block) (m n : ℕ) :
    bytesOf b (m + n) = bytesOf b m ++ bytesOf (fromPos b m) n := by
  rw [bytesOf, List.range_add, List.map_append, List.map_map]
  rfl

theorem blockCrc_append (b : Block) (m n : ℕ) :
    blockCrc b (m + n) = ext2fsCrc32cLe (blockCrc b m) (bytesOf (fromPos b m) n) := by
  rw [blockCrc, bytesOf_append, ext2fsCrc32cLe_append]
  rfl

/-- A byte of the device that a key is of. -/
def UndoKey.Covers (B O : ℕ) (key : UndoKey) (p : ℕ) : Prop :=
  key.fsblk * B + O ≤ p ∧ p < key.fsblk * B + O + key.size

/-- The key that one more undo block is added to. -/
def UndoKey.extend (key : UndoKey) (data : List UInt8) : UndoKey :=
  ⟨key.fsblk, ext2fsCrc32cLe key.blkCrc data, key.size + data.length⟩

/-- The data of a key that has been extended is in one piece. -/
theorem KeyAt.extend {lblk n : ℕ} {key : UndoKey} {data : List UInt8}
    (h : KeyAt dev₀ T B O bytes lblk key)
    (hdata : data = bytesAt dev₀ (key.fsblk * B + O + key.size) n)
    (hsame : ∀ q < key.size, bytes' (lblk * T + q) = bytes (lblk * T + q))
    (hnew : ∀ q < n, bytes' (lblk * T + key.size + q) = dev₀ (key.fsblk * B + O + key.size + q))
    (hsize : key.size + n < e2undoMaxExtentBlocks * T) (hT : T ≤ 2 ^ 20) :
    KeyAt dev₀ T B O bytes' lblk (key.extend data) := by
  have hlen : data.length = n := by rw [hdata, length_bytesAt]
  have hsize' : key.size + n < 2 ^ 32 := by
    rw [e2undoMaxExtentBlocks] at hsize
    omega
  have hcrc : blockCrc (fromPos bytes' (lblk * T)) key.size = key.blkCrc :=
    (blockCrc_congr hsame).trans h.crc
  have hsum : (key.extend data).size = key.size + n := by rw [← hlen]; rfl
  refine ⟨⟨h.fits.fsblk, ext2fsCrc32cLe_lt h.fits.blkCrc _, by omega⟩, by omega, ?_, ?_⟩
  · rw [hsum, blockCrc_append, hcrc, UndoKey.extend, hdata]
    congr 1
    refine List.map_congr_left fun q hq => ?_
    have hq := List.mem_range.mp hq
    rw [fromPos, fromPos, ← Nat.add_assoc, hnew q hq]
  · intro q hq
    rw [hsum] at hq
    change bytes' (lblk * T + q) = dev₀ (key.fsblk * B + O + q)
    by_cases hlt : q < key.size
    · rw [hsame q hlt, h.data q hlt]
    · have hq' := hnew (q - key.size) (by omega)
      rwa [show lblk * T + key.size + (q - key.size) = lblk * T + q by omega,
        show key.fsblk * B + O + key.size + (q - key.size) = key.fsblk * B + O + q by omega] at hq'

/-- The sizes of undo blocks, file system blocks, the offset and the device, when an undo block is
a whole number of file system blocks and the file system starts on one. -/
structure UndoGeometry (T B O N : ℕ) : Prop where
  min_le : 1024 ≤ T
  le_max : T ≤ 2 ^ 20
  dvd : B ∣ T
  aligned : T ∣ O
  devSize_lt : N < 2 ^ 63
  super_le : O + 2 * superblockSize ≤ N

theorem UndoGeometry.pos {N : ℕ} (g : UndoGeometry T B O N) : 0 < T := by
  have := g.min_le
  omega

/-- The block of the file system that an undo block is read from starts where the undo block
does. -/
theorem UndoGeometry.backing {N i : ℕ} (g : UndoGeometry T B O N) (hi : O ≤ i * T) :
    (i * T + O % T - O) / B * B + O = i * T := by
  have h1 : B ∣ i * T - O :=
    Nat.dvd_sub (Dvd.dvd.mul_left g.dvd i) (g.dvd.trans g.aligned)
  rw [Nat.mod_eq_zero_of_dvd g.aligned, Nat.add_zero, Nat.div_mul_cancel h1]
  omega

/-- A key ends with an undo block, or with the device. -/
def UndoKey.Whole (T B O N : ℕ) (key : UndoKey) : Prop :=
  T ∣ key.size ∨ N ≤ key.fsblk * B + O + key.size

/-- What adding the bytes of an undo block does to the keys of a key block whose data is from
block `lblk` on. -/
structure Added (dev₀ : Block) (T B O N : ℕ) (bytes' : Block) (lblk pos n : ℕ)
    (keyb : List UndoKey) (r : List UndoKey × Bool) : Prop where
  keysAt : KeysAt dev₀ T B O bytes' r.1 lblk
  span : spanAll T r.1 = spanAll T keyb + 1
  length : r.1.length = keyb.length + if r.2 then 1 else 0
  whole : ∀ key ∈ r.1, key.Whole T B O N
  old : ∀ p, (∃ key ∈ keyb, key.Covers B O p) → ∃ key ∈ r.1, key.Covers B O p
  new : ∀ p, pos ≤ p → p < pos + n → ∃ key ∈ r.1, key.Covers B O p

section Adding

variable {N lblk i n : ℕ} {keyb : List UndoKey} {data : List UInt8}

theorem ceilDiv_of_le (hpos : 0 < n) (hle : n ≤ T) : (n + T - 1) / T = 1 := by
  refine Nat.div_eq_of_lt_le ?_ ?_ <;> omega

theorem whole_of_short (hn : n = min T (N - i * T)) : T ∣ n ∨ N ≤ i * T + n := by
  rcases Nat.le_total T (N - i * T) with h | h
  · left
    rw [hn, Nat.min_eq_left h]
  · right
    omega

/-- A key of its own for an undo block. -/
theorem added_new (g : UndoGeometry T B O N) (hi : O ≤ i * T) (hlt : i * T < N)
    (hn : n = min T (N - i * T)) (hkeys : KeysAt dev₀ T B O bytes' keyb lblk)
    (hwhole : ∀ key ∈ keyb, key.Whole T B O N) (hdata : data = bytesAt dev₀ (i * T) n)
    (hnew : ∀ q < n, bytes' ((lblk + spanAll T keyb) * T + q) = dev₀ (i * T + q)) :
    Added dev₀ T B O N bytes' lblk (i * T) n keyb
      (keyb ++ [⟨(i * T + O % T - O) / B, ext2fsCrc32cLe (2 ^ 32 - 1) data, data.length⟩],
        true) := by
  have hlen : data.length = n := by rw [hdata, length_bytesAt]
  have hback := g.backing hi
  have hT := g.pos
  have hle := g.le_max
  have hN := g.devSize_lt
  have hB : 0 < B := Nat.pos_of_dvd_of_pos g.dvd hT
  have hle' := Nat.le_mul_of_pos_right ((i * T + O % T - O) / B) hB
  have hn₀ : 0 < n := by omega
  have hnT : n ≤ T := by omega
  have hsize : n ≤ e2undoMaxExtentBlocks * T := by
    rw [e2undoMaxExtentBlocks]
    omega
  -- the key is for one undo block, so it spans one and is not too long to be grown
  refine ⟨keysAt_append_singleton.mpr ⟨hkeys, ⟨?_, ?_, ?_⟩, by rw [hlen]; exact hsize, ?_, ?_⟩, ?_,
    ?_, ?_, ?_, ?_⟩
  · change (i * T + O % T - O) / B < 2 ^ 64
    omega
  · exact ext2fsCrc32cLe_lt (by decide) _
  · change data.length < 2 ^ 32
    omega
  · rw [hlen, hdata, blockCrc]
    congr 1
    exact List.map_congr_left fun q hq => hnew q (List.mem_range.mp hq)
  · intro q hq
    rw [hlen] at hq
    rw [hnew q hq, hback]
  · rw [spanAll_append, spanAll_cons, spanAll_nil, span, hlen]
    exact congrArg (spanAll T keyb + ·) (ceilDiv_of_le hn₀ hnT)
  · simp
  · intro key hkey
    rcases List.mem_append.mp hkey with hkey | hkey
    · exact hwhole key hkey
    · rw [List.mem_singleton.mp hkey, UndoKey.Whole, hlen, hback]
      exact whole_of_short hn
  · rintro p ⟨key, hkey, hcovers⟩
    exact ⟨key, List.mem_append_left _ hkey, hcovers⟩
  · intro p h1 h2
    refine ⟨_, List.mem_append_right _ (List.mem_singleton_self _), ?_⟩
    rw [UndoKey.Covers, hback, hlen]
    exact ⟨h1, h2⟩

/-- The last key extended with an undo block that follows it. -/
theorem added_extend (g : UndoGeometry T B O N) {init : List UndoKey} {key : UndoKey}
    (hi : O ≤ i * T) (hlt : i * T < N) (hn : n = min T (N - i * T))
    (hkeys : KeysAt dev₀ T B O bytes (init ++ [key]) lblk)
    (hwhole : ∀ key' ∈ init ++ [key], key'.Whole T B O N)
    (hdata : data = bytesAt dev₀ (i * T) n)
    (hnew : ∀ q < n, bytes' ((lblk + spanAll T (init ++ [key])) * T + q) = dev₀ (i * T + q))
    (hframe : ∀ p, p < (lblk + spanAll T (init ++ [key])) * T → bytes' p = bytes p)
    (hnext : (key.fsblk * B + B - 1 + key.size) / B = (i * T + O % T - O) / B)
    (hsize : key.size + data.length < e2undoMaxExtentBlocks * T) :
    Added dev₀ T B O N bytes' lblk (i * T) n (init ++ [key])
      (init ++ [key.extend data], false) := by
  have hlen : data.length = n := by rw [hdata, length_bytesAt]
  have hback := g.backing hi
  have hT := g.pos
  have hB : 0 < B := Nat.pos_of_dvd_of_pos g.dvd hT
  obtain ⟨hinit, hkey⟩ := keysAt_append_singleton.mp hkeys
  -- the end of the key, rounded up, is where the undo block starts
  have hceil : i * T ≤ key.fsblk * B + O + key.size + (B - 1) ∧
      key.fsblk * B + O + key.size ≤ i * T := by
    have h1 := Nat.div_mul_le_self (key.fsblk * B + B - 1 + key.size) B
    have h2 := Nat.lt_div_mul_add hB (a := key.fsblk * B + B - 1 + key.size)
    rw [hnext] at h1 h2
    omega
  have hdvd : T ∣ key.size := by
    refine (hwhole key (by simp)).resolve_right fun hend => ?_
    omega
  have hend : key.fsblk * B + O + key.size = i * T := by
    obtain ⟨c, hc⟩ := g.dvd.trans hdvd
    rw [hc, Nat.mul_comm B c, show key.fsblk * B + B - 1 + c * B = B - 1 + (key.fsblk + c) * B by
      rw [Nat.add_mul]; omega, Nat.add_mul_div_right _ _ hB, Nat.div_eq_of_lt (by omega),
      Nat.zero_add] at hnext
    rw [← hback, ← hnext, Nat.add_mul, hc, Nat.mul_comm B c]
    omega
  obtain ⟨c, hc⟩ := hdvd
  have hspan : span T key = c := by
    rw [span, hc, Nat.add_sub_assoc (by omega), Nat.mul_add_div hT, Nat.div_eq_of_lt (by omega),
      Nat.add_zero]
  have hplace : (lblk + spanAll T (init ++ [key])) * T =
      (lblk + spanAll T init) * T + key.size := by
    rw [spanAll_append, spanAll_cons, spanAll_nil, hspan, hc]
    ring
  rw [hplace] at hnew hframe
  refine ⟨keysAt_append_singleton.mpr ⟨hinit.congr hT fun p _ h2 => hframe p (by omega), ?_⟩, ?_,
    ?_, ?_, ?_, ?_⟩
  · refine hkey.extend (n := n) (by rw [hend, hdata]) (fun q hq => hframe _ (by omega)) ?_
      (by rw [← hlen]; exact hsize) g.le_max
    rw [hend]
    exact hnew
  · rw [spanAll_append, spanAll_append, spanAll_cons, spanAll_nil, spanAll_cons, spanAll_nil, hspan,
      span, UndoKey.extend, hlen, hc, show T * c + n + T - 1 = n + T - 1 + T * c by omega,
      Nat.add_mul_div_left _ _ hT, ceilDiv_of_le (by omega) (by omega)]
    omega
  · simp
  · intro key' hkey'
    rcases List.mem_append.mp hkey' with hkey' | hkey'
    · exact hwhole key' (List.mem_append_left _ hkey')
    · rw [List.mem_singleton.mp hkey', UndoKey.Whole]
      change T ∣ key.size + data.length ∨ N ≤ key.fsblk * B + O + (key.size + data.length)
      rw [hlen, ← Nat.add_assoc, hend]
      exact (whole_of_short hn).imp (fun h => (Nat.dvd_add_right ⟨c, hc⟩).mpr h) id
  · rintro p ⟨key', hkey', hcovers⟩
    rcases List.mem_append.mp hkey' with hkey' | hkey'
    · exact ⟨key', List.mem_append_left _ hkey', hcovers⟩
    · rw [List.mem_singleton.mp hkey'] at hcovers
      refine ⟨_, List.mem_append_right _ (List.mem_singleton_self _), hcovers.1, ?_⟩
      exact hcovers.2.trans_le (Nat.add_le_add_left (Nat.le_add_right _ _) _)
  · intro p h1 h2
    refine ⟨_, List.mem_append_right _ (List.mem_singleton_self _), ?_, ?_⟩
    · change key.fsblk * B + O ≤ p
      omega
    · change p < key.fsblk * B + O + (key.size + data.length)
      omega

/-- **Adding an undo block to the keys keeps their data in order.** -/
theorem addKey_added (g : UndoGeometry T B O N) (hi : O ≤ i * T) (hlt : i * T < N)
    (hn : n = min T (N - i * T)) (hkeys : KeysAt dev₀ T B O bytes keyb lblk)
    (hwhole : ∀ key ∈ keyb, key.Whole T B O N) (hdata : data = bytesAt dev₀ (i * T) n)
    (hnew : ∀ q < n, bytes' ((lblk + spanAll T keyb) * T + q) = dev₀ (i * T + q))
    (hframe : ∀ p, p < (lblk + spanAll T keyb) * T → bytes' p = bytes p) :
    Added dev₀ T B O N bytes' lblk (i * T) n keyb
      (addKey B T ((i * T + O % T - O) / B) data keyb) := by
  have hkeys' : KeysAt dev₀ T B O bytes' keyb lblk := hkeys.congr g.pos fun p _ h => hframe p h
  have hown := added_new g hi hlt hn hkeys' hwhole hdata hnew
  rcases List.eq_nil_or_concat keyb with rfl | ⟨init, key, rfl⟩
  · exact hown
  · simp only [List.concat_eq_append] at *
    rw [addKey]
    simp only [List.getLast?_concat, List.dropLast_concat]
    split
    · next h =>
      exact added_extend g hi hlt hn hkeys hwhole hdata hnew hframe h.1 h.2
    · exact hown

end Adding

end Keys

/-! ### The indexes -/

section Indexes

variable {dev₀ : Block} {T B O N : ℕ} {chunks : List (List UndoKey)} {ch : UndoChannel}

/-- The part of `write_undo_indexes` that is about the key block. -/
def writeKeyBlock (ch : UndoChannel) : UndoChannel :=
  if ch.keyb = [] then ch
  else
    let bytes := memcpy ch.undoFile.bytes (ch.keyBlkNum * ch.undoFileBlockSize)
      (encodeKeyBlock ch.tdbDataSize ch.keyb) ch.tdbDataSize
    let ch := { ch with undoFile := { ch.undoFile with bytes := bytes } }
    if ch.keyb.length = keysPerBlock ch.tdbDataSize then
      { ch with keyb := [], keyBlkNum := ch.undoBlkNum, undoBlkNum := ch.undoBlkNum + 1 }
    else ch

/-- The header that `write_undo_indexes` writes. -/
def undoHeaderOf (ch : UndoChannel) : UndoHeader where
  numKeys := ch.numKeys
  superOffset := ch.superBlkNum
  keyOffset := ch.firstKeyBlk
  blockSize := ch.hdrBlockSize
  fsBlockSize := ch.blockSize
  sbCrc := blockCrc (fromPos ch.dev (ch.offset + superblockSize)) superblockSize
  fsOffset := ch.offset
  hasFsOffset := ch.offset != 0

/-- The undo file with the header and the superblock recorded. -/
def undoFileOf (ch : UndoChannel) : UndoFile where
  header := some (undoHeaderOf ch)
  bytes := memcpy ch.undoFile.bytes (ch.superBlkNum * ch.undoFileBlockSize)
    (flipMagic (fromPos ch.dev (ch.offset + superblockSize))) superblockSize

theorem writeUndoIndexes_eq (h : ch.offset + 2 * superblockSize ≤ ch.devSize) :
    writeUndoIndexes ch = (true,
      { writeKeyBlock ch with undoFile := undoFileOf (writeKeyBlock ch) }) := by
  have h' : ¬(writeKeyBlock ch).devSize < (writeKeyBlock ch).offset + 2 * superblockSize := by
    rw [writeKeyBlock]
    split
    · exact Nat.not_lt.mpr h
    · dsimp only
      split <;> exact Nat.not_lt.mpr h
  exact if_neg h'

/-- What the undo file has, whether the last key block has been written or not. -/
structure UndoPre (dev₀ : Block) (T B O N : ℕ) (chunks : List (List UndoKey)) (ch : UndoChannel) :
    Prop where
  tdbWritten : ch.tdbWritten = 1
  tdbDataSize : ch.tdbDataSize = T
  hdrBlockSize : ch.hdrBlockSize = T
  offset : ch.offset = O
  devSize : ch.devSize = N
  superBlkNum : ch.superBlkNum = 1
  firstKeyBlk : ch.firstKeyBlk = 2
  numKeys : ch.numKeys = chunks.length * keysPerBlock T + ch.keyb.length
  keyBlkNum : ch.keyBlkNum = chunksEnd T chunks 2
  undoBlkNum : ch.undoBlkNum = ch.keyBlkNum + 1 + spanAll T ch.keyb
  chunksAt : ChunksAt dev₀ T B O ch.undoFile.bytes chunks 2
  keysAt : KeysAt dev₀ T B O ch.undoFile.bytes ch.keyb (ch.keyBlkNum + 1)
  whole : ∀ key ∈ ch.keyb, key.Whole T B O N

/-- **The undo file is in order**: the full key blocks with their data, and the last key block,
which has room for a key. -/
structure UndoInv (dev₀ : Block) (T B O N : ℕ) (chunks : List (List UndoKey)) (ch : UndoChannel) :
    Prop extends UndoPre dev₀ T B O N chunks ch where
  room : ch.keyb.length < keysPerBlock T
  keyBlockAt : ch.keyb ≠ [] → KeyBlockAt T ch.undoFile.bytes ch.keyb ch.keyBlkNum

theorem UndoPre.undoFileBlockSize (h : UndoPre dev₀ T B O N chunks ch) (hT : 0 < T) :
    ch.undoFileBlockSize = T := by
  rw [UndoChannel.undoFileBlockSize, h.hdrBlockSize, if_neg (by omega)]

/-- The bytes of the undo file are looked at from the first key block on. -/
theorem UndoInv.congr (h : UndoInv dev₀ T B O N chunks ch) (hT : 0 < T) {file : UndoFile}
    (hframe : ∀ p, 2 * T ≤ p → file.bytes p = ch.undoFile.bytes p) :
    UndoInv dev₀ T B O N chunks { ch with undoFile := file } := by
  have hle : 2 ≤ ch.keyBlkNum := h.keyBlkNum ▸ le_chunksEnd chunks 2
  have hle' : 2 * T ≤ ch.keyBlkNum * T := Nat.mul_le_mul_right T hle
  exact {
    h with
    chunksAt := h.chunksAt.congr hT fun p h1 _ => hframe p h1
    keysAt := h.keysAt.congr hT fun p h1 _ => hframe p (by rw [Nat.add_mul] at h1; omega)
    keyBlockAt := fun hne => (h.keyBlockAt hne).congr fun p h1 _ => hframe p (by omega) }

theorem writeKeyBlock_frame (ch : UndoChannel) :
    (writeKeyBlock ch).dev = ch.dev ∧ (writeKeyBlock ch).writtenBlockMap = ch.writtenBlockMap ∧
      (writeKeyBlock ch).blockSize = ch.blockSize := by
  rw [writeKeyBlock]
  split
  · exact ⟨rfl, rfl, rfl⟩
  · dsimp only
    split <;> exact ⟨rfl, rfl, rfl⟩

/-- The key block is written, and closed when it is full. -/
theorem writeKeyBlock_inv (hT : 1024 ≤ T) (h : UndoPre dev₀ T B O N chunks ch)
    (hlen : ch.keyb.length ≤ keysPerBlock T) : ∃ chunks',
      UndoInv dev₀ T B O N chunks' (writeKeyBlock ch) ∧
        allKeys chunks' (writeKeyBlock ch).keyb = allKeys chunks ch.keyb := by
  obtain rfl := h.tdbDataSize
  have hpos : 0 < ch.tdbDataSize := by omega
  have hkpb : 0 < keysPerBlock ch.tdbDataSize := by
    rw [keysPerBlock]
    omega
  rw [writeKeyBlock]
  split
  -- no keys: nothing to write
  · next hnil =>
    exact ⟨chunks, ⟨h, by rw [hnil]; exact hkpb, fun hne => absurd hnil hne⟩, rfl⟩
  · next hne =>
    rw [h.undoFileBlockSize hpos]
    generalize hbytes : memcpy ch.undoFile.bytes (ch.keyBlkNum * ch.tdbDataSize)
      (encodeKeyBlock ch.tdbDataSize ch.keyb)
      ch.tdbDataSize = bytes
    have hblock : KeyBlockAt ch.tdbDataSize bytes ch.keyb ch.keyBlkNum := by
      intro q hq
      rw [← hbytes, memcpy_add hq]
    have hframe : ∀ p, p < ch.keyBlkNum * ch.tdbDataSize ∨ (ch.keyBlkNum + 1) * ch.tdbDataSize ≤ p →
        bytes p = ch.undoFile.bytes p := by
      intro p hp
      rw [Nat.add_mul, Nat.one_mul] at hp
      rw [← hbytes, memcpy_of_outside hp]
    have hchunks : ChunksAt dev₀ ch.tdbDataSize B O bytes chunks 2 :=
      h.chunksAt.congr hpos fun p _ h2 => hframe p (Or.inl (by rw [h.keyBlkNum]; exact h2))
    have hkeys : KeysAt dev₀ ch.tdbDataSize B O bytes ch.keyb (ch.keyBlkNum + 1) :=
      h.keysAt.congr hpos fun p h1 _ => hframe p (Or.inr h1)
    dsimp only
    split
    -- a full key block is closed and the next one begins behind its data
    · next hfull =>
      refine ⟨chunks ++ [ch.keyb], ⟨{ h with
        numKeys := ?_, keyBlkNum := ?_, undoBlkNum := rfl, chunksAt := ?_, keysAt := trivial
        whole := fun key hkey => absurd hkey List.not_mem_nil }, hkpb, fun hne =>
          absurd rfl hne⟩, ?_⟩
      · change ch.numKeys = _
        rw [h.numKeys, hfull, List.length_append, List.length_singleton, Nat.add_mul, Nat.one_mul]
        rfl
      · rw [chunksEnd_append, ← h.keyBlkNum]
        exact h.undoBlkNum
      · rw [h.keyBlkNum] at hblock hkeys
        exact chunksAt_append_singleton.mpr ⟨hchunks, hfull, hblock, hkeys⟩
      · simp [allKeys]
    · next hnot =>
      exact ⟨chunks, ⟨{ h with chunksAt := hchunks, keysAt := hkeys },
        lt_of_le_of_ne hlen hnot, fun _ => hblock⟩, rfl⟩

theorem UndoPre.super_le (g : UndoGeometry T B O N) (h : UndoPre dev₀ T B O N chunks ch) :
    ch.offset + 2 * superblockSize ≤ ch.devSize := by
  rw [h.offset, h.devSize]
  exact g.super_le

/-- The header and the superblock are in front of the first key block. -/
theorem UndoInv.undoFileOf (g : UndoGeometry T B O N) (h : UndoInv dev₀ T B O N chunks ch) :
    UndoInv dev₀ T B O N chunks { ch with undoFile := undoFileOf ch } := by
  have hmin := g.min_le
  refine h.congr g.pos fun p hp => ?_
  rw [E2fsprogs.undoFileOf, h.superBlkNum, h.undoFileBlockSize g.pos]
  exact memcpy_of_outside (by rw [superblockSize]; omega)

/-- **Writing the indexes brings the undo file in order.** -/
theorem writeUndoIndexes_inv (g : UndoGeometry T B O N) (h : UndoPre dev₀ T B O N chunks ch)
    (hlen : ch.keyb.length ≤ keysPerBlock T) : ∃ chunks' ch', writeUndoIndexes ch = (true, ch') ∧
      UndoInv dev₀ T B O N chunks' ch' ∧ allKeys chunks' ch'.keyb = allKeys chunks ch.keyb ∧
      ch'.dev = ch.dev ∧ ch'.writtenBlockMap = ch.writtenBlockMap ∧
      ch'.blockSize = ch.blockSize := by
  obtain ⟨chunks', hinv, hall⟩ := writeKeyBlock_inv g.min_le h hlen
  exact ⟨chunks', _, writeUndoIndexes_eq (h.super_le g), hinv.undoFileOf g, hall,
    writeKeyBlock_frame ch⟩

end Indexes

end E2fsprogs
