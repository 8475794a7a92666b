import E2fsprogs.Undo.Restore

/-!
# Runs of the undo I/O manager

What holds of the undo file and the device between two calls, and what replaying the file makes of
the device after any number of calls.
-/

namespace E2fsprogs

section Saving

variable {dev₀ : Block} {T B O N : ℕ} {chunks : List (List UndoKey)} {ch : UndoChannel}

/-- **Whatever has been written has been saved**: a block of the device that is not in the undo file
is as it was, and a key covers each byte of those that are. -/
structure DevInv (dev₀ : Block) (T B O N : ℕ) (chunks : List (List UndoKey)) (ch : UndoChannel) :
    Prop where
  unsaved : ∀ p < N, ch.writtenBlockMap (p / T) = false → ch.dev p = dev₀ p
  saved : ∀ p < N, ch.writtenBlockMap (p / T) = true →
    ∃ key ∈ allKeys chunks ch.keyb, key.Covers B O p

theorem div_eq_of_mem {i p : ℕ} (h : i * T ≤ p) (h' : p < i * T + T) : p / T = i :=
  Nat.div_eq_of_lt_le h (by rw [Nat.succ_mul]; exact h')

theorem mem_of_div_eq {i p : ℕ} (hT : 0 < T) (h : p / T = i) : i * T ≤ p ∧ p < i * T + T := by
  have h1 := Nat.div_add_mod p T
  have h2 := Nat.mod_lt p hT
  rw [h, Nat.mul_comm] at h1
  omega

/-- The undo block `i` in the bitmap, and its bytes in the undo file with their key, the indexes not
yet written. -/
def putUndoBlock (ch : UndoChannel) (i : ℕ) : UndoChannel :=
  let pos := i * ch.tdbDataSize
  let n := min ch.tdbDataSize (ch.devSize - pos)
  let r :=
    addKey ch.blockSize ch.tdbDataSize
      ((pos + ch.offset % ch.tdbDataSize - ch.offset) / ch.blockSize)
    (bytesAt ch.dev pos n) ch.keyb
  { ch with
    writtenBlockMap := Function.update ch.writtenBlockMap i true
    keyb := r.1, numKeys := if r.2 then ch.numKeys + 1 else ch.numKeys
    undoFile := { ch.undoFile with
      bytes :=
        memcpy ch.undoFile.bytes (ch.undoBlkNum * ch.undoFileBlockSize) (fromPos ch.dev pos) n }
    undoBlkNum := ch.undoBlkNum + 1 }

theorem saveUndoBlock_eq (g : UndoGeometry ch.tdbDataSize ch.blockSize ch.offset ch.devSize) {i : ℕ}
    (hi : ch.offset ≤ i * ch.tdbDataSize) : saveUndoBlock ch i =
      if min ch.tdbDataSize (ch.devSize - i * ch.tdbDataSize) = 0 then
        (true, { ch with writtenBlockMap := Function.update ch.writtenBlockMap i true })
      else writeUndoIndexes (putUndoBlock ch i) := by
  rw [saveUndoBlock]
  simp only [g.backing hi, putUndoBlock]
  rfl

theorem putUndoBlock_pre (g : UndoGeometry T B O N) (hinv : UndoInv dev₀ T B O N chunks ch)
    (hdev : DevInv dev₀ T B O N chunks ch) (hB : ch.blockSize = B) {i : ℕ} (hi : O ≤ i * T)
    (hlt : i * T < N) (hunsaved : ch.writtenBlockMap i = false) :
    UndoPre dev₀ T B O N chunks (putUndoBlock ch i) ∧
      (putUndoBlock ch i).keyb.length ≤ keysPerBlock T ∧
      (∀ p, (∃ key ∈ ch.keyb, key.Covers B O p) → ∃ key ∈ (putUndoBlock ch i).keyb,
        key.Covers B O p) ∧
      (∀ p < N, p / T = i → ∃ key ∈ (putUndoBlock ch i).keyb, key.Covers B O p) := by
  have hpos := g.pos
  have hsize := hinv.undoFileBlockSize hpos
  obtain rfl := hinv.tdbDataSize
  obtain rfl := hinv.offset
  obtain rfl := hinv.devSize
  subst hB
  -- the block has not been saved, so the device still has what it began with
  have hbytes : ∀ q < min ch.tdbDataSize (ch.devSize - i * ch.tdbDataSize),
      ch.dev (i * ch.tdbDataSize + q) = dev₀ (i * ch.tdbDataSize + q) := by
    intro q hq
    refine hdev.unsaved _ (by omega) ?_
    rwa [div_eq_of_mem (Nat.le_add_right _ q) (by omega)]
  obtain ⟨hkeys, hspan, hlength, hwhole, hold, hnew⟩ :=
    @addKey_added dev₀ ch.tdbDataSize ch.blockSize
    ch.offset ch.undoFile.bytes (putUndoBlock ch i).undoFile.bytes ch.devSize
      (ch.keyBlkNum + 1) i _ ch.keyb
    (bytesAt ch.dev (i * ch.tdbDataSize) (min ch.tdbDataSize (ch.devSize - i * ch.tdbDataSize)))
    g hi hlt rfl hinv.keysAt hinv.whole
    (bytesAt_congr fun p h1 h2 => by
      have := hbytes (p - i * ch.tdbDataSize) (by omega)
      rwa [Nat.add_sub_cancel' h1] at this)
    (fun q hq => by
      change memcpy _ _ _ _ _ = _
      rw [hinv.undoBlkNum, hsize, memcpy_add hq]
      exact hbytes q hq)
    (fun p hp => by
      change memcpy _ _ _ _ _ = _
      rw [hinv.undoBlkNum, hsize, memcpy_of_outside (Or.inl hp)])
  have hroom := hinv.room
  refine ⟨{ hinv.toUndoPre with
    numKeys := ?_, undoBlkNum := ?_, chunksAt := ?_, keysAt := hkeys,
    whole := hwhole }, ?_, hold, ?_⟩
  · change (if _ then ch.numKeys + 1 else ch.numKeys) = _ + (putUndoBlock ch i).keyb.length
    rw [hinv.numKeys]
    change _ = _ + (addKey _ _ _ _ _).1.length
    rw [hlength]
    split <;> rfl
  · change ch.undoBlkNum + 1 = ch.keyBlkNum + 1 + spanAll _ (addKey _ _ _ _ _).1
    rw [hspan, hinv.undoBlkNum]
    rfl
  · refine hinv.chunksAt.congr hpos fun p _ hp => ?_
    change memcpy _ _ _ _ _ = _
    rw [hinv.undoBlkNum, hsize, memcpy_of_outside (Or.inl ?_)]
    rw [← hinv.keyBlkNum] at hp
    exact hp.trans_le (Nat.mul_le_mul_right _ (by omega))
  · change (addKey _ _ _ _ _).1.length ≤ _
    rw [hlength]
    split <;> omega
  · intro p hp hi
    have hmem := mem_of_div_eq hpos hi
    exact hnew p hmem.1 (by omega)

/-- **Saving an undo block.** -/
theorem saveUndoBlock_inv (g : UndoGeometry T B O N) (hinv : UndoInv dev₀ T B O N chunks ch)
    (hdev : DevInv dev₀ T B O N chunks ch) (hB : ch.blockSize = B) {i : ℕ} (hi : O ≤ i * T)
    (hunsaved : ch.writtenBlockMap i = false) : ∃ chunks' ch', saveUndoBlock ch i = (true, ch') ∧
      UndoInv dev₀ T B O N chunks' ch' ∧ DevInv dev₀ T B O N chunks' ch' ∧
      ch'.blockSize = ch.blockSize ∧ ch'.dev = ch.dev ∧
      ch'.writtenBlockMap = Function.update ch.writtenBlockMap i true := by
  have hpos := g.pos
  -- marking `i` saved makes no other byte unsaved
  have hunsaved' : ∀ p < N, Function.update ch.writtenBlockMap i true (p / T) = false →
      ch.dev p = dev₀ p := by
    intro p hp h
    refine hdev.unsaved p hp ?_
    by_cases hpi : p / T = i
    · rw [hpi, Function.update_self] at h
      exact absurd h (by decide)
    · rwa [Function.update_of_ne hpi] at h
  have hsaved : ∀ p, Function.update ch.writtenBlockMap i true (p / T) = true →
      ch.writtenBlockMap (p / T) = true ∨ p / T = i := by
    intro p hp
    by_cases hpi : p / T = i
    · exact Or.inr hpi
    · rw [Function.update_of_ne hpi] at hp
      exact Or.inl hp
  have heq : saveUndoBlock ch i = if min T (N - i * T) = 0 then
      (true, { ch with writtenBlockMap := Function.update ch.writtenBlockMap i true })
      else writeUndoIndexes (putUndoBlock ch i) := by
    obtain rfl := hinv.tdbDataSize
    obtain rfl := hinv.offset
    obtain rfl := hinv.devSize
    subst hB
    exact saveUndoBlock_eq g hi
  rw [heq]
  split
  -- an undo block at or past the end of the device has no bytes to save
  · refine ⟨chunks, _, rfl, ⟨{ hinv.toUndoPre with }, hinv.room, hinv.keyBlockAt⟩,
      ⟨hunsaved', fun p hp h => ?_⟩, rfl, rfl, rfl⟩
    rcases hsaved p h with h | h
    · exact hdev.saved p hp h
    · have hmem := mem_of_div_eq hpos h
      omega
  · obtain ⟨hpre, hlen, hold, hnew⟩ := putUndoBlock_pre g hinv hdev hB hi (by omega) hunsaved
    obtain ⟨chunks', ch', hwrite, hinv', hall, hdev', hmap, hbs⟩ := writeUndoIndexes_inv g hpre hlen
    refine ⟨chunks', ch', hwrite, hinv', ⟨?_, fun p hp h => ?_⟩, hbs, hdev', hmap⟩
    · rw [hdev', hmap]
      exact hunsaved'
    · rw [hmap] at h
      rw [hall, allKeys]
      rcases hsaved p h with h | h
      · obtain ⟨key, hkey, hcovers⟩ := hdev.saved p hp h
        rcases List.mem_append.mp hkey with hkey | hkey
        · exact ⟨key, List.mem_append_left _ hkey, hcovers⟩
        · obtain ⟨key', hkey', hcovers'⟩ := hold p ⟨key, hkey, hcovers⟩
          exact ⟨key', List.mem_append_right _ hkey', hcovers'⟩
      · obtain ⟨key', hkey', hcovers'⟩ := hnew p hp h
        exact ⟨key', List.mem_append_right _ hkey', hcovers'⟩

/-- **Saving several undo blocks**, those that have not been saved yet. -/
theorem saveUndoBlocks_inv (g : UndoGeometry T B O N) : ∀ {n i : ℕ} {chunks : List (List UndoKey)}
    {ch : UndoChannel}, UndoInv dev₀ T B O N chunks ch → DevInv dev₀ T B O N chunks ch → O ≤ i * T →
    (ch.blockSize = B ∨ ∀ j, i ≤ j → j < i + n → ch.writtenBlockMap j = true) →
    ∃ chunks' ch', saveUndoBlocks n i ch = (true, ch') ∧
      UndoInv dev₀ T B O N chunks' ch' ∧ DevInv dev₀ T B O N chunks' ch' ∧
      ch'.blockSize = ch.blockSize ∧ ch'.dev = ch.dev ∧
      (∀ j, ch.writtenBlockMap j = true → ch'.writtenBlockMap j = true) ∧
      ∀ j, i ≤ j → j < i + n → ch'.writtenBlockMap j = true
  | 0, _, chunks, ch, hinv, hdev, _, _ =>
    ⟨chunks, ch, rfl, hinv, hdev, rfl, rfl, fun _ h => h, fun j h1 h2 => by omega⟩
  | n + 1, i, chunks, ch, hinv, hdev, hi, hok => by
    have hi' : O ≤ (i + 1) * T := hi.trans (Nat.mul_le_mul_right T (Nat.le_succ i))
    rw [saveUndoBlocks]
    by_cases hmap : ch.writtenBlockMap i = true
    · rw [if_pos hmap]
      obtain ⟨chunks', ch', hrun, hinv', hdev', hbs, hd, hmono, hall⟩ :=
        saveUndoBlocks_inv g
          (n := n) hinv hdev hi' (hok.imp_right fun h j h1 h2 => h j (by omega) (by omega))
      refine ⟨chunks', ch', hrun, hinv', hdev', hbs, hd, hmono, fun j h1 h2 => ?_⟩
      rcases Nat.eq_or_lt_of_le h1 with rfl | h1
      · exact hmono _ hmap
      · exact hall j h1 (by omega)
    · have hB : ch.blockSize = B := hok.resolve_right fun h => hmap (h i (by omega) (by omega))
      rw [if_neg hmap]
      obtain ⟨chunks₁, ch₁, hsave, hinv₁, hdev₁, hbs₁, hd₁, hmap₁⟩ :=
        saveUndoBlock_inv g hinv hdev hB hi (Bool.eq_false_iff.mpr hmap)
      obtain ⟨chunks', ch', hrun, hinv', hdev', hbs, hd, hmono, hall⟩ :=
        saveUndoBlocks_inv g (n := n) hinv₁ hdev₁ hi' (Or.inl (hbs₁.trans hB))
      have hmono₁ : ∀ j, ch.writtenBlockMap j = true → ch₁.writtenBlockMap j = true := by
        intro j hj
        rw [hmap₁, Function.update_apply]
        split
        · rfl
        · exact hj
      rw [hsave]
      refine ⟨chunks', ch', hrun, hinv', hdev', hbs.trans hbs₁, hd.trans hd₁,
        fun j hj => hmono j (hmono₁ j hj), fun j h1 h2 => ?_⟩
      rcases Nat.eq_or_lt_of_le h1 with rfl | h1
      · exact hmono _ (by rw [hmap₁, Function.update_self])
      · exact hall j h1 (by omega)

end Saving

/-! ### Replaying -/

section Replaying

variable {dev₀ : Block} {T B O N : ℕ} {chunks : List (List UndoKey)} {ch : UndoChannel}

/-- Keys that restore may be replayed in any order: a byte that one of them is of is put back. -/
theorem foldl_replayKey {header : UndoHeader} {bytes : Block} {p : ℕ} (infos : List UndoKeyInfo) :
    ∀ {dev : Block}, (∀ info ∈ infos,
      info.Restores dev₀ header.blockSize header.fsBlockSize header.replayOffset bytes) →
    (dev p = dev₀ p ∨ ∃ info ∈ infos, info.fsblk * header.fsBlockSize + header.replayOffset ≤ p ∧
      p < info.fsblk * header.fsBlockSize + header.replayOffset + info.size) →
    infos.foldl (replayKey header bytes) dev p = dev₀ p := by
  induction infos with
  | nil =>
    intro dev _ h
    exact h.elim id fun ⟨_, hmem, _⟩ => absurd hmem List.not_mem_nil
  | cons info infos ih =>
    intro dev hrestores h
    refine ih (fun info hinfo => hrestores info (List.mem_cons_of_mem _ hinfo)) ?_
    by_cases hp : info.fsblk * header.fsBlockSize + header.replayOffset ≤ p ∧
        p < info.fsblk * header.fsBlockSize + header.replayOffset + info.size
    · left
      have hdata := hrestores info List.mem_cons_self
        (p - (info.fsblk * header.fsBlockSize + header.replayOffset)) (by omega)
      rw [Nat.add_sub_cancel' hp.1] at hdata
      rw [replayKey, memcpy_of_inside hp.1 hp.2]
      exact hdata
    · rcases h with h | ⟨info', hmem, hcovers⟩
      · left
        rw [replayKey, memcpy_of_outside (by omega), h]
      · rcases List.mem_cons.mp hmem with rfl | hmem
        · exact absurd hcovers hp
        · exact Or.inr ⟨info', hmem, hcovers⟩

theorem flipMagic_flipMagic (super : Block) : flipMagic (flipMagic super) = super := by
  funext p
  simp only [flipMagic]
  split
  · exact UInt8.not_not
  · rfl

theorem replayOffset_undoHeaderOf (ch : UndoChannel) :
    (undoHeaderOf ch).replayOffset = ch.offset := by
  rw [UndoHeader.replayOffset]
  by_cases h : ch.offset = 0
  · simp [undoHeaderOf, h]
  · simp [undoHeaderOf, h]

/-- The superblock that has been recorded is that of the device. -/
theorem checkFilesystem_undoFileOf (hblk : ch.undoFileBlockSize = ch.hdrBlockSize) :
    checkFilesystem (undoHeaderOf ch) (undoFileOf ch).bytes (undoHeaderOf ch).replayOffset ch.dev =
      true := by
  have hrecorded : ∀ q < superblockSize,
    flipMagic (memcpy zeroBlock 0 (fromPos (undoFileOf ch).bytes
      ((undoHeaderOf ch).superOffset * (undoHeaderOf ch).blockSize)) superblockSize) q =
      fromPos ch.dev (ch.offset + superblockSize) q := by
    intro q hq
    have hbyte : memcpy zeroBlock 0 (fromPos (undoFileOf ch).bytes
        ((undoHeaderOf ch).superOffset * (undoHeaderOf ch).blockSize)) superblockSize q =
        flipMagic (fromPos ch.dev (ch.offset + superblockSize)) q := by
      rw [memcpy_of_inside (Nat.zero_le q) (by omega), Nat.sub_zero, fromPos, undoFileOf, hblk]
      exact memcpy_add hq
    rw [flipMagic, hbyte]
    exact congrFun (flipMagic_flipMagic (fromPos ch.dev (ch.offset + superblockSize))) q
  rw [checkFilesystem, replayOffset_undoHeaderOf, Bool.and_eq_true, beq_iff_eq, beq_iff_eq]
  constructor
  · refine bytesOf_congr fun q hq => ?_
    rw [hrecorded q hq, memcpy_of_inside (Nat.zero_le q) (by omega), Nat.sub_zero]
  · have hcrc : (undoHeaderOf ch).sbCrc =
        blockCrc (fromPos ch.dev (ch.offset + superblockSize)) superblockSize := by
      rw [undoHeaderOf]
    rw [hcrc, blockCrc_congr hrecorded]

/-- **An undo file that is in order restores the device.** -/
theorem e2undo_restores (g : UndoGeometry T B O N) (hinv : UndoInv dev₀ T B O N chunks ch)
    (hdev : DevInv dev₀ T B O N chunks ch) (hB : ch.blockSize = B) {dev' : Block}
    (h : E2undoMakes (undoClose ch).2.undoFile ch.dev dev') : ∀ p < N, dev' p = dev₀ p := by
  obtain ⟨chunks', hinv', hall⟩ := writeKeyBlock_inv g.min_le hinv.toUndoPre hinv.room.le
  obtain ⟨hd, -, hbs⟩ := writeKeyBlock_frame ch
  rw [undoClose, writeUndoIndexes_eq (hinv.super_le g)] at h
  generalize writeKeyBlock ch = k at h hinv' hall hd hbs
  have hfinal := hinv'.undoFileOf g
  have hmin := g.min_le
  have hmax := g.le_max
  have hBpos := Nat.pos_of_dvd_of_pos g.dvd g.pos
  obtain ⟨infos, hload, hloaded⟩ :=
    loadKeys_of_chunksAt g.min_le hfinal.room k.numKeys hfinal.chunksAt
    (fun hne => hfinal.keyBlkNum ▸ hfinal.keyBlockAt hne) (hfinal.keyBlkNum ▸ hfinal.keysAt) (by
      have := Nat.le_mul_of_pos_right chunks'.length (Nat.zero_lt_of_lt hfinal.room)
      have hnum := hfinal.numKeys
      dsimp only at *
      omega)
  -- the header written at the close passes every check of e2undo
  have hkeys : e2undoKeys (undoFileOf k) ch.dev = some (undoHeaderOf k, infos) := by
    have hcheck := checkFilesystem_undoFileOf
      ((hinv'.undoFileBlockSize g.pos).trans hinv'.hdrBlockSize.symm)
    rw [hd] at hcheck
    have h1 : (undoHeaderOf k).blockSize = T := hinv'.hdrBlockSize
    have h2 : (undoHeaderOf k).fsBlockSize = B := hbs.trans hB
    have h3 : (undoHeaderOf k).numKeys = k.numKeys := rfl
    have h4 : (undoHeaderOf k).keyOffset = 2 := hinv'.firstKeyBlk
    have h5 : (undoFileOf k).header = some (undoHeaderOf k) := rfl
    rw [e2undoKeys, h5]
    dsimp only
    rw [if_neg (by omega), if_neg (by rw [e2undoMaxBlockSize, e2undoMinBlockSize]; omega),
      if_neg (by rw [hcheck]; decide), h1, h3, h4]
    rw [← hinv'.numKeys] at hload
    rw [hload]
    rfl
  rw [E2undoMakes, hkeys] at h
  obtain ⟨sorted, hperm, rfl⟩ := h
  intro p hp
  refine foldl_replayKey sorted (fun info hinfo => ?_) ?_
  · rw [replayOffset_undoHeaderOf, hinv'.offset]
    change UndoKeyInfo.Restores dev₀ k.hdrBlockSize k.blockSize O _ info
    rw [hinv'.hdrBlockSize, hbs.trans hB]
    exact hloaded.restores info (hperm.mem_iff.mp hinfo)
  -- a byte that was saved is put back, any other was never written
  · rcases Bool.eq_false_or_eq_true (ch.writtenBlockMap (p / T)) with hsaved | hunsaved
    · right
      obtain ⟨key, hkey, hcovers⟩ := hdev.saved p hp hsaved
      rw [← hall] at hkey
      obtain ⟨info, hinfo, h1, h2⟩ := hloaded.complete key hkey
      refine ⟨info, hperm.mem_iff.mpr hinfo, ?_⟩
      rw [replayOffset_undoHeaderOf, hinv'.offset, h1, h2]
      change key.fsblk * k.blockSize + O ≤ p ∧ p < key.fsblk * k.blockSize + O + key.size
      rw [hbs.trans hB]
      exact hcovers
    · exact Or.inl (hdev.unsaved p hp hunsaved)

end Replaying

/-! ### Runs -/

/-- A call of the undo I/O manager that changes something. -/
inductive UndoCall where
  | setBlksize (blksize : ℕ)
  | setTdbDataSize (size : ℕ)
  | write (block : ℕ) (count : ℤ) (buf : Block)

/-- What a call makes of the channel. -/
def UndoCall.run (ch : UndoChannel) : UndoCall → UndoChannel
  | .setBlksize blksize => (undoSetBlksize ch blksize).2
  | .setTdbDataSize size => (undoSetTdbDataSize ch size).2
  | .write block count buf => (undoWriteBlk64 ch block count buf).2

/-- One call after the other. -/
def undoRun (ch : UndoChannel) (calls : List UndoCall) : UndoChannel := calls.foldl UndoCall.run ch

/-- Where a write begins on the device. -/
def writePos (ch : UndoChannel) (block : ℕ) : ℕ := block * ch.blockSize + ch.offset

/-- **The undo file of a run restores the device**: whatever `e2undo` makes of the device after the
channel has been closed is what it was before the run. -/
def UndoRestores (ch : UndoChannel) (calls : List UndoCall) : Prop :=
  ∀ dev', E2undoMakes (undoClose (undoRun ch calls)).2.undoFile (undoRun ch calls).dev dev' →
    ∀ p < ch.devSize, dev' p = ch.dev p

/-- **What a write has to be for the undo file to be good**, when the blocks of the file system are
of `B` bytes in the end: not so long that its size overflows, inside the device, on a device that
has a superblock, with the file system on an undo block, and either of blocks of `B` bytes that undo
blocks are made of or on undo blocks that have all been saved before. -/
structure UndoWriteOk (B : ℕ) (ch : UndoChannel) (block : ℕ) (count : ℤ) : Prop where
  size_lt : backingSize ch.blockSize count < 2 ^ 31
  inside : writePos ch block + backingSize ch.blockSize count ≤ ch.devSize
  super_le : ch.offset + 2 * superblockSize ≤ ch.devSize
  sized : ch.tdbDataSize ≠ 0
  aligned : ch.tdbDataSize ∣ ch.offset
  saves : (ch.blockSize = B ∧ B ∣ ch.tdbDataSize) ∨ (ch.tdbWritten = 1 ∧
    ∀ j, writePos ch block / ch.tdbDataSize ≤ j →
      j ≤ toUInt64 (writePos ch block + undoSize ch.blockSize count - 1) / ch.tdbDataSize →
      ch.writtenBlockMap j = true)

/-- The condition for a call. -/
def UndoCall.Ok (B : ℕ) (ch : UndoChannel) : UndoCall → Prop
  | .write block count _ => UndoWriteOk B ch block count
  | _ => True

/-- All the calls of a run meet the condition, and the blocks are of `B` bytes in the end. -/
def UndoRunOk (B : ℕ) : UndoChannel → List UndoCall → Prop
  | ch, [] => ch.blockSize = B
  | ch, call :: calls => call.Ok B ch ∧ UndoRunOk B (call.run ch) calls

section Runs

variable {dev₀ : Block} {T B O N : ℕ} {chunks : List (List UndoKey)} {ch : UndoChannel}
  {calls : List UndoCall}

/-- A channel that nothing has been written through. -/
structure UndoFresh (dev₀ : Block) (O N : ℕ) (ch : UndoChannel) : Prop where
  tdbWritten : ch.tdbWritten ≠ 1
  tdbDataSize : ch.tdbDataSize = 0 ∨ 1024 ≤ ch.tdbDataSize ∧ ch.tdbDataSize ≤ 2 ^ 20
  hdrBlockSize : ch.hdrBlockSize = 0
  offset : ch.offset = O
  devSize : ch.devSize = N
  superBlkNum : ch.superBlkNum = 1
  firstKeyBlk : ch.firstKeyBlk = 2
  numKeys : ch.numKeys = 0
  undoBlkNum : ch.undoBlkNum = 3
  keyb : ch.keyb = []
  header : ch.undoFile.header = none
  dev : ch.dev = dev₀

/-- **The state between two calls**: nothing has been written, or everything that has been is in the
undo file. -/
def UndoState (dev₀ : Block) (B O N : ℕ) (ch : UndoChannel) : Prop :=
  UndoFresh dev₀ O N ch ∨ ∃ T chunks, UndoGeometry T B O N ∧ UndoInv dev₀ T B O N chunks ch ∧
    DevInv dev₀ T B O N chunks ch

theorem undoFresh_undoOpen (dev₀ : Block) (O N : ℕ) : UndoFresh dev₀ O N (undoOpen O dev₀ N) := by
  refine ⟨?_, Or.inl rfl, rfl, rfl, rfl, rfl, rfl, rfl, rfl, rfl, rfl, rfl⟩
  change (0 : ℤ) ≠ 1
  decide

/-- The first write sets the undo file up. -/
theorem undoSetupTdb_of_fresh (h : UndoFresh dev₀ O N ch) (hT : ch.tdbDataSize ≠ 0) :
    UndoInv dev₀ ch.tdbDataSize B O N [] (undoSetupTdb ch) ∧
      DevInv dev₀ ch.tdbDataSize B O N [] (undoSetupTdb ch) := by
  have hmin := (h.tdbDataSize.resolve_left hT).1
  rw [undoSetupTdb, if_neg h.tdbWritten]
  refine ⟨⟨⟨rfl, rfl, rfl, h.offset, h.devSize, h.superBlkNum, h.firstKeyBlk, ?_, h.firstKeyBlk, ?_,
    trivial, trivial, fun key hkey => absurd hkey List.not_mem_nil⟩, ?_, fun hne => absurd rfl hne⟩,
    ⟨fun p _ _ => congrFun h.dev p, fun p _ hp => absurd hp Bool.false_ne_true⟩⟩
  · simpa using h.numKeys
  · change ch.undoBlkNum = ch.firstKeyBlk + 1 + 0
    rw [h.undoBlkNum, h.firstKeyBlk]
  · change 0 < keysPerBlock ch.tdbDataSize
    rw [keysPerBlock]
    omega

theorem undoSetupTdb_of_written (h : ch.tdbWritten = 1) : undoSetupTdb ch = ch := if_pos h

/-- The size of a write that is not too long does not overflow. -/
theorem undoSize_eq {blockSize : ℕ} {count : ℤ} (h : backingSize blockSize count < 2 ^ 31) :
    undoSize blockSize count = backingSize blockSize count := by
  rw [undoSize]
  rw [backingSize] at *
  by_cases h1 : count = 1
  · subst h1
    simp
  · rw [if_neg h1]
    by_cases h0 : count < 0
    · rw [if_pos h0, if_pos h0]
      omega
    · rw [if_neg h0] at h
      rw [if_neg h0, if_neg h0, toInt32]
      have hcast : count * (blockSize : ℤ) = ((count.toNat * blockSize : ℕ) : ℤ) := by
        rw [Nat.cast_mul, Int.toNat_of_nonneg (by omega)]
      rw [hcast]
      omega

/-- Every byte of a write is in an undo block that the loop goes through. -/
theorem div_le_endBlock {pos size p : ℕ} (hN : pos + size ≤ N) (hlt : N < 2 ^ 63)
    (h : p < pos + size) :
    p / T ≤ toUInt64 (pos + size - 1) / T := by
  refine Nat.div_le_div_right ?_
  rw [toUInt64]
  omega

/-- **A write keeps the undo file good.** -/
theorem undoWriteBlk64_inv (g : UndoGeometry T B O N) (hinv : UndoInv dev₀ T B O N chunks ch)
    (hdev : DevInv dev₀ T B O N chunks ch) {block : ℕ} {count : ℤ} (buf : Block)
    (hok : UndoWriteOk B ch block count) : ∃ chunks',
      UndoInv dev₀ T B O N chunks' (undoWriteBlk64 ch block count buf).2 ∧
        DevInv dev₀ T B O N chunks' (undoWriteBlk64 ch block count buf).2 := by
  obtain rfl := hinv.tdbDataSize
  have hpos := g.pos
  have hO : ch.offset = O := hinv.offset
  obtain ⟨c, hc⟩ := g.aligned
  have hfirst : O ≤ writePos ch block / ch.tdbDataSize * ch.tdbDataSize := by
    rw [hc, Nat.mul_comm]
    refine Nat.mul_le_mul_right _ ((Nat.le_div_iff_mul_le hpos).mpr ?_)
    rw [writePos, Nat.mul_comm, ← hc, hO]
    exact Nat.le_add_left _ _
  generalize hend : toUInt64 (writePos ch block + undoSize ch.blockSize count - 1) /
    ch.tdbDataSize = last
  obtain ⟨chunks', ch', hrun, hinv', hdev', hbs, hd, -, hall⟩ :=
    @saveUndoBlocks_inv dev₀ _ B O N g (last + 1 - writePos ch block / ch.tdbDataSize)
      (writePos ch block / ch.tdbDataSize) chunks ch hinv hdev hfirst
      (hok.saves.imp And.left fun h j h1 h2 => h.2 j h1 (by rw [hend]; omega))
  have hwrite : undoWriteTdb ch block count = (true, ch') := by
    rw [undoWriteTdb, undoSetupTdb_of_written hinv.tdbWritten]
    rw [← hrun, ← hend]
    rfl
  rw [undoWriteBlk64, hwrite]
  refine ⟨chunks', ⟨{ hinv'.toUndoPre with }, hinv'.room, hinv'.keyBlockAt⟩,
    ⟨fun p hp h => ?_, hdev'.saved⟩⟩
  dsimp only at *
  rw [hbs, hinv'.offset]
  by_cases hin : writePos ch block ≤ p ∧ p < writePos ch block + backingSize ch.blockSize count
  · have hsaved : ch'.writtenBlockMap (p / ch.tdbDataSize) = true := by
      have hle := hok.inside
      rw [hinv.devSize] at hle
      have hlast := @div_le_endBlock ch.tdbDataSize N _ _ p hle g.devSize_lt hin.2
      rw [← undoSize_eq hok.size_lt, hend] at hlast
      have hge : writePos ch block / ch.tdbDataSize ≤ p / ch.tdbDataSize :=
        Nat.div_le_div_right hin.1
      exact hall _ hge (by omega)
    rw [hsaved] at h
    exact absurd h (by decide)
  · rw [writePos, hO] at hin
    rw [memcpy_of_outside (by omega)]
    exact hdev'.unsaved p hp h

/-- The first write is made on an undo file that has been set up. -/
theorem undoWriteBlk64_undoSetupTdb {block : ℕ} {count : ℤ} {buf : Block} :
    undoWriteBlk64 (undoSetupTdb ch) block count buf = undoWriteBlk64 ch block count buf := by
  have hidem : undoSetupTdb (undoSetupTdb ch) = undoSetupTdb ch := by
    refine undoSetupTdb_of_written ?_
    rw [undoSetupTdb]
    split
    · assumption
    · rfl
  rw [undoWriteBlk64, undoWriteBlk64, undoWriteTdb, undoWriteTdb, hidem]

theorem undoState_write (hN : N < 2 ^ 63) {block : ℕ} {count : ℤ} {buf : Block}
    (h : UndoState dev₀ B O N ch) (hok : UndoWriteOk B ch block count) :
    UndoState dev₀ B O N (undoWriteBlk64 ch block count buf).2 := by
  right
  rcases h with h | ⟨T, chunks, g, hinv, hdev⟩
  · have hsize := hok.saves.resolve_right fun hw => h.tdbWritten hw.1
    have hrange := h.tdbDataSize.resolve_left hok.sized
    have hfresh := @undoSetupTdb_of_fresh dev₀ B O N ch h hok.sized
    have g : UndoGeometry ch.tdbDataSize B O N :=
      ⟨hrange.1, hrange.2, hsize.2, h.offset ▸ hok.aligned, hN, h.offset ▸ h.devSize ▸ hok.super_le⟩
    have hok' : UndoWriteOk B (undoSetupTdb ch) block count := by
      have hsetup : undoSetupTdb ch = { ch with
          tdbWritten := 1, writtenBlockMap := fun _ => false, keyb := [],
          keyBlkNum := ch.firstKeyBlk
          hdrBlockSize := ch.tdbDataSize } := if_neg h.tdbWritten
      rw [hsetup]
      exact { hok with saves := Or.inl hsize }
    obtain ⟨chunks', hinv', hdev'⟩ := undoWriteBlk64_inv g hfresh.1 hfresh.2 buf hok'
    rw [undoWriteBlk64_undoSetupTdb] at hinv' hdev'
    exact ⟨_, chunks', g, hinv', hdev'⟩
  · obtain ⟨chunks', hinv', hdev'⟩ := undoWriteBlk64_inv g hinv hdev buf hok
    exact ⟨T, chunks', g, hinv', hdev'⟩

theorem undoState_setBlksize (h : UndoState dev₀ B O N ch) (blksize : ℕ) :
    UndoState dev₀ B O N (undoSetBlksize ch blksize).2 := by
  rw [undoSetBlksize]
  split
  · exact h
  · next hrange =>
    rw [e2undoMaxBlockSize, e2undoMinBlockSize] at hrange
    rcases h with h | ⟨T, chunks, g, hinv, hdev⟩
    · left
      refine { h with tdbDataSize := ?_ }
      dsimp only
      split
      · omega
      · exact h.tdbDataSize
    · refine Or.inr ⟨T, chunks, g,
        ⟨{ hinv.toUndoPre with tdbDataSize := ?_ }, hinv.room, hinv.keyBlockAt⟩,
        ⟨hdev.unsaved, hdev.saved⟩⟩
      have hpos := g.pos
      have h1 := hinv.tdbDataSize
      have h2 := hinv.tdbWritten
      dsimp only
      rw [if_neg (by omega), h1]

theorem undoState_setTdbDataSize (h : UndoState dev₀ B O N ch) (size : ℕ) :
    UndoState dev₀ B O N (undoSetTdbDataSize ch size).2 := by
  rw [undoSetTdbDataSize]
  split
  · exact h
  · next hrange =>
    rw [e2undoMaxBlockSize, e2undoMinBlockSize] at hrange
    split
    · next hset =>
      rcases h with h | ⟨T, chunks, g, hinv, hdev⟩
      · left
        refine { h with tdbWritten := ?_, tdbDataSize := ?_ }
        · change (-1 : ℤ) ≠ 1
          decide
        · right
          dsimp only
          omega
      · have hpos := g.pos
        have h1 := hinv.tdbDataSize
        have h2 := hinv.tdbWritten
        omega
    · exact h

/-- **What holds after a run.** -/
theorem undoState_undoRun (hN : N < 2 ^ 63) : ∀ {calls : List UndoCall} {ch : UndoChannel},
    UndoState dev₀ B O N ch → UndoRunOk B ch calls →
    UndoState dev₀ B O N (undoRun ch calls) ∧ (undoRun ch calls).blockSize = B
  | [], _, h, hok => ⟨h, hok⟩
  | call :: calls, ch, h, hok => by
    refine @undoState_undoRun hN calls (call.run ch) ?_ hok.2
    cases call with
    | setBlksize blksize => exact undoState_setBlksize h blksize
    | setTdbDataSize size => exact undoState_setTdbDataSize h size
    | write block count buf => exact undoState_write hN h hok.1

/-- An undo file that nothing has been saved in makes `e2undo` give up. -/
theorem e2undo_of_fresh (h : UndoFresh dev₀ O N ch) {dev' : Block}
    (hmakes : E2undoMakes (undoClose ch).2.undoFile ch.dev dev') : dev' = dev₀ := by
  have hkeyb : writeKeyBlock ch = ch := if_pos h.keyb
  rw [undoClose] at hmakes
  by_cases hsuper : ch.offset + 2 * superblockSize ≤ ch.devSize
  · have hheader : (undoFileOf ch).header = some (undoHeaderOf ch) := rfl
    have hsize : (undoHeaderOf ch).blockSize = 0 := h.hdrBlockSize
    rw [writeUndoIndexes_eq hsuper, hkeyb, E2undoMakes, e2undoKeys, hheader] at hmakes
    dsimp only at hmakes
    rw [if_pos (Or.inl hsize)] at hmakes
    exact hmakes.trans h.dev
  · have hfail : writeUndoIndexes ch = (false, ch) := by
      rw [writeUndoIndexes]
      simp only [h.keyb, if_true]
      exact if_pos (Nat.lt_of_not_le hsuper)
    rw [hfail, E2undoMakes, e2undoKeys, h.header] at hmakes
    exact hmakes.trans h.dev

/-- **Runs that meet the condition can be undone.** -/
theorem undoRestores_of_runOk (hN : N < 2 ^ 63) (hok : UndoRunOk B ch calls)
    (hfresh : UndoFresh ch.dev O N ch) : UndoRestores ch calls := by
  intro dev' hmakes p hp
  rw [hfresh.devSize] at hp
  obtain ⟨hstate, hB⟩ := undoState_undoRun hN (Or.inl hfresh) hok
  rcases hstate with h | ⟨T, chunks, g, hinv, hdev⟩
  · exact congrFun (e2undo_of_fresh h hmakes) p
  · exact e2undo_restores g hinv hdev hB hmakes p hp

end Runs

/-- An undo file without keys leaves the device as it is. -/
theorem e2undoMakes_self {file : UndoFile} {dev : Block}
    (h : ∀ header, file.header = some header → header.numKeys = 0) : E2undoMakes file dev dev := by
  rw [E2undoMakes]
  cases hkeys : e2undoKeys file dev with
  | none => rfl
  | some r =>
    obtain ⟨header, keys⟩ := r
    rw [e2undoKeys] at hkeys
    cases hheader : file.header with
    | none =>
      rw [hheader] at hkeys
      exact absurd hkeys (by simp)
    | some header' =>
      rw [hheader] at hkeys
      have hzero := h header' hheader
      dsimp only at hkeys
      rw [hzero] at hkeys
      split at hkeys
      · exact absurd hkeys (by simp)
      split at hkeys
      · exact absurd hkeys (by simp)
      split at hkeys
      · exact absurd hkeys (by simp)
      rw [loadKeys_zero, Option.map_some, Option.some.injEq, Prod.mk.injEq] at hkeys
      exact ⟨[], hkeys.2 ▸ List.Perm.refl _, rfl⟩

/-! ### Blocks of one size -/

/-- Writing changes no size of a channel. -/
structure SameSizes (ch ch' : UndoChannel) : Prop where
  blockSize : ch'.blockSize = ch.blockSize
  offset : ch'.offset = ch.offset
  devSize : ch'.devSize = ch.devSize
  tdbDataSize : ch'.tdbDataSize = ch.tdbDataSize

theorem SameSizes.trans {ch ch' ch'' : UndoChannel} (h : SameSizes ch ch')
    (h' : SameSizes ch' ch'') :
    SameSizes ch ch'' :=
  ⟨h'.blockSize.trans h.blockSize, h'.offset.trans h.offset, h'.devSize.trans h.devSize,
    h'.tdbDataSize.trans h.tdbDataSize⟩

theorem sameSizes_writeKeyBlock (ch : UndoChannel) : SameSizes ch (writeKeyBlock ch) := by
  rw [writeKeyBlock]
  split
  · exact ⟨rfl, rfl, rfl, rfl⟩
  · dsimp only
    split <;> exact ⟨rfl, rfl, rfl, rfl⟩

theorem sameSizes_writeUndoIndexes (ch : UndoChannel) : SameSizes ch (writeUndoIndexes ch).2 := by
  have heq : writeUndoIndexes ch =
      if (writeKeyBlock ch).devSize < (writeKeyBlock ch).offset + 2 * superblockSize then
        (false, writeKeyBlock ch)
      else (true, { writeKeyBlock ch with undoFile := undoFileOf (writeKeyBlock ch) }) := rfl
  rw [heq]
  refine (sameSizes_writeKeyBlock ch).trans ?_
  split <;> exact ⟨rfl, rfl, rfl, rfl⟩

theorem sameSizes_saveUndoBlock (ch : UndoChannel) (i : ℕ) :
    SameSizes ch (saveUndoBlock ch i).2 := by
  rw [saveUndoBlock]
  dsimp only
  split
  · exact ⟨rfl, rfl, rfl, rfl⟩
  · refine SameSizes.trans ?_ (sameSizes_writeUndoIndexes _)
    exact ⟨rfl, rfl, rfl, rfl⟩

theorem sameSizes_saveUndoBlocks (n : ℕ) : ∀ (i : ℕ) (ch : UndoChannel),
    SameSizes ch (saveUndoBlocks n i ch).2 := by
  induction n with
  | zero => exact fun i ch => ⟨rfl, rfl, rfl, rfl⟩
  | succ n ih =>
    intro i ch
    rw [saveUndoBlocks]
    split
    · exact ih _ _
    · have hsave := sameSizes_saveUndoBlock ch i
      split
      · next heq =>
        rw [heq] at hsave
        exact hsave.trans (ih _ _)
      · next heq =>
        rwa [heq] at hsave

theorem sameSizes_undoSetupTdb (ch : UndoChannel) : SameSizes ch (undoSetupTdb ch) := by
  rw [undoSetupTdb]
  split <;> exact ⟨rfl, rfl, rfl, rfl⟩

theorem sameSizes_undoWriteBlk64 (ch : UndoChannel) (block : ℕ) (count : ℤ) (buf : Block) :
    SameSizes ch (undoWriteBlk64 ch block count buf).2 := by
  have htdb : SameSizes ch (undoWriteTdb ch block count).2 :=
    (sameSizes_undoSetupTdb ch).trans (sameSizes_saveUndoBlocks _ _ _)
  rw [undoWriteBlk64]
  split
  · next heq =>
    rw [heq] at htdb
    exact htdb.trans ⟨rfl, rfl, rfl, rfl⟩
  · next heq =>
    rwa [heq] at htdb

/-- An argument of `undo_write_blk64`: the block, the count and the buffer. -/
structure UndoWrite where
  block : ℕ
  count : ℤ
  buf : Block

/-- The writes of a run as calls. -/
def UndoWrite.call (w : UndoWrite) : UndoCall := .write w.block w.count w.buf

/-- A channel of the undo I/O manager whose blocks are undo blocks. -/
def undoOpenSized (T O : ℕ) (dev : Block) (N : ℕ) : UndoChannel :=
  (undoSetBlksize (undoOpen O dev N) T).2

/-- A write is inside the device. -/
def UndoWrite.Inside (ch : UndoChannel) (w : UndoWrite) : Prop :=
  writePos ch w.block + backingSize ch.blockSize w.count ≤ ch.devSize

instance (ch : UndoChannel) (w : UndoWrite) : Decidable (w.Inside ch) :=
  inferInstanceAs (Decidable (_ ≤ _))

section Sized

variable {T O N : ℕ} {dev : Block}

theorem undoOpenSized_eq (hT : 1024 ≤ T) (hT' : T ≤ 2 ^ 20) :
    undoOpenSized T O dev N = { undoOpen O dev N with tdbDataSize := T, blockSize := T } := by
  have hrange : ¬(e2undoMaxBlockSize < T ∨ T < e2undoMinBlockSize) := by
    rw [e2undoMaxBlockSize, e2undoMinBlockSize]
    omega
  rw [undoOpenSized, undoSetBlksize, if_neg hrange]
  rfl

theorem sizes_undoOpenSized (hT : 1024 ≤ T) (hT' : T ≤ 2 ^ 20) :
    (undoOpenSized T O dev N).blockSize = T ∧ (undoOpenSized T O dev N).tdbDataSize = T ∧
      (undoOpenSized T O dev N).offset = O ∧ (undoOpenSized T O dev N).devSize = N := by
  rw [undoOpenSized_eq hT hT']
  exact ⟨rfl, rfl, rfl, rfl⟩

/-- With undo blocks for blocks, writes meet the condition when they are short. -/
theorem undoRunOk_of_sized {ch₀ : UndoChannel} (hT : ch₀.tdbDataSize ≠ 0)
    (hB : ch₀.blockSize = ch₀.tdbDataSize) (hO : ch₀.tdbDataSize ∣ ch₀.offset)
    (hsuper : ch₀.offset + 2 * superblockSize ≤ ch₀.devSize) :
    ∀ {writes : List UndoWrite} {ch : UndoChannel}, SameSizes ch₀ ch →
      (∀ w ∈ writes, w.Inside ch₀) → (∀ w ∈ writes, backingSize ch₀.blockSize w.count < 2 ^ 31) →
      UndoRunOk ch₀.tdbDataSize ch (writes.map UndoWrite.call)
  | [], ch, hsame, _, _ => hsame.blockSize.trans hB
  | w :: writes, ch, hsame, hin, hshort => by
    have hw := hin w List.mem_cons_self
    have hw' := hshort w List.mem_cons_self
    refine ⟨⟨?_, ?_, ?_, ?_, ?_, Or.inl ⟨?_, ?_⟩⟩,
      undoRunOk_of_sized hT hB hO hsuper (hsame.trans (sameSizes_undoWriteBlk64 _ _ _ _))
        (fun w hw => hin w (List.mem_cons_of_mem _ hw)) fun w hw =>
          hshort w (List.mem_cons_of_mem _ hw)⟩
    · rwa [hsame.blockSize]
    · rwa [writePos, hsame.blockSize, hsame.offset, hsame.devSize]
    · rwa [hsame.offset, hsame.devSize]
    · rwa [hsame.tdbDataSize]
    · rwa [hsame.tdbDataSize, hsame.offset]
    · rw [hsame.blockSize, hB]
    · rw [hsame.tdbDataSize]

/-- **A device whose blocks are undo blocks is restored**, whatever has been written to it, if no
write was of 2 GiB or more and the device has a superblock. -/
theorem undoRestores_of_sized (hT : 1024 ≤ T) (hT' : T ≤ 2 ^ 20) (hO : T ∣ O) (hN : N < 2 ^ 63)
    (writes : List UndoWrite) (hin : ∀ w ∈ writes, w.Inside (undoOpenSized T O dev N))
    (hshort : ∀ w ∈ writes, backingSize T w.count < 2 ^ 31) (hsuper : O + 2 * superblockSize ≤ N) :
    UndoRestores (undoOpenSized T O dev N) (writes.map UndoWrite.call) := by
  obtain ⟨h1, h2, h3, h4⟩ := @sizes_undoOpenSized T O N dev hT hT'
  have hfresh : UndoFresh (undoOpenSized T O dev N).dev O N (undoOpenSized T O dev N) := by
    rw [undoOpenSized_eq hT hT']
    exact { undoFresh_undoOpen dev O N with tdbDataSize := Or.inr ⟨hT, hT'⟩ }
  have hok := @undoRunOk_of_sized (undoOpenSized T O dev N) (by omega) (by omega) (by rwa [h2, h3])
    (by omega) writes (undoOpenSized T O dev N) ⟨rfl, rfl, rfl, rfl⟩ hin (by rwa [h1])
  exact undoRestores_of_runOk hN hok hfresh

/-- A write of two blocks and one over the first of them. -/
def twoWrites : List UndoWrite := [⟨1, 2, fun _ => 1⟩, ⟨1, 1, fun _ => 2⟩]

theorem undoRestores_of_sized_twoWrites :
    UndoRestores (undoOpenSized 1024 0 zeroBlock 4096) (twoWrites.map UndoWrite.call) :=
  undoRestores_of_sized (by decide) (by decide) (by decide) (by decide) twoWrites
    (by decide) (by decide) (by decide)

/-- A write of 4 GiB, whose size is zero in an `int`. -/
def hugeWrite : UndoWrite := ⟨1, 2 ^ 20, fun _ => 1⟩

/-- Nothing is saved before a write of 4 GiB. -/
theorem hugeWrite_not_restored : hugeWrite.Inside (undoOpenSized 4096 0 zeroBlock (2 ^ 33)) ∧
    ¬UndoRestores (undoOpenSized 4096 0 zeroBlock (2 ^ 33)) [hugeWrite.call] := by
  generalize hfinal : undoRun (undoOpenSized 4096 0 zeroBlock (2 ^ 33)) [hugeWrite.call] = ch
  have hkeys : ∀ header, (undoClose ch).2.undoFile.header = some header → header.numKeys = 0 := by
    subst hfinal
    intro header hheader
    cases hheader
    rfl
  have hbyte : ch.dev 4096 = 1 := by
    subst hfinal
    decide +kernel
  have hzero : (undoOpenSized 4096 0 zeroBlock (2 ^ 33)).dev 4096 = 0 := by decide +kernel
  refine ⟨by decide, fun h => ?_⟩
  rw [UndoRestores, hfinal] at h
  have hsame := h ch.dev (e2undoMakes_self hkeys) 4096 (by decide)
  rw [hbyte, hzero] at hsame
  exact absurd hsame (by decide)

end Sized

/-! ### Blocks of changing sizes -/

/-- A byte that a run writes. -/
def UndoWritten : UndoChannel → List UndoCall → ℕ → Prop
  | _, [], _ => False
  | ch, call :: calls, p => (match call with
      | .write block count _ =>
        writePos ch block ≤ p ∧ p < writePos ch block + backingSize ch.blockSize count
      | _ => False) ∨ UndoWritten (call.run ch) calls p

/-- **The undo file of a run restores what was written.** -/
def UndoRestoresWritten (ch : UndoChannel) (calls : List UndoCall) : Prop :=
  ∀ dev', E2undoMakes (undoClose (undoRun ch calls)).2.undoFile (undoRun ch calls).dev dev' →
    ∀ p, UndoWritten ch calls p → dev' p = ch.dev p

section Written

variable {B O N : ℕ} {dev : Block}

theorem devSize_run (ch : UndoChannel) (call : UndoCall) : (call.run ch).devSize = ch.devSize := by
  cases call with
  | setBlksize blksize =>
    rw [UndoCall.run, undoSetBlksize]
    split <;> rfl
  | setTdbDataSize size =>
    rw [UndoCall.run, undoSetTdbDataSize]
    split
    · rfl
    · split <;> rfl
  | write block count buf => exact (sameSizes_undoWriteBlk64 ch block count buf).devSize

/-- What is written is inside the device. -/
theorem lt_devSize_of_written {p : ℕ} : ∀ {calls : List UndoCall} {ch : UndoChannel},
    UndoRunOk B ch calls → UndoWritten ch calls p → p < ch.devSize
  | [], _, _, h => h.elim
  | call :: calls, ch, hok, h => by
    rcases h with h | h
    · cases call with
      | write block count buf => exact h.2.trans_le hok.1.inside
      | _ => exact h.elim
    · rw [← devSize_run ch call]
      exact lt_devSize_of_written hok.2 h

/-- **Block sizes may change and the file system have an offset**, as long as it is on an undo
block, no write is of 2 GiB or more, and every undo block is saved by a write with blocks of the
size that there is in the end, undo blocks being made of such blocks. -/
theorem undoRestoresWritten_of_runOk (hN : N < 2 ^ 63) (calls : List UndoCall)
    (hok : UndoRunOk B (undoOpen O dev N) calls) : UndoRestoresWritten (undoOpen O dev N) calls :=
  fun dev' hmakes p hp =>
    undoRestores_of_runOk hN hok (undoFresh_undoOpen dev O N) dev' hmakes p
      (lt_devSize_of_written hok hp)

/-- Undo blocks of 4 KiB, and writes with blocks of 1 KiB and of 2 KiB. -/
def mixedCalls : List UndoCall :=
  [.setTdbDataSize 4096, .setBlksize 1024, .write 1 2 fun _ => 1, .setBlksize 2048,
    .write 1 1 fun _ => 2, .setBlksize 1024]

theorem undoRestoresWritten_of_runOk_mixedCalls :
    UndoRestoresWritten (undoOpen 4096 zeroBlock 16384) mixedCalls := by
  refine @undoRestoresWritten_of_runOk 1024 4096 16384 zeroBlock (by decide) mixedCalls ?_
  refine ⟨trivial, trivial,
    ⟨by decide, by decide, by decide, by decide, by decide, Or.inl ⟨rfl, by decide⟩⟩, trivial,
    ⟨by decide, by decide, by decide, by decide, by decide, Or.inr ⟨rfl, ?_⟩⟩, trivial, rfl⟩
  intro j h1 h2
  have h1' : 1 ≤ j := h1
  have h2' : j ≤ 1 := h2
  obtain rfl : j = 1 := by omega
  rfl

/-- A block of 1 KiB at the end of a file system that is 1 KiB off an undo block. -/
def shiftedCalls : List UndoCall := [.setTdbDataSize 4096, .setBlksize 1024, .write 3 1 fun _ => 1]

/-- The undo block that is saved is not the one that is written. -/
theorem shiftedCalls_not_restored :
    ¬UndoRestoresWritten (undoOpen 1024 zeroBlock 5120) shiftedCalls := by
  generalize hfinal : undoRun (undoOpen 1024 zeroBlock 5120) shiftedCalls = ch
  have hkeys : ∀ header, (undoClose ch).2.undoFile.header = some header → header.numKeys = 0 := by
    subst hfinal
    intro header hheader
    cases hheader
    rfl
  have hbyte : ch.dev 4096 = 1 := by
    subst hfinal
    decide +kernel
  have hzero : (undoOpen 1024 zeroBlock 5120).dev 4096 = 0 := by decide +kernel
  intro h
  rw [UndoRestoresWritten, hfinal] at h
  have hsame := h ch.dev (e2undoMakes_self hkeys) 4096 (Or.inr (Or.inr (Or.inl (by decide))))
  rw [hbyte, hzero] at hsame
  exact absurd hsame (by decide)

end Written

end E2fsprogs
