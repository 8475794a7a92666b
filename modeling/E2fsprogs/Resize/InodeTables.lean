import E2fsprogs.Lib.Memcpy

/-!
# Moving the inode tables

`move_itables` of `resize/resize2fs.c`. A table is read into a buffer as a whole and written at its
new place. The end of a table is often zero, and when the table moves up by less than that, the zero
blocks are not written again: the blocks that are new are cleared instead
(`E2fsprogs.ItableMove.moveItable`).

The distance is signed, and a negative one is taken as zero before it is compared with the number of
zero blocks. So the same shortcut is used for a table that moves down, where the last blocks of the
new place are not those of the old one, and nothing is cleared. They are right only if they were
zero before (`E2fsprogs.movesTables_iff`).

The disk is one array of bytes. The bitmaps and counts that the function updates on its way are left
out, and what `ext2fs_flush` writes is a parameter.
-/

namespace E2fsprogs

/-- The places of the inode tables before and after. -/
structure ItableMove where
  /-- `EXT2_BLOCK_SIZE_BITS`. -/
  blockSizeBits : ℕ
  inodeBlocksPerGroup : ℕ
  /-- `group_desc_count` of the old file system. -/
  oldGroups : ℕ
  /-- `group_desc_count` of the new file system. -/
  newGroups : ℕ
  /-- `ext2fs_inode_table_loc` of the old file system. -/
  oldLoc : ℕ → ℕ
  /-- `ext2fs_inode_table_loc` of the new file system. -/
  newLoc : ℕ → ℕ
  size_lt : 2 ^ blockSizeBits * inodeBlocksPerGroup < 2 ^ 32

/-- What the calls of the function do: whether they succeed, and what a flush leaves on the disk. -/
structure ItableCalls where
  /-- The memory for the buffer and the bitmap of the new metadata. -/
  getMem : Bool
  /-- The progress function before the first table. -/
  start : Bool
  read : ℕ → Bool
  write : ℕ → Bool
  clear : ℕ → Bool
  progress : ℕ → Bool
  /-- `ext2fs_flush (rfs->old_fs)` after a group. -/
  flushOld : ℕ → Block → Block
  /-- `ext2fs_flush (fs)` at the end. -/
  flushNew : Block → Block

/-- The disk, the locations in the old file system, and the runs of blocks that were written. -/
structure ItableState where
  disk : Block
  oldLoc : ℕ → ℕ
  written : List (ℕ × ℕ)

/-- The number of zero bytes at the end of a buffer. -/
def trailingZeros (buf : Block) : ℕ → ℕ
  | 0 => 0
  | size + 1 => if buf size ≠ 0 then 0 else trailingZeros buf size + 1

namespace ItableMove

variable (t : ItableMove) (io : ItableCalls)

def blocksize : ℕ := 2 ^ t.blockSizeBits

/-- The bytes of a table. -/
def bytes : ℕ := t.blocksize * t.inodeBlocksPerGroup

/-- `max_groups`. -/
def maxGroups : ℕ := min t.newGroups t.oldGroups

/-- `size`, an `int`. -/
def size : ℤ := (BitVec.ofNat 32 t.bytes).toInt

/-- `io_channel_write_blk64`. -/
def writeBlk (blk count : ℕ) (buf : Block) (st : ItableState) : ItableState :=
  { st with
    disk := memcpy st.disk (blk * t.blocksize) buf (count * t.blocksize)
    written := (blk, count) :: st.written }

/-- The number of whole zero blocks at the end of a table. -/
def zeroBlocks (buf : Block) : ℕ := trailingZeros buf t.size.toNat >>> t.blockSizeBits

/-- The writes that move a table, `n` of whose blocks are zero at the end. -/
def writeTable (oldBlk newBlk n : ℕ) (buf : Block) (st : ItableState) : ItableState :=
  let diff := newBlk - oldBlk
  if diff < n then
    t.writeBlk (oldBlk + t.inodeBlocksPerGroup) diff
      (fromPos buf ((t.inodeBlocksPerGroup - diff) * t.blocksize))
      (t.writeBlk newBlk (t.inodeBlocksPerGroup - n) buf st)
  else t.writeBlk newBlk t.inodeBlocksPerGroup buf st

/-- The second loop for one group. -/
def moveItable (i : ℕ) (st : ItableState) : Option ItableState :=
  let oldBlk := st.oldLoc i
  let newBlk := t.newLoc i
  if oldBlk = newBlk then some st
  else if !io.read i then none
  else
    let buf := fromPos st.disk (oldBlk * t.blocksize)
    let n := t.zeroBlocks buf
    if !io.write i then none
    -- A downward move has the distance zero here.
    else if newBlk - oldBlk < n && !io.clear i then none
    else
      let st := t.writeTable oldBlk newBlk n buf st
      let st :=
        { st with oldLoc := Function.update st.oldLoc i newBlk, disk := io.flushOld i st.disk }
      if !io.progress i then none else some st

/-- The second loop over the first `n` groups. -/
def moveGroups : ℕ → ItableState → Option ItableState
  | 0, st => some st
  | n + 1, st => moveGroups n st >>= t.moveItable io n

/-- `move_itables`; `none` is an error. -/
def moveItables (disk : Block) : Option ItableState :=
  let st : ItableState := { disk, oldLoc := t.oldLoc, written := [] }
  if !io.getMem then none
  else if ∀ i < t.maxGroups, t.oldLoc i = t.newLoc i then some st
  else if !io.start then none
  else (t.moveGroups io t.maxGroups st).map fun st => { st with disk := io.flushNew st.disk }

/-! ### What it should do -/

/-- Two tables have no block in common. -/
def Apart (a b : ℕ) : Prop := a + t.inodeBlocksPerGroup ≤ b ∨ b + t.inodeBlocksPerGroup ≤ a

/-- A new table overlaps at most the old table of its own group. -/
def OwnOnly : Prop :=
  ∀ i < t.maxGroups, ∀ k < t.maxGroups, i ≠ k →
    t.Apart (t.newLoc i) (t.oldLoc k) ∧ t.Apart (t.newLoc i) (t.newLoc k)

/-- A byte of the table at a location. -/
def InTable (loc p : ℕ) : Prop := loc * t.blocksize ≤ p ∧ p < loc * t.blocksize + t.bytes

/-- A byte of the old or the new table of a group that is moved. -/
def Moved (p : ℕ) : Prop :=
  ∃ i < t.maxGroups, t.oldLoc i ≠ t.newLoc i ∧ (t.InTable (t.oldLoc i) p ∨ t.InTable (t.newLoc i) p)

/-- The flushes write the superblock, the descriptors and the bitmaps, never a table: the old file
system knows of both places, the new one of its own. -/
structure FlushKeeps : Prop where
  old : ∀ n disk, ∀ i < t.maxGroups, ∀ p, t.InTable (t.oldLoc i) p ∨ t.InTable (t.newLoc i) p →
    io.flushOld n disk p = disk p
  new : ∀ disk, ∀ i < t.maxGroups, ∀ p, t.InTable (t.newLoc i) p → io.flushNew disk p = disk p

/-- **The tables are moved**: every new table has the bytes of the old one, every block that was
written belongs to a table of a moved group, and the other bytes are as they were or as a flush left
them. -/
structure MovesTables (disk : Block) (st : ItableState) : Prop where
  moved : ∀ i < t.maxGroups, ∀ p < t.bytes,
    st.disk (t.newLoc i * t.blocksize + p) = disk (t.oldLoc i * t.blocksize + p)
  written : ∀ w ∈ st.written, ∃ i < t.maxGroups, t.oldLoc i ≠ t.newLoc i ∧
    ∀ b, w.1 ≤ b → b < w.1 + w.2 →
      t.oldLoc i ≤ b ∧ b < t.oldLoc i + t.inodeBlocksPerGroup ∨
        t.newLoc i ≤ b ∧ b < t.newLoc i + t.inodeBlocksPerGroup
  kept : ∀ p, ¬t.Moved p → (∀ n disk, io.flushOld n disk p = disk p) →
    (∀ disk, io.flushNew disk p = disk p) → st.disk p = disk p

/-- The zero blocks at the end of the old table of a group. -/
def tailBlocks (disk : Block) (i : ℕ) : ℕ := t.zeroBlocks (fromPos disk (t.oldLoc i * t.blocksize))

/-- **The end of every table that moves down is zero already** at its new place. -/
def TailsZero (disk : Block) : Prop :=
  ∀ i < t.maxGroups, t.newLoc i < t.oldLoc i →
    ∀ p < t.bytes, t.bytes ≤ p + t.tailBlocks disk i * t.blocksize →
      disk (t.newLoc i * t.blocksize + p) = 0

end ItableMove

section TrailingZeros

variable {buf : Block} {size p : ℕ}

theorem trailingZeros_le (buf : Block) : ∀ size, trailingZeros buf size ≤ size
  | 0 => le_rfl
  | size + 1 => by
    rw [trailingZeros]
    split
    · exact Nat.zero_le _
    · exact Nat.succ_le_succ (trailingZeros_le buf size)

theorem eq_zero_of_trailingZeros (hp : p < size) (h : size ≤ p + trailingZeros buf size) :
    buf p = 0 := by
  induction size with
  | zero => exact absurd hp (Nat.not_lt_zero p)
  | succ size ih =>
    rw [trailingZeros] at h
    by_cases hz : buf size = 0
    · rw [if_neg (not_not_intro hz)] at h
      rcases Nat.lt_succ_iff_lt_or_eq.mp hp with hlt | rfl
      · exact ih hlt (by omega)
      · exact hz
    · rw [if_pos hz] at h
      omega

/-- Only the bytes of the buffer are looked at. -/
theorem trailingZeros_congr {buf' : Block} (h : ∀ p < size, buf p = buf' p) :
    trailingZeros buf size = trailingZeros buf' size := by
  induction size with
  | zero => rfl
  | succ size ih =>
    rw [trailingZeros, trailingZeros, h size (Nat.lt_succ_self size), ih fun p hp => h p (by omega)]

end TrailingZeros

namespace ItableMove

variable {t : ItableMove} {io : ItableCalls} {st st' : ItableState} {disk buf : Block}
    {oldBlk newBlk n i k p : ℕ}

/-! ### One table -/

/-- A block is a run of bytes. -/
theorem mul_blocksize_le (h : newBlk ≤ oldBlk) : newBlk * t.blocksize ≤ oldBlk * t.blocksize :=
  Nat.mul_le_mul_right _ h

theorem bytes_eq : t.bytes = t.inodeBlocksPerGroup * t.blocksize := Nat.mul_comm _ _

@[simp] theorem writeBlk_disk : (t.writeBlk newBlk n buf st).disk =
    memcpy st.disk (newBlk * t.blocksize) buf (n * t.blocksize) := rfl

@[simp] theorem writeBlk_written :
    (t.writeBlk newBlk n buf st).written = (newBlk, n) :: st.written := rfl

theorem bytes_lt : t.bytes < 2 ^ 32 := t.size_lt

theorem size_toNat : t.size.toNat = t.bytes ∨ t.size.toNat = 0 := by
  rw [size, BitVec.toInt_eq_toNat_cond, BitVec.toNat_ofNat, Nat.mod_eq_of_lt bytes_lt]
  have h := t.bytes_lt
  split
  · exact Or.inl (Int.toNat_natCast _)
  · exact Or.inr (Int.toNat_of_nonpos (by omega))

theorem zeroBlocks_mul_le (buf : Block) :
    t.zeroBlocks buf * t.blocksize ≤ trailingZeros buf t.size.toNat := by
  rw [zeroBlocks, Nat.shiftRight_eq_div_pow]
  exact Nat.div_mul_le_self _ _

theorem zeroBlocks_le (buf : Block) : t.zeroBlocks buf ≤ t.inodeBlocksPerGroup := by
  have hpos : 0 < t.blocksize := Nat.two_pow_pos _
  have h1 := t.zeroBlocks_mul_le buf
  have h2 := trailingZeros_le buf t.size.toNat
  have h3 : t.size.toNat ≤ t.inodeBlocksPerGroup * t.blocksize := by
    rw [← bytes_eq]
    rcases t.size_toNat with h | h <;> omega
  exact Nat.le_of_mul_le_mul_right (h1.trans (h2.trans h3)) hpos

/-- **The blocks that are skipped are zero.** -/
theorem eq_zero_of_zeroBlocks (b : Block) (hp : p < t.bytes)
    (h : t.bytes ≤ p + t.zeroBlocks b * t.blocksize) :
    b p = 0 := by
  have hz := t.zeroBlocks_mul_le b
  rcases t.size_toNat with hs | hs
  · rw [hs] at hz
    exact eq_zero_of_trailingZeros hp (by omega)
  · rw [hs, trailingZeros] at hz
    omega

/-- What is found at byte `p` of the new table: the old byte, and where the table moves down, at its
end, what was there before. -/
def after (t : ItableMove) (disk : Block) (oldBlk newBlk n p : ℕ) : UInt8 :=
  if newBlk < oldBlk ∧ t.bytes ≤ p + n * t.blocksize then disk (newBlk * t.blocksize + p)
  else disk (oldBlk * t.blocksize + p)

/-- **What the writes of one table leave** in it. -/
theorem writeTable_inside (hp : p < t.bytes)
    (hn : n = t.zeroBlocks (fromPos st.disk (oldBlk * t.blocksize))) :
    (t.writeTable oldBlk newBlk n (fromPos st.disk (oldBlk * t.blocksize)) st).disk
      (newBlk * t.blocksize + p) =
      t.after st.disk oldBlk newBlk n p := by
  have hle : n ≤ t.inodeBlocksPerGroup := hn ▸ zeroBlocks_le _
  have hsub : (t.inodeBlocksPerGroup - n) * t.blocksize + n * t.blocksize = t.bytes := by
    rw [← Nat.add_mul, Nat.sub_add_cancel hle, bytes_eq]
  have hzero : ∀ q < t.bytes, t.bytes ≤ q + n * t.blocksize →
      st.disk (oldBlk * t.blocksize + q) = 0 :=
    fun q hq h => eq_zero_of_zeroBlocks (fromPos st.disk (oldBlk * t.blocksize)) hq (hn ▸ h)
  rw [writeTable, after]
  by_cases hlt : newBlk - oldBlk < n
  · rw [if_pos hlt]
    by_cases hdown : newBlk < oldBlk
    -- Down: the second write has no block, and the first one stops before the end.
    · have h0 : newBlk - oldBlk = 0 := by omega
      simp only [writeBlk_disk, h0, Nat.zero_mul, memcpy_zero]
      by_cases ht : t.bytes ≤ p + n * t.blocksize
      · rw [if_pos ⟨hdown, ht⟩, memcpy_of_outside (by omega)]
      · rw [if_neg fun h => ht h.2, memcpy_add (by omega)]
        rfl
    -- Up: the blocks past the old end are cleared, the ones before it are zero since they were
    -- skipped.
    · have hd : oldBlk * t.blocksize + (newBlk - oldBlk) * t.blocksize = newBlk * t.blocksize := by
        rw [← Nat.add_mul]
        congr 1
        omega
      have hdiff : (t.inodeBlocksPerGroup - (newBlk - oldBlk)) * t.blocksize +
        (newBlk - oldBlk) * t.blocksize =
          t.bytes := by
        rw [← Nat.add_mul, Nat.sub_add_cancel (by omega), bytes_eq]
      have hdn : (newBlk - oldBlk) * t.blocksize ≤ n * t.blocksize := mul_blocksize_le hlt.le
      have hend : (oldBlk + t.inodeBlocksPerGroup) * t.blocksize =
          oldBlk * t.blocksize + t.bytes := by
        rw [Nat.add_mul, bytes_eq]
      rw [if_neg fun h => hdown h.1]
      simp only [writeBlk_disk, hend]
      by_cases h1 : t.bytes ≤ p + (newBlk - oldBlk) * t.blocksize
      · rw [memcpy_of_inside (by omega) (by omega), fromPos, fromPos]
        congr 1
        omega
      · rw [memcpy_of_outside (by omega)]
        by_cases h2 : t.bytes ≤ p + n * t.blocksize
        · rw [memcpy_of_outside (by omega), hzero p hp h2, ← hd, Nat.add_assoc]
          exact hzero _ (by omega) (by omega)
        · rw [memcpy_add (by omega)]
          rfl
  · rw [if_neg hlt]
    have ht : ¬(newBlk < oldBlk ∧ t.bytes ≤ p + n * t.blocksize) := by
      rintro ⟨hdown, h⟩
      have hn0 : n = 0 := by omega
      rw [hn0] at h
      omega
    rw [if_neg ht, writeBlk_disk, ← bytes_eq, memcpy_add hp]
    rfl

/-- The writes of one table change nothing else. -/
theorem writeTable_outside (hn : n ≤ t.inodeBlocksPerGroup) (hp : ¬t.InTable newBlk p) :
    (t.writeTable oldBlk newBlk n buf st).disk p = st.disk p := by
  have hsub : (t.inodeBlocksPerGroup - n) * t.blocksize ≤ t.bytes := by
    rw [bytes_eq]
    exact mul_blocksize_le (Nat.sub_le _ _)
  have hp' : p < newBlk * t.blocksize ∨ newBlk * t.blocksize + t.bytes ≤ p := by
    rw [InTable] at hp
    omega
  rw [writeTable]
  split
  case isTrue hlt =>
    have hend : newBlk * t.blocksize ≤ (oldBlk + t.inodeBlocksPerGroup) * t.blocksize ∨
        newBlk - oldBlk = 0 := by
      by_cases h : newBlk ≤ oldBlk
      · exact Or.inr (by omega)
      · exact Or.inl (mul_blocksize_le (by omega))
    have hend' : (oldBlk + t.inodeBlocksPerGroup) * t.blocksize + (newBlk - oldBlk) * t.blocksize ≤
        newBlk * t.blocksize + t.bytes ∨ newBlk - oldBlk = 0 := by
      by_cases h : newBlk ≤ oldBlk
      · exact Or.inr (by omega)
      · refine Or.inl ?_
        rw [← Nat.add_mul, bytes_eq, ← Nat.add_mul]
        exact mul_blocksize_le (by omega)
    simp only [writeBlk_disk]
    rcases Nat.eq_zero_or_pos (newBlk - oldBlk) with h0 | h0
    · rw [h0, Nat.zero_mul, memcpy_zero, memcpy_of_outside (by omega)]
    · rw [memcpy_of_outside (by omega), memcpy_of_outside (by omega)]
  case isFalse =>
    rw [writeBlk_disk, ← bytes_eq, memcpy_of_outside hp']

/-- The writes of one table are in its new place. -/
theorem writeTable_written (hn : n ≤ t.inodeBlocksPerGroup) {w : ℕ × ℕ}
    (hw : w ∈ (t.writeTable oldBlk newBlk n buf st).written) :
    w ∈ st.written ∨ ∀ b, w.1 ≤ b → b < w.1 + w.2 → newBlk ≤ b ∧
    b < newBlk + t.inodeBlocksPerGroup := by
  rw [writeTable] at hw
  split at hw
  · simp only [writeBlk_written, List.mem_cons] at hw
    rcases hw with rfl | rfl | hw
    · exact Or.inr fun b h1 h2 => by simp only at h1 h2; omega
    · exact Or.inr fun b h1 h2 => by simp only at h1 h2; omega
    · exact Or.inl hw
  · simp only [writeBlk_written, List.mem_cons] at hw
    rcases hw with rfl | hw
    · exact Or.inr fun b h1 h2 => ⟨h1, h2⟩
    · exact Or.inl hw

/-! ### The loop over the groups -/

theorem not_inTable_of_apart (h : t.Apart newBlk oldBlk) (hp : t.InTable oldBlk p) :
    ¬t.InTable newBlk p := by
  rw [InTable] at *
  rcases h with h | h <;>
  · have := mul_blocksize_le (t := t) h
    rw [Nat.add_mul, ← bytes_eq] at this
    omega

theorem inTable_add (hp : p < t.bytes) : t.InTable newBlk (newBlk * t.blocksize + p) :=
  ⟨Nat.le_add_right _ _, Nat.add_lt_add_left hp _⟩

/-- **After the first `n` groups**: their tables have been moved, and the later ones are
untouched. -/
structure MovedUpto (t : ItableMove) (io : ItableCalls) (disk : Block) (n : ℕ) (st : ItableState) :
    Prop where
  oldLoc : ∀ k, n ≤ k → st.oldLoc k = t.oldLoc k
  done : ∀ i < n, ∀ p < t.bytes, st.disk (t.newLoc i * t.blocksize + p) =
    t.after disk (t.oldLoc i) (t.newLoc i) (t.tailBlocks disk i) p
  later : ∀ i < t.maxGroups, n ≤ i → ∀ p, t.InTable (t.oldLoc i) p ∨ t.InTable (t.newLoc i) p →
    st.disk p = disk p
  written : ∀ w ∈ st.written, ∃ i < t.maxGroups, t.oldLoc i ≠ t.newLoc i ∧
    ∀ b, w.1 ≤ b → b < w.1 + w.2 → t.newLoc i ≤ b ∧ b < t.newLoc i + t.inodeBlocksPerGroup
  kept : ∀ p, ¬t.Moved p → (∀ n disk, io.flushOld n disk p = disk p) → st.disk p = disk p

/-- **What one round can do**: nothing, or write one table, set the location and flush. -/
theorem moveItable_cases (h : t.moveItable io i st = some st') :
    st.oldLoc i = t.newLoc i ∧ st' = st ∨
      st.oldLoc i ≠ t.newLoc i ∧
      ∃ n, n = t.zeroBlocks (fromPos st.disk (st.oldLoc i * t.blocksize)) ∧
        ∃ st₁, st₁ = t.writeTable (st.oldLoc i) (t.newLoc i) n
          (fromPos st.disk (st.oldLoc i * t.blocksize)) st ∧
          st' = { st₁ with
            oldLoc := Function.update st₁.oldLoc i (t.newLoc i),
            disk := io.flushOld i st₁.disk } := by
  rw [moveItable] at h
  by_cases hloc : st.oldLoc i = t.newLoc i
  · rw [if_pos hloc] at h
    exact Or.inl ⟨hloc, (Option.some.inj h).symm⟩
  · rw [if_neg hloc] at h
    refine Or.inr ⟨hloc, _, rfl, _, rfl, ?_⟩
    simp only [Option.ite_none_left_eq_some, Option.some.injEq] at h
    exact h.2.2.2.2.symm

@[simp] theorem writeTable_oldLoc : (t.writeTable oldBlk newBlk n buf st).oldLoc = st.oldLoc := by
  rw [writeTable]
  split <;> rfl

section Run

variable (hown : t.OwnOnly) (hflush : t.FlushKeeps io)

include hown hflush

/-- **One round moves the next table** and keeps the ones before. -/
theorem movedUpto_succ (hm : MovedUpto t io disk n st) (hn : n < t.maxGroups)
    (h : t.moveItable io n st = some st') : MovedUpto t io disk (n + 1) st' := by
  have hloc := hm.oldLoc n le_rfl
  rcases moveItable_cases h with ⟨heq, rfl⟩ | ⟨hne, z, hz, st₁, hst₁, rfl⟩
  -- The table stays where it is: both its places are the same and are untouched so far.
  · rw [hloc] at heq
    refine ⟨fun k hk => hm.oldLoc k (by omega), fun i hi p hp => ?_,
      fun i hi hk => hm.later i hi (by omega), hm.written, hm.kept⟩
    rcases Nat.lt_succ_iff_lt_or_eq.mp hi with hlt | rfl
    · exact hm.done i hlt p hp
    · rw [after, if_neg fun h => absurd h.1 (by omega), heq]
      exact hm.later i hn le_rfl _ (Or.inr (inTable_add hp))
  · rw [hloc] at hne hz hst₁
    have htail : z = t.tailBlocks disk n := by
      rw [hz, tailBlocks, zeroBlocks, zeroBlocks]
      congr 1
      refine trailingZeros_congr fun p hp => hm.later n hn le_rfl _ (Or.inl (inTable_add ?_))
      rcases t.size_toNat with h | h <;> omega
    have hzle : z ≤ t.inodeBlocksPerGroup := hz ▸ zeroBlocks_le _
    have hout : ∀ p, ¬t.InTable (t.newLoc n) p → st₁.disk p = st.disk p := fun p hp => by
      rw [hst₁]
      exact writeTable_outside hzle hp
    refine ⟨fun k hk => ?_, fun i hi p hp => ?_, fun i hi hk p hp => ?_, fun w hw => ?_,
      fun p hp hf => ?_⟩
    · have hk' : k ≠ n := by omega
      simp only [Function.update_of_ne hk', hst₁, writeTable_oldLoc]
      exact hm.oldLoc k (by omega)
    · have hi' : i < t.maxGroups := by omega
      dsimp only
      rw [hflush.old n _ i hi' _ (Or.inr (inTable_add hp))]
      rcases Nat.lt_succ_iff_lt_or_eq.mp hi with hlt | rfl
      · rw [hout _ (not_inTable_of_apart (hown n hn i hi' (by omega)).2 (inTable_add hp))]
        exact hm.done i hlt p hp
      · rw [hst₁, writeTable_inside hp hz, htail, after, after]
        rw [hm.later i hn le_rfl _ (Or.inl (inTable_add hp)),
          hm.later i hn le_rfl _ (Or.inr (inTable_add hp))]
    · have hap := hown n hn i hi (by omega)
      dsimp only
      rw [hflush.old n _ i hi _ hp, hout p]
      · exact hm.later i hi (by omega) p hp
      · rcases hp with hp | hp
        · exact not_inTable_of_apart hap.1 hp
        · exact not_inTable_of_apart hap.2 hp
    · rw [hst₁] at hw
      rcases writeTable_written hzle hw with hw | hw
      · exact hm.written w hw
      · exact ⟨n, hn, hne, hw⟩
    · dsimp only
      rw [hf, hout p fun hin => hp ⟨n, hn, hne, Or.inr hin⟩]
      exact hm.kept p hp hf

/-- The loop over the first `n` groups. -/
theorem movedUpto_moveGroups (hm : MovedUpto t io disk 0 st) :
    ∀ n ≤ t.maxGroups, ∀ st', t.moveGroups io n st = some st' → MovedUpto t io disk n st' := by
  intro n
  induction n with
  | zero =>
    rintro - st' h
    exact Option.some.inj h ▸ hm
  | succ n ih =>
    intro hn st' h
    obtain ⟨st₁, h₁, h₂⟩ := Option.bind_eq_some_iff.mp h
    exact movedUpto_succ hown hflush (ih (by omega) st₁ h₁) hn h₂

/-- **What a run of the function leaves.** -/
theorem moveItables_spec (h : t.moveItables io disk = some st) :
    (∀ i < t.maxGroups, ∀ p < t.bytes, st.disk (t.newLoc i * t.blocksize + p) =
      t.after disk (t.oldLoc i) (t.newLoc i) (t.tailBlocks disk i) p) ∧
    (∀ w ∈ st.written, ∃ i < t.maxGroups, t.oldLoc i ≠ t.newLoc i ∧
      ∀ b, w.1 ≤ b → b < w.1 + w.2 → t.newLoc i ≤ b ∧ b < t.newLoc i + t.inodeBlocksPerGroup) ∧
    ∀ p, ¬t.Moved p → (∀ n disk, io.flushOld n disk p = disk p) →
    (∀ disk, io.flushNew disk p = disk p) →
      st.disk p = disk p := by
  simp only [moveItables, Option.ite_none_left_eq_some] at h
  obtain ⟨-, h⟩ := h
  split at h
  case isTrue hall =>
    obtain rfl := Option.some.inj h
    refine ⟨fun i hi p _ => ?_, fun w hw => absurd hw List.not_mem_nil, fun _ _ _ _ => rfl⟩
    have heq := hall i hi
    rw [after, if_neg fun h => absurd h.1 (by omega), heq]
  case isFalse =>
    simp only [Option.ite_none_left_eq_some, Option.map_eq_some_iff] at h
    obtain ⟨-, st₁, h₁, rfl⟩ := h
    have hm : MovedUpto t io disk t.maxGroups st₁ := by
      refine movedUpto_moveGroups hown hflush ⟨fun _ _ => rfl,
        fun i hi => absurd hi (Nat.not_lt_zero i), fun _ _ _ _ _ => rfl, fun w hw =>
          absurd hw List.not_mem_nil, fun _ _ _ => rfl⟩ _ le_rfl _ h₁
    refine ⟨fun i hi p hp => ?_, hm.written, fun p hp hf hf' => ?_⟩
    · dsimp only
      rw [hflush.new _ i hi _ (inTable_add hp)]
      exact hm.done i hi p hp
    · dsimp only
      rw [hf']
      exact hm.kept p hp hf

end Run

/-- Where no call fails, the tables are moved. -/
theorem moveItables_succeeds (hmem : io.getMem) (hstart : io.start) (hread : ∀ i, io.read i)
    (hwrite : ∀ i, io.write i)
    (hclear : ∀ i, io.clear i) (hprogress : ∀ i, io.progress i) (disk : Block) :
    ∃ st, t.moveItables io disk = some st := by
  have hone : ∀ i st, ∃ st', t.moveItable io i st = some st' := fun i st => by
    rw [moveItable, hread, hwrite, hclear, hprogress]
    simp only [Bool.not_true, Bool.and_false, Bool.false_eq_true, if_false]
    split <;> exact ⟨_, rfl⟩
  have hrun : ∀ n st, ∃ st', t.moveGroups io n st = some st' := fun n st => by
    induction n with
    | zero => exact ⟨st, rfl⟩
    | succ n ih =>
      obtain ⟨st₁, h₁⟩ := ih
      obtain ⟨st₂, h₂⟩ := hone n st₁
      exact ⟨st₂, Option.bind_eq_some_iff.mpr ⟨st₁, h₁, h₂⟩⟩
  obtain ⟨st, h⟩ := hrun t.maxGroups { disk, oldLoc := t.oldLoc, written := [] }
  rw [moveItables, hmem, hstart]
  simp only [Bool.not_true, Bool.false_eq_true, if_false, h, Option.map_some]
  split <;> exact ⟨_, rfl⟩

end ItableMove

open ItableMove

/-- **The tables are moved if and only if the end of every table that moves down was zero already**
at its new place. -/
theorem movesTables_iff {t : ItableMove} {io : ItableCalls} {disk : Block} {st : ItableState}
    (hown : t.OwnOnly) (hflush : t.FlushKeeps io) (h : t.moveItables io disk = some st) :
    t.MovesTables io disk st ↔ t.TailsZero disk := by
  obtain ⟨hmoved, hwritten, hkept⟩ := moveItables_spec hown hflush h
  have htail : ∀ i, ∀ p < t.bytes, t.bytes ≤ p + t.tailBlocks disk i * t.blocksize →
      disk (t.oldLoc i * t.blocksize + p) = 0 := fun i p hp hle =>
    eq_zero_of_zeroBlocks (fromPos disk (t.oldLoc i * t.blocksize)) hp hle
  constructor
  · intro hright i hi hdown p hp hle
    have h1 := hmoved i hi p hp
    rw [after, if_pos ⟨hdown, hle⟩, hright.moved i hi p hp] at h1
    rw [← h1]
    exact htail i p hp hle
  · intro hzero
    refine ⟨fun i hi p hp => ?_, fun w hw => ?_, hkept⟩
    · rw [hmoved i hi p hp, after]
      split
      case isTrue hc => rw [hzero i hi hc.1 p hp hc.2, htail i p hp hc.2]
      case isFalse => rfl
    · obtain ⟨i, hi, hne, hb⟩ := hwritten w hw
      exact ⟨i, hi, hne, fun b h1 h2 => Or.inr (hb b h1 h2)⟩

/-- One table of two blocks of 1024 bytes. -/
def oneTable (oldLoc newLoc : ℕ) : ItableMove where
  blockSizeBits := 10
  inodeBlocksPerGroup := 2
  oldGroups := 1
  newGroups := 1
  oldLoc := fun _ => oldLoc
  newLoc := fun _ => newLoc
  size_lt := by decide

/-- Calls that succeed; the flushes write the first byte of the disk. -/
def allSucceed : ItableCalls where
  getMem := true
  start := true
  read := fun _ => true
  write := fun _ => true
  clear := fun _ => true
  progress := fun _ => true
  flushOld := fun _ disk => Function.update disk 0 1
  flushNew := fun disk => Function.update disk 0 1

/-- A disk with a nonzero byte in each of the blocks 5 and 6, and no other. -/
def dirtyDisk : Block := fun p => if p = 5 * 1024 ∨ p = 6 * 1024 then 1 else 0

section OneTable

variable {oldLoc newLoc : ℕ}

theorem oneTable_ownOnly : (oneTable oldLoc newLoc).OwnOnly := fun i hi k hk hne => by
  have hi' : i < 1 := hi
  have hk' : k < 1 := hk
  omega

theorem oneTable_flushKeeps (ho : 0 < oldLoc) (hn : 0 < newLoc) :
    (oneTable oldLoc newLoc).FlushKeeps allSucceed := by
  have hne : ∀ p, (oneTable oldLoc newLoc).InTable oldLoc p ∨
      (oneTable oldLoc newLoc).InTable newLoc p → p ≠ 0 := by
    rintro p (⟨h, -⟩ | ⟨h, -⟩) rfl
    · have : 0 < oldLoc * (oneTable oldLoc newLoc).blocksize := Nat.mul_pos ho (Nat.two_pow_pos 10)
      omega
    · have : 0 < newLoc * (oneTable oldLoc newLoc).blocksize := Nat.mul_pos hn (Nat.two_pow_pos 10)
      omega
  exact ⟨fun _ _ _ _ p hp => Function.update_of_ne (hne p hp) _ _,
    fun _ _ _ p hp => Function.update_of_ne (hne p (Or.inr hp)) _ _⟩

theorem oneTable_succeeds (disk : Block) :
    ∃ st, (oneTable oldLoc newLoc).moveItables allSucceed disk = some st :=
  moveItables_succeeds rfl rfl (fun _ => rfl) (fun _ => rfl) (fun _ => rfl) (fun _ => rfl) disk

end OneTable

/-- A table that moves up by one block, into a block that is not zero. -/
theorem movesTables_up : ∃ st, (oneTable 4 5).moveItables allSucceed dirtyDisk = some st ∧
    ((oneTable 4 5).MovesTables allSucceed dirtyDisk st ↔ (oneTable 4 5).TailsZero dirtyDisk) := by
  have ⟨st, h⟩ : ∃ st, (oneTable 4 5).moveItables allSucceed dirtyDisk = some st :=
    oneTable_succeeds dirtyDisk
  exact ⟨st, h, movesTables_iff oneTable_ownOnly (oneTable_flushKeeps (by decide) (by decide)) h⟩

theorem trailingZeros_zero {buf : Block} {size : ℕ} (h : ∀ p < size, buf p = 0) :
    trailingZeros buf size = size := by
  induction size with
  | zero => rfl
  | succ size ih =>
    rw [trailingZeros, if_neg (not_not_intro (h size (Nat.lt_succ_self size))),
      ih fun p hp => h p (by omega)]

/-- **A table of zeros that moves down** is not written at all, and what was at its new place is
read as the table from then on. -/
theorem not_movesTables_down : (oneTable 10 5).OwnOnly ∧ (oneTable 10 5).FlushKeeps allSucceed ∧
    ∃ st, (oneTable 10 5).moveItables allSucceed dirtyDisk = some st ∧
      ¬(oneTable 10 5).MovesTables allSucceed dirtyDisk st := by
  have hown : (oneTable 10 5).OwnOnly := oneTable_ownOnly
  have hflush : (oneTable 10 5).FlushKeeps allSucceed := oneTable_flushKeeps (by decide) (by decide)
  have ⟨st, h⟩ : ∃ st, (oneTable 10 5).moveItables allSucceed dirtyDisk = some st :=
    oneTable_succeeds dirtyDisk
  refine ⟨hown, hflush, st, h, fun hright => ?_⟩
  have hspec := (moveItables_spec hown hflush h).1 0 (by decide) 0 (by decide)
  have htail : (oneTable 10 5).tailBlocks dirtyDisk 0 = 2 := by
    have hsize : (oneTable 10 5).size.toNat = 2048 := by decide
    rw [ItableMove.tailBlocks, ItableMove.zeroBlocks, hsize, trailingZeros_zero]
    · rfl
    · intro p hp
      rw [fromPos, dirtyDisk, if_neg]
      have : (oneTable 10 5).oldLoc 0 * (oneTable 10 5).blocksize = 10240 := rfl
      omega
  rw [htail, hright.moved 0 (by decide) 0 (by decide)] at hspec
  exact absurd hspec (by decide)

end E2fsprogs
