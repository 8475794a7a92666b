import E2fsprogs.Quota.Tree

/-!
# Blocks and entries of a quota file

What a block has after another one has been written, or an entry. As long as blocks are below
2^22, each has its own place in the file; the header and the entries of a data block are apart,
and so are any two of its entries.
-/

namespace E2fsprogs

namespace Quota

variable {h : QuotaHandle} {buf buf' : Buf} {fmt : Fmt} {file : Words} {disk : List ℕ}
variable {blk c i j k n s s' : ℕ}

theorem Buf.word_of_lt (hk : k < 256) : buf.word k = buf ⟨k, hk⟩ := dif_pos hk

/-! ### Whole blocks -/

theorem readBlk_apply (hblk : blk < 2 ^ 22) (i : Fin 256) :
    Quota.readBlk file blk i = file (blk * 256 + i) := by
  rw [Quota.readBlk, blkOff_of_lt hblk, show blk * 1024 / 4 = blk * 256 by omega]

/-- A block that is written is what is read; the others are as before. -/
theorem readBlk_writeBlk (hblk : blk < 2 ^ 22) (hc : c < 2 ^ 22) :
    Quota.readBlk (Quota.writeBlk file blk buf) c =
      if c = blk then buf else Quota.readBlk file c := by
  funext i
  have hi := i.isLt
  rw [readBlk_apply hc, Quota.writeBlk, blkOff_of_lt hblk,
    show blk * 1024 / 4 = blk * 256 by omega]
  split
  · next hin =>
    obtain rfl : c = blk := by omega
    rw [if_pos rfl, Buf.word_of_lt (by omega)]
    congr 1
    exact Fin.ext (by simp)
  · next hout =>
    rw [if_neg (by omega), readBlk_apply hc]

@[simp] theorem readBlk_write (hblk : blk < 2 ^ 22) (hc : c < 2 ^ 22) :
    (h.writeBlk blk buf).readBlk c = if c = blk then buf else h.readBlk c :=
  readBlk_writeBlk hblk hc

@[simp] theorem writeBlk_fmt : (h.writeBlk blk buf).fmt = h.fmt := rfl

@[simp] theorem writeBlk_dqiBlocks : (h.writeBlk blk buf).dqiBlocks = h.dqiBlocks := rfl

@[simp] theorem writeBlk_dqiFreeBlk : (h.writeBlk blk buf).dqiFreeBlk = h.dqiFreeBlk := rfl

@[simp] theorem writeBlk_dqiFreeEntry : (h.writeBlk blk buf).dqiFreeEntry = h.dqiFreeEntry := rfl

/-! ### The header -/

@[simp] theorem nextFree_setNextFree : (buf.setNextFree n).nextFree = n := by
  rw [Buf.nextFree, Buf.setNextFree, Function.update_self]

@[simp] theorem prevFree_setNextFree : (buf.setNextFree n).prevFree = buf.prevFree := by
  rw [Buf.prevFree, Buf.setNextFree, Function.update_of_ne (by decide), Buf.prevFree]

@[simp] theorem entries_setNextFree : (buf.setNextFree n).entries = buf.entries := by
  rw [Buf.entries, Buf.setNextFree, Function.update_of_ne (by decide), Buf.entries]

@[simp] theorem nextFree_setPrevFree : (buf.setPrevFree n).nextFree = buf.nextFree := by
  rw [Buf.nextFree, Buf.setPrevFree, Function.update_of_ne (by decide), Buf.nextFree]

@[simp] theorem prevFree_setPrevFree : (buf.setPrevFree n).prevFree = n := by
  rw [Buf.prevFree, Buf.setPrevFree, Function.update_self]

@[simp] theorem entries_setPrevFree : (buf.setPrevFree n).entries = buf.entries := by
  rw [Buf.entries, Buf.setPrevFree, Function.update_of_ne (by decide), Buf.entries]

@[simp] theorem nextFree_setEntries : (buf.setEntries n).nextFree = buf.nextFree := by
  rw [Buf.nextFree, Buf.setEntries, Function.update_of_ne (by decide), Buf.nextFree]

@[simp] theorem prevFree_setEntries : (buf.setEntries n).prevFree = buf.prevFree := by
  rw [Buf.prevFree, Buf.setEntries, Function.update_of_ne (by decide), Buf.prevFree]

@[simp] theorem entries_setEntries : (buf.setEntries n).entries = n % 2 ^ 16 := by
  rw [Buf.entries, Buf.setEntries, Function.update_self]
  omega

/-- The two blocks have the same entries: they differ in their headers only. -/
def SameEntries (buf buf' : Buf) : Prop := ∀ k, 4 ≤ k → buf'.word k = buf.word k

theorem SameEntries.entry (heq : SameEntries buf buf') : buf'.entry fmt s = buf.entry fmt s :=
  List.map_congr_left fun j _ => heq _ (by omega)

theorem sameEntries_update {i : Fin 256} (hi : (i : ℕ) < 4) :
    SameEntries buf (Function.update buf i n) := by
  intro k hk
  by_cases hlt : k < 256
  · rw [Buf.word_of_lt hlt, Buf.word_of_lt hlt, Function.update_of_ne]
    rintro rfl
    dsimp only at hi
    omega
  · rw [Buf.word, Buf.word, dif_neg hlt, dif_neg hlt]

theorem SameEntries.trans {buf'' : Buf} (h₁ : SameEntries buf buf') (h₂ : SameEntries buf' buf'') :
    SameEntries buf buf'' := fun k hk => (h₂ k hk).trans (h₁ k hk)

theorem SameEntries.refl : SameEntries buf buf := fun _ _ => rfl

theorem sameEntries_setNextFree : SameEntries buf (buf.setNextFree n) :=
  sameEntries_update (by decide)

theorem sameEntries_setPrevFree : SameEntries buf (buf.setPrevFree n) :=
  sameEntries_update (by decide)

theorem sameEntries_setEntries : SameEntries buf (buf.setEntries n) :=
  sameEntries_update (by decide)

/-! ### The entries -/

theorem entrySize_eq : fmt.entrySize = 4 * fmt.entryWords := by cases fmt <;> rfl

theorem entryWords_pos : 0 < fmt.entryWords := by cases fmt <;> decide

theorem two_le_dqstrInBlk : 2 ≤ fmt.dqstrInBlk := by cases fmt <;> decide

theorem dqstrInBlk_lt : fmt.dqstrInBlk < 2 ^ 15 := by cases fmt <;> decide

/-- The words of an entry are in the block. -/
theorem entry_word_lt (hs : s < fmt.dqstrInBlk) (hj : j < fmt.entryWords) :
    4 + s * fmt.entryWords + j < 256 := by
  cases fmt <;>
    simp only [Fmt.dqstrInBlk, Fmt.entryWords, Fmt.entrySize, qtBlksize] at hs hj ⊢ <;> omega

/-- The entries of a block are apart. -/
theorem entry_word_inj (hi : i < fmt.entryWords) (hj : j < fmt.entryWords)
    (heq : 4 + s * fmt.entryWords + i = 4 + s' * fmt.entryWords + j) : s = s' := by
  cases fmt <;>
    simp only [Fmt.entryWords, Fmt.entrySize] at hi hj heq <;> omega

@[simp] theorem length_entry : (buf.entry fmt s).length = fmt.entryWords := by
  rw [Buf.entry, List.length_map, List.length_range]

/-- An entry is unused where all of its words are zero. -/
theorem entryUnused_iff : entryUnused disk = true ↔ ∀ w ∈ disk, w = 0 := by
  simp [entryUnused]

theorem entryUnused_entry_iff :
    entryUnused (buf.entry fmt s) = true ↔
      ∀ j < fmt.entryWords, buf.word (4 + s * fmt.entryWords + j) = 0 := by
  rw [entryUnused_iff, Buf.entry]
  simp

/-- A block with other words at an entry. -/
def Buf.putEntry (buf : Buf) (k : ℕ) (disk : List ℕ) : Buf := fun i =>
  if k ≤ i ∧ i < k + disk.length then disk.getD (i - k) 0 else buf i

theorem entry_putEntry_self (hs : s < fmt.dqstrInBlk) (hlen : disk.length = fmt.entryWords) :
    (buf.putEntry (4 + s * fmt.entryWords) disk).entry fmt s = disk := by
  refine List.ext_getElem (by simp [hlen]) fun j hj hj' => ?_
  have hlt := @entry_word_lt fmt j s hs (by omega)
  simp only [Buf.entry, List.getElem_map, List.getElem_range]
  rw [Buf.word_of_lt hlt, Buf.putEntry, if_pos ⟨by simp, by simpa using hj'⟩]
  simp [hj']

theorem entry_putEntry_of_ne (hne : s' ≠ s) (hlen : disk.length = fmt.entryWords) :
    (buf.putEntry (4 + s * fmt.entryWords) disk).entry fmt s' = buf.entry fmt s' := by
  refine List.map_congr_left fun j hj => ?_
  rw [List.mem_range] at hj
  by_cases hlt : 4 + s' * fmt.entryWords + j < 256
  · rw [Buf.word_of_lt hlt, Buf.word_of_lt hlt, Buf.putEntry, if_neg]
    rintro ⟨hge, hle⟩
    refine hne (@entry_word_inj fmt j (4 + s' * fmt.entryWords + j - (4 + s * fmt.entryWords))
      s' s hj ?_ ?_)
    · dsimp only at hle
      omega
    · dsimp only at hge
      omega
  · rw [Buf.word, Buf.word, dif_neg hlt, dif_neg hlt]

/-- Clearing an entry is putting zeroes there. -/
theorem clear_eq_putEntry : buf.clear k n = buf.putEntry k (List.replicate n 0) := by
  funext i
  rw [Buf.clear, Buf.putEntry, List.length_replicate]
  split
  · next hin => rw [List.getD_replicate _ (by omega)]
  · rfl

/-- The offset of an entry in the first blocks. -/
def entryOff (fmt : Fmt) (blk s : ℕ) : ℕ := blk * 1024 + 16 + s * fmt.entrySize

theorem entryOff_div : entryOff fmt blk s / 4 = blk * 256 + (4 + s * fmt.entryWords) := by
  rw [entryOff, entrySize_eq, show blk * 1024 + 16 + s * (4 * fmt.entryWords) =
    4 * (blk * 256 + (4 + s * fmt.entryWords)) by ring, Nat.mul_div_cancel_left _ (by norm_num)]

theorem entryOff_mod (hs : s < fmt.dqstrInBlk) :
    entryOff fmt blk s % qtBlksize / 4 = 4 + s * fmt.entryWords := by
  have hlt := @mul_entrySize_lt fmt s hs
  have hmod : entryOff fmt blk s % 1024 = 16 + s * fmt.entrySize := by
    rw [entryOff]
    omega
  rw [hmod, entrySize_eq, show 16 + s * (4 * fmt.entryWords) = 4 * (4 + s * fmt.entryWords) by ring,
    Nat.mul_div_cancel_left _ (by norm_num)]

theorem blockDqentryOff_eq (hblk : blk < 2 ^ 21) (hs : s < fmt.dqstrInBlk) :
    blockDqentryOff fmt blk s = entryOff fmt blk s := by
  have hlt := @mul_entrySize_lt fmt s hs
  rw [blockDqentryOff, blkOff_of_lt (by omega), Nat.mod_eq_of_lt (by omega),
    Nat.mod_eq_of_lt (by omega), entryOff]

theorem freeDqentryOff_eq (hblk : blk < 2 ^ 21) (hs : s < fmt.dqstrInBlk) :
    freeDqentryOff fmt blk s = entryOff fmt blk s := by
  have hlt := @mul_entrySize_lt fmt s hs
  rw [freeDqentryOff, blkOff_of_lt (by omega), signExtend, if_pos (by omega),
    Nat.mod_eq_of_lt (by omega), Nat.mod_eq_of_lt (by omega), entryOff]

/-- Reading at the offset of an entry. -/
theorem readEntry_entryOff (hblk : blk < 2 ^ 22) (hs : s < fmt.dqstrInBlk) :
    readEntry file fmt (entryOff fmt blk s) = (Quota.readBlk file blk).entry fmt s := by
  refine List.map_congr_left fun j hj => ?_
  rw [List.mem_range] at hj
  rw [Buf.word_of_lt (entry_word_lt hs hj), readBlk_apply hblk, entryOff_div]
  simp only [Nat.add_assoc]

/-- Writing at the offset of an entry puts it into its block. -/
theorem readBlk_writeEntry (hblk : blk < 2 ^ 22) (hc : c < 2 ^ 22) (hs : s < fmt.dqstrInBlk)
    (hlen : disk.length = fmt.entryWords) :
    Quota.readBlk (writeEntry file (entryOff fmt blk s) disk) c =
      if c = blk then (Quota.readBlk file blk).putEntry (4 + s * fmt.entryWords) disk
      else Quota.readBlk file c := by
  have hlast := @entry_word_lt fmt (fmt.entryWords - 1) s hs (Nat.sub_lt entryWords_pos one_pos)
  have hpos := @entryWords_pos fmt
  funext i
  have hi := i.isLt
  rw [readBlk_apply hc, writeEntry, entryOff_div, hlen]
  split
  · next hin =>
    obtain rfl : c = blk := by omega
    rw [if_pos rfl, Buf.putEntry, if_pos (by omega)]
    congr 1
    omega
  · next hout =>
    split
    · next heq =>
      subst heq
      rw [Buf.putEntry, if_neg (by omega), readBlk_apply hc]
    · rw [readBlk_apply hc]

end Quota

end E2fsprogs
