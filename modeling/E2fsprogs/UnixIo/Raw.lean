import E2fsprogs.UnixIo.Channel

/-!
# Raw transfers and searches of the cache

What the layers under the cache logic do: a raw transfer that succeeds moves its bytes, whether
directly or through the bounce buffer chunk by chunk, and `find_cached_block` finds the entry of
a block if there is one. Which entry it offers for reuse does not matter to what the cache holds.
-/

namespace E2fsprogs

/-! ### The bounce buffer -/

section Bounce

variable {dev : Block} {alignSize : ℕ}

theorem bounceRead_eq (fuel : ℕ) : ∀ {alignedBlk offset size pos : ℕ} {buf : Block},
    offset < alignSize → size ≤ fuel →
    bounceRead dev alignSize fuel alignedBlk offset size pos buf =
      memcpy buf pos (fromPos dev (alignedBlk * alignSize + offset)) size := by
  induction fuel with
  | zero =>
    intro alignedBlk offset size pos buf _ hsize
    obtain rfl : size = 0 := by omega
    rw [bounceRead, memcpy_zero]
  | succ fuel ih =>
    intro alignedBlk offset size pos buf hoff hsize
    rw [bounceRead]
    by_cases h0 : size = 0
    · rw [if_pos h0, h0, memcpy_zero]
    · rw [if_neg h0]
      have hmin : 0 < min (alignSize - offset) size := by omega
      rw [ih (by omega) (by omega)]
      by_cases hlast : size ≤ alignSize - offset
      · rw [Nat.min_eq_right hlast, Nat.sub_self, memcpy_zero]
      · -- the next chunk begins where this one ends
        have hnext : (alignedBlk + 1) * alignSize + 0 =
            alignedBlk * alignSize + offset + (alignSize - offset) := by
          rw [Nat.succ_mul]
          omega
        rw [Nat.min_eq_left (by omega), hnext,
          ← @fromPos_fromPos dev (alignedBlk * alignSize + offset) (alignSize - offset),
          memcpy_append, Nat.add_sub_cancel' (by omega)]

/-- One chunk written back is the bytes of the caller written where they belong. -/
theorem memcpy_chunk {bounce buf : Block} {start offset size : ℕ} (hoff : offset < alignSize)
    (hold : size < alignSize ∨ offset ≠ 0 → ∀ k < alignSize, bounce k = dev (start + k)) :
    memcpy dev start (memcpy bounce offset buf (min (alignSize - offset) size)) alignSize =
      memcpy dev (start + offset) buf (min (alignSize - offset) size) := by
  funext p
  by_cases hin : start ≤ p ∧ p < start + alignSize
  · rw [memcpy_of_inside hin.1 hin.2]
    by_cases hnew : offset ≤ p - start ∧ p - start < offset + min (alignSize - offset) size
    · rw [memcpy_of_inside hnew.1 hnew.2, memcpy_of_inside (by omega) (by omega), Nat.sub_sub]
    · rw [memcpy_of_outside (by omega), memcpy_of_outside (by omega), hold (by omega) _ (by omega),
        Nat.add_sub_cancel' hin.1]
  · rw [memcpy_of_outside (by omega), memcpy_of_outside (by omega)]

theorem bounceWrite_eq (fuel : ℕ) : ∀ {alignedBlk offset size : ℕ} {buf bounce dev : Block},
    offset < alignSize → size ≤ fuel →
    (bounceWrite alignSize fuel alignedBlk offset size buf bounce dev).2 =
      memcpy dev (alignedBlk * alignSize + offset) buf size := by
  induction fuel with
  | zero =>
    intro alignedBlk offset size buf bounce dev _ hsize
    obtain rfl : size = 0 := by omega
    rw [bounceWrite, memcpy_zero]
  | succ fuel ih =>
    intro alignedBlk offset size buf bounce dev hoff hsize
    rw [bounceWrite]
    by_cases h0 : size = 0
    · rw [if_pos h0, h0, memcpy_zero]
    · rw [if_neg h0]
      have hmin : 0 < min (alignSize - offset) size := by omega
      rw [ih (by omega) (by omega), memcpy_chunk hoff]
      · by_cases hlast : size ≤ alignSize - offset
        · rw [Nat.min_eq_right hlast, Nat.sub_self, memcpy_zero]
        · have hnext : (alignedBlk + 1) * alignSize + 0 =
              alignedBlk * alignSize + offset + (alignSize - offset) := by
            rw [Nat.succ_mul]
            omega
          rw [Nat.min_eq_left (by omega), hnext, memcpy_append, Nat.add_sub_cancel' (by omega)]
      · intro hpart k hk
        rw [if_pos hpart]
        have := @memcpy_add bounce (fromPos dev (alignedBlk * alignSize)) 0 alignSize k hk
        rwa [Nat.zero_add] at this

end Bounce

/-! ### Raw transfers -/

/-- Nothing the cache logic looks at has changed. -/
structure SameCache (ch ch' : UnixChannel) : Prop where
  blockSize : ch'.blockSize = ch.blockSize
  offset : ch'.offset = ch.offset
  noCache : ch'.noCache = ch.noCache
  writeErrors : ch'.writeErrors = ch.writeErrors
  cache : ch'.cache = ch.cache

theorem SameCache.location {ch ch' : UnixChannel} (h : SameCache ch ch') (block : ℕ) :
    ch'.location block = ch.location block := by
  rw [UnixChannel.location, UnixChannel.location, h.blockSize, h.offset]

section Raw

variable {env : UnixEnv} {ch ch' : UnixChannel}

theorem alignSize_pos (ch : UnixChannel) : 0 < ch.alignSize := by
  have h : 0 < ch.bounceAlign := by
    rw [UnixChannel.bounceAlign]
    split_ifs <;> omega
  rw [UnixChannel.alignSize]
  split_ifs with hb
  · omega
  · exact h

theorem div_alignSize (ch : UnixChannel) (p : ℕ) :
    p / ch.alignSize * ch.alignSize + p % ch.alignSize = p := by
  rw [Nat.mul_comm]
  exact Nat.div_add_mod p ch.alignSize

/-- **A raw read that succeeds** brings the bytes of the device. -/
theorem rawReadBlk_some {block pos : ℕ} {count : ℤ} {buf buf' : Block}
    (h : rawReadBlk env ch block count buf pos = (some buf', ch')) :
    SameCache ch ch' ∧ ch'.dev = ch.dev ∧
      buf' = memcpy buf pos (fromPos ch.dev (ch.location block))
        (transferSize ch.blockSize count) := by
  simp only [rawReadBlk] at h
  split_ifs at h with hfail hdirect
  · cases h
  · cases h
    exact ⟨⟨rfl, rfl, rfl, rfl, rfl⟩, rfl, rfl⟩
  · cases h
    refine ⟨⟨rfl, rfl, rfl, rfl, rfl⟩, rfl, ?_⟩
    rw [bounceRead_eq _ (Nat.mod_lt _ (alignSize_pos ch)) le_rfl, div_alignSize]

/-- **A raw write that succeeds** brings the bytes of the buffer to the device. -/
theorem rawWriteBlk_true {site : WriteSite} {block : ℕ} {count : ℤ} {buf : Block}
    (h : rawWriteBlk env site ch block count buf = (true, ch')) :
    SameCache ch ch' ∧
      ch'.dev = memcpy ch.dev (ch.location block) buf (transferSize ch.blockSize count) := by
  simp only [rawWriteBlk] at h
  split_ifs at h with hfail hdirect
  · cases h
  · cases h
    exact ⟨⟨rfl, rfl, rfl, rfl, rfl⟩, rfl⟩
  · cases h
    refine ⟨⟨rfl, rfl, rfl, rfl, rfl⟩, ?_⟩
    rw [bounceWrite_eq _ (Nat.mod_lt _ (alignSize_pos ch)) le_rfl, div_alignSize]

/-- A write fails when the environment says so. -/
theorem rawWriteBlk_fst {site : WriteSite} {block : ℕ} {count : ℤ} {buf : Block} :
    (rawWriteBlk env site ch block count buf).1 = !env.writeFails site ch.transfers := by
  simp only [rawWriteBlk]
  split_ifs with hfail hdirect <;> simp [hfail]

@[simp] theorem transferSize_one (blockSize : ℕ) : transferSize blockSize 1 = blockSize :=
  Nat.one_mul blockSize

theorem transferSize_natCast (blockSize n : ℕ) : transferSize blockSize n = n * blockSize := by
  rw [transferSize, if_neg (Int.not_lt.mpr (Int.natCast_nonneg n)), Int.toNat_natCast]

end Raw

/-! ### Searching the cache -/

section Find

variable {cache : Fin cacheSize → UnixCache} {block : ℕ}

theorem findEntry_inl {i : Fin cacheSize} (is : List (Fin cacheSize)) :
    ∀ {unused oldest : Option (Fin cacheSize)}, findEntry cache block is unused oldest = .inl i →
      (cache i).inUse = true ∧ (cache i).block = block := by
  induction is with
  | nil =>
    intro unused oldest h
    cases h
  | cons j is ih =>
    intro unused oldest h
    simp only [findEntry] at h
    split_ifs at h with huse hblock
    · exact ih h
    · cases h
      exact ⟨by simpa using huse, hblock⟩
    · exact ih h

theorem findEntry_inr {v : Fin cacheSize} (is : List (Fin cacheSize)) :
    ∀ {unused oldest : Option (Fin cacheSize)}, findEntry cache block is unused oldest = .inr v →
      ∀ i ∈ is, (cache i).inUse = true → (cache i).block ≠ block := by
  induction is with
  | nil => exact fun _ i hi => absurd hi List.not_mem_nil
  | cons j is ih =>
    intro unused oldest h i hi huse'
    simp only [findEntry] at h
    split_ifs at h with huse hblock
    · rcases List.mem_cons.mp hi with rfl | hi
      · rw [huse'] at huse
        cases huse
      · exact ih h i hi huse'
    · rcases List.mem_cons.mp hi with rfl | hi
      · exact hblock
      · exact ih h i hi huse'

end Find

/-- Nothing but access times has changed. -/
structure SameBlocks (ch ch' : UnixChannel) : Prop where
  blockSize : ch'.blockSize = ch.blockSize
  offset : ch'.offset = ch.offset
  noCache : ch'.noCache = ch.noCache
  writeErrors : ch'.writeErrors = ch.writeErrors
  dev : ch'.dev = ch.dev
  buf : ∀ i, (ch'.cache i).buf = (ch.cache i).buf
  block : ∀ i, (ch'.cache i).block = (ch.cache i).block
  dirty : ∀ i, (ch'.cache i).dirty = (ch.cache i).dirty
  inUse : ∀ i, (ch'.cache i).inUse = (ch.cache i).inUse

theorem SameBlocks.refl (ch : UnixChannel) : SameBlocks ch ch :=
  ⟨rfl, rfl, rfl, rfl, rfl, fun _ => rfl, fun _ => rfl, fun _ => rfl, fun _ => rfl⟩

theorem SameBlocks.location {ch ch' : UnixChannel} (h : SameBlocks ch ch') (block : ℕ) :
    ch'.location block = ch.location block := by
  rw [UnixChannel.location, UnixChannel.location, h.blockSize, h.offset]

theorem sameBlocks_touch (ch : UnixChannel) (i : Fin cacheSize) : SameBlocks ch (ch.touch i) := by
  have h : ∀ j, (ch.touch i).cache j = ch.cache j ∨
      (ch.touch i).cache j = { ch.cache j with accessTime := ch.accessTime + 1 } := by
    intro j
    by_cases hj : j = i
    · subst hj
      exact Or.inr (Function.update_self ..)
    · exact Or.inl (Function.update_of_ne hj ..)
  refine ⟨rfl, rfl, rfl, rfl, rfl, fun j => ?_, fun j => ?_, fun j => ?_, fun j => ?_⟩ <;>
    rcases h j with h | h <;> rw [h]

section FindCached

variable {ch ch' : UnixChannel} {block : ℕ}

/-- **A block that is found** is in an entry in use. -/
theorem findCachedBlock_inl {i : Fin cacheSize} (h : findCachedBlock ch block = (.inl i, ch')) :
    SameBlocks ch ch' ∧ (ch.cache i).inUse = true ∧ (ch.cache i).block = block := by
  rw [findCachedBlock] at h
  split at h
  next j hj =>
    cases h
    exact ⟨sameBlocks_touch ch i, findEntry_inl _ hj⟩
  next j hj => cases h

/-- **A block that is not found** is in no entry in use. -/
theorem findCachedBlock_inr {i : Fin cacheSize} (h : findCachedBlock ch block = (.inr i, ch')) :
    ch' = ch ∧ ∀ j, (ch.cache j).inUse = true → (ch.cache j).block ≠ block := by
  rw [findCachedBlock] at h
  split at h
  next j hj => cases h
  next j hj =>
    cases h
    exact ⟨rfl, fun j => findEntry_inr _ hj j (List.mem_finRange j)⟩

end FindCached

end E2fsprogs
