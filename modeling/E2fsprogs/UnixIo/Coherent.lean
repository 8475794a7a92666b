import E2fsprogs.UnixIo.Raw

/-!
# What the cache holds

A channel stands for an array of bytes: an entry in use holds the bytes of its block, and the
device holds the others, unless a dirty entry is to overwrite them
(`E2fsprogs.CoherentFrom`). While a write-through write fills the cache, the device is ahead of
the entries of the blocks that are still to be filled, so the relation leaves out the entries of
a range of blocks.
-/

namespace E2fsprogs

/-- The byte of the device is one of the block of the entry. -/
def UnixChannel.Covers (ch : UnixChannel) (i : Fin cacheSize) (p : ℕ) : Prop :=
  ch.location (ch.cache i).block ≤ p ∧ p < ch.location (ch.cache i).block + ch.blockSize

/-- The channel stands for the array `A`, where entries of the blocks from `lo` to `hi` do not
count. -/
structure CoherentFrom (lo hi : ℕ) (ch : UnixChannel) (A : Block) : Prop where
  distinct : ∀ i j, (ch.cache i).inUse = true → (ch.cache j).inUse = true →
    (ch.cache i).block = (ch.cache j).block → i = j
  cached : ∀ i, (ch.cache i).inUse = true → ¬(lo ≤ (ch.cache i).block ∧ (ch.cache i).block < hi) →
    ∀ k < ch.blockSize, (ch.cache i).buf k = A (ch.location (ch.cache i).block + k)
  device : ∀ p, (∀ i, (ch.cache i).inUse = true → (ch.cache i).dirty = true →
    ¬(lo ≤ (ch.cache i).block ∧ (ch.cache i).block < hi) → ¬ch.Covers i p) → ch.dev p = A p

/-- The block size, the offset and the mode of the channel are as they were. -/
structure SameShape (ch ch' : UnixChannel) : Prop where
  blockSize : ch'.blockSize = ch.blockSize
  offset : ch'.offset = ch.offset
  noCache : ch'.noCache = ch.noCache
  writeErrors : ch'.writeErrors = ch.writeErrors

theorem SameShape.refl (ch : UnixChannel) : SameShape ch ch := ⟨rfl, rfl, rfl, rfl⟩

theorem SameShape.trans {ch₁ ch₂ ch₃ : UnixChannel} (h : SameShape ch₁ ch₂)
    (h' : SameShape ch₂ ch₃) :
    SameShape ch₁ ch₃ :=
  ⟨h'.blockSize.trans h.blockSize, h'.offset.trans h.offset, h'.noCache.trans h.noCache,
    h'.writeErrors.trans h.writeErrors⟩

theorem SameShape.location {ch ch' : UnixChannel} (h : SameShape ch ch') (block : ℕ) :
    ch'.location block = ch.location block := by
  rw [UnixChannel.location, UnixChannel.location, h.blockSize, h.offset]

theorem SameBlocks.shape {ch ch' : UnixChannel} (h : SameBlocks ch ch') : SameShape ch ch' :=
  ⟨h.blockSize, h.offset, h.noCache, h.writeErrors⟩

theorem SameCache.shape {ch ch' : UnixChannel} (h : SameCache ch ch') : SameShape ch ch' :=
  ⟨h.blockSize, h.offset, h.noCache, h.writeErrors⟩

/-- Different blocks do not overlap. -/
theorem location_disjoint (ch : UnixChannel) {b c : ℕ} (h : b ≠ c) :
    ch.location b + ch.blockSize ≤ ch.location c ∨
    ch.location c + ch.blockSize ≤ ch.location b := by
  rw [UnixChannel.location, UnixChannel.location]
  rcases Nat.lt_or_gt_of_ne h with h | h
  · have := Nat.mul_le_mul_right ch.blockSize h
    rw [Nat.succ_mul] at this
    exact Or.inl (by omega)
  · have := Nat.mul_le_mul_right ch.blockSize h
    rw [Nat.succ_mul] at this
    exact Or.inr (by omega)

theorem location_add (ch : UnixChannel) (b n : ℕ) :
    ch.location (b + n) = ch.location b + n * ch.blockSize := by
  rw [UnixChannel.location, UnixChannel.location, Nat.add_mul]
  omega

section Entries

variable {ch ch' : UnixChannel} {A : Block} {lo hi : ℕ}

theorem CoherentFrom.congr (h : CoherentFrom lo hi ch A) (hs : SameBlocks ch ch') :
    CoherentFrom lo hi ch' A := by
  refine ⟨fun i j => ?_, fun i => ?_, fun p => ?_⟩
  · rw [hs.inUse, hs.inUse, hs.block, hs.block]
    exact h.distinct i j
  · rw [hs.inUse, hs.block, hs.buf, hs.blockSize, hs.location]
    exact h.cached i
  · rw [hs.dev]
    intro hp
    refine h.device p fun i => ?_
    have := hp i
    rwa [hs.inUse, hs.dirty, hs.block, UnixChannel.Covers, hs.block, hs.location, hs.blockSize]
      at this

/-- An entry that no longer holds its block. -/
def UnixChannel.drop (ch : UnixChannel) (i : Fin cacheSize) : UnixChannel :=
  ch.setEntry i { ch.cache i with inUse := false }

@[simp] theorem setEntry_self (ch : UnixChannel) (i : Fin cacheSize) (e : UnixCache) :
    (ch.setEntry i e).cache i = e := Function.update_self ..

theorem setEntry_of_ne (ch : UnixChannel) {i j : Fin cacheSize} (e : UnixCache) (h : j ≠ i) :
    (ch.setEntry i e).cache j = ch.cache j := Function.update_of_ne h ..

theorem setEntry_setEntry (ch : UnixChannel) (i : Fin cacheSize) (e e' : UnixCache) :
    (ch.setEntry i e).setEntry i e' = ch.setEntry i e' := by
  rw [UnixChannel.setEntry, UnixChannel.setEntry, UnixChannel.setEntry]
  simp only [Function.update_idem]

theorem covers_setEntry_of_ne {i j : Fin cacheSize} (e : UnixCache) (h : j ≠ i) (p : ℕ) :
    (ch.setEntry i e).Covers j p ↔ ch.Covers j p := by
  rw [UnixChannel.Covers, UnixChannel.Covers, setEntry_of_ne ch e h]
  exact Iff.rfl

/-- An entry whose bytes are on the device may be given up. -/
theorem CoherentFrom.discard {i : Fin cacheSize} {e : UnixCache} (h : CoherentFrom lo hi ch A)
    (he : e.inUse = false)
    (hclean : (ch.cache i).inUse = true → (ch.cache i).dirty = true →
      ¬(lo ≤ (ch.cache i).block ∧ (ch.cache i).block < hi) → ∀ p, ch.Covers i p → ch.dev p = A p) :
    CoherentFrom lo hi (ch.setEntry i e) A := by
  have hne : ∀ {j}, ((ch.setEntry i e).cache j).inUse = true → j ≠ i := by
    rintro j hj rfl
    rw [setEntry_self, he] at hj
    cases hj
  refine ⟨fun j l hj hl => ?_, fun j hj => ?_, fun p hp => ?_⟩
  · have hji := hne hj
    have hli := hne hl
    rw [setEntry_of_ne _ _ hji] at hj ⊢
    rw [setEntry_of_ne _ _ hli] at hl ⊢
    exact h.distinct j l hj hl
  · have hji := hne hj
    rw [setEntry_of_ne _ _ hji] at hj ⊢
    exact h.cached j hj
  · by_cases hi : (ch.cache i).inUse = true ∧ (ch.cache i).dirty = true ∧
      ¬(lo ≤ (ch.cache i).block ∧ (ch.cache i).block < hi) ∧ ch.Covers i p
    · exact hclean hi.1 hi.2.1 hi.2.2.1 p hi.2.2.2
    · refine h.device p fun j hj hd hb hcov => ?_
      rcases eq_or_ne j i with rfl | hji
      · exact hi ⟨hj, hd, hb, hcov⟩
      · have := hp j
        rw [setEntry_of_ne _ _ hji, covers_setEntry_of_ne _ hji] at this
        exact this hj hd hb hcov

/-- An entry whose bytes are on the device may be marked clean. -/
theorem CoherentFrom.markClean {i : Fin cacheSize} (h : CoherentFrom lo hi ch A)
    (hclean : ∀ p, ch.Covers i p → ch.dev p = A p) :
    CoherentFrom lo hi (ch.setEntry i { ch.cache i with dirty := false }) A := by
  have hsame : ∀ j, ((ch.setEntry i { ch.cache i with dirty := false }).cache j).inUse =
        (ch.cache j).inUse ∧
      ((ch.setEntry i { ch.cache i with dirty := false }).cache j).block = (ch.cache j).block ∧
      ((ch.setEntry i { ch.cache i with dirty := false }).cache j).buf = (ch.cache j).buf := by
    intro j
    rcases eq_or_ne j i with rfl | hji
    · rw [setEntry_self]
      exact ⟨rfl, rfl, rfl⟩
    · rw [setEntry_of_ne _ _ hji]
      exact ⟨rfl, rfl, rfl⟩
  refine ⟨fun j l => ?_, fun j => ?_, fun p hp => ?_⟩
  · rw [(hsame j).1, (hsame l).1, (hsame j).2.1, (hsame l).2.1]
    exact h.distinct j l
  · rw [(hsame j).1, (hsame j).2.1, (hsame j).2.2]
    exact h.cached j
  · by_cases hi : ch.Covers i p
    · exact hclean p hi
    · refine h.device p fun j hj hd hb hcov => ?_
      rcases eq_or_ne j i with rfl | hji
      · exact hi hcov
      · have := hp j
        rw [setEntry_of_ne _ _ hji, covers_setEntry_of_ne _ hji] at this
        exact this hj hd hb hcov

/-- The entry may take the block: it is free, or it has the block, and no other has it. -/
def UnixChannel.Takes (ch : UnixChannel) (i : Fin cacheSize) (block : ℕ) : Prop :=
  ((ch.cache i).inUse = true → (ch.cache i).block = block) ∧
    ∀ j ≠ i, (ch.cache j).inUse = true → (ch.cache j).block ≠ block

/-- Setting an entry keeps the blocks apart. -/
theorem CoherentFrom.distinct_setEntry {i : Fin cacheSize} {e : UnixCache}
    (h : CoherentFrom lo hi ch A) (htake : ch.Takes i e.block) (j l : Fin cacheSize)
    (hj : ((ch.setEntry i e).cache j).inUse = true) (hl : ((ch.setEntry i e).cache l).inUse = true)
    (hb : ((ch.setEntry i e).cache j).block = ((ch.setEntry i e).cache l).block) : j = l := by
  rcases eq_or_ne j i with rfl | hji
  · rcases eq_or_ne l j with rfl | hlj
    · rfl
    · rw [setEntry_self, setEntry_of_ne _ _ hlj] at hb
      rw [setEntry_of_ne _ _ hlj] at hl
      exact absurd hb.symm (htake.2 l hlj hl)
  · rw [setEntry_of_ne _ _ hji] at hj hb
    rcases eq_or_ne l i with rfl | hli
    · rw [setEntry_self] at hb
      exact absurd hb (htake.2 j hji hj)
    · rw [setEntry_of_ne _ _ hli] at hl hb
      exact h.distinct j l hj hl hb

/-- A free entry takes a block that is not cached, with its bytes. -/
theorem CoherentFrom.install {i : Fin cacheSize} {e : UnixCache} (h : CoherentFrom lo hi ch A)
    (hfree : (ch.cache i).inUse = false)
    (hnew : ∀ j, (ch.cache j).inUse = true → (ch.cache j).block ≠ e.block)
    (hbuf : ∀ k < ch.blockSize, e.buf k = A (ch.location e.block + k)) :
    CoherentFrom lo hi (ch.setEntry i e) A := by
  have htake : ch.Takes i e.block :=
    ⟨fun hi => absurd hi (by rw [hfree]; exact Bool.false_ne_true), fun j _ => hnew j⟩
  refine ⟨h.distinct_setEntry htake, fun j hj => ?_, fun p hp => ?_⟩
  · rcases eq_or_ne j i with rfl | hji
    · rw [setEntry_self]
      exact fun _ => hbuf
    · rw [setEntry_of_ne _ _ hji] at hj ⊢
      exact h.cached j hj
  · refine h.device p fun j hj hd hb hcov => ?_
    rcases eq_or_ne j i with rfl | hji
    · rw [hfree] at hj
      cases hj
    · have := hp j
      rw [setEntry_of_ne _ _ hji, covers_setEntry_of_ne _ hji] at this
      exact this hj hd hb hcov

/-- **A block written to the cache**: the array changes in that block. -/
theorem CoherentFrom.overwrite {i : Fin cacheSize} {e : UnixCache} {data : Block}
    (h : CoherentFrom 0 0 ch A) (htake : ch.Takes i e.block) (hdirty : e.dirty = true)
    (huse : e.inUse = true) (hbuf : ∀ k < ch.blockSize, e.buf k = data k) :
    CoherentFrom 0 0 (ch.setEntry i e) (memcpy A (ch.location e.block) data ch.blockSize) := by
  refine ⟨h.distinct_setEntry htake, fun j hj => ?_, fun p hp => ?_⟩
  · rcases eq_or_ne j i with rfl | hji
    · rw [setEntry_self]
      intro _ k hk
      exact (hbuf k hk).trans (memcpy_add hk).symm
    · rw [setEntry_of_ne _ _ hji] at hj ⊢
      intro hout k hk
      have hdisj := location_disjoint ch (htake.2 j hji hj)
      have hk : k < ch.blockSize := hk
      rw [h.cached j hj hout k hk]
      exact (memcpy_of_outside (by omega)).symm
  · have hout : ¬(ch.location e.block ≤ p ∧ p < ch.location e.block + ch.blockSize) := by
      have := hp i
      rw [setEntry_self] at this
      refine fun hcov => this huse hdirty (by omega) ?_
      rw [UnixChannel.Covers, setEntry_self]
      exact hcov
    rw [memcpy_of_outside (by omega)]
    refine h.device p fun j hj hd hb hcov => ?_
    rcases eq_or_ne j i with rfl | hji
    · rw [UnixChannel.Covers, htake.1 hj] at hcov
      exact hout hcov
    · have := hp j
      rw [setEntry_of_ne _ _ hji, covers_setEntry_of_ne _ hji] at this
      exact this hj hd hb hcov

/-- **A block that is on the device put in the cache**, the first of those that do not count. -/
theorem CoherentFrom.catchUp {i : Fin cacheSize} {e : UnixCache} (h : CoherentFrom lo hi ch A)
    (hlo : e.block = lo) (hlt : lo < hi) (htake : ch.Takes i e.block)
    (hbuf : ∀ k < ch.blockSize, e.buf k = A (ch.location e.block + k)) :
    CoherentFrom (lo + 1) hi (ch.setEntry i e) A := by
  refine ⟨h.distinct_setEntry htake, fun j hj => ?_, fun p hp => ?_⟩
  · rcases eq_or_ne j i with rfl | hji
    · rw [setEntry_self]
      exact fun _ => hbuf
    · rw [setEntry_of_ne _ _ hji] at hj ⊢
      have hne := htake.2 j hji hj
      exact fun hout => h.cached j hj (by omega)
  · refine h.device p fun j hj hd hb hcov => ?_
    rcases eq_or_ne j i with rfl | hji
    · have := htake.1 hj
      exact hb (by omega)
    · have := hp j
      rw [setEntry_of_ne _ _ hji, covers_setEntry_of_ne _ hji] at this
      exact this hj hd (by omega) hcov

/-- The blocks that are not cached are on the device. -/
theorem CoherentFrom.dev_of_uncached {b k : ℕ} (h : CoherentFrom lo hi ch A)
    (hb : ∀ j, (ch.cache j).inUse = true → (ch.cache j).block ≠ b) (hk : k < ch.blockSize) :
    ch.dev (ch.location b + k) = A (ch.location b + k) := by
  refine h.device _ fun j hj _ _ hcov => ?_
  have hdisj := location_disjoint ch (hb j hj)
  rw [UnixChannel.Covers] at hcov
  omega

end Entries

end E2fsprogs
