import E2fsprogs.UnixIo.Coherent

/-!
# What the operations do to the array

Each operation of a channel, when it succeeds, does to the array the channel stands for what its
name says. The writes that evict an entry are the only ones whose failure is not reported, so
they are assumed to succeed (`E2fsprogs.EvictsWell`). A write-through write is ahead of the dirty
entries of its own blocks, and goes wrong when it evicts one of them (`E2fsprogs.FillsSafely`).
-/

namespace E2fsprogs

/-- The raw writes of `reuse_cache` succeed. -/
def EvictsWell (env : UnixEnv) : Prop := ∀ n, env.writeFails .reuse n = false

/-! ### Writing to the device -/

section Device

variable {env : UnixEnv} {ch ch' : UnixChannel} {A : Block} {lo hi : ℕ}

theorem CoherentFrom.sameCache (h : CoherentFrom lo hi ch A) (hs : SameCache ch ch')
    (hdev : ch'.dev = ch.dev) : CoherentFrom lo hi ch' A :=
  h.congr ⟨hs.blockSize, hs.offset, hs.noCache, hs.writeErrors, hdev, fun i => by rw [hs.cache],
    fun i => by rw [hs.cache], fun i => by rw [hs.cache], fun i => by rw [hs.cache]⟩

theorem SameCache.covers (hs : SameCache ch ch') (i : Fin cacheSize) (p : ℕ) :
    ch'.Covers i p ↔ ch.Covers i p := by
  rw [UnixChannel.Covers, UnixChannel.Covers, hs.cache, hs.location, hs.blockSize]

/-- An entry written back. -/
theorem CoherentFrom.writeBack {i : Fin cacheSize} (h : CoherentFrom lo hi ch A)
    (huse : (ch.cache i).inUse = true)
    (hout : ¬(lo ≤ (ch.cache i).block ∧ (ch.cache i).block < hi)) (hs : SameCache ch ch')
    (hdev : ch'.dev = memcpy ch.dev (ch.location (ch.cache i).block)
      (ch.cache i).buf ch.blockSize) :
    CoherentFrom lo hi ch' A ∧ ∀ p, ch'.Covers i p → ch'.dev p = A p := by
  have hcov : ∀ p, ch.Covers i p → ch'.dev p = A p := by
    rintro p ⟨h1, h2⟩
    rw [hdev, memcpy_of_inside h1 h2, h.cached i huse hout _ (by omega), Nat.add_sub_cancel' h1]
  refine ⟨⟨?_, ?_, fun p hp => ?_⟩, fun p hp => hcov p ((hs.covers i p).mp hp)⟩
  · rw [hs.cache]
    exact h.distinct
  · rw [hs.cache, hs.blockSize]
    simp only [hs.location]
    exact h.cached
  · by_cases hi : ch.Covers i p
    · exact hcov p hi
    · rw [UnixChannel.Covers] at hi
      rw [hdev, memcpy_of_outside (by omega)]
      refine h.device p fun j hj hd hb hc => ?_
      have := hp j
      rw [hs.cache, hs.covers] at this
      exact this hj hd hb hc

/-- The entries in use agree with bytes written over their blocks. -/
def UnixChannel.AgreesWith (ch : UnixChannel) (pos : ℕ) (data : Block) (len : ℕ) : Prop :=
  ∀ i, (ch.cache i).inUse = true → ∀ k < ch.blockSize, pos ≤ ch.location (ch.cache i).block + k →
    ch.location (ch.cache i).block + k < pos + len →
    (ch.cache i).buf k = data (ch.location (ch.cache i).block + k - pos)

/-- **Bytes written past the cache.** -/
theorem CoherentFrom.bypass {pos len : ℕ} {data : Block} (h : CoherentFrom 0 0 ch A)
    (hagree : ch.AgreesWith pos data len) (hs : SameCache ch ch')
    (hdev : ch'.dev = memcpy ch.dev pos data len) :
    CoherentFrom 0 0 ch' (memcpy A pos data len) := by
  refine ⟨?_, ?_, fun p hp => ?_⟩
  · rw [hs.cache]
    exact h.distinct
  · rw [hs.cache, hs.blockSize]
    simp only [hs.location]
    intro i hi hout k hk
    by_cases hin : pos ≤ ch.location (ch.cache i).block + k ∧
        ch.location (ch.cache i).block + k < pos + len
    · rw [memcpy_of_inside hin.1 hin.2]
      exact hagree i hi k hk hin.1 hin.2
    · rw [memcpy_of_outside (by omega)]
      exact h.cached i hi hout k hk
  · rw [hdev]
    by_cases hin : pos ≤ p ∧ p < pos + len
    · rw [memcpy_of_inside hin.1 hin.2, memcpy_of_inside hin.1 hin.2]
    · rw [memcpy_of_outside (by omega), memcpy_of_outside (by omega)]
      refine h.device p fun j hj hd hb hc => ?_
      have := hp j
      rw [hs.cache, hs.covers] at this
      exact this hj hd hb hc

/-- Whole blocks written past the cache: their entries no longer count. -/
theorem CoherentFrom.ahead {block n : ℕ} {data : Block} (h : CoherentFrom 0 0 ch A)
    (hs : SameCache ch ch')
    (hdev : ch'.dev = memcpy ch.dev (ch.location block) data (n * ch.blockSize)) :
    CoherentFrom block (block + n) ch' (memcpy A (ch.location block) data (n * ch.blockSize)) := by
  -- a block of the range lies in the bytes written, and any other block outside
  have hin : ∀ b k, k < ch.blockSize → block ≤ b → b < block + n →
      ch.location block ≤ ch.location b + k ∧
        ch.location b + k < ch.location block + n * ch.blockSize := by
    intro b k hk h1 h2
    obtain ⟨d, rfl⟩ := Nat.exists_eq_add_of_le h1
    rw [location_add]
    have := Nat.mul_le_mul_right ch.blockSize (show d + 1 ≤ n by omega)
    rw [Nat.succ_mul] at this
    omega
  have hout : ∀ b k, k < ch.blockSize → ¬(block ≤ b ∧ b < block + n) →
      ch.location b + k < ch.location block ∨
        ch.location block + n * ch.blockSize ≤ ch.location b + k := by
    intro b k hk hb
    by_cases hlt : b < block
    · have := location_disjoint ch hlt.ne
      have := location_add ch b (block - b)
      rw [Nat.add_sub_cancel' hlt.le] at this
      have := Nat.mul_le_mul_right ch.blockSize (show 1 ≤ block - b by omega)
      omega
    · have := location_add ch (block + n) (b - (block + n))
      rw [Nat.add_sub_cancel' (by omega), location_add] at this
      omega
  refine ⟨?_, ?_, fun p hp => ?_⟩
  · rw [hs.cache]
    exact h.distinct
  · rw [hs.cache, hs.blockSize]
    simp only [hs.location]
    intro i hi hb k hk
    rw [memcpy_of_outside (hout _ k hk hb)]
    exact h.cached i hi (by omega) k hk
  · rw [hdev]
    by_cases hp' : ch.location block ≤ p ∧ p < ch.location block + n * ch.blockSize
    · rw [memcpy_of_inside hp'.1 hp'.2, memcpy_of_inside hp'.1 hp'.2]
    · rw [memcpy_of_outside (by omega), memcpy_of_outside (by omega)]
      refine h.device p fun j hj hd _ hc => ?_
      by_cases hb : block ≤ (ch.cache j).block ∧ (ch.cache j).block < block + n
      · have hc' : ch.location (ch.cache j).block ≤ p ∧
            p < ch.location (ch.cache j).block + ch.blockSize :=
          hc
        have := hin _ (p - ch.location (ch.cache j).block) (by omega) hb.1 hb.2
        omega
      · have := hp j
        rw [hs.cache, hs.covers] at this
        exact this hj hd hb hc

theorem CoherentFrom.empty_range {b c : ℕ} (h : CoherentFrom b b ch A) : CoherentFrom c c ch A :=
  ⟨h.distinct, fun i hi _ => h.cached i hi (by omega),
    fun p hp => h.device p fun i hi hd _ => hp i hi hd (by omega)⟩

end Device

/-! ### Reusing an entry -/

section Reuse

variable {env : UnixEnv} {ch : UnixChannel} {A : Block} {lo hi : ℕ}

/-- The channel after `reuse_cache` has written the old block. -/
def evicted (env : UnixEnv) (ch : UnixChannel) (i : Fin cacheSize) : UnixChannel :=
  if (ch.cache i).dirty && (ch.cache i).inUse then
    (rawWriteBlk env .reuse ch (ch.cache i).block 1 (ch.cache i).buf).2
  else ch

theorem reuseCache_eq (i : Fin cacheSize) (block : ℕ) :
    reuseCache env ch i block = ((evicted env ch i).setEntry i
      { ch.cache i with inUse := true, dirty := false, block := block }).touch i := rfl

theorem rawWriteBlk_reuse (henv : EvictsWell env) (block : ℕ) (count : ℤ) (buf : Block) :
    rawWriteBlk env .reuse ch block count buf =
      (true, (rawWriteBlk env .reuse ch block count buf).2) := by
  refine Prod.ext ?_ rfl
  rw [rawWriteBlk_fst, henv]
  rfl

theorem sameCache_evicted (henv : EvictsWell env) (i : Fin cacheSize) :
    SameCache ch (evicted env ch i) := by
  rw [evicted]
  split_ifs
  · exact (rawWriteBlk_true (rawWriteBlk_reuse henv _ _ _)).1
  · exact ⟨rfl, rfl, rfl, rfl, rfl⟩

/-- The entry to be reused may be dropped once its block is written. -/
theorem CoherentFrom.evicted (h : CoherentFrom lo hi ch A) (henv : EvictsWell env)
    {i : Fin cacheSize} (hsafe : (ch.cache i).dirty = true → (ch.cache i).inUse = true →
      ¬(lo ≤ (ch.cache i).block ∧ (ch.cache i).block < hi)) :
    CoherentFrom lo hi ((evicted env ch i).drop i) A := by
  rw [E2fsprogs.evicted]
  split_ifs with hd
  · rw [Bool.and_eq_true] at hd
    have hw : rawWriteBlk env .reuse ch (ch.cache i).block 1 (ch.cache i).buf = (true, _) :=
      rawWriteBlk_reuse henv _ _ _
    obtain ⟨hs, hdev⟩ := rawWriteBlk_true hw
    rw [transferSize_one] at hdev
    obtain ⟨h', hcov⟩ := h.writeBack hd.2 (hsafe hd.1 hd.2) hs hdev
    exact h'.discard rfl fun _ _ _ => hcov
  · refine h.discard rfl fun huse hdirty => ?_
    rw [huse, hdirty] at hd
    exact absurd rfl hd

/-- An entry set again after it has been touched. -/
theorem sameBlocks_refill (i : Fin cacheSize) (e e' : UnixCache) :
    SameBlocks (ch.setEntry i e') (((ch.setEntry i e).touch i).setEntry i e') := by
  have h : (((ch.setEntry i e).touch i).setEntry i e').cache = (ch.setEntry i e').cache := by
    funext j
    rcases eq_or_ne j i with rfl | hj
    · rw [setEntry_self, setEntry_self]
    · rw [setEntry_of_ne _ _ hj, setEntry_of_ne _ _ hj, UnixChannel.touch, setEntry_of_ne _ _ hj]
      exact setEntry_of_ne ch e hj
  refine ⟨rfl, rfl, rfl, rfl, rfl, fun j => ?_, fun j => ?_, fun j => ?_, fun j => ?_⟩ <;> rw [h]

/-- **An entry reused**: setting it after `reuse_cache` is setting a free entry. -/
theorem CoherentFrom.reuse (h : CoherentFrom lo hi ch A) (henv : EvictsWell env) {i : Fin cacheSize}
    {block : ℕ} (hsafe : (ch.cache i).dirty = true → (ch.cache i).inUse = true →
      ¬(lo ≤ (ch.cache i).block ∧ (ch.cache i).block < hi))
    (hnew : ∀ j, (ch.cache j).inUse = true → (ch.cache j).block ≠ block) (e : UnixCache) :
    ∃ ch₁, CoherentFrom lo hi ch₁ A ∧ SameShape ch ch₁ ∧ (ch₁.cache i).inUse = false ∧
      (∀ j, (ch₁.cache j).inUse = true → (ch₁.cache j).block ≠ block) ∧
      SameBlocks (ch₁.setEntry i e) ((reuseCache env ch i block).setEntry i e) ∧
      SameShape ch ((reuseCache env ch i block).setEntry i e) := by
  have hs : SameCache ch (E2fsprogs.evicted env ch i) := sameCache_evicted henv i
  refine ⟨_, h.evicted henv hsafe, ⟨hs.blockSize, hs.offset, hs.noCache, hs.writeErrors⟩, ?_,
    fun j => ?_, ?_, ⟨hs.blockSize, hs.offset, hs.noCache, hs.writeErrors⟩⟩
  · rw [UnixChannel.drop, setEntry_self]
  · rw [UnixChannel.drop]
    rcases eq_or_ne j i with rfl | hj
    · rw [setEntry_self]
      exact Bool.noConfusion
    · rw [setEntry_of_ne _ _ hj, hs.cache]
      exact hnew j
  · rw [UnixChannel.drop, setEntry_setEntry, reuseCache_eq]
    exact sameBlocks_refill i _ e

theorem reuseCache_entry (henv : EvictsWell env) (i : Fin cacheSize) (block : ℕ) :
    ((reuseCache env ch i block).cache i).block = block ∧
      ((reuseCache env ch i block).cache i).inUse = true ∧
      (reuseCache env ch i block).blockSize = ch.blockSize := by
  have hs : SameCache ch (E2fsprogs.evicted env ch i) := sameCache_evicted henv i
  rw [reuseCache_eq, (sameBlocks_touch _ i).block, (sameBlocks_touch _ i).inUse, setEntry_self]
  exact ⟨rfl, rfl, hs.blockSize⟩

theorem memcpy_block (old data : Block) (n k : ℕ) (hk : k < n) :
    memcpy old 0 data n k = data k := by
  have := @memcpy_add old data 0 n k hk
  rwa [Nat.zero_add] at this

end Reuse

/-! ### Flushing -/

section Flush

variable {env : UnixEnv} {A : Block} {invalidate : Bool}

/-- What a flush of some entries leaves. -/
structure Flushed (invalidate : Bool) (is : List (Fin cacheSize))
    (ch ch' : UnixChannel) (A : Block) :
    Prop where
  coherent : CoherentFrom 0 0 ch' A
  shape : SameShape ch ch'
  dirty : ∀ i, (ch'.cache i).dirty = true → (ch.cache i).dirty = true
  inUse : ∀ i, (ch'.cache i).inUse = true → (ch.cache i).inUse = true
  clean : ∀ i ∈ is, (ch'.cache i).inUse = true → (ch'.cache i).dirty = false
  invalid : invalidate = true → ∀ i ∈ is, (ch'.cache i).inUse = false

/-- One entry flushed, and then the others. -/
theorem Flushed.cons {i : Fin cacheSize} {is : List (Fin cacheSize)} {ch ch₁ ch' : UnixChannel}
    (h₁ : Flushed invalidate [i] ch ch₁ A) (h : Flushed invalidate is ch₁ ch' A) :
    Flushed invalidate (i :: is) ch ch' A where
  coherent := h.coherent
  shape := h₁.shape.trans h.shape
  dirty j hj := h₁.dirty j (h.dirty j hj)
  inUse j hj := h₁.inUse j (h.inUse j hj)
  clean j hj huse := by
    rcases List.mem_cons.mp hj with rfl | hj
    · by_contra hd
      have := h₁.clean j (List.mem_singleton.mpr rfl) (h.inUse j huse)
      rw [h.dirty j (by simpa using hd)] at this
      cases this
    · exact h.clean j hj huse
  invalid hinv j hj := by
    rcases List.mem_cons.mp hj with rfl | hj
    · by_contra huse
      have := h₁.invalid hinv j (List.mem_singleton.mpr rfl)
      rw [h.inUse j (by simpa using huse)] at this
      cases this
    · exact h.invalid hinv j hj

/-- An entry of which only flags are cleared. -/
theorem Flushed.of_setEntry {ch ch₁ : UnixChannel} {i : Fin cacheSize} {e : UnixCache}
    (hs : SameShape ch ch₁) (hcache : ∀ j ≠ i, ch₁.cache j = ch.cache j)
    (h : CoherentFrom 0 0 (ch₁.setEntry i e) A)
    (hd : e.dirty = true → (ch.cache i).dirty = true)
    (hu : e.inUse = true → (ch.cache i).inUse = true)
    (hclean : e.inUse = true → e.dirty = false) (hinv : invalidate = true → e.inUse = false) :
    Flushed invalidate [i] ch (ch₁.setEntry i e) A := by
  refine ⟨h, ⟨hs.blockSize, hs.offset, hs.noCache, hs.writeErrors⟩, fun j => ?_, fun j => ?_,
    fun j hj => ?_, fun hi j hj => ?_⟩
  · rcases eq_or_ne j i with rfl | hj
    · rwa [setEntry_self]
    · rw [setEntry_of_ne _ _ hj, hcache j hj]
      exact id
  · rcases eq_or_ne j i with rfl | hj
    · rwa [setEntry_self]
    · rw [setEntry_of_ne _ _ hj, hcache j hj]
      exact id
  · obtain rfl := List.mem_singleton.mp hj
    rwa [setEntry_self]
  · obtain rfl := List.mem_singleton.mp hj
    rw [setEntry_self]
    exact hinv hi

/-- An entry that is not in use, or clean and not to be invalidated. -/
theorem Flushed.of_clean {ch : UnixChannel} {i : Fin cacheSize} (h : CoherentFrom 0 0 ch A)
    (hclean : (ch.cache i).inUse = true → (ch.cache i).dirty = false)
    (hinv : invalidate = true → (ch.cache i).inUse = false) : Flushed invalidate [i] ch ch A := by
  refine ⟨h, SameShape.refl ch, fun _ => id, fun _ => id, fun j hj => ?_, fun h j hj => ?_⟩
  · obtain rfl := List.mem_singleton.mp hj
    exact hclean
  · obtain rfl := List.mem_singleton.mp hj
    exact hinv h

/-- **One entry flushed.** -/
theorem flushEntry_true {ch ch' : UnixChannel} {i : Fin cacheSize} (h : CoherentFrom 0 0 ch A)
    (hf : flushEntry env invalidate ch i = (true, ch')) : Flushed invalidate [i] ch ch' A := by
  rw [flushEntry] at hf
  by_cases huse : (ch.cache i).inUse = true
  · rw [huse] at hf
    cases invalidate with
    | false =>
      simp only [Bool.not_true, Bool.false_eq_true, if_false] at hf
      by_cases hdirty : (ch.cache i).dirty = true
      · simp only [hdirty, Bool.not_true, Bool.false_eq_true, if_false] at hf
        rcases hw : rawWriteBlk env .flush ch (ch.cache i).block 1
          (ch.cache i).buf with ⟨_ | _, ch₁⟩
        · rw [hw] at hf
          cases hf
        · rw [hw] at hf
          cases hf
          obtain ⟨hs, hdev⟩ := rawWriteBlk_true hw
          rw [transferSize_one] at hdev
          obtain ⟨h₁, hcov⟩ := h.writeBack huse (by omega) hs hdev
          exact Flushed.of_setEntry hs.shape (fun j _ => by rw [hs.cache]) (h₁.markClean hcov)
            Bool.noConfusion (fun _ => huse) (fun _ => rfl) Bool.noConfusion
      · rw [Bool.not_eq_true] at hdirty
        simp only [hdirty, Bool.not_false, if_true] at hf
        cases hf
        exact Flushed.of_clean h (fun _ => hdirty) Bool.noConfusion
    | true =>
      simp only [Bool.not_true, Bool.false_eq_true, if_false, if_true, setEntry_self] at hf
      by_cases hdirty : (ch.cache i).dirty = true
      · simp only [hdirty, Bool.not_true, Bool.false_eq_true, if_false] at hf
        rcases hw : rawWriteBlk env .flush (ch.setEntry i { ch.cache i with inUse := false })
          (ch.cache i).block 1 (ch.cache i).buf with ⟨_ | _, ch₁⟩
        · simp only [hdirty] at hw
          rw [hw] at hf
          cases hf
        · have hw' := hw
          simp only [hdirty] at hw'
          rw [hw'] at hf
          cases hf
          obtain ⟨hs, hdev⟩ := rawWriteBlk_true hw
          rw [transferSize_one] at hdev
          -- the entry is written back as if it still were in use, and then given up
          have hs' : SameCache ch { ch₁ with cache := ch.cache } :=
            ⟨hs.blockSize, hs.offset, hs.noCache, hs.writeErrors, rfl⟩
          obtain ⟨h₁, hcov⟩ := h.writeBack huse (by omega) hs' hdev
          have hunused : (ch₁.cache i).inUse = false := by
            rw [hs.cache, setEntry_self]
          have h₂ := @CoherentFrom.discard _ _ _ _ i { ch₁.cache i with dirty := false } h₁ hunused
            fun _ _ _ => hcov
          refine Flushed.of_setEntry ⟨hs.blockSize, hs.offset, hs.noCache,
            hs.writeErrors⟩ ?_ ?_ Bool.noConfusion
            (fun _ => huse) (fun _ => rfl) (fun _ => hunused)
          · intro j hj
            rw [hs.cache, setEntry_of_ne _ _ hj]
          · have heq : ({ ch₁ with cache := ch.cache } : UnixChannel).setEntry i
                { ch₁.cache i with dirty := false } =
                  ch₁.setEntry i { ch₁.cache i with dirty := false } := by
              rw [UnixChannel.setEntry, UnixChannel.setEntry]
              simp only [hs.cache, UnixChannel.setEntry, Function.update_idem]
            rwa [heq] at h₂
      · rw [Bool.not_eq_true] at hdirty
        simp only [hdirty, Bool.not_false, if_true] at hf
        cases hf
        refine Flushed.of_setEntry (SameShape.refl ch) (fun _ _ => rfl) (h.discard rfl ?_)
          Bool.noConfusion Bool.noConfusion (fun _ => rfl) (fun _ => rfl)
        rw [hdirty]
        exact fun _ h => Bool.noConfusion h
  · rw [Bool.not_eq_true] at huse
    rw [huse] at hf
    cases hf
    have hnot : (ch.cache i).inUse = true → (ch.cache i).dirty = false := by
      rw [huse]
      exact Bool.noConfusion
    exact Flushed.of_clean h hnot (fun _ => huse)

/-- **A flush that succeeds.** -/
theorem flushEntries_true (is : List (Fin cacheSize)) : ∀ {ch ch' : UnixChannel},
    CoherentFrom 0 0 ch A → flushEntries env invalidate is ch = (true, ch') →
    Flushed invalidate is ch ch' A := by
  induction is with
  | nil =>
    intro ch ch' h hf
    cases hf
    exact ⟨h, SameShape.refl ch, fun _ => id, fun _ => id, fun _ hi => absurd hi List.not_mem_nil,
      fun _ _ hi => absurd hi List.not_mem_nil⟩
  | cons i is ih =>
    intro ch ch' h hf
    rw [flushEntries, Prod.mk.injEq, Bool.and_eq_true] at hf
    obtain ⟨⟨h1, h2⟩, h3⟩ := hf
    have hone := flushEntry_true h (Prod.ext h1 rfl)
    exact hone.cons (ih hone.coherent (Prod.ext h2 h3))

/-- **After a flush** the device holds the array, and after an invalidating one no entry is in
use. -/
theorem flushCachedBlocks_true {ch ch' : UnixChannel} (h : CoherentFrom 0 0 ch A)
    (hf : flushCachedBlocks env invalidate ch = (true, ch')) :
    CoherentFrom 0 0 ch' A ∧ SameShape ch ch' ∧ ch'.dev = A ∧
      (∀ i, (ch'.cache i).inUse = true → (ch'.cache i).dirty = false) ∧
      (invalidate = true → ∀ i, (ch'.cache i).inUse = false) := by
  have hfl := flushEntries_true _ h hf
  refine ⟨hfl.coherent, hfl.shape, funext fun p => ?_, fun i => hfl.clean i (List.mem_finRange i),
    fun hinv i => hfl.invalid hinv i (List.mem_finRange i)⟩
  refine hfl.coherent.device p fun i hi hd => ?_
  rw [hfl.clean i (List.mem_finRange i) hi] at hd
  cases hd

end Flush

/-! ### Reading blocks -/

section Read

variable {env : UnixEnv} {A : Block}

/-- **Blocks that have been read are saved in the cache.** -/
theorem saveBlocks_coherent (henv : EvictsWell env) {buf : Block} (n : ℕ) :
    ∀ {block pos : ℕ} {ch : UnixChannel}, CoherentFrom 0 0 ch A →
      (∀ k < n * ch.blockSize, buf (pos + k) = A (ch.location block + k)) →
      CoherentFrom 0 0 (saveBlocks env buf n block pos ch) A ∧
        SameShape ch (saveBlocks env buf n block pos ch) := by
  induction n with
  | zero => exact fun h _ => ⟨h, SameShape.refl _⟩
  | succ n ih =>
    intro block pos ch h hbuf
    -- what is left for the rounds after this one
    have hrest : ∀ {ch₁ : UnixChannel}, SameShape ch ch₁ → ∀ k < n * ch₁.blockSize,
        buf (pos + ch₁.blockSize + k) = A (ch₁.location (block + 1) + k) := by
      intro ch₁ hs k hk
      rw [hs.blockSize] at hk ⊢
      rw [hs.location, location_add, Nat.one_mul, Nat.add_assoc, Nat.add_assoc]
      exact hbuf _ (by rw [Nat.succ_mul]; omega)
    rw [saveBlocks]
    rcases hfind : findCachedBlock ch block with ⟨i | i, ch₁⟩
    · obtain ⟨hs, -⟩ := findCachedBlock_inl hfind
      obtain ⟨h₂, hs₂⟩ := ih (h.congr hs) (hrest hs.shape)
      exact ⟨h₂, hs.shape.trans hs₂⟩
    · obtain ⟨rfl, hnew⟩ := findCachedBlock_inr hfind
      obtain ⟨hblock, -, hsize⟩ := @reuseCache_entry env ch₁ henv i block
      -- the entry as the loop leaves it
      obtain ⟨e, he⟩ : ∃ e : UnixCache, { (reuseCache env ch₁ i block).cache i with
          buf := memcpy ((reuseCache env ch₁ i block).cache i).buf 0 (fromPos buf pos)
            (reuseCache env ch₁ i block).blockSize } = e := ⟨_, rfl⟩
      obtain ⟨ch₂, h₂, hs₂, hfree, hnew₂, hsame, hshape⟩ :=
        h.reuse henv (fun _ _ => by omega) hnew e
      have heblock : e.block = block := by
        rw [← he]
        exact hblock
      have hebuf : e.buf = memcpy ((reuseCache env ch₁ i block).cache i).buf 0 (fromPos buf pos)
          (reuseCache env ch₁ i block).blockSize := by
        rw [← he]
      have h₃ := @CoherentFrom.install _ _ _ _ i e h₂ hfree (by rwa [heblock]) fun k hk => by
        rw [hs₂.blockSize] at hk
        rw [heblock, hebuf, hsize, memcpy_block _ _ _ _ hk, hs₂.location]
        exact hbuf k (by rw [Nat.succ_mul]; omega)
      obtain ⟨h₄, hs₄⟩ := ih (h₃.congr hsame) (hrest hshape)
      simp only [he]
      exact ⟨h₄, hshape.trans hs₄⟩

/-- The number of blocks to be read at once, and that they are not cached. -/
theorem uncachedRun_spec {block : ℕ} (left : ℕ) : ∀ {i : ℕ} {ch : UnixChannel},
    SameBlocks ch (uncachedRun block left i ch).2 ∧ i ≤ (uncachedRun block left i ch).1 ∧
      (uncachedRun block left i ch).1 ≤ i + left ∧
      ∀ n, i ≤ n → n < (uncachedRun block left i ch).1 →
        ∀ j, (ch.cache j).inUse = true → (ch.cache j).block ≠ block + n := by
  induction left with
  | zero => exact fun {i ch} => ⟨SameBlocks.refl ch, le_rfl, le_rfl, fun n h h' => by
      rw [uncachedRun] at h'
      omega⟩
  | succ left ih =>
    intro i ch
    rw [uncachedRun]
    rcases hfind : findCachedBlock ch (block + i) with ⟨v | v, ch₁⟩
    · exact ⟨(findCachedBlock_inl hfind).1, le_rfl, Nat.le_add_right _ _, fun n h h' => by
        dsimp only at h'
        omega⟩
    · obtain ⟨rfl, hnew⟩ := findCachedBlock_inr hfind
      dsimp only
      obtain ⟨h1, h2, h3, h4⟩ := @ih (i + 1) ch₁
      refine ⟨h1, by omega, by omega, fun n h h' => ?_⟩
      rcases Nat.eq_or_lt_of_le h with rfl | h
      · exact hnew
      · exact h4 n h h'

/-- Blocks that are not cached are read from the device. -/
theorem CoherentFrom.dev_of_run {ch : UnixChannel} {lo hi block n : ℕ} (h : CoherentFrom lo hi ch A)
    (hrun : ∀ m < n, ∀ j, (ch.cache j).inUse = true → (ch.cache j).block ≠ block + m) :
    ∀ k < n * ch.blockSize, ch.dev (ch.location block + k) = A (ch.location block + k) := by
  intro k hk
  have hbs : 0 < ch.blockSize := by
    rcases Nat.eq_zero_or_pos ch.blockSize with h0 | h0
    · rw [h0] at hk
      omega
    · exact h0
  have hdev := h.dev_of_uncached (hrun (k / ch.blockSize) ((Nat.div_lt_iff_lt_mul hbs).mpr hk))
    (Nat.mod_lt k hbs)
  have hk' := Nat.div_add_mod k ch.blockSize
  rw [Nat.mul_comm] at hk'
  rwa [location_add, Nat.add_assoc, hk'] at hdev

/-- **The loop of `unix_read_blk64`** brings the bytes of the array. -/
theorem readBlocks_ok (henv : EvictsWell env) (fuel : ℕ) :
    ∀ {block count pos : ℕ} {buf buf' : Block} {ch ch' : UnixChannel}, CoherentFrom 0 0 ch A →
      count ≤ fuel → readBlocks env fuel block count pos buf ch = (.ok buf', ch') →
      CoherentFrom 0 0 ch' A ∧ SameShape ch ch' ∧
        buf' = memcpy buf pos (fromPos A (ch.location block)) (count * ch.blockSize) := by
  induction fuel with
  | zero =>
    intro block count pos buf buf' ch ch' h hcount hread
    obtain rfl : count = 0 := by omega
    cases hread
    exact ⟨h, SameShape.refl _, by rw [Nat.zero_mul, memcpy_zero]⟩
  | succ fuel ih =>
    intro block count pos buf buf' ch ch' h hcount hread
    rw [readBlocks] at hread
    by_cases h0 : count = 0
    · rw [if_pos h0] at hread
      cases hread
      exact ⟨h, SameShape.refl _, by rw [h0, Nat.zero_mul, memcpy_zero]⟩
    · rw [if_neg h0] at hread
      -- a first part of the blocks is in the buffer, and the rounds after it bring the rest
      have hsplit : ∀ {n : ℕ} {first : Block}, n ≤ count →
          first = memcpy buf pos (fromPos A (ch.location block)) (n * ch.blockSize) →
          memcpy first (pos + n * ch.blockSize) (fromPos A (ch.location (block + n)))
              ((count - n) * ch.blockSize) =
            memcpy buf pos (fromPos A (ch.location block)) (count * ch.blockSize) := by
        rintro n first hn rfl
        rw [location_add, ← @fromPos_fromPos A, memcpy_append, ← Nat.add_mul,
          Nat.add_sub_cancel' hn]
      rcases hfind : findCachedBlock ch block with ⟨i | i, ch₁⟩
      · rw [hfind] at hread
        obtain ⟨hs, huse, hblock⟩ := findCachedBlock_inl hfind
        obtain ⟨h', hs', hbuf⟩ := ih (h.congr hs) (by omega) hread
        refine ⟨h', hs.shape.trans hs', ?_⟩
        rw [hbuf, hs.blockSize, hs.location]
        have := @hsplit 1 _ (by omega) rfl
        rw [Nat.one_mul] at this
        rw [← this]
        congr 1
        refine memcpy_congr fun k hk => ?_
        rw [hs.buf, h.cached i huse (by omega) k hk, hblock]
        rfl
      · obtain ⟨rfl, hnew⟩ := findCachedBlock_inr hfind
        rw [hfind] at hread
        dsimp only at hread
        obtain ⟨hs, hge, hle, hrun⟩ := @uncachedRun_spec block (count - 1) 1 ch₁
        rcases hr : rawReadBlk env (uncachedRun block (count - 1) 1 ch₁).2 block
          (uncachedRun block (count - 1) 1 ch₁).1 buf pos with ⟨_ | buf₁, ch₂⟩
        · rw [hr] at hread
          cases hread
        · rw [hr] at hread
          generalize (uncachedRun block (count - 1) 1 ch₁).1 = n at *
          generalize (uncachedRun block (count - 1) 1 ch₁).2 = ch₃ at *
          obtain ⟨hs₂, hdev, hbuf₁⟩ := rawReadBlk_some hr
          have h₂ := (h.congr hs).sameCache hs₂ hdev
          have hshape := hs.shape.trans hs₂.shape
          rw [transferSize_natCast, hs.blockSize, hs.dev, hs.location] at hbuf₁
          have hdevA : ∀ k < n * ch₁.blockSize,
              ch₁.dev (ch₁.location block + k) = A (ch₁.location block + k) :=
            h.dev_of_run fun m hm => by
              rcases Nat.eq_zero_or_pos m with rfl | hm'
              · exact hnew
              · exact hrun m hm' hm
          have hbuf₁ : buf₁ = memcpy buf pos (fromPos A (ch₁.location block)) (n * ch₁.blockSize) :=
            hbuf₁.trans (memcpy_congr hdevA)
          obtain ⟨h₄, hs₄⟩ := @saveBlocks_coherent _ A henv buf₁ n block pos ch₂ h₂ fun k hk => by
            rw [hshape.blockSize] at hk
            rw [hbuf₁, memcpy_add hk, hshape.location]
            rfl
          obtain ⟨h', hs', hbuf⟩ := ih h₄ (by omega) hread
          have hs₅ := hshape.trans hs₄
          refine ⟨h', hs₅.trans hs', ?_⟩
          rw [hbuf, hs₅.blockSize, hs₅.location, hshape.blockSize]
          exact hsplit (by omega) hbuf₁

end Read

/-! ### Filling the cache -/

section Fill

variable {env : UnixEnv} {A : Block} {lo hi : ℕ}

/-- **One round of the loop of `unix_write_blk64`** sets an entry that may take the block. -/
theorem CoherentFrom.fillBlock {ch : UnixChannel} {wt : Bool} {block : ℕ} {buf : Block}
    (h : CoherentFrom lo hi ch A) (henv : EvictsWell env)
    (hsafe : ∀ i ch', findCachedBlock ch block = (.inr i, ch') → (ch.cache i).dirty = true →
      (ch.cache i).inUse = true → ¬(lo ≤ (ch.cache i).block ∧ (ch.cache i).block < hi)) :
    ∃ ch₁ i e, CoherentFrom lo hi ch₁ A ∧ SameShape ch ch₁ ∧ ch₁.Takes i block ∧ e.block = block ∧
      e.inUse = true ∧ e.dirty = !wt ∧ (∀ k < ch.blockSize, e.buf k = buf k) ∧
      SameBlocks (ch₁.setEntry i e) (fillBlock env wt ch block buf) := by
  rcases hfind : findCachedBlock ch block with ⟨i | i, ch₁⟩
  · obtain ⟨hs, huse, hblock⟩ := findCachedBlock_inl hfind
    have h₁ := h.congr hs
    rw [← hs.inUse] at huse
    rw [← hs.block] at hblock
    refine ⟨ch₁, i,
      { ch₁.cache i with buf := memcpy (ch₁.cache i).buf 0 buf ch₁.blockSize, dirty := !wt }, h₁,
      hs.shape, ⟨fun _ => hblock, fun j hj huse' hblock' => ?_⟩, hblock, huse, rfl, fun k hk =>
      ?_, ?_⟩
    · exact hj (h₁.distinct j i huse' huse (hblock'.trans hblock.symm))
    · rw [← hs.blockSize] at hk
      exact memcpy_block _ _ _ _ hk
    · rw [E2fsprogs.fillBlock, hfind]
      exact SameBlocks.refl _
  · obtain ⟨rfl, hnew⟩ := findCachedBlock_inr hfind
    obtain ⟨hblock, huse, hsize⟩ := @reuseCache_entry env ch₁ henv i block
    obtain ⟨ch₂, h₂, hs₂, hfree, hnew₂, hsame, hshape⟩ := h.reuse henv (hsafe i ch₁ hfind) hnew
      { (reuseCache env ch₁ i block).cache i with
        buf := memcpy ((reuseCache env ch₁ i block).cache i).buf 0 buf
          (reuseCache env ch₁ i block).blockSize, dirty := !wt }
    refine ⟨ch₂, i, { (reuseCache env ch₁ i block).cache i with
        buf := memcpy ((reuseCache env ch₁ i block).cache i).buf 0 buf
          (reuseCache env ch₁ i block).blockSize, dirty := !wt }, h₂, hs₂,
          ⟨fun h => ?_, fun j _ => hnew₂ j⟩, hblock, huse, rfl, fun k hk => ?_, ?_⟩
    · rw [hfree] at h
      cases h
    · rw [hsize]
      exact memcpy_block _ _ _ _ hk
    · rw [E2fsprogs.fillBlock, hfind]
      exact hsame

/-- **A write to the cache.** -/
theorem fillCache_back (henv : EvictsWell env) (count : ℕ) :
    ∀ {block : ℕ} {buf A : Block} {ch : UnixChannel}, CoherentFrom 0 0 ch A →
      CoherentFrom 0 0 (fillCache env false count block buf ch)
        (memcpy A (ch.location block) buf (count * ch.blockSize)) ∧
      SameShape ch (fillCache env false count block buf ch) := by
  induction count with
  | zero =>
    intro block buf A ch h
    rw [Nat.zero_mul, memcpy_zero]
    exact ⟨h, SameShape.refl ch⟩
  | succ count ih =>
    intro block buf A ch h
    obtain ⟨ch₁, i, e, h₁, hs₁, htake, hblock, huse, hdirty, hbuf, hsame⟩ :=
      @CoherentFrom.fillBlock env A 0 0 ch false block buf h henv fun _ _ _ _ _ => by omega
    have h₂ := @CoherentFrom.overwrite _ _ i e buf h₁ (by rwa [hblock]) hdirty huse
      (by rwa [hs₁.blockSize])
    have hs₂ : SameShape ch (fillBlock env false ch block buf) :=
      ⟨hsame.blockSize.trans hs₁.blockSize, hsame.offset.trans hs₁.offset,
        hsame.noCache.trans hs₁.noCache, hsame.writeErrors.trans hs₁.writeErrors⟩
    rw [hblock, hs₁.location, hs₁.blockSize] at h₂
    obtain ⟨h₃, hs₃⟩ := @ih (block + 1) (fromPos buf ch.blockSize) _ _ (h₂.congr hsame)
    rw [hs₂.location, hs₂.blockSize, location_add, Nat.one_mul, memcpy_append,
      Nat.add_comm ch.blockSize, ← Nat.succ_mul] at h₃
    exact ⟨h₃, hs₂.trans hs₃⟩

/-- No dirty entry of a block that is still to be filled is evicted by the write-through write of
`count` blocks from `block` on. -/
def FillsSafely (env : UnixEnv) : ℕ → ℕ → Block → UnixChannel → Prop
  | 0, _, _, _ => True
  | count + 1, block, buf, ch =>
    (∀ i ch', findCachedBlock ch block = (.inr i, ch') → (ch.cache i).dirty = true →
      (ch.cache i).inUse = true →
        ¬(block ≤ (ch.cache i).block ∧ (ch.cache i).block < block + (count + 1))) ∧
    FillsSafely env count (block + 1) (fromPos buf ch.blockSize) (fillBlock env true ch block buf)

/-- **A write-through write**, after the device has been written. -/
theorem fillCache_through (henv : EvictsWell env) (count : ℕ) :
    ∀ {block : ℕ} {buf : Block} {ch : UnixChannel}, CoherentFrom block (block + count) ch A →
      FillsSafely env count block buf ch →
      (∀ k < count * ch.blockSize, buf k = A (ch.location block + k)) →
      CoherentFrom 0 0 (fillCache env true count block buf ch) A ∧
        SameShape ch (fillCache env true count block buf ch) := by
  induction count with
  | zero => exact fun h _ _ => ⟨h.empty_range, SameShape.refl _⟩
  | succ count ih =>
    rintro block buf ch h ⟨hsafe, hrest⟩ hdata
    obtain ⟨ch₁, i, e, h₁, hs₁, htake, hblock, huse, hdirty, hbuf, hsame⟩ :=
      @CoherentFrom.fillBlock env A _ _ ch true block buf h henv hsafe
    have h₂ :=
      @CoherentFrom.catchUp _ _ _ _ i e h₁ hblock (by omega) (by rwa [hblock]) fun k hk => by
      rw [hs₁.blockSize] at hk
      rw [hbuf k hk, hblock, hs₁.location]
      exact hdata k (by rw [Nat.succ_mul]; omega)
    have hs₂ : SameShape ch (fillBlock env true ch block buf) :=
      ⟨hsame.blockSize.trans hs₁.blockSize, hsame.offset.trans hs₁.offset,
        hsame.noCache.trans hs₁.noCache, hsame.writeErrors.trans hs₁.writeErrors⟩
    rw [show block + (count + 1) = block + 1 + count by omega] at h₂
    obtain ⟨h₃, hs₃⟩ := ih (h₂.congr hsame) hrest fun k hk => by
      rw [hs₂.blockSize] at hk
      rw [hs₂.location, location_add, Nat.one_mul, Nat.add_assoc]
      exact hdata _ (by rw [Nat.succ_mul]; omega)
    exact ⟨h₃, hs₂.trans hs₃⟩

end Fill

end E2fsprogs
