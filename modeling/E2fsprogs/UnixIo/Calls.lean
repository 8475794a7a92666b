import E2fsprogs.UnixIo.Operations

/-!
# The calls on a channel

Each call that succeeds, on a channel that stands for an array: the reads return bytes of the
array, the writes change it where they write, and a flush brings it to the device. A channel
whose cache is switched off keeps its entries, which must be clean then (`E2fsprogs.Stands`).
-/

namespace E2fsprogs

/-- The channel stands for the array, and has no dirty entry while its cache is switched off. -/
structure Stands (ch : UnixChannel) (A : Block) : Prop where
  coherent : CoherentFrom 0 0 ch A
  clean : ch.noCache = true → ∀ i, (ch.cache i).inUse = true → (ch.cache i).dirty = false

section Calls

variable {env : UnixEnv} {ch ch' : UnixChannel} {A : Block}

theorem CoherentFrom.dev_of_clean (h : CoherentFrom 0 0 ch A)
    (hclean : ∀ i, (ch.cache i).inUse = true → (ch.cache i).dirty = false) : ch.dev = A := by
  funext p
  refine h.device p fun i hi hd => ?_
  rw [hclean i hi] at hd
  cases hd

theorem transferSize_of_nonneg {count : ℤ} (h : ¬(count < 0 ∨ writeDirectSize < count)) (n : ℕ) :
    transferSize n count = count.toNat * n := if_neg fun hc => h (Or.inl hc)

/-! ### Reading -/

theorem rawRead_ok {block : ℕ} {count : ℤ} {buf buf' : Block}
    (h : rawRead env ch block count buf = (.ok buf', ch')) :
    SameCache ch ch' ∧ ch'.dev = ch.dev ∧
      buf' = memcpy buf 0 (fromPos ch.dev (ch.location block))
        (transferSize ch.blockSize count) := by
  rw [rawRead] at h
  rcases hr : rawReadBlk env ch block count buf 0 with ⟨_ | buf₁, ch₁⟩
  · rw [hr] at h
    cases h
  · rw [hr] at h
    cases h
    exact rawReadBlk_some hr

/-- **A read that succeeds.** -/
theorem unixReadBlk64_ok (henv : EvictsWell env) (h : Stands ch A) {block : ℕ} {count : ℤ}
    {buf buf' : Block} (hread : unixReadBlk64 env ch block count buf = (.ok buf', ch')) :
    Stands ch' A ∧ SameShape ch ch' ∧
      buf' = memcpy buf 0 (fromPos A (ch.location block)) (transferSize ch.blockSize count) := by
  rw [unixReadBlk64] at hread
  by_cases hno : ch.noCache = true
  · rw [if_pos hno] at hread
    obtain ⟨hs, hdev, hbuf⟩ := rawRead_ok hread
    rw [h.coherent.dev_of_clean (h.clean hno)] at hbuf
    refine ⟨⟨h.coherent.sameCache hs hdev, fun _ => ?_⟩, hs.shape, hbuf⟩
    rw [hs.cache]
    exact h.clean hno
  · have hno' : ∀ {ch₁}, SameShape ch ch₁ → ¬ch₁.noCache = true := fun hs => by rwa [hs.noCache]
    rw [if_neg hno] at hread
    by_cases hlarge : count < 0 ∨ writeDirectSize < count
    · rw [if_pos hlarge] at hread
      rcases hf : flushCachedBlocks env false ch with ⟨_ | _, ch₁⟩
      · rw [hf] at hread
        cases hread
      · rw [hf] at hread
        obtain ⟨h₁, hs₁, hdev₁, -⟩ := flushCachedBlocks_true h.coherent hf
        obtain ⟨hs, hdev, hbuf⟩ := rawRead_ok hread
        rw [hdev₁, hs₁.location, hs₁.blockSize] at hbuf
        have hshape := hs₁.trans hs.shape
        exact ⟨⟨h₁.sameCache hs hdev, fun hn => absurd hn (hno' hshape)⟩, hshape, hbuf⟩
    · rw [if_neg hlarge] at hread
      obtain ⟨h₁, hs, hbuf⟩ := readBlocks_ok henv _ h.coherent le_rfl hread
      rw [← transferSize_of_nonneg hlarge] at hbuf
      exact ⟨⟨h₁, fun hn => absurd hn (hno' hs)⟩, hs, hbuf⟩

/-! ### Writing -/

theorem rawWrite_ok {block : ℕ} {count : ℤ} {buf : Block} {u : Unit}
    (h : rawWrite env ch block count buf = (.ok u, ch')) :
    SameCache ch ch' ∧
      ch'.dev = memcpy ch.dev (ch.location block) buf (transferSize ch.blockSize count) := by
  rw [rawWrite] at h
  rcases hr : rawWriteBlk env .direct ch block count buf with ⟨_ | _, ch₁⟩
  · rw [hr] at h
    cases h
  · rw [hr] at h
    cases h
    exact rawWriteBlk_true hr

/-- The parts of a channel that decide which entries are reused. -/
structure SameTags (ch ch' : UnixChannel) : Prop where
  cache : ch'.cache = ch.cache
  accessTime : ch'.accessTime = ch.accessTime
  blockSize : ch'.blockSize = ch.blockSize

theorem sameTags_rawWriteBlk {site : WriteSite} {block : ℕ} {count : ℤ} {buf : Block} :
    SameTags ch (rawWriteBlk env site ch block count buf).2 := by
  simp only [rawWriteBlk]
  split_ifs <;> exact ⟨rfl, rfl, rfl⟩

theorem SameTags.setEntry (h : SameTags ch ch') (i : Fin cacheSize) (e : UnixCache) :
    SameTags (ch.setEntry i e) (ch'.setEntry i e) :=
  ⟨by simp only [UnixChannel.setEntry, h.cache], h.accessTime, h.blockSize⟩

theorem SameTags.touch (h : SameTags ch ch') (i : Fin cacheSize) :
    SameTags (ch.touch i) (ch'.touch i) :=
  ⟨by simp only [UnixChannel.touch, UnixChannel.setEntry, h.cache, h.accessTime],
    by simp only [UnixChannel.touch, UnixChannel.setEntry, h.accessTime], h.blockSize⟩

theorem SameTags.evicted (h : SameTags ch ch') (i : Fin cacheSize) :
    SameTags (E2fsprogs.evicted env ch i) (E2fsprogs.evicted env ch' i) := by
  rw [E2fsprogs.evicted, E2fsprogs.evicted, h.cache]
  split_ifs
  · have h₁ := @sameTags_rawWriteBlk env ch .reuse (ch.cache i).block 1 (ch.cache i).buf
    have h₂ := @sameTags_rawWriteBlk env ch' .reuse (ch.cache i).block 1 (ch.cache i).buf
    exact ⟨h₂.cache.trans (h.cache.trans h₁.cache.symm),
      h₂.accessTime.trans (h.accessTime.trans h₁.accessTime.symm),
      h₂.blockSize.trans (h.blockSize.trans h₁.blockSize.symm)⟩
  · exact h

theorem SameTags.reuseCache (h : SameTags ch ch') (i : Fin cacheSize) (block : ℕ) :
    SameTags (E2fsprogs.reuseCache env ch i block) (E2fsprogs.reuseCache env ch' i block) := by
  rw [reuseCache_eq, reuseCache_eq, h.cache]
  exact ((h.evicted i).setEntry i _).touch i

theorem SameTags.store (h : SameTags ch ch') (i : Fin cacheSize) (buf : Block) (dirty : Bool) :
    SameTags (ch.store i buf dirty) (ch'.store i buf dirty) := by
  rw [UnixChannel.store, UnixChannel.store, h.cache, h.blockSize]
  exact h.setEntry i _

theorem SameTags.findCachedBlock (h : SameTags ch ch') (block : ℕ) :
    (findCachedBlock ch' block).1 = (findCachedBlock ch block).1 ∧
      SameTags (findCachedBlock ch block).2 (findCachedBlock ch' block).2 := by
  rw [E2fsprogs.findCachedBlock, E2fsprogs.findCachedBlock, h.cache]
  rcases findEntry ch.cache block (List.finRange cacheSize) none none with i | i
  · exact ⟨rfl, h.touch i⟩
  · exact ⟨rfl, h⟩

theorem SameTags.fillBlock (h : SameTags ch ch') (wt : Bool) (block : ℕ) (buf : Block) :
    SameTags (E2fsprogs.fillBlock env wt ch block buf)
      (E2fsprogs.fillBlock env wt ch' block buf) := by
  obtain ⟨hfst, hsnd⟩ := h.findCachedBlock block
  rw [E2fsprogs.fillBlock, E2fsprogs.fillBlock]
  rcases hf : E2fsprogs.findCachedBlock ch block with ⟨i | i, ch₁⟩
  all_goals
    rcases hf' : E2fsprogs.findCachedBlock ch' block with ⟨j, ch₂⟩
    rw [hf, hf'] at hfst hsnd
    dsimp only at hfst hsnd
    subst hfst
  · exact hsnd.store i buf _
  · exact (hsnd.reuseCache i block).store i buf _

/-- Whether a write-through write is safe does not depend on the device. -/
theorem FillsSafely.congr (count : ℕ) : ∀ {block : ℕ} {buf : Block} {ch ch' : UnixChannel},
    FillsSafely env count block buf ch → SameTags ch ch' → FillsSafely env count block buf ch' := by
  induction count with
  | zero => exact fun _ _ => trivial
  | succ count ih =>
    rintro block buf ch ch' ⟨h, hrest⟩ hs
    constructor
    · intro i ch₂ hf
      obtain ⟨hfst, -⟩ := hs.findCachedBlock block
      rw [hf] at hfst
      rw [hs.cache]
      exact h i (findCachedBlock ch block).2 (Prod.ext hfst.symm rfl)
    · rw [hs.blockSize]
      exact ih hrest (hs.fillBlock true block buf)

/-- What a write has to find: while the cache is switched off, the entries in use agree with what
is written over their blocks; a write-through write evicts no dirty entry of its own blocks. -/
structure WriteSafe (env : UnixEnv) (writethrough : Bool) (ch : UnixChannel) (block : ℕ) (count : ℤ)
    (buf : Block) : Prop where
  agrees : ch.noCache = true →
    ch.AgreesWith (ch.location block) buf (transferSize ch.blockSize count)
  fills : writethrough = true → count ≤ writeDirectSize → FillsSafely env count.toNat block buf ch

theorem agreesWith_of_unused (h : ∀ i, (ch.cache i).inUse = false) (pos : ℕ) (data : Block)
    (len : ℕ) : ch.AgreesWith pos data len := by
  intro i hi
  rw [h i] at hi
  cases hi

/-- **A write that succeeds.** -/
theorem unixWriteBlk64_ok (henv : EvictsWell env) (h : Stands ch A) {wt : Bool} {block : ℕ}
    {count : ℤ} {buf : Block} {u : Unit} (hsafe : WriteSafe env wt ch block count buf)
    (hwrite : unixWriteBlk64 env wt ch block count buf = (.ok u, ch')) :
    Stands ch' (memcpy A (ch.location block) buf (transferSize ch.blockSize count)) ∧
      SameShape ch ch' := by
  rw [unixWriteBlk64] at hwrite
  by_cases hno : ch.noCache = true
  · rw [if_pos hno] at hwrite
    obtain ⟨hs, hdev⟩ := rawWrite_ok hwrite
    refine ⟨⟨h.coherent.bypass (hsafe.agrees hno) hs hdev, fun _ => ?_⟩, hs.shape⟩
    rw [hs.cache]
    exact h.clean hno
  · have hno' : ∀ {ch₁}, SameShape ch ch₁ → ¬ch₁.noCache = true := fun hs => by rwa [hs.noCache]
    rw [if_neg hno] at hwrite
    by_cases hlarge : count < 0 ∨ writeDirectSize < count
    · rw [if_pos hlarge] at hwrite
      rcases hf : flushCachedBlocks env true ch with ⟨_ | _, ch₁⟩
      · rw [hf] at hwrite
        cases hwrite
      · rw [hf] at hwrite
        obtain ⟨h₁, hs₁, -, -, hunused⟩ := flushCachedBlocks_true h.coherent hf
        obtain ⟨hs, hdev⟩ := rawWrite_ok hwrite
        have h₂ := h₁.bypass (agreesWith_of_unused (hunused rfl) _ _ _) hs hdev
        rw [hs₁.location, hs₁.blockSize] at h₂
        have hshape := hs₁.trans hs.shape
        exact ⟨⟨h₂, fun hn => absurd hn (hno' hshape)⟩, hshape⟩
    · rw [if_neg hlarge] at hwrite
      rw [transferSize_of_nonneg hlarge]
      cases wt with
      | false =>
        simp only [Bool.false_eq_true, if_false, Prod.mk.injEq] at hwrite
        obtain ⟨-, rfl⟩ := hwrite
        obtain ⟨h₁, hs⟩ := @fillCache_back env henv count.toNat block buf A ch h.coherent
        exact ⟨⟨h₁, fun hn => absurd hn (hno' hs)⟩, hs⟩
      | true =>
        simp only [if_true, Prod.mk.injEq] at hwrite
        obtain ⟨hok, rfl⟩ := hwrite
        -- the device is written first, and then the cache catches up with it
        have htags : SameTags ch (rawWrite env ch block count buf).2 := by
          have := @sameTags_rawWriteBlk env ch .direct block count buf
          rw [rawWrite]
          rcases hr : rawWriteBlk env .direct ch block count buf with ⟨_ | _, ch₁⟩ <;>
            rwa [hr] at this
        have hfills := (hsafe.fills rfl (by omega)).congr _ htags
        rcases hr : rawWrite env ch block count buf with ⟨r, ch₁⟩
        rw [hr] at hok hfills
        dsimp only at hok hfills ⊢
        subst hok
        obtain ⟨hs, hdev⟩ := rawWrite_ok hr
        rw [transferSize_of_nonneg hlarge] at hdev
        obtain ⟨h₂, hs₂⟩ := fillCache_through henv count.toNat (h.coherent.ahead hs hdev) hfills
          fun k hk => by
            rw [hs.blockSize] at hk
            rw [hs.location, memcpy_add hk]
        have hshape := hs.shape.trans hs₂
        exact ⟨⟨h₂, fun hn => absurd hn (hno' hshape)⟩, hshape⟩

/-- **A byte write that succeeds.** -/
theorem unixWriteByte_ok (h : Stands ch A) {offset size : ℕ} {buf : Block} {u : Unit}
    (hwrite : unixWriteByte env ch offset size buf = (.ok u, ch')) :
    Stands ch' (memcpy A (offset + ch.offset) buf size) ∧ SameShape ch ch' ∧
      ∀ i, (ch'.cache i).inUse = false := by
  rw [unixWriteByte] at hwrite
  split_ifs at hwrite with halign
  · cases hwrite
  · rcases hf : flushCachedBlocks env true ch with ⟨_ | _, ch₁⟩
    · rw [hf] at hwrite
      cases hwrite
    · rw [hf] at hwrite
      obtain ⟨h₁, hs₁, -, -, hunused⟩ := flushCachedBlocks_true h.coherent hf
      dsimp only at hwrite
      split_ifs at hwrite
      · cases hwrite
      · cases hwrite
        have hs : SameCache ch₁ { ch₁ with
            transfers := ch₁.transfers + 1,
            dev := memcpy ch₁.dev (offset + ch₁.offset) buf size } :=
          ⟨rfl, rfl, rfl, rfl, rfl⟩
        have h₂ := h₁.bypass (agreesWith_of_unused (hunused rfl) _ _ _) hs rfl
        rw [hs₁.offset] at h₂
        refine ⟨⟨?_, fun _ i hi => ?_⟩, ?_, hunused rfl⟩
        · rw [← hs₁.offset] at h₂ ⊢
          exact h₂
        · exact absurd hi (by rw [hunused rfl i]; exact Bool.false_ne_true)
        · exact hs₁.trans hs.shape

/-! ### The other calls -/

/-- **A flush that succeeds.** -/
theorem unixFlush_ok (h : Stands ch A) {u : Unit} (hflush : unixFlush env ch = (.ok u, ch')) :
    Stands ch' A ∧ SameShape ch ch' ∧ ch'.dev = A := by
  rw [unixFlush] at hflush
  rcases hf : flushCachedBlocks env false ch with ⟨_ | _, ch₁⟩
  · rw [hf] at hflush
    cases hflush
  · rw [hf] at hflush
    obtain ⟨h₁, hs₁, hdev, hclean, -⟩ := flushCachedBlocks_true h.coherent hf
    obtain rfl : { ch₁ with transfers := ch₁.transfers + 1 } = ch' := congrArg Prod.snd hflush
    have hs : SameCache ch₁ { ch₁ with transfers := ch₁.transfers + 1 } := ⟨rfl, rfl, rfl, rfl, rfl⟩
    exact ⟨⟨h₁.sameCache hs rfl, fun _ => hclean⟩, hs₁.trans hs.shape, hdev⟩

/-- **A change of the block size that succeeds.** -/
theorem unixSetBlksize_ok (h : Stands ch A) {blksize : ℕ} {u : Unit}
    (hset : unixSetBlksize env ch blksize = (.ok u, ch')) :
    Stands ch' A ∧ ch'.blockSize = blksize ∧ ch'.offset = ch.offset ∧ ch'.noCache = ch.noCache := by
  rw [unixSetBlksize] at hset
  split_ifs at hset with hsame
  · cases hset
    exact ⟨h, hsame, rfl, rfl⟩
  · rcases hf : flushCachedBlocks env false ch with ⟨_ | _, ch₁⟩
    · rw [hf] at hset
      cases hset
    · rw [hf] at hset
      cases hset
      obtain ⟨h₁, hs₁, hdev, -, -⟩ := flushCachedBlocks_true h.coherent hf
      -- no entry of the new cache is in use
      exact ⟨⟨⟨fun i j hi => Bool.noConfusion hi, fun i hi => Bool.noConfusion hi,
        fun p _ => congrFun hdev p⟩, fun _ i hi => Bool.noConfusion hi⟩, rfl,
          hs₁.offset, hs₁.noCache⟩

end Calls

end E2fsprogs
