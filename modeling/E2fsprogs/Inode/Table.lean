import E2fsprogs.Inode.Cache

/-!
# The inode cache in front of the inode table

What is in the cache is what is in the table, checksums aside, and each call keeps it so, unless a
slot that is in use is filled with an inode whose checksum is wrong: the slot then keeps the label
of the inode it held before.
-/

namespace E2fsprogs

section Table

variable {g : InodeGeometry} {ino : ℕ}

/-! ### Where the inodes are -/

/-- A geometry that `ext2fs_open` lets pass, with inode tables that do not overlap. -/
structure InodeGeometry.Ok (g : InodeGeometry) : Prop where
  blocks : ∃ e, 10 ≤ e ∧ g.blocksize = 2 ^ e
  size : ∃ e, 7 ≤ e ∧ g.inodeSize = 2 ^ e
  le : g.inodeSize ≤ g.blocksize
  perGroup : 0 < g.inodesPerGroup
  count : g.inodesCount ≤ g.inodesPerGroup * g.groupDescCount
  tables : g.inodesPerGroup * g.inodeSize ≤ g.inodeBlocksPerGroup * g.blocksize
  apart : ∀ gr < g.groupDescCount, ∀ gr' < g.groupDescCount, gr ≠ gr' → g.inodeTableLoc gr ≠ 0 →
    g.inodeTableLoc gr' ≠ 0 → g.inodeTableLoc gr + g.inodeBlocksPerGroup ≤ g.inodeTableLoc gr' ∨
      g.inodeTableLoc gr' + g.inodeBlocksPerGroup ≤ g.inodeTableLoc gr

theorem InodeGeometry.Ok.blocksize_ge (hg : g.Ok) : 1024 ≤ g.blocksize := by
  obtain ⟨e, he, heq⟩ := hg.blocks
  rw [heq]
  exact Nat.pow_le_pow_right (n := 2) (by decide) he

theorem InodeGeometry.Ok.inodeSize_ge (hg : g.Ok) : 128 ≤ g.inodeSize := by
  obtain ⟨e, he, heq⟩ := hg.size
  rw [heq]
  exact Nat.pow_le_pow_right (n := 2) (by decide) he

theorem InodeGeometry.Ok.inodeSize_large (hg : g.Ok) (h : 128 < g.inodeSize) :
    256 ≤ g.inodeSize := by
  obtain ⟨e, he, heq⟩ := hg.size
  rw [heq] at h ⊢
  have h8 : 7 < e := (Nat.pow_lt_pow_iff_right (a := 2) (by decide)).mp h
  exact Nat.pow_le_pow_right (n := 2) (by decide) h8

theorem InodeGeometry.Ok.dvd (hg : g.Ok) : g.inodeSize ∣ g.blocksize := by
  obtain ⟨e, -, heq⟩ := hg.blocks
  obtain ⟨f, -, hfeq⟩ := hg.size
  have hle := hg.le
  rw [heq, hfeq] at hle ⊢
  exact pow_dvd_pow 2 ((Nat.pow_le_pow_iff_right (by decide)).mp hle)

/-- An inode number of the file system. -/
def InodeGeometry.Valid (g : InodeGeometry) (ino : ℕ) : Prop := ino ≠ 0 ∧ ino ≤ g.inodesCount

theorem InodeGeometry.Ok.group_lt (hg : g.Ok) (h : g.Valid ino) :
    (ino - 1) / g.inodesPerGroup < g.groupDescCount := by
  rw [Nat.div_lt_iff_lt_mul hg.perGroup, Nat.mul_comm]
  have := hg.count
  have := h.1
  have := h.2
  omega

/-- What `locateInode` finds. -/
theorem locateInode_eq {b o : ℕ} (h : locateInode g ino = .ok (b, o)) :
    g.inodeTableLoc ((ino - 1) / g.inodesPerGroup) ≠ 0 ∧
      b = g.inodeTableLoc ((ino - 1) / g.inodesPerGroup) +
        (ino - 1) % g.inodesPerGroup * g.inodeSize / g.blocksize ∧
      o = (ino - 1) % g.inodesPerGroup * g.inodeSize % g.blocksize := by
  rw [locateInode] at h
  split at h
  · cases h
  · next hne =>
    split at h
    · cases h
    · have heq := Except.ok.inj h
      exact ⟨hne, (congrArg Prod.fst heq).symm, (congrArg Prod.snd heq).symm⟩

/-- An inode is inside its block. -/
theorem locateInode_fits (hg : g.Ok) {b o : ℕ} (h : locateInode g ino = .ok (b, o)) :
    b ≠ 0 ∧ g.inodeSize ∣ o ∧ o + g.inodeSize ≤ g.blocksize := by
  obtain ⟨hne, hb, ho⟩ := locateInode_eq h
  have hbs := hg.blocksize_ge
  have hdvd : g.inodeSize ∣ o := by
    rw [ho]
    exact (Nat.dvd_mod_iff hg.dvd).mpr (Nat.dvd_mul_left _ _)
  refine ⟨fun h0 => hne (Nat.eq_zero_of_add_eq_zero_right (hb.symm.trans h0)), hdvd, ?_⟩
  have hlt : o < g.blocksize := by
    rw [ho]
    exact Nat.mod_lt _ (by omega)
  obtain ⟨q, hq⟩ := hdvd
  obtain ⟨r, hr⟩ := hg.dvd
  rw [hq, hr] at hlt ⊢
  have hqr : q < r := Nat.lt_of_mul_lt_mul_left hlt
  calc g.inodeSize * q + g.inodeSize = g.inodeSize * (q + 1) := (Nat.mul_succ _ _).symm
    _ ≤ g.inodeSize * r := Nat.mul_le_mul_left _ hqr

/-- **Two inodes have no byte in common.** -/
theorem locateInode_apart (hg : g.Ok) {ino' b o b' o' : ℕ} (hv : g.Valid ino) (hv' : g.Valid ino')
    (hne : ino ≠ ino')
    (h : locateInode g ino = .ok (b, o)) (h' : locateInode g ino' = .ok (b', o')) :
    b ≠ b' ∨ o + g.inodeSize ≤ o' ∨ o' + g.inodeSize ≤ o := by
  obtain ⟨hz, hb, ho⟩ := locateInode_eq h
  obtain ⟨hz', hb', ho'⟩ := locateInode_eq h'
  have hbs : 0 < g.blocksize := lt_of_lt_of_le (by decide) hg.blocksize_ge
  have hisize : 0 < g.inodeSize := lt_of_lt_of_le (by decide) hg.inodeSize_ge
  -- the block is inside the table of the group
  have hin : ∀ m, m % g.inodesPerGroup * g.inodeSize / g.blocksize < g.inodeBlocksPerGroup := by
    intro m
    rw [Nat.div_lt_iff_lt_mul hbs]
    refine lt_of_lt_of_le ?_ hg.tables
    exact Nat.mul_lt_mul_of_pos_right (Nat.mod_lt _ hg.perGroup) hisize
  have h1 := hin (ino - 1)
  have h2 := hin (ino' - 1)
  clear hin
  generalize hx : (ino - 1) % g.inodesPerGroup * g.inodeSize / g.blocksize = x at hb h1
  generalize hx' : (ino' - 1) % g.inodesPerGroup * g.inodeSize / g.blocksize = x' at hb' h2
  by_cases hgr : (ino - 1) / g.inodesPerGroup = (ino' - 1) / g.inodesPerGroup
  · rw [← hgr] at hb'
    by_contra hcon
    simp only [not_or, not_le, not_not] at hcon
    obtain ⟨heq, hlt, hlt'⟩ := hcon
    -- the offsets in the table are equal, so the inodes are
    have hoo : o = o' := by
      obtain ⟨q, hq⟩ := (locateInode_fits hg h).2.1
      obtain ⟨r, hr⟩ := (locateInode_fits hg h').2.1
      rw [hq, hr, ← Nat.mul_succ] at hlt hlt'
      have hqr := Nat.lt_of_mul_lt_mul_left hlt
      have hrq := Nat.lt_of_mul_lt_mul_left hlt'
      rw [hq, hr, show q = r by omega]
    have hoff : (ino - 1) % g.inodesPerGroup * g.inodeSize =
        (ino' - 1) % g.inodesPerGroup * g.inodeSize := by
      rw [← Nat.div_add_mod ((ino - 1) % g.inodesPerGroup * g.inodeSize) g.blocksize,
        ← Nat.div_add_mod ((ino' - 1) % g.inodesPerGroup * g.inodeSize) g.blocksize, ← ho,
        ← ho', hoo, hx, hx', show x = x' by omega]
    have hmod := Nat.eq_of_mul_eq_mul_right hisize hoff
    have heq' : ino - 1 = ino' - 1 := by
      rw [← Nat.div_add_mod (ino - 1) g.inodesPerGroup,
        ← Nat.div_add_mod (ino' - 1) g.inodesPerGroup, hgr, hmod]
    have := hv.1
    have := hv'.1
    omega
  · have := hg.apart _ (hg.group_lt hv) _ (hg.group_lt hv') hgr hz hz'
    omega

/-! ### Checksums -/

/-- A byte of one of the two checksum fields. -/
def CsumByte (k : ℕ) : Prop := (124 ≤ k ∧ k < 126) ∨ (130 ≤ k ∧ k < 132)

theorem inodeCsumSet_of_not_csumByte {k : ℕ} (h : ¬CsumByte k) (b : Block) :
    inodeCsumSet g ino b k = b k := by
  rw [CsumByte, not_or] at h
  rw [inodeCsumSet]
  split
  · rfl
  · dsimp only
    split
    · rw [putLe_of_outside (by omega), putLe_of_outside (by omega)]
    · exact putLe_of_outside (by omega)

theorem hasChecksumHi_congr (hg : g.Ok) {b b' : Block} (h : ∀ k < g.inodeSize, b k = b' k) :
    hasChecksumHi g b = hasChecksumHi g b' := by
  rw [hasChecksumHi, hasChecksumHi]
  by_cases hlarge : 128 < g.inodeSize
  · have := hg.inodeSize_large hlarge
    rw [getLe_congr (c := b') fun i _ hi => h i (by omega)]
  · rw [decide_eq_false hlarge, Bool.false_and, Bool.false_and]

/-- A checksum is of the bytes of the inode. -/
theorem inodeCsum_congr (hg : g.Ok) {b b' : Block} (h : ∀ k < g.inodeSize, b k = b' k) :
    inodeCsum g ino b = inodeCsum g ino b' := by
  have hsize := hg.inodeSize_ge
  have hput : ∀ {c c' : Block} {o : ℕ}, (∀ k < g.inodeSize, c k = c' k) →
      ∀ k < g.inodeSize, putLe c o 2 0 k = putLe c' o 2 0 k := by
    intro c c' o hc k hk
    rw [putLe, putLe, hc k hk]
  rw [inodeCsum, inodeCsum, hasChecksumHi_congr hg h,
    bytesAt_congr (c := b') fun i _ hi => h i (by omega)]
  split
  · rw [bytesOf_congr (hput (hput h))]
  · rw [bytesOf_congr (hput h)]

theorem inodeCsumVerify_congr (hg : g.Ok) {b b' : Block} (h : ∀ k < g.inodeSize, b k = b' k) :
    inodeCsumVerify g ino b = inodeCsumVerify g ino b' := by
  have hsize := hg.inodeSize_ge
  rw [inodeCsumVerify, inodeCsumVerify, inodeCsum_congr hg h, hasChecksumHi_congr hg h,
    getLe_congr (b := b) (c := b') (o := 124) fun i _ hi => h i (by omega),
    bytesOf_congr (b := b) (c := b') (n := 128) fun i hi => h i (by omega)]
  split
  · rfl
  · split
    · next hhi =>
      have hlarge : 128 < g.inodeSize := by
        rw [hasChecksumHi, Bool.and_eq_true, decide_eq_true_eq] at hhi
        exact hhi.1
      have := hg.inodeSize_large hlarge
      rw [getLe_congr (b := b) (c := b') (o := 130) fun i _ hi => h i (by omega)]
    · rfl

/-! ### The invariant -/

/-- The bytes of an inode in its table. -/
def onDisk (g : InodeGeometry) (disk : ℕ → Block) (ino : ℕ) : Block :=
  match locateInode g ino with
  | .ok (b, o) => fromPos (disk b) o
  | .error _ => fun _ => 0

theorem onDisk_eq {disk : ℕ → Block} {b o : ℕ} (h : locateInode g ino = .ok (b, o)) :
    onDisk g disk ino = fromPos (disk b) o := by
  rw [onDisk, h]

/-- Two inodes are equal, checksums aside. -/
def SameInode (g : InodeGeometry) (b b' : Block) : Prop :=
  ∀ k < g.inodeSize, ¬CsumByte k → b k = b' k

/-- **The cache agrees with the device**: the buffer with the block it holds, each labelled slot
with the inode, and no inode is in two slots. -/
structure CacheOk (g : InodeGeometry) (disk : ℕ → Block) (c : Icache) : Prop where
  slot : c.cacheSlot < c.cacheSize
  buffer : c.bufferBlk ≠ 0 → c.buffer = disk c.bufferBlk
  located : ∀ i < c.cacheSize, c.ino i ≠ 0 → g.Valid (c.ino i) ∧
    ∃ p, locateInode g (c.ino i) = .ok p
  same : ∀ i < c.cacheSize, c.ino i ≠ 0 → SameInode g (c.inode i) (onDisk g disk (c.ino i))
  unique : ∀ i < c.cacheSize, ∀ j < c.cacheSize, c.ino i = c.ino j → c.ino i ≠ 0 → i = j

theorem cacheOk_create (disk : ℕ → Block) : CacheOk g disk (createInodeCache 4) where
  slot := by decide
  buffer := fun h => absurd rfl h
  located := fun _ _ h => absurd rfl h
  same := fun _ _ h => absurd rfl h
  unique := fun _ _ _ _ _ h => absurd rfl h

variable {disk : ℕ → Block} {c : Icache}

/-- What `Icache.find` finds. -/
theorem Icache.find_some {i : ℕ} (h : c.find ino = some i) : i < c.cacheSize ∧ c.ino i = ino := by
  have hmem := List.mem_of_find?_eq_some h
  have hp := List.find?_some h
  exact ⟨List.mem_range.mp hmem, by simpa using hp⟩

theorem Icache.find_none (h : c.find ino = none) {i : ℕ} (hi : i < c.cacheSize) :
    c.ino i ≠ ino := by
  have := List.find?_eq_none.mp h i (List.mem_range.mpr hi)
  simpa using this

/-- A block in the buffer. -/
theorem Icache.fill_buffer (h : c.bufferBlk ≠ 0 → c.buffer = disk c.bufferBlk) {b : ℕ}
    (hb : b ≠ 0) :
    (c.fill disk b).buffer = disk b ∧ (c.fill disk b).bufferBlk = b := by
  rw [Icache.fill]
  split
  · exact ⟨rfl, rfl⟩
  · next heq =>
    rw [not_not] at heq
    exact ⟨heq ▸ h (heq ▸ hb), heq.symm⟩

theorem Icache.fill_slots (c : Icache) (disk : ℕ → Block) (b : ℕ) :
    (c.fill disk b).ino = c.ino ∧ (c.fill disk b).inode = c.inode ∧
    (c.fill disk b).cacheSize = c.cacheSize ∧
      (c.fill disk b).cacheSlot = c.cacheSlot := by
  rw [Icache.fill]
  split <;> exact ⟨rfl, rfl, rfl, rfl⟩

theorem CacheOk.fill (h : CacheOk g disk c) (b : ℕ) : CacheOk g disk (c.fill disk b) := by
  rw [Icache.fill]
  split
  · exact ⟨h.slot, fun _ => rfl, h.located, h.same, h.unique⟩
  · exact h

/-- An inode is copied in one round. -/
theorem copyFromTable_eq (hg : g.Ok) {b o : ℕ} (h : locateInode g ino = .ok (b, o)) (dst : Block) :
    copyFromTable g disk g.inodeSize c b o g.inodeSize 0 dst =
      (c.fill disk b, memcpy dst 0 (fromPos (c.fill disk b).buffer o) g.inodeSize) := by
  have hsize := hg.inodeSize_ge
  have hfits := (locateInode_fits hg h).2.2
  have hlen : copyLen g o g.inodeSize = g.inodeSize := if_neg (by omega)
  obtain ⟨n, hn⟩ : ∃ n, g.inodeSize = n + 1 + 1 := ⟨g.inodeSize - 2, by omega⟩
  generalize hN : g.inodeSize = N at hn
  rw [show copyFromTable g disk N = copyFromTable g disk (n + 1 + 1) by rw [hn], copyFromTable,
    if_neg (by omega)]
  dsimp only
  rw [← hN, hlen, Nat.sub_self, copyFromTable, if_pos rfl]

theorem copyToTable_eq (hg : g.Ok) {b o : ℕ} (h : locateInode g ino = .ok (b, o)) (src : Block) :
    copyToTable g src g.inodeSize disk c b o g.inodeSize 0 =
      (Function.update disk b (memcpy (c.fill disk b).buffer o src g.inodeSize),
        { c.fill disk b with buffer := memcpy (c.fill disk b).buffer o src g.inodeSize }) := by
  have hsize := hg.inodeSize_ge
  have hfits := (locateInode_fits hg h).2.2
  have hlen : copyLen g o g.inodeSize = g.inodeSize := if_neg (by omega)
  have hsrc : fromPos src 0 = src := by
    funext k
    exact congrArg src (Nat.zero_add k)
  obtain ⟨n, hn⟩ : ∃ n, g.inodeSize = n + 1 + 1 := ⟨g.inodeSize - 2, by omega⟩
  generalize hN : g.inodeSize = N at hn
  rw [show copyToTable g src N = copyToTable g src (n + 1 + 1) by rw [hn], copyToTable,
    if_neg (by omega)]
  dsimp only
  rw [← hN, hlen, Nat.sub_self, copyToTable, if_pos rfl, hsrc]

/-! ### Reading -/

variable {st : InodeState} {inode : Block} {bufsize : ℕ} {nocsum : Bool}

/-- **The read that goes wrong**: the checksum of the inode is wrong, and the slot that is filled
with it keeps the label of another inode. -/
def Spoils (g : InodeGeometry) (st : InodeState) (ino : ℕ) : Prop :=
  g.Valid ino ∧ st.cache.find ino = none ∧ (∃ p, locateInode g ino = .ok p) ∧
    inodeCsumVerify g ino (onDisk g st.disk ino) = false ∧ st.cache.ino st.cache.cacheSlot ≠ 0

/-- The result codes with which an inode has been copied to the caller. -/
def Copied (e : Option InodeErr) : Prop := e = none ∨ e = some .inodeCsumInvalid

/-- **What a read does**: the caller has the inode of the table, and the cache still agrees with the
device. -/
structure ReadSpec (g : InodeGeometry) (st : InodeState) (ino : ℕ) (inode : Block) (bufsize : ℕ)
    (nocsum : Bool) (r : Option InodeErr × Block × InodeState) : Prop where
  disk : r.2.2.disk = st.disk
  cache : CacheOk g st.disk r.2.2.cache
  located : Copied r.1 ↔ g.Valid ino ∧ ∃ p, locateInode g ino = .ok p
  nocsum : nocsum = true → Copied r.1 → r.1 = none
  bytes : Copied r.1 → ∀ k < Nat.min bufsize g.inodeSize, ¬CsumByte k →
    r.2.1 k = onDisk g st.disk ino k
  buffer : ¬Copied r.1 → r.2.1 = inode

theorem not_copied {e : InodeErr} (h : e ≠ .inodeCsumInvalid) : ¬Copied (some e) := by
  rintro (h0 | h0)
  · cases h0
  · exact h (Option.some.inj h0)

/-- The slot that is filled, whatever it held. -/
theorem readSlot_eq (hg : g.Ok) (h : CacheOk g disk c) {b o : ℕ}
    (hloc : locateInode g ino = .ok (b, o)) {k : ℕ} (hk : k < g.inodeSize) (dst : Block) :
    memcpy dst 0 (fromPos (c.fill disk b).buffer o) g.inodeSize k = onDisk g disk ino k := by
  rw [memcpy_of_inside (Nat.zero_le k) (by omega),
    (Icache.fill_buffer h.buffer (locateInode_fits hg hloc).1).1, onDisk_eq hloc, Nat.sub_zero]

/-- A slot with a new label. -/
theorem CacheOk.label (h : CacheOk g disk c) (hv : g.Valid ino)
    (hloc : ∃ p, locateInode g ino = .ok p)
    (hfind : c.find ino = none) {b : Block} (hb : SameInode g b (onDisk g disk ino)) :
    CacheOk g disk { c with
      inode := Function.update c.inode c.cacheSlot b
      ino := Function.update c.ino c.cacheSlot ino
      cacheSlot := (c.cacheSlot + 1) % c.cacheSize } := by
  have hsize : 0 < c.cacheSize := lt_of_le_of_lt (Nat.zero_le _) h.slot
  refine ⟨Nat.mod_lt _ hsize, h.buffer, fun i hi hne => ?_, fun i hi hne => ?_,
    fun i hi j hj heq hne => ?_⟩
  · by_cases his : i = c.cacheSlot
    · simp only [his, Function.update_self]
      exact ⟨hv, hloc⟩
    · simp only [Function.update_of_ne his] at hne ⊢
      exact h.located i hi hne
  · by_cases his : i = c.cacheSlot
    · simp only [his, Function.update_self]
      exact hb
    · simp only [Function.update_of_ne his] at hne ⊢
      exact h.same i hi hne
  · by_cases his : i = c.cacheSlot
    · by_cases hjs : j = c.cacheSlot
      · rw [his, hjs]
      · simp only [his, Function.update_self, Function.update_of_ne hjs] at heq
        exact absurd heq.symm (Icache.find_none hfind hj)
    · by_cases hjs : j = c.cacheSlot
      · simp only [hjs, Function.update_self, Function.update_of_ne his] at heq
        exact absurd heq (Icache.find_none hfind hi)
      · simp only [Function.update_of_ne his, Function.update_of_ne hjs] at heq hne
        exact h.unique i hi j hj heq hne

/-- A slot that has no label may be filled with anything. -/
theorem CacheOk.unlabelled (h : CacheOk g disk c) (hslot : c.ino c.cacheSlot = 0) (b : Block) :
    CacheOk g disk { c with inode := Function.update c.inode c.cacheSlot b } := by
  refine ⟨h.slot, h.buffer, h.located, fun i hi hne => ?_, h.unique⟩
  have his : i ≠ c.cacheSlot := fun his => hne (his ▸ hslot)
  simp only [Function.update_of_ne his]
  exact h.same i hi hne

/-- **A read from the table.** -/
theorem readUncached_spec (hg : g.Ok) (h : CacheOk g st.disk st.cache) (hv : g.Valid ino)
    (hfind : st.cache.find ino = none) (hs : ¬Spoils g st ino) :
    ReadSpec g st ino inode bufsize nocsum
      (readUncached g st st.cache ino inode bufsize nocsum) := by
  have hgroup := hg.group_lt hv
  rw [readUncached, if_neg (by omega)]
  cases hloc : locateInode g ino with
  | error e =>
    -- a failed lookup is no checksum error
    have hne : e ≠ .inodeCsumInvalid := by
      rw [locateInode] at hloc
      rintro rfl
      split at hloc
      · cases hloc
      · split at hloc <;> cases hloc
    refine ⟨rfl, h, iff_of_false (not_copied hne) ?_, fun _ hc => absurd hc (not_copied hne),
      fun hc => absurd hc (not_copied hne), fun _ => rfl⟩
    rintro ⟨-, p, hp⟩
    rw [hloc] at hp
    cases hp
  | ok p =>
    obtain ⟨b, o⟩ := p
    dsimp only
    rw [copyFromTable_eq hg hloc]
    have hfill := h.fill b
    obtain ⟨hino, hinode, hsize, hslot⟩ := Icache.fill_slots st.cache st.disk b
    generalize hc' : st.cache.fill st.disk b = c' at *
    obtain ⟨w, hw⟩ : ∃ w, w = memcpy (st.cache.inode st.cache.cacheSlot) 0
        (fromPos c'.buffer o) g.inodeSize :=
      ⟨_, rfl⟩
    have hbytes : ∀ k < g.inodeSize, w k = onDisk g st.disk ino k := by
      intro k hk
      rw [hw, ← hc']
      exact readSlot_eq hg h hloc hk _
    have hfind' : c'.find ino = none := by
      rw [Icache.find, hino, hsize]
      exact hfind
    have hverify : inodeCsumVerify g ino w = inodeCsumVerify g ino (onDisk g st.disk ino) :=
      inodeCsumVerify_congr hg hbytes
    dsimp only
    rw [← hw, ← hslot]
    have hcopied : ∀ x y : Bool, Copied (if (!g.ignoreCsumErrors && x && y) = true then
        some InodeErr.inodeCsumInvalid else none) := by
      intro x y
      split
      · exact Or.inr rfl
      · exact Or.inl rfl
    refine ⟨rfl, ?_, iff_of_true (hcopied _ _) ⟨hv, _, hloc⟩, ?_, fun _ k hk _ => ?_,
      fun hc => absurd (hcopied _ _) hc⟩
    -- a slot is labelled with the inode only where its checksum holds
    · show CacheOk g st.disk (if inodeCsumVerify g ino w = true then _ else _)
      split
      · exact hfill.label hv ⟨_, hloc⟩ hfind' fun k hk _ => hbytes k hk
      · next hbad =>
        refine hfill.unlabelled ?_ _
        by_contra hne
        refine hs ⟨hv, hfind, ⟨_, hloc⟩, ?_, ?_⟩
        · rw [← hverify]
          simpa using hbad
        · rw [← hino, ← hslot]
          exact hne
    · rintro rfl -
      simp
    · have hlen : Nat.min bufsize g.inodeSize ≤ g.inodeSize := Nat.min_le_right _ _
      show memcpy inode 0 w _ k = _
      rw [memcpy_of_inside (Nat.zero_le k) (by omega), Nat.sub_zero]
      exact hbytes k (by omega)

/-- **A read.** -/
theorem readInode2_spec (hg : g.Ok) (h : CacheOk g st.disk st.cache) (hs : ¬Spoils g st ino) :
    ReadSpec g st ino inode bufsize nocsum (readInode2 g st ino inode bufsize nocsum) := by
  have hbs := hg.blocksize_ge
  rw [readInode2, if_neg (by omega)]
  split
  · next hbad =>
    have hne : InodeErr.badInodeNum ≠ .inodeCsumInvalid := nofun
    refine ⟨rfl, h, iff_of_false (not_copied hne) ?_, fun _ hc => absurd hc (not_copied hne),
      fun hc => absurd hc (not_copied hne), fun _ => rfl⟩
    rintro ⟨⟨h1, h2⟩, -⟩
    omega
  · next hgood =>
    have hv : g.Valid ino := ⟨by tauto, by omega⟩
    cases hfind : st.cache.find ino with
    | none => exact readUncached_spec hg h hv hfind hs
    | some i =>
      obtain ⟨hi, hino⟩ := Icache.find_some hfind
      have hne : st.cache.ino i ≠ 0 := hino ▸ hv.1
      refine ⟨rfl, h, iff_of_true (Or.inl rfl) ⟨hv, hino ▸ (h.located i hi hne).2⟩, fun _ _ => rfl,
        fun _ k hk hcsum => ?_, fun hc => absurd (Or.inl rfl) hc⟩
      have hlen : Nat.min bufsize g.inodeSize ≤ g.inodeSize := Nat.min_le_right _ _
      show memcpy inode 0 (st.cache.inode i) _ k = _
      rw [memcpy_of_inside (Nat.zero_le k) (by omega), Nat.sub_zero,
        h.same i hi hne k (by omega) hcsum, hino]

/-! ### Writing -/

/-- The table after an inode has been written. -/
def wroteInode (g : InodeGeometry) (disk : ℕ → Block) (b o : ℕ) (w : Block) : ℕ → Block :=
  Function.update disk b (memcpy (disk b) o w g.inodeSize)

theorem onDisk_wroteInode {b o : ℕ} (hloc : locateInode g ino = .ok (b, o)) (w : Block) {k : ℕ}
    (hk : k < g.inodeSize) : onDisk g (wroteInode g disk b o w) ino k = w k := by
  rw [onDisk_eq hloc, fromPos, wroteInode, Function.update_self, memcpy_add hk]

theorem onDisk_wroteInode_of_ne (hg : g.Ok) {ino' b o : ℕ} (hv : g.Valid ino) (hv' : g.Valid ino')
    (hne : ino' ≠ ino) (hloc : locateInode g ino = .ok (b, o)) (w : Block) {k : ℕ}
    (hk : k < g.inodeSize) :
    onDisk g (wroteInode g disk b o w) ino' k = onDisk g disk ino' k := by
  rw [onDisk, onDisk]
  cases hloc' : locateInode g ino' with
  | error e => rfl
  | ok p =>
    obtain ⟨b', o'⟩ := p
    show wroteInode g disk b o w b' (o' + k) = disk b' (o' + k)
    by_cases hb : b' = b
    · rw [hb, wroteInode, Function.update_self]
      refine memcpy_of_outside ?_
      rcases locateInode_apart hg hv' hv hne hloc' hloc with h | h | h
      · exact absurd hb h
      · exact Or.inl (by omega)
      · exact Or.inr (by omega)
    · rw [wroteInode, Function.update_of_ne hb]

/-- The cached copy of an inode that is not cached. -/
theorem Icache.store_of_none (h : c.find ino = none) (inode : Block) (len : ℕ) :
    c.store ino inode len = c := by
  rw [Icache.store, h]

theorem Icache.store_zero (c : Icache) (ino : ℕ) (inode : Block) : c.store ino inode 0 = c := by
  rw [Icache.store]
  split
  · rw [memcpy_zero, Function.update_eq_self]
  · rfl

theorem Icache.store_fields (c : Icache) (ino : ℕ) (inode : Block) (len : ℕ) :
    (c.store ino inode len).ino = c.ino ∧ (c.store ino inode len).cacheSize = c.cacheSize ∧
      (c.store ino inode len).cacheSlot = c.cacheSlot ∧ (c.store ino inode len).buffer = c.buffer ∧
      (c.store ino inode len).bufferBlk = c.bufferBlk := by
  rw [Icache.store]
  split <;> exact ⟨rfl, rfl, rfl, rfl, rfl⟩

theorem CacheOk.store_inode (h : CacheOk g disk c) (inode : Block) (len : ℕ) {i : ℕ}
    (hi : i < c.cacheSize) (hne : c.ino i ≠ 0) : (c.store ino inode len).inode i =
      if c.ino i = ino then memcpy (c.inode i) 0 inode len else c.inode i := by
  rw [Icache.store]
  cases hfind : c.find ino with
  | none => rw [if_neg (Icache.find_none hfind hi)]
  | some j =>
    obtain ⟨hj, hino⟩ := Icache.find_some hfind
    by_cases hij : i = j
    · rw [hij, if_pos hino]
      exact Function.update_self _ _ _
    · have hlabel : c.ino i ≠ ino := fun heq => hij (h.unique i hi j hj (heq.trans hino.symm) hne)
      rw [if_neg hlabel]
      exact Function.update_of_ne hij _ _

/-- **A write to the table**, of what is also put in the cached copy. -/
theorem CacheOk.write (hg : g.Ok) (h : CacheOk g disk c) (hv : g.Valid ino)
    {b o len : ℕ} {w : Block} (hloc : locateInode g ino = .ok (b, o))
    (hw : SameInode g w (memcpy (onDisk g disk ino) 0 inode len)) :
    CacheOk g (wroteInode g disk b o w)
      { (c.store ino inode len).fill disk b with
        buffer := memcpy ((c.store ino inode len).fill disk b).buffer o w g.inodeSize } := by
  obtain ⟨hino, hsize, hslot, hbuf, hblk⟩ := Icache.store_fields c ino inode len
  have hb := (locateInode_fits hg hloc).1
  obtain ⟨hfbuf, hfblk⟩ := Icache.fill_buffer (c := c.store ino inode len)
    (by rw [hbuf, hblk]; exact h.buffer) hb
  obtain ⟨hfino, hfinode, hfsize, hfslot⟩ := Icache.fill_slots (c.store ino inode len) disk b
  refine ⟨?_, fun _ => ?_, fun i hi hne => ?_, fun i hi hne => ?_, fun i hi j hj heq hne => ?_⟩
  · dsimp only
    rw [hfslot, hfsize, hslot, hsize]
    exact h.slot
  · dsimp only
    rw [hfbuf, hfblk, wroteInode, Function.update_self]
  · dsimp only at hi hne ⊢
    rw [hfsize, hsize] at hi
    rw [hfino, hino] at hne ⊢
    exact h.located i hi hne
  · dsimp only at hi hne ⊢
    rw [hfsize, hsize] at hi
    rw [hfino, hino] at hne ⊢
    rw [hfinode, h.store_inode inode len hi hne]
    intro k hk hcsum
    have hold := h.same i hi hne k hk hcsum
    split
    · next heq =>
      rw [heq, onDisk_wroteInode hloc w hk, hw k hk hcsum]
      by_cases hlen : k < len
      · rw [memcpy_of_inside (Nat.zero_le k) (by omega),
          memcpy_of_inside (Nat.zero_le k) (by omega)]
      · rw [memcpy_of_outside (by omega), memcpy_of_outside (by omega), hold, heq]
    · next hneq => rw [onDisk_wroteInode_of_ne hg hv (h.located i hi hne).1 hneq hloc w hk, hold]
  · dsimp only at hi hj heq hne
    rw [hfsize, hsize] at hi hj
    rw [hfino, hino] at heq hne
    exact h.unique i hi j hj heq hne

/-- What a device may have changed in, when an inode has been written. -/
def OnlyInode (g : InodeGeometry) (ino bufsize : ℕ) (disk disk' : ℕ → Block) : Prop :=
  ∀ b p, disk' b p ≠ disk b p →
    ∃ o k, locateInode g ino = .ok (b, o) ∧ p = o + k ∧ k < g.inodeSize ∧ (k < bufsize ∨ CsumByte k)

/-- **What a write does.** -/
structure WriteSpec (g : InodeGeometry) (st : InodeState) (ino : ℕ) (inode : Block) (bufsize : ℕ)
    (r : Option InodeErr × InodeState) : Prop where
  cache : CacheOk g r.2.disk r.2.cache
  done : r.1 = none ↔ g.Valid ino ∧ (∃ p, locateInode g ino = .ok p) ∧ g.rw = true
  only : OnlyInode g ino bufsize st.disk r.2.disk
  bytes : r.1 = none → SameInode g (onDisk g r.2.disk ino)
    (memcpy (onDisk g st.disk ino) 0 inode (Nat.min bufsize g.inodeSize))
  others : ∀ ino', g.Valid ino' → ino' ≠ ino →
    SameInode g (onDisk g r.2.disk ino') (onDisk g st.disk ino')
  failed : r.1 ≠ none → r.2.disk = st.disk

/-- A write that fails, with a cache that still agrees with the device. -/
theorem writeSpec_of_failed {e : InodeErr} {st' : InodeState} (hdisk : st'.disk = st.disk)
    (hc : CacheOk g st.disk st'.cache)
    (hnot : ¬(g.Valid ino ∧ (∃ p, locateInode g ino = .ok p) ∧ g.rw = true)) :
    WriteSpec g st ino inode bufsize (some e, st') where
  cache := hdisk ▸ hc
  done := iff_of_false nofun hnot
  only := fun b p hne => absurd (by rw [hdisk]) hne
  bytes := nofun
  others := fun ino' _ _ k _ _ => by rw [hdisk]
  failed := fun _ => hdisk

/-- **The write that does no harm**: if it has to read the inode first, that read does none; and on
a device that is only read, no cached copy is changed. -/
def HarmlessWrite (g : InodeGeometry) (st : InodeState) (ino bufsize : ℕ) : Prop :=
  (bufsize < g.inodeSize → ¬Spoils g st ino) ∧
    (g.rw = true ∨ bufsize = 0 ∨ ¬g.Valid ino ∨ (st.cache.find ino = none ∧
      (bufsize < g.inodeSize → (∃ p, locateInode g ino = .ok p) →
        inodeCsumVerify g ino (onDisk g st.disk ino) = false)))

/-- The inode that is to be merged with what is written. -/
theorem preRead_spec (hg : g.Ok) (h : CacheOk g st.disk st.cache) (hv : g.Valid ino)
    (hs : bufsize < g.inodeSize → ¬Spoils g st ino) {r : Option InodeErr × Block × InodeState}
    (hr : r = if bufsize < g.inodeSize then readInode2 g st ino (fun _ => 0) g.inodeSize true
      else (none, (fun _ => 0), st)) :
    r.2.2.disk = st.disk ∧ CacheOk g st.disk r.2.2.cache ∧
      (r.1 ≠ none → ¬∃ p, locateInode g ino = .ok p) ∧
      (r.1 = none → ∀ k < g.inodeSize, bufsize ≤ k → ¬CsumByte k →
        r.2.1 k = onDisk g st.disk ino k) := by
  split at hr
  · next hlt =>
    have hspec := @readInode2_spec g _ _ (fun _ => 0) g.inodeSize true hg h (hs hlt)
    rw [← hr] at hspec
    refine ⟨hspec.disk, hspec.cache, fun hne hloc => ?_, fun hnone k hk _ hcsum => ?_⟩
    · exact hne (hspec.nocsum rfl (hspec.located.mpr ⟨hv, hloc⟩))
    · exact hspec.bytes (Or.inl hnone) k (Nat.lt_min.mpr ⟨hk, hk⟩) hcsum
  · next hge =>
    rw [hr]
    exact ⟨rfl, h, fun hne => absurd rfl hne, fun _ k hk hk' => by omega⟩

/-- On a read-only device, the labels after the inode has been read. -/
theorem preRead_find (hg : g.Ok) (h : CacheOk g st.disk st.cache) (hv : g.Valid ino)
    (hfind : st.cache.find ino = none)
    (hbad : bufsize < g.inodeSize → (∃ p, locateInode g ino = .ok p) →
      inodeCsumVerify g ino (onDisk g st.disk ino) = false)
      {r : Option InodeErr × Block × InodeState}
    (hr : r = if bufsize < g.inodeSize then readInode2 g st ino (fun _ => 0) g.inodeSize true
      else (none, (fun _ => 0), st)) :
    r.2.2.cache.find ino = none := by
  split at hr
  · next hlt =>
    have hbs := hg.blocksize_ge
    have hvalid : ¬(ino = 0 ∨ g.inodesCount < ino) := by
      rintro (h0 | h0)
      · exact hv.1 h0
      · exact absurd hv.2 (by omega)
    have hgroup := hg.group_lt hv
    rw [readInode2, if_neg (by omega), if_neg hvalid, hfind] at hr
    dsimp only at hr
    rw [readUncached, if_neg (by omega)] at hr
    cases hloc : locateInode g ino with
    | error e =>
      rw [hloc] at hr
      rw [hr]
      exact hfind
    | ok p =>
      obtain ⟨b, o⟩ := p
      rw [hloc] at hr
      dsimp only at hr
      rw [copyFromTable_eq hg hloc] at hr
      obtain ⟨hino, hinode, hsize, hslot⟩ := Icache.fill_slots st.cache st.disk b
      have hverify := (@inodeCsumVerify_congr g ino hg _ _
        fun k hk => readSlot_eq hg h hloc hk (st.cache.inode st.cache.cacheSlot)).trans
          (hbad hlt ⟨_, hloc⟩)
      rw [hverify] at hr
      rw [hr]
      show List.find? _ (List.range (st.cache.fill st.disk b).cacheSize) = none
      rw [hsize]
      show List.find? (fun i => (st.cache.fill st.disk b).ino i == ino) _ = none
      rw [hino]
      exact hfind
  · rw [hr]
    exact hfind

/-- What is written is the inode on the device with the bytes of the caller in front. -/
theorem sameInode_merged {w inode' : Block} {len : ℕ} (hlen : len = Nat.min bufsize g.inodeSize)
    (hw : ∀ k < g.inodeSize, bufsize ≤ k → ¬CsumByte k → w k = inode' k) :
    SameInode g (if nocsum = true then memcpy w 0 inode len
      else inodeCsumSet g ino (memcpy w 0 inode len))
      (memcpy inode' 0 inode len) := by
  intro k hk hcsum
  have hplain : (if nocsum = true then memcpy w 0 inode len
    else inodeCsumSet g ino (memcpy w 0 inode len)) k =
      memcpy w 0 inode len k := by
    split
    · rfl
    · exact inodeCsumSet_of_not_csumByte hcsum _
  rw [hplain]
  by_cases hkl : k < len
  · rw [memcpy_of_inside (Nat.zero_le k) (by omega), memcpy_of_inside (Nat.zero_le k) (by omega)]
  · have hbuf : bufsize ≤ k := by
      by_contra hlt
      refine hkl ?_
      rw [hlen]
      exact Nat.lt_min.mpr ⟨by omega, hk⟩
    rw [memcpy_of_outside (by omega), memcpy_of_outside (by omega)]
    exact hw k hk hbuf hcsum

/-- A write that gets as far as the table. -/
theorem writeSpec_of_written (hg : g.Ok) (hv : g.Valid ino) (hrw : g.rw = true)
    {b o len : ℕ} {w : Block}
    (hloc : locateInode g ino = .ok (b, o)) {st₁ : InodeState} (hdisk : st₁.disk = st.disk)
    (hcache : CacheOk g st₁.disk st₁.cache) (hlen : len = Nat.min bufsize g.inodeSize)
    (hsame : SameInode g w (memcpy (onDisk g st₁.disk ino) 0 inode len)) :
    WriteSpec g st ino inode bufsize (none,
      { disk := (copyToTable g w g.inodeSize st₁.disk (st₁.cache.store ino inode len) b o
          g.inodeSize 0).1
        icache := (copyToTable g w g.inodeSize st₁.disk (st₁.cache.store ino inode len) b o
          g.inodeSize 0).2 }) := by
  obtain ⟨-, -, -, hbuf, hblk⟩ := Icache.store_fields st₁.cache ino inode len
  have hfill := (@Icache.fill_buffer st₁.disk (st₁.cache.store ino inode len)
    (by rw [hbuf, hblk]; exact hcache.buffer) _ (locateInode_fits hg hloc).1).1
  have hnew := hcache.write hg hv hloc hsame
  rw [copyToTable_eq hg hloc]
  rw [hfill] at hnew ⊢
  refine ⟨hnew, iff_of_true rfl ⟨hv, ⟨_, hloc⟩, hrw⟩, fun b' p hne => ?_, fun _ k hk hcsum => ?_,
    fun ino' hv' hne k hk _ => ?_, fun hne => absurd rfl hne⟩
  · have hne : wroteInode g st₁.disk b o w b' p ≠ st.disk b' p := hne
    rw [← hdisk] at hne
    by_cases hb : b' = b
    · rw [hb, wroteInode, Function.update_self] at hne
      have hin : o ≤ p ∧ p < o + g.inodeSize := by
        by_contra hout
        exact hne (memcpy_of_outside (by omega))
      refine ⟨o, p - o, hb ▸ hloc, by omega, by omega, ?_⟩
      -- a byte that is neither the caller's nor of a checksum is written as it was
      by_contra hcon
      rw [not_or, not_lt] at hcon
      refine hne ?_
      rw [memcpy_of_inside hin.1 hin.2, hsame _ (by omega) hcon.2, memcpy_of_outside,
        onDisk_eq hloc, fromPos, Nat.add_sub_cancel' hin.1]
      have : len ≤ bufsize := hlen ▸ Nat.min_le_left _ _
      omega
    · exact absurd (by rw [wroteInode, Function.update_of_ne hb]) hne
  · rw [← hdisk, ← hlen]
    exact (onDisk_wroteInode hloc w hk).trans (hsame k hk hcsum)
  · rw [← hdisk]
    exact onDisk_wroteInode_of_ne hg hv hv' hne hloc w hk

/-- **A write.** -/
theorem writeInode2_spec (hg : g.Ok) (h : CacheOk g st.disk st.cache)
    (hs : HarmlessWrite g st ino bufsize) :
    WriteSpec g st ino inode bufsize (writeInode2 g st ino inode bufsize nocsum) := by
  rw [writeInode2]
  split
  · next hbad =>
    refine writeSpec_of_failed rfl h ?_
    rintro ⟨⟨h1, h2⟩, -⟩
    omega
  · next hgood =>
    have hv : g.Valid ino := ⟨by tauto, by omega⟩
    dsimp only
    obtain ⟨r, hr⟩ : ∃ r, r = if bufsize < g.inodeSize then
      readInode2 g st ino (fun _ => 0) g.inodeSize true
      else (none, (fun _ => 0), st) := ⟨_, rfl⟩
    obtain ⟨hdisk, hcache, herr, hbytes⟩ := preRead_spec hg h hv hs.1 hr
    have hfind := fun h1 h2 => preRead_find hg h hv h1 h2 hr
    rw [← hr]
    obtain ⟨e, w, st₁⟩ := r
    dsimp only at hdisk hcache herr hbytes hfind
    cases e with
    | some e => exact writeSpec_of_failed hdisk hcache fun hnot => herr nofun hnot.2.1
    | none =>
      have hbytes := hbytes rfl
      dsimp only
      obtain ⟨len, hlen⟩ : ∃ len, len = Nat.min bufsize g.inodeSize := ⟨_, rfl⟩
      rw [← hlen]
      split
      · next hro =>
        -- the cached copy is as it was
        have hstore : st₁.cache.store ino inode len = st₁.cache := by
          rcases hs.2 with hrw | h0 | hno | ⟨h1, h2⟩
          · rw [hrw] at hro
            cases hro
          · rw [hlen, h0, show Nat.min 0 g.inodeSize = 0 from Nat.zero_min _, Icache.store_zero]
          · exact absurd hv hno
          · exact Icache.store_of_none (hfind h1 h2) inode len
        rw [hstore]
        refine writeSpec_of_failed hdisk hcache fun hnot => ?_
        rw [hnot.2.2] at hro
        cases hro
      · next hrw =>
        have hrw : g.rw = true := by simpa using hrw
        cases hloc : locateInode g ino with
        | error e =>
          have hstore : st₁.cache.store ino inode len = st₁.cache := by
            cases hf : st₁.cache.find ino with
            | none => exact Icache.store_of_none hf inode len
            | some i =>
              obtain ⟨hi, hino⟩ := Icache.find_some hf
              obtain ⟨p, hp⟩ := (hcache.located i hi (hino ▸ hv.1)).2
              rw [hino, hloc] at hp
              cases hp
          dsimp only
          rw [hstore]
          refine writeSpec_of_failed hdisk hcache ?_
          rintro ⟨-, ⟨p, hp⟩, -⟩
          rw [hloc] at hp
          cases hp
        | ok p =>
          obtain ⟨b, o⟩ := p
          refine writeSpec_of_written hg hv hrw hloc hdisk (hdisk ▸ hcache) hlen ?_
          rw [hdisk]
          exact sameInode_merged hlen hbytes

end Table

end E2fsprogs
