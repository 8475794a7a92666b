import E2fsprogs.Journal.Format
import E2fsprogs.Lib.Except

/-!
# What a loaded journal is like

`e2fsck_journal_load` decides what a pass may rely on. `E2fsprogs.Loaded` collects it: the
fields are 32-bit words, the log ends where the journal ends – or, with fast commits,
`num_fc_blks` before it – and of the checksum features at most one is on.

The other direction, `E2fsprogs.e2fsckJournalLoad_eq`, says which superblocks get as far
as having their fields copied.
-/

namespace E2fsprogs

/-- What is known of a journal that has been loaded. -/
structure Loaded (j : Journal) : Prop where
  blocksize_ge : 1024 ≤ j.jBlocksize
  blocksize_le : j.jBlocksize ≤ 65536
  first_lt : j.jFirst < 2 ^ 32
  total_lt : j.jTotalLen < 2 ^ 32
  tail_lt : j.jTail < 2 ^ 32
  seq_lt : j.jTailSequence < 2 ^ 32
  seed_lt : j.jCsumSeed < 2 ^ 32
  csum_excl : ¬(j.features.csum2 = true ∧ j.features.csum3 = true)
  v1_excl : ¬(j.features.csumV2or3 = true ∧ j.features.checksum = true)
  /-- Without fast commits the log goes to the end of the journal. -/
  last_eq : j.features.fastCommit = false → j.jLast = j.jTotalLen
  fcLast_eq : j.features.fastCommit = true → j.jFcLast = j.jTotalLen

theorem getBe4_lt (b : Block) (o : ℕ) : getBe b o 4 < 2 ^ 32 :=
  (getBe_lt b 4 o).trans_eq (by norm_num)

theorem csumSeed_lt (f : Features) (sb : Block) :
    (if f.csumV2or3 then ext2fsCrc32cLe allOnes32 (sUuid sb) else 0) < 2 ^ 32 := by
  split
  · exact ext2fsCrc32cLe_lt (by norm_num [allOnes32]) _
  · norm_num

theorem loaded_of_journalFields {ctx : LoadContext} {sb : Block} {f : Features} {j : Journal}
    (h1 : ¬(f.csum2 && f.csum3) = true) (h2 : ¬(f.csumV2or3 && f.checksum) = true)
    (h : journalFields ctx sb f = .ok j) : Loaded j := by
  rw [Bool.and_eq_true] at h1 h2
  unfold journalFields at h
  dsimp only at h
  cases hf : f.fastCommit with
  | false =>
    rw [hf, if_neg (by simp)] at h
    cases h
    exact ⟨ctx.blocksize_ge, ctx.blocksize_le, getBe4_lt _ _, getBe4_lt _ _, getBe4_lt _ _,
      getBe4_lt _ _, csumSeed_lt f sb, h1, h2, fun _ => rfl,
      fun hfc => absurd (hf.symm.trans hfc) Bool.false_ne_true⟩
  | true =>
    rw [hf, if_pos rfl] at h
    obtain ⟨-, h⟩ := ite_error_eq_ok.mp h
    cases h
    exact ⟨ctx.blocksize_ge, ctx.blocksize_le, getBe4_lt _ _, getBe4_lt _ _, getBe4_lt _ _,
      getBe4_lt _ _, csumSeed_lt f sb, h1, h2,
      fun hfc => absurd (hfc.symm.trans hf) Bool.false_ne_true, fun _ => rfl⟩

/-- **What `e2fsck_journal_load` guarantees.** -/
theorem loaded_of_load {ctx : LoadContext} {sb : Block} {j : Journal}
    (h : e2fsckJournalLoad ctx sb = .ok j) : Loaded j := by
  rw [e2fsckJournalLoad] at h
  obtain ⟨⟨version, sb'⟩, -, h⟩ := bind_eq_ok.mp h
  dsimp only at h
  rw [journalLoadChecks] at h
  obtain ⟨-, h⟩ := ite_error_eq_ok.mp h
  obtain ⟨-, h⟩ := ite_error_eq_ok.mp h
  obtain ⟨h1, h⟩ := ite_error_eq_ok.mp h
  obtain ⟨h2, h⟩ := ite_error_eq_ok.mp h
  obtain ⟨-, h⟩ := ite_error_eq_ok.mp h
  obtain ⟨-, h⟩ := ite_error_eq_ok.mp h
  obtain ⟨-, h⟩ := ite_error_eq_ok.mp h
  exact loaded_of_journalFields h1 h2 h

/-- The conditions on a superblock of version 2. -/
structure GoodSuperblock (ctx : LoadContext) (sb : Block) : Prop where
  magic : hMagic sb = jbd2MagicNumber
  version : hBlocktype sb = jbd2SuperblockV2
  users : sNrUsers sb ≤ 1
  incompat : sFeatureIncompat sb &&& (allOnes32 - jbd2KnownIncompatFeatures) = 0
  roCompat : sFeatureRoCompat sb = 0
  csum_excl : ((featuresOf sb 2).csum2 && (featuresOf sb 2).csum3) = false
  v1_excl : ((featuresOf sb 2).csumV2or3 && (featuresOf sb 2).checksum) = false
  csum : (featuresOf sb 2).csumV2or3 = true →
    sChecksumType sb = jbd2Crc32cChksum ∧ sChecksum sb = e2fsckJournalSbCsum sb
  blocksize : sBlocksize sb = ctx.jBlocksize
  maxlen : sMaxlen sb ≤ ctx.jTotalLen

/-- **A good superblock gets its fields copied.** -/
theorem e2fsckJournalLoad_eq {ctx : LoadContext} {sb : Block} (h : GoodSuperblock ctx sb) :
    e2fsckJournalLoad ctx sb = journalFields ctx sb (featuresOf sb 2) := by
  have hversion : journalFormatVersion ctx sb = .ok (2, sb) := by
    unfold journalFormatVersion
    rw [if_neg (by simp [h.magic]), if_neg (by rw [h.version]; decide), if_pos h.version]
    have hu : ¬(1 < sNrUsers sb ∧ ctx.journalUuidNull = true) := fun hu => by
      have := h.users
      omega
    simp only [if_neg hu]
    rw [if_neg (by have := h.users; omega)]
  have hcs : ¬((featuresOf sb 2).csumV2or3 = true ∧
      (sChecksumType sb ≠ jbd2Crc32cChksum ∨ sChecksum sb ≠ e2fsckJournalSbCsum sb)) := by
    rintro ⟨hv, hne⟩
    obtain ⟨h1, h2⟩ := h.csum hv
    rcases hne with hne | hne
    · exact hne h1
    · exact hne h2
  rw [e2fsckJournalLoad, hversion, ok_bind]
  dsimp only
  rw [journalLoadChecks, if_neg (by simp [h.incompat]), if_neg (by simp [h.roCompat]),
    if_neg (by simp [h.csum_excl]), if_neg (by simp [h.v1_excl]), if_neg hcs,
    if_neg (by simp [h.blocksize]), if_neg (Nat.not_lt.mpr h.maxlen)]

/-! ### Sample superblocks -/

/-- What a check of a journal with the log blocks `dev` starts from. -/
def sampleContext (maxlen : ℕ) (dev : ℕ → Option Block) : LoadContext where
  jBlocksize := 1024
  blocksize_ge := le_refl _
  blocksize_le := by norm_num
  jTotalLen := maxlen
  journalUuidNull := true
  clearV2 := true
  jDev := dev

/-- A superblock of version 2 for a log whose first block is block 1 and that starts at
`start` with the id 1. -/
def sampleSuperblock (compat incompat maxlen start : ℕ) : Block :=
  let sb := putHeader zeroBlock jbd2SuperblockV2 0
  let sb := putBe (putBe (putBe sb 0x0c 4 1024) 0x10 4 maxlen) 0x14 4 1
  let sb := putBe (putBe sb 0x18 4 1) 0x1c 4 start
  let sb := putBe (putBe sb 0x24 4 compat) 0x28 4 incompat
  let sb := putBe sb 0x50 1 jbd2Crc32cChksum
  putBe sb 0xfc 4 (e2fsckJournalSbCsum sb)

/-- The checksum of a sample superblock is right. -/
theorem sampleSuperblock_csum (compat incompat maxlen start : ℕ) :
    sChecksum (sampleSuperblock compat incompat maxlen start) =
      e2fsckJournalSbCsum (sampleSuperblock compat incompat maxlen start) := by
  have hlt : ∀ sb : Block, e2fsckJournalSbCsum sb < 256 ^ 4 := fun sb =>
    (ext2fsCrc32cLe_lt (by norm_num [allOnes32]) _).trans_eq (by norm_num)
  have hcsum : ∀ (sb : Block) (v : ℕ), e2fsckJournalSbCsum (putBe sb 0xfc 4 v) =
      e2fsckJournalSbCsum sb := by
    intro sb v
    rw [e2fsckJournalSbCsum, putBe_putBe]
    rfl
  rw [sampleSuperblock, hcsum]
  exact getBe_putBe _ _ (hlt _)

section Sample

variable {compat incompat maxlen start : ℕ}

/-- The fields of a sample superblock before its checksum. -/
theorem getBe_sampleSuperblock {p n : ℕ} (h : p + n ≤ 0xfc) :
    getBe (sampleSuperblock compat incompat maxlen start) p n =
      getBe (putBe (putBe (putBe (putBe (putBe
      (putBe (putBe (putBe (putHeader zeroBlock jbd2SuperblockV2 0) 0x0c 4 1024) 0x10 4 maxlen)
      0x14 4 1) 0x18 4 1) 0x1c 4 start) 0x24 4 compat) 0x28 4 incompat) 0x50 1
        jbd2Crc32cChksum) p n := by
  rw [sampleSuperblock, getBe_putBe_of_disjoint (Or.inl h)]

theorem sampleSuperblock_maxlen (h : maxlen < 2 ^ 32) :
    sMaxlen (sampleSuperblock compat incompat maxlen start) = maxlen := by
  rw [sMaxlen, getBe_sampleSuperblock (by norm_num)]
  simp (disch := omega) only [getBe_putBe_of_disjoint, getBe_putBe]

theorem sampleSuperblock_compat (h : compat < 2 ^ 32) :
    sFeatureCompat (sampleSuperblock compat incompat maxlen start) = compat := by
  rw [sFeatureCompat, getBe_sampleSuperblock (by norm_num)]
  simp (disch := omega) only [getBe_putBe_of_disjoint, getBe_putBe]

theorem sampleSuperblock_incompat (h : incompat < 2 ^ 32) :
    sFeatureIncompat (sampleSuperblock compat incompat maxlen start) = incompat := by
  rw [sFeatureIncompat, getBe_sampleSuperblock (by norm_num)]
  simp (disch := omega) only [getBe_putBe_of_disjoint, getBe_putBe]

/-- The features of a sample superblock. -/
def sampleFeatures (compat incompat : ℕ) : Features where
  checksum := hasFlag compat 1
  bit64 := hasFlag incompat 2
  asyncCommit := hasFlag incompat 4
  csum2 := hasFlag incompat 8
  csum3 := hasFlag incompat 0x10
  fastCommit := hasFlag incompat 0x20

theorem featuresOf_sampleSuperblock (hc : compat < 2 ^ 32) (hi : incompat < 2 ^ 32) :
    featuresOf (sampleSuperblock compat incompat maxlen start) 2 =
      sampleFeatures compat incompat := by
  rw [featuresOf, sampleSuperblock_compat hc, sampleSuperblock_incompat hi]
  simp [sampleFeatures]

/-- The sample journal as it is loaded, but for the fast-commit area. -/
def sampleLoaded (compat incompat maxlen start : ℕ) (dev : ℕ → Option Block) : Journal where
  jBlocksize := 1024
  jFirst := 1
  jLast := maxlen
  jFcFirst := 0
  jFcLast := 0
  jTotalLen := maxlen
  jTailSequence := 1
  jTail := start
  jCsumSeed := if (sampleFeatures compat incompat).csumV2or3 then
      ext2fsCrc32cLe allOnes32 (sUuid (sampleSuperblock compat incompat maxlen start)) else 0
  features := sampleFeatures compat incompat
  jDev := dev

/-- **The sample superblocks are accepted.** -/
theorem load_sampleSuperblock (hc : compat < 2 ^ 32) (hi : incompat < 2 ^ 32)
    (hm : maxlen < 2 ^ 32) (hs : start < 2 ^ 32)
    (hknown : incompat &&& (allOnes32 - jbd2KnownIncompatFeatures) = 0)
    (h1 : ((sampleFeatures compat incompat).csum2 && (sampleFeatures compat incompat).csum3) =
      false)
    (h2 : ((sampleFeatures compat incompat).csumV2or3 &&
      (sampleFeatures compat incompat).checksum) = false) (dev : ℕ → Option Block) :
    e2fsckJournalLoad (sampleContext maxlen dev) (sampleSuperblock compat incompat maxlen start) =
      journalFields (sampleContext maxlen dev) (sampleSuperblock compat incompat maxlen start)
        (sampleFeatures compat incompat) ∧
    loadedFields (sampleContext maxlen dev) (sampleSuperblock compat incompat maxlen start)
      (sampleFeatures compat incompat) = sampleLoaded compat incompat maxlen start dev := by
  have hf : featuresOf (sampleSuperblock compat incompat maxlen start) 2 =
      sampleFeatures compat incompat := featuresOf_sampleSuperblock hc hi
  have hlen : sMaxlen (sampleSuperblock compat incompat maxlen start) = maxlen :=
    sampleSuperblock_maxlen hm
  have hgood : GoodSuperblock (sampleContext maxlen dev)
      (sampleSuperblock compat incompat maxlen start) :=
    { magic := by
        rw [hMagic, getBe_sampleSuperblock (by norm_num)]
        simp (disch := omega) only [getBe_putBe_of_disjoint]
        decide
      version := by
        rw [hBlocktype, getBe_sampleSuperblock (by norm_num)]
        simp (disch := omega) only [getBe_putBe_of_disjoint]
        decide
      users := by
        rw [sNrUsers, getBe_sampleSuperblock (by norm_num)]
        simp (disch := omega) only [getBe_putBe_of_disjoint]
        decide
      incompat := by
        rw [sampleSuperblock_incompat hi]
        exact hknown
      roCompat := by
        rw [sFeatureRoCompat, getBe_sampleSuperblock (by norm_num)]
        simp (disch := omega) only [getBe_putBe_of_disjoint]
        decide
      csum_excl := by rw [hf]; exact h1
      v1_excl := by rw [hf]; exact h2
      csum := fun _ => by
        refine ⟨?_, sampleSuperblock_csum _ _ _ _⟩
        rw [sChecksumType, getBe_sampleSuperblock (by norm_num), getBe_putBe _ _ (by decide)]
      blocksize := by
        rw [sBlocksize, getBe_sampleSuperblock (by norm_num)]
        simp (disch := omega) only [getBe_putBe_of_disjoint, getBe_putBe]
        rfl
      maxlen := hlen.le }
  refine ⟨by rw [e2fsckJournalLoad_eq hgood, hf], ?_⟩
  have hfirst : sFirst (sampleSuperblock compat incompat maxlen start) = 1 := by
    rw [sFirst, getBe_sampleSuperblock (by norm_num)]
    simp (disch := omega) only [getBe_putBe_of_disjoint, getBe_putBe]
  have hseq : sSequence (sampleSuperblock compat incompat maxlen start) = 1 := by
    rw [sSequence, getBe_sampleSuperblock (by norm_num)]
    simp (disch := omega) only [getBe_putBe_of_disjoint, getBe_putBe]
  have hstart : sStart (sampleSuperblock compat incompat maxlen start) = start := by
    rw [sStart, getBe_sampleSuperblock (by norm_num)]
    simp (disch := omega) only [getBe_putBe_of_disjoint, getBe_putBe]
  rw [loadedFields, hlen, hfirst, hseq, hstart]
  rfl

/-- A sample journal without fast commits. -/
theorem load_sampleSuperblock_plain (hc : compat < 2 ^ 32) (hi : incompat < 2 ^ 32)
    (hm : maxlen < 2 ^ 32) (hs : start < 2 ^ 32)
    (hknown : incompat &&& (allOnes32 - jbd2KnownIncompatFeatures) = 0)
    (h1 : ((sampleFeatures compat incompat).csum2 && (sampleFeatures compat incompat).csum3) =
      false)
    (h2 : ((sampleFeatures compat incompat).csumV2or3 &&
      (sampleFeatures compat incompat).checksum) = false)
    (hfc : (sampleFeatures compat incompat).fastCommit = false) (dev : ℕ → Option Block) :
    e2fsckJournalLoad (sampleContext maxlen dev) (sampleSuperblock compat incompat maxlen start) =
      .ok (sampleLoaded compat incompat maxlen start dev) := by
  obtain ⟨hload, hfields⟩ := load_sampleSuperblock hc hi hm hs hknown h1 h2 dev
  rw [hload, journalFields, hfc, if_neg (by simp), hfields]

end Sample

end E2fsprogs
