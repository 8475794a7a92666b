import Mathlib

/-!
# Clusters with more than one claim

`e2fsck/pass1b.c`, from `dict_int_cmp` to `process_pass1b_block`. The inodes are scanned a second
time, and for each cluster that the first pass has found to be claimed more than once two
dictionaries get a record: which inodes claim the cluster, and which such clusters an inode claims.

After the pass the two dictionaries say the same, an inode as often under a cluster as the cluster
under the inode, and they have exactly the claims of the inodes that were looked at
(`E2fsprogs.pass1b_exact`). The keys must be less than 2^31: `dict_int_cmp` returns the difference
of two keys as an `int`, to which keys that are 2^32 apart are equal, and which is no order on keys
that are 2^31 apart.

A dictionary is a list of nodes, the order of which is not used. Memory is always there, and the
reports are left out.
-/

namespace E2fsprogs

/-- `EXT2_BAD_INO`. -/
def ext2BadIno : ℕ := 1

/-- `EXT2_ROOT_INO`. -/
def ext2RootIno : ℕ := 2

/-- `BLOCK_COUNT_EXTATTR` of `pass1b.c`. -/
def blockCountExtattr : ℤ := -5

section Dictionaries

variable {δ : Type}

/-- `dict_t`, with keys as `dict_int_cmp` tells them apart. -/
abbrev IntDict (δ : Type) := AList fun _ : ℕ => δ

/-- `dict_lookup`, and the data of the node. -/
def IntDict.get (dict : IntDict δ) (key : ℕ) : Option δ := dict.lookup (key % 2 ^ 32)

/-- New data for a key, in its node or, where there is none, in one that `dict_alloc_insert`
makes. -/
def IntDict.put (dict : IntDict δ) (key : ℕ) (data : δ) : IntDict δ :=
  dict.insert (key % 2 ^ 32) data

theorem IntDict.get_put (dict : IntDict δ) {key k : ℕ} (hkey : key < 2 ^ 31)
    (hk : k < 2 ^ 31) (data : δ) :
    (dict.put key data).get k = if key = k then some data else dict.get k := by
  rw [put, get, get]
  by_cases heq : key = k
  · rw [if_pos heq, heq, AList.lookup_insert]
  · rw [if_neg heq, AList.lookup_insert_ne (by omega)]

end Dictionaries

/-! ### The code -/

/-- `struct dup_cluster`. -/
structure DupCluster where
  numBad : ℤ
  inodeList : List ℕ

/-- `struct dup_inode`. -/
structure DupInode (ι : Type) where
  dir : ℕ
  numDupblocks : ℤ
  inode : ι
  clusterList : List ℕ

/-- What pass 1b collects. -/
structure Dupes (ι : Type) where
  clstrDict : IntDict DupCluster
  inoDict : IntDict (DupInode ι)
  inodeDupMap : List ℕ
  dupInodeCount : ℕ
  dupInodeFounddir : ℕ

/-- What the pass reads of the filesystem: `cluster_ratio_bits`, the feature for attribute blocks,
the first inode that is not reserved, and `block_dup_map`, in which a block is looked up by its
cluster. -/
structure Pass1bFs where
  clusterBits : ℕ
  featureXattr : Bool
  firstInode : ℕ
  blockDupMap : ℕ → Bool

/-- A block of an inode, with its logical number. -/
structure ClaimedBlock where
  blockcnt : ℤ
  blockNr : ℕ

/-- An inode as the scan has it: whether it is in use, whether it has valid blocks, the blocks that
`ext2fs_block_iterate3` visits, and its attribute block. -/
structure DupeScanned (ι : Type) where
  ino : ℕ
  inode : ι
  used : Bool
  validBlocks : Bool
  blocks : List ClaimedBlock
  fileAcl : ℕ

/-- `struct process_block_struct`. -/
structure ProcessBlock where
  dupBlocks : ℕ
  curCluster : ℕ
  physCluster : ℕ

section Pass

variable {ι : Type}

/-- What `e2fsck_pass1_dupblocks` starts with. -/
def Dupes.init : Dupes ι := ⟨∅, ∅, [], 0, 0⟩

/-- The record that is made for the first cluster of an inode. -/
def DupInode.fresh (ino : ℕ) (inode : ι) : DupInode ι :=
  ⟨if ino = ext2RootIno then ext2RootIno else 0, 0, inode, []⟩

/-- `add_dupe`. -/
def addDupe (d : Dupes ι) (ino cluster : ℕ) (inode : ι) : Dupes ι :=
  let db := (d.clstrDict.get cluster).getD ⟨0, []⟩
  let di := (d.inoDict.get ino).getD (.fresh ino inode)
  { d with
    clstrDict := d.clstrDict.put cluster ⟨db.numBad + 1, ino :: db.inodeList⟩
    inoDict := d.inoDict.put ino
      { di with numDupblocks := di.numDupblocks + 1, clusterList := cluster :: di.clusterList }
    dupInodeFounddir :=
      d.dupInodeFounddir + if (d.inoDict.get ino).isNone = true ∧ ino = ext2RootIno then 1 else 0 }

/-- `EXT2FS_B2C` of a logical block, which may be negative. -/
def Pass1bFs.logical (fs : Pass1bFs) (blockcnt : ℤ) : ℕ :=
  ((blockcnt >>> fs.clusterBits) % 2 ^ 64).toNat

/-- `EXT2FS_B2C`. -/
def Pass1bFs.b2c (fs : Pass1bFs) (blockNr : ℕ) : ℕ := blockNr >>> fs.clusterBits

/-- `process_pass1b_block`. -/
def processPass1bBlock (fs : Pass1bFs) (ino : ℕ) (inode : ι) (st : ProcessBlock × Dupes ι)
    (block : ClaimedBlock) :
    ProcessBlock × Dupes ι :=
  if block.blockNr = 0 then st
  else
    let lc := fs.logical block.blockcnt
    let pc := fs.b2c block.blockNr
    if fs.blockDupMap pc = false then (⟨st.1.dupBlocks, lc, pc⟩, st.2)
    else
      let d := { st.2 with inodeDupMap := ino :: st.2.inodeDupMap }
      (⟨st.1.dupBlocks + 1, lc, pc⟩,
        if block.blockcnt < 0 ∨ lc ≠ st.1.curCluster ∨ pc ≠ st.1.physCluster then
          addDupe d ino pc inode else d)

/-- The blocks that pass 1b looks at. -/
def DupeScanned.visited (s : DupeScanned ι) (fs : Pass1bFs) : List ClaimedBlock :=
  (if s.validBlocks = true ∨ s.ino = ext2BadIno then s.blocks else []) ++
    if fs.featureXattr = true ∧ s.fileAcl ≠ 0 then [⟨blockCountExtattr, s.fileAcl⟩] else []

/-- A round of `pass1b`. -/
def pass1bInode (fs : Pass1bFs) (d : Dupes ι) (s : DupeScanned ι) : Dupes ι :=
  if s.ino ≠ ext2BadIno ∧ s.used = false then d
  else
    let st :=
      (s.visited fs).foldl (processPass1bBlock fs s.ino s.inode) (⟨0, 2 ^ 64 - 1, 2 ^ 64 - 1⟩, d)
    if st.1.dupBlocks ≠ 0 ∧ (fs.firstInode ≤ s.ino ∨ s.ino = ext2RootIno) then
      { st.2 with dupInodeCount := st.2.dupInodeCount + 1 }
    else st.2

/-- `pass1b`, over the inodes of a scan. -/
def pass1b (fs : Pass1bFs) (inodes : List (DupeScanned ι)) : Dupes ι :=
  inodes.foldl (pass1bInode fs) .init

/-! ### The records -/

/-- The clusters that the record of an inode has. -/
def Dupes.clustersOf (d : Dupes ι) (ino : ℕ) : List ℕ :=
  ((d.inoDict.get ino).map DupInode.clusterList).getD []

/-- The inodes that the record of a cluster has. -/
def Dupes.inodesOf (d : Dupes ι) (cluster : ℕ) : List ℕ :=
  ((d.clstrDict.get cluster).map DupCluster.inodeList).getD []

/-- **The records agree**: the dictionaries are transposed to each other, the lists are counted, and
the root is counted with its first cluster. -/
structure Dupes.Agree (d : Dupes ι) : Prop where
  transposed : ∀ i c, i < 2 ^ 31 → c < 2 ^ 31 → (d.clustersOf i).count c = (d.inodesOf c).count i
  clstr : ∀ c db, c < 2 ^ 31 → d.clstrDict.get c = some db →
    db.numBad = db.inodeList.length ∧ db.inodeList ≠ [] ∧ ∀ i ∈ db.inodeList, i < 2 ^ 31
  ino : ∀ i di, i < 2 ^ 31 → d.inoDict.get i = some di → di.numDupblocks = di.clusterList.length ∧
    di.clusterList ≠ [] ∧ di.dir = if i = ext2RootIno then ext2RootIno else 0
  founddir : d.dupInodeFounddir = if d.clustersOf ext2RootIno = [] then 0 else 1

variable {fs : Pass1bFs} {d : Dupes ι}

theorem agree_init : (Dupes.init : Dupes ι).Agree := ⟨fun _ _ _ _ => rfl, nofun, nofun, rfl⟩

theorem clustersOf_addDupe {ino i : ℕ} (hino : ino < 2 ^ 31) (hi : i < 2 ^ 31)
    (cluster : ℕ) (inode : ι) :
    (addDupe d ino cluster inode).clustersOf i = if ino = i then cluster :: d.clustersOf i
      else d.clustersOf i := by
  rw [Dupes.clustersOf, addDupe, IntDict.get_put _ hino hi]
  by_cases heq : ino = i
  · subst heq
    rw [if_pos rfl, if_pos rfl, Dupes.clustersOf]
    cases d.inoDict.get ino <;> rfl
  · rw [if_neg heq, if_neg heq, Dupes.clustersOf]

theorem inodesOf_addDupe {cluster c : ℕ} (hcluster : cluster < 2 ^ 31) (hc : c < 2 ^ 31)
    (ino : ℕ) (inode : ι) :
    (addDupe d ino cluster inode).inodesOf c = if cluster = c then ino :: d.inodesOf c
      else d.inodesOf c := by
  rw [Dupes.inodesOf, addDupe, IntDict.get_put _ hcluster hc]
  by_cases heq : cluster = c
  · subst heq
    rw [if_pos rfl, if_pos rfl, Dupes.inodesOf]
    cases d.clstrDict.get cluster <;> rfl
  · rw [if_neg heq, if_neg heq, Dupes.inodesOf]

/-- An inode has a record exactly where it has clusters. -/
theorem Dupes.Agree.isNone_iff (h : d.Agree) {i : ℕ} (hi : i < 2 ^ 31) :
    (d.inoDict.get i).isNone = true ↔ d.clustersOf i = [] := by
  rw [Dupes.clustersOf]
  cases hget : d.inoDict.get i with
  | none => exact ⟨fun _ => rfl, fun _ => rfl⟩
  | some di => exact ⟨nofun, fun hnil => absurd hnil (h.ino i di hi hget).2.1⟩

/-- **One claim** is recorded on both sides. -/
theorem Dupes.Agree.addDupe (h : d.Agree) {ino cluster : ℕ} (hino : ino < 2 ^ 31)
    (hcluster : cluster < 2 ^ 31) (inode : ι) : (E2fsprogs.addDupe d ino cluster inode).Agree := by
  refine ⟨fun i c hi hc => ?_, fun c db hc hget => ?_, fun i di hi hget => ?_, ?_⟩
  · rw [clustersOf_addDupe hino hi, inodesOf_addDupe hcluster hc]
    have := h.transposed i c hi hc
    by_cases hii : ino = i <;> by_cases hcc : cluster = c <;> simp [hii, hcc, this]
  · rw [E2fsprogs.addDupe, IntDict.get_put _ hcluster hc] at hget
    split_ifs at hget with hcc
    · subst hcc
      cases hget
      cases hold : d.clstrDict.get cluster with
      | none => exact ⟨rfl, nofun, by simpa using hino⟩
      | some db =>
        obtain ⟨hnum, -, hsmall⟩ := h.clstr cluster db hc hold
        exact ⟨congrArg (· + 1) hnum, nofun, List.forall_mem_cons.mpr ⟨hino, hsmall⟩⟩
    · exact h.clstr c db hc hget
  · rw [E2fsprogs.addDupe, IntDict.get_put _ hino hi] at hget
    split_ifs at hget with hii
    · subst hii
      cases hget
      cases hold : d.inoDict.get ino with
      | none => exact ⟨rfl, nofun, rfl⟩
      | some di =>
        obtain ⟨hnum, -, hdir⟩ := h.ino ino di hi hold
        exact ⟨congrArg (· + 1) hnum, nofun, hdir⟩
    · exact h.ino i di hi hget
  · have hnone := h.isNone_iff hino
    rw [clustersOf_addDupe hino (by decide)]
    change d.dupInodeFounddir + _ = _
    rw [h.founddir]
    by_cases hroot : ino = ext2RootIno
    · subst hroot
      by_cases hnil : d.clustersOf ext2RootIno = [] <;> simp [hnone, hnil]
    · simp [hroot]

/-! ### The pass -/

/-- The blocks that have more than one claim. -/
def Pass1bFs.dups (fs : Pass1bFs) (blocks : List ClaimedBlock) : List ℕ :=
  (blocks.map ClaimedBlock.blockNr).filter fun blockNr => blockNr ≠ 0 ∧
    fs.blockDupMap (fs.b2c blockNr) = true

/-- An inode claims a cluster that has more than one claim. -/
def DupeScanned.Claims (fs : Pass1bFs) (s : DupeScanned ι) (cluster : ℕ) : Prop :=
  ∃ blockNr ∈ fs.dups (s.visited fs), fs.b2c blockNr = cluster

/-- The pass looks at an inode. -/
def DupeScanned.Examined (s : DupeScanned ι) : Prop := s.ino = ext2BadIno ∨ s.used = true

instance (s : DupeScanned ι) : Decidable s.Examined := inferInstanceAs (Decidable (_ ∨ _))

/-- `dup_inode_count` counts an inode. -/
def DupeScanned.Counted (fs : Pass1bFs) (s : DupeScanned ι) : Prop :=
  s.Examined ∧ fs.dups (s.visited fs) ≠ [] ∧ (fs.firstInode ≤ s.ino ∨ s.ino = ext2RootIno)

instance (fs : Pass1bFs) (s : DupeScanned ι) : Decidable (s.Counted fs) :=
  inferInstanceAs (Decidable (_ ∧ _))

/-- Where the pass is in an inode. A cluster that it is in the middle of has been recorded. -/
structure InInode (fs : Pass1bFs) (s : DupeScanned ι) (d : Dupes ι) (done : List ClaimedBlock)
    (st : ProcessBlock × Dupes ι) : Prop where
  agree : st.2.Agree
  clusters : ∀ i c, i < 2 ^ 31 → (c ∈ st.2.clustersOf i ↔
    c ∈ d.clustersOf i ∨ s.ino = i ∧ ∃ blockNr ∈ fs.dups done, fs.b2c blockNr = c)
  marked : ∀ i, i ∈ st.2.inodeDupMap ↔ i ∈ d.inodeDupMap ∨ s.ino = i ∧ fs.dups done ≠ []
  inodeCount : st.2.dupInodeCount = d.dupInodeCount
  current : fs.blockDupMap st.1.physCluster = true → st.1.physCluster ∈ st.2.clustersOf s.ino
  count : st.1.dupBlocks = (fs.dups done).length

variable {s : DupeScanned ι}

/-- **One block.** -/
theorem InInode.step {done : List ClaimedBlock} {st : ProcessBlock × Dupes ι}
    (h : InInode fs s d done st)
    (hino : s.ino < 2 ^ 31) (hmap : ∀ c, fs.blockDupMap c = true → c < 2 ^ 31)
    (block : ClaimedBlock) :
    InInode fs s d (done ++ [block]) (processPass1bBlock fs s.ino s.inode st block) := by
  have hdups : fs.dups (done ++ [block]) = fs.dups done ++
      if block.blockNr ≠ 0 ∧ fs.blockDupMap (fs.b2c block.blockNr) = true then
        [block.blockNr] else [] := by
    rw [Pass1bFs.dups, List.map_append, List.filter_append, List.map_singleton,
      List.filter_singleton, Bool.cond_decide]
    rfl
  rw [processPass1bBlock]
  by_cases hzero : block.blockNr = 0
  · rw [if_neg fun h => h.1 hzero, List.append_nil] at hdups
    rw [if_pos hzero]
    exact ⟨h.agree, hdups ▸ h.clusters, hdups ▸ h.marked, h.inodeCount, h.current, hdups ▸ h.count⟩
  rw [if_neg hzero]
  by_cases hdup : fs.blockDupMap (fs.b2c block.blockNr) = true
  · rw [if_pos ⟨hzero, hdup⟩] at hdups
    rw [if_neg (by rw [hdup]; nofun)]
    have hsmall := hmap _ hdup
    -- whether or not there is a new record, the cluster is now one of the inode
    have hnew : ∀ d', d'.Agree → d'.inodeDupMap = s.ino :: st.2.inodeDupMap →
      d'.dupInodeCount = st.2.dupInodeCount →
        (∀ i c, i < 2 ^ 31 → (c ∈ d'.clustersOf i ↔ c ∈ st.2.clustersOf i ∨ s.ino = i ∧
          fs.b2c block.blockNr = c)) →
        InInode fs s d (done ++ [block])
          (⟨st.1.dupBlocks + 1, fs.logical block.blockcnt, fs.b2c block.blockNr⟩, d') := by
      refine fun d' hagree hmarked hcount hclusters => ⟨hagree, fun i c hi => ?_, fun i => ?_,
        hcount.trans h.inodeCount, fun _ => (hclusters _ _ hino).mpr (.inr ⟨rfl, rfl⟩), ?_⟩
      · rw [hclusters i c hi, h.clusters i c hi, hdups]
        simp only [List.mem_append, List.mem_singleton, or_and_right, exists_or, exists_eq_left,
          and_or_left, or_assoc]
      · rw [hmarked, List.mem_cons, h.marked i, hdups]
        simp only [ne_eq, List.append_eq_nil_iff, List.cons_ne_nil, and_false,
          not_false_eq_true, and_true]
        rw [or_left_comm, eq_comm]
        exact or_congr_right ⟨fun h => h.elim id And.left, .inl⟩
      · rw [hdups, List.length_append, ← h.count]
        rfl
    split_ifs with hsubmit
    · have hagree : Dupes.Agree { st.2 with inodeDupMap := s.ino :: st.2.inodeDupMap } :=
        ⟨h.agree.transposed, h.agree.clstr, h.agree.ino, h.agree.founddir⟩
      refine hnew _ (hagree.addDupe hino hsmall s.inode) rfl rfl fun i c hi => ?_
      rw [clustersOf_addDupe hino hi]
      by_cases heq : s.ino = i
      · rw [if_pos heq, List.mem_cons, or_comm, eq_comm, and_iff_right heq]
        rfl
      · rw [if_neg heq, or_iff_left fun h => heq h.1]
        rfl
    · -- the block is in the same cluster as the one before
      have hpc : fs.b2c block.blockNr = st.1.physCluster := by
        by_contra hne
        exact hsubmit (.inr (.inr hne))
      refine hnew _ ⟨h.agree.transposed, h.agree.clstr, h.agree.ino,
        h.agree.founddir⟩ rfl rfl fun i c _ => ?_
      refine (or_iff_left_of_imp ?_).symm
      rintro ⟨rfl, rfl⟩
      exact hpc ▸ h.current (hpc ▸ hdup)
  · rw [if_neg fun h => hdup h.2, List.append_nil] at hdups
    rw [if_pos (eq_false_of_ne_true hdup)]
    exact ⟨h.agree, hdups ▸ h.clusters, hdups ▸ h.marked, h.inodeCount,
      fun hcur => absurd hcur hdup, hdups ▸ h.count⟩

theorem InInode.blocks (blocks : List ClaimedBlock) {done : List ClaimedBlock}
    {st : ProcessBlock × Dupes ι} (h : InInode fs s d done st) (hino : s.ino < 2 ^ 31)
    (hmap : ∀ c, fs.blockDupMap c = true → c < 2 ^ 31) :
    InInode fs s d (done ++ blocks) (blocks.foldl (processPass1bBlock fs s.ino s.inode) st) := by
  induction blocks generalizing done st with
  | nil => rwa [List.append_nil]
  | cons block blocks ih =>
    rw [List.append_cons]
    exact ih (h.step hino hmap block)

/-- **What the pass has collected** from some inodes. -/
structure Dupes.Exact (fs : Pass1bFs) (inodes : List (DupeScanned ι)) (d : Dupes ι) : Prop where
  agree : d.Agree
  claims : ∀ i c, i < 2 ^ 31 →
    (c ∈ d.clustersOf i ↔ ∃ s ∈ inodes, s.Examined ∧ s.ino = i ∧ s.Claims fs c)
  marked : ∀ i, i ∈ d.inodeDupMap ↔ ∃ s ∈ inodes, s.Examined ∧ s.ino = i ∧
    fs.dups (s.visited fs) ≠ []
  counted : d.dupInodeCount = inodes.countP fun s => s.Counted fs

/-- **One inode.** -/
theorem Dupes.Exact.step {inodes : List (DupeScanned ι)} (h : d.Exact fs inodes) (s : DupeScanned ι)
    (hino : s.ino < 2 ^ 31) (hmap : ∀ c, fs.blockDupMap c = true → c < 2 ^ 31) :
    (pass1bInode fs d s).Exact fs (inodes ++ [s]) := by
  have hsplit : ∀ p : DupeScanned ι → Prop, (∃ t ∈ inodes ++ [s], p t) ↔ (∃ t ∈ inodes, p t) ∨
      p s := fun p => by
    simp only [List.mem_append, List.mem_singleton, or_and_right, exists_or, exists_eq_left]
  rw [pass1bInode]
  by_cases hskip : s.ino ≠ ext2BadIno ∧ s.used = false
  · have hnot : ¬s.Examined :=
      fun h => h.elim hskip.1 fun h => Bool.false_ne_true (hskip.2.symm.trans h)
    rw [if_pos hskip]
    refine ⟨h.agree, fun i c hi => ?_, fun i => ?_, ?_⟩
    · rw [hsplit, h.claims i c hi, or_iff_left fun h => hnot h.1]
    · rw [hsplit, h.marked i, or_iff_left fun h => hnot h.1]
    · rw [h.counted, List.countP_append, List.countP_singleton,
        if_neg fun h => hnot (of_decide_eq_true h).1, Nat.add_zero]
  have hexamined : s.Examined := by
    by_contra hnot
    obtain ⟨hbad, hused⟩ := not_or.mp hnot
    exact hskip ⟨hbad, eq_false_of_ne_true hused⟩
  have hstart : InInode fs s d [] (⟨0, 2 ^ 64 - 1, 2 ^ 64 - 1⟩, d) := by
    refine ⟨h.agree, fun i c _ => ?_, fun i => ?_, rfl, fun hcur => ?_, rfl⟩
    · exact (or_iff_left fun ⟨_, _, hmem, _⟩ => nomatch hmem).symm
    · exact (or_iff_left fun h => h.2 rfl).symm
    · have : 2 ^ 64 - 1 < 2 ^ 31 := hmap _ hcur
      omega
  have hin := hstart.blocks (s.visited fs) hino hmap
  rw [List.nil_append] at hin
  rw [if_neg hskip]
  generalize (s.visited fs).foldl (processPass1bBlock fs s.ino s.inode)
    (⟨0, 2 ^ 64 - 1, 2 ^ 64 - 1⟩, d) = st at hin ⊢
  have hcond : (st.1.dupBlocks ≠ 0 ∧ (fs.firstInode ≤ s.ino ∨ s.ino = ext2RootIno)) ↔
      s.Counted fs := by
    rw [hin.count, ne_eq, List.length_eq_zero_iff]
    exact (and_iff_right hexamined).symm
  -- counting the inode leaves the records alone
  have hrecords : ∀ n, n = d.dupInodeCount + (if s.Counted fs then 1 else 0) →
      Dupes.Exact fs (inodes ++ [s]) { st.2 with dupInodeCount := n } := by
    refine fun n hn => ⟨⟨hin.agree.transposed, hin.agree.clstr, hin.agree.ino, hin.agree.founddir⟩,
      fun i c hi => ?_, fun i => ?_, ?_⟩
    · rw [hsplit, ← h.claims i c hi, and_iff_right hexamined]
      exact hin.clusters i c hi
    · rw [hsplit, ← h.marked i, and_iff_right hexamined]
      exact hin.marked i
    · rw [List.countP_append, List.countP_singleton, ← h.counted]
      simpa only [decide_eq_true_eq] using hn
  simp only [hcond]
  split_ifs with hcounted
  · exact hrecords _ (by rw [if_pos hcounted, hin.inodeCount])
  · exact hrecords st.2.dupInodeCount (by rw [if_neg hcounted, hin.inodeCount, Nat.add_zero])

theorem exact_init : (Dupes.init : Dupes ι).Exact fs [] :=
  ⟨agree_init, fun _ _ _ => ⟨nofun, nofun⟩, fun _ => ⟨nofun, nofun⟩, rfl⟩

/-- Some more inodes. -/
theorem Dupes.Exact.run (inodes : List (DupeScanned ι)) {done : List (DupeScanned ι)}
    (h : d.Exact fs done)
    (hino : ∀ s ∈ inodes, s.ino < 2 ^ 31) (hmap : ∀ c, fs.blockDupMap c = true → c < 2 ^ 31) :
    (inodes.foldl (pass1bInode fs) d).Exact fs (done ++ inodes) := by
  induction inodes generalizing done d with
  | nil => rwa [List.append_nil]
  | cons s inodes ih =>
    obtain ⟨hs, hino⟩ := List.forall_mem_cons.mp hino
    rw [List.append_cons]
    exact ih (h.step s hs hmap) hino

/-- **Pass 1b is exact.** The records agree; an inode has the record of a cluster exactly if the
pass has looked at it and it claims the cluster, and is marked exactly if it claims one; and
`dup_inode_count` is the number of the inodes with such a cluster that are the root or not
reserved. -/
theorem pass1b_exact (fs : Pass1bFs) (inodes : List (DupeScanned ι))
    (hino : ∀ s ∈ inodes, s.ino < 2 ^ 31)
    (hmap : ∀ c, fs.blockDupMap c = true → c < 2 ^ 31) : (pass1b fs inodes).Exact fs inodes :=
  exact_init.run inodes hino hmap

/-- Two inodes share a cluster, one of them with an attribute block. -/
theorem pass1b_exact_two :
    let fs : Pass1bFs := ⟨2, true, 11, fun c => c == 5⟩
    let d := pass1b fs [⟨12, (), true, true, [⟨0, 20⟩, ⟨1, 21⟩, ⟨2, 40⟩], 0⟩,
      ⟨13, (), true, false, [], 22⟩]
    d.Agree ∧ d.inodesOf 5 = [13, 12] ∧ d.dupInodeCount = 2 := by
  have h := pass1b_exact ⟨2, true, 11, fun c => c == 5⟩
    [⟨12, (), true, true, [⟨0, 20⟩, ⟨1, 21⟩, ⟨2, 40⟩], 0⟩,
      ⟨13, (), true, false, [], 22⟩] (by decide)
    (fun c hc => by rw [eq_of_beq hc]; decide)
  exact ⟨h.agree, by decide, h.counted⟩

end Pass

end E2fsprogs
