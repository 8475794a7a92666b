import E2fsprogs.Pass5.Counts

/-!
# The inode bitmap in pass 5

`check_inode_bitmaps` and `e2fsck_discard_inodes` of `e2fsck/pass5.c`. The inodes that the earlier
passes have found in use are compared with the inode bitmap of the file system, group by group; free
inodes and directories are counted on the way, and the blocks of an inode table that have only free
inodes are handed to the device to be discarded. A group with `EXT2_BG_INODE_UNINIT` is passed over
when a call of `ext2fs_test_inode_bitmap_range` is not zero. When the bitmaps differ the one is
copied over the other and all is counted again.

The checks and calls that abort the pass, of the end points of the bitmaps and of the progress
function, are left out.
-/

namespace E2fsprogs

/-- The fields of the superblock that the pass reads. -/
structure InodeMapGeometry where
  groupDescCount : ℕ
  inodesPerGroup : ℕ
  /-- `EXT2_INODES_PER_BLOCK`. -/
  inodesPerBlock : ℕ
  /-- `ext2fs_inode_table_loc`. -/
  inodeTableLoc : ℕ → ℕ
  /-- `ext2fs_has_group_desc_csum`. -/
  csumFlag : Bool
  has64bit : Bool
  groupDescCount_pos : 0 < groupDescCount
  inodesPerGroup_pos : 0 < inodesPerGroup
  inodesPerGroup_lt : inodesPerGroup < 2 ^ 16
  inodesPerBlock_pos : 0 < inodesPerBlock
  inodesCount_lt : groupDescCount * inodesPerGroup < 2 ^ 32

/-- `PR_5_INODE_UNUSED` and `PR_5_INODE_USED`. -/
inductive InodeMapProblem where
  | inodeUnused
  | inodeUsed
  deriving DecidableEq

/-- What the pass asks before it changes something. -/
inductive InodeMapQuestion where
  | inodeUninit
  | latchIbitmap
  | freeInodeCountGroup
  | freeDirCountGroup
  | freeInodeCount

/-- What the pass finds outside: the inodes and the directories in use, whether the bitmaps have the
old format of 32 bits, the answers of the user, and the device. -/
structure InodeMapEnv where
  /-- `inode_used_map`. -/
  used : ℕ → Bool
  /-- `inode_dir_map`. -/
  dir : ℕ → Bool
  /-- The magic number of the bitmaps is `EXT2_ET_MAGIC_INODE_BITMAP`. -/
  oldBitmaps : Bool
  answer : InodeMapQuestion → Bool
  discardFails : ℕ → ℕ → Bool
  /-- `io_channel_discard_zeroes_data`. -/
  discardZeroesData : Bool

/-- The variables of the counting loop. `hadProblem` is an `int`; `run` is the run of equal problems
not yet printed, and `discarded` the calls of `io_channel_discard`, each with its group. -/
structure InodeCount where
  group : ℕ
  inodes : ℕ
  freeInodes : ℕ
  firstFree : ℕ
  groupFree : ℕ
  dirsCount : ℕ
  freeArray : ℕ → ℕ
  dirArray : ℕ → ℕ
  skipGroup : Bool
  hadProblem : ℕ
  run : Option (InodeMapProblem × ℕ × ℕ)
  printed : List (InodeMapProblem × ℕ × ℕ)
  inodeUninit : ℕ → Bool
  inodeZeroed : ℕ → Bool
  discard : Bool
  discarded : List (ℕ × ℕ × ℕ)

variable (g : InodeMapGeometry) (env : InodeMapEnv)

/-- `s_inodes_count`. -/
def InodeMapGeometry.inodesCount : ℕ := g.groupDescCount * g.inodesPerGroup

/-- `ext2fs_test_inode_bitmap_range`, for the inodes in use. A bitmap of the new format has another
magic number, and then the value is that of an error, which is not zero. -/
def testInodeBitmapRange (ino num : ℕ) : Bool :=
  if env.oldBitmaps then
    decide (ino + num - 1 ≤ g.inodesCount) && (List.range num).all fun k => !env.used (ino + k)
  else true

/-! ### Discards -/

/-- `e2fsck_discard_blocks`. -/
def InodeCount.discardBlocks (changed : Bool) (st : InodeCount) (start count : ℕ) : InodeCount :=
  if st.discard && !changed then
    { st with
      discard := !env.discardFails start count
      discarded := st.discarded ++ [(st.group, start, count)] }
  else { st with discard := false }

/-- `e2fsck_discard_inodes`. The number of blocks is that of a signed number of inodes. -/
def InodeCount.discardInodes (changed : Bool) (st : InodeCount) (start count : ℕ) : InodeCount :=
  let st := if start < 1 ∨ g.inodesPerGroup < start then { st with discard := false } else st
  if !st.discard || !env.discardZeroesData then st
  else
    let start := start - 1
    let blk := (start + g.inodesPerBlock - 1) / g.inodesPerBlock
    let count : ℤ := count - (blk * g.inodesPerBlock - start)
    let num := (count.tdiv g.inodesPerBlock % 2 ^ 64).toNat
    if 0 < num then st.discardBlocks env changed (g.inodeTableLoc st.group + blk) num else st

/-! ### The counting loop -/

/-- An inode on which the bitmaps differ. -/
def InodeCount.note (st : InodeCount) (i : ℕ) (actual : Bool) : InodeCount :=
  let problem := if actual then InodeMapProblem.inodeUsed else .inodeUnused
  let fix := actual && st.skipGroup && env.answer .inodeUninit
  let st := { st with
    inodeUninit := if fix then Function.update st.inodeUninit st.group false else st.inodeUninit
    skipGroup := st.skipGroup && !fix
    hadProblem := (st.hadProblem + 1) % 2 ^ 32
    discard := false }
  match st.run with
  | none => { st with run := some (problem, i, i) }
  | some (save, ino, ino2) =>
    if problem = save ∧ ino2 + 1 = i then { st with run := some (save, ino, ino2 + 1) }
    else { st with run := some (problem, i, i), printed := st.printed ++ [(save, ino, ino2)] }

/-- An inode is counted. -/
def InodeCount.count (changed : Bool) (st : InodeCount) (i : ℕ) (bitmap : Bool) : InodeCount :=
  let st := { st with inodes := st.inodes + 1 }
  if bitmap then
    let st := { st with dirsCount := if env.dir i then st.dirsCount + 1 else st.dirsCount }
    if st.firstFree < st.inodes then
      { st.discardInodes g env changed st.firstFree (st.inodes - st.firstFree) with
        firstFree := g.inodesPerGroup + 1 }
    else st
  else
    { st with
      groupFree := st.groupFree + 1
      freeInodes := st.freeInodes + 1
      firstFree := if st.inodes < st.firstFree then st.inodes else st.firstFree }

/-- The end of a group. -/
def InodeCount.nextGroup (changed : Bool) (st : InodeCount) (i : ℕ) (bitmap : Bool) : InodeCount :=
  let st := if !bitmap ∧ st.firstFree ≤ st.inodes then
    st.discardInodes g env changed st.firstFree (st.inodes - st.firstFree + 1) else st
  { st with
    inodeZeroed :=
      if st.discard && env.discardZeroesData then Function.update st.inodeZeroed st.group true
      else st.inodeZeroed
    firstFree := g.inodesPerGroup + 1
    freeArray := Function.update st.freeArray st.group st.groupFree
    dirArray := Function.update st.dirArray st.group st.dirsCount
    group := st.group + 1
    inodes := 0
    skipGroup := g.csumFlag && decide (i ≠ g.inodesCount) && st.inodeUninit (st.group + 1)
    groupFree := 0
    dirsCount := 0 }

/-- The part of a round from `do_counts` on, for inode `i`; the second component is the next
inode. -/
def InodeCount.doCounts (changed : Bool) (st : InodeCount) (i : ℕ) (bitmap : Bool) :
    InodeCount × ℕ :=
  let st := st.count g env changed i bitmap
  (if st.inodes = g.inodesPerGroup ∨ i = g.inodesCount then st.nextGroup g env changed i bitmap
    else st, (i + 1) % 2 ^ 32)

/-- A round of the counting loop, for inode `i`. -/
def inodeCountStep (changed redo : Bool) (map : ℕ → Bool) (i : ℕ) (st : InodeCount) :
    InodeCount × ℕ :=
  if st.skipGroup ∧ i % g.inodesPerGroup = 1 ∧ testInodeBitmapRange g env i g.inodesPerGroup then
    let inodes := g.inodesPerGroup - 1
    let st := { st with
      firstFree := 1
      inodes := inodes
      groupFree := inodes
      freeInodes := st.freeInodes + inodes
      skipGroup := false }
    st.doCounts g env changed (i + inodes) false
  else
    let actual := env.used i
    let bitmap := if redo then actual else if !st.skipGroup then map i else false
    let st := if actual = bitmap then st else st.note env i actual
    st.doCounts g env changed i bitmap

/-- The counting loop, of at most `n` rounds. The number of the inode has 32 bits. -/
def inodeCountLoop (changed redo : Bool) (map : ℕ → Bool) : ℕ → ℕ → InodeCount → Option InodeCount
  | 0, _, _ => none
  | n + 1, i, st =>
    if i ≤ g.inodesCount ∧ 0 < i then
      inodeCountLoop changed redo map n (inodeCountStep g env changed redo map i st).2
        (inodeCountStep g env changed redo map i st).1
    else some st

/-! ### The pass -/

/-- The parts of the file system that the pass may change. -/
structure InodeMapFs where
  map : ℕ → Bool
  bgFreeInodesCount : ℕ → ℕ
  bgUsedDirsCount : ℕ → ℕ
  freeInodesCount : ℕ
  valid : Bool
  changed : Bool

/-- The start of a count, at `redo_counts`. The counters are clear, the others keep their values. -/
def InodeCount.restart (st : InodeCount) : InodeCount :=
  { st with
    group := 0
    inodes := 0
    freeInodes := 0
    groupFree := 0
    dirsCount := 0
    freeArray := fun _ => 0
    dirArray := fun _ => 0
    skipGroup := st.skipGroup || g.csumFlag && st.inodeUninit 0
    hadProblem := 0
    run := none }

/-- What is not yet printed is printed. -/
def InodeCount.printRun (st : InodeCount) : InodeCount :=
  match st.run with
  | none => st
  | some r => { st with run := none, printed := st.printed ++ [r] }

/-- The counts, again and again until the bitmaps are left alone, `n` times at most. The bitmap that
is copied has no padding, since its last inode is the last one of a group. -/
def redoInodeCounts : ℕ → Bool → InodeMapFs → InodeCount → Option (InodeMapFs × InodeCount)
  | 0, _, _, _ => none
  | n + 1, redo, fs, st =>
    (inodeCountLoop g env fs.changed redo fs.map (g.inodesCount + 1) 1
      (st.restart g)).bind fun st =>
      let st := st.printRun
      if st.hadProblem = 0 then some (fs, st)
      else if env.answer .latchIbitmap then
        redoInodeCounts n true { fs with map := env.used, changed := true } st
      else some ({ fs with valid := false }, st)

/-- `ext2fs_bg_free_inodes_count_set` and `ext2fs_bg_used_dirs_count_set` keep as much as there is
room for. -/
def InodeMapGeometry.truncate (n : ℕ) : ℕ := n % 2 ^ (if g.has64bit then 32 else 16)

/-- The counts of the groups and of the superblock are set. -/
def setInodeCounts (fs : InodeMapFs) (st : InodeCount) : InodeMapFs :=
  let fs := { fs with
    bgFreeInodesCount := fun gr =>
      if gr < g.groupDescCount ∧ st.freeArray gr ≠ fs.bgFreeInodesCount gr ∧
        env.answer .freeInodeCountGroup then
        g.truncate (st.freeArray gr)
      else fs.bgFreeInodesCount gr
    bgUsedDirsCount := fun gr =>
      if gr < g.groupDescCount ∧ st.dirArray gr ≠ fs.bgUsedDirsCount gr ∧
        env.answer .freeDirCountGroup then
        g.truncate (st.dirArray gr)
      else fs.bgUsedDirsCount gr
    valid := fs.valid && (List.range g.groupDescCount).all fun gr =>
      (decide (st.freeArray gr = fs.bgFreeInodesCount gr) || env.answer .freeInodeCountGroup) &&
        (decide (st.dirArray gr = fs.bgUsedDirsCount gr) || env.answer .freeDirCountGroup) }
  if st.freeInodes ≠ fs.freeInodesCount ∧ env.answer .freeInodeCount then
    { fs with freeInodesCount := st.freeInodes }
  else fs

/-- `check_inode_bitmaps`. The result is the file system with the variables of the last count. -/
def checkInodeBitmaps (fs : InodeMapFs) (inodeUninit inodeZeroed : ℕ → Bool) (discard : Bool) :
    Option (InodeMapFs × InodeCount) :=
  let st : InodeCount :=
    { group := 0, inodes := 0, freeInodes := 0, firstFree := g.inodesPerGroup + 1, groupFree := 0,
      dirsCount := 0,
      freeArray := fun _ => 0, dirArray := fun _ => 0, skipGroup := false, hadProblem := 0,
      run := none, printed := [],
      inodeUninit := inodeUninit, inodeZeroed := inodeZeroed, discard := discard, discarded := [] }
  (redoInodeCounts g env 2 false fs st).map fun r => (setInodeCounts g env r.1 r.2, r.2)

/-! ### What it should do -/

/-- The number of bits that are set among the `n` from `c` on. -/
def setBits (map : ℕ → Bool) (c n : ℕ) : ℕ := clearBits (fun k => !map k) c n

/-- The first inode of a group. -/
def InodeMapGeometry.firstInode (gr : ℕ) : ℕ := gr * g.inodesPerGroup + 1

/-- A group without an inode in use. -/
def InodeMapGeometry.Unused (used : ℕ → Bool) (gr : ℕ) : Prop :=
  ∀ k < g.inodesPerGroup, used (g.firstInode gr + k) = false

/-- The blocks of a call of `io_channel_discard` are blocks of the inode table of a group, and have
no inode in use. -/
def InodeMapGeometry.OnlyUnused (used : ℕ → Bool) (d : ℕ × ℕ × ℕ) : Prop :=
  d.1 < g.groupDescCount ∧ ∀ b, d.2.1 ≤ b → b < d.2.1 + d.2.2 → g.inodeTableLoc d.1 ≤ b ∧
    (b - g.inodeTableLoc d.1 + 1) * g.inodesPerBlock ≤ g.inodesPerGroup ∧
    ∀ k, k / g.inodesPerBlock = b - g.inodeTableLoc d.1 → used (g.firstInode d.1 + k) = false

/-- **The pass has made the bitmap and the counts exact**, and has discarded only inodes that are
not in use. -/
structure ExactInodes (r : InodeMapFs × InodeCount) : Prop where
  map : ∀ gr < g.groupDescCount,
  (∀ k < g.inodesPerGroup, r.1.map (g.firstInode gr + k) = env.used (g.firstInode gr + k)) ∨
    r.2.inodeUninit gr = true ∧ g.Unused env.used gr
  uninit : g.csumFlag = true → ∀ gr < g.groupDescCount, r.2.inodeUninit gr = true →
    g.Unused env.used gr
  free : ∀ gr < g.groupDescCount,
  r.1.bgFreeInodesCount gr = clearBits env.used (g.firstInode gr) g.inodesPerGroup
  dirs : ∀ gr < g.groupDescCount,
    r.1.bgUsedDirsCount gr = setBits (fun ino => env.used ino && env.dir ino)
      (g.firstInode gr) g.inodesPerGroup
  total : r.1.freeInodesCount = clearBits env.used 1 g.inodesCount
  discarded : ∀ d ∈ r.2.discarded, g.OnlyUnused env.used d

/-- **The groups that are passed over are not in use**: the bitmaps are of the old format, or there
are no checksums and so no flags, or a group is a single inode, or the groups with the flag have no
inode in use. -/
def SkipsRightly (inodeUninit : ℕ → Bool) : Prop :=
  env.oldBitmaps = true ∨ g.csumFlag = false ∨ g.inodesPerGroup = 1 ∨
    ∀ gr < g.groupDescCount, inodeUninit gr = true → g.Unused env.used gr

end E2fsprogs
