import E2fsprogs.Resize.Backups

/-!
# The resize inode

`ext2fs_create_resize_inode` of `lib/ext2fs/res_gdt.c` builds the inode that holds the blocks
reserved for more group descriptors, and `check_resize_inode` of `e2fsck/super.c` looks at it. The
inode has a double indirect block; its entries are the reserved blocks behind the descriptors of the
first group, and the entries of a reserved block are the blocks at the same place in the groups with
a backup.

Block numbers have 32 bits. Indirect blocks are read and written whole, as arrays of such numbers.
Times, device errors and failing allocations are left out.
-/

namespace E2fsprogs

/-- The fields of the file system that both sides read. -/
structure ResizeGeometry extends BackupGeometry where
  blocksize : ℕ
  firstDataBlock : ℕ
  blocksCount : ℕ
  blocksPerGroup : ℕ
  descBlocks : ℕ
  reservedGdtBlocks : ℕ

/-- The inode: `i_block`, `i_links_count`, `i_mode`, its size and the number of its blocks. -/
structure ResizeInode where
  iBlock : ℕ → ℕ
  linksCount : ℕ
  mode : ℕ
  size : ℕ
  blocks : ℕ

/-- The entries of the blocks on the device, and the inode. -/
structure ResizeState where
  ind : ℕ → ℕ → ℕ
  inode : ResizeInode

/-- `EXT2_DIND_BLOCK`. -/
def dindBlock : ℕ := 13

variable (g : ResizeGeometry)

/-- `EXT2_ADDR_PER_BLOCK`. -/
def ResizeGeometry.apb : ℕ := g.blocksize / 4

/-! ### The creator -/

/-- What `ext2fs_create_resize_inode` writes: an indirect block, or the inode. -/
inductive ResizeWrite where
  | indBlock (blk : ℕ)
  | inode
  deriving DecidableEq

/-- The variables of `ext2fs_create_resize_inode`. -/
structure ResizeWork where
  dindirBuf : ℕ → ℕ
  dindirDirty : Bool
  inode : ResizeInode
  inodeDirty : Bool
  ind : ℕ → ℕ → ℕ
  writes : List ResizeWrite

/-- The block of the superblock. -/
def ResizeGeometry.sbBlk : ℕ := if g.blocksize = 1024 ∧ g.firstDataBlock = 0 then 1
    else g.firstDataBlock

/-- The loop over the groups with a backup, of at most `n` rounds. The result is the block, the
number of entries that were added, and whether an entry was wrong. -/
def addBackups (gdtBlk : ℕ) : ℕ → BackupCounters → ℕ → (ℕ → ℕ) → ℕ → (ℕ → ℕ) × ℕ × Bool
  | 0, _, _, gdtBuf, added => (gdtBuf, added, false)
  | n + 1, c, last, gdtBuf, added =>
    let grp := (listBackups g.toBackupGeometry c).1
    let c := (listBackups g.toBackupGeometry c).2
    if grp < g.groupDescCount then
      let expect := (gdtBlk + grp * g.blocksPerGroup) % 2 ^ 32
      if gdtBuf last = 0 then addBackups gdtBlk n c (last + 1)
        (Function.update gdtBuf last expect) (added + 1)
      else if gdtBuf last ≠ expect then (gdtBuf, added, true)
      else addBackups gdtBlk n c (last + 1) gdtBuf added
    else (gdtBuf, added, false)

/-- A round of the loop over the reserved blocks; `none` for an entry of the double indirect block
that is wrong. The second component says whether an entry of the reserved block is. -/
def addReserved (w : ResizeWork) (gdtOff gdtBlk : ℕ) : Option (ResizeWork × Bool) :=
  let entry := w.dindirBuf gdtOff
  if entry ≠ 0 ∧ entry ≠ gdtBlk then none
  else
    let fresh := decide (entry = 0)
    let r := addBackups g gdtBlk (g.groupDescCount + 3) firstCounters 0 (if fresh then fun _ => 0
      else w.ind gdtBlk) 0
    let dirty := fresh || decide (r.2.1 ≠ 0)
    let w := { w with
      dindirBuf := if fresh then Function.update w.dindirBuf gdtOff gdtBlk else w.dindirBuf
      dindirDirty := w.dindirDirty || fresh
      inode := { w.inode with blocks := w.inode.blocks + r.2.1 + (if fresh then 1 else 0) }
      inodeDirty := w.inodeDirty || dirty }
    if r.2.2 || !dirty then some (w, r.2.2)
    else some
      ({ w with ind := Function.update w.ind gdtBlk r.1, writes := w.writes ++ [.indBlock gdtBlk] },
      false)

/-- The loop over the reserved blocks. The second component is `EXT2_ET_RESIZE_INODE_CORRUPT`. -/
def addAllReserved : ℕ → ResizeWork → ℕ → ℕ → ResizeWork × Bool
  | 0, w, _, _ => (w, false)
  | n + 1, w, gdtOff, gdtBlk =>
    match addReserved g w (gdtOff % g.apb) gdtBlk with
    | none => (w, true)
    | some (w, true) => (w, true)
    | some (w, false) => addAllReserved n w (gdtOff % g.apb + 1) (gdtBlk + 1)

/-- `ext2fs_create_resize_inode`, with the block that `ext2fs_alloc_block` gives it when the inode
has no double indirect block. The results are what is on the device afterwards, whether the inode
was found corrupt, and what was written. -/
def createResizeInode (alloc : ℕ) (st : ResizeState) : ResizeState × Bool × List ResizeWrite :=
  let dindirBlk := st.inode.iBlock dindBlock
  let fresh := decide (dindirBlk = 0)
  let dindirBlk := if fresh then alloc else dindirBlk
  let inode := if fresh then
      { iBlock := Function.update st.inode.iBlock dindBlock alloc
        linksCount := 1
        mode := 0o100600
        size := (g.apb * g.apb + g.apb + 12) * g.blocksize
        blocks := 1 }
    else st.inode
  let w : ResizeWork :=
    { dindirBuf := if fresh then fun _ => 0 else st.ind dindirBlk
      dindirDirty := fresh
      inode := inode
      inodeDirty := fresh
      ind := st.ind
      writes := [] }
  let r := addAllReserved g g.reservedGdtBlocks w g.descBlocks (g.sbBlk + 1 + g.descBlocks)
  ({ ind := if r.1.dindirDirty then Function.update r.1.ind dindirBlk r.1.dindirBuf else r.1.ind
     inode := if r.1.inodeDirty then r.1.inode else st.inode },
    r.2,
    r.1.writes ++ (if r.1.dindirDirty then [.indBlock dindirBlk] else []) ++
      (if r.1.inodeDirty then [.inode] else []))

/-! ### The checker -/

/-- The loop over the groups of `check_resize_inode`. -/
def checkBackups (indBuf : ℕ → ℕ) (pblk : ℕ) : List ℕ → ℕ → Bool
  | [], _ => true
  | j :: js, indOff =>
    if !bgHasSuper g.toBackupGeometry j then checkBackups indBuf pblk js indOff
    else if indBuf indOff ≠ (pblk + g.blocksPerGroup * j) % 2 ^ 32 then false
    else checkBackups indBuf pblk js (indOff + 1)

/-- The loop over the reserved blocks of `check_resize_inode`. -/
def checkReserved (ind : ℕ → ℕ → ℕ) (dindBuf : ℕ → ℕ) : ℕ → ℕ → ℕ → Bool
  | 0, _, _ => true
  | n + 1, gdtOff, pblk =>
    if dindBuf (gdtOff % (g.blocksize / 4)) ≠ pblk then false
    else if !checkBackups g (ind pblk) pblk (List.range' 1 (g.groupDescCount - 1)) 0 then false
    else checkReserved ind dindBuf n (gdtOff % (g.blocksize / 4) + 1) (pblk + 1)

/-- `check_resize_inode`, on a file system with a resize inode: whether the inode is left as it
is. -/
def checkResizeInode (st : ResizeState) : Bool :=
  let blk := st.inode.iBlock dindBlock
  if (List.range 15).any (fun i => decide (i ≠ dindBlock) && decide (st.inode.iBlock i ≠ 0)) ||
    decide (blk = 0) ||
    decide (st.inode.linksCount = 0) || decide (st.inode.mode / 0o100000 % 2 = 0) ||
    decide (blk < g.firstDataBlock) || decide (g.blocksCount ≤ blk) then false
  else
    let pblk := g.firstDataBlock + 1 + g.descBlocks
    let pblk := if g.blocksize = 1024 ∧ g.firstDataBlock = 0 then pblk + 1 else pblk
    checkReserved g st.ind (st.ind blk) (g.reservedGdtBlocks / 4) g.descBlocks pblk

end E2fsprogs
