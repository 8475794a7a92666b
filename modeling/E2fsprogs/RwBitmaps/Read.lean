import E2fsprogs.Bitmap.Picture
import E2fsprogs.Lib.Workers
import E2fsprogs.Super.Flush

/-!
# Reading the bitmaps

`ext2fs_rw_bitmaps` of `lib/ext2fs/rw_bitmaps.c`, for reading. The bitmaps of a group come from the
disk, or are empty where the group has not been initialised; they are set in the bitmaps in memory,
group by group, and at the end the blocks are marked that the groups without a block bitmap use
themselves.

The groups may be given to several threads, each with a range of them. What a thread does on its own
is one step up to and with the insertion, for which it has the mutex.

What is done for the block bitmap of a group is done for its inode bitmap, with other fields.
-/

namespace E2fsprogs

inductive BitmapSort
  | block
  | inode
  deriving DecidableEq

/-- What reading and writing the bitmaps fails with. -/
inductive RwErr
  | roFilsys
  | corruptSuperblock
  | cantUseLegacyBitmaps
  | bitmapRead (sort : BitmapSort)
  | bitmapCsumInvalid (sort : BitmapSort)
  | bitmapWrite (sort : BitmapSort)
  | range (e : RangeError)
  | io
  deriving DecidableEq

/-- A group descriptor, with the low and the high half of the checksums of the bitmaps. -/
structure RwDesc where
  bitmapLoc : BitmapSort → ℕ
  inodeTableLoc : ℕ
  uninit : BitmapSort → Bool
  bitmapCsum : BitmapSort → ℕ × ℕ
  checksum : ℕ

inductive MapType
  | bitarray
  | rbtree
  | legacy
  deriving DecidableEq

/-- The channel and the header of an image file. -/
structure RwImage where
  offset : BitmapSort → ℕ
  read : ℕ → Option Block

/-- The file system, as far as reading and writing the bitmaps leaves it. -/
structure RwFs extends FlushFs, SuperLayout where
  rw : Bool
  blocksCount : ℕ
  inodesCount : ℕ
  clustersPerGroup : ℕ
  inodesPerGroup : ℕ
  clusterRatioBits : ℕ
  inodeBlocksPerGroup : ℕ
  reservedGdtBlocks : ℕ
  logGroupsPerFlex : ℕ
  flexBg : Bool
  gdtCsum : Bool
  metadataCsum : Bool
  ignoreCsumErrors : Bool
  csumSeed : ℕ
  /-- `ext2fs_group_desc_csum` of a descriptor whose other fields are as they are. -/
  descCrc : ℕ → RwDesc → ℕ
  /-- The type of a new bitmap. -/
  mapType : MapType
  image : Option RwImage
  /-- The channel can be used by several threads. -/
  threads : Bool

/-- Something for each of the two bitmaps. -/
abbrev PerSort (α : Type) := BitmapSort → α

/-- The bitmaps of the handle, and the flags for the problems with their tails. -/
structure RwState where
  map : PerSort (Option BlockBitmap)
  tail : PerSort Bool

/-- `bitmap_tail_verify`. -/
def bitmapTailVerify (bitmap : Block) (first last : ℕ) : Bool :=
  (List.range' first (last + 1 - first)).all fun i => bitmap i = 0xff

namespace RwFs

variable (fs : RwFs)

/-- `ext2fs_has_group_desc_csum`. -/
def hasGroupDescCsum : Bool := fs.metadataCsum || fs.gdtCsum

/-- `block_nbytes` and `inode_nbytes`. -/
def nbytes : PerSort ℕ
  | .block => fs.clustersPerGroup / 8
  | .inode => fs.inodesPerGroup / 8

/-- The bits of a group. -/
def groupBits (sort : BitmapSort) : ℕ := fs.nbytes sort * 8

/-- `blk_itr` and `ino_itr` at a group. The number of an inode has 32 bits. -/
def itr (sort : BitmapSort) (group : ℕ) : ℕ :=
  match sort with
  | .block => fs.firstDataBlock >>> fs.clusterRatioBits + group * fs.groupBits .block
  | .inode => (1 + group * fs.groupBits .inode) % 2 ^ 32

/-! ### Checksums -/

/-- `ext2fs_group_desc_csum_verify`. -/
def groupDescCsumVerify (group : ℕ) (d : RwDesc) : Bool :=
  !fs.hasGroupDescCsum || fs.descCrc group { d with checksum := 0 } = d.checksum

/-- The descriptor is large enough for the high half. -/
def hasCsumHi : PerSort Bool
  | .block => 58 ≤ fs.descSize
  | .inode => 60 ≤ fs.descSize

/-- The checksum of a bitmap. -/
def bitmapCrc (bitmap : Block) (size : ℕ) : ℕ := ext2fsCrc32cLe fs.csumSeed (bytesOf bitmap size)

/-- `ext2fs_block_bitmap_csum_verify` and `ext2fs_inode_bitmap_csum_verify`. -/
def bitmapCsumVerify (sort : BitmapSort) (d : RwDesc) (bitmap : Block) : Bool :=
  if fs.metadataCsum = false then true
  else
    let lo := (d.bitmapCsum sort).1
    let calculated := fs.bitmapCrc bitmap (fs.nbytes sort)
    if fs.hasCsumHi sort then lo ||| (d.bitmapCsum sort).2 <<< 16 = calculated
    else lo = calculated &&& 0xffff

/-! ### The new bitmaps -/

/-- `ext2fs_alloc_generic_bmap` and `ext2fs_make_generic_bitmap`. -/
def newBitmap (clusterBits start last realEnd : ℕ) : Option BlockBitmap :=
  match fs.mapType with
  | .bitarray => some (.ba clusterBits start last fun _ => 0)
  | .rbtree => some (.rb clusterBits start last RbPrivate.empty)
  | .legacy => if 2 ^ 32 ≤ last ∨ 2 ^ 32 ≤ realEnd then none
    else some (.legacy start last realEnd fun _ => 0)

/-- `ext2fs_allocate_block_bitmap` and `ext2fs_allocate_inode_bitmap`. -/
def allocateBitmap : PerSort (Option BlockBitmap)
  | .block =>
    let start := fs.firstDataBlock >>> fs.clusterRatioBits
    fs.newBitmap fs.clusterRatioBits start ((fs.blocksCount - 1) >>> fs.clusterRatioBits)
      (fs.clustersPerGroup * fs.groupDescCount - 1 + start)
  | .inode => fs.newBitmap 0 1 fs.inodesCount (fs.inodesPerGroup * fs.groupDescCount)

/-- `read_bitmaps_cleanup_on_error`. -/
def cleanup (flags : PerSort Bool) (st : RwState) : RwState :=
  { st with map := fun sort => if flags sort then none else st.map sort }

/-- The bitmaps of a group do not fit into a block. -/
def TooLarge : Prop := fs.blocksize < fs.nbytes .block ∨ fs.blocksize < fs.nbytes .inode

instance : Decidable fs.TooLarge := inferInstanceAs (Decidable (_ ∨ _))

/-- `read_bitmaps_range_prepare`. -/
def readBitmapsRangePrepare (flags : PerSort Bool) (st : RwState) : Option RwErr × RwState :=
  if fs.TooLarge then (some .corruptSuperblock, st)
  else if (flags .block ∧ fs.allocateBitmap .block = none) ∨
    (flags .inode ∧ fs.allocateBitmap .inode = none) then
    (some .cantUseLegacyBitmaps, cleanup flags st)
  else (none,
    { st with map := fun sort => if flags sort then fs.allocateBitmap sort else st.map sort })

/-! ### A bitmap of a group -/

section Group

variable (descs : ℕ → RwDesc) (disk : ℕ → Option Block)

/-- The block that the bitmap of a group is read from, 0 if it is not. -/
def bitmapBlk (sort : BitmapSort) (group : ℕ) : ℕ :=
  let d := descs group
  if (fs.hasGroupDescCsum = true ∧ d.uninit sort = true ∧ fs.groupDescCsumVerify group d = true) ∨
    fs.blocksCount ≤ d.bitmapLoc sort then 0 else d.bitmapLoc sort

/-- The bitmap of a group, and whether its tail has a problem. -/
def groupBitmap (sort : BitmapSort) (group : ℕ) : Except RwErr (Block × Bool) :=
  let blk := fs.bitmapBlk descs sort group
  if blk = 0 then .ok (zeroBlock, false)
  else match disk blk with
    | none => .error (.bitmapRead sort)
    | some bitmap =>
      if fs.ignoreCsumErrors = false ∧ fs.bitmapCsumVerify sort (descs group) bitmap = false then
        .error (.bitmapCsumInvalid sort)
      else .ok (bitmap, !bitmapTailVerify bitmap (fs.nbytes sort) (fs.blocksize - 1))

/-- A block of an image file with some of the bits of a bitmap. -/
structure ImageRun where
  sort : BitmapSort
  blk : ℕ
  itr : ℕ
  cnt : ℕ

/-- What is read in one go. -/
inductive ReadPart
  | group (sort : BitmapSort) (group : ℕ)
  | image (run : ImageRun)

variable (bal : SearchTree RbExtent → List RbExtent → SearchTree RbExtent)

/-- `ext2fs_set_block_bitmap_range2` and `ext2fs_set_inode_bitmap_range2`, on the bitmap of the
handle. -/
def setBitmapRange (sort : BitmapSort) (start num : ℕ) (bitmap : Block) (st : RwState) :
    Except RwErr RwState :=
  match st.map sort with
  | none => .error (.range .einval)
  | some bm =>
    match bm.setRange bal start num bitmap with
    | .error e => .error (.range e)
    | .ok bm' => .ok { st with map := Function.update st.map sort (some bm') }

/-- A part is read and set in the bitmap; the flags for the tails are those of the caller. -/
def readPart : ReadPart → PerSort Bool → RwState → Except RwErr (PerSort Bool × RwState)
  | .group sort group, tail, st =>
    match fs.groupBitmap descs disk sort group with
    | .error e => .error e
    | .ok (bitmap, problem) =>
      match setBitmapRange bal sort (fs.itr sort group) (fs.groupBits sort) bitmap st with
      | .error e => .error e
      | .ok st' => .ok (Function.update tail sort (tail sort || problem), st')
  | .image run, tail, st =>
    match fs.image.bind fun image => image.read run.blk with
    | none => .error .io
    | some bitmap =>
      match setBitmapRange bal run.sort run.itr run.cnt bitmap st with
      | .error e => .error e
      | .ok st' => .ok (tail, st')

/-- The blocks of an image file for `cnt` bits: a block has `bits` of them. At most `n` blocks. -/
def imageRuns (sort : BitmapSort) (bits : ℕ) : ℕ → ℕ → ℕ → ℕ → List ImageRun
  | 0, _, _, _ => []
  | n + 1, blk, itr, cnt =>
    if 0 < cnt then
      ⟨sort, blk, itr, min bits cnt⟩ :: imageRuns sort bits n (blk + 1) (itr + min bits cnt)
        (cnt - min bits cnt)
    else []

/-- The parts of an image file. -/
def imageParts (image : RwImage) (flags : PerSort Bool) : List ReadPart :=
  let bits := fs.blocksize * 8
  let runs sort cnt := if flags sort then imageRuns sort bits cnt (image.offset sort / fs.blocksize)
    (fs.itr sort 0) cnt else []
  (runs .inode fs.inodesCount ++ runs .block (fs.clustersPerGroup * fs.groupDescCount)).map .image

/-- The parts of a group. -/
def groupParts (flags : PerSort Bool) (group : ℕ) : List ReadPart :=
  (if flags .block then [.group .block group] else []) ++ if flags .inode then [.group .inode group]
    else []

/-- The groups from one up to another. -/
def groupsOf (r : ℕ × ℕ) : List ℕ := List.range' r.1 (r.2 + 1 - r.1)

/-- What `read_bitmaps_range_start` reads, in this order. -/
def rangeParts (flags : PerSort Bool) (r : ℕ × ℕ) : List ReadPart :=
  match fs.image with
  | some image => fs.imageParts image flags
  | none => (groupsOf r).flatMap (groupParts flags)

/-! ### The end of it -/

/-- The blocks that are kept for descriptors from `oldDescBlk` on. -/
def oldDescNum (oldDescBlk : ℕ) : ℕ :=
  let oldDescBlocks := if fs.metaBg then fs.firstMetaBg else fs.descBlocks + fs.reservedGdtBlocks
  if fs.blocksCount ≤ oldDescBlk + oldDescBlocks then fs.blocksCount - oldDescBlk else oldDescBlocks

/-- `ext2fs_reserve_super_and_bgd`. -/
def reserveSuperAndBgd (group : ℕ) (bmap : BlockBitmap) : BlockBitmap :=
  let loc := superAndBgdLoc fs.toFlushFs fs.toSuperLayout group
  let bmap := if loc.1 ≠ 0 ∨ group = 0 then bmap.mark bal loc.1 else bmap
  let bmap := if group = 0 ∧ fs.blocksize = 1024 ∧ 0 < fs.clusterRatioBits then
    bmap.mark bal 0 else bmap
  let bmap := if loc.2.1 ≠ 0 then bmap.markRange bal loc.2.1 (fs.oldDescNum loc.2.1) else bmap
  if loc.2.2 ≠ 0 then bmap.mark bal loc.2.2 else bmap

/-- A round of `mark_uninit_bg_group_blocks`. -/
def markUninitGroup (group : ℕ) (bmap : BlockBitmap) : BlockBitmap :=
  let d := descs group
  if d.uninit .block then
    let bmap := fs.reserveSuperAndBgd bal group bmap
    let bmap := if d.inodeTableLoc ≠ 0 then
      bmap.markRange bal d.inodeTableLoc fs.inodeBlocksPerGroup else bmap
    let bmap := if d.bitmapLoc .block ≠ 0 then bmap.mark bal (d.bitmapLoc .block) else bmap
    if d.bitmapLoc .inode ≠ 0 then bmap.mark bal (d.bitmapLoc .inode) else bmap
  else bmap

/-- `mark_uninit_bg_group_blocks`. -/
def markUninitBgGroupBlocks (bmap : BlockBitmap) : BlockBitmap :=
  (List.range fs.groupDescCount).foldl
    (fun bmap group => fs.markUninitGroup descs bal group bmap) bmap

/-- `read_bitmaps_range_end`. -/
def readBitmapsRangeEnd (flags tail : PerSort Bool) (st : RwState) : RwState where
  map sort := if flags sort ∧
    sort = .block then (st.map sort).map (fs.markUninitBgGroupBlocks descs bal) else st.map sort
  tail sort := (!flags sort && st.tail sort) || tail sort

/-! ### One thread, and several -/

/-- `read_bitmaps_range`. Whatever has been read when it fails is freed. -/
def readBitmapsRange (flags : PerSort Bool) (r : ℕ × ℕ) (st : RwState) : Option RwErr × RwState :=
  match fs.readBitmapsRangePrepare flags st with
  | (some e, st') => (some e, st')
  | (none, st') =>
    match Workers.serial (fs.readPart descs disk bal) (fs.rangeParts flags r)
      (fun _ => false) st' with
    | .error e => (some e, cleanup flags st')
    | .ok (tail, st'') => (none, fs.readBitmapsRangeEnd descs bal flags tail st'')

/-- The last group. The count has 32 bits. -/
def lastGroup : ℕ := (fs.groupDescCount + (2 ^ 32 - 1)) % 2 ^ 32

/-- The threads that there can be. -/
def ThreadsAllowed (numThreads : ℤ) : Prop := fs.threads = true ∧ numThreads ≠ 1 ∧ fs.image = none

instance (numThreads : ℤ) : Decidable (fs.ThreadsAllowed numThreads) :=
  inferInstanceAs (Decidable (_ ∧ _ ∧ _ = none))

/-- `num_threads`, once it has been set; `nproc` is what `sysconf` returns. -/
def threadCount (nproc numThreads : ℤ) : ℕ :=
  let num := if numThreads < 0 then nproc else numThreads
  let num := if num < 0 then 4 else num
  min num.toNat fs.groupDescCount

/-- `average_group`. The size of a flexible group is shifted as an `int`. -/
def averageGroup (num : ℕ) : ℕ :=
  let average := fs.groupDescCount / num
  let flexbgSize := 1 <<< (fs.logGroupsPerFlex % 32)
  if fs.flexBg then average / flexbgSize * flexbgSize else average

/-- `rbt_grp_start` and `rbt_grp_end`. -/
def threadRange (num i : ℕ) : ℕ × ℕ :=
  (if i = 0 then 0 else fs.averageGroup num * i + 1,
    if i = num - 1 then fs.lastGroup else fs.averageGroup num * (i + 1))

/-- The threads, before any has run. -/
def startThreads (flags : PerSort Bool) (num : ℕ) :
    List (Workers.Worker ReadPart (PerSort Bool) RwErr) :=
  (List.range num).map fun i => ⟨fs.rangeParts flags (fs.threadRange num i), fun _ => false, none⟩

/-- What is done once the threads have been joined. -/
def joinThreads (flags : PerSort Bool) (ws : List (Workers.Worker ReadPart (PerSort Bool) RwErr))
    (st : RwState) :
    Option RwErr × RwState :=
  match ws.findSome? Workers.Worker.error with
  | some e => (some e, cleanup flags st)
  | none =>
    (none, fs.readBitmapsRangeEnd descs bal flags (fun sort => ws.any fun w => w.own sort) st)

inductive RwOutcome
  | divisionByZero
  | done (r : Option RwErr × RwState)

/-- **`ext2fs_rw_bitmaps`**, when it reads: what it can come to. -/
inductive RwBitmaps (flags : PerSort Bool) (nproc numThreads : ℤ) (st : RwState) : RwOutcome → Prop
  | fallback (h : ¬fs.ThreadsAllowed numThreads) :
    RwBitmaps flags nproc numThreads st
      (.done (fs.readBitmapsRange descs disk bal flags (0, fs.lastGroup) st))
  | divisionByZero (h : fs.ThreadsAllowed numThreads) (hnum : fs.threadCount nproc numThreads = 0) :
    RwBitmaps flags nproc numThreads st .divisionByZero
  | few (h : fs.ThreadsAllowed numThreads) (hnum : fs.threadCount nproc numThreads ≠ 0)
    (hfew : fs.threadCount nproc numThreads ≤ 1 ∨
      fs.averageGroup (fs.threadCount nproc numThreads) = 0) :
    RwBitmaps flags nproc numThreads st
      (.done (fs.readBitmapsRange descs disk bal flags (0, fs.lastGroup) st))
  | notPrepared {e : RwErr} {st' : RwState} (h : fs.ThreadsAllowed numThreads)
    (hnum : 1 < fs.threadCount nproc numThreads) (haverage :
      fs.averageGroup (fs.threadCount nproc numThreads) ≠ 0)
    (hprepare : fs.readBitmapsRangePrepare flags st = (some e, st')) :
    RwBitmaps flags nproc numThreads st (.done (some e, cleanup flags st'))
  | joined {st₁ st₂ : RwState} {ws : List (Workers.Worker ReadPart (PerSort Bool) RwErr)}
    (h : fs.ThreadsAllowed numThreads) (hnum : 1 < fs.threadCount nproc numThreads)
    (haverage : fs.averageGroup (fs.threadCount nproc numThreads) ≠ 0)
    (hprepare : fs.readBitmapsRangePrepare flags st = (none, st₁))
    (hrun : Relation.ReflTransGen (Workers.Step (fs.readPart descs disk bal))
      (fs.startThreads flags (fs.threadCount nproc numThreads), st₁) (ws, st₂))
    (hfinished : Workers.Finished ws) :
    RwBitmaps flags nproc numThreads st (.done (fs.joinThreads descs bal flags ws st₂))

end Group

end RwFs

end E2fsprogs
