import E2fsprogs.RwBitmaps.Threads

/-!
# Writing the bitmaps

`write_bitmaps` of `lib/ext2fs/rw_bitmaps.c`. For each group the bits are got into a buffer, which
is written; the checksums in the descriptor are set. A group that has not been initialised is passed
over.

There are two buffers for all the groups. They are all ones at first, and what a group does not fill
is left as it is: the tail behind the bits of a group, but also everything, where the bitmap is a
tree without nodes.
-/

namespace E2fsprogs

/-- What `write_bitmaps` changes. -/
structure RwWriteState where
  buf : PerSort Block
  descs : ℕ → RwDesc
  disk : ℕ → Option Block

namespace RwFs

variable (fs : RwFs)

/-- `block_nbytes` and `inode_nbytes`, as the writer has them. -/
def writeNbytes : PerSort ℕ
  | .block => fs.clustersPerGroup / 8
  | .inode => (fs.inodesPerGroup + 7) / 8

/-- The bits of a group, as the writer has them. -/
def writeBits (sort : BitmapSort) : ℕ := fs.writeNbytes sort * 8

/-- `blk_itr` and `ino_itr` at a group. -/
def writeItr (sort : BitmapSort) (group : ℕ) : ℕ :=
  match sort with
  | .block => fs.firstDataBlock >>> fs.clusterRatioBits + group * fs.writeBits .block
  | .inode => (1 + group * fs.writeBits .inode) % 2 ^ 32

/-- `nbits`: the clusters of the last group, 0 if it is a whole one. -/
def lastBits : ℕ :=
  ((fs.blocksCount - fs.firstDataBlock) % fs.blocksPerGroup + (2 ^ fs.clusterRatioBits - 1)) >>>
    fs.clusterRatioBits

/-- The bits behind the last group are set. -/
def padLast (bitmap : Block) : Block :=
  if fs.lastBits ≠ 0 then
    (List.range' fs.lastBits (fs.blocksize * 8 - fs.lastBits)).foldl
      (fun b j => setBitAt b j) bitmap
  else bitmap

/-- `ext2fs_block_bitmap_csum_set` and `ext2fs_inode_bitmap_csum_set`. -/
def bitmapCsumSet (sort : BitmapSort) (d : RwDesc) (bitmap : Block) : RwDesc :=
  if fs.metadataCsum = false then d
  else
    let crc := fs.bitmapCrc bitmap (fs.writeNbytes sort)
    let hi := if fs.hasCsumHi sort then crc >>> 16 else (d.bitmapCsum sort).2
    { d with bitmapCsum := Function.update d.bitmapCsum sort (crc &&& 0xffff, hi) }

/-- `ext2fs_group_desc_csum_set`. -/
def groupDescCsumSet (group : ℕ) (d : RwDesc) : RwDesc :=
  if fs.hasGroupDescCsum then { d with checksum := fs.descCrc group { d with checksum := 0 } }
  else d

/-- The bitmap of a group is passed over. -/
def Skips (descs : ℕ → RwDesc) (sort : BitmapSort) (group : ℕ) : Prop :=
  fs.hasGroupDescCsum = true ∧ (descs group).uninit sort = true

instance (descs : ℕ → RwDesc) (sort : BitmapSort) (group : ℕ) :
    Decidable (fs.Skips descs sort group) :=
  inferInstanceAs (Decidable (_ ∧ _))

section Write

variable (writable : ℕ → Bool) (map : PerSort BlockBitmap)

/-- A bitmap of a group. -/
def writeBitmap (st : RwWriteState) (p : BitmapSort × ℕ) : Except RwErr RwWriteState :=
  let sort := p.1
  let group := p.2
  if fs.Skips st.descs sort group then .ok st
  else match (map sort).getRange (fs.writeItr sort group) (fs.writeBits sort) (st.buf sort) with
    | .error e => .error (.range e)
    | .ok buf =>
      let buf := if sort = .block ∧ group = fs.groupDescCount - 1 then fs.padLast buf else buf
      let d := fs.groupDescCsumSet group (fs.bitmapCsumSet sort (st.descs group) buf)
      let st : RwWriteState :=
        ⟨Function.update st.buf sort buf, Function.update st.descs group d, st.disk⟩
      let blk := d.bitmapLoc sort
      if blk = 0 then .ok st
      else if writable blk then .ok { st with disk := Function.update st.disk blk (some buf) }
      else .error (.bitmapWrite sort)

/-- The bitmaps, in the order in which they are written. -/
def writeList (flags : PerSort Bool) : List (BitmapSort × ℕ) :=
  (List.range fs.groupDescCount).flatMap fun g =>
    (if flags .block then [(.block, g)] else []) ++ if flags .inode then [(.inode, g)] else []

/-- **`write_bitmaps`.** -/
def writeBitmaps (flags : PerSort Bool) (descs : ℕ → RwDesc) (disk : ℕ → Option Block) :
    Except RwErr RwWriteState :=
  if fs.rw = false then .error .roFilsys
  else (fs.writeList flags).foldlM (fs.writeBitmap writable map) ⟨fun _ _ => 0xff, descs, disk⟩

end Write

end RwFs

end E2fsprogs
