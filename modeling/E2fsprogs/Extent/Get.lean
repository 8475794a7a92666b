import E2fsprogs.Lib.Bytes
import E2fsprogs.Lib.Crc32
import E2fsprogs.Lib.Loop

/-!
# Moving through an extent tree

`ext2fs_extent_get` of `lib/ext2fs/extent.c`. A handle holds a path from the root, which is in the
inode, to the current node: for each level the bytes of the node, the entry the path goes through,
how many entries are left behind it, and whether the entry has been visited before. Going down reads
a node into the buffer of its level.

A node is a block of bytes: a header of 12 bytes and entries of 12 bytes each. A pointer to an entry
is its offset. A file system that is opened as an image file is left out, and so are device errors.
-/

namespace E2fsprogs

/-! ### Nodes -/

/-- `eh_entries`. -/
def ehEntries (buf : Block) : ℕ := getLe buf 2 2

/-- `eh_max`. -/
def ehMax (buf : Block) : ℕ := getLe buf 4 2

/-- `eh_depth`. -/
def ehDepth (buf : Block) : ℕ := getLe buf 6 2

/-- `ei_block` of an index entry, which is `ee_block` of an extent. -/
def eiBlock (buf : Block) (ix : ℕ) : ℕ := getLe buf ix 4

/-- The block of the node below an index entry. -/
def eiLeaf (buf : Block) (ix : ℕ) : ℕ := getLe buf (ix + 4) 4 + getLe buf (ix + 8) 2 * 2 ^ 32

/-- `ee_len`. -/
def eeLen (buf : Block) (ix : ℕ) : ℕ := getLe buf (ix + 4) 2

/-- The first block of an extent on the device. -/
def eeStart (buf : Block) (ix : ℕ) : ℕ := getLe buf (ix + 8) 4 + getLe buf (ix + 6) 2 * 2 ^ 32

/-- `EXT_FIRST_INDEX`. -/
def firstEntry : ℕ := 12

/-- `EXT_LAST_INDEX`. -/
def lastEntry (buf : Block) : ℕ := 12 + 12 * ehEntries buf - 12

/-! ### Handles -/

/-- The parts of the file system and of the inode that are read besides the nodes. -/
structure ExtentFs where
  disk : ℕ → Block
  blocksize : ℕ
  metadataCsum : Bool
  csumSeed : ℕ
  ino : ℕ
  generation : ℕ
  /-- `EXT2_FLAG_IGNORE_CSUM_ERRORS`. -/
  ignoreCsumErrors : Bool

/-- `struct extent_path`. -/
structure ExtentPath where
  buf : Block
  entries : ℕ
  maxEntries : ℕ
  left : ℕ
  visitNum : ℕ
  endBlk : ℕ
  curr : Option ℕ

/-- `struct ext2_extent_handle`. -/
structure ExtentHandle where
  level : ℕ
  maxDepth : ℕ
  path : ℕ → ExtentPath

/-- `struct ext2fs_extent`, with its flags. -/
structure Extent where
  pblk : ℕ
  lblk : ℕ
  len : ℕ
  leaf : Bool
  uninit : Bool
  secondVisit : Bool
  deriving DecidableEq

/-- The ways to move. -/
inductive ExtentOp where
  | current
  | root
  | lastLeaf
  | firstSib
  | lastSib
  | nextSib
  | prevSib
  | nextLeaf
  | prevLeaf
  | next
  | prev
  | up
  | down
  | downAndLast
  | other
  deriving DecidableEq

/-- The error codes. -/
inductive ExtentErr where
  | headerBad
  | noNext
  | noPrev
  | noUp
  | noDown
  | noCurrentNode
  | csumInvalid
  | opNotSupported
  deriving DecidableEq

variable (fs : ExtentFs)

/-- `ext2fs_extent_header_verify`. Both kinds of entries have 12 bytes. -/
def extentHeaderVerify (buf : Block) (size : ℕ) : Bool :=
  decide (getLe buf 0 2 = 0xF30A) && decide (ehEntries buf ≤ ehMax buf) && decide
    (ehMax buf ≤ (size - 12) / 12) &&
    decide ((size - 12) / 12 ≤ ehMax buf + 2)

/-- `ext2fs_extent_block_csum_verify`. -/
def extentBlockCsumVerify (buf : Block) : Bool :=
  if !fs.metadataCsum then true
  else
    let tail := 12 + 12 * ehMax buf
    let crc := ext2fsCrc32cLe fs.csumSeed (bytesOf (putLe (fun _ => 0) 0 4 fs.ino) 4)
    let crc := ext2fsCrc32cLe crc (bytesOf (putLe (fun _ => 0) 0 4 fs.generation) 4)
    decide (getLe buf tail 4 = ext2fsCrc32cLe crc (bytesOf buf tail))

/-- `ext2fs_extent_open2`, for an inode whose `i_block` begins with a header: the handle, when the
header is sane. `endBlk` is the number of blocks of the file. -/
def extentOpen (iBlock : Block) (endBlk : ℕ) : Option ExtentHandle :=
  if !extentHeaderVerify iBlock 60 then none
  else some
    { level := 0
      maxDepth := ehDepth iBlock
      path := fun l =>
        if l = 0 then
          { buf := iBlock, entries := ehEntries iBlock, maxEntries := ehMax iBlock,
            left := ehEntries iBlock, visitNum := 1, endBlk := endBlk, curr := none }
        else
          { buf := fun _ => 0, entries := 0, maxEntries := 0, left := 0, visitNum := 0, endBlk := 0,
            curr := none } }

/-- The current level of the path is changed. -/
def ExtentHandle.setPath (h : ExtentHandle) (p : ExtentPath) : ExtentHandle :=
  { h with path := Function.update h.path h.level p }

/-- The current level of the path. -/
def ExtentHandle.here (h : ExtentHandle) : ExtentPath := h.path h.level

/-! ### One round -/

/-- The move that a round makes for the moves that are made of others. -/
def chooseOp (origOp : ExtentOp) (h : ExtentHandle) : Except ExtentErr (ExtentOp × ExtentHandle) :=
  let path := h.here
  if origOp = .next ∨ origOp = .nextLeaf then
    if h.level < h.maxDepth ∧
      path.visitNum = 0 then .ok (.down, h.setPath { path with visitNum := path.visitNum + 1 })
    else if 0 < path.left then .ok (.nextSib, h)
    else if 0 < h.level then .ok (.up, h)
    else .error .noNext
  else if origOp = .prev ∨ origOp = .prevLeaf then
    if h.level < h.maxDepth ∧ 0 < path.visitNum then .ok (.downAndLast, h)
    else if path.left + 1 < path.entries then .ok (.prevSib, h)
    else if 0 < h.level then .ok (.up, h)
    else .error .noPrev
  else if origOp = .lastLeaf then
    if h.level < h.maxDepth ∧ path.left = 0 then .ok (.down, h) else .ok (.lastSib, h)
  else .ok (origOp, h)

/-- What a move leads to: an error, or the current entry and whether a checksum was wrong. -/
structure ExtentMoved where
  handle : ExtentHandle
  result : Except ExtentErr (Option ℕ × Bool)

/-- `EXT2_EXTENT_NEXT_SIB`. -/
def moveNextSib (h : ExtentHandle) : ExtentMoved :=
  let path := h.here
  if path.left = 0 then ⟨h, .error .noNext⟩
  else
    let ix := match path.curr with
      | some ix => ix + 12
      | none => firstEntry
    ⟨h.setPath { path with left := path.left - 1, curr := some ix, visitNum := 0 },
      .ok (some ix, false)⟩

/-- `EXT2_EXTENT_PREV_SIB`. -/
def movePrevSib (h : ExtentHandle) : ExtentMoved :=
  let path := h.here
  match path.curr with
  | none => ⟨h, .error .noPrev⟩
  | some ix =>
    if path.entries ≤ path.left + 1 then ⟨h, .error .noPrev⟩
    else ⟨h.setPath { path with
      curr := some (ix - 12)
      left := path.left + 1
      visitNum := if h.level < h.maxDepth then 1 else path.visitNum }, .ok (some (ix - 12), false)⟩

/-- `EXT2_EXTENT_LAST_SIB`. -/
def moveLastSib (h : ExtentHandle) : ExtentMoved :=
  let path := h.here
  ⟨h.setPath { path with curr := some (lastEntry path.buf), left := 0, visitNum := 0 },
    .ok (some (lastEntry path.buf), false)⟩

/-- `EXT2_EXTENT_UP`. -/
def moveUp (origOp : ExtentOp) (h : ExtentHandle) : ExtentMoved :=
  if h.level = 0 then ⟨h, .error .noUp⟩
  else
    let h := { h with level := h.level - 1 }
    let path := h.here
    let path := if origOp = .prev ∨ origOp = .prevLeaf then { path with visitNum := 0 } else path
    ⟨h.setPath path, .ok (path.curr, false)⟩

/-- `EXT2_EXTENT_DOWN` and `EXT2_EXTENT_DOWN_AND_LAST`. -/
def moveDown (last : Bool) (h : ExtentHandle) : ExtentMoved :=
  let path := h.here
  match path.curr with
  | none => ⟨h, .error .noDown⟩
  | some ix =>
    if h.maxDepth ≤ h.level then ⟨h, .error .noDown⟩
    else
      let newpath := h.path (h.level + 1)
      let buf := fs.disk (eiLeaf path.buf ix)
      if !extentHeaderVerify buf fs.blocksize then
        ⟨{ h with path := Function.update h.path (h.level + 1) { newpath with buf := buf } },
          .error .headerBad⟩
      else
        let h := { h with level := h.level + 1 }
        let failed := !fs.ignoreCsumErrors && !extentBlockCsumVerify fs buf
        let newpath := { newpath with
          buf := buf
          entries := ehEntries buf
          left := ehEntries buf
          maxEntries := ehMax buf }
        if ehEntries buf = 0 then ⟨h.setPath newpath, .error .noDown⟩
        else
          let newpath := { newpath with
            endBlk := if 0 < path.left then eiBlock path.buf (ix + 12) else path.endBlk }
          if last then
            ⟨h.setPath { newpath with
              curr := some (lastEntry buf)
              left := 0
              visitNum := if h.level < h.maxDepth then 1 else newpath.visitNum },
              .ok (some (lastEntry buf), failed)⟩
          else
            ⟨h.setPath
              { newpath with curr := some firstEntry, left := ehEntries buf - 1, visitNum := 0 },
              .ok (some firstEntry, failed)⟩

/-- The `switch` over the moves. -/
def moveExtent (origOp op : ExtentOp) (h : ExtentHandle) : ExtentMoved :=
  match op with
  | .current => ⟨h, .ok (h.here.curr, false)⟩
  | .root =>
    let h := { h with level := 0 }
    moveNextSib (h.setPath { h.here with left := h.here.entries, curr := none })
  | .firstSib => moveNextSib (h.setPath { h.here with left := h.here.entries, curr := none })
  | .nextSib => moveNextSib h
  | .prevSib => movePrevSib h
  | .lastSib => moveLastSib h
  | .up => moveUp origOp h
  | .down => moveDown fs false h
  | .downAndLast => moveDown fs true h
  | _ => ⟨h, .error .opNotSupported⟩

/-- The extent that is returned for an entry of the current node. -/
def ExtentHandle.extent (h : ExtentHandle) (ix : ℕ) : Extent :=
  let path := h.here
  if h.level = h.maxDepth then
    let len := eeLen path.buf ix
    { pblk := eeStart path.buf ix
      lblk := eiBlock path.buf ix
      len := if 32768 < len then len - 32768 else len
      leaf := true
      uninit := decide (32768 < len)
      secondVisit := decide (path.visitNum ≠ 0) }
  else
    let endBlk := if 0 < path.left then eiBlock path.buf (ix + 12) else path.endBlk
    { pblk := eiLeaf path.buf ix
      lblk := eiBlock path.buf ix
      len := (endBlk + 2 ^ 64 - eiBlock path.buf ix) % 2 ^ 32
      leaf := false
      uninit := false
      secondVisit := decide (path.visitNum ≠ 0) }

/-- From `retry` on: the call returns, or goes back to `retry`. The flag is `failed_csum`. -/
def getStep (origOp : ExtentOp) (s : ExtentHandle × Bool) :
    ExtentHandle × Bool ⊕ Except ExtentErr Extent × ExtentHandle :=
  match chooseOp origOp s.1 with
  | .error e => .inr (.error e, s.1)
  | .ok (op, h) =>
    match moveExtent fs origOp op h with
    | ⟨h, .error e⟩ => .inr (.error e, h)
    | ⟨h, .ok (none, _)⟩ => .inr (.error .noCurrentNode, h)
    | ⟨h, .ok (some ix, failed)⟩ =>
      let failed := s.2 || failed
      if (origOp = .nextLeaf ∨ origOp = .prevLeaf) ∧ h.level ≠ h.maxDepth then .inl (h, failed)
      else if origOp = .lastLeaf ∧ (h.level ≠ h.maxDepth ∨ h.here.left ≠ 0) then .inl (h, failed)
      else if failed then .inr (.error .csumInvalid, h)
      else .inr (.ok (h.extent ix), h)

/-- `ext2fs_extent_get`, with at most `n` rounds. -/
def extentGet (n : ℕ) (op : ExtentOp) (h : ExtentHandle) :
    Option (Except ExtentErr Extent × ExtentHandle) :=
  Loop.run (getStep fs op) n (h, false)

/-- The extents that call after call returns, up to the first error; at most `m` calls. -/
def extentGets (n : ℕ) (op : ExtentOp) : ℕ → ExtentHandle → Option (List Extent × ExtentErr)
  | 0, _ => none
  | m + 1, h =>
    match extentGet fs n op h with
    | none => none
    | some (.error e, _) => some ([], e)
    | some (.ok x, h) => (extentGets n op m h).map fun r => (x :: r.1, r.2)

/-- The extents of one call of a move and then call after call of another. -/
def extentIterate (n m : ℕ) (first op : ExtentOp) (h : ExtentHandle) :
    Option (List Extent × ExtentErr) :=
  match extentGet fs n first h with
  | none => none
  | some (.error e, _) => some ([], e)
  | some (.ok x, h) => (extentGets fs n op m h).map fun r => (x :: r.1, r.2)

end E2fsprogs
