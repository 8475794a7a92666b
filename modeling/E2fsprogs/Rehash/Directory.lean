import E2fsprogs.Dir.UnlinkOnce
import E2fsprogs.Lib.Memcpy

/-!
# Rebuilding a directory

`copy_dir_entries` and `calculate_tree` of `e2fsck/rehash.c`. The entries of a directory, sorted by
hash, are packed into leaf blocks; then an index of one, two or three levels is written, the root
into block 0 and the other index blocks after the leaves.

All blocks are in one buffer, which is reallocated when it is full. A pointer into the buffer is a
position together with the number of times the buffer had been reallocated (`E2fsprogs.BufPtr`);
what is stored through a pointer to a buffer that has been given up is not in the directory. For an
offset that does not fit the `int` it is converted to, the result is `none`, as for an error.
-/

namespace E2fsprogs

/-- `struct hash_entry`, with the directory entry it points to. -/
structure HashEntry where
  hash : ℕ
  minorHash : ℕ
  dirent : DirEntry

/-- The fields of `struct fill_dir_struct` that the entries are copied by. -/
structure FillDir where
  harray : List HashEntry
  dirSize : ℕ
  compress : Bool
  /-- `ext4_hash_in_dirent(fd->inode)`. -/
  hashInEntry : Bool
  parent : ℕ

/-- `struct out_dir`. -/
structure OutDir where
  num : ℕ
  max : ℕ
  /-- How often the buffer has been reallocated. -/
  gen : ℕ
  buf : ℕ → Block
  hashes : ℕ → ℕ

/-- `get_next_block`. -/
def getNextBlock (out : OutDir) : OutDir :=
  let out := if out.max ≤ out.num then
      { out with max := out.max + Nat.max (out.max / 10) 50, gen := out.gen + 1 }
    else out
  { out with num := out.num + 1, buf := Function.update out.buf out.num zeroBlock }

/-! ### Leaf blocks -/

/-- `ext2fs_dir_rec_len`. -/
def dirRecLenExt (nameLen : ℕ) (extended : Bool) : ℕ :=
  dirRecLen nameLen + if extended then 8 else 0

/-- `ext2fs_initialize_dirent_tail`. -/
def initializeDirentTail (fs : DirFs) (b : Block) : Block :=
  putLe (putLe (memcpy b (fs.blocksize - 12) zeroBlock 12) (fs.blocksize - 12 + 4) 2 12)
    (fs.blocksize - 12 + 6) 2 0xDE00

/-- The locals of `copy_dir_entries`. The block that is being filled is the last one. -/
structure CopyState where
  out : OutDir
  /-- Where `dirent` is in the block. -/
  dirent : ℕ
  offset : ℕ
  left : ℕ
  prevRecLen : ℕ
  recLen : ℕ
  prevHash : ℕ

/-- The block that is being filled. -/
def CopyState.block (st : CopyState) : Block := st.out.buf (st.out.num - 1)

/-- The block that is being filled, changed. -/
def CopyState.setBlock (st : CopyState) (b : Block) : CopyState :=
  { st with out := { st.out with buf := Function.update st.out.buf (st.out.num - 1) b } }

/-- The last record of the block is extended to the end, by `len` in all, and the tail is
written. -/
def finishBlock (fs : DirFs) (st : CopyState) (len : ℕ) : Option CopyState :=
  (if st.left ≠ 0 then setRecLen fs len st.block st.dirent else some st.block).map fun b =>
    st.setBlock (if fs.metadataCsum then initializeDirentTail fs b else b)

/-- An entry written at an offset, but for its record length. -/
def putDirent (fd : FillDir) (b : Block) (d : ℕ) (ent : HashEntry) : Block :=
  let b := putLe b d 4 ent.dirent.inode
  let b := direntSetNameLen b d ent.dirent.name.length
  let b := direntSetFileType b d ent.dirent.fileType
  let b := putBytes b (d + 8) ent.dirent.name
  if fd.hashInEntry then
    putLe (putLe b (d + dirRecLen ent.dirent.name.length) 4 ent.hash)
      (d + dirRecLen ent.dirent.name.length + 4) 4 ent.minorHash
  else b

/-- The second half of a round of the loop of `copy_dir_entries`: the entry has room in the
block. -/
def copyInto (fs : DirFs) (fd : FillDir) (slack : ℕ) (st : CopyState) (ent : HashEntry) :
    Option CopyState :=
  let recLen := dirRecLenExt ent.dirent.name.length fd.hashInEntry
  let left := fs.blocksize - csumSize fs - st.offset
  let hashes := if st.offset = 0 then
      Function.update st.out.hashes (st.out.num - 1)
        (if ent.hash = st.prevHash then ent.hash ||| 1 else ent.hash)
    else st.out.hashes
  (setRecLen fs recLen (putDirent fd st.block st.offset ent) st.offset).bind fun b =>
    let st : CopyState := {
      out := { st.out with hashes := hashes, buf := Function.update st.out.buf (st.out.num - 1) b }
      dirent := st.offset, offset := st.offset + recLen, left := left - recLen
      prevRecLen := recLen, recLen := recLen, prevHash := ent.hash }
    if st.left < slack then
      (setRecLen fs (st.prevRecLen + st.left) st.block st.dirent).map fun b =>
        { st.setBlock b with
          prevRecLen := st.prevRecLen + st.left, offset := st.offset + st.left, left := 0 }
    else some st

/-- A round of the loop of `copy_dir_entries`. -/
def copyEntry (fs : DirFs) (fd : FillDir) (slack : ℕ) (st : CopyState) (ent : HashEntry) :
    Option CopyState :=
  if ent.dirent.inode = 0 then some st
  else if st.left < dirRecLenExt ent.dirent.name.length fd.hashInEntry then
    (finishBlock fs st (st.left + st.prevRecLen)).bind fun st =>
      copyInto fs fd slack { st with out := getNextBlock st.out, offset := 0 } ent
  else copyInto fs fd slack st ent

/-- The slack that is left in a leaf block. -/
def copySlack (fs : DirFs) (fd : FillDir) (slackPercentage : ℕ) : ℕ :=
  let minRecLen := dirRecLenExt 1 fd.hashInEntry
  let slack :=
    if fd.compress then minRecLen else (fs.blocksize - csumSize fs) * slackPercentage / 100
  if slack < minRecLen then minRecLen else slack

/-- The buffer that `copy_dir_entries` starts with. -/
def allocSizeDir (fs : DirFs) (fd : FillDir) : OutDir where
  num := if fd.compress then 0 else 1
  max := fd.dirSize / fs.blocksize + 2
  gen := 0
  buf := fun _ => zeroBlock
  hashes := fun _ => 0

/-- `copy_dir_entries`. -/
def copyDirEntries (fs : DirFs) (fd : FillDir) (slackPercentage : ℕ) : Option OutDir :=
  let st : CopyState := {
    out := getNextBlock (allocSizeDir fs fd)
    dirent := 0, offset := 0, left := fs.blocksize - csumSize fs, prevRecLen := 0, recLen := 0
    prevHash := 1 }
  (fd.harray.foldlM (copyEntry fs fd (copySlack fs fd slackPercentage)) st).bind fun st =>
    (finishBlock fs st (st.recLen + st.left)).map CopyState.out

/-! ### The index -/

/-- The size of `struct ext2_dx_tail` where blocks have one. -/
def dxTailSize (fs : DirFs) : ℕ := if fs.metadataCsum then 8 else 0

/-- The limit of the root. -/
def rootLimit (fs : DirFs) : ℕ := (fs.blocksize - (32 + dxTailSize fs)) / 8

/-- The limit of the other index blocks. -/
def intLimit (fs : DirFs) : ℕ := (fs.blocksize - (8 + dxTailSize fs)) / 8

/-- What `set_root_node` is given besides the file system. -/
structure RootInfo where
  ino : ℕ
  parent : ℕ
  hashVersion : ℕ

/-- `set_root_node`. -/
def setRootNode (fs : DirFs) (info : RootInfo) : Block :=
  let filetype := if fs.filetype then 2 else 0
  let b := putLe zeroBlock 0 4 info.ino
  let b := putBytes b 8 [46]
  let b := direntSetFileType (direntSetNameLen b 0 1) 0 filetype
  let b := putLe b 4 2 12
  let b := putLe b 12 4 info.parent
  let b := putBytes b 20 [46, 46]
  let b := direntSetFileType (direntSetNameLen b 12 2) 12 filetype
  let b := putLe b 16 2 (fs.blocksize - 12)
  let b := putLe (putLe (putLe b 28 1 info.hashVersion) 29 1 8) 30 1 0
  putLe (putLe b 32 2 (rootLimit fs)) 34 2 0

/-- `set_int_node`. -/
def setIntNode (fs : DirFs) : Block :=
  putLe (putLe ((setRecLen fs fs.blocksize zeroBlock 0).getD zeroBlock) 8 2 (intLimit fs)) 10 2 0

/-- A pointer into the buffer. -/
structure BufPtr where
  gen : ℕ
  pos : ℕ

/-- A field of `n` bytes stored at `off` bytes behind a pointer. -/
def store (fs : DirFs) (out : OutDir) (p : BufPtr) (off n v : ℕ) : OutDir :=
  if p.gen = out.gen then
    let k := p.pos / fs.blocksize
    { out with
      buf := Function.update out.buf k (putLe (out.buf k) (p.pos % fs.blocksize + off) n v) }
  else out

/-- A field of `n` bytes read at `off` bytes behind a pointer into the buffer there is. -/
def load (fs : DirFs) (out : OutDir) (p : BufPtr) (off n : ℕ) : ℕ :=
  getLe (out.buf (p.pos / fs.blocksize)) (p.pos % fs.blocksize + off) n

/-- The words of a node that is full, at the end of filling it. -/
def closeFull (fs : DirFs) (out : OutDir) : Option BufPtr → OutDir
  | none => out
  | some p =>
    let v := load fs out p 0 2
    store fs (store fs out p 2 2 v) p 0 2 v

/-- What `alloc_blocks` changes of its arguments. `*limit` and `*next_ent` are the same pointer
afterwards. -/
structure Alloced where
  out : OutDir
  nextEnt : BufPtr
  prevOffset : ℕ
  prevCount : ℕ
  nextCount : ℕ

/-- `alloc_blocks`. -/
def allocBlocks (fs : DirFs) (limit : Option BufPtr) (prevOffset : ℕ) (out : OutDir)
    (i prevCount : ℕ) :
    Alloced :=
  let out := closeFull fs out limit
  let prevEnt : BufPtr := ⟨out.gen, prevOffset⟩
  let out := store fs out prevEnt 4 4 out.num
  let out := if i ≠ 1 then store fs out prevEnt 0 4 (out.hashes i) else out
  let out := getNextBlock out
  let k := out.num - 1
  let out := { out with buf := Function.update out.buf k (setIntNode fs) }
  let nextEnt : BufPtr := ⟨out.gen, k * fs.blocksize + 8⟩
  { out := out, nextEnt := nextEnt, prevOffset := prevOffset + 8, prevCount := prevCount - 1
    nextCount := load fs out nextEnt 0 2 }

/-- The locals of `calculate_tree`. -/
structure TreeState where
  out : OutDir
  c1 : ℕ
  c2 : ℕ
  c3 : ℕ
  rootOffset : ℕ
  intOffset : ℕ
  limit : Option BufPtr
  intLimit : Option BufPtr
  dxEnt : BufPtr

/-- An entry for the leaf block `i`, with `c` entries left. -/
def putLeafEntry (fs : DirFs) (st : TreeState) (i c : ℕ) : TreeState :=
  let out := store fs st.out st.dxEnt 4 4 i
  let first := match st.limit with
    | none => true
    | some p => c = load fs out p 0 2
  let out := if first then out else store fs out st.dxEnt 0 4 (out.hashes i)
  { st with out := out, dxEnt := { st.dxEnt with pos := st.dxEnt.pos + 8 } }

/-- A round of the loop for an index of one level. -/
def rootRound (fs : DirFs) (st : TreeState) (i : ℕ) : TreeState :=
  let out := store fs st.out st.dxEnt 4 4 i
  let out := if i ≠ 1 then store fs out st.dxEnt 0 4 (out.hashes i) else out
  { st with out := out, dxEnt := { st.dxEnt with pos := st.dxEnt.pos + 8 }, c1 := st.c1 - 1 }

/-- A new node of the lowest level, for an index of two levels. -/
def newLowNode (fs : DirFs) (st : TreeState) (i : ℕ) : TreeState :=
  let a := allocBlocks fs st.limit st.rootOffset st.out i st.c1
  { st with
    out := a.out, limit := some a.nextEnt, dxEnt := a.nextEnt, rootOffset := a.prevOffset
    c1 := a.prevCount, c2 := a.nextCount }

/-- A round of the loop for an index of two levels. -/
def intRound (fs : DirFs) (st : TreeState) (i : ℕ) : Option TreeState :=
  if st.c2 = 0 ∧ st.c1 = 0 then none
  else
    let st := if st.c2 = 0 then newLowNode fs st i else st
    some { putLeafEntry fs st i st.c2 with c2 := st.c2 - 1 }

/-- A new node of the middle level, for an index of three levels. Its offset is an `int`. -/
def newIntNode (fs : DirFs) (st : TreeState) (i : ℕ) : Option TreeState :=
  let a := allocBlocks fs st.intLimit st.rootOffset st.out i st.c1
  if a.nextEnt.pos < 2 ^ 31 then
    some { st with
      out := a.out, intLimit := some a.nextEnt, rootOffset := a.prevOffset,
      intOffset := a.nextEnt.pos
      c1 := a.prevCount, c2 := a.nextCount }
  else none

/-- A new node of the lowest level, for an index of three levels. `int_limit` is found again by its
offset when the buffer has been reallocated; `limit` is not when it was reallocated for a node of
the middle level. -/
def newDxNode (fs : DirFs) (st : TreeState) (i : ℕ) : Option TreeState :=
  match st.intLimit with
  | none => none
  | some p =>
    if p.pos < 2 ^ 31 then
      let a := allocBlocks fs st.limit st.intOffset st.out i st.c2
      some { st with
        out := a.out, limit := some a.nextEnt, dxEnt := a.nextEnt, intOffset := a.prevOffset
        c2 := a.prevCount, c3 := a.nextCount, intLimit := some ⟨a.out.gen, p.pos⟩ }
    else none

/-- A round of the loop for an index of three levels. -/
def dxRound (fs : DirFs) (st : TreeState) (i : ℕ) : Option TreeState :=
  if st.c3 = 0 ∧ st.c2 = 0 ∧ st.c1 = 0 then none
  else
    (if st.c3 = 0 ∧ st.c2 = 0 then newIntNode fs st i else some st).bind fun st =>
      (if st.c3 = 0 then newDxNode fs st i else some st).map fun st =>
        { putLeafEntry fs st i st.c3 with c3 := st.c3 - 1 }

/-- The words of a node that is not full, of which `c` entries are left. -/
def closeNode (fs : DirFs) (out : OutDir) (p q : BufPtr) (c : ℕ) : OutDir :=
  let v := load fs out q 0 2
  store fs (store fs out p 2 2 (v - c)) p 0 2 v

/-- The end of `calculate_tree`: the words of the root. -/
def closeRoot (fs : DirFs) (out : OutDir) (c1 : ℕ) : OutDir :=
  let p : BufPtr := ⟨out.gen, 32⟩
  closeNode fs out p p c1

/-- `calculate_tree`. The number of blocks is an `int`. -/
def calculateTree (fs : DirFs) (info : RootInfo) (out : OutDir) : Option OutDir :=
  if 2 ^ 31 ≤ out.num then none
  else
    let leaves := List.range' 1 (out.num - 1)
    let out := { out with buf := Function.update out.buf 0 (setRootNode fs info) }
    let c1 := load fs out ⟨out.gen, 32⟩ 0 2
    let st : TreeState := {
      out := out, c1 := c1, c2 := 0, c3 := 0, rootOffset := 32, intOffset := 0, limit := none
      intLimit := none, dxEnt := ⟨out.gen, 32⟩ }
    if out.num - 1 ≤ c1 then
      let st := leaves.foldl (rootRound fs) st
      some (closeRoot fs st.out st.c1)
    else if out.num - 1 ≤ c1 * E2fsprogs.intLimit fs then
      let st := { st with out := store fs out ⟨out.gen, 0⟩ 30 1 1 }
      (leaves.foldlM (intRound fs) st).bind fun st => match st.limit with
        | none => none
        | some p => some (closeRoot fs (closeNode fs st.out p p st.c2) st.c1)
    else
      let st := { st with out := store fs out ⟨out.gen, 0⟩ 30 1 2 }
      (leaves.foldlM (dxRound fs) st).bind fun st => match st.limit, st.intLimit with
        | some p, some q =>
          some (closeRoot fs (closeNode fs (closeNode fs st.out q p st.c2) p p st.c3) st.c1)
        | _, _ => none

end E2fsprogs
