import E2fsprogs.Journal.Recovery

/-!
# Fast commits

Behind the log lies the fast-commit area, whose blocks are sequences of tags: a tag number
and a length, sixteen bits each, and a value of that length. `ext4_fc_replay_scan` goes
through them in the scan pass and counts the tags up to the last tail that checks out;
`ext4_fc_replay` goes through them again in the replay pass and hands as many tags to their
handlers.

The two walks are one loop (`E2fsprogs.fcTagLoop`) with two bodies (`E2fsprogs.fcScanTag` and
`E2fsprogs.fcReplayTag`), called block by block from the loop of `fc_do_one_pass`
(`E2fsprogs.fcPassLoop`). What a handler does to the file system is a parameter
(`E2fsprogs.FcOps`); which bytes of the block it reads, and which error it returns where, is
not.

Four fields of `E2fsprogs.FcCtx` are there to be talked about only: the tags handed to a
handler, the bytes read, the name lengths computed, and how often the replay was finished.
-/

namespace E2fsprogs

/-! ### Tags -/

/-- The tags of `fast_commit.h`, and any other number. -/
inductive FcTag
  | addRange
  | delRange
  | creat
  | link
  | unlink
  | inode
  | pad
  | tail
  | head
  | other
  deriving DecidableEq, Repr

/-- The tag with a given number. -/
def fcTagOf : ℕ → FcTag
  | 1 => .addRange
  | 2 => .delRange
  | 3 => .creat
  | 4 => .link
  | 5 => .unlink
  | 6 => .inode
  | 7 => .pad
  | 8 => .tail
  | 9 => .head
  | _ => .other

/-- A tag of the fast-commit area: the block it is in, the offset of that block in the
area, and the offset `cur` of the tag in the block. -/
structure FcTagAt where
  bh : Block
  off : ℕ
  cur : ℕ

namespace FcTagAt

/-- `tl.fc_tag`. -/
def tag (t : FcTagAt) : FcTag := fcTagOf (getLe t.bh t.cur 2)

/-- `tl.fc_len`. -/
def len (t : FcTagAt) : ℕ := getLe t.bh (t.cur + 2) 2

/-- `val`, the offset of the value. -/
def val (t : FcTagAt) : ℕ := t.cur + 4

/-- `cur` of the next tag. -/
def next (t : FcTagAt) : ℕ := t.cur + t.len + 4

/-- The four bytes of the value at offset `o`, as a number. -/
def word (t : FcTagAt) (o : ℕ) : ℕ := getLe t.bh (t.val + o) 4

/-- The first `n` bytes of the tag, header included. -/
def bytes (t : FcTagAt) (n : ℕ) : List UInt8 := bytesAt t.bh t.cur n

end FcTagAt

/-! ### The replay state -/

/-- `struct e2fsck_fc_replay_state` without the extent list. The two tag counters are
`int`; they are only incremented, decremented and compared with zero, which makes them
numbers modulo `2 ^ 32`. -/
structure FcReplayState where
  numTags : ℕ
  expectedOff : ℕ
  currentPass : PassType
  curTag : ℕ
  crc : ℕ
  superState : ℕ
  deriving DecidableEq, Repr

/-- The state after `memset`. `PASS_SCAN` is zero. -/
def FcReplayState.zero : FcReplayState := ⟨0, 0, .scan, 0, 0, 0⟩

/-- `++` on an `int`. -/
def intIncr (n : ℕ) : ℕ := (n + 1) % 2 ^ 32

/-- `--` on an `int`. -/
def intDecr (n : ℕ) : ℕ := if n = 0 then 2 ^ 32 - 1 else n - 1

/-- Bytes read from a fast-commit block: the block, the first byte and how many. -/
structure FcRead where
  off : ℕ
  start : ℕ
  size : ℕ
  deriving DecidableEq, Repr

/-- What the fast-commit passes work on: their state, `s_state` of the superblock, and
the rest of the file system. The last four fields are a record of what has happened. -/
structure FcCtx (σ : Type) where
  state : FcReplayState
  sState : ℕ
  fs : σ
  /-- The tags handed to a handler, in order. -/
  dispatched : List FcTagAt
  /-- The bytes read. -/
  reads : List FcRead
  /-- The name lengths `tl_to_darg` has computed. -/
  dnameLens : List ℤ
  /-- How often the code at `replay_done` has been executed. -/
  finished : ℕ

/-- The context a recovery starts with. -/
def FcCtx.fresh {σ : Type} (sState : ℕ) (fs : σ) : FcCtx σ :=
  ⟨.zero, sState, fs, [], [], [], 0⟩

/-- `size` bytes of the block of a tag are read, from offset `start` on. -/
def FcCtx.read {σ : Type} (c : FcCtx σ) (off start size : ℕ) : FcCtx σ :=
  { c with reads := ⟨off, start, size⟩ :: c.reads }

/-- What the callback returns: `JBD2_FC_REPLAY_CONTINUE`, `JBD2_FC_REPLAY_STOP`, or a
negative errno. -/
inductive FcRet
  | continue
  | stop
  | error (errno : ℕ)
  deriving DecidableEq, Repr

def eNomem : ℕ := 12
def eFault : ℕ := 14
def eInval : ℕ := 22
def eOpnotsupp : ℕ := 95
def eCanceled : ℕ := 125
/-- `EXT2_ET_FILESYSTEM_CORRUPTED`. -/
def eFscorrupted : ℕ := 2133571502
/-- `EXT2_ET_BAD_CRC`. -/
def eFsbadcrc : ℕ := 2133571503

/-- `errcode_to_errno`. -/
def errcodeToErrno (err : ℕ) : ℤ :=
  if err = 0 then 0 else if err ≤ 256 then -err else -eFault

/-! ### The handlers -/

/-- `struct dentry_info_args`. -/
structure DentryInfoArgs where
  parentIno : ℕ
  dnameLen : ℤ
  ino : ℕ
  dname : List UInt8

/-- What the handlers do to the file system. A function that can fail returns the
`errcode_t` or the `int` the source returns; none of them touches `s_state`. -/
structure FcOps (σ : Type) where
  /-- `EXT2_INODE_SIZE`. -/
  inodeSize : ℕ
  /-- Whether the allocations of that many bytes succeed. -/
  malloc : ℕ → σ → Bool
  /-- `ext2fs_read_bitmaps`. -/
  readBitmaps : σ → ℕ × σ
  /-- `ext2fs_flush`, which writes a superblock with the given `s_state`. -/
  flush : ℕ → σ → σ
  /-- `ext4_fc_flush_extents`. -/
  flushExtents : ℕ → σ → σ
  /-- `i_mode` of an inode, from `ext2fs_read_inode`. -/
  readInode : ℕ → σ → Except ℕ ℕ
  /-- `ext2fs_unlink`, with or without `EXT2FS_UNLINK_FORCE`. -/
  unlink : ℕ → List UInt8 → ℕ → Bool → σ → ℕ × σ
  /-- `ext2fs_link`. -/
  link : ℕ → List UInt8 → ℕ → ℕ → σ → ℕ × σ
  /-- `ext2fs_read_inode_full`. -/
  readInodeFull : ℕ → ℕ → σ → ℕ × σ
  /-- `ext4_fc_handle_inode` from the second `memcpy` on. -/
  replayInode : ℕ → List UInt8 → σ → ℕ × σ
  /-- `ext4_fc_read_extents`. -/
  readExtents : ℕ → σ → ℤ × σ
  /-- `ext4_add_extent_to_list`, with the on-disk extent. -/
  addExtent : List UInt8 → σ → ℤ × σ
  /-- `ext4_del_extent_from_list`. -/
  delExtent : ℕ → ℕ → σ → ℤ × σ
  /-- `ext2fs_calculate_summary_stats`, `ext2fs_write_block_bitmap`,
  `ext2fs_write_inode_bitmap` and `ext2fs_set_gdt_csum`. -/
  writeSummary : σ → σ

section Handlers

variable {σ : Type} (ops : FcOps σ)

/-- An `int` as the `size_t` it is converted to. -/
def sizeT (n : ℤ) : ℕ := (n % 2 ^ 64).toNat

/-- `tl_to_darg`: an error, or the arguments. -/
def tlToDarg (t : FcTagAt) (c : FcCtx σ) : Option DentryInfoArgs × FcCtx σ :=
  let c := c.read t.off t.val 8
  let dnameLen : ℤ := t.len - 8
  let c := { c with dnameLens := dnameLen :: c.dnameLens }
  if ops.malloc (sizeT (dnameLen + 1)) c.fs then
    (some ⟨t.word 0, dnameLen, t.word 4, bytesAt t.bh (t.val + 8) (sizeT dnameLen)⟩,
      c.read t.off (t.val + 8) (sizeT dnameLen))
  else (none, c)

/-- `ext4_fc_handle_unlink`. -/
def ext4FcHandleUnlink (t : FcTagAt) (c : FcCtx σ) : ℤ × FcCtx σ :=
  match tlToDarg ops t c with
  | (none, c) => (-eNomem, c)
  | (some darg, c) =>
      let (err, fs) := ops.unlink darg.parentIno darg.dname darg.ino false
        (ops.flushExtents darg.ino c.fs)
      (errcodeToErrno err, { c with fs := fs })

/-- The directory entry type of a mode, as `ext4_fc_handle_link_and_create` picks it. -/
inductive FcFiletype
  | filetype (n : ℕ)
  | symlink
  | invalid

/-- The tests of the mode, in the order of the source. -/
def fcFiletype (mode : ℕ) : FcFiletype :=
  match mode &&& 0o170000 with
  | 0o100000 => .filetype 1
  | 0o040000 => .filetype 2
  | 0o020000 => .filetype 3
  | 0o060000 => .filetype 4
  | 0o120000 => .symlink
  | 0o010000 => .filetype 5
  | 0o140000 => .filetype 6
  | _ => .invalid

/-- `ext4_fc_handle_link_and_create`. A symbolic link is left alone: the function returns
`EXT2_FT_SYMLINK`, which is not an error. -/
def ext4FcHandleLinkAndCreate (t : FcTagAt) (c : FcCtx σ) : ℤ × FcCtx σ :=
  match tlToDarg ops t c with
  | (none, c) => (-eNomem, c)
  | (some darg, c) =>
      let fs := ops.flushExtents 0 c.fs
      match ops.readInode darg.ino fs with
      | .error err => (errcodeToErrno err, { c with fs := fs })
      | .ok mode =>
          match fcFiletype mode with
          | .symlink => (7, { c with fs := fs })
          | .invalid => (-eInval, { c with fs := fs })
          | .filetype filetype =>
              let (_, fs) := ops.unlink darg.parentIno darg.dname darg.ino true fs
              let (err, fs) := ops.link darg.parentIno darg.dname darg.ino filetype fs
              (errcodeToErrno err, { c with fs := fs })

/-- `inode_len`: `i_extra_isize` is looked at in a file system of large inodes only. -/
def fcInodeLen (inodeSize : ℕ) (t : FcTagAt) : ℕ :=
  128 + if 128 < inodeSize then getLe t.bh (t.val + 4 + 128) 2 else 0

/-- `EXT2_ET_NO_MEMORY`. -/
def eNoMemory : ℕ := 2133571398

/-- `ext4_fc_handle_inode` reads the inode number, and perhaps `i_extra_isize`. -/
def FcCtx.readInodeHead (inodeSize : ℕ) (t : FcTagAt) (c : FcCtx σ) : FcCtx σ :=
  let c := c.read t.off t.val 4
  if 128 < inodeSize then c.read t.off (t.val + 4 + 128) 2 else c

/-- `ext4_fc_handle_inode`. -/
def ext4FcHandleInode (t : FcTagAt) (c : FcCtx σ) : ℤ × FcCtx σ :=
  let c := c.readInodeHead ops.inodeSize t
  let inodeLen := fcInodeLen ops.inodeSize t
  if !ops.malloc inodeLen c.fs then (errcodeToErrno eNoMemory, c)
  else
    let (err, fs) := ops.readInodeFull (t.word 0) inodeLen (ops.flushExtents (t.word 0) c.fs)
    if err ≠ 0 then (errcodeToErrno err, { c with fs := fs })
    else
      let c := c.read t.off (t.val + 4) inodeLen
      let (err, fs) := ops.replayInode (t.word 0) (bytesAt t.bh (t.val + 4) inodeLen) fs
      (errcodeToErrno err, { c with fs := fs })

/-- The handlers of the two range tags: the value is copied, and the extents of the inode
are read and changed by `modify`. -/
def fcHandleRange (size : ℕ) (modify : σ → ℤ × σ) (t : FcTagAt) (c : FcCtx σ) : ℤ × FcCtx σ :=
  let c := c.read t.off t.val size
  let (ret, fs) := ops.readExtents (t.word 0) (ops.flushExtents (t.word 0) c.fs)
  if ret ≠ 0 then (ret, { c with fs := fs })
  else
    let (ret, fs) := modify fs
    (ret, { c with fs := fs })

/-- `ext4_fc_handle_add_extent`. `ext2fs_decode_extent` cannot fail on twelve bytes. -/
def ext4FcHandleAddExtent (t : FcTagAt) : FcCtx σ → ℤ × FcCtx σ :=
  fcHandleRange ops 16 (ops.addExtent (bytesAt t.bh (t.val + 4) 12)) t

/-- `ext4_fc_handle_del_range`. -/
def ext4FcHandleDelRange (t : FcTagAt) : FcCtx σ → ℤ × FcCtx σ :=
  fcHandleRange ops 12 (ops.delExtent (t.word 4) (t.word 8)) t

/-- The `switch` of `ext4_fc_replay`. -/
def fcDispatch (t : FcTagAt) (c : FcCtx σ) : ℤ × FcCtx σ :=
  match t.tag with
  | .creat | .link => ext4FcHandleLinkAndCreate ops t c
  | .unlink => ext4FcHandleUnlink ops t c
  | .addRange => ext4FcHandleAddExtent ops t c
  | .delRange => ext4FcHandleDelRange ops t c
  | .inode => ext4FcHandleInode ops t c
  | .tail => (1, { c with fs := ops.flushExtents 0 c.fs })
  | .pad | .head => (1, c)
  | .other => (-eCanceled, c)

/-! ### The two bodies of the loop -/

/-- `state->fc_replay_num_tags ? JBD2_FC_REPLAY_STOP : -errno`. -/
def fcStopOr (numTags errno : ℕ) : FcRet := if numTags ≠ 0 then .stop else .error errno

/-- A tag is counted and its first `n` bytes go into the checksum. -/
def FcCtx.count (c : FcCtx σ) (t : FcTagAt) (n : ℕ) : FcCtx σ :=
  { c.read t.off t.cur n with
    state := { c.state with
      curTag := intIncr c.state.curTag
      crc := jbd2Chksum c.state.crc (t.bytes n) } }

/-- The body of the loop of `ext4_fc_replay_scan`. -/
def fcScanTag (expectedTid : ℕ) (t : FcTagAt) (c : FcCtx σ) : FcRet × FcCtx σ :=
  let c := c.read t.off t.cur 4
  match t.tag with
  | .addRange => (.continue, (c.read t.off t.val 16).count t (4 + t.len))
  | .delRange | .link | .unlink | .creat | .inode | .pad => (.continue, c.count t (4 + t.len))
  | .tail =>
      let c := (c.read t.off t.val 8).count t 8
      if t.word 0 = expectedTid ∧ t.word 4 = c.state.crc then
        (.continue, { c with state := { c.state with numTags := c.state.curTag, crc := 0 } })
      else
        (fcStopOr c.state.numTags eFsbadcrc, { c with state := { c.state with crc := 0 } })
  | .head =>
      let c := c.read t.off t.val 8
      if t.word 0 ≠ 0 then (.error eOpnotsupp, c)
      else if t.word 4 ≠ expectedTid then (.error eInval, c)
      else (.continue, c.count t (4 + t.len))
  | .other => (fcStopOr c.state.numTags eCanceled, c)

/-- The label `replay_done` of `ext4_fc_replay`, in the replay pass. -/
def fcReplayDone (c : FcCtx σ) : FcRet × FcCtx σ :=
  if c.state.currentPass ≠ .replay then (.stop, c)
  else
    (.stop, { c with
      fs := ops.flush c.state.superState (ops.writeSummary c.fs)
      sState := c.state.superState
      finished := c.finished + 1 })

/-- A tag is counted down and handed to its handler. -/
def FcCtx.take (c : FcCtx σ) (t : FcTagAt) : FcCtx σ :=
  { c with
    state := { c.state with numTags := intDecr c.state.numTags }
    dispatched := c.dispatched ++ [t] }

/-- The body of the loop of `ext4_fc_replay`. -/
def fcReplayTag (t : FcTagAt) (c : FcCtx σ) : FcRet × FcCtx σ :=
  let c := c.read t.off t.cur 4
  if c.state.numTags = 0 then fcReplayDone ops c
  else
    match fcDispatch ops t (c.take t) with
    | (ret, c) => if ret < 0 then (.error ret.natAbs, c) else (.continue, c)

end Handlers

/-! ### The loops -/

/-- The loop over the tags of a block, at most `fuel` times: `body` at each tag that starts
before the last byte of the block. -/
def fcTagLoop {γ : Type} (size : ℕ) (bh : Block) (off : ℕ) (body : FcTagAt → γ → FcRet × γ) :
    ℕ → ℕ → γ → FcRet × γ
  | 0, _, c => (.continue, c)
  | fuel + 1, cur, c =>
      if cur < size - 1 then
        match body ⟨bh, off, cur⟩ c with
        | (.continue, c) => fcTagLoop size bh off body fuel (FcTagAt.next ⟨bh, off, cur⟩) c
        | r => r
      else (.continue, c)

section Callback

variable {σ : Type} (j : Journal)

/-- `ext4_fc_replay_scan`. A tag takes at least four bytes, so that a loop of as many
rounds as the block has bytes goes through all of it. -/
def ext4FcReplayScan (bh : Block) (off expectedTid : ℕ) (c : FcCtx σ) : FcRet × FcCtx σ :=
  let first := c.state.expectedOff = 0
  let c := if first then { c.read off 0 2 with state := .zero } else c
  if first ∧ (FcTagAt.mk bh off 0).tag ≠ .head then (.stop, c)
  else if off ≠ c.state.expectedOff then (.error eFscorrupted, c)
  else
    fcTagLoop j.jBlocksize bh off (fcScanTag expectedTid) j.jBlocksize 0
      { c with state := { c.state with expectedOff := c.state.expectedOff + 1 } }

/-- The start of the replay phase: `s_state` is saved, and marked in the superblock. -/
def fcReplayStart (ops : FcOps σ) (c : FcCtx σ) : Option ℕ × FcCtx σ :=
  if c.state.currentPass = .replay then (none, c)
  else
    let (err, fs) := ops.readBitmaps c.fs
    let c := { c with fs := fs, state := { c.state with currentPass := .replay } }
    if err ≠ 0 then (some (errcodeToErrno err).natAbs, c)
    else
      let sState := c.sState ||| 0x0002 ||| 0x0020
      (none, { c with
        state := { c.state with superState := c.sState }
        sState := sState
        fs := ops.flush sState c.fs })

/-- `ext4_fc_replay` in the replay pass. -/
def ext4FcReplayBlock (ops : FcOps σ) (bh : Block) (off : ℕ) (c : FcCtx σ) : FcRet × FcCtx σ :=
  if c.state.numTags = 0 then fcReplayDone ops c
  else
    match fcReplayStart ops c with
    | (some err, c) => (.error err, c)
    | (none, c) => fcTagLoop j.jBlocksize bh off (fcReplayTag ops) j.jBlocksize 0 c

/-- `ext4_fc_replay`, the callback of `fc_do_one_pass`. -/
def ext4FcReplay (ops : FcOps σ) (pass : PassType) (expectedTid : ℕ) (bh : Block) (off : ℕ)
    (c : FcCtx σ) : FcRet × FcCtx σ :=
  if pass = .scan then
    ext4FcReplayScan j bh off expectedTid
      { c with state := { c.state with currentPass := .scan } }
  else ext4FcReplayBlock j ops bh off c

end Callback

/-- An error of `fc_do_one_pass`: a block that cannot be read, or the callback's. -/
inductive FcErr
  | read (err : Errno)
  | callback (errno : ℕ)
  deriving DecidableEq, Repr

/-- The loop of `fc_do_one_pass` from `nextFcBlock` on, for `n` blocks, over a callback
with a state of its own. -/
def fcPassLoop {γ : Type} (j : Journal) (cb : Block → ℕ → γ → FcRet × γ) :
    ℕ → ℕ → γ → Option FcErr × γ
  | 0, _, c => (none, c)
  | n + 1, nextFcBlock, c =>
      match jread j nextFcBlock with
      | .error err => (some (.read err), c)
      | .ok bh =>
          match cb bh (nextFcBlock - j.jFcFirst) c with
          | (.error err, c) => (some (.callback err), c)
          | (.stop, c) => (none, c)
          | (.continue, c) => fcPassLoop j cb n (nextFcBlock + 1) c

/-- `fc_do_one_pass` with `ext4_fc_replay`. -/
def fcPass {σ : Type} (j : Journal) (ops : FcOps σ) (pass : PassType) (expectedTid : ℕ)
    (c : FcCtx σ) : Option FcErr × FcCtx σ :=
  fcPassLoop j (ext4FcReplay j ops pass expectedTid) (j.jFcLast + 1 - j.jFcFirst) j.jFcFirst c

/-- The two fast-commit passes of a recovery: the second is made only when the first one
succeeded. -/
def fcRecover {σ : Type} (j : Journal) (ops : FcOps σ) (expectedTid : ℕ) (c : FcCtx σ) :
    Option FcErr × FcCtx σ :=
  match fcPass j ops .scan expectedTid c with
  | (some err, c) => (some err, c)
  | (none, c) => fcPass j ops .replay expectedTid c

end E2fsprogs
