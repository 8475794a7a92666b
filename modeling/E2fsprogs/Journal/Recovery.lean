import E2fsprogs.Journal.Format
import E2fsprogs.Lib.Loop

/-!
# Journal recovery

`recovery.c` and the recovery half of `revoke.c`. Three passes walk the same log:
`PASS_SCAN` looks for its end, `PASS_REVOKE` collects the revoke records,
`PASS_REPLAY` writes the logged blocks to the file system. All three are one
function, `do_one_pass`, whose `while (1)` loop is `E2fsprogs.passStep` here – one
round of the loop, with the pass as a parameter – run by `E2fsprogs.Loop.run`.

The state of a pass (`E2fsprogs.PassState`) holds the local variables of
`do_one_pass` and everything the passes hand to each other: `recovery_info`, the
revoke table, the file-system device. Two fields are not in the source, and no
function reads them: `reads` lists the indices that `jread` was asked for,
`fsWrites` the blocks written to the file system – with the id of the transaction
being replayed, the block number and the data. Both have the newest first; they are
there so that one can say where a pass has looked and what it has done.

Two things about the control flow are easy to misread in the source and matter
later. A `break` inside the `switch` leaves the `switch` and goes round the loop
again (`E2fsprogs.PassStep.again`); only a `break` outside it ends the scan. And
`end_transaction = 0` means “not set”, although `0` is a transaction id like any
other.
-/

namespace E2fsprogs

/-! ### Transaction ids -/

/-- `x - y` for two 32-bit ids, as the bit pattern of an `int`. -/
def tidDiff (x y : ℕ) : ℕ := (x + 2 ^ 32 - y) % 2 ^ 32

/-- `tid_gt`: the signed difference is positive. -/
def tidGt (x y : ℕ) : Bool := decide (0 < tidDiff x y) && decide (tidDiff x y < 2 ^ 31)

/-- `tid_geq`: the signed difference is not negative. -/
def tidGeq (x y : ℕ) : Bool := decide (tidDiff x y < 2 ^ 31)

/-- The next id: `next_commit_ID++`. -/
def tidSucc (x : ℕ) : ℕ := (x + 1) % 2 ^ 32

/-! ### The revoke table -/

/-- `struct jbd2_revoke_record_s`. -/
structure RevokeRecord where
  sequence : ℕ
  blocknr : ℕ
  deriving DecidableEq, Repr

/-- `find_revoke_record`. The hash only picks the list to search; the table is
kept as one list. -/
def findRevokeRecord (tbl : List RevokeRecord) (blocknr : ℕ) : Option RevokeRecord :=
  tbl.find? fun r => r.blocknr == blocknr

/-- `jbd2_journal_set_revoke`. -/
def jbd2JournalSetRevoke (tbl : List RevokeRecord) (blocknr sequence : ℕ) : List RevokeRecord :=
  match findRevokeRecord tbl blocknr with
  | some r =>
      if tidGt sequence r.sequence then
        tbl.map fun q => if q.blocknr = blocknr then { q with sequence := sequence } else q
      else tbl
  | none => { sequence := sequence, blocknr := blocknr } :: tbl

/-- `jbd2_journal_test_revoke`. -/
def jbd2JournalTestRevoke (tbl : List RevokeRecord) (blocknr sequence : ℕ) : Bool :=
  match findRevokeRecord tbl blocknr with
  | none => false
  | some r => !tidGt sequence r.sequence

/-! ### The state of a pass -/

/-- `enum passtype`. -/
inductive PassType
  | scan
  | revoke
  | replay
  deriving DecidableEq, Repr

/-- The errors a pass can report. -/
inductive Errno
  | eio
  | einval
  | efscorrupted
  | efsbadcrc
  /-- An error reported by the fast-commit callback. -/
  | fastCommit
  deriving DecidableEq, Repr

/-- `struct recovery_info`. -/
structure RecoveryInfo where
  startTransaction : ℕ
  endTransaction : ℕ
  nrReplays : ℕ
  nrRevokes : ℕ
  nrRevokeHits : ℕ
  deriving DecidableEq, Repr

/-- The state of `do_one_pass` between two rounds of its loop. -/
structure PassState where
  nextCommitID : ℕ
  nextLogBlock : ℕ
  crc32Sum : ℕ
  needCheckCommitTime : Bool
  lastTransCommitTime : ℕ
  success : Option Errno
  blockError : Bool
  info : RecoveryInfo
  jFailedCommit : ℕ
  jRevoke : List RevokeRecord
  jFsDev : ℕ → Block
  reads : List ℕ
  fsWrites : List (ℕ × ℕ × Block)

/-- How a pass leaves its loop. -/
inductive PassEnd
  /-- A `break` of the loop, or `goto done`. -/
  | done (s : PassState)
  /-- `goto failed`. -/
  | failed (err : Errno) (s : PassState)

/-- The result of a round of the loop. -/
abbrev PassStep := PassState ⊕ PassEnd

/-- Go round the loop again. -/
abbrev PassStep.again (s : PassState) : PassStep := .inl s

/-- Leave the loop for `done`. -/
abbrev PassStep.finish (s : PassState) : PassStep := .inr (.done s)

/-- Leave the loop for `failed`. -/
abbrev PassStep.fail (err : Errno) (s : PassState) : PassStep := .inr (.failed err s)

/-! ### Walking the log -/

/-- The bound `wrap` compares with: `j_fc_last` with the fast-commit feature,
`j_last` without. -/
def wrapLast (j : Journal) : ℕ := if j.features.fastCommit then j.jFcLast else j.jLast

/-- `wrap`. -/
def wrap (j : Journal) (var : ℕ) : ℕ :=
  if wrapLast j ≤ var then sub64 var (sub64 (wrapLast j) j.jFirst) else var

/-- `jread`: the block at an index of the log, of which it takes an `unsigned int`. -/
def jread (j : Journal) (blk : ℕ) : Except Errno Block :=
  let offset := blk % 2 ^ 32
  if j.jTotalLen ≤ offset then .error .efscorrupted
  else match j.jDev offset with
    | none => .error .eio
    | some b => .ok b

/-- An index of 32 bits is taken as it is. -/
theorem jread_of_lt {j : Journal} {blk : ℕ} (h : blk < 2 ^ 32) :
    jread j blk = if j.jTotalLen ≤ blk then .error .efscorrupted
      else match j.jDev blk with
        | none => .error .eio
        | some b => .ok b := by
  rw [jread, Nat.mod_eq_of_lt h]

theorem jread_ok {j : Journal} {blk : ℕ} {b : Block} (h : jread j blk = .ok b) :
    blk % 2 ^ 32 < j.jTotalLen ∧ j.jDev (blk % 2 ^ 32) = some b := by
  rw [jread] at h
  split at h
  · cases h
  · next hlt =>
    refine ⟨Nat.not_le.mp hlt, ?_⟩
    cases hdev : j.jDev (blk % 2 ^ 32) with
    | none =>
      rw [hdev] at h
      cases h
    | some b' =>
      rw [hdev] at h
      exact congrArg some (Except.ok.inj h)

/-- `jread` was called with `blk`. -/
def PassState.read (s : PassState) (blk : ℕ) : PassState :=
  { s with reads := blk % 2 ^ 32 :: s.reads }

/-- `t_flags` of the tag at offset `tagp`. -/
def tFlags (b : Block) (tagp : ℕ) : ℕ := getBe b (tagp + 6) 2

/-- The offset of the tag after the one at `tagp`. -/
def nextTagp (f : Features) (b : Block) (tagp : ℕ) : ℕ :=
  tagp + journalTagBytes f + if hasFlag (tFlags b tagp) jbd2FlagSameUuid then 0 else 16

/-- The loop of `count_tags`, at most `fuel` times. -/
def countTagsFrom (f : Features) (size : ℕ) (b : Block) : ℕ → ℕ → ℕ
  | 0, _ => 0
  | fuel + 1, tagp =>
      if tagp + journalTagBytes f ≤ size then
        if hasFlag (tFlags b tagp) jbd2FlagLastTag then 1
        else 1 + countTagsFrom f size b fuel (nextTagp f b tagp)
      else 0

/-- `count_tags`. A tag takes at least a byte, so the block size is fuel
enough. -/
def countTags (j : Journal) (b : Block) : ℕ :=
  countTagsFrom j.features (j.jBlocksize - descrCsumSize j.features) b j.jBlocksize
    journalHeaderSize

/-- `read_tag_block`: the block number in the tag at `tagp`. -/
def readTagBlock (f : Features) (b : Block) (tagp : ℕ) : ℕ :=
  getBe b tagp 4 + if f.bit64 then getBe b (tagp + 8) 4 * 2 ^ 32 else 0

/-! ### Checksums -/

/-- `jbd2_chksum`. -/
def jbd2Chksum (crc : ℕ) (p : List UInt8) : ℕ := ext2fsCrc32cLe crc p

/-- `jbd2_descriptor_block_csum_verify`. -/
def jbd2DescriptorBlockCsumVerify (j : Journal) (b : Block) : Bool :=
  if !j.features.csumV2or3 then true
  else
    let tail := j.jBlocksize - 4
    getBe b tail 4 == jbd2Chksum j.jCsumSeed (bytesOf (putBe b tail 4 0) j.jBlocksize)

/-- `jbd2_commit_block_csum_verify`. -/
def jbd2CommitBlockCsumVerify (j : Journal) (b : Block) : Bool :=
  if !j.features.csumV2or3 then true
  else hChksum b == jbd2Chksum j.jCsumSeed (bytesOf (putBe b 16 4 0) j.jBlocksize)

/-- The big-endian bytes of a 32-bit word. -/
def be32Bytes (v : ℕ) : List UInt8 := bytesOf (putBe zeroBlock 0 4 v) 4

/-- The checksum a tag keeps of its data block. -/
def blockTagCsum (j : Journal) (data : Block) (sequence : ℕ) : ℕ :=
  jbd2Chksum (jbd2Chksum j.jCsumSeed (be32Bytes sequence)) (bytesOf data j.jBlocksize)

/-- `jbd2_block_tag_csum_verify`. -/
def jbd2BlockTagCsumVerify (j : Journal) (b : Block) (tagp : ℕ) (data : Block)
    (sequence : ℕ) : Bool :=
  if !j.features.csumV2or3 then true
  else if j.features.csum3 then getBe b (tagp + 12) 4 == blockTagCsum j data sequence
  else getBe b (tagp + 4) 2 == blockTagCsum j data sequence % 2 ^ 16

/-- The loop of `calc_chksums` over the data blocks: `true` when a block cannot
be read. -/
def calcChksumsLoop (j : Journal) : ℕ → PassState → Bool × PassState
  | 0, s => (false, s)
  | n + 1, s =>
      let ioBlock := s.nextLogBlock
      let s := { s with nextLogBlock := wrap j (s.nextLogBlock + 1) }.read ioBlock
      match jread j ioBlock with
      | .error _ => (true, s)
      | .ok obh =>
          calcChksumsLoop j n
            { s with crc32Sum := ext2fsCrc32Be s.crc32Sum (bytesOf obh j.jBlocksize) }

/-- `calc_chksums`. -/
def calcChksums (j : Journal) (bh : Block) (s : PassState) : Bool × PassState :=
  calcChksumsLoop j (countTags j bh)
    { s with crc32Sum := ext2fsCrc32Be s.crc32Sum (bytesOf bh j.jBlocksize) }

/-! ### The three kinds of log block -/

/-- The data of a log block as it goes to the file system: with the magic number
put back if it had been escaped. -/
def unescape (flags : ℕ) (data : Block) : Block :=
  if hasFlag flags jbd2FlagEscape then putBe data 0 4 jbd2MagicNumber else data

/-- One tag of a descriptor block in `PASS_REPLAY`: the body of the inner `while`
loop. -/
def replayTag (j : Journal) (bh : Block) (tagp : ℕ) (s : PassState) : PassState :=
  let ioBlock := s.nextLogBlock
  let s := { s with nextLogBlock := wrap j (s.nextLogBlock + 1) }.read ioBlock
  match jread j ioBlock with
  | .error err => { s with success := some err }
  | .ok obh =>
      let blocknr := readTagBlock j.features bh tagp
      if jbd2JournalTestRevoke s.jRevoke blocknr s.nextCommitID then
        { s with info := { s.info with nrRevokeHits := s.info.nrRevokeHits + 1 } }
      else if !jbd2BlockTagCsumVerify j bh tagp obh (hSequence bh) then
        { s with success := some .efsbadcrc, blockError := true }
      else
        { s with
          jFsDev := Function.update s.jFsDev blocknr (unescape (tFlags bh tagp) obh)
          fsWrites := (s.nextCommitID, blocknr, unescape (tFlags bh tagp) obh) :: s.fsWrites
          info := { s.info with nrReplays := s.info.nrReplays + 1 } }

/-- The inner `while` loop of `PASS_REPLAY` over the tags of a descriptor block, at
most `fuel` times. -/
def replayTagsFrom (j : Journal) (bh : Block) : ℕ → ℕ → PassState → PassState
  | 0, _, s => s
  | fuel + 1, tagp, s =>
      if tagp + journalTagBytes j.features ≤ j.jBlocksize - descrCsumSize j.features then
        let s := replayTag j bh tagp s
        if hasFlag (tFlags bh tagp) jbd2FlagLastTag then s
        else replayTagsFrom j bh fuel (nextTagp j.features bh tagp) s
      else s

/-- `case JBD2_DESCRIPTOR_BLOCK`. -/
def descriptorStep (j : Journal) (pass : PassType) (bh : Block) (s : PassState) : PassStep :=
  let bad := !jbd2DescriptorBlockCsumVerify j bh
  if bad && decide (pass ≠ .scan) then .fail .efsbadcrc s
  else
    let s := if bad then { s with needCheckCommitTime := true } else s
    match pass with
    | .replay => .again (replayTagsFrom j bh j.jBlocksize journalHeaderSize s)
    | _ =>
        if pass = .scan ∧ j.features.checksum ∧ !s.needCheckCommitTime ∧
            s.info.endTransaction = 0 then
          -- when it fails, its `break` leaves the `switch` only
          .again (calcChksums j bh s).2
        else
          .again { s with nextLogBlock := wrap j (s.nextLogBlock + countTags j bh) }

/-- The whole-transaction checksum of a commit block neither matches nor is
unused. -/
def chksumMismatch (crc32Sum : ℕ) (cbh : Block) : Bool :=
  !((crc32Sum == hChksum cbh && hChksumType cbh == jbd2Crc32Chksum &&
      hChksumSize cbh == jbd2Crc32ChksumSize) ||
    (hChksumType cbh == 0 && hChksumSize cbh == 0 && hChksum cbh == 0))

/-- The end of `case JBD2_COMMIT_BLOCK`: on to the next transaction. -/
def nextTransaction (pass : PassType) (bh : Block) (s : PassState) : PassStep :=
  .again { s with
    lastTransCommitTime := if pass = .scan then hCommitSec bh else s.lastTransCommitTime
    nextCommitID := tidSucc s.nextCommitID }

/-- The label `chksum_error`. -/
def chksumError (j : Journal) (pass : PassType) (bh : Block) (s : PassState) : PassStep :=
  if hCommitSec bh < s.lastTransCommitTime then .finish s
  else
    let s := { s with info := { s.info with endTransaction := s.nextCommitID } }
    if !j.features.asyncCommit then
      -- this `break` leaves the `switch` only: the scan goes on, for the same id
      .again { s with jFailedCommit := s.nextCommitID }
    else nextTransaction pass bh s

/-- `case JBD2_COMMIT_BLOCK`. -/
def commitStep (j : Journal) (pass : PassType) (bh : Block) (s : PassState) : PassStep :=
  if s.needCheckCommitTime then
    if s.lastTransCommitTime ≤ hCommitSec bh then .fail .efsbadcrc s
    else .finish s
  else if pass = .scan ∧ j.features.checksum then
    if s.info.endTransaction ≠ 0 then .again { s with jFailedCommit := s.info.endTransaction }
    else if chksumMismatch s.crc32Sum bh then chksumError j pass bh s
    else
      let s := { s with crc32Sum := allOnes32 }
      if !jbd2CommitBlockCsumVerify j bh then chksumError j pass bh s
      else nextTransaction pass bh s
  else if pass = .scan ∧ !jbd2CommitBlockCsumVerify j bh then chksumError j pass bh s
  else nextTransaction pass bh s

/-- The length of a revoke record. -/
def recordLen (f : Features) : ℕ := if f.bit64 then 8 else 4

/-- The block numbers listed in a revoke block: the `while` loop of
`scan_revoke_records` steps from the end of the header by `record_len` for as long
as a whole record fits below `max`. -/
def revokeRecords (f : Features) (bh : Block) (max : ℕ) : List ℕ :=
  (List.range ((max - revokeHeaderSize) / recordLen f)).map fun i =>
    getBe bh (revokeHeaderSize + i * recordLen f) (recordLen f)

/-- `scan_revoke_records`. -/
def scanRevokeRecords (j : Journal) (bh : Block) (sequence : ℕ) (s : PassState) :
    Except Errno PassState :=
  if j.jBlocksize - descrCsumSize j.features < rCount bh then .error .einval
  else
    .ok ((revokeRecords j.features bh (rCount bh)).foldl (fun s blocknr =>
      { s with
        jRevoke := jbd2JournalSetRevoke s.jRevoke blocknr sequence
        info := { s.info with nrRevokes := s.info.nrRevokes + 1 } }) s)

/-- `case JBD2_REVOKE_BLOCK`. -/
def revokeStep (j : Journal) (pass : PassType) (bh : Block) (s : PassState) : PassStep :=
  let s := if pass = .scan ∧ !jbd2DescriptorBlockCsumVerify j bh then
    { s with needCheckCommitTime := true } else s
  if pass ≠ .revoke then .again s
  else match scanRevokeRecords j bh s.nextCommitID s with
    | .error err => .fail err s
    | .ok s => .again s

/-! ### One pass -/

/-- One round of the loop of `do_one_pass`. -/
def passStep (j : Journal) (pass : PassType) (s : PassState) : PassStep :=
  if pass ≠ .scan ∧ tidGeq s.nextCommitID s.info.endTransaction then .finish s
  else
    let s' := s.read s.nextLogBlock
    match jread j s.nextLogBlock with
    | .error err => .fail err s'
    | .ok bh =>
        let s' := { s' with nextLogBlock := wrap j (s.nextLogBlock + 1) }
        if hMagic bh ≠ jbd2MagicNumber then .finish s'
        else if hSequence bh ≠ s.nextCommitID then .finish s'
        else if hBlocktype bh = jbd2DescriptorBlock then descriptorStep j pass bh s'
        else if hBlocktype bh = jbd2CommitBlock then commitStep j pass bh s'
        else if hBlocktype bh = jbd2RevokeBlock then revokeStep j pass bh s'
        else .finish s'

/-- The local variables of `do_one_pass` as a pass begins. -/
def startPass (j : Journal) (pass : PassType) (s : PassState) : PassState :=
  { s with
    nextCommitID := j.jTailSequence
    nextLogBlock := j.jTail
    crc32Sum := allOnes32
    needCheckCommitTime := false
    lastTransCommitTime := 0
    success := none
    blockError := false
    info := if pass = .scan then { s.info with startTransaction := j.jTailSequence } else s.info }

/-- What `j_fc_replay_callback` answers. -/
inductive FcReplay
  | error
  | stop
  | continue
  deriving DecidableEq, Repr

/-- The type of `j_fc_replay_callback`: it is given a fast-commit block, the pass,
the offset of the block in the fast-commit area and the expected id, and works on the
file system. The replay state it keeps for itself is left out: nothing else reads
it. -/
abbrev FcCallback := Block → PassType → ℕ → ℕ → (ℕ → Block) → FcReplay × (ℕ → Block)

/-- The loop of `fc_do_one_pass`, from `nextFcBlock` on for `n` blocks. -/
def fcDoOnePassLoop (j : Journal) (cb : FcCallback) (pass : PassType) (expectedCommitID : ℕ) :
    ℕ → ℕ → (ℕ → Block) → Option Errno × (ℕ → Block)
  | 0, _, dev => (none, dev)
  | n + 1, nextFcBlock, dev =>
      match jread j nextFcBlock with
      | .error err => (some err, dev)
      | .ok bh =>
          match cb bh pass (nextFcBlock - j.jFcFirst) expectedCommitID dev with
          | (.error, dev) => (some .fastCommit, dev)
          | (.stop, dev) => (none, dev)
          | (.continue, dev) =>
              fcDoOnePassLoop j cb pass expectedCommitID n (nextFcBlock + 1) dev

/-- `fc_do_one_pass`. -/
def fcDoOnePass (j : Journal) (fc : Option FcCallback) (pass : PassType) (s : PassState) :
    Option Errno × PassState :=
  match fc with
  | none => (none, s)
  | some cb =>
      let (err, dev) := fcDoOnePassLoop j cb pass s.info.endTransaction
        (j.jFcLast + 1 - j.jFcFirst) j.jFcFirst s.jFsDev
      (err, { s with jFsDev := dev })

/-- The label `done` of `do_one_pass`, up to the fast-commit pass. -/
def recordEnd (pass : PassType) (s : PassState) : PassState :=
  if pass = .scan then
    if s.info.endTransaction = 0 then
      { s with info := { s.info with endTransaction := s.nextCommitID } }
    else s
  else if s.info.endTransaction ≠ s.nextCommitID then
    { s with success := some (s.success.getD .eio) }
  else s

/-- The fast-commit pass at the end of `PASS_SCAN` and `PASS_REPLAY`. -/
def fastCommitPass (j : Journal) (fc : Option FcCallback) (pass : PassType) (s : PassState) :
    PassState :=
  if j.features.fastCommit ∧ pass ≠ .revoke then
    match fcDoOnePass j fc pass s with
    | (none, s) => s
    | (some err, s) => { s with success := some err }
  else s

/-- What `do_one_pass` returns, and the state it leaves. -/
def endPass (j : Journal) (fc : Option FcCallback) (pass : PassType) :
    PassEnd → Option Errno × PassState
  | .failed err s => (some err, s)
  | .done s =>
      let s := fastCommitPass j fc pass (recordEnd pass s)
      (if s.blockError ∧ s.success = none then some .eio else s.success, s)

/-- `do_one_pass`, its loop run at most `fuel` times. -/
def doOnePass (j : Journal) (fc : Option FcCallback) (fuel : ℕ) (pass : PassType)
    (s : PassState) : Option (Option Errno × PassState) :=
  (Loop.run (passStep j pass) fuel (startPass j pass s)).map (endPass j fc pass)

/-- The state `jbd2_journal_recover` starts from: a zeroed `recovery_info` and an
empty revoke table. -/
def recoverStart (fsDev : ℕ → Block) : PassState where
  nextCommitID := 0
  nextLogBlock := 0
  crc32Sum := 0
  needCheckCommitTime := false
  lastTransCommitTime := 0
  success := none
  blockError := false
  info := ⟨0, 0, 0, 0, 0⟩
  jFailedCommit := 0
  jRevoke := []
  jFsDev := fsDev
  reads := []
  fsWrites := []

/-- The three passes of `jbd2_journal_recover`, each run only when the one before
it succeeded. -/
def recoverPasses (j : Journal) (fc : Option FcCallback) (fuel : ℕ) (s : PassState) :
    Option (Option Errno × PassState) := do
  let (err, s) ← doOnePass j fc fuel .scan s
  if err ≠ none then return (err, s)
  let (err, s) ← doOnePass j fc fuel .revoke s
  if err ≠ none then return (err, s)
  doOnePass j fc fuel .replay s

/-- `jbd2_journal_recover`: the error, the next transaction id
(`j_transaction_sequence`) and the state afterwards. -/
def jbd2JournalRecover (j : Journal) (fc : Option FcCallback) (fuel : ℕ) (fsDev : ℕ → Block) :
    Option (Option Errno × ℕ × PassState) :=
  if j.jTail = 0 then some (none, tidSucc j.jTailSequence, recoverStart fsDev)
  else
    (recoverPasses j fc fuel (recoverStart fsDev)).map fun (err, s) =>
      let endTransaction := tidSucc s.info.endTransaction
      (err, endTransaction,
        { s with info := { s.info with endTransaction := endTransaction }, jRevoke := [] })

end E2fsprogs
