import E2fsprogs.Journal.Walk

/-!
# `PASS_SCAN` on a well-formed log

The first pass walks over every piece, checks what there is to check, and stops
at the block after the last commit block. All it leaves behind is
`end_transaction`, the id after the last one (`E2fsprogs.WellFormedLog.scan`).

With the whole-transaction checksum the pass reads the data blocks too, one by
one; without it, it jumps over them. `E2fsprogs.ScanAt.descriptor` has both.
-/

namespace E2fsprogs

/-- Where `PASS_SCAN` is between two rounds: at position `k`, expecting the id
`tid`, with the running checksum `crc` of the transaction, and with nothing wrong so
far. -/
structure ScanAt (j : Journal) (fsDev : ℕ → Block) (tid k crc : ℕ) (s : PassState) : Prop where
  id : s.nextCommitID = tid
  blk : s.nextLogBlock = logPos j k
  crc : j.features.checksum = true → s.crc32Sum = crc
  need : s.needCheckCommitTime = false
  notEnded : s.info.endTransaction = 0
  success : s.success = none
  blockError : s.blockError = false
  table : s.jRevoke = []
  dev : s.jFsDev = fsDev
  writes : s.fsWrites = []

/-- `calc_chksums` over data blocks that are all there. -/
theorem LogArea.calcChksumsLoop_placed {j : Journal} (ha : LogArea j) :
    ∀ (data : List Block) (k : ℕ) (s : PassState), s.nextLogBlock = logPos j k →
      Placed j k data → ∃ rs, calcChksumsLoop j data.length s =
        (false, { s with
          nextLogBlock := logPos j (k + data.length)
          crc32Sum := crcBlocks j s.crc32Sum data
          reads := rs }) := by
  intro data
  induction data with
  | nil =>
    intro k s hblk _
    exact ⟨s.reads, by simp [calcChksumsLoop, crcBlocks, ← hblk]⟩
  | cons d data ih =>
    intro k s hblk hpl
    obtain ⟨hd, hrest⟩ := placed_cons hpl
    obtain ⟨rs, hrs⟩ := ih (k + 1)
      { s with
        nextLogBlock := logPos j (k + 1)
        crc32Sum := ext2fsCrc32Be s.crc32Sum (bytesOf d j.jBlocksize)
        reads := logPos j k % 2 ^ 32 :: s.reads } rfl hrest
    refine ⟨rs, ?_⟩
    rw [List.length_cons, calcChksumsLoop]
    simp only [hblk, ha.jread_logPos hd, PassState.read, ha.wrap_logPos_succ, hrs, crcBlocks,
      List.foldl_cons]
    rw [Nat.add_assoc, Nat.add_comm 1]

namespace ScanAt

variable {j : Journal} {fsDev : ℕ → Block} {tid k crc : ℕ} {s : PassState}

/-- Over a descriptor block and its data. -/
theorem descriptor (ha : LogArea j) (hs : ScanAt j fsDev tid k crc s) {bh : Block}
    {data : List Block} (hok : (LogPiece.descriptor bh data).Ok j tid)
    (hpl : Placed j k (bh :: data)) (hle : (bh :: data).length ≤ j.jLast - j.jFirst) :
    ∃ s', Loop.Round (passStep j .scan) s s' ∧
      ScanAt j fsDev tid (k + (bh :: data).length) (crcBlocks j crc (bh :: data)) s' := by
  obtain ⟨hhead, hcsum, hlen, -⟩ := hok
  obtain ⟨hb, hdata⟩ := placed_cons hpl
  have hcount : countTags j bh = data.length := by rw [countTags_eq, hlen]
  have hstep : passStep j .scan s = descriptorStep j .scan bh (s.headerRead j k) :=
    ha.passStep_descriptor (Or.inl rfl) hs.blk hb (hs.id ▸ hhead)
  have hpos : k + (bh :: data).length = k + 1 + data.length := by
    rw [List.length_cons]
    omega
  -- with the v1 checksum the data blocks are read to be summed, without it they are skipped
  by_cases hv1 : j.features.checksum = true
  · obtain ⟨rs, hrs⟩ := ha.calcChksumsLoop_placed data (k + 1)
      { s.headerRead j k with
        crc32Sum := ext2fsCrc32Be s.crc32Sum (bytesOf bh j.jBlocksize) } rfl hdata
    refine ⟨{ s.headerRead j k with
      crc32Sum := crcBlocks j (ext2fsCrc32Be s.crc32Sum (bytesOf bh j.jBlocksize)) data
      nextLogBlock := logPos j (k + 1 + data.length)
      reads := rs }, ?_, ?_⟩
    · have hcalc : (calcChksums j bh (s.headerRead j k)).2 = _ := congrArg Prod.snd
        ((congrArg (fun n => calcChksumsLoop j n _) hcount).trans hrs)
      rw [Loop.Round, hstep]
      simp only [descriptorStep, hcsum, hv1, Bool.not_true, Bool.false_and, Bool.false_eq_true,
        if_false]
      rw [if_pos ⟨trivial, trivial, by simp [PassState.headerRead, hs.need], hs.notEnded⟩, hcalc]
    · exact
        { id := hs.id
          blk := by rw [hpos]
          crc := fun _ => by simp only [hs.crc hv1, crcBlocks, List.foldl_cons]
          need := hs.need
          notEnded := hs.notEnded
          success := hs.success
          blockError := hs.blockError
          table := hs.table
          dev := hs.dev
          writes := hs.writes }
  · have hwrap : wrap j (logPos j (k + 1) + data.length) = logPos j (k + 1 + data.length) := by
      rw [List.length_cons] at hle
      exact ha.wrap_logPos _ (by omega)
    refine ⟨{ s.headerRead j k with nextLogBlock := logPos j (k + 1 + data.length) }, ?_, ?_⟩
    · rw [Loop.Round, hstep]
      simp only [descriptorStep, hcsum, hv1, PassState.headerRead, Bool.not_true, Bool.false_and,
        Bool.false_eq_true, if_false, false_and, and_false, hcount, hwrap]
    · exact
        { id := hs.id
          blk := by rw [hpos]
          crc := fun h => absurd h hv1
          need := hs.need
          notEnded := hs.notEnded
          success := hs.success
          blockError := hs.blockError
          table := hs.table
          dev := hs.dev
          writes := hs.writes }

/-- Over a revoke block. -/
theorem revoke (ha : LogArea j) (hs : ScanAt j fsDev tid k crc s) {bh : Block}
    (hok : (LogPiece.revoke bh).Ok j tid) (hb : j.jDev (logPos j k) = some bh) :
    ∃ s', Loop.Round (passStep j .scan) s s' ∧ ScanAt j fsDev tid (k + 1) crc s' := by
  obtain ⟨hhead, hcsum, -⟩ := hok
  refine ⟨s.headerRead j k, ?_, ?_⟩
  · rw [Loop.Round, ha.passStep_revoke (Or.inl rfl) hs.blk hb (hs.id ▸ hhead)]
    simp [revokeStep, hcsum]
  · exact { hs with blk := rfl }

/-- Over a piece. -/
theorem piece (ha : LogArea j) (hs : ScanAt j fsDev tid k crc s) {p : LogPiece}
    (hok : p.Ok j tid) (hpl : Placed j k p.blocks) (hle : p.blocks.length ≤ j.jLast - j.jFirst) :
    ∃ s', Loop.Round (passStep j .scan) s s' ∧
      ScanAt j fsDev tid (k + p.blocks.length) (p.crc j crc) s' := by
  cases p with
  | descriptor bh data => exact hs.descriptor ha hok hpl hle
  | revoke bh => exact hs.revoke ha hok (placed_cons hpl).1

/-- Over a commit block, on to the next id. -/
theorem commit (ha : LogArea j) {t : LogTransaction} (hs : ScanAt j fsDev tid k (t.crc j) s)
    (hok : t.Ok j tid) (hb : j.jDev (logPos j k) = some t.commit) :
    ∃ s', Loop.Round (passStep j .scan) s s' ∧
      ScanAt j fsDev (tidSucc tid) (k + 1) allOnes32 s' := by
  have hstep : passStep j .scan s = commitStep j .scan t.commit (s.headerRead j k) :=
    ha.passStep_commit (Or.inl rfl) hs.blk hb (hs.id ▸ hok.commit)
  by_cases hv1 : j.features.checksum = true
  · have hmatch : chksumMismatch s.crc32Sum t.commit = false := by
      rw [hs.crc hv1]
      exact hok.checksum hv1
    refine ⟨{ s.headerRead j k with
      crc32Sum := allOnes32
      lastTransCommitTime := hCommitSec t.commit
      nextCommitID := tidSucc s.nextCommitID }, ?_, ?_⟩
    · rw [Loop.Round, hstep]
      simp [commitStep, nextTransaction, PassState.headerRead, hs.need, hs.notEnded, hv1, hmatch,
        hok.csum]
    · exact { hs with id := congrArg tidSucc hs.id, blk := rfl, crc := fun _ => rfl }
  · refine ⟨{ s.headerRead j k with
      lastTransCommitTime := hCommitSec t.commit
      nextCommitID := tidSucc s.nextCommitID }, ?_, ?_⟩
    · rw [Loop.Round, hstep]
      simp [commitStep, nextTransaction, PassState.headerRead, hs.need, hv1, hok.csum]
    · exact { hs with id := congrArg tidSucc hs.id, blk := rfl, crc := fun h => absurd h hv1 }

end ScanAt

/-! ### The whole pass -/

/-- What `PASS_SCAN` hands to the next pass. -/
structure Scanned (j : Journal) (fsDev : ℕ → Block) (endTid : ℕ) (s : PassState) : Prop where
  endTransaction : s.info.endTransaction = endTid
  success : s.success = none
  blockError : s.blockError = false
  table : s.jRevoke = []
  dev : s.jFsDev = fsDev
  writes : s.fsWrites = []

/-- What a pass that left its loop for `done` returns without fast commits. -/
theorem endPass_done {j : Journal} (hfc : j.features.fastCommit = false) (fc : Option FcCallback)
    {pass : PassType} {s : PassState} (h : (recordEnd pass s).blockError = false) :
    endPass j fc pass (.done s) = ((recordEnd pass s).success, recordEnd pass s) := by
  simp [endPass, fastCommitPass, hfc, h]

/-- **`PASS_SCAN` finds the end of the log.** -/
theorem WellFormedLog.scan {j : Journal} {log : List LogTransaction} (hw : WellFormedLog j log)
    (fc : Option FcCallback) (fsDev : ℕ → Block) :
    ∃ e s, Loop.Leaves (passStep j .scan) (startPass j .scan (recoverStart fsDev)) e ∧
      endPass j fc .scan e = (none, s) ∧
      Scanned j fsDev (tidAt j.jTailSequence log.length) s := by
  have ha := hw.logArea
  have h0 : ScanAt j fsDev (tidAt j.jTailSequence 0) 0 allOnes32
      (startPass j .scan (recoverStart fsDev)) :=
    { id := (tidAt_zero hw.seq_lt).symm
      blk := ha.logPos_zero.symm
      crc := fun _ => rfl
      need := rfl
      notEnded := rfl
      success := rfl
      blockError := rfl
      table := rfl
      dev := rfl
      writes := rfl }
  obtain ⟨s, hreach, hs⟩ := WellFormedLog.walk log .scan
    (B := fun pre _ s => ScanAt j fsDev (tidAt j.jTailSequence pre.length)
      (logBlocks pre).length allOnes32 s)
    (P := fun pre _ ps _ _ s => ScanAt j fsDev (tidAt j.jTailSequence pre.length)
      ((logBlocks pre).length + (ps.flatMap LogPiece.blocks).length)
      (ps.foldl (fun c p => p.crc j c) allOnes32) s)
    (fun pre t rest s _ hB => by simpa using hB)
    (fun pre t ps p qs rest s hlog hps hP => by
      obtain ⟨hpl, hle⟩ := hw.placed_piece hlog hps
      obtain ⟨s', hr, hs'⟩ := hP.piece ha
        ((hw.trans_ok hlog).pieces p (by rw [hps]; simp)) hpl hle
      refine ⟨s', Relation.ReflTransGen.single hr, ?_⟩
      simpa [Nat.add_assoc, List.foldl_append] using hs')
    (fun pre t rest s hlog hP => by
      obtain ⟨s', hr, hs'⟩ := ScanAt.commit ha hP (hw.trans_ok hlog) (hw.placed_commit hlog)
      refine ⟨s', Relation.ReflTransGen.single hr, ?_⟩
      rw [tidSucc_tidAt] at hs'
      simpa [logBlocks, LogTransaction.blocks, Nat.add_assoc] using hs')
    (s := startPass j .scan (recoverStart fsDev)) h0
  obtain ⟨b, hb, hstop⟩ := hw.stop
  -- the block behind the log is not its next header, so the pass ends there
  have hfin : passStep j .scan s = .finish (s.headerRead j (logBlocks log).length) :=
    ha.passStep_stop (Or.inl rfl) hs.blk hb (hs.id ▸ hstop)
  have hrec : recordEnd .scan (s.headerRead j (logBlocks log).length) =
      { s.headerRead j (logBlocks log).length with
        info := { s.info with endTransaction := s.nextCommitID } } := by
    simp [recordEnd, PassState.headerRead, hs.notEnded]
  refine ⟨.done (s.headerRead j (logBlocks log).length),
    { s.headerRead j (logBlocks log).length with
      info := { s.info with endTransaction := s.nextCommitID } },
    Loop.leaves_of_reach hreach (Loop.leaves_of_inr hfin), ?_, ?_⟩
  · rw [endPass_done hw.fastCommit fc (by rw [hrec]; exact hs.blockError), hrec]
    exact Prod.ext hs.success rfl
  · exact
      { endTransaction := hs.id
        success := hs.success
        blockError := hs.blockError
        table := hs.table
        dev := hs.dev
        writes := hs.writes }

end E2fsprogs
