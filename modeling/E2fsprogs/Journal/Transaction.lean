import E2fsprogs.Journal.Encode

/-!
# A whole transaction in the log

`E2fsprogs.journalWrite_spec` puts the three parts of `journal_write` together: the
blocks a successful call lays into the log are a complete transaction, and its
tags, records and checksums say what the call was asked for
(`E2fsprogs.Encodes`).

One thing to note is what the two whole-transaction checksums cover. The reader's
passes over revoke blocks (`E2fsprogs.foldl_crc_of_revokes`); the writer's takes in
every block from the start of the transaction on (`E2fsprogs.csumV1From_eq`).
-/

namespace E2fsprogs

theorem crcBlocks_append (j : Journal) (crc : ℕ) (bs cs : List Block) :
    crcBlocks j crc (bs ++ cs) = crcBlocks j (crcBlocks j crc bs) cs :=
  List.foldl_append

theorem crcBlocks_lt (j : Journal) {crc : ℕ} (h : crc < 2 ^ 32) (bs : List Block) :
    crcBlocks j crc bs < 2 ^ 32 := by
  induction bs generalizing crc with
  | nil => exact h
  | cons b bs ih =>
    rw [crcBlocks, List.foldl_cons]
    exact ih (ext2fsCrc32Be_lt h _)

/-- The reader's checksum takes in descriptor blocks and their data. -/
theorem foldl_crc_of_descriptors (j : Journal) : ∀ (ps : List LogPiece) (crc : ℕ),
    (∀ p ∈ ps, ∃ b xs, p = descriptorPiece b xs) →
    ps.foldl (fun c p => p.crc j c) crc = crcBlocks j crc (pieceBlocks ps) := by
  intro ps
  induction ps with
  | nil => intro crc _; rfl
  | cons p ps ih =>
    intro crc h
    obtain ⟨b, xs, rfl⟩ := h p (by simp)
    rw [List.foldl_cons, ih _ fun q hq => h q (List.mem_cons_of_mem _ hq), pieceBlocks,
      pieceBlocks, List.flatMap_cons, crcBlocks_append]
    rfl

/-- The reader's checksum passes over revoke blocks. -/
theorem foldl_crc_of_revokes (j : Journal) : ∀ (ps : List LogPiece) (crc : ℕ),
    (∀ p ∈ ps, ∃ b, p = .revoke b) → ps.foldl (fun c p => p.crc j c) crc = crc := by
  intro ps
  induction ps with
  | nil => intro crc _; rfl
  | cons p ps ih =>
    intro crc h
    obtain ⟨b, rfl⟩ := h p (by simp)
    exact ih _ fun q hq => h q (List.mem_cons_of_mem _ hq)

theorem flatMap_writes_of_revokes (j : Journal) (ps : List LogPiece)
    (h : ∀ p ∈ ps, ∃ b, p = .revoke b) : ps.flatMap (LogPiece.writes j) = [] := by
  rw [List.flatMap_eq_nil_iff]
  intro p hp
  obtain ⟨b, rfl⟩ := h p hp
  rfl

theorem flatMap_revokes_of_descriptors (j : Journal) (ps : List LogPiece)
    (h : ∀ p ∈ ps, ∃ b xs, p = descriptorPiece b xs) : ps.flatMap (LogPiece.revokes j) = [] := by
  rw [List.flatMap_eq_nil_iff]
  intro p hp
  obtain ⟨b, xs, rfl⟩ := h p hp
  rfl

/-- The writer's checksum takes in every block of the log from the start of the
transaction on. -/
theorem csumV1From_eq {w : Writer} : ∀ (bs : List Block) (cblk crc : ℕ),
    Laid w.journal.jDev cblk bs →
    csumV1From w bs.length cblk crc = .ok (crcBlocks w.journal crc bs) := by
  intro bs
  induction bs with
  | nil => intro cblk crc _; rfl
  | cons b bs ih =>
    intro cblk crc h
    obtain ⟨hb, hrest⟩ := laid_cons.mp h
    rw [List.length_cons, csumV1From, hb]
    exact ih _ _ hrest

/-! ### What does not depend on the log -/

/-- A journal with another content and another tail. -/
def Journal.withLog (j : Journal) (dev : ℕ → Option Block) (tail sequence : ℕ) : Journal :=
  { j with jDev := dev, jTail := tail, jTailSequence := sequence }

section WithLog

variable {j : Journal} {dev : ℕ → Option Block} {tail sequence : ℕ}

theorem LogPiece.ok_withLog {tid : ℕ} {p : LogPiece} :
    p.Ok (j.withLog dev tail sequence) tid ↔ p.Ok j tid := by
  cases p <;> rfl

theorem LogPiece.revokes_withLog :
    LogPiece.revokes (j.withLog dev tail sequence) = LogPiece.revokes j := by
  funext p
  cases p <;> rfl

theorem LogPiece.writes_withLog :
    LogPiece.writes (j.withLog dev tail sequence) = LogPiece.writes j := by
  funext p
  cases p <;> rfl

theorem revokePart_withLog (tid : ℕ) (revokeList : List ℕ) :
    revokePart (j.withLog dev tail sequence) tid revokeList = revokePart j tid revokeList := by
  have h : ∀ (rest : List ℕ) (offset : ℕ) (jrb : Block),
      revokeBlocks (j.withLog dev tail sequence) rest offset jrb =
        revokeBlocks j rest offset jrb := by
    intro rest
    induction rest with
    | nil => intro offset jrb; rfl
    | cons n rest ih =>
      intro offset jrb
      simp only [revokeBlocks, ih]
      rfl
  rw [revokePart, revokePart, h]

theorem LogPiece.crc_withLog :
    LogPiece.crc (j.withLog dev tail sequence) = LogPiece.crc j := by
  funext crc p
  cases p <;> rfl

end WithLog

/-! ### The call -/

/-- The id of the next transaction. -/
def Writer.nextTid (w : Writer) : ℕ :=
  if w.journal.jTail = 0 then w.journal.jTailSequence else w.jTransactionSequence

/-- Where the next transaction starts. -/
def Writer.nextStart (w : Writer) : ℕ :=
  if w.journal.jTail = 0 then w.journal.jFirst else w.jHead

/-- The room `journal_write` reckons with. -/
def WriteArgs.guess (a : WriteArgs) (j : Journal) : ℕ :=
  journalGuessBlocks j a.blockList.length a.revokeList.length

/-- The number of blocks a transaction takes. -/
def WriteArgs.blocksNeeded (a : WriteArgs) (j : Journal) : ℕ :=
  descriptorCount j a.blockList.length + a.blockList.length +
    revokeCount j a.revokeList.length + 1

/-- The blocks to write, each with its data. -/
def WriteArgs.data (a : WriteArgs) : List (ℕ × Block) := a.blockList.zip a.fp

/-- The transaction `t` says what `journal_write` was asked for. -/
structure Encodes (w : Writer) (a : WriteArgs) (t : LogTransaction) : Prop where
  pieces : ∀ p ∈ t.pieces, p.Ok w.journal w.nextTid
  commit : HeaderIs t.commit jbd2CommitBlock w.nextTid
  csum : jbd2CommitBlockCsumVerify w.journal t.commit = true
  mismatch : w.journal.features.checksum = true → w.journal.features.csumV2or3 = false →
    ∀ crc, chksumMismatch crc t.commit = decide (crc ≠ crcBlocks w.journal allOnes32
      (dataPart w w.nextTid a.data ++ revokePart w.journal w.nextTid a.revokeList))
  crc : t.crc w.journal = crcBlocks w.journal allOnes32 (dataPart w w.nextTid a.data)
  writes : t.writes w.journal = a.data.map (readBack w.journal.features)
  revokes : t.revokes w.journal = a.revokeList.map (readNumber w.journal.features)
  length : t.blocks.length = a.blocksNeeded w.journal

/-- The transaction as `journal_open_trans` makes it. -/
def openedTrans (w : Writer) (blocks : ℕ) : Trans where
  block := w.nextStart
  start := w.nextStart
  endBlock := w.nextStart + blocks
  tid := w.nextTid
  opened := true
  committed := false

theorem journalOpenTrans_eq_ok {w : Writer} {blocks : ℕ} {trans : Trans}
    (h : journalOpenTrans w blocks = .ok trans) :
    w.nextStart + blocks ≤ w.journal.jLast ∧ trans = openedTrans w blocks := by
  obtain ⟨hroom, htrans⟩ := ite_error_eq_ok.mp h
  cases htrans
  exact ⟨Nat.not_lt.mp hroom, rfl⟩

/-- The transaction as `journal_close_trans` gets it. -/
def closedTrans (w : Writer) (a : WriteArgs) : Trans where
  block := w.nextStart + a.blocksNeeded w.journal
  start := w.nextStart
  endBlock := w.nextStart + a.guess w.journal
  tid := w.nextTid
  opened := false
  committed := true

/-- What a successful commit does. -/
theorem journalCommitTrans_eq_ok {w : Writer} {trans : Trans} {tvSec tvNsec : ℕ}
    {r : Writer × Trans} (h : journalCommitTrans w trans tvSec tvNsec = .ok r) :
    ∃ csumV1 w', (if w.journal.features.checksum = true then
        some <$> csumV1From w (trans.block - trans.start) trans.start allOnes32
      else .ok none) = .ok csumV1 ∧
      w.write trans.block (commitBlock w.journal trans.tid csumV1 tvSec tvNsec) = .ok w' ∧
      (w', { trans with committed := true, opened := false, block := trans.block + 1 }) = r := by
  rw [journalCommitTrans] at h
  obtain ⟨-, h⟩ := ite_error_eq_ok.mp h
  split at h
  · next hv =>
    rw [if_pos hv]
    obtain ⟨csumV1, hc, h⟩ := bind_eq_ok.mp h
    obtain ⟨w', hw, h⟩ := bind_eq_ok.mp h
    exact ⟨csumV1, w', hc, hw, pure_eq_ok.mp h⟩
  · next hv =>
    rw [if_neg hv]
    obtain ⟨csumV1, hc, h⟩ := bind_eq_ok.mp h
    obtain ⟨w', hw, h⟩ := bind_eq_ok.mp h
    exact ⟨csumV1, w', hc, hw, pure_eq_ok.mp h⟩

/-- **What a successful `journal_write` does**, with a block of the file for each number.
It lays one transaction into the log from the head on, and moves the head by its own
estimate. -/
theorem journalWrite_spec {w w' : Writer} {a : WriteArgs} (hj : Writable w.journal)
    (htid : w.nextTid < 2 ^ 32) (hfp : a.blockList.length ≤ a.fp.length)
    (h : journalWrite w a = .ok w') : (∀ n ∈ a.blockList, n < w.blocksCount) ∧
    (∀ n ∈ a.revokeList, n < w.blocksCount) ∧
    w.nextStart + a.guess w.journal ≤ w.journal.jLast ∧
    ∃ t w₁, Encodes w a t ∧ Emitted w w₁ w.nextStart t.blocks ∧
      w' = journalCloseTrans w₁ (closedTrans w a) := by
  rw [journalWrite] at h
  obtain ⟨trans, hopen, h⟩ := bind_eq_ok.mp h
  obtain ⟨hroom, rfl⟩ := journalOpenTrans_eq_ok hopen
  obtain ⟨⟨w₁, trans₁⟩, hadd, h⟩ := bind_eq_ok.mp h
  obtain ⟨⟨w₂, trans₂⟩, hrev, h⟩ := bind_eq_ok.mp h
  obtain ⟨⟨w₃, trans₃⟩, hcommit, h⟩ := bind_eq_ok.mp h
  obtain rfl := pure_eq_ok.mp h
  obtain ⟨hbound, ds, hem₁, henc₁, hok₁, hwr₁, hdesc₁, hlen₁, rfl⟩ :=
    journalAddBlocksToTrans_spec hj htid hfp hadd
  have hj₁ : w₁.journal = w.journal.withLog w₁.journal.jDev w.journal.jTail
      w.journal.jTailSequence := by
    rw [hem₁.same]
    rfl
  have hWj₁ : Writable w₁.journal := by
    rw [hj₁]
    exact ⟨hj.blocksize, hj.blocksize_le, hj.seed⟩
  obtain ⟨hbound₂, rs, hem₂, henc₂, hok₂, hrevs, hrv₂, hlen₂, rfl⟩ :=
    journalAddRevokeToTrans_spec hWj₁ htid hrev
  have hblocks : ∀ n ∈ a.revokeList, n < w.blocksCount := by
    have : w₁.blocksCount = w.blocksCount := by rw [hem₁.same]; rfl
    rwa [this] at hbound₂
  have hem : Emitted w w₂ w.nextStart (pieceBlocks ds ++ pieceBlocks rs) := hem₁.append hem₂
  rw [hj₁] at hrv₂ hlen₂ henc₂
  rw [revokePart_withLog] at henc₂
  have hdata : pieceBlocks ds = dataPart w w.nextTid a.data := henc₁
  have hrevoke : pieceBlocks rs = revokePart w.journal w.nextTid a.revokeList := henc₂
  -- the checksum of the commit block covers all that was written
  obtain ⟨csumV1, w₃', hcsum, hwrite, hw₃⟩ := journalCommitTrans_eq_ok hcommit
  obtain ⟨rfl, rfl⟩ := Prod.mk.inj hw₃
  have hcommitBlock : commitBlock w₂.journal w.nextTid csumV1 a.tvSec a.tvNsec =
      commitBlock w.journal w.nextTid csumV1 a.tvSec a.tvNsec := by
    rw [hem.same]
    unfold commitBlock
    rfl
  have hlen : (pieceBlocks ds ++ pieceBlocks rs).length + 1 = a.blocksNeeded w.journal := by
    rw [List.length_append, hlen₁, pieceBlocks_length_of_revokes hrevs, hlen₂]
    rfl
  have hmismatch : w.journal.features.checksum = true → csumV1 = some (crcBlocks w.journal allOnes32
      (pieceBlocks ds ++ pieceBlocks rs)) := by
    intro hv
    have hv₂ : w₂.journal.features.checksum = true := by
      rw [hem.same]
      exact hv
    have hlaid := csumV1From_eq _ w.nextStart allOnes32 hem.laid
    have hn : w.nextStart + (pieceBlocks ds).length + (pieceBlocks rs).length - w.nextStart =
        (pieceBlocks ds ++ pieceBlocks rs).length := by
      rw [List.length_append]
      omega
    have hcrc : crcBlocks w₂.journal = crcBlocks w.journal := by
      rw [hem.same]
      rfl
    rw [hcrc] at hlaid
    change (if w₂.journal.features.checksum = true then some <$> csumV1From w₂
      (w.nextStart + (pieceBlocks ds).length + (pieceBlocks rs).length - w.nextStart) w.nextStart
      allOnes32 else .ok none) = .ok csumV1 at hcsum
    rw [if_pos hv₂, hn, hlaid] at hcsum
    cases hcsum
    rfl
  refine ⟨hbound, hblocks, hroom,
    ⟨ds ++ rs, commitBlock w.journal w.nextTid csumV1 a.tvSec a.tvNsec⟩, w₃', ?_, ?_, ?_⟩
  · exact
      { pieces := by
          intro p hp
          rcases List.mem_append.mp hp with hp | hp
          · exact hok₁ p hp
          · have := hok₂ p hp
            rw [hj₁] at this
            exact LogPiece.ok_withLog.mp this
        commit := commitBlock_header htid
        csum := commitBlock_csum hj.seed
        mismatch := by
          intro hv hv2 crc
          rw [hmismatch hv, ← hdata, ← hrevoke]
          exact commitBlock_mismatch hv2 (crcBlocks_lt _ (by norm_num [allOnes32]) _)
        crc := by
          rw [LogTransaction.crc, List.foldl_append, foldl_crc_of_descriptors _ _ _ hdesc₁,
            foldl_crc_of_revokes _ _ _ hrevs, hdata]
        writes := by
          rw [LogTransaction.writes, List.flatMap_append, hwr₁,
            flatMap_writes_of_revokes _ _ hrevs, List.append_nil]
          rfl
        revokes := by
          rw [LogTransaction.revokes, List.flatMap_append,
            flatMap_revokes_of_descriptors _ _ hdesc₁, List.nil_append]
          rw [LogPiece.revokes_withLog] at hrv₂
          exact hrv₂
        length := by
          rw [← hlen, LogTransaction.blocks, List.flatMap_append, List.length_append,
            List.length_singleton]
          rfl }
  · rw [LogTransaction.blocks, List.flatMap_append]
    refine hem.write ?_ (b := commitBlock w.journal w.nextTid csumV1 a.tvSec a.tvNsec)
      (hcommitBlock ▸ hwrite)
    rw [List.length_append, ← Nat.add_assoc]
    rfl
  · congr 1
    rw [closedTrans, ← hlen, List.length_append, ← Nat.add_assoc, ← Nat.add_assoc]
    rfl

end E2fsprogs
