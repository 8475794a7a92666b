import E2fsprogs.Journal.Replay
import E2fsprogs.Journal.ScanVerdict
import E2fsprogs.Journal.Transaction

/-!
# Recovery reads what debugfs writes

`journal_write` puts one transaction into a clean log (`E2fsprogs.CleanLog`), and the three
passes should read it back (`E2fsprogs.Decodes`): the scan ends one transaction later, the
revoke table holds the blocks of the revoke list, and the replay writes each block of
the block list with its data, but for those that the same transaction revokes.

Two things come in between. With the whole-transaction checksum the two sides
disagree over revoke blocks: the writer's sum covers them and the reader's does not, so
the scan takes the commit block for a bad one (`E2fsprogs.scan_of_mismatch`). And without
the 64-bit feature a block number is cut to 32 bits. `E2fsprogs.RoundTrips` says that
neither happens, and it is **all that is needed**.
-/

namespace E2fsprogs

/-! ### What is read back -/

/-- A clean journal: there is nothing to recover, and no block of the log looks like a
part of the next transaction or of the one after it. -/
structure CleanLog (j : Journal) : Prop where
  tail : j.jTail = 0
  stale : ∀ i, j.jFirst ≤ i → i < j.jLast → ∃ b, j.jDev i = some b ∧
    ¬Continues b j.jTailSequence ∧ ¬Continues b (tidSucc j.jTailSequence)

/-- The three passes read back what `a` asked to write as the transaction `tid`. -/
structure Decodes (j : Journal) (fc : Option FcCallback) (fsDev : ℕ → Block) (tid : ℕ)
    (a : WriteArgs) (s₁ s₂ s₃ : PassState) : Prop where
  scan : ∃ fuel, doOnePass j fc fuel .scan (recoverStart fsDev) = some (none, s₁)
  /-- `PASS_SCAN` ends one transaction later. -/
  endTransaction : s₁.info.endTransaction = tidSucc tid
  revoke : ∃ fuel, doOnePass j fc fuel .revoke s₁ = some (none, s₂)
  /-- `PASS_REVOKE` records the blocks of the revoke list. -/
  table : ∀ blk, findRevokeRecord s₂.jRevoke blk =
    if blk ∈ a.revokeList then some ⟨tid, blk⟩ else none
  replay : ∃ fuel, doOnePass j fc fuel .replay s₂ = some (none, s₃)
  /-- `PASS_REPLAY` writes each block with its data, unless it is revoked. -/
  written : s₃.written = a.data.filter fun x => x.1 ∉ a.revokeList

/-- The whole-transaction checksum, if there is one, is not changed by the revoke
blocks. -/
def SumAgrees (w : Writer) (a : WriteArgs) : Prop := w.journal.features.checksum = true →
  crcBlocks w.journal (crcBlocks w.journal allOnes32 (dataPart w w.nextTid a.data))
      (revokePart w.journal w.nextTid a.revokeList) =
    crcBlocks w.journal allOnes32 (dataPart w w.nextTid a.data)

/-- What the round trip needs: a whole-transaction checksum that the revoke blocks do not
change, and block numbers that fit the tags. -/
structure RoundTrips (w : Writer) (a : WriteArgs) : Prop where
  checksum : SumAgrees w a
  numbers : w.journal.features.bit64 = true ∨
    ∀ n, n ∈ a.blockList ∨ n ∈ a.revokeList → n < 2 ^ 32

/-! ### The log after the call -/

/-- The journal as a successful `journal_write` leaves it: the transaction `t` in an
otherwise clean log. -/
structure Holds (w : Writer) (a : WriteArgs) (t : LogTransaction) (j : Journal) : Prop where
  loaded : Loaded w.journal
  clean : CleanLog w.journal
  fastCommit : w.journal.features.fastCommit = false
  room : w.journal.jFirst + a.blocksNeeded w.journal ≤ w.journal.jLast
  encodes : Encodes w a t
  journal : j = w.journal.withLog j.jDev w.journal.jFirst w.journal.jTailSequence
  laid : Laid j.jDev w.journal.jFirst t.blocks
  frame : ∀ i, w.journal.jFirst + t.blocks.length ≤ i → j.jDev i = w.journal.jDev i

/-- What the call leaves. -/
theorem holds_of_journalWrite {w w' : Writer} {a : WriteArgs} (hl : Loaded w.journal)
    (hc : CleanLog w.journal) (hfc : w.journal.features.fastCommit = false)
    (hroom : w.journal.jFirst + a.blocksNeeded w.journal ≤ w.journal.jLast)
    (hfp : a.blockList.length ≤ a.fp.length) (h : journalWrite w a = .ok w') :
    ∃ t, Holds w a t w'.journal := by
  have htid : w.nextTid = w.journal.jTailSequence := if_pos hc.tail
  have hstart : w.nextStart = w.journal.jFirst := if_pos hc.tail
  obtain ⟨-, -, -, t, w₁, henc, hem, rfl⟩ := journalWrite_spec
    ⟨hl.blocksize_ge, hl.blocksize_le, hl.seed_lt⟩ (htid ▸ hl.seq_lt) hfp h
  rw [hstart] at hem
  have htail : w₁.journal.jTail = 0 := by
    rw [hem.same]
    exact hc.tail
  have hj : (journalCloseTrans w₁ (closedTrans w a)).journal =
      { w₁.journal with jTailSequence := w.nextTid, jTail := w.nextStart } := by
    rw [journalCloseTrans, if_neg (by simp [closedTrans])]
    exact if_pos htail
  refine ⟨t, hl, hc, hfc, hroom, henc, ?_, ?_, ?_⟩
  · rw [hj, htid, hstart, hem.same]
    rfl
  · rw [hj]
    exact hem.laid
  · intro i hi
    rw [hj]
    exact hem.frame i (Or.inr hi)

namespace Holds

variable {w : Writer} {a : WriteArgs} {t : LogTransaction} {j : Journal} (h : Holds w a t j)

include h

theorem features_eq : j.features = w.journal.features := by
  rw [h.journal]
  rfl

theorem first_eq : j.jFirst = w.journal.jFirst := by
  rw [h.journal]
  rfl

theorem last_eq : j.jLast = w.journal.jLast := by
  rw [h.journal]
  rfl

theorem seq_eq : j.jTailSequence = w.journal.jTailSequence := by
  rw [h.journal]
  rfl

theorem tid_eq : w.nextTid = j.jTailSequence :=
  (if_pos h.clean.tail).trans h.seq_eq.symm

theorem seq_lt : j.jTailSequence < 2 ^ 32 := h.seq_eq ▸ h.loaded.seq_lt

theorem length_le : t.blocks.length ≤ j.jLast - j.jFirst := by
  have h1 := h.room
  rw [h.encodes.length, h.first_eq, h.last_eq]
  omega

theorem logArea : LogArea j := by
  have h1 := h.room
  have h2 := h.loaded.last_eq h.fastCommit
  have h3 := h.loaded.total_lt
  have hneeded : 0 < a.blocksNeeded w.journal := Nat.succ_pos _
  rw [h.journal]
  exact ⟨h.fastCommit, le_refl _, show w.journal.jFirst < w.journal.jLast by omega,
    h2.le, h3⟩

/-- Before the end of the log positions are indices. -/
theorem logPos_eq {k : ℕ} (hk : k < j.jLast - j.jFirst) : logPos j k = j.jFirst + k := by
  have htail : j.jTail = j.jFirst := by
    rw [h.journal]
    rfl
  rw [logPos, htail, ringPos, Nat.sub_self, Nat.zero_add, Nat.mod_eq_of_lt hk]

theorem placed : Placed j 0 t.blocks := by
  intro i b hi
  have hlt := (List.getElem?_eq_some_iff.mp hi).1
  have hle := h.length_le
  rw [Nat.zero_add, h.logPos_eq (by omega), h.first_eq]
  exact h.laid i b hi

theorem piece_ok : ∀ p ∈ t.pieces, p.Ok j j.jTailSequence := by
  intro p hp
  have := h.encodes.pieces p hp
  rw [h.tid_eq] at this
  rw [h.journal]
  rw [h.journal] at this
  exact LogPiece.ok_withLog.mpr this

theorem crc_eq : t.crc j = crcBlocks w.journal allOnes32 (dataPart w w.nextTid a.data) := by
  rw [← h.encodes.crc, h.journal, LogTransaction.crc, LogTransaction.crc, LogPiece.crc_withLog]

/-- What the reader makes of the whole-transaction checksum. -/
theorem mismatch_iff (hv : w.journal.features.checksum = true) :
    chksumMismatch (t.crc j) t.commit = true ↔
      crcBlocks w.journal (crcBlocks w.journal allOnes32 (dataPart w w.nextTid a.data))
          (revokePart w.journal w.nextTid a.revokeList) ≠
        crcBlocks w.journal allOnes32 (dataPart w w.nextTid a.data) := by
  have hv2 : w.journal.features.csumV2or3 = false := by
    rw [← Bool.not_eq_true]
    exact fun h2 => h.loaded.v1_excl ⟨h2, hv⟩
  rw [h.encodes.mismatch hv hv2, decide_eq_true_iff, h.crc_eq, crcBlocks_append]
  exact ne_comm

/-- The block after the transaction is not part of the next one, nor, in a log that is
not full, of the transaction itself. -/
theorem stop : ∃ b, j.jDev (logPos j t.blocks.length) = some b ∧
    ¬Continues b (tidSucc j.jTailSequence) ∧
    (t.blocks.length < j.jLast - j.jFirst → ¬Continues b j.jTailSequence) := by
  have ha := h.logArea
  have hle := h.length_le
  have hfirst := h.first_eq
  have hlast := h.last_eq
  have hseq := h.seq_eq
  rcases Nat.lt_or_eq_of_le hle with hlt | heq
  · obtain ⟨b, hb, h1, h2⟩ := h.clean.stale (j.jFirst + t.blocks.length) (by omega) (by omega)
    refine ⟨b, ?_, hseq ▸ h2, fun _ => hseq ▸ h1⟩
    rw [h.logPos_eq hlt, h.frame _ (by omega), hb]
  · -- a full log: the next block is the first of the transaction
    have hzero : logPos j t.blocks.length = logPos j (0 + 0) := by
      rw [heq, logPos, logPos, ringPos, ringPos, Nat.add_zero, Nat.add_mod_right]
    obtain ⟨b, bs, hbs⟩ : ∃ b bs, t.blocks = b :: bs := by
      cases hbs : t.blocks with
      | nil => simp [LogTransaction.blocks] at hbs
      | cons b bs => exact ⟨b, bs, rfl⟩
    have hb : j.jDev (logPos j (0 + 0)) = some b := h.placed 0 b (by rw [hbs]; rfl)
    refine ⟨b, hzero ▸ hb, ?_, fun hlt => absurd hlt (by omega)⟩
    have hseqb : hSequence b = j.jTailSequence := by
      cases hp : t.pieces with
      | nil =>
        have hbc : b = t.commit := by
          rw [LogTransaction.blocks, hp] at hbs
          exact (List.cons.inj hbs).1.symm
        rw [hbc, ← h.tid_eq]
        exact h.encodes.commit.2.2
      | cons p ps =>
        have hok := h.piece_ok p (by simp [hp])
        rw [LogTransaction.blocks, hp, List.flatMap_cons] at hbs
        cases p with
        | descriptor bh data =>
          obtain rfl : bh = b := (List.cons.inj hbs).1
          exact hok.1.2.2
        | revoke bh =>
          obtain rfl : bh = b := (List.cons.inj hbs).1
          exact hok.1.2.2
    have hlt := h.seq_lt
    have hne : hSequence b ≠ tidSucc j.jTailSequence := by
      rw [hseqb, tidSucc]
      omega
    rintro (hc | hc | hc)
    · exact hne hc.2.2
    · exact hne hc.2.2
    · exact hne hc.2.2

/-- The log is well formed if the reader is content with the whole-transaction
checksum. -/
theorem wellFormedLog (hsum : w.journal.features.checksum = true →
    chksumMismatch (t.crc j) t.commit = false) : WellFormedLog j [t] := by
  have ha := h.logArea
  have hone : logBlocks [t] = t.blocks := by simp [logBlocks]
  refine ⟨ha.fastCommit, ha.first_le, ha.tail_lt, ha.last_le, ha.total_lt, h.seq_lt, by norm_num,
    hone ▸ h.length_le, ?_, ?_, ?_⟩
  · intro k b hb
    rw [hone] at hb
    have := h.placed k b hb
    rwa [Nat.zero_add] at this
  · intro i t' ht'
    obtain ⟨hi, rfl⟩ := List.getElem?_eq_some_iff.mp ht'
    obtain rfl : i = 0 := by simpa using hi
    rw [tidAt_zero h.seq_lt]
    refine ⟨h.piece_ok, h.tid_eq ▸ h.encodes.commit, ?_, fun hv => hsum (h.features_eq ▸ hv)⟩
    have hcsum := h.encodes.csum
    rw [h.journal]
    exact hcsum
  · obtain ⟨b, hb, hstop, -⟩ := h.stop
    refine ⟨b, hone.symm ▸ hb, ?_⟩
    rw [List.length_singleton, ← tidSucc_tidAt, tidAt_zero h.seq_lt]
    exact hstop

end Holds

/-! ### A whole-transaction checksum that does not match -/

/-- **Over all pieces of a transaction**, up to its commit block. -/
theorem ScanAt.pieces {j : Journal} (ha : LogArea j) {fsDev : ℕ → Block} {tid k : ℕ}
    {t : LogTransaction} {s : PassState} (hs : ScanAt j fsDev tid k allOnes32 s)
    (hok : ∀ p ∈ t.pieces, p.Ok j tid) (hpl : Placed j k t.blocks)
    (hle : t.blocks.length ≤ j.jLast - j.jFirst) :
    ∃ s', Loop.Reach (passStep j .scan) s s' ∧
      ScanAt j fsDev tid (k + (t.pieces.flatMap LogPiece.blocks).length) (t.crc j) s' := by
  refine LogTransaction.walk (t := t) (P := fun ps _ s => ScanAt j fsDev tid
    (k + (ps.flatMap LogPiece.blocks).length) (ps.foldl (fun c p => p.crc j c) allOnes32) s)
    (fun ps p qs s hps hP => ?_) (by simpa using hs)
  obtain ⟨s', hr, hs'⟩ := hP.piece ha (hok p (by simp [hps]))
    (LogTransaction.placed_piece hpl hps) ((LogTransaction.piece_length_le hps).trans hle)
  refine ⟨s', Relation.ReflTransGen.single hr, ?_⟩
  simpa [Nat.add_assoc, List.foldl_append] using hs'

/-- Once `end_transaction` is set, a scan with the whole-transaction checksum leaves it
alone. -/
theorem endTransaction_of_reach {j : Journal} (hv : j.features.checksum = true) {s s' : PassState}
    (h : Loop.Reach (passStep j .scan) s s') (hne : s.info.endTransaction ≠ 0) :
    s'.info.endTransaction = s.info.endTransaction := by
  induction h with
  | refl => rfl
  | @tail u v _ hr ih =>
    rcases (scan_round hr).1 with ⟨⟨b, -, -, -, hbad, -⟩, -⟩ | ⟨-, hend⟩
    · rw [commitBad, if_pos hv, PassState.mark, ih] at hbad
      simp [hne] at hbad
    · exact hend.trans ih

/-- **A commit block whose whole-transaction checksum does not match** leaves
`end_transaction` at its id, unless that is the id that looks like “not set” and the next
block goes on. -/
theorem scan_of_mismatch {j : Journal} (ha : LogArea j) (hv : j.features.checksum = true)
    (hasync : j.features.asyncCommit = false) {fsDev : ℕ → Block} {tid k crc : ℕ} {b c : Block}
    {s e : PassState} (hs : ScanAt j fsDev tid k crc s) (hb : j.jDev (logPos j k) = some b)
    (hh : HeaderIs b jbd2CommitBlock tid) (hmis : chksumMismatch crc b = true)
    (hc : j.jDev (logPos j (k + 1)) = some c) (hstop : tid = 0 → ¬Continues c tid)
    (hl : Loop.Leaves (passStep j .scan) s (.done e)) :
    (recordEnd .scan e).info.endTransaction = tid := by
  have hstep : passStep j .scan s = chksumError j .scan b (s.headerRead j k) := by
    rw [ha.passStep_commit (Or.inl rfl) hs.blk hb (hs.id ▸ hh), commitStep,
      if_neg (by simp [PassState.headerRead, hs.need]), if_pos ⟨rfl, hv⟩,
      if_neg (by simp [PassState.headerRead, hs.notEnded]),
      if_pos (by rw [show (s.headerRead j k).crc32Sum = crc from hs.crc hv]; exact hmis)]
  have hzero : ∀ u : PassState, u.info.endTransaction = 0 → u.nextCommitID = tid →
      (recordEnd .scan u).info.endTransaction = tid := by
    intro u hu hid
    rw [recordEnd, if_pos rfl, if_pos hu]
    exact hid
  rw [chksumError] at hstep
  split at hstep
  · -- an older commit block: the log ends here
    obtain rfl : s.headerRead j k = e := by
      have := Loop.leaves_unique (Loop.leaves_of_inr hstep) hl
      exact PassEnd.done.inj this
    exact hzero _ hs.notEnded hs.id
  · simp only [hasync, Bool.not_false, if_true] at hstep
    have hls := Loop.leaves_of_reach_start (Relation.ReflTransGen.single hstep) hl
    rcases eq_or_ne tid 0 with h0 | hne
    · have hfin := ha.passStep_stop (k := k + 1) (b := c) (Or.inl (Eq.refl PassType.scan))
        (s := { s.headerRead j k with
          info := { s.info with endTransaction := s.nextCommitID }
          jFailedCommit := s.nextCommitID }) rfl hc (hs.id.symm ▸ hstop h0)
      have he := PassEnd.done.inj (Loop.leaves_unique (Loop.leaves_of_inr hfin) hls)
      rw [← he]
      exact hzero _ (hs.id.trans h0) hs.id
    · obtain ⟨v, hreach, hlast⟩ := Loop.exists_last_of_leaves hls
      have hend : e.info.endTransaction = tid := by
        rw [(scan_done hlast).1, endTransaction_of_reach hv hreach (hs.id ▸ hne)]
        exact hs.id
      rw [recordEnd, if_pos rfl, if_neg (hend ▸ hne)]
      exact hend

/-! ### A whole-transaction checksum that matches -/

/-- What `a` looks like through the tags and records of the log. -/
def WriteArgs.readBack (a : WriteArgs) (f : Features) : WriteArgs :=
  { a with
    blockList := a.blockList.map (readNumber f)
    revokeList := a.revokeList.map (readNumber f) }

theorem WriteArgs.readBack_data (a : WriteArgs) (f : Features) :
    (a.readBack f).data = a.data.map (E2fsprogs.readBack f) := by
  rw [WriteArgs.data, WriteArgs.data, WriteArgs.readBack, List.zip_map_left]
  rfl

/-- A pass has one outcome, whatever the fuel. -/
theorem doOnePass_unique {j : Journal} {fc : Option FcCallback} {pass : PassType} {s : PassState}
    {r r' : Option Errno × PassState} (h : ∃ fuel, doOnePass j fc fuel pass s = some r)
    (h' : ∃ fuel, doOnePass j fc fuel pass s = some r') : r = r' := by
  obtain ⟨n, hn⟩ := h
  obtain ⟨m, hm⟩ := h'
  rw [doOnePass, Option.map_eq_some_iff] at hn hm
  obtain ⟨e, he, rfl⟩ := hn
  obtain ⟨e', he', rfl⟩ := hm
  rw [Loop.leaves_unique ⟨n, he⟩ ⟨m, he'⟩]

/-- What a table says that knows of the revocations of one transaction. -/
theorem TableOk.find_eq {tid : ℕ} {tbl : List RevokeRecord} {blks : List ℕ}
    (h : TableOk tid tbl (blks.map fun blk => (blk, 0))) (htid : tid < 2 ^ 32) (blk : ℕ) :
    findRevokeRecord tbl blk = if blk ∈ blks then some ⟨tid, blk⟩ else none := by
  cases hf : findRevokeRecord tbl blk with
  | none =>
    have hnot := h.of_none hf 0
    rw [if_neg fun hmem => hnot (List.mem_map_of_mem hmem)]
  | some r =>
    obtain ⟨k, hmem, hseq, -⟩ := h.of_some hf
    obtain ⟨blk', hblk, heq⟩ := List.mem_map.mp hmem
    obtain ⟨rfl, rfl⟩ := Prod.mk.inj heq
    rw [tidAt_zero htid] at hseq
    rw [if_pos hblk, ← hseq, ← blocknr_of_find hf]

/-- The three passes over the log, if the reader is content with the checksum. -/
theorem Holds.decodes_readBack {w : Writer} {a : WriteArgs} {t : LogTransaction} {j : Journal}
    (h : Holds w a t j) (hsum : w.journal.features.checksum = true →
      chksumMismatch (t.crc j) t.commit = false) (fc : Option FcCallback) (fsDev : ℕ → Block) :
    ∃ s₁ s₂ s₃, Decodes j fc fsDev w.nextTid (a.readBack w.journal.features) s₁ s₂ s₃ := by
  have hw := h.wellFormedLog hsum
  obtain ⟨e₁, s₁, hl₁, he₁, h₁⟩ := hw.scan fc fsDev
  obtain ⟨e₂, s₂, hl₂, he₂, h₂⟩ := hw.revokePass fc h₁
  obtain ⟨e₃, s₃, hl₃, he₃, hwritten, -⟩ := hw.replayPass fc h₂
  obtain ⟨N₁, hN₁⟩ := doOnePass_of_leaves hl₁ he₁
  obtain ⟨N₂, hN₂⟩ := doOnePass_of_leaves hl₂ he₂
  obtain ⟨N₃, hN₃⟩ := doOnePass_of_leaves hl₃ he₃
  have hrevokes : t.revokes j = (a.readBack w.journal.features).revokeList := by
    have := h.encodes.revokes
    rw [h.journal, LogTransaction.revokes, LogPiece.revokes_withLog]
    exact this
  have hwrites : t.writes j = (a.readBack w.journal.features).data := by
    have := h.encodes.writes
    rw [a.readBack_data, h.journal, LogTransaction.writes, LogPiece.writes_withLog]
    exact this
  refine ⟨s₁, s₂, s₃, ⟨N₁, hN₁ N₁ le_rfl⟩, ?_, ⟨N₂, hN₂ N₂ le_rfl⟩, ?_, ⟨N₃, hN₃ N₃ le_rfl⟩, ?_⟩
  · rw [h₁.endTransaction, List.length_singleton, ← tidSucc_tidAt, tidAt_zero h.seq_lt, h.tid_eq]
  · have htable := h₂.table
    have hone : revokedIn j [t] = (t.revokes j).map fun blk => (blk, 0) := by simp [revokedIn]
    rw [hone, hrevokes] at htable
    rw [h.tid_eq]
    exact htable.find_eq h.seq_lt
  · have hlive : liveWrites j [t] = (t.writes j).filter fun x => x.1 ∉ t.revokes j := by
      simp [liveWrites]
    rw [hwritten, hlive, hwrites, hrevokes]

/-! ### The round trip -/

section RoundTrip

variable {f : Features} {a : WriteArgs}

theorem readNumber_of_lt {n : ℕ} (h : f.bit64 = true ∨ n < 2 ^ 32) : readNumber f n = n := by
  rw [readNumber]
  split
  · rfl
  · next hf => exact Nat.mod_eq_of_lt (h.resolve_left hf)

theorem readNumber_lt (hf : f.bit64 = false) (n : ℕ) : readNumber f n < 2 ^ 32 := by
  rw [readNumber, hf, if_neg Bool.false_ne_true]
  exact Nat.mod_lt _ (by norm_num)

/-- Numbers that fit are read back. -/
theorem WriteArgs.readBack_eq
    (h : f.bit64 = true ∨ ∀ n, n ∈ a.blockList ∨ n ∈ a.revokeList → n < 2 ^ 32) :
    a.readBack f = a := by
  have hid : ∀ l : List ℕ, (∀ n ∈ l, f.bit64 = true ∨ n < 2 ^ 32) → l.map (readNumber f) = l :=
    fun l hl => (List.map_congr_left fun n hn => readNumber_of_lt (hl n hn)).trans (List.map_id l)
  rw [WriteArgs.readBack, hid _ fun n hn => h.imp_right fun h => h n (Or.inl hn),
    hid _ fun n hn => h.imp_right fun h => h n (Or.inr hn)]

/-- If what is read back is what was asked for, the numbers do fit. -/
theorem numbers_of_decodes {j : Journal} {fc : Option FcCallback} {fsDev : ℕ → Block} {tid : ℕ}
    {s₁ s₂ s₃ t₁ t₂ t₃ : PassState} (hfp : a.blockList.length ≤ a.fp.length)
    (hback : Decodes j fc fsDev tid (a.readBack f) t₁ t₂ t₃)
    (h : Decodes j fc fsDev tid a s₁ s₂ s₃) :
    f.bit64 = true ∨ ∀ n, n ∈ a.blockList ∨ n ∈ a.revokeList → n < 2 ^ 32 := by
  obtain rfl : t₁ = s₁ := (Prod.mk.inj (doOnePass_unique hback.scan h.scan)).2
  obtain rfl : t₂ = s₂ := (Prod.mk.inj (doOnePass_unique hback.revoke h.revoke)).2
  obtain rfl : t₃ = s₃ := (Prod.mk.inj (doOnePass_unique hback.replay h.replay)).2
  rw [or_iff_not_imp_left, Bool.not_eq_true]
  intro hf
  have hrevoke : ∀ n ∈ a.revokeList, n < 2 ^ 32 := by
    intro n hn
    have hfind := (hback.table n).symm.trans (h.table n)
    rw [if_pos hn] at hfind
    by_cases hmem : n ∈ (a.readBack f).revokeList
    · obtain ⟨m, -, rfl⟩ := List.mem_map.mp hmem
      exact readNumber_lt hf m
    · rw [if_neg hmem] at hfind
      cases hfind
  rintro n (hn | hn)
  · by_contra hlt
    -- it is not revoked, so it is written
    have hnot : n ∉ a.revokeList := fun hmem => hlt (hrevoke n hmem)
    obtain ⟨i, hi, rfl⟩ := List.mem_iff_getElem.mp hn
    have hdata : (a.blockList[i], a.fp[i]) ∈ a.data := List.mem_iff_getElem.mpr
      ⟨i, by rw [WriteArgs.data, List.length_zip]; omega, List.getElem_zip⟩
    have hmem : (a.blockList[i], a.fp[i]) ∈ a.data.filter fun x => x.1 ∉ a.revokeList :=
      List.mem_filter.mpr ⟨hdata, by simpa using hnot⟩
    rw [← h.written, hback.written, a.readBack_data] at hmem
    obtain ⟨x, -, hx⟩ := List.mem_map.mp (List.mem_filter.mp hmem).1
    have hnum : readNumber f x.1 = a.blockList[i] := congrArg Prod.fst hx
    exact hlt (hnum ▸ readNumber_lt hf x.1)
  · exact hrevoke n hn

end RoundTrip

/-- A scan that does not match the checksum does not end one transaction later, but
for the transaction `0` in a full log. -/
theorem Holds.not_decodes_of_mismatch {w : Writer} {a b : WriteArgs} {t : LogTransaction}
    {j : Journal} (h : Holds w a t j) (hv : w.journal.features.checksum = true)
    (hasync : w.journal.features.asyncCommit = false)
    (hmis : chksumMismatch (t.crc j) t.commit = true)
    (hfull : w.nextTid = 0 → w.journal.jFirst + a.blocksNeeded w.journal < w.journal.jLast)
    {fc : Option FcCallback} {fsDev : ℕ → Block} {s₁ s₂ s₃ : PassState} :
    ¬Decodes j fc fsDev w.nextTid b s₁ s₂ s₃ := by
  intro hdec
  have ha := h.logArea
  have hstart : ScanAt j fsDev j.jTailSequence 0 allOnes32
      (startPass j .scan (recoverStart fsDev)) :=
    { id := rfl
      blk := ha.logPos_zero.symm
      crc := fun _ => rfl
      need := rfl
      notEnded := rfl
      success := rfl
      blockError := rfl
      table := rfl
      dev := rfl
      writes := rfl }
  obtain ⟨s, hreach, hs⟩ := hstart.pieces ha h.piece_ok h.placed h.length_le
  have hlen : 0 + (t.pieces.flatMap LogPiece.blocks).length + 1 = t.blocks.length := by
    simp [LogTransaction.blocks]
  obtain ⟨c, hc, -, hstop⟩ := h.stop
  obtain ⟨fuel, hscan⟩ := hdec.scan
  rw [doOnePass, Option.map_eq_some_iff] at hscan
  obtain ⟨e, he, hend⟩ := hscan
  have hls := Loop.leaves_of_reach_start hreach ⟨fuel, he⟩
  -- a scan that fails is no decoding, and one that ends stops at this transaction
  cases e with
  | failed err u => cases hend
  | done e =>
    have hzero : j.jTailSequence = 0 → ¬Continues c j.jTailSequence := by
      intro h0
      refine hstop ?_
      have hroom := hfull (h.tid_eq.trans h0)
      rw [h.encodes.length, h.first_eq, h.last_eq]
      omega
    have hscan := scan_of_mismatch ha (h.features_eq ▸ hv) (h.features_eq ▸ hasync) hs
      (LogTransaction.placed_commit h.placed) (h.tid_eq ▸ h.encodes.commit) hmis (hlen ▸ hc) hzero
      hls
    have hs₁ : s₁.info = (recordEnd .scan e).info := by
      have hsnd : (endPass j fc .scan (.done e)).2 = s₁ := congrArg Prod.snd hend
      rw [← hsnd]
      exact fastCommitPass_frame.2
    have hlt := h.seq_lt
    have hsucc := hdec.endTransaction
    rw [hs₁, hscan, h.tid_eq, tidSucc] at hsucc
    omega

/-- **Recovery reads back what debugfs writes, exactly when the round trip is possible.**
For every journal that can be loaded, without fast or asynchronous commits and clean, and
every call of `journal_write` that succeeds, with a block for each number of the list, and
for which the log is large enough: if
`E2fsprogs.RoundTrips`, the three passes read back what was asked for, from any content of
the file system; and if they do, then `E2fsprogs.RoundTrips`, but for the transaction `0` in
a log that it fills up. -/
theorem journalWrite_decodes_iff {w w' : Writer} {a : WriteArgs} (hl : Loaded w.journal)
    (hfc : w.journal.features.fastCommit = false)
    (hasync : w.journal.features.asyncCommit = false) (hc : CleanLog w.journal)
    (hroom : w.journal.jFirst + a.blocksNeeded w.journal ≤ w.journal.jLast)
    (hfp : a.blockList.length ≤ a.fp.length) (h : journalWrite w a = .ok w')
    (fc : Option FcCallback) (fsDev : ℕ → Block) :
    (RoundTrips w a → ∃ s₁ s₂ s₃, Decodes w'.journal fc fsDev w.nextTid a s₁ s₂ s₃) ∧
    ((∃ s₁ s₂ s₃, Decodes w'.journal fc fsDev w.nextTid a s₁ s₂ s₃) →
      RoundTrips w a ∨
        w.nextTid = 0 ∧ w.journal.jFirst + a.blocksNeeded w.journal = w.journal.jLast) := by
  obtain ⟨t, ht⟩ := holds_of_journalWrite hl hc hfc hroom hfp h
  constructor
  · intro hrt
    have hback := ht.decodes_readBack (fun hv => ?_) fc fsDev
    · rwa [WriteArgs.readBack_eq hrt.numbers] at hback
    · rw [← Bool.not_eq_true, ht.mismatch_iff hv]
      exact not_not.mpr (hrt.checksum hv)
  · rintro ⟨s₁, s₂, s₃, hdec⟩
    rw [or_iff_not_imp_right]
    intro hcorner
    have hmatch : w.journal.features.checksum = true →
        chksumMismatch (t.crc w'.journal) t.commit = false := by
      intro hv
      rw [← Bool.not_eq_true]
      intro hmis
      refine ht.not_decodes_of_mismatch hv hasync hmis (fun h0 => ?_) hdec
      exact Nat.lt_of_le_of_ne hroom fun hfull => hcorner ⟨h0, hfull⟩
    obtain ⟨t₁, t₂, t₃, hback⟩ := ht.decodes_readBack hmatch fc fsDev
    refine ⟨fun hv => ?_, numbers_of_decodes hfp hback hdec⟩
    by_contra hne
    exact absurd ((ht.mismatch_iff hv).mpr hne) (by simp [hmatch hv])

/-! ### A round trip, and one that fails -/

/-- A clean journal of 1024 blocks, opened by debugfs; it has the whole-transaction
checksum if `compat` is 1. -/
def sampleWriter (compat : ℕ) : Writer where
  journal := sampleLoaded compat 0 1024 0 fun _ => some zeroBlock
  jHead := 0
  jTransactionSequence := 0
  sUuid := List.replicate 16 0
  sUuid_length := rfl
  blocksCount := 100
  blocksCount_lt := by norm_num
  writable := fun _ => true
  logWrites := []

theorem load_sampleWriter {compat : ℕ} (h : compat < 2 ^ 32) :
    e2fsckJournalLoad (sampleContext 1024 fun _ => some zeroBlock)
      (sampleSuperblock compat 0 1024 0) = .ok (sampleWriter compat).journal :=
  load_sampleSuperblock_plain h (by norm_num) (by norm_num) (by norm_num) (by decide)
    rfl rfl rfl _

theorem sampleWriter_clean (compat : ℕ) : CleanLog (sampleWriter compat).journal where
  tail := rfl
  stale := fun i _ _ => by
    have hnot : ∀ tid, ¬Continues zeroBlock tid := by
      rintro tid (h | h | h)
      · exact absurd h.1 (by decide)
      · exact absurd h.1 (by decide)
      · exact absurd h.1 (by decide)
    exact ⟨zeroBlock, rfl, hnot _, hnot _⟩

/-- Write block 7. -/
def sampleWrite : WriteArgs := ⟨[7], [zeroBlock], 0, [], 0, 0⟩

/-- Revoke block 5. -/
def sampleRevocation : WriteArgs := ⟨[], [], 0, [5], 0, 0⟩

theorem journalWrite_sampleWrite_decodes :
    ∃ w', journalWrite (sampleWriter 1) sampleWrite = .ok w' ∧
    ∃ s₁ s₂ s₃, Decodes w'.journal none (fun _ => zeroBlock) 1 sampleWrite s₁ s₂ s₃ := by
  obtain ⟨w', hw⟩ : ∃ w', journalWrite (sampleWriter 1) sampleWrite = .ok w' := ⟨_, rfl⟩
  refine ⟨w', hw, (journalWrite_decodes_iff
    (loaded_of_load (load_sampleWriter (by norm_num))) (by decide) (by decide)
    (sampleWriter_clean 1) (by decide) (by decide) hw none _).1 ⟨fun _ => ?_, Or.inr ?_⟩⟩
  · have hnone : revokePart (sampleWriter 1).journal
        (sampleWriter 1).nextTid sampleWrite.revokeList = [] :=
      rfl
    rw [hnone]
    exact List.foldl_nil
  · rintro n (hn | hn)
    · obtain rfl := List.mem_singleton.mp hn
      norm_num
    · exact absurd hn List.not_mem_nil

/-- The revoke block that `sampleRevocation` writes. -/
def sampleRevokeBlock : Block :=
  putBe (putBe (putHeader zeroBlock jbd2RevokeBlock 1) 16 4 5) 12 4 20

/-- The checksum of a revoke block is not what it started from. -/
theorem crc_sampleRevokeBlock :
    ext2fsCrc32Be allOnes32 (bytesOf sampleRevokeBlock 1024) ≠ allOnes32 := by
  have hzero : ∀ i, 20 ≤ i → sampleRevokeBlock i = 0 := by
    intro i hi
    simp only [sampleRevokeBlock, putHeader]
    simp (disch := omega) only [putBe_of_outside]
    rfl
  rw [show 1024 = 20 + 1004 from rfl, bytesOf_add hzero, ext2fsCrc32Be, List.foldl_append,
    foldl_crc32BeByte_zeros]
  decide +kernel

/-- **A round trip that fails.** With the whole-transaction checksum a transaction that
revokes a block is not read back. -/
theorem journalWrite_sampleRevocation_lost : ∃ ctx sb w', e2fsckJournalLoad ctx sb =
    .ok (sampleWriter 1).journal ∧ (sampleWriter 1).journal.features.fastCommit = false ∧
    (sampleWriter 1).journal.features.asyncCommit = false ∧ CleanLog (sampleWriter 1).journal ∧
    (sampleWriter 1).journal.jFirst + sampleRevocation.blocksNeeded (sampleWriter 1).journal ≤
      (sampleWriter 1).journal.jLast ∧
    journalWrite (sampleWriter 1) sampleRevocation = .ok w' ∧
    ∀ fc fsDev s₁ s₂ s₃,
      ¬Decodes w'.journal fc fsDev (sampleWriter 1).nextTid sampleRevocation s₁ s₂ s₃ := by
  obtain ⟨w', hw⟩ : ∃ w', journalWrite (sampleWriter 1) sampleRevocation = .ok w' := ⟨_, rfl⟩
  refine ⟨_, _, w', load_sampleWriter (by norm_num), by decide, by decide,
    sampleWriter_clean 1, by decide, hw, ?_⟩
  intro fc fsDev s₁ s₂ s₃
  obtain ⟨t, ht⟩ := holds_of_journalWrite
    (loaded_of_load (load_sampleWriter (by norm_num))) (sampleWriter_clean 1)
    (by decide) (by decide) (by decide) hw
  refine ht.not_decodes_of_mismatch (by decide) (by decide) ((ht.mismatch_iff (by decide)).mpr ?_)
    (fun h => absurd h (by decide))
  have hdata : dataPart (sampleWriter 1) (sampleWriter 1).nextTid sampleRevocation.data = [] := rfl
  have hrevoke : revokePart (sampleWriter 1).journal (sampleWriter 1).nextTid
      sampleRevocation.revokeList = [sampleRevokeBlock] := rfl
  rw [hdata, hrevoke, crcBlocks, List.foldl_cons, List.foldl_nil, crcBlocks, List.foldl_nil]
  exact crc_sampleRevokeBlock

end E2fsprogs
