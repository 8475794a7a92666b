import E2fsprogs.Journal.Scan

/-!
# `PASS_REVOKE` on a well-formed log

The second pass jumps from header to header and tells the revoke table of every
record it meets. It is stopped by `end_transaction`, which the first pass has
set, and then the table knows of all revocations of the log and of nothing else
(`E2fsprogs.WellFormedLog.revokePass`).
-/

namespace E2fsprogs

/-! ### The revocations of a log -/

/-- All revocations of a log: the blocks, with the indices of the transactions
that revoke them. -/
def revokedIn (j : Journal) (log : List LogTransaction) : List (ℕ × ℕ) :=
  log.zipIdx.flatMap fun x => (x.1.revokes j).map fun blk => (blk, x.2)

theorem mem_revokedIn {j : Journal} {log : List LogTransaction} {blk i : ℕ} :
    (blk, i) ∈ revokedIn j log ↔ ∃ t, log[i]? = some t ∧ blk ∈ t.revokes j := by
  simp only [revokedIn, List.mem_flatMap, List.mem_map, Prod.mk.injEq]
  constructor
  · rintro ⟨⟨t, m⟩, hmem, _, hblk, rfl, rfl⟩
    exact ⟨t, List.mem_zipIdx_iff_getElem?.mp hmem, hblk⟩
  · rintro ⟨t, ht, hblk⟩
    exact ⟨(t, i), List.mem_zipIdx_iff_getElem?.mpr ht, blk, hblk, rfl, rfl⟩

theorem revokedIn_append (j : Journal) (pre : List LogTransaction) (t : LogTransaction) :
    revokedIn j (pre ++ [t]) =
      revokedIn j pre ++ (t.revokes j).map fun blk => (blk, pre.length) := by
  simp [revokedIn, List.zipIdx_append]

theorem lt_length_of_mem_revokedIn {j : Journal} {log : List LogTransaction} {x : ℕ × ℕ}
    (h : x ∈ revokedIn j log) : x.2 < log.length := by
  obtain ⟨t, ht, -⟩ := mem_revokedIn.mp (show (x.1, x.2) ∈ _ from h)
  exact (List.getElem?_eq_some_iff.mp ht).1

/-! ### Revoke blocks -/

/-- The table only depends on which revocations there are, not on their order. -/
theorem TableOk.congr {t : ℕ} {tbl : List RevokeRecord} {rs rs' : List (ℕ × ℕ)}
    (h : TableOk t tbl rs) (hmem : ∀ x, x ∈ rs' ↔ x ∈ rs) : TableOk t tbl rs' := by
  intro blk
  simpa only [hmem] using h blk

/-- Telling the table of all records of a block. -/
theorem TableOk.setRevokes {t k : ℕ} (hk : k < 2 ^ 31) :
    ∀ (blks : List ℕ) {tbl : List RevokeRecord} {rs : List (ℕ × ℕ)}, TableOk t tbl rs →
      (∀ x ∈ rs, x.2 ≤ k) →
      TableOk t (blks.foldl (fun tbl blk => jbd2JournalSetRevoke tbl blk (tidAt t k)) tbl)
        (rs ++ blks.map fun blk => (blk, k)) := by
  intro blks
  induction blks with
  | nil =>
    intro tbl rs h _
    simpa using h
  | cons blk blks ih =>
    intro tbl rs h hle
    have h1 := ih (h.setRevoke hk (fun x hx => (hle x hx).trans_lt hk) blk) (by
      intro x hx
      rcases List.mem_cons.mp hx with rfl | hmem
      · exact le_refl k
      · exact hle x hmem)
    refine h1.congr fun x => ?_
    simp only [List.map_cons, List.mem_append, List.mem_cons]
    tauto

/-- What `scan_revoke_records` does to the state. -/
theorem foldl_setRevoke (sequence : ℕ) : ∀ (blks : List ℕ) (s : PassState),
    blks.foldl (fun s blocknr =>
      { s with
        jRevoke := jbd2JournalSetRevoke s.jRevoke blocknr sequence
        info := { s.info with nrRevokes := s.info.nrRevokes + 1 } }) s =
      { s with
        jRevoke := blks.foldl (fun tbl blk => jbd2JournalSetRevoke tbl blk sequence) s.jRevoke
        info := { s.info with nrRevokes := s.info.nrRevokes + blks.length } } := by
  intro blks
  induction blks with
  | nil => intro s; rfl
  | cons blk blks ih =>
    intro s
    rw [List.foldl_cons, ih, List.foldl_cons, List.length_cons, Nat.add_comm blks.length 1,
      ← Nat.add_assoc]

theorem scanRevokeRecords_of_le {j : Journal} {bh : Block} {s : PassState} (sequence : ℕ)
    (h : rCount bh ≤ j.jBlocksize - descrCsumSize j.features) :
    ∃ nr, scanRevokeRecords j bh sequence s =
      .ok { s with
        jRevoke := (revokeRecords j.features bh (rCount bh)).foldl
          (fun tbl blk => jbd2JournalSetRevoke tbl blk sequence) s.jRevoke
        info := { s.info with nrRevokes := nr } } :=
  ⟨_, by rw [scanRevokeRecords, if_neg (Nat.not_lt.mpr h), foldl_setRevoke]⟩

/-! ### One round -/

/-- Where `PASS_REVOKE` is between two rounds: at position `k` in the transaction of
index `i` of `n`, having met the revocations `rs`. -/
structure RevokeAt (j : Journal) (fsDev : ℕ → Block) (n i k : ℕ) (rs : List (ℕ × ℕ))
    (s : PassState) : Prop where
  id : s.nextCommitID = tidAt j.jTailSequence i
  blk : s.nextLogBlock = logPos j k
  need : s.needCheckCommitTime = false
  endTid : s.info.endTransaction = tidAt j.jTailSequence n
  success : s.success = none
  blockError : s.blockError = false
  table : TableOk j.jTailSequence s.jRevoke rs
  early : ∀ x ∈ rs, x.2 ≤ i
  dev : s.jFsDev = fsDev
  writes : s.fsWrites = []

namespace RevokeAt

variable {j : Journal} {fsDev : ℕ → Block} {n i k : ℕ} {rs : List (ℕ × ℕ)} {s : PassState}

/-- Before the end of the log the pass goes on. -/
theorem go (hs : RevokeAt j fsDev n i k rs s) (hin : i < n) (hn : n < 2 ^ 31) :
    tidGeq s.nextCommitID s.info.endTransaction = false := by
  rw [hs.id, hs.endTid, ← Bool.not_eq_true, tidGeq_tidAt (by omega) hn]
  omega

/-- Over a piece. -/
theorem piece (ha : LogArea j) (hs : RevokeAt j fsDev n i k rs s) (hin : i < n)
    (hn : n < 2 ^ 31) {p : LogPiece} (hok : p.Ok j (tidAt j.jTailSequence i))
    (hpl : Placed j k p.blocks) (hle : p.blocks.length ≤ j.jLast - j.jFirst) :
    ∃ s', Loop.Round (passStep j .revoke) s s' ∧
      RevokeAt j fsDev n i (k + p.blocks.length)
        (rs ++ (p.revokes j).map fun blk => (blk, i)) s' := by
  have hgo := Or.inr (a := PassType.revoke = .scan) (hs.go hin hn)
  -- a descriptor is passed over with its data, a revoke block puts its records in the table
  cases p with
  | descriptor bh data =>
    obtain ⟨hhead, hcsum, hlen, -⟩ := hok
    obtain ⟨hb, -⟩ := placed_cons hpl
    have hpos : k + (bh :: data).length = k + 1 + data.length := by
      rw [List.length_cons]
      omega
    have hwrap : wrap j (logPos j (k + 1) + countTags j bh) = logPos j (k + 1 + data.length) := by
      rw [countTags_eq, hlen]
      simp only [LogPiece.blocks, List.length_cons] at hle
      exact ha.wrap_logPos _ (by omega)
    refine ⟨{ s.headerRead j k with nextLogBlock := logPos j (k + 1 + data.length) }, ?_, ?_⟩
    · rw [Loop.Round, ha.passStep_descriptor hgo hs.blk hb (hs.id ▸ hhead)]
      simp [descriptorStep, hcsum, PassState.headerRead, hwrap]
    · exact { hs with
        blk := congrArg (logPos j) hpos.symm
        table := by
          change TableOk _ s.jRevoke _
          simpa [LogPiece.revokes] using hs.table
        early := by simpa [LogPiece.revokes] using hs.early }
  | revoke bh =>
    obtain ⟨hhead, hcsum, hcount⟩ := hok
    obtain ⟨hb, -⟩ := placed_cons hpl
    obtain ⟨nr, hnr⟩ := scanRevokeRecords_of_le (s := s.headerRead j k) s.nextCommitID hcount
    refine ⟨{ s.headerRead j k with
      jRevoke := (revokeRecords j.features bh (rCount bh)).foldl
        (fun tbl blk => jbd2JournalSetRevoke tbl blk s.nextCommitID) s.jRevoke
      info := { s.info with nrRevokes := nr } }, ?_, ?_⟩
    · have hid : (s.headerRead j k).nextCommitID = s.nextCommitID := rfl
      rw [Loop.Round, ha.passStep_revoke hgo hs.blk hb (hs.id ▸ hhead)]
      simp only [revokeStep, reduceCtorEq, false_and, if_false, ne_eq, not_true_eq_false, hid, hnr]
      rfl
    · have htable := hs.table.setRevokes (k := i) (by omega)
        (revokeRecords j.features bh (rCount bh)) hs.early
      rw [← hs.id] at htable
      exact { hs with
        blk := rfl
        table := htable
        early := by
          intro x hx
          rcases List.mem_append.mp hx with h | h
          · exact hs.early x h
          · obtain ⟨blk, -, rfl⟩ := List.mem_map.mp h
            exact le_refl i }

/-- Over a commit block. -/
theorem commit (ha : LogArea j) (hs : RevokeAt j fsDev n i k rs s) (hin : i < n)
    (hn : n < 2 ^ 31) {t : LogTransaction} (hok : t.Ok j (tidAt j.jTailSequence i))
    (hb : j.jDev (logPos j k) = some t.commit) :
    ∃ s', Loop.Round (passStep j .revoke) s s' ∧ RevokeAt j fsDev n (i + 1) (k + 1) rs s' := by
  refine ⟨{ s.headerRead j k with nextCommitID := tidSucc s.nextCommitID }, ?_, ?_⟩
  · rw [Loop.Round, ha.passStep_commit (Or.inr (hs.go hin hn)) hs.blk hb (hs.id ▸ hok.commit)]
    simp [commitStep, nextTransaction, PassState.headerRead, hs.need]
  · exact { hs with
      id := (congrArg tidSucc hs.id).trans (tidSucc_tidAt _ _)
      blk := rfl
      early := fun x hx => (hs.early x hx).trans (Nat.le_succ i) }

end RevokeAt

/-! ### The whole pass -/

/-- What `PASS_REVOKE` hands to the next pass. -/
structure Collected (j : Journal) (log : List LogTransaction) (fsDev : ℕ → Block)
    (s : PassState) : Prop where
  endTid : s.info.endTransaction = tidAt j.jTailSequence log.length
  table : TableOk j.jTailSequence s.jRevoke (revokedIn j log)
  dev : s.jFsDev = fsDev
  writes : s.fsWrites = []

/-- Where the ids meet, a later pass is at its end and reports no error. -/
theorem recordEnd_of_eq {pass : PassType} {s : PassState} (hp : pass ≠ .scan)
    (h : s.info.endTransaction = s.nextCommitID) : recordEnd pass s = s := by
  simp [recordEnd, hp, h]

/-- A later pass ends as soon as it has come to `end_transaction`. -/
theorem passStep_of_tidGeq {j : Journal} {pass : PassType} {s : PassState} (hp : pass ≠ .scan)
    (h : tidGeq s.nextCommitID s.info.endTransaction = true) : passStep j pass s = .finish s := by
  unfold passStep
  rw [if_pos ⟨hp, h⟩]

/-- **`PASS_REVOKE` records the revocations of the log.** -/
theorem WellFormedLog.revokePass {j : Journal} {log : List LogTransaction}
    (hw : WellFormedLog j log) (fc : Option FcCallback) {fsDev : ℕ → Block} {s₀ : PassState}
    (h₀ : Scanned j fsDev (tidAt j.jTailSequence log.length) s₀) :
    ∃ e s, Loop.Leaves (passStep j .revoke) (startPass j .revoke s₀) e ∧
      endPass j fc .revoke e = (none, s) ∧ Collected j log fsDev s := by
  have ha := hw.logArea
  have hn := hw.count
  have hstart : RevokeAt j fsDev log.length 0 0 [] (startPass j .revoke s₀) :=
    { id := (tidAt_zero hw.seq_lt).symm
      blk := ha.logPos_zero.symm
      need := rfl
      endTid := h₀.endTransaction
      success := rfl
      blockError := rfl
      table := by
        change TableOk _ s₀.jRevoke []
        rw [h₀.table]
        exact tableOk_nil
      early := by simp
      dev := h₀.dev
      writes := h₀.writes }
  -- along the log: the table holds the revocations of the part behind
  obtain ⟨s, hreach, hs⟩ := WellFormedLog.walk log .revoke
    (B := fun pre _ s => RevokeAt j fsDev log.length pre.length (logBlocks pre).length
      (revokedIn j pre) s)
    (P := fun pre _ ps _ _ s => RevokeAt j fsDev log.length pre.length
      ((logBlocks pre).length + (ps.flatMap LogPiece.blocks).length)
      (revokedIn j pre ++ (ps.flatMap (LogPiece.revokes j)).map fun blk => (blk, pre.length)) s)
    (fun pre t rest s _ hB => by simpa using hB)
    (fun pre t ps p qs rest s hlog hps hP => by
      obtain ⟨hpl, hle⟩ := hw.placed_piece hlog hps
      obtain ⟨s', hr, hs'⟩ := hP.piece ha (by simp [hlog]) hn
        ((hw.trans_ok hlog).pieces p (by rw [hps]; simp)) hpl hle
      refine ⟨s', Relation.ReflTransGen.single hr, ?_⟩
      simpa [Nat.add_assoc] using hs')
    (fun pre t rest s hlog hP => by
      obtain ⟨s', hr, hs'⟩ := hP.commit ha (by simp [hlog]) hn (hw.trans_ok hlog)
        (hw.placed_commit hlog)
      refine ⟨s', Relation.ReflTransGen.single hr, ?_⟩
      rw [revokedIn_append]
      simpa [logBlocks, LogTransaction.blocks, LogTransaction.revokes, Nat.add_assoc] using hs')
    (s := startPass j .revoke s₀) hstart
  have hfin : passStep j .revoke s = .finish s := passStep_of_tidGeq (by decide) (by
    rw [hs.id, hs.endTid, tidGeq_tidAt hn hn])
  have hrec : recordEnd .revoke s = s := recordEnd_of_eq (by decide) (hs.endTid.trans hs.id.symm)
  refine ⟨.done s, s, Loop.leaves_of_reach hreach (Loop.leaves_of_inr hfin), ?_, ?_⟩
  · rw [endPass_done hw.fastCommit fc (by rw [hrec]; exact hs.blockError), hrec, hs.success]
  · exact ⟨hs.endTid, hs.table, hs.dev, hs.writes⟩

end E2fsprogs
