import E2fsprogs.Journal.RevokePass

/-!
# `PASS_REPLAY` on a well-formed log, and recovery as a whole

The third pass goes over the tags again and writes the data blocks, except those
the revoke table suppresses. Its invariant looks forward
(`E2fsprogs.ReplayAt.writes`): what has been written so far, followed by what is
still to be written, is the list of all writes that count. At the end of the log
nothing is left to be written.

**Main result.** On a well-formed log `jbd2_journal_recover` succeeds and writes exactly
the committed writes that are not revoked, in their order; so every block of the file system holds
what it should (`E2fsprogs.replayedContent`).
-/

namespace E2fsprogs

/-- What has been written to the file system, oldest first. -/
def PassState.written (s : PassState) : List (ℕ × Block) := (s.fsWrites.map Prod.snd).reverse

/-- Neither the transaction `t` nor one of `rest` revokes the block. -/
def Unrevoked (j : Journal) (t : LogTransaction) (rest : List LogTransaction) (blk : ℕ) : Prop :=
  ∀ u ∈ t :: rest, blk ∉ u.revokes j

instance (j : Journal) (t : LogTransaction) (rest : List LogTransaction) (blk : ℕ) :
    Decidable (Unrevoked j t rest blk) :=
  inferInstanceAs (Decidable (∀ u ∈ t :: rest, blk ∉ u.revokes j))

/-- The writes of some pieces of `t` that count, `rest` being the transactions
after `t`. -/
def livePieces (j : Journal) (t : LogTransaction) (rest : List LogTransaction)
    (qs : List LogPiece) : List (ℕ × Block) :=
  (qs.flatMap (LogPiece.writes j)).filter fun w => decide (Unrevoked j t rest w.1)

theorem livePieces_cons (j : Journal) (t : LogTransaction) (rest : List LogTransaction)
    (p : LogPiece) (qs : List LogPiece) :
    livePieces j t rest (p :: qs) =
      (p.writes j).filter (fun w => decide (Unrevoked j t rest w.1)) ++ livePieces j t rest qs := by
  rw [livePieces, List.flatMap_cons, List.filter_append]
  rfl

theorem liveWrites_cons (j : Journal) (t : LogTransaction) (rest : List LogTransaction) :
    liveWrites j (t :: rest) = livePieces j t rest t.pieces ++ liveWrites j rest := rfl

/-- **The table suppresses what is revoked from here on.** -/
theorem testRevoke_iff_not_unrevoked {j : Journal} {pre rest : List LogTransaction}
    {t : LogTransaction} {tbl : List RevokeRecord} (hlen : (pre ++ t :: rest).length < 2 ^ 31)
    (h : TableOk j.jTailSequence tbl (revokedIn j (pre ++ t :: rest))) (blk : ℕ) :
    jbd2JournalTestRevoke tbl blk (tidAt j.jTailSequence pre.length) = true ↔
      ¬Unrevoked j t rest blk := by
  rw [testRevoke_iff h (by simp at hlen; omega)
    (fun x hx => (lt_length_of_mem_revokedIn hx).trans hlen), Unrevoked]
  push Not
  constructor
  · rintro ⟨k, hk, hmem⟩
    obtain ⟨u, hu, hblk⟩ := mem_revokedIn.mp hmem
    rw [List.getElem?_append_right hk] at hu
    exact ⟨u, List.mem_of_getElem? hu, hblk⟩
  · rintro ⟨u, hu, hblk⟩
    obtain ⟨i, hi⟩ := List.getElem?_of_mem hu
    refine ⟨pre.length + i, by omega, mem_revokedIn.mpr ⟨u, ?_, hblk⟩⟩
    rw [List.getElem?_append_right (by omega)]
    simpa using hi

/-! ### One round -/

/-- Where `PASS_REPLAY` is between two rounds, or between two tags: at position `k` in
the transaction of index `i` of `n`, with the writes `pending` of `all` still to be
done. -/
structure ReplayAt (j : Journal) (fsDev : ℕ → Block) (all : List (ℕ × Block))
    (tbl : List RevokeRecord) (n i k : ℕ) (pending : List (ℕ × Block)) (s : PassState) :
    Prop where
  id : s.nextCommitID = tidAt j.jTailSequence i
  blk : s.nextLogBlock = logPos j k
  need : s.needCheckCommitTime = false
  endTid : s.info.endTransaction = tidAt j.jTailSequence n
  success : s.success = none
  blockError : s.blockError = false
  table : s.jRevoke = tbl
  dev : s.jFsDev = applyWrites fsDev s.written
  writes : s.written ++ pending = all

/-- The write one tag asks for. -/
def tagWrite (j : Journal) (bh : Block) (tagp : ℕ) (d : Block) : ℕ × Block :=
  (readTagBlock j.features bh tagp, unescape (tFlags bh tagp) d)

namespace ReplayAt

variable {j : Journal} {fsDev : ℕ → Block} {all pending : List (ℕ × Block)}
  {tbl : List RevokeRecord} {n i k : ℕ} {s : PassState}

/-- Before the end of the log the pass goes on. -/
theorem go (hs : ReplayAt j fsDev all tbl n i k pending s) (hin : i < n) (hn : n < 2 ^ 31) :
    tidGeq s.nextCommitID s.info.endTransaction = false := by
  rw [hs.id, hs.endTid, ← Bool.not_eq_true, tidGeq_tidAt (by omega) hn]
  omega

/-- Over one tag. -/
theorem tag (ha : LogArea j) {bh d : Block} {tagp : ℕ} (live : Bool)
    (hs : ReplayAt j fsDev all tbl n i k
      ((if live then [tagWrite j bh tagp d] else []) ++ pending) s)
    (hlive : jbd2JournalTestRevoke tbl (readTagBlock j.features bh tagp)
      (tidAt j.jTailSequence i) = !live)
    (hd : j.jDev (logPos j k) = some d)
    (hcsum : jbd2BlockTagCsumVerify j bh tagp d (hSequence bh) = true) :
    ReplayAt j fsDev all tbl n i (k + 1) pending (replayTag j bh tagp s) := by
  rw [← hs.table, ← hs.id] at hlive
  have hread : jread j s.nextLogBlock = .ok d := by
    rw [hs.blk]
    exact ha.jread_logPos hd
  have hnext : wrap j (s.nextLogBlock + 1) = logPos j (k + 1) := by
    rw [hs.blk]
    exact ha.wrap_logPos_succ k
  cases live with
  | false =>
    have htag : replayTag j bh tagp s = { s with
        nextLogBlock := logPos j (k + 1)
        reads := s.nextLogBlock % 2 ^ 32 :: s.reads
        info := { s.info with nrRevokeHits := s.info.nrRevokeHits + 1 } } := by
      simp [replayTag, hread, hnext, PassState.read, hlive]
    rw [htag]
    exact { hs with blk := rfl }
  | true =>
    have htag : replayTag j bh tagp s = { s with
        nextLogBlock := logPos j (k + 1)
        reads := s.nextLogBlock % 2 ^ 32 :: s.reads
        jFsDev := Function.update s.jFsDev (tagWrite j bh tagp d).1 (tagWrite j bh tagp d).2
        fsWrites := (s.nextCommitID, tagWrite j bh tagp d) :: s.fsWrites
        info := { s.info with nrReplays := s.info.nrReplays + 1 } } := by
      simp [replayTag, hread, hnext, PassState.read, hlive, hcsum, tagWrite]
    have hwritten : (replayTag j bh tagp s).written = s.written ++ [tagWrite j bh tagp d] := by
      rw [htag]
      simp [PassState.written]
    have hdev : (replayTag j bh tagp s).jFsDev =
        applyWrites fsDev (replayTag j bh tagp s).written := by
      rw [hwritten, applyWrites_append, ← hs.dev, htag]
      rfl
    have hall : (replayTag j bh tagp s).written ++ pending = all := by
      rw [hwritten, ← hs.writes]
      simp
    rw [htag] at hdev hall ⊢
    exact { hs with blk := rfl, dev := hdev, writes := hall }

/-- Over the tags of a descriptor block. -/
theorem tags (ha : LogArea j) {bh : Block} (live : ℕ → Prop) [DecidablePred live]
    (hlive : ∀ blk, jbd2JournalTestRevoke tbl blk (tidAt j.jTailSequence i) = true ↔ ¬live blk) :
    ∀ (tagps : List ℕ) (data : List Block) {k : ℕ} {s : PassState},
      tagps.length = data.length → Placed j k data →
      (∀ x ∈ tagps.zip data, jbd2BlockTagCsumVerify j bh x.1 x.2 (hSequence bh) = true) →
      ReplayAt j fsDev all tbl n i k
        (((tagps.zip data).map fun x => tagWrite j bh x.1 x.2).filter
          (fun w => live w.1) ++ pending)
        s →
      ReplayAt j fsDev all tbl n i (k + data.length) pending
        (tagps.foldl (fun s tagp => replayTag j bh tagp s) s) := by
  intro tagps
  induction tagps with
  | nil =>
    intro data k s hlen _ _ hs
    obtain rfl : data = [] := List.length_eq_zero_iff.mp hlen.symm
    simpa using hs
  | cons tagp tagps ih =>
    intro data k s hlen hpl hcsum hs
    obtain ⟨d, data, rfl⟩ : ∃ d ds, data = d :: ds := by
      cases data with
      | nil => simp at hlen
      | cons d ds => exact ⟨d, ds, rfl⟩
    obtain ⟨hd, hrest⟩ := placed_cons hpl
    have hs1 : ReplayAt j fsDev all tbl n i (k + 1)
        (((tagps.zip data).map fun x => tagWrite j bh x.1 x.2).filter (fun w => live w.1) ++
          pending) (replayTag j bh tagp s) := by
      refine tag ha (d := d) (decide (live (readTagBlock j.features bh tagp))) ?_ ?_ hd
        (hcsum (tagp, d) (by simp))
      · by_cases hl : live (readTagBlock j.features bh tagp)
        · simpa [hl, tagWrite] using hs
        · simpa [hl, tagWrite] using hs
      · have := hlive (readTagBlock j.features bh tagp)
        by_cases hl : live (readTagBlock j.features bh tagp)
        · simpa [hl] using this
        · simpa [hl] using this
    have hlen' : tagps.length = data.length := by simpa using hlen
    have := ih data hlen' hrest
      (fun x hx => hcsum x (by simp only [List.zip_cons_cons, List.mem_cons, hx, or_true])) hs1
    rw [List.foldl_cons, List.length_cons, Nat.add_comm data.length 1, ← Nat.add_assoc]
    exact this

/-- Over a piece. -/
theorem piece (ha : LogArea j) {pre rest : List LogTransaction} {t : LogTransaction}
    {p : LogPiece} {qs : List LogPiece}
    (hs : ReplayAt j fsDev all tbl n pre.length k (livePieces j t rest (p :: qs) ++ pending) s)
    (hn : n = (pre ++ t :: rest).length) (hcount : n < 2 ^ 31)
    (htbl : TableOk j.jTailSequence tbl (revokedIn j (pre ++ t :: rest)))
    (hok : p.Ok j (tidAt j.jTailSequence pre.length)) (hpl : Placed j k p.blocks) :
    ∃ s', Loop.Round (passStep j .replay) s s' ∧
      ReplayAt j fsDev all tbl n pre.length (k + p.blocks.length)
        (livePieces j t rest qs ++ pending) s' := by
  have hgo := Or.inr (a := PassType.replay = .scan) (hs.go (by simp [hn]) hcount)
  cases p with
  | descriptor bh data =>
    obtain ⟨hhead, hcsum, hlen, htags⟩ := hok
    obtain ⟨hb, hdata⟩ := placed_cons hpl
    refine ⟨(tagOffsets j bh).foldl (fun s tagp => replayTag j bh tagp s) (s.headerRead j k),
      ?_, ?_⟩
    · rw [Loop.Round, ha.passStep_descriptor hgo hs.blk hb (hs.id ▸ hhead)]
      simp only [descriptorStep, hcsum, Bool.not_true, Bool.false_and, Bool.false_eq_true,
        if_false, replayTags_eq]
    · have hstart : ReplayAt j fsDev all tbl n pre.length (k + 1)
          ((((tagOffsets j bh).zip data).map fun x => tagWrite j bh x.1 x.2).filter
            (fun w => decide (Unrevoked j t rest w.1)) ++ (livePieces j t rest qs ++ pending))
          (s.headerRead j k) := by
        refine { hs with blk := rfl, writes := ?_ }
        rw [← hs.writes, livePieces_cons, List.append_assoc]
        rfl
      have hend := tags ha (Unrevoked j t rest)
        (testRevoke_iff_not_unrevoked (hn ▸ hcount) htbl) (tagOffsets j bh) data hlen hdata
        (fun x hx => by rw [hhead.2.2]; exact htags x hx) hstart
      have hpos : k + (LogPiece.descriptor bh data).blocks.length = k + 1 + data.length := by
        simp only [LogPiece.blocks, List.length_cons]
        omega
      rw [hpos]
      exact hend
  | revoke bh =>
    obtain ⟨hhead, hcsum, -⟩ := hok
    obtain ⟨hb, -⟩ := placed_cons hpl
    refine ⟨s.headerRead j k, ?_, ?_⟩
    · rw [Loop.Round, ha.passStep_revoke hgo hs.blk hb (hs.id ▸ hhead)]
      simp [revokeStep]
    · refine { hs with blk := rfl, writes := ?_ }
      rw [← hs.writes]
      simp [livePieces_cons, LogPiece.writes, PassState.headerRead, PassState.written]

/-- Over a commit block. -/
theorem commit (ha : LogArea j) (hs : ReplayAt j fsDev all tbl n i k pending s) (hin : i < n)
    (hn : n < 2 ^ 31) {t : LogTransaction} (hok : t.Ok j (tidAt j.jTailSequence i))
    (hb : j.jDev (logPos j k) = some t.commit) :
    ∃ s', Loop.Round (passStep j .replay) s s' ∧
      ReplayAt j fsDev all tbl n (i + 1) (k + 1) pending s' := by
  refine ⟨{ s.headerRead j k with nextCommitID := tidSucc s.nextCommitID }, ?_, ?_⟩
  · rw [Loop.Round, ha.passStep_commit (Or.inr (hs.go hin hn)) hs.blk hb (hs.id ▸ hok.commit)]
    simp [commitStep, nextTransaction, PassState.headerRead, hs.need]
  · exact { hs with
      id := (congrArg tidSucc hs.id).trans (tidSucc_tidAt _ _)
      blk := rfl }

end ReplayAt

/-! ### The whole pass -/

/-- **`PASS_REPLAY` does the writes that count.** -/
theorem WellFormedLog.replayPass {j : Journal} {log : List LogTransaction}
    (hw : WellFormedLog j log) (fc : Option FcCallback) {fsDev : ℕ → Block} {s₀ : PassState}
    (h₀ : Collected j log fsDev s₀) :
    ∃ e s, Loop.Leaves (passStep j .replay) (startPass j .replay s₀) e ∧
      endPass j fc .replay e = (none, s) ∧ s.written = liveWrites j log ∧
      s.jFsDev = applyWrites fsDev (liveWrites j log) := by
  have ha := hw.logArea
  have hn := hw.count
  have hw₀ : (startPass j .replay s₀).written = [] := by
    change (s₀.fsWrites.map Prod.snd).reverse = []
    rw [h₀.writes]
    rfl
  have hstart : ReplayAt j fsDev (liveWrites j log) s₀.jRevoke log.length 0 0 (liveWrites j log)
      (startPass j .replay s₀) :=
    { id := (tidAt_zero hw.seq_lt).symm
      blk := ha.logPos_zero.symm
      need := rfl
      endTid := h₀.endTid
      success := rfl
      blockError := rfl
      table := rfl
      dev := by
        rw [hw₀]
        exact h₀.dev
      writes := by rw [hw₀, List.nil_append] }
  -- along the log: what is left to do is the live writes of what is left of it
  obtain ⟨s, hreach, hs⟩ := WellFormedLog.walk log .replay
    (B := fun pre rest s => ReplayAt j fsDev (liveWrites j log) s₀.jRevoke log.length pre.length
      (logBlocks pre).length (liveWrites j rest) s)
    (P := fun pre t ps qs rest s => ReplayAt j fsDev (liveWrites j log) s₀.jRevoke log.length
      pre.length ((logBlocks pre).length + (ps.flatMap LogPiece.blocks).length)
      (livePieces j t rest qs ++ liveWrites j rest) s)
    (fun pre t rest s _ hB => by simpa [liveWrites_cons] using hB)
    (fun pre t ps p qs rest s hlog hps hP => by
      obtain ⟨hpl, -⟩ := hw.placed_piece hlog hps
      obtain ⟨s', hr, hs'⟩ := hP.piece ha (by rw [hlog]) hn (hlog ▸ h₀.table)
        ((hw.trans_ok hlog).pieces p (by rw [hps]; simp)) hpl
      refine ⟨s', Relation.ReflTransGen.single hr, ?_⟩
      simpa [Nat.add_assoc] using hs')
    (fun pre t rest s hlog hP => by
      obtain ⟨s', hr, hs'⟩ := hP.commit ha (by simp [hlog]) hn (hw.trans_ok hlog)
        (hw.placed_commit hlog)
      refine ⟨s', Relation.ReflTransGen.single hr, ?_⟩
      simpa [logBlocks, LogTransaction.blocks, livePieces, Nat.add_assoc] using hs')
    (s := startPass j .replay s₀) hstart
  -- the pass ends before the first block that is not in the log
  have hfin : passStep j .replay s = .finish s := passStep_of_tidGeq (by decide) (by
    rw [hs.id, hs.endTid, tidGeq_tidAt hn hn])
  have hrec : recordEnd .replay s = s := recordEnd_of_eq (by decide) (hs.endTid.trans hs.id.symm)
  have hwritten : s.written = liveWrites j log := by
    have := hs.writes
    rwa [liveWrites, List.append_nil] at this
  refine ⟨.done s, s, Loop.leaves_of_reach hreach (Loop.leaves_of_inr hfin), ?_, hwritten, ?_⟩
  · rw [endPass_done hw.fastCommit fc (by rw [hrec]; exact hs.blockError), hrec, hs.success]
  · rw [hs.dev, hwritten]

/-! ### Recovery -/

/-- A pass whose loop leaves does so with any fuel from some amount on. -/
theorem doOnePass_of_leaves {j : Journal} {fc : Option FcCallback} {pass : PassType}
    {s s' : PassState} {e : PassEnd} {err : Option Errno}
    (h : Loop.Leaves (passStep j pass) (startPass j pass s) e)
    (he : endPass j fc pass e = (err, s')) :
    ∃ N, ∀ fuel, N ≤ fuel → doOnePass j fc fuel pass s = some (err, s') := by
  obtain ⟨N, hN⟩ := h
  refine ⟨N, fun fuel hf => ?_⟩
  rw [doOnePass, Loop.run_mono hf hN, Option.map_some, he]

/-- **Recovery replays exactly the committed writes that are not revoked.** For every
well-formed log and every content of the file system, `jbd2_journal_recover` succeeds;
the blocks it writes are, in order, the writes of the log that count; and every
block then holds the data of the last of these for it, or what it held before. -/
theorem jbd2JournalRecover_wellFormed {j : Journal} {log : List LogTransaction}
    (hw : WellFormedLog j log) (hstart : j.jTail ≠ 0) (fc : Option FcCallback) (fsDev : ℕ → Block) :
    ∃ N, ∀ fuel, N ≤ fuel → ∃ id s, jbd2JournalRecover j fc fuel fsDev = some (none, id, s) ∧
      s.written = liveWrites j log ∧ ∀ b, s.jFsDev b = replayedContent j log fsDev b := by
  obtain ⟨e₁, s₁, hl₁, he₁, h₁⟩ := hw.scan fc fsDev
  obtain ⟨e₂, s₂, hl₂, he₂, h₂⟩ := hw.revokePass fc h₁
  obtain ⟨e₃, s₃, hl₃, he₃, hwritten, hdev⟩ := hw.replayPass fc h₂
  obtain ⟨N₁, hN₁⟩ := doOnePass_of_leaves hl₁ he₁
  obtain ⟨N₂, hN₂⟩ := doOnePass_of_leaves hl₂ he₂
  obtain ⟨N₃, hN₃⟩ := doOnePass_of_leaves hl₃ he₃
  refine ⟨max N₁ (max N₂ N₃), fun fuel hf => ?_⟩
  have hpasses : recoverPasses j fc fuel (recoverStart fsDev) = some (none, s₃) := by
    simp [recoverPasses, hN₁ fuel (by omega), hN₂ fuel (by omega), hN₃ fuel (by omega)]
  refine ⟨tidSucc s₃.info.endTransaction,
    { s₃ with
      info := { s₃.info with endTransaction := tidSucc s₃.info.endTransaction }, jRevoke := [] },
    ?_, hwritten, fun b => ?_⟩
  · rw [jbd2JournalRecover, if_neg hstart, hpasses]
    rfl
  · rw [replayedContent_eq]
    exact congrFun hdev b

/-! ### A sample log -/

/-- A descriptor block with one tag, for block 42. -/
def sampleDescriptor : Block :=
  putBe (putBe (putHeader zeroBlock jbd2DescriptorBlock 7) 12 4 42) 18 2
    (jbd2FlagSameUuid + jbd2FlagLastTag)

/-- A revoke block with one record, for block 99. -/
def sampleRevoke : Block :=
  putBe (putBe (putHeader zeroBlock jbd2RevokeBlock 7) 12 4 20) 16 4 99

/-- One transaction that writes block 42 and revokes block 99. -/
def sampleTransaction : LogTransaction where
  pieces := [.descriptor sampleDescriptor [putBe zeroBlock 0 4 5], .revoke sampleRevoke]
  commit := putHeader zeroBlock jbd2CommitBlock 7

/-- A journal of 1024 blocks whose log starts at the last of them and wraps. -/
def sampleJournal : Journal where
  jBlocksize := 1024
  jFirst := 1
  jLast := 1024
  jFcFirst := 0
  jFcLast := 0
  jTotalLen := 1024
  jTailSequence := 7
  jTail := 1023
  jCsumSeed := 0
  features := ⟨false, false, false, false, false, false⟩
  jDev := fun i =>
    if i = 1023 then some sampleDescriptor
    else (sampleTransaction.blocks[i]?).getD zeroBlock

theorem sampleTransaction_ok : sampleTransaction.Ok sampleJournal (tidAt 7 0) where
  pieces := by
    intro p hp
    rcases List.mem_cons.mp hp with rfl | hp
    · exact ⟨⟨by decide, by decide, by decide⟩, rfl, by decide, fun x _ => rfl⟩
    · obtain rfl := List.mem_singleton.mp hp
      exact ⟨⟨by decide, by decide, by decide⟩, rfl, by decide⟩
  commit := ⟨by decide, by decide, by decide⟩
  csum := rfl
  checksum := by decide

theorem sampleJournal_wellFormed : WellFormedLog sampleJournal [sampleTransaction] where
  fastCommit := rfl
  first_le := by decide
  tail_lt := by decide
  last_le := by decide
  total_lt := by decide
  seq_lt := by decide
  count := by decide
  fits := by decide
  placed := by
    intro k b hb
    obtain ⟨hk, -⟩ := List.getElem?_eq_some_iff.mp hb
    have hk : k < 4 := hk
    interval_cases k
    all_goals exact hb
  trans := by
    intro i t hi
    obtain ⟨hlt, rfl⟩ := List.getElem?_eq_some_iff.mp hi
    obtain rfl : i = 0 := by simpa using hlt
    exact sampleTransaction_ok
  stop := ⟨zeroBlock, rfl, by rintro (h | h | h) <;> exact absurd h.1 (by decide)⟩

theorem jbd2JournalRecover_sample :
    ∃ N, ∀ fuel, N ≤ fuel → ∃ id s,
      jbd2JournalRecover sampleJournal none fuel (fun _ => zeroBlock) = some (none, id, s) ∧
      s.written = liveWrites sampleJournal [sampleTransaction] ∧
      ∀ b, s.jFsDev b = replayedContent sampleJournal [sampleTransaction] (fun _ => zeroBlock) b :=
  jbd2JournalRecover_wellFormed sampleJournal_wellFormed (by decide) none fun _ => zeroBlock

end E2fsprogs
