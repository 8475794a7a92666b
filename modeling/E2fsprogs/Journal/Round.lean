import E2fsprogs.Journal.Recovery

/-!
# One round of a pass

What a round of the loop of `do_one_pass` can do, on any log content. A round that goes
on has read the header of a descriptor, commit or revoke block with the expected id
(`E2fsprogs.passStep_again`); a round that leaves for `done` has not touched what the
pass has found so far (`E2fsprogs.scan_done`).

For `PASS_SCAN` the two things that matter are the expected id and
`end_transaction`, and only a commit block changes them (`E2fsprogs.scan_round`): one
whose checksum fails sets `end_transaction` to its own id (`E2fsprogs.CommitSets`), one
that is in order moves on to the next id (`E2fsprogs.CommitAdvances`).
-/

namespace E2fsprogs

/-- A log header of the given type and id. -/
def HeaderIs (b : Block) (blocktype tid : ℕ) : Prop :=
  hMagic b = jbd2MagicNumber ∧ hBlocktype b = blocktype ∧ hSequence b = tid

instance (b : Block) (blocktype tid : ℕ) : Decidable (HeaderIs b blocktype tid) :=
  inferInstanceAs (Decidable (_ ∧ _ ∧ _))

/-- A block that a pass expecting the id `tid` does not stop at. -/
def Continues (b : Block) (tid : ℕ) : Prop :=
  HeaderIs b jbd2DescriptorBlock tid ∨ HeaderIs b jbd2CommitBlock tid ∨
    HeaderIs b jbd2RevokeBlock tid

/-- The state once the header has been read. -/
def PassState.afterRead (s : PassState) (j : Journal) : PassState :=
  { s with
    nextLogBlock := wrap j (s.nextLogBlock + 1), reads := s.nextLogBlock % 2 ^ 32 :: s.reads }

/-- `PASS_SCAN` does not look at `end_transaction`; the other passes stop there. -/
def GoesOn (pass : PassType) (s : PassState) : Prop :=
  pass = .scan ∨ tidGeq s.nextCommitID s.info.endTransaction = false

section Round

variable {j : Journal} {pass : PassType} {s s' : PassState} {b : Block}

/-- What a round comes to once it has read a block. -/
theorem passStep_of_read (hgo : GoesOn pass s) (hb : jread j s.nextLogBlock = .ok b) :
    passStep j pass s =
      if hMagic b ≠ jbd2MagicNumber then .finish (s.afterRead j)
      else if hSequence b ≠ s.nextCommitID then .finish (s.afterRead j)
      else if hBlocktype b = jbd2DescriptorBlock then descriptorStep j pass b (s.afterRead j)
      else if hBlocktype b = jbd2CommitBlock then commitStep j pass b (s.afterRead j)
      else if hBlocktype b = jbd2RevokeBlock then revokeStep j pass b (s.afterRead j)
      else .finish (s.afterRead j) := by
  have hguard : ¬(pass ≠ .scan ∧ tidGeq s.nextCommitID s.info.endTransaction = true) := by
    rintro ⟨h1, h2⟩
    rcases hgo with h | h
    · exact h1 h
    · rw [h] at h2
      exact Bool.false_ne_true h2
  unfold passStep
  rw [if_neg hguard]
  simp only [hb]
  rfl

theorem passStep_of_guard (h : ¬GoesOn pass s) : passStep j pass s = .finish s := by
  rw [GoesOn, not_or, Bool.not_eq_false] at h
  unfold passStep
  rw [if_pos h]

theorem passStep_of_error {err : Errno} (hgo : GoesOn pass s)
    (hb : jread j s.nextLogBlock = .error err) :
    passStep j pass s = .fail err (s.read s.nextLogBlock) := by
  have hguard : ¬(pass ≠ .scan ∧ tidGeq s.nextCommitID s.info.endTransaction = true) := by
    rintro ⟨h1, h2⟩
    rcases hgo with h | h
    · exact h1 h
    · rw [h] at h2
      exact Bool.false_ne_true h2
  unfold passStep
  rw [if_neg hguard]
  simp only [hb]

/-- **A block is one of four things to a pass.** -/
theorem passStep_cases (hgo : GoesOn pass s) (hb : jread j s.nextLogBlock = .ok b) :
    (HeaderIs b jbd2DescriptorBlock s.nextCommitID ∧
      passStep j pass s = descriptorStep j pass b (s.afterRead j)) ∨
    (HeaderIs b jbd2CommitBlock s.nextCommitID ∧
      passStep j pass s = commitStep j pass b (s.afterRead j)) ∨
    (HeaderIs b jbd2RevokeBlock s.nextCommitID ∧
      passStep j pass s = revokeStep j pass b (s.afterRead j)) ∨
    (¬Continues b s.nextCommitID ∧ passStep j pass s = .finish (s.afterRead j)) := by
  rw [passStep_of_read hgo hb]
  by_cases h1 : hMagic b = jbd2MagicNumber
  · by_cases h3 : hSequence b = s.nextCommitID
    · rw [if_neg (by simp [h1]), if_neg (by simp [h3])]
      by_cases hd : hBlocktype b = jbd2DescriptorBlock
      · exact Or.inl ⟨⟨h1, hd, h3⟩, if_pos hd⟩
      · rw [if_neg hd]
        by_cases hc : hBlocktype b = jbd2CommitBlock
        · exact Or.inr (Or.inl ⟨⟨h1, hc, h3⟩, if_pos hc⟩)
        · rw [if_neg hc]
          by_cases hr : hBlocktype b = jbd2RevokeBlock
          · exact Or.inr (Or.inr (Or.inl ⟨⟨h1, hr, h3⟩, if_pos hr⟩))
          · rw [if_neg hr]
            refine Or.inr (Or.inr (Or.inr ⟨?_, rfl⟩))
            rintro (h | h | h)
            · exact hd h.2.1
            · exact hc h.2.1
            · exact hr h.2.1
    · rw [if_neg (by simp [h1]), if_pos h3]
      refine Or.inr (Or.inr (Or.inr ⟨?_, rfl⟩))
      rintro (h | h | h) <;> exact h3 h.2.2
  · rw [if_pos h1]
    refine Or.inr (Or.inr (Or.inr ⟨?_, rfl⟩))
    rintro (h | h | h) <;> exact h1 h.1

/-- **A round that goes on has read a descriptor, commit or revoke block with the
expected id.** -/
theorem passStep_again (h : passStep j pass s = .again s') :
    GoesOn pass s ∧ ∃ b, jread j s.nextLogBlock = .ok b ∧
      ((HeaderIs b jbd2DescriptorBlock s.nextCommitID ∧
          descriptorStep j pass b (s.afterRead j) = .again s') ∨
        (HeaderIs b jbd2CommitBlock s.nextCommitID ∧
          commitStep j pass b (s.afterRead j) = .again s') ∨
        (HeaderIs b jbd2RevokeBlock s.nextCommitID ∧
          revokeStep j pass b (s.afterRead j) = .again s')) := by
  by_cases hgo : GoesOn pass s
  · refine ⟨hgo, ?_⟩
    cases hb : jread j s.nextLogBlock with
    | error err =>
      rw [passStep_of_error hgo hb] at h
      cases h
    | ok b =>
      refine ⟨b, rfl, ?_⟩
      rcases passStep_cases hgo hb with ⟨hh, he⟩ | ⟨hh, he⟩ | ⟨hh, he⟩ | ⟨-, he⟩
      · exact Or.inl ⟨hh, he.symm.trans h⟩
      · exact Or.inr (Or.inl ⟨hh, he.symm.trans h⟩)
      · exact Or.inr (Or.inr ⟨hh, he.symm.trans h⟩)
      · rw [he] at h
        cases h
  · rw [passStep_of_guard hgo] at h
    cases h

end Round

/-! ### The parts of a round -/

/-- The state a round ends in, however it ends. -/
def PassStep.state : PassStep → PassState
  | .inl s => s
  | .inr (.done s) => s
  | .inr (.failed _ s) => s

/-- `calc_chksums` moves the position and the checksum, and nothing else. -/
theorem calcChksumsLoop_frame (j : Journal) : ∀ (n : ℕ) (s : PassState),
    ∃ blk crc rs, (calcChksumsLoop j n s).2 =
      { s with nextLogBlock := blk, crc32Sum := crc, reads := rs } := by
  intro n
  induction n with
  | zero => intro s; exact ⟨_, _, _, rfl⟩
  | succ n ih =>
    intro s
    rw [calcChksumsLoop]
    cases jread j s.nextLogBlock with
    | error err => exact ⟨_, _, _, rfl⟩
    | ok obh =>
      obtain ⟨blk, crc, rs, h⟩ := ih { s with
        nextLogBlock := wrap j (s.nextLogBlock + 1)
        crc32Sum := ext2fsCrc32Be s.crc32Sum (bytesOf obh j.jBlocksize)
        reads := s.nextLogBlock % 2 ^ 32 :: s.reads }
      exact ⟨blk, crc, rs, h⟩

/-- A descriptor block in `PASS_SCAN` moves the position and the checksum and may ask
for the commit time to be checked. -/
theorem descriptorStep_scan (j : Journal) (b : Block) (s : PassState) :
    ∃ blk crc rs need, descriptorStep j .scan b s = .again
      { s with
        nextLogBlock := blk, crc32Sum := crc, reads := rs, needCheckCommitTime := need } := by
  unfold descriptorStep
  rw [if_neg (by simp)]
  cases jbd2DescriptorBlockCsumVerify j b with
  | false =>
    refine ⟨wrap j (s.nextLogBlock + countTags j b), s.crc32Sum, s.reads, true, ?_⟩
    simp
  | true =>
    simp only [Bool.not_true, Bool.false_eq_true, if_false]
    split
    · obtain ⟨blk, crc, rs, h⟩ := calcChksumsLoop_frame j (countTags j b)
        { s with crc32Sum := ext2fsCrc32Be s.crc32Sum (bytesOf b j.jBlocksize) }
      refine ⟨blk, crc, rs, s.needCheckCommitTime, ?_⟩
      rw [calcChksums, h]
    · exact ⟨wrap j (s.nextLogBlock + countTags j b), s.crc32Sum, s.reads, _, rfl⟩

theorem descriptorStep_revoke (j : Journal) (b : Block) (s : PassState) :
    descriptorStep j .revoke b s = if jbd2DescriptorBlockCsumVerify j b then
      .again { s with nextLogBlock := wrap j (s.nextLogBlock + countTags j b) }
    else .fail .efsbadcrc s := by
  unfold descriptorStep
  cases jbd2DescriptorBlockCsumVerify j b <;> simp

theorem descriptorStep_replay (j : Journal) (b : Block) (s : PassState) :
    descriptorStep j .replay b s = if jbd2DescriptorBlockCsumVerify j b then
      .again (replayTagsFrom j b j.jBlocksize journalHeaderSize s)
    else .fail .efsbadcrc s := by
  unfold descriptorStep
  cases jbd2DescriptorBlockCsumVerify j b <;> simp

/-- A revoke block in `PASS_SCAN` may ask for the commit time to be checked. -/
theorem revokeStep_scan (j : Journal) (b : Block) (s : PassState) :
    ∃ need, revokeStep j .scan b s = .again { s with needCheckCommitTime := need } := by
  unfold revokeStep
  cases jbd2DescriptorBlockCsumVerify j b with
  | false => exact ⟨true, by simp⟩
  | true => exact ⟨s.needCheckCommitTime, by simp⟩

theorem revokeStep_revoke (j : Journal) (b : Block) (s : PassState) :
    revokeStep j .revoke b s = match scanRevokeRecords j b s.nextCommitID s with
      | .error err => .fail err s
      | .ok s => .again s := by
  unfold revokeStep
  cases hr : scanRevokeRecords j b s.nextCommitID s with
  | error err => simp [hr]
  | ok s' => simp [hr]

theorem revokeStep_replay (j : Journal) (b : Block) (s : PassState) :
    revokeStep j .replay b s = .again s := by
  simp [revokeStep]

/-- A commit block leaves alone where the pass is, what it has read and written, and the
revoke table. -/
theorem commitStep_frame (j : Journal) (pass : PassType) (b : Block) (s : PassState) :
    ∃ id crc time info failed, PassStep.state (commitStep j pass b s) =
      { s with
        nextCommitID := id, crc32Sum := crc, lastTransCommitTime := time, info := info
        jFailedCommit := failed } := by
  have herr : ∀ u : PassState, ∃ id time info failed, PassStep.state (chksumError j pass b u) =
      { u with
        nextCommitID := id, lastTransCommitTime := time, info := info,
        jFailedCommit := failed } := by
    intro u
    unfold chksumError
    split
    · exact ⟨_, _, _, _, rfl⟩
    · dsimp only
      split
      · exact ⟨_, _, _, _, rfl⟩
      · exact ⟨_, _, _, _, rfl⟩
  unfold commitStep
  split
  · split
    · exact ⟨_, _, _, _, _, rfl⟩
    · exact ⟨_, _, _, _, _, rfl⟩
  · split
    · split
      · exact ⟨_, _, _, _, _, rfl⟩
      · split
        · obtain ⟨id, time, info, failed, h⟩ := herr s
          exact ⟨id, s.crc32Sum, time, info, failed, h⟩
        · dsimp only
          split
          · obtain ⟨id, time, info, failed, h⟩ := herr { s with crc32Sum := allOnes32 }
            exact ⟨id, allOnes32, time, info, failed, h⟩
          · exact ⟨_, _, _, _, _, rfl⟩
    · split
      · obtain ⟨id, time, info, failed, h⟩ := herr s
        exact ⟨id, s.crc32Sum, time, info, failed, h⟩
      · exact ⟨_, _, _, _, _, rfl⟩

/-- A revoke block leaves alone where the pass is and what it has read. -/
theorem revokeStep_frame (j : Journal) (pass : PassType) (b : Block) (s : PassState) :
    (PassStep.state (revokeStep j pass b s)).nextLogBlock = s.nextLogBlock ∧
      (PassStep.state (revokeStep j pass b s)).reads = s.reads := by
  have hfold : ∀ (f : PassState → ℕ → PassState),
      (∀ u n, (f u n).nextLogBlock = u.nextLogBlock ∧ (f u n).reads = u.reads) →
      ∀ (blks : List ℕ) (u : PassState), (blks.foldl f u).nextLogBlock = u.nextLogBlock ∧
        (blks.foldl f u).reads = u.reads := by
    intro f hf blks
    induction blks with
    | nil => intro u; exact ⟨rfl, rfl⟩
    | cons blk blks ih =>
      intro u
      rw [List.foldl_cons, (ih _).1, (ih _).2]
      exact hf u blk
  cases pass with
  | scan =>
    obtain ⟨need, h⟩ := revokeStep_scan j b s
    rw [h]
    exact ⟨rfl, rfl⟩
  | replay =>
    rw [revokeStep_replay]
    exact ⟨rfl, rfl⟩
  | revoke =>
    rw [revokeStep_revoke]
    cases h : scanRevokeRecords j b s.nextCommitID s with
    | error err => exact ⟨rfl, rfl⟩
    | ok v =>
      rw [scanRevokeRecords] at h
      split at h
      · cases h
      · change v.nextLogBlock = _ ∧ v.reads = _
        rw [← Except.ok.inj h]
        refine hfold _ (fun _ _ => ?_) _ s
        exact ⟨rfl, rfl⟩

end E2fsprogs
