import E2fsprogs.Journal.ScanEnds
import E2fsprogs.Journal.Walk

/-!
# Staying in the log area

With fast commits the journal has two areas, the log `[j_first, j_last)` and behind it the
blocks of the fast commits. `wrap` goes by the end of the second: with the feature it
compares with `j_fc_last`, so that a walk that comes to `j_last` goes on into the
fast-commit area.

A round of a pass reads the block it is at and, in some passes, the data blocks after a
descriptor block. As long as each round from a block of a transaction leaves it below
`j_last` (`E2fsprogs.StaysBelow`), **all a pass reads is in the log area**; a commit block
in the last block of the area is enough for it to read the next one.
-/

namespace E2fsprogs

/-- An index of the log area. -/
def InLog (j : Journal) (blk : ℕ) : Prop := j.jFirst ≤ blk ∧ blk < j.jLast

/-- The block after the next one of the log, and after its data if it is a descriptor
block, is below `j_last`, and is an `unsigned int`. -/
def StaysBelow (j : Journal) (s : PassState) : Prop :=
  ∀ b, jread j s.nextLogBlock = .ok b →
    (HeaderIs b jbd2DescriptorBlock s.nextCommitID →
      s.nextLogBlock + 1 + countTags j b < min j.jLast (2 ^ 32)) ∧
    (HeaderIs b jbd2CommitBlock s.nextCommitID ∨ HeaderIs b jbd2RevokeBlock s.nextCommitID →
      s.nextLogBlock + 1 < min j.jLast (2 ^ 32))

theorem countTags_le (j : Journal) (b : Block) : countTags j b ≤ j.jBlocksize := by
  have h : ∀ f size (fuel tagp : ℕ), countTagsFrom f size b fuel tagp ≤ fuel := by
    intro f size fuel
    induction fuel with
    | zero => intro tagp; exact le_rfl
    | succ fuel ih =>
      intro tagp
      rw [countTagsFrom]
      have := ih (nextTagp f b tagp)
      split
      · split
        · omega
        · omega
      · omega
  exact h _ _ _ _

section Steps

variable {j : Journal}

/-- Wrapping never leads forward, and never before `j_first`. -/
theorem wrap_le {pos : ℕ} (hlast : j.jFirst ≤ wrapLast j) (hpos : j.jFirst ≤ pos)
    (hlt : pos < 2 ^ 64) :
    j.jFirst ≤ wrap j pos ∧ wrap j pos ≤ pos := by
  rw [wrap]
  split
  · next hle =>
    have h1 : sub64 (wrapLast j) j.jFirst = wrapLast j - j.jFirst := sub64_of_le hlast (by omega)
    rw [h1, sub64_of_le (by omega) hlt]
    omega
  · omega

variable {pos : ℕ}

/-- What a pass has read is in the log area, and where it is lies between `j_first` and
`pos`. -/
structure ReadsBelow (j : Journal) (pos : ℕ) (s : PassState) : Prop where
  first_le : j.jFirst ≤ s.nextLogBlock
  le : s.nextLogBlock ≤ pos
  reads : ∀ r ∈ s.reads, InLog j r

theorem ReadsBelow.mono {pos' : ℕ} {s : PassState} (h : ReadsBelow j pos s) (hle : pos ≤ pos') :
    ReadsBelow j pos' s :=
  ⟨h.first_le, h.le.trans hle, h.reads⟩

/-- One block more is read. -/
theorem ReadsBelow.read {s : PassState} (h : ReadsBelow j pos s) (s' : PassState)
    (hlast : j.jFirst ≤ wrapLast j) (hpos : pos < j.jLast) (hlt : pos < 2 ^ 32)
    (hblk : s'.nextLogBlock = wrap j (s.nextLogBlock + 1))
    (hreads : s'.reads = s.nextLogBlock % 2 ^ 32 :: s.reads) : ReadsBelow j (pos + 1) s' := by
  have h1 := h.first_le
  have h2 := h.le
  obtain ⟨h3, h4⟩ := wrap_le hlast (show j.jFirst ≤ s.nextLogBlock + 1 by omega) (by omega)
  refine ⟨by rw [hblk]; exact h3, by rw [hblk]; omega, fun r hr => ?_⟩
  rw [hreads] at hr
  rcases List.mem_cons.mp hr with rfl | hr
  · rw [Nat.mod_eq_of_lt (by omega)]
    exact ⟨h1, by omega⟩
  · exact h.reads r hr

/-- `calc_chksums` reads one block after the other. -/
theorem ReadsBelow.calcChksumsLoop (hlast : j.jFirst ≤ wrapLast j) : ∀ (n : ℕ) {pos : ℕ}
    {s : PassState}, ReadsBelow j pos s → pos + n < j.jLast → pos + n < 2 ^ 32 →
    ReadsBelow j (pos + n) (calcChksumsLoop j n s).2 := by
  intro n
  induction n with
  | zero => intro pos s h _ _; exact h
  | succ n ih =>
    intro pos s h hpos hlt
    rw [E2fsprogs.calcChksumsLoop]
    cases jread j s.nextLogBlock with
    | error err =>
      have h2 := h.read ({ s with nextLogBlock := wrap j (s.nextLogBlock + 1) }.read s.nextLogBlock)
        hlast (by omega) (by omega) rfl rfl
      exact h2.mono (by omega)
    | ok b =>
      have h2 := h.read { { s with nextLogBlock := wrap j (s.nextLogBlock + 1) }.read
        s.nextLogBlock with crc32Sum := ext2fsCrc32Be s.crc32Sum (bytesOf b j.jBlocksize) }
        hlast (by omega) (by omega) rfl rfl
      have h3 := ih h2 (by omega) (by omega)
      rwa [Nat.add_assoc, Nat.add_comm 1 n] at h3

theorem ReadsBelow.replayTag {bh : Block} {tagp : ℕ} {s : PassState} (h : ReadsBelow j pos s)
    (hlast : j.jFirst ≤ wrapLast j) (hpos : pos < j.jLast) (hlt : pos < 2 ^ 32) :
    ReadsBelow j (pos + 1) (replayTag j bh tagp s) := by
  have hblk : (E2fsprogs.replayTag j bh tagp s).nextLogBlock = wrap j (s.nextLogBlock + 1) ∧
      (E2fsprogs.replayTag j bh tagp s).reads = s.nextLogBlock % 2 ^ 32 :: s.reads := by
    unfold E2fsprogs.replayTag
    dsimp only
    split
    · exact ⟨rfl, rfl⟩
    · split
      · exact ⟨rfl, rfl⟩
      · split
        · exact ⟨rfl, rfl⟩
        · exact ⟨rfl, rfl⟩
  exact h.read _ hlast hpos hlt hblk.1 hblk.2

/-- The replay loop reads one block for each tag. -/
theorem ReadsBelow.replayTags {bh : Block} (hlast : j.jFirst ≤ wrapLast j) :
    ∀ (tagps : List ℕ) {pos : ℕ} {s : PassState}, ReadsBelow j pos s →
    pos + tagps.length < j.jLast → pos + tagps.length < 2 ^ 32 →
    ReadsBelow j (pos + tagps.length)
      (tagps.foldl (fun s tagp => E2fsprogs.replayTag j bh tagp s) s) := by
  intro tagps
  induction tagps with
  | nil => intro pos s h _ _; exact h
  | cons tagp tagps ih =>
    intro pos s h hpos hlt
    rw [List.length_cons] at hpos hlt ⊢
    have htag : ReadsBelow j (pos + 1) (E2fsprogs.replayTag j bh tagp s) :=
      h.replayTag hlast (by omega) (by omega)
    have h1 := ih htag (by omega) (by omega)
    rwa [Nat.add_assoc, Nat.add_comm 1 tagps.length] at h1

/-- A state that only differs elsewhere. -/
theorem ReadsBelow.congr {s s' : PassState} (h : ReadsBelow j pos s)
    (hblk : s'.nextLogBlock = s.nextLogBlock) (hreads : s'.reads = s.reads) :
    ReadsBelow j pos s' :=
  ⟨hblk ▸ h.first_le, hblk ▸ h.le, hreads ▸ h.reads⟩

/-- The jump over the data of a descriptor block reads nothing. -/
theorem ReadsBelow.jump {s s' : PassState} {n : ℕ} (h : ReadsBelow j pos s)
    (hlast : j.jFirst ≤ wrapLast j) (hlt : pos + n < 2 ^ 32)
    (hblk : s'.nextLogBlock = wrap j (s.nextLogBlock + n)) (hreads : s'.reads = s.reads) :
    ReadsBelow j (pos + n) s' := by
  have h1 := h.first_le
  have h2 := h.le
  obtain ⟨h3, h4⟩ := wrap_le hlast (show j.jFirst ≤ s.nextLogBlock + n by omega) (by omega)
  exact ⟨hblk ▸ h3, by rw [hblk]; omega, hreads ▸ h.reads⟩

/-- **A descriptor block**, in any pass. -/
theorem ReadsBelow.descriptorStep {pass : PassType} {b : Block} {s : PassState}
    (h : ReadsBelow j pos s) (hlast : j.jFirst ≤ wrapLast j)
    (hpos : pos + countTags j b < j.jLast) (hlt : pos + countTags j b < 2 ^ 32) :
    ReadsBelow j (pos + countTags j b) (PassStep.state (descriptorStep j pass b s)) := by
  cases pass with
  | scan =>
    unfold E2fsprogs.descriptorStep
    rw [if_neg (by simp)]
    cases hc : jbd2DescriptorBlockCsumVerify j b with
    | false =>
      simp only [Bool.not_false, if_true, Bool.not_true, Bool.false_eq_true, false_and, and_false,
        if_false]
      exact h.jump hlast hlt rfl rfl
    | true =>
      simp only [Bool.not_true, Bool.false_eq_true, if_false]
      split
      · have h1 : ReadsBelow j pos
            { s with crc32Sum := ext2fsCrc32Be s.crc32Sum (bytesOf b j.jBlocksize) } :=
          h.congr rfl rfl
        exact h1.calcChksumsLoop hlast (countTags j b) hpos hlt
      · exact h.jump hlast hlt rfl rfl
  | revoke =>
    rw [descriptorStep_revoke]
    split
    · exact h.jump hlast hlt rfl rfl
    · exact h.mono (Nat.le_add_right _ _)
  | replay =>
    rw [descriptorStep_replay]
    split
    · rw [countTags_eq] at hpos hlt ⊢
      rw [replayTags_eq]
      exact ReadsBelow.replayTags hlast _ h hpos hlt
    · exact h.mono (Nat.le_add_right _ _)

end Steps

/-! ### A whole pass -/

/-- Where a pass is and what it has read are in the log area. -/
structure StaysInLog (j : Journal) (s : PassState) : Prop where
  blk : InLog j s.nextLogBlock
  blk_lt : s.nextLogBlock < 2 ^ 32
  reads : ∀ r ∈ s.reads, InLog j r

/-- **One round.** A round from a state in the log area reads blocks of the log area, and if
it goes on it is still there. -/
theorem passStep_inLog {j : Journal} (hl : Loaded j) (hfc : j.features.fastCommit = true)
    {pass : PassType} {s : PassState} (h : StaysInLog j s) (hstay : StaysBelow j s) :
    (∀ r ∈ (PassStep.state (passStep j pass s)).reads, InLog j r) ∧
      ∀ s', passStep j pass s = .again s' → StaysInLog j s' := by
  obtain ⟨hin, hlt, hreads⟩ := h
  have hread : ∀ r ∈ s.nextLogBlock % 2 ^ 32 :: s.reads, InLog j r := by
    intro r hr
    rcases List.mem_cons.mp hr with rfl | hr
    · rwa [Nat.mod_eq_of_lt hlt]
    · exact hreads r hr
  by_cases hgo : GoesOn pass s
  · cases hb : jread j s.nextLogBlock with
    | error err =>
      rw [passStep_of_error hgo hb]
      exact ⟨hread, fun s' hs' => by cases hs'⟩
    | ok b =>
      -- the block could be read, so the log area begins inside the journal
      have htotal : s.nextLogBlock < j.jTotalLen := by
        have hoff := (jread_ok hb).1
        rwa [Nat.mod_eq_of_lt hlt] at hoff
      have hwrap : wrapLast j = j.jTotalLen := by
        rw [wrapLast, hfc]
        exact hl.fcLast_eq hfc
      have hlast : j.jFirst ≤ wrapLast j := by
        have := hin.1
        omega
      have hcount := countTags_le j b
      have hbs := hl.blocksize_le
      have htl := hl.total_lt
      have hstart : ReadsBelow j s.nextLogBlock s := ⟨hin.1, le_rfl, hreads⟩
      have hafter : ReadsBelow j (s.nextLogBlock + 1) (s.afterRead j) :=
        hstart.read _ hlast hin.2 hlt rfl rfl
      have hend : ∀ {pos : ℕ} {r : PassStep}, pos < min j.jLast (2 ^ 32) →
        ReadsBelow j pos r.state →
          (∀ x ∈ r.state.reads, InLog j x) ∧ ∀ s', r = .again s' → StaysInLog j s' := by
        rintro pos r hpos hr
        obtain ⟨hpos₁, hpos₂⟩ := lt_min_iff.mp hpos
        refine ⟨hr.reads, fun s' hs' => ?_⟩
        subst hs'
        exact ⟨⟨hr.first_le, hr.le.trans_lt hpos₁⟩, hr.le.trans_lt hpos₂, hr.reads⟩
      rcases passStep_cases hgo hb with ⟨hh, he⟩ | ⟨hh, he⟩ | ⟨hh, he⟩ | ⟨-, he⟩
      · have hpos := (hstay b hb).1 hh
        rw [he]
        obtain ⟨hpos₁, hpos₂⟩ := lt_min_iff.mp hpos
        exact hend hpos (hafter.descriptorStep hlast hpos₁ hpos₂)
      · obtain ⟨id, crc, time, info, failed, hf⟩ := commitStep_frame j pass b (s.afterRead j)
        rw [he]
        refine hend ((hstay b hb).2 (Or.inl hh)) ?_
        rw [hf]
        exact hafter.congr rfl rfl
      · obtain ⟨h1, h2⟩ := revokeStep_frame j pass b (s.afterRead j)
        rw [he]
        exact hend ((hstay b hb).2 (Or.inr hh)) (hafter.congr h1 h2)
      · rw [he]
        exact ⟨hread, fun s' hs' => by cases hs'⟩
  · rw [passStep_of_guard hgo]
    exact ⟨hreads, fun s' hs' => by cases hs'⟩

/-- **A pass stays in the log area.** For every journal with fast commits that
`e2fsck_journal_load` accepts and every `s_start` in the log area: in every run of a pass each
state of which stays below `j_last`, all blocks read are in the log area, in the states the
run goes through and in the one it ends in. -/
theorem reads_in_logArea {ctx : LoadContext} {sb : Block} {j : Journal}
    (hload : e2fsckJournalLoad ctx sb = .ok j) (hfc : j.features.fastCommit = true)
    (hstart : InLog j j.jTail) (pass : PassType) {s₀ : PassState} (hs₀ : ∀ r ∈ s₀.reads, InLog j r)
    (hstay : ∀ u, Loop.Reach (passStep j pass) (startPass j pass s₀) u → StaysBelow j u) :
    (∀ u, Loop.Reach (passStep j pass) (startPass j pass s₀) u → ∀ r ∈ u.reads, InLog j r) ∧
    ∀ e, Loop.Leaves (passStep j pass) (startPass j pass s₀) e →
      ∀ r ∈ (PassStep.state (.inr e)).reads, InLog j r := by
  have hl := loaded_of_load hload
  have hreach : ∀ u, Loop.Reach (passStep j pass) (startPass j pass s₀) u → StaysInLog j u := by
    intro u hu
    induction hu with
    | refl => exact ⟨hstart, hl.tail_lt, hs₀⟩
    | tail hab hr ih => exact (passStep_inLog hl hfc ih (hstay _ hab)).2 _ hr
  refine ⟨fun u hu => (hreach u hu).reads, fun e he => ?_⟩
  obtain ⟨v, hv, hlast⟩ := Loop.exists_last_of_leaves he
  have hr : ∀ r ∈ (PassStep.state (passStep j pass v)).reads, InLog j r :=
    (passStep_inLog hl hfc (hreach v hv) (hstay v hv)).1
  rwa [hlast] at hr

/-! ### A walk that leaves the log area -/

/-- A journal of 1280 blocks, the last 256 of them for fast commits. -/
def fcJournal (start : ℕ) (dev : ℕ → Option Block) : Journal :=
  { sampleLoaded 0 0x20 1280 start dev with jFcLast := 1280, jLast := 1024, jFcFirst := 1025 }

theorem load_fcJournal {start : ℕ} (hs : start < 2 ^ 32) (dev : ℕ → Option Block) :
    e2fsckJournalLoad (sampleContext 1280 dev) (sampleSuperblock 0 0x20 1280 start) =
      .ok (fcJournal start dev) := by
  obtain ⟨hload, hfields⟩ := @load_sampleSuperblock 0 0x20 1280 start (by norm_num)
    (by norm_num) (by norm_num) hs (by decide) (by decide) (by decide) dev
  have hnum : sNumFcBlks (sampleSuperblock 0 0x20 1280 start) = 0 := by
    rw [sNumFcBlks, getBe_sampleSuperblock (by norm_num)]
    simp (disch := omega) only [getBe_putBe_of_disjoint]
    decide
  have hmax : sMaxlen (sampleSuperblock 0 0x20 1280 start) = 1280 :=
    sampleSuperblock_maxlen (by norm_num)
  have hfc : jbd2JournalGetNumFcBlks (sampleSuperblock 0 0x20 1280 start) = 256 := by
    rw [jbd2JournalGetNumFcBlks, hnum]
    rfl
  rw [hload, journalFields, hfields, hmax, hfc]
  rfl

/-- A log area that ends with a commit block. -/
def commitAtEnd : Journal := fcJournal 1023 fun i =>
  if i = 1023 then some (putHeader zeroBlock jbd2CommitBlock 1) else some zeroBlock

/-- **A walk that leaves the log area.** The log starts with a commit block in the last
block of the log area; the scan then reads block `j_last`. -/
theorem commitAtEnd_reads_on : ∃ ctx sb, e2fsckJournalLoad ctx sb = .ok commitAtEnd ∧
    commitAtEnd.features.fastCommit = true ∧ InLog commitAtEnd commitAtEnd.jTail ∧
    ∃ e, Loop.Leaves (passStep commitAtEnd .scan)
        (startPass commitAtEnd .scan (recoverStart fun _ => zeroBlock)) e ∧
      ∃ r ∈ (PassStep.state (.inr e)).reads, ¬InLog commitAtEnd r := by
  have hb : jread commitAtEnd 1023 = .ok (putHeader zeroBlock jbd2CommitBlock 1) := rfl
  obtain ⟨s, hr, hmark⟩ := round_of_chain (j := commitAtEnd)
    (s := startPass commitAtEnd .scan (recoverStart fun _ => zeroBlock))
    (Chain.commit (b := putHeader zeroBlock jbd2CommitBlock 1) hb
      ⟨by decide, by decide, by decide⟩ rfl)
  have hblk : s.nextLogBlock = 1024 := congrArg ScanMark.blk hmark
  have hz : jread commitAtEnd s.nextLogBlock = .ok zeroBlock := by
    rw [hblk]
    rfl
  have hstop : passStep commitAtEnd .scan s = .finish (s.afterRead commitAtEnd) := by
    rw [passStep_of_read (Or.inl rfl) hz, if_pos (by decide)]
  refine ⟨_, _, load_fcJournal (by norm_num) _, by decide, ⟨by decide, by decide⟩,
    .done (s.afterRead commitAtEnd), Loop.leaves_of_round hr (Loop.leaves_of_inr hstop),
    1024, ?_, fun hin => absurd hin.2 (by decide)⟩
  have hmem : s.nextLogBlock % 2 ^ 32 ∈ (s.afterRead commitAtEnd).reads := List.mem_cons_self
  rwa [hblk] at hmem

/-- A log of one transaction: a descriptor block with one tag, its data, a revoke block and
a commit block. -/
def smallLog : Journal := fcJournal 1 fun i =>
  if i = 1 then some (putBe (putHeader zeroBlock jbd2DescriptorBlock 1) 18 2 jbd2FlagLastTag)
  else if i = 3 then some (putHeader zeroBlock jbd2RevokeBlock 1)
  else if i = 4 then some (putHeader zeroBlock jbd2CommitBlock 1)
  else some zeroBlock

/-- The scan of such a log ends, and reads blocks of the log area only. -/
theorem reads_in_logArea_smallLog : ∃ e, Loop.Leaves (passStep smallLog .scan)
    (startPass smallLog .scan (recoverStart fun _ => zeroBlock)) e ∧
    ∀ r ∈ (PassStep.state (.inr e)).reads, InLog smallLog r := by
  -- the marks of the walk
  have hc₁ : Chain smallLog ⟨1, 1, allOnes32, false, 0, 0⟩ ⟨3, 1, allOnes32, false, 0, 0⟩ :=
    Chain.descriptor (j := smallLog) (m := ⟨1, 1, allOnes32, false, 0, 0⟩) rfl
      ⟨by decide, by decide, by decide⟩
  have hc₃ : Chain smallLog ⟨3, 1, allOnes32, false, 0, 0⟩ ⟨4, 1, allOnes32, false, 0, 0⟩ :=
    Chain.revoke (j := smallLog) (m := ⟨3, 1, allOnes32, false, 0, 0⟩) rfl
      ⟨by decide, by decide, by decide⟩
  have hc₄ : Chain smallLog ⟨4, 1, allOnes32, false, 0, 0⟩ ⟨5, 2, allOnes32, false, 0, 0⟩ :=
    Chain.commit (j := smallLog) (m := ⟨4, 1, allOnes32, false, 0, 0⟩) rfl
      ⟨by decide, by decide, by decide⟩ rfl
  obtain ⟨s₁, hr₁, hm₁⟩ := round_of_chain
    (s := startPass smallLog .scan (recoverStart fun _ => zeroBlock)) hc₁
  obtain ⟨s₃, hr₃, hm₃⟩ := round_of_chain (s := s₁) (hm₁ ▸ hc₃)
  obtain ⟨s₄, hr₄, hm₄⟩ := round_of_chain (s := s₃) (hm₃ ▸ hc₄)
  have hstop : passStep smallLog .scan s₄ = .finish (s₄.afterRead smallLog) := by
    have hz : jread smallLog s₄.nextLogBlock = .ok zeroBlock := by
      rw [show s₄.nextLogBlock = 5 from congrArg ScanMark.blk hm₄]
      rfl
    rw [passStep_of_read (Or.inl rfl) hz, if_pos (by decide)]
  have hl := Loop.leaves_of_round hr₁ (Loop.leaves_of_round hr₃ (Loop.leaves_of_round hr₄
    (Loop.leaves_of_inr hstop)))
  -- in each state the block after the next one of the transaction is below the end
  have hstay : ∀ (u : PassState) (blk : ℕ) (b : Block), u.nextLogBlock = blk →
      jread smallLog blk = .ok b → blk + 1 + countTags smallLog b < 1024 →
        StaysBelow smallLog u := by
    intro u blk b hblk hb hlt b' hb'
    rw [hblk] at hb' ⊢
    cases hb.symm.trans hb'
    have hmin : min smallLog.jLast (2 ^ 32) = 1024 := rfl
    rw [hmin]
    exact ⟨fun _ => hlt, fun _ => by omega⟩
  refine ⟨_, hl, (reads_in_logArea (load_fcJournal (by norm_num) _) (by decide)
    ⟨by decide, by decide⟩ .scan
    (show ∀ r ∈ (recoverStart fun _ => zeroBlock).reads, InLog _ r by simp [recoverStart])
    fun u hu => ?_).2 _ hl⟩
  rcases Loop.eq_or_reach_of_round hr₁ hu with rfl | hu
  · exact hstay _ 1 _ rfl rfl (by decide)
  · rcases Loop.eq_or_reach_of_round hr₃ hu with rfl | hu
    · exact hstay _ 3 _ (congrArg ScanMark.blk hm₁) rfl (by decide)
    · rcases Loop.eq_or_reach_of_round hr₄ hu with rfl | hu
      · exact hstay _ 4 _ (congrArg ScanMark.blk hm₃) rfl (by decide)
      · rw [Loop.eq_of_reach_of_inr hstop hu]
        exact hstay _ 5 _ (congrArg ScanMark.blk hm₄) rfl (by decide)

end E2fsprogs
