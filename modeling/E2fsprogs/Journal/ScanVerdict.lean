import E2fsprogs.Journal.Load
import E2fsprogs.Journal.RevokeTable
import E2fsprogs.Journal.Round

/-!
# Bad commit checksums

What `PASS_SCAN` makes of a commit block whose checksum is wrong, on any log content.
The verdict is `end_transaction`, and only a commit block changes it
(`E2fsprogs.scan_round`): one whose checksum fails sets it to its own id, whatever it was
before, unless it is older than the commit block before it, which ends the scan
(`E2fsprogs.CommitSets`). The scan then goes on.

So the first failure decides only as long as no later one overrules it. Two things can: a
later commit block that fails too, for another id – with `async_commit` the scan moves on
to the next id at once, and a second bad commit block is all it takes – and, when the
first failure is that of the transaction `0`, any step to another id, because
`end_transaction = 0` means “not set”. `E2fsprogs.KeepsVerdict` says of a state that its
next round is neither, and **then the first failure decides**: `end_transaction` is its
id, and recovery writes blocks of earlier transactions only. A verdict that is overruled is
lost: the ids only go forward (`E2fsprogs.Past`).
-/

namespace E2fsprogs

/-! ### Commit blocks -/

/-- What the rounds of `PASS_SCAN` depend on: the block they are at, the expected id, the
running checksum, whether commit times are checked, the time of the last commit block, and
`end_transaction`. -/
structure ScanMark where
  blk : ℕ
  tid : ℕ
  crc : ℕ
  need : Bool
  time : ℕ
  verdict : ℕ
  deriving DecidableEq, Repr

/-- Where a scan is. -/
def PassState.mark (s : PassState) : ScanMark where
  blk := s.nextLogBlock
  tid := s.nextCommitID
  crc := s.crc32Sum
  need := s.needCheckCommitTime
  time := s.lastTransCommitTime
  verdict := s.info.endTransaction

/-- The checksum verification of a commit block fails. With the whole-transaction
checksum nothing is verified once `end_transaction` has been set. -/
def commitBad (j : Journal) (m : ScanMark) (b : Block) : Bool :=
  if j.features.checksum then
    decide (m.verdict = 0) && (chksumMismatch m.crc b || !jbd2CommitBlockCsumVerify j b)
  else !jbd2CommitBlockCsumVerify j b

/-- The next block of the log is a commit block of the expected id, and its checksum
verification fails. -/
def CommitFails (j : Journal) (s : PassState) : Prop :=
  ∃ b, jread j s.nextLogBlock = .ok b ∧ HeaderIs b jbd2CommitBlock s.nextCommitID ∧
    s.needCheckCommitTime = false ∧ commitBad j s.mark b = true

/-- It fails and is not older than the commit block before, which would end the scan: this
is what sets `end_transaction`. -/
def CommitSets (j : Journal) (s : PassState) : Prop :=
  ∃ b, jread j s.nextLogBlock = .ok b ∧ HeaderIs b jbd2CommitBlock s.nextCommitID ∧
    s.needCheckCommitTime = false ∧ commitBad j s.mark b = true ∧
    s.lastTransCommitTime ≤ hCommitSec b

/-- The next block of the log is a commit block of the expected id that takes the scan
to the next id: its checksum is in order, or it is not but the commits are
asynchronous and it is not older than the one before. -/
def CommitAdvances (j : Journal) (s : PassState) : Prop :=
  ∃ b, jread j s.nextLogBlock = .ok b ∧ HeaderIs b jbd2CommitBlock s.nextCommitID ∧
    s.needCheckCommitTime = false ∧
    if commitBad j s.mark b then
      j.features.asyncCommit = true ∧ s.lastTransCommitTime ≤ hCommitSec b
    else ¬(j.features.checksum = true ∧ s.info.endTransaction ≠ 0)

/-- The running checksum after a commit block. -/
def crcAfterCommit (j : Journal) (m : ScanMark) (b : Block) : ℕ :=
  if j.features.checksum = true ∧ m.verdict = 0 ∧ chksumMismatch m.crc b = false then allOnes32
  else m.crc

/-- What `PASS_SCAN` can make of a commit block when commit times are not checked yet. -/
inductive CommitOutcome (j : Journal) (b : Block) (s : PassState) : PassStep → Prop
  /-- A bad one that is older than the one before ends the scan. -/
  | older (hbad : commitBad j s.mark b = true) (hold : hCommitSec b < s.lastTransCommitTime) :
      CommitOutcome j b s (.finish { s with crc32Sum := crcAfterCommit j s.mark b })
  | fails (hbad : commitBad j s.mark b = true) (hnew : s.lastTransCommitTime ≤ hCommitSec b)
      (failed : ℕ) :
      CommitOutcome j b s (.again { s with
        crc32Sum := crcAfterCommit j s.mark b
        info := { s.info with endTransaction := s.nextCommitID }
        jFailedCommit := failed
        lastTransCommitTime :=
          if j.features.asyncCommit then hCommitSec b else s.lastTransCommitTime
        nextCommitID :=
          if j.features.asyncCommit then tidSucc s.nextCommitID else s.nextCommitID })
  /-- With the whole-transaction checksum, none is looked at once one has failed. -/
  | passed (hgood : commitBad j s.mark b = false) (hv : j.features.checksum = true)
      (hend : s.info.endTransaction ≠ 0) (failed : ℕ) :
      CommitOutcome j b s (.again { s with jFailedCommit := failed })
  | next (hgood : commitBad j s.mark b = false)
      (hlook : ¬(j.features.checksum = true ∧ s.info.endTransaction ≠ 0)) :
      CommitOutcome j b s (.again { s with
        crc32Sum := crcAfterCommit j s.mark b
        lastTransCommitTime := hCommitSec b
        nextCommitID := tidSucc s.nextCommitID })

section Commit

variable {j : Journal} {b : Block} {s s' : PassState}

/-- The label `chksum_error` in `PASS_SCAN`. -/
theorem chksumError_scan (hbad : commitBad j s.mark b = true) :
    CommitOutcome j b s
      (chksumError j .scan b { s with crc32Sum := crcAfterCommit j s.mark b }) := by
  unfold chksumError
  split
  · next hold => exact CommitOutcome.older hbad hold
  · next hnew =>
    have h := CommitOutcome.fails hbad (Nat.not_lt.mp hnew)
    cases ha : j.features.asyncCommit with
    | false =>
      simp only [ha, Bool.false_eq_true, if_false] at h
      exact h s.nextCommitID
    | true =>
      simp only [ha, if_true] at h
      exact h s.jFailedCommit

/-- **A commit block in `PASS_SCAN`.** -/
theorem commitStep_scan (hneed : s.needCheckCommitTime = false) :
    CommitOutcome j b s (commitStep j .scan b s) := by
  have herr := @chksumError_scan j b s
  have hnext := @CommitOutcome.next j b s
  unfold commitStep
  rw [if_neg (by simp [hneed])]
  cases hv : j.features.checksum with
  | true =>
    rw [if_pos ⟨rfl, rfl⟩]
    by_cases hend : s.info.endTransaction = 0
    · rw [if_neg (by simpa using hend)]
      cases hm : chksumMismatch s.crc32Sum b with
      | true =>
        rw [if_pos rfl]
        rw [crcAfterCommit, if_neg (by simp [PassState.mark, hm])] at herr
        exact herr (by simp [commitBad, PassState.mark, hv, hend, hm])
      | false =>
        rw [if_neg (by simp)]
        rw [crcAfterCommit, if_pos ⟨hv, hend, hm⟩] at herr hnext
        cases hc : jbd2CommitBlockCsumVerify j b with
        | false =>
          simp only [Bool.not_false, if_true]
          exact herr (by simp [commitBad, PassState.mark, hv, hend, hc])
        | true =>
          simp only [Bool.not_true, Bool.false_eq_true, if_false]
          exact hnext (by simp [commitBad, PassState.mark, hv, hm, hc]) (by simp [hend])
    · rw [if_pos hend]
      exact CommitOutcome.passed (by simp [commitBad, PassState.mark, hv, hend]) hv hend _
  | false =>
    rw [if_neg (by simp)]
    rw [crcAfterCommit, if_neg (by simp [hv])] at herr hnext
    cases hc : jbd2CommitBlockCsumVerify j b with
    | false =>
      rw [if_pos (by simp)]
      exact herr (by simp [commitBad, hv, hc])
    | true =>
      rw [if_neg (by simp)]
      exact hnext (by simp [commitBad, hv, hc]) (by simp [hv])

/-- Once commit times are checked, any commit block ends the scan. -/
theorem commitStep_scan_need (hneed : s.needCheckCommitTime = true) :
    commitStep j .scan b s =
      if s.lastTransCommitTime ≤ hCommitSec b then .fail .efsbadcrc s else .finish s := by
  unfold commitStep
  rw [if_pos hneed]

/-- A commit block at which `PASS_SCAN` leaves changes nothing it has found. -/
theorem commitStep_scan_done (h : commitStep j .scan b s = .inr (.done s')) :
    s'.info = s.info ∧ s'.nextCommitID = s.nextCommitID := by
  cases hneed : s.needCheckCommitTime with
  | true =>
    rw [commitStep_scan_need hneed] at h
    split at h
    · cases h
    · cases h
      exact ⟨rfl, rfl⟩
  | false =>
    have hout := @commitStep_scan j b s hneed
    rw [h] at hout
    cases hout
    exact ⟨rfl, rfl⟩

end Commit

/-! ### Rounds of `PASS_SCAN` -/

section Round

variable {j : Journal} {b : Block} {s s' : PassState}

theorem not_commit_of_header {blocktype : ℕ} (hb : jread j s.nextLogBlock = .ok b)
    (hh : HeaderIs b blocktype s.nextCommitID) (hne : blocktype ≠ jbd2CommitBlock) :
    ¬CommitSets j s ∧ ¬CommitAdvances j s := by
  refine ⟨?_, ?_⟩
  all_goals
    rintro ⟨b', hb', hh', -⟩
    cases hb.symm.trans hb'
    exact hne (hh.2.1.symm.trans hh'.2.1)

/-- **Only a commit block changes what `PASS_SCAN` has found.** -/
theorem scan_round (h : Loop.Round (passStep j .scan) s s') :
    (CommitSets j s ∧ s'.info.endTransaction = s.nextCommitID ∨
      ¬CommitSets j s ∧ s'.info.endTransaction = s.info.endTransaction) ∧
    (CommitAdvances j s ∧ s'.nextCommitID = tidSucc s.nextCommitID ∨
      ¬CommitAdvances j s ∧ s'.nextCommitID = s.nextCommitID) := by
  obtain ⟨-, b, hb, ⟨hh, hd⟩ | ⟨hh, hc⟩ | ⟨hh, hr⟩⟩ := passStep_again h
  · obtain ⟨hsets, hadv⟩ := not_commit_of_header hb hh (by decide)
    obtain ⟨blk, crc, rs, need, he⟩ := descriptorStep_scan j b (s.afterRead j)
    cases he.symm.trans hd
    exact ⟨Or.inr ⟨hsets, rfl⟩, Or.inr ⟨hadv, rfl⟩⟩
  · cases hneed : s.needCheckCommitTime with
    | true =>
      rw [commitStep_scan_need (show (s.afterRead j).needCheckCommitTime = true from hneed)] at hc
      split at hc <;> cases hc
    | false =>
      have hout := @commitStep_scan j b (s.afterRead j) hneed
      rw [hc] at hout
      -- what the block in front says of a commit block, it says of this one
      have hsame : ∀ {P : Block → Prop}, (∃ b', jread j s.nextLogBlock = .ok b' ∧
          HeaderIs b' jbd2CommitBlock s.nextCommitID ∧ s.needCheckCommitTime = false ∧ P b') ↔
          P b := by
        refine fun {P} => ⟨fun ⟨b', hb', _, _, hP⟩ => ?_, fun hP => ⟨b, hb, hh, hneed, hP⟩⟩
        cases hb.symm.trans hb'
        exact hP
      rw [CommitSets, CommitAdvances, hsame, hsame]
      cases hout with
      | fails hbad hnew failed =>
        have hbad' : commitBad j s.mark b = true := hbad
        refine ⟨Or.inl ⟨⟨hbad', hnew⟩, rfl⟩, ?_⟩
        rw [if_pos hbad']
        cases ha : j.features.asyncCommit with
        | true => exact Or.inl ⟨⟨rfl, hnew⟩, rfl⟩
        | false => exact Or.inr ⟨fun h => absurd h.1 Bool.false_ne_true, rfl⟩
      | passed hgood hv hend failed =>
        have hgood' : commitBad j s.mark b = false := hgood
        refine ⟨Or.inr ⟨fun h => absurd (hgood'.symm.trans h.1) Bool.false_ne_true, rfl⟩, ?_⟩
        rw [if_neg (by simp [hgood'])]
        exact Or.inr ⟨fun h => h ⟨hv, hend⟩, rfl⟩
      | next hgood hlook =>
        have hgood' : commitBad j s.mark b = false := hgood
        refine ⟨Or.inr ⟨fun h => absurd (hgood'.symm.trans h.1) Bool.false_ne_true, rfl⟩, ?_⟩
        rw [if_neg (by simp [hgood'])]
        exact Or.inl ⟨hlook, rfl⟩
  · obtain ⟨hsets, hadv⟩ := not_commit_of_header hb hh (by decide)
    obtain ⟨need, he⟩ := revokeStep_scan j b (s.afterRead j)
    cases he.symm.trans hr
    exact ⟨Or.inr ⟨hsets, rfl⟩, Or.inr ⟨hadv, rfl⟩⟩

/-- Where a commit block sets the verdict or takes the scan on, the scan does not leave. -/
theorem round_of_commit (h : CommitSets j s ∨ CommitAdvances j s) :
    ∃ s', Loop.Round (passStep j .scan) s s' := by
  obtain ⟨b, hb, hh, hneed, hwhat⟩ : ∃ b, jread j s.nextLogBlock = .ok b ∧
      HeaderIs b jbd2CommitBlock s.nextCommitID ∧ s.needCheckCommitTime = false ∧
      (commitBad j s.mark b = true → s.lastTransCommitTime ≤ hCommitSec b) := by
    rcases h with ⟨b, hb, hh, hneed, -, hnew⟩ | ⟨b, hb, hh, hneed, hadv⟩
    · exact ⟨b, hb, hh, hneed, fun _ => hnew⟩
    · refine ⟨b, hb, hh, hneed, fun hbad => ?_⟩
      rw [if_pos hbad] at hadv
      exact hadv.2
  have hout := @commitStep_scan j b (s.afterRead j) hneed
  have hstep : passStep j .scan s = commitStep j .scan b (s.afterRead j) := by
    rcases passStep_cases (Or.inl rfl) hb with ⟨hd, -⟩ | ⟨-, he⟩ | ⟨hr, -⟩ | ⟨hn, -⟩
    · exact absurd (hd.2.1.symm.trans hh.2.1) (by decide)
    · exact he
    · exact absurd (hr.2.1.symm.trans hh.2.1) (by decide)
    · exact absurd (Or.inr (Or.inl hh)) hn
  suffices hgo : ∃ s', passStep j .scan s = .inl s' from hgo
  rw [hstep]
  generalize commitStep j .scan b (s.afterRead j) = r at hout
  cases hout with
  | older hbad hold => exact absurd (hwhat hbad) (Nat.not_le.mpr hold)
  | fails hbad hnew failed => exact ⟨_, rfl⟩
  | passed hgood hv hend failed => exact ⟨_, rfl⟩
  | next hgood hlook => exact ⟨_, rfl⟩

/-- A round that leaves `PASS_SCAN` changes nothing it has found. -/
theorem scan_done (h : passStep j .scan s = .inr (.done s')) :
    s'.info = s.info ∧ s'.nextCommitID = s.nextCommitID := by
  have hgo : GoesOn .scan s := Or.inl rfl
  cases hb : jread j s.nextLogBlock with
  | error err =>
    rw [passStep_of_error hgo hb] at h
    cases h
  | ok b =>
    rcases passStep_cases hgo hb with ⟨-, he⟩ | ⟨-, he⟩ | ⟨-, he⟩ | ⟨-, he⟩
    · obtain ⟨blk, crc, rs, need, hd⟩ := descriptorStep_scan j b (s.afterRead j)
      rw [he, hd] at h
      cases h
    · rw [he] at h
      have hdone := commitStep_scan_done h
      exact hdone
    · obtain ⟨need, hr⟩ := revokeStep_scan j b (s.afterRead j)
      rw [he, hr] at h
      cases h
    · rw [he] at h
      cases h
      exact ⟨rfl, rfl⟩

end Round

/-! ### After the first failure -/

/-- The next round leaves the verdict `t` alone: it does not set it to another id, and, if
`t` is the id that looks like “not set”, it stays at its id. -/
def KeepsVerdict (j : Journal) (t : ℕ) (s : PassState) : Prop :=
  (CommitSets j s → s.nextCommitID = t) ∧ (t = 0 → ¬CommitAdvances j s)

section Verdict

variable {j : Journal} {s s' : PassState} {t : ℕ}

/-- What `PASS_SCAN` has found, once it has failed the commit block of `t`. -/
def VerdictIs (t : ℕ) (s : PassState) : Prop :=
  s.info.endTransaction = t ∧ (t = 0 → s.nextCommitID = 0)

theorem VerdictIs.round (hv : VerdictIs t s) (hk : KeepsVerdict j t s)
    (h : Loop.Round (passStep j .scan) s s') : VerdictIs t s' := by
  obtain ⟨hend, hid⟩ := scan_round h
  refine ⟨?_, fun h0 => ?_⟩
  · rcases hend with ⟨hsets, hend⟩ | ⟨-, hend⟩
    · exact hend.trans (hk.1 hsets)
    · exact hend.trans hv.1
  · rcases hid with ⟨hadv, -⟩ | ⟨-, hid⟩
    · exact absurd hadv (hk.2 h0)
    · exact hid.trans (hv.2 h0)

/-- The verdict survives a run all of whose rounds keep it. -/
theorem VerdictIs.reach (hv : VerdictIs t s) (h : Loop.Reach (passStep j .scan) s s')
    (hk : ∀ u, Loop.Reach (passStep j .scan) s u → KeepsVerdict j t u) : VerdictIs t s' := by
  induction h with
  | refl => exact hv
  | tail hreach hr ih => exact ih.round (hk _ hreach) hr

theorem CommitSets.fails (h : CommitSets j s) : CommitFails j s := by
  obtain ⟨b, hb, hh, hneed, hbad, -⟩ := h
  exact ⟨b, hb, hh, hneed, hbad⟩

/-- Before the first failure nothing is set. -/
theorem endTransaction_of_no_failure (h : Loop.Reach (passStep j .scan) s s')
    (h0 : s.info.endTransaction = 0)
    (hno : ∀ u, Loop.Reach (passStep j .scan) s u → Relation.TransGen
      (Loop.Round (passStep j .scan)) u s' → ¬CommitFails j u) : s'.info.endTransaction = 0 := by
  induction h with
  | refl => exact h0
  | tail hreach hr ih =>
    have hprev := ih fun u hu hus => hno u hu (hus.tail hr)
    rcases (scan_round hr).1 with ⟨hsets, -⟩ | ⟨-, hend⟩
    · exact absurd hsets.fails (hno _ hreach (Relation.TransGen.single hr))
    · exact hend.trans hprev

end Verdict

/-- A run of `PASS_SCAN` from `s₀` that comes to the state `s`, the first whose commit
block fails. -/
structure FirstFailure (j : Journal) (s₀ s : PassState) : Prop where
  reach : Loop.Reach (passStep j .scan) s₀ s
  fails : CommitFails j s
  first : ∀ u, Loop.Reach (passStep j .scan) s₀ u →
    Relation.TransGen (Loop.Round (passStep j .scan)) u s → ¬CommitFails j u

/-- What the end of the scan makes the verdict. -/
theorem recordEnd_scan {j : Journal} {u e : PassState} (h : passStep j .scan u = .inr (.done e)) :
    (recordEnd .scan e).info.endTransaction =
      if u.info.endTransaction = 0 then u.nextCommitID else u.info.endTransaction := by
  obtain ⟨hinfo, hid⟩ := scan_done h
  rw [recordEnd, if_pos rfl, hinfo]
  split
  · exact hid
  · rw [hinfo]

/-- **Where the first failure leads**, if no later round overrules it: the scan leaves
with its id as the verdict. -/
theorem FirstFailure.endTransaction_eq {j : Journal} {s₀ s e : PassState}
    (hf : FirstFailure j s₀ s) (h0 : s₀.info.endTransaction = 0)
    (hk : ∀ u, Loop.Reach (passStep j .scan) s u → KeepsVerdict j s.nextCommitID u)
    (hl : Loop.Leaves (passStep j .scan) s₀ (.done e)) :
    (recordEnd .scan e).info.endTransaction = s.nextCommitID := by
  have hbefore := endTransaction_of_no_failure hf.reach h0 hf.first
  have hls := Loop.leaves_of_reach_start hf.reach hl
  cases hs : passStep j .scan s with
  | inr r =>
    -- the failing commit block is older than the one before it: the log ends there
    obtain rfl : r = .done e := Loop.leaves_unique (Loop.leaves_of_inr hs) hls
    rw [recordEnd_scan hs, if_pos hbefore]
  | inl u =>
    have hsets : CommitSets j s := by
      obtain ⟨b, hb, hh, hneed, hbad⟩ := hf.fails
      by_contra hnot
      have hold : hCommitSec b < s.lastTransCommitTime :=
        Nat.not_le.mp fun hnew => hnot ⟨b, hb, hh, hneed, hbad, hnew⟩
      obtain ⟨-, b', hb', ⟨hd, -⟩ | ⟨-, hc⟩ | ⟨hr, -⟩⟩ := passStep_again hs
      all_goals cases hb.symm.trans hb'
      · exact absurd (hd.2.1.symm.trans hh.2.1) (by decide)
      · have hout := @commitStep_scan j b (s.afterRead j) hneed
        rw [hc] at hout
        cases hout with
        | fails hbad' hnew failed => exact absurd hnew (Nat.not_le.mpr hold)
        | passed hgood hv hend failed => exact absurd (hgood.symm.trans hbad) Bool.false_ne_true
        | next hgood hlook => exact absurd (hgood.symm.trans hbad) Bool.false_ne_true
      · exact absurd (hr.2.1.symm.trans hh.2.1) (by decide)
    have hv : VerdictIs s.nextCommitID u := by
      obtain ⟨hend, hid⟩ := scan_round hs
      refine ⟨?_, fun h0 => ?_⟩
      · rcases hend with ⟨-, hend⟩ | ⟨hnot, -⟩
        · exact hend
        · exact absurd hsets hnot
      · rcases hid with ⟨hadv, -⟩ | ⟨-, hid⟩
        · exact absurd hadv ((hk s Relation.ReflTransGen.refl).2 h0)
        · exact hid.trans h0
    obtain ⟨v, hreach, hlast⟩ := Loop.exists_last_of_leaves
      (Loop.leaves_of_reach_start (Relation.ReflTransGen.single hs) hls)
    have hve := hv.reach hreach fun x hx => hk x (Relation.ReflTransGen.head hs hx)
    rw [recordEnd_scan hlast]
    split
    · next hz => exact (hve.2 (hve.1.symm.trans hz)).trans (hve.1.symm.trans hz).symm
    · exact hve.1

/-! ### A verdict that was overruled -/

/-- Each of `k` ids from `t` on is that of a block of the journal. -/
def IdsPassed (j : Journal) (t k : ℕ) : Prop :=
  ∀ i < k, ∃ off < j.jTotalLen, ∃ b, j.jDev off = some b ∧ hSequence b = tidAt t i

/-- There are no more ids than blocks. -/
theorem IdsPassed.lt {j : Journal} {t k : ℕ} (h : IdsPassed j t k) (hsmall : j.jTotalLen < 2 ^ 31) :
    k < 2 ^ 31 := by
  by_contra hk
  have hdown : ∀ i < 2 ^ 31, ∃ off, off < j.jTotalLen ∧ ∃ b, j.jDev off = some b ∧
      hSequence b = tidAt t i := fun i hi => h i (by omega)
  choose! off hoff b hdev hseq using hdown
  have hinj : Set.InjOn off (Finset.range (2 ^ 31)) := by
    intro x hx y hy heq
    rw [Finset.mem_coe, Finset.mem_range] at hx hy
    have hb : b x = b y := Option.some.inj ((hdev x hx).symm.trans (heq ▸ hdev y hy))
    have hid : tidAt t x = tidAt t y := (hseq x hx).symm.trans (hb ▸ hseq y hy)
    simp only [tidAt] at hid
    omega
  have hcard := Finset.card_le_card_of_injOn off
    (fun x hx => Finset.mem_range.mpr (hoff x (Finset.mem_range.mp hx))) hinj
  rw [Finset.card_range, Finset.card_range] at hcard
  omega

/-- The scan is `lo` ids or more after `t`, and so is the verdict if it is set. -/
def Past (j : Journal) (t lo : ℕ) (s : PassState) : Prop :=
  ∃ k, lo ≤ k ∧ IdsPassed j t k ∧ s.nextCommitID = tidAt t k ∧
    (s.info.endTransaction = 0 ∨ ∃ m, lo ≤ m ∧ m ≤ k ∧ s.info.endTransaction = tidAt t m)

section Overruled

variable {j : Journal} {s s' : PassState} {t lo k : ℕ}

/-- A step to the next id passes the id of a block. -/
theorem IdsPassed.advance (h : IdsPassed j t k) (hid : s.nextCommitID = tidAt t k)
    (hadv : CommitAdvances j s) : IdsPassed j t (k + 1) := by
  intro i hi
  rcases Nat.lt_succ_iff_lt_or_eq.mp hi with hlt | rfl
  · exact h i hlt
  · obtain ⟨b, hb, hh, -⟩ := hadv
    obtain ⟨hlen, hdev⟩ := jread_ok hb
    exact ⟨_, hlen, b, hdev, hh.2.2.trans hid⟩

/-- Where a round takes the scan and the verdict. -/
theorem IdsPassed.round (h : IdsPassed j t k) (hid : s.nextCommitID = tidAt t k)
    (hr : Loop.Round (passStep j .scan) s s') :
    ∃ k', k ≤ k' ∧ IdsPassed j t k' ∧ s'.nextCommitID = tidAt t k' ∧
      (CommitAdvances j s → k' = k + 1) := by
  rcases (scan_round hr).2 with ⟨hadv, hid'⟩ | ⟨hnot, hid'⟩
  · refine ⟨k + 1, Nat.le_succ k, h.advance hid hadv, ?_, fun _ => rfl⟩
    rw [hid', hid, tidSucc_tidAt]
  · exact ⟨k, le_rfl, h, hid'.trans hid, fun hadv => absurd hadv hnot⟩

theorem Past.round (h : Past j t lo s) (hr : Loop.Round (passStep j .scan) s s') :
    Past j t lo s' := by
  obtain ⟨k, hlo, hpassed, hid, hend⟩ := h
  obtain ⟨k', hk, hpassed', hid', -⟩ := hpassed.round hid hr
  refine ⟨k', hlo.trans hk, hpassed', hid', ?_⟩
  rcases (scan_round hr).1 with ⟨-, hset⟩ | ⟨-, hkept⟩
  · exact Or.inr ⟨k, hlo, hk, hset.trans hid⟩
  · rw [hkept]
    exact hend.imp_right fun ⟨m, hm, hmk, heq⟩ => ⟨m, hm, hmk.trans hk, heq⟩

/-- **A round that overrules the verdict** takes the scan or the verdict past it. -/
theorem Past.overruled (ht : t < 2 ^ 32) (h : Past j t 0 s) (hnot : ¬KeepsVerdict j t s) :
    ∃ s', Loop.Round (passStep j .scan) s s' ∧ Past j t 1 s' := by
  obtain ⟨k, -, hpassed, hid, hend⟩ := h
  have hwhich : CommitSets j s ∧ s.nextCommitID ≠ t ∨ t = 0 ∧ CommitAdvances j s := by
    rw [KeepsVerdict, not_and_or] at hnot
    rcases hnot with hnot | hnot
    · exact Or.inl (Classical.not_imp.mp hnot)
    · obtain ⟨h0, hadv⟩ := Classical.not_imp.mp hnot
      exact Or.inr ⟨h0, not_not.mp hadv⟩
  obtain ⟨s', hr⟩ := round_of_commit (hwhich.imp And.left And.right)
  obtain ⟨k', hk, hpassed', hid', hadv'⟩ := hpassed.round hid hr
  refine ⟨s', hr, k', ?_, hpassed', hid', ?_⟩
  · rcases hwhich with ⟨-, hne⟩ | ⟨-, hadv⟩
    · have : k ≠ 0 := fun h0 => hne (by rw [hid, h0, tidAt_zero ht])
      omega
    · rw [hadv' hadv]
      exact Nat.le_add_left 1 k
  · -- an id of index 0 is `t`, which is 0 where it is not overruled by another one
    have hindex : ∀ m ≤ k, s'.info.endTransaction = tidAt t m → (m = 0 → t = 0) →
        s'.info.endTransaction = 0 ∨
          ∃ m, 1 ≤ m ∧ m ≤ k' ∧ s'.info.endTransaction = tidAt t m := by
      intro m hm heq hzero
      rcases Nat.eq_zero_or_pos m with h0 | hpos
      · refine Or.inl ?_
        rw [heq, h0, tidAt_zero ht, hzero h0]
      · exact Or.inr ⟨m, hpos, hm.trans hk, heq⟩
    rcases (scan_round hr).1 with ⟨-, hset⟩ | ⟨hkeeps, hkept⟩
    · refine hindex k le_rfl (hset.trans hid) fun h0 => ?_
      rcases hwhich with ⟨-, hne⟩ | ⟨hzero, -⟩
      · exact absurd (by rw [hid, h0, tidAt_zero ht]) hne
      · exact hzero
    · rcases hwhich with ⟨hsets, -⟩ | ⟨hzero, -⟩
      · exact absurd hsets hkeeps
      · rcases hend with hend | ⟨m, -, hm, hend⟩
        · exact Or.inl (hkept.trans hend)
        · exact hindex m hm (hkept.trans hend) fun _ => hzero

/-- A scan that ends past `t` leaves a verdict after `t`. -/
theorem Past.recordEnd {e : PassState} (ht : t < 2 ^ 32) (hsmall : j.jTotalLen < 2 ^ 31)
    (h : Past j t 1 s) (hdone : passStep j .scan s = .inr (.done e)) :
    tidGt (recordEnd .scan e).info.endTransaction t = true := by
  obtain ⟨k, hk, hpassed, hid, hend⟩ := h
  have hlt := hpassed.lt hsmall
  have hafter : ∀ m, 1 ≤ m → m ≤ k → tidGt (tidAt t m) t = true := by
    intro m hm hmk
    have := (tidGt_tidAt (t := t) (a := m) (b := 0) (by omega) (by norm_num)).mpr (by omega)
    rwa [tidAt_zero ht] at this
  rw [recordEnd_scan hdone]
  split
  · rw [hid]
    exact hafter k hk le_rfl
  · next hne =>
    obtain ⟨m, hm, hmk, heq⟩ := hend.resolve_left hne
    rw [heq]
    exact hafter m hm hmk

/-- **A verdict that is overruled once** ends up after the first failure. -/
theorem FirstFailure.keeps {s₀ e : PassState} (hf : FirstFailure j s₀ s)
    (h0 : s₀.info.endTransaction = 0) (hsmall : j.jTotalLen < 2 ^ 31)
    (hl : Loop.Leaves (passStep j .scan) s₀ (.done e))
    (hend : tidGt (E2fsprogs.recordEnd .scan e).info.endTransaction s.nextCommitID = false) :
    ∀ u, Loop.Reach (passStep j .scan) s u → KeepsVerdict j s.nextCommitID u := by
  intro u hu
  by_contra hnot
  obtain ⟨b, hb, hh, -⟩ := hf.fails
  have ht : s.nextCommitID < 2 ^ 32 := hh.2.2 ▸ getBe4_lt b 8
  have hstart : Past j s.nextCommitID 0 s :=
    ⟨0, le_rfl, fun i hi => absurd hi (Nat.not_lt_zero i), (tidAt_zero ht).symm,
      Or.inl (endTransaction_of_no_failure hf.reach h0 hf.first)⟩
  have hpast : Past j s.nextCommitID 0 u :=
    Loop.invariant (P := Past j s.nextCommitID 0) (fun _ _ ha hab => ha.round hab) hu hstart
  obtain ⟨v, huv, hv⟩ := hpast.overruled ht hnot
  have hlv := Loop.leaves_of_reach_start ((hf.reach.trans hu).tail huv) hl
  obtain ⟨w, hvw, hlast⟩ := Loop.exists_last_of_leaves hlv
  have hw : Past j s.nextCommitID 1 w :=
    Loop.invariant (P := Past j s.nextCommitID 1) (fun _ _ ha hab => ha.round hab) hvw hv
  exact absurd ((hw.recordEnd ht hsmall hlast).symm.trans hend) (by decide)

end Overruled

/-! ### What the later passes do with the verdict -/

/-- `end_transaction` is `t`, and only blocks of transactions before `t` have been
written. -/
def WritesBefore (t : ℕ) (s : PassState) : Prop :=
  s.info.endTransaction = t ∧ ∀ w ∈ s.fsWrites, tidGeq w.1 t = false

section Later

variable {j : Journal} {pass : PassType} {b : Block} {s : PassState} {t : ℕ}

theorem commitStep_fsWrites : (PassStep.state (commitStep j pass b s)).fsWrites = s.fsWrites := by
  obtain ⟨id, crc, time, info, failed, h⟩ := commitStep_frame j pass b s
  rw [h]

theorem commitStep_endTransaction (hp : pass ≠ .scan) :
    (PassStep.state (commitStep j pass b s)).info = s.info := by
  unfold commitStep
  split
  · split <;> rfl
  · rw [if_neg fun h => hp h.1, if_neg fun h => hp h.1]
    rfl

/-- A tag writes at most a block of the transaction being replayed. -/
theorem WritesBefore.replayTag (h : WritesBefore t s) (hid : tidGeq s.nextCommitID t = false)
    (tagp : ℕ) : WritesBefore t (E2fsprogs.replayTag j b tagp s) ∧
      (E2fsprogs.replayTag j b tagp s).nextCommitID = s.nextCommitID := by
  unfold E2fsprogs.replayTag
  dsimp only
  split
  · exact ⟨h, rfl⟩
  · split
    · exact ⟨h, rfl⟩
    · split
      · exact ⟨h, rfl⟩
      · refine ⟨⟨h.1, fun w hw => ?_⟩, rfl⟩
        rcases List.mem_cons.mp hw with rfl | hw
        · exact hid
        · exact h.2 w hw

theorem WritesBefore.replayTags : ∀ (fuel tagp : ℕ) {s : PassState}, WritesBefore t s →
    tidGeq s.nextCommitID t = false → WritesBefore t (replayTagsFrom j b fuel tagp s) := by
  intro fuel
  induction fuel with
  | zero => intro tagp s h _; exact h
  | succ fuel ih =>
    intro tagp s h hid
    obtain ⟨h', hid'⟩ := h.replayTag (j := j) (b := b) hid tagp
    rw [replayTagsFrom]
    split
    · dsimp only
      split
      · exact h'
      · exact ih _ h' (by rw [hid']; exact hid)
    · exact h

theorem scanRevokeRecords_frame {sequence : ℕ} {s' : PassState}
    (h : scanRevokeRecords j b sequence s = .ok s') :
    s'.info.endTransaction = s.info.endTransaction ∧ s'.fsWrites = s.fsWrites := by
  rw [scanRevokeRecords] at h
  split at h
  · cases h
  · cases h
    generalize revokeRecords j.features b (rCount b) = blks
    induction blks generalizing s with
    | nil => exact ⟨rfl, rfl⟩
    | cons blk blks ih => exact ih

/-- **The later passes write blocks of transactions before `end_transaction` only.** -/
theorem WritesBefore.passStep (hp : pass ≠ .scan) (h : WritesBefore t s) :
    WritesBefore t (PassStep.state (passStep j pass s)) := by
  by_cases hgo : GoesOn pass s
  · have hid : tidGeq s.nextCommitID t = false := by
      rcases hgo with hgo | hgo
      · exact absurd hgo hp
      · rwa [h.1] at hgo
    cases hb : jread j s.nextLogBlock with
    | error err =>
      rw [passStep_of_error hgo hb]
      exact h
    | ok b =>
      have hafter : WritesBefore t (s.afterRead j) := h
      -- the header is a descriptor, a commit block, a revoke block or none of them
      rcases passStep_cases hgo hb with ⟨-, he⟩ | ⟨-, he⟩ | ⟨-, he⟩ | ⟨-, he⟩
      · rw [he]
        cases pass with
        | scan => exact absurd rfl hp
        | revoke =>
          rw [descriptorStep_revoke]
          split <;> exact hafter
        | replay =>
          rw [descriptorStep_replay]
          split
          · exact hafter.replayTags _ _ hid
          · exact hafter
      · rw [he]
        refine ⟨?_, ?_⟩
        · rw [commitStep_endTransaction hp]
          exact h.1
        · rw [commitStep_fsWrites]
          exact h.2
      · rw [he]
        cases pass with
        | scan => exact absurd rfl hp
        | revoke =>
          rw [revokeStep_revoke]
          split
          · exact hafter
          · next s' hs =>
            obtain ⟨h1, h2⟩ := scanRevokeRecords_frame hs
            refine ⟨h1.trans h.1, ?_⟩
            rw [PassStep.state, h2]
            exact h.2
        | replay =>
          rw [revokeStep_replay]
          exact hafter
      · rw [he]
        exact hafter
  · rw [passStep_of_guard hgo]
    exact h

end Later

/-! ### Recovery as a whole -/

section Recover

variable {j : Journal} {fc : Option FcCallback} {s s' : PassState} {t : ℕ}

theorem scan_fsWrites : (PassStep.state (passStep j .scan s)).fsWrites = s.fsWrites := by
  have hgo : GoesOn .scan s := Or.inl rfl
  cases hb : jread j s.nextLogBlock with
  | error err => rw [passStep_of_error hgo hb]; rfl
  | ok b =>
    rcases passStep_cases hgo hb with ⟨-, he⟩ | ⟨-, he⟩ | ⟨-, he⟩ | ⟨-, he⟩
    · obtain ⟨blk, crc, rs, need, hd⟩ := descriptorStep_scan j b (s.afterRead j)
      rw [he, hd]
      rfl
    · rw [he, commitStep_fsWrites]
      rfl
    · obtain ⟨need, hr⟩ := revokeStep_scan j b (s.afterRead j)
      rw [he, hr]
      rfl
    · rw [he]
      rfl

/-- What every round keeps, the state a pass leaves its loop in keeps. -/
theorem state_of_leaves {pass : PassType} {P : PassState → Prop}
    (hP : ∀ s, P s → P (PassStep.state (passStep j pass s))) {e : PassEnd}
    (hl : Loop.Leaves (passStep j pass) s e) (hs : P s) : P (PassStep.state (.inr e)) := by
  obtain ⟨u, hreach, hlast⟩ := Loop.exists_last_of_leaves hl
  have hu : P u := Loop.invariant (fun a b ha hab => by
    have := hP a ha
    rwa [show passStep j pass a = .inl b from hab] at this) hreach hs
  have := hP u hu
  rwa [hlast] at this

theorem fastCommitPass_frame {pass : PassType} :
    (fastCommitPass j fc pass s).fsWrites = s.fsWrites ∧
      (fastCommitPass j fc pass s).info = s.info := by
  rw [fastCommitPass]
  split
  · cases fc with
    | none => exact ⟨rfl, rfl⟩
    | some cb =>
      rw [fcDoOnePass]
      dsimp only
      split
      · next heq =>
        obtain ⟨-, rfl⟩ := Prod.mk.inj heq
        exact ⟨rfl, rfl⟩
      · next heq =>
        obtain ⟨-, rfl⟩ := Prod.mk.inj heq
        exact ⟨rfl, rfl⟩
  · exact ⟨rfl, rfl⟩

/-- The end of a pass touches neither what has been written nor, but in `PASS_SCAN`,
the verdict. -/
theorem endPass_frame (pass : PassType) (e : PassEnd) :
    (endPass j fc pass e).2.fsWrites = (PassStep.state (.inr e)).fsWrites ∧
    (pass ≠ .scan →
      (endPass j fc pass e).2.info = (PassStep.state (.inr e)).info) := by
  cases e with
  | failed err s => exact ⟨rfl, fun _ => rfl⟩
  | done s =>
    have hrec : (recordEnd pass s).fsWrites = s.fsWrites ∧
        (pass ≠ .scan → (recordEnd pass s).info = s.info) := by
      rw [recordEnd]
      split
      · next hp => exact ⟨by split <;> rfl, fun h => absurd hp h⟩
      · exact ⟨by split <;> rfl, fun _ => by split <;> rfl⟩
    exact ⟨fastCommitPass_frame.1.trans hrec.1, fun hp => fastCommitPass_frame.2.trans (hrec.2 hp)⟩

/-- A later pass, run from a state whose verdict is `t`. -/
theorem WritesBefore.doOnePass {pass : PassType} (hp : pass ≠ .scan) (h : WritesBefore t s)
    {fuel : ℕ} {err : Option Errno} (hrun : doOnePass j fc fuel pass s = some (err, s')) :
    WritesBefore t s' := by
  rw [E2fsprogs.doOnePass, Option.map_eq_some_iff] at hrun
  obtain ⟨e, he, hend⟩ := hrun
  have hstart : WritesBefore t (startPass j pass s) := by
    rw [WritesBefore, startPass, if_neg hp]
    exact h
  have hlast := state_of_leaves (fun s hs => hs.passStep hp) ⟨fuel, he⟩ hstart
  obtain ⟨h1, h2⟩ := @endPass_frame j fc pass e
  rw [hend] at h1 h2
  refine ⟨(congrArg _ (h2 hp)).trans hlast.1, ?_⟩
  rw [show s'.fsWrites = _ from h1]
  exact hlast.2

/-- **No transaction at or after the first bad commit block is replayed**, if no later
round overrules it. When the commit block of `t` is the first whose checksum fails,
`PASS_SCAN` succeeds, and each round from there on leaves the verdict alone, then
`end_transaction` is `t`, and whatever recovery writes belongs to transactions before
`t`. In a journal of fewer than `2 ^ 31` blocks, where ids do not come round, a verdict that
is overruled once is after `t` in the end. -/
theorem firstFailure_decides {fsDev : ℕ → Block} {e s₁ : PassState}
    (hf : FirstFailure j (startPass j .scan (recoverStart fsDev)) s)
    (hl : Loop.Leaves (passStep j .scan) (startPass j .scan (recoverStart fsDev)) (.done e))
    (hok : endPass j fc .scan (.done e) = (none, s₁)) :
    ((∀ u, Loop.Reach (passStep j .scan) s u → KeepsVerdict j s.nextCommitID u) →
      s₁.info.endTransaction = s.nextCommitID ∧
      ∀ fuel err id r, jbd2JournalRecover j fc fuel fsDev = some (err, id, r) →
        ∀ w ∈ r.fsWrites, tidGeq w.1 s.nextCommitID = false) ∧
    (j.jTotalLen < 2 ^ 31 → tidGt s₁.info.endTransaction s.nextCommitID = false →
      ∀ u, Loop.Reach (passStep j .scan) s u → KeepsVerdict j s.nextCommitID u) := by
  have hs₁ : s₁ = fastCommitPass j fc .scan (recordEnd .scan e) := (congrArg Prod.snd hok).symm
  have hverdict : s₁.info.endTransaction = (recordEnd .scan e).info.endTransaction := by
    rw [hs₁, fastCommitPass_frame.2]
  refine ⟨fun hkeep => ?_, fun hsmall hend => hf.keeps rfl hsmall hl (hverdict ▸ hend)⟩
  have hend : s₁.info.endTransaction = s.nextCommitID :=
    hverdict.trans (hf.endTransaction_eq rfl hkeep hl)
  -- the scan itself writes nothing
  have hwrites : s₁.fsWrites = [] := by
    have hlast := state_of_leaves (P := fun s => s.fsWrites = [])
      (fun s hs => scan_fsWrites.trans hs) hl rfl
    have hframe := (@endPass_frame j fc .scan (.done e)).1
    rw [hok] at hframe
    exact hframe.trans hlast
  have hbefore : WritesBefore s.nextCommitID s₁ := ⟨hend, by simp [hwrites]⟩
  refine ⟨hend, fun fuel err id r hrec => ?_⟩
  rw [jbd2JournalRecover] at hrec
  split at hrec
  · cases hrec
    simp [recoverStart]
  · rw [Option.map_eq_some_iff] at hrec
    obtain ⟨⟨err', s₃⟩, hpasses, hr⟩ := hrec
    cases hr
    change ∀ w ∈ s₃.fsWrites, _
    rw [recoverPasses, Option.bind_eq_bind, Option.bind_eq_some_iff] at hpasses
    obtain ⟨⟨errScan, sScan⟩, hscan, hpasses⟩ := hpasses
    -- the pass that ran is the one of the hypothesis, as its result is unique
    have hsame : (errScan, sScan) = (none, s₁) := by
      rw [doOnePass, Option.map_eq_some_iff] at hscan
      obtain ⟨e', he', hend'⟩ := hscan
      rw [← hend', Loop.leaves_unique ⟨fuel, he'⟩ hl, hok]
    cases hsame
    simp only [ne_eq, not_true_eq_false, if_false, Option.pure_def,
      Option.bind_eq_some_iff] at hpasses
    obtain ⟨⟨errRevoke, sRevoke⟩, hrevoke, hpasses⟩ := hpasses
    have hrevoked := hbefore.doOnePass (by decide) hrevoke
    dsimp only at hpasses
    split at hpasses
    · cases hpasses
      exact hrevoked.2
    · exact (hrevoked.doOnePass (by decide) hpasses).2

end Recover

/-! ### A verdict that is overruled, and one that is not -/

section BadCommit

variable {j : Journal} {s : PassState} {b : Block}

/-- A bad commit block without the whole-transaction checksum. -/
theorem passStep_badCommit (hb : jread j s.nextLogBlock = .ok b)
    (hh : HeaderIs b jbd2CommitBlock s.nextCommitID) (hneed : s.needCheckCommitTime = false)
    (hv1 : j.features.checksum = false) (hbad : jbd2CommitBlockCsumVerify j b = false)
    (htime : s.lastTransCommitTime ≤ hCommitSec b) :
    passStep j .scan s = .again
      (if j.features.asyncCommit then
        { s.afterRead j with
          info := { s.info with endTransaction := s.nextCommitID }
          lastTransCommitTime := hCommitSec b
          nextCommitID := tidSucc s.nextCommitID }
      else
        { s.afterRead j with
          info := { s.info with endTransaction := s.nextCommitID }
          jFailedCommit := s.nextCommitID }) := by
  have hgo : GoesOn .scan s := Or.inl rfl
  rcases passStep_cases hgo hb with ⟨hd, -⟩ | ⟨-, he⟩ | ⟨hr, -⟩ | ⟨hn, -⟩
  · exact absurd (hd.2.1.symm.trans hh.2.1) (by decide)
  · rw [he, commitStep, if_neg (by simp [PassState.afterRead, hneed]), if_neg (by simp [hv1]),
      if_pos ⟨rfl, by simp [hbad]⟩, chksumError]
    have htime' : ¬hCommitSec b < (s.afterRead j).lastTransCommitTime := Nat.not_lt.mpr htime
    rw [if_neg htime']
    cases j.features.asyncCommit <;> rfl
  · exact absurd (hr.2.1.symm.trans hh.2.1) (by decide)
  · exact absurd (Or.inr (Or.inl hh)) hn

theorem commitFails_of_bad (hb : jread j s.nextLogBlock = .ok b)
    (hh : HeaderIs b jbd2CommitBlock s.nextCommitID) (hneed : s.needCheckCommitTime = false)
    (hv1 : j.features.checksum = false) (hbad : jbd2CommitBlockCsumVerify j b = false) :
    CommitFails j s :=
  ⟨b, hb, hh, hneed, by simp [commitBad, hv1, hbad]⟩

/-- The start of a scan is its first failure if it is one. -/
theorem firstFailure_start {e : PassEnd} (h : CommitFails j s)
    (hl : Loop.Leaves (passStep j .scan) s e) : FirstFailure j s s :=
  ⟨Relation.ReflTransGen.refl, h, fun _ hu hback =>
    absurd (Relation.TransGen.trans_right hu hback) (Loop.not_transGen_self hl)⟩

end BadCommit

/-- A commit block whose checksum is off by one. -/
def wrongCommit (seed tid : ℕ) : Block :=
  let b := putHeader zeroBlock jbd2CommitBlock tid
  putBe b 16 4 (jbd2Chksum seed (bytesOf (putBe b 16 4 0) 1024) + 1)

theorem wrongCommit_verify {j : Journal} (hv : j.features.csumV2or3 = true)
    (hbs : j.jBlocksize = 1024) (hseed : j.jCsumSeed < 2 ^ 32) (tid : ℕ) :
    jbd2CommitBlockCsumVerify j (wrongCommit j.jCsumSeed tid) = false := by
  have hlt := ext2fsCrc32cLe_lt hseed
    (bytesOf (putBe (putHeader zeroBlock jbd2CommitBlock tid) 16 4 0) 1024)
  rw [jbd2CommitBlockCsumVerify, hv, hbs, wrongCommit, hChksum, getBe_putBe_mod, putBe_putBe]
  simp only [jbd2Chksum, Bool.not_true, Bool.false_eq_true, if_false, beq_eq_false_iff_ne]
  omega

theorem wrongCommit_header (seed : ℕ) {tid : ℕ} (h : tid < 256 ^ 4) :
    HeaderIs (wrongCommit seed tid) jbd2CommitBlock tid := by
  rw [HeaderIs, hMagic, hBlocktype, hSequence, wrongCommit, putHeader]
  simp (disch := omega) only [getBe_putBe_of_disjoint, getBe_putBe]
  exact ⟨getBe_putBe _ _ (by decide), getBe_putBe _ _ (by decide), trivial⟩

/-- A log that begins with `n` bad commit blocks, of the ids 1, 2, …, and goes on with
zeroes. -/
def wrongCommits (seed n : ℕ) : ℕ → Option Block := fun i =>
  if 1 ≤ i ∧ i ≤ n then some (wrongCommit seed i) else some zeroBlock

/-- A journal with such a log and the checksum of version 3 among its features. -/
def badCommits (n incompat : ℕ) : Journal :=
  sampleLoaded 0 incompat 1024 1
    (wrongCommits (ext2fsCrc32cLe allOnes32 (sUuid (sampleSuperblock 0 incompat 1024 1))) n)

theorem badCommits_jread {n incompat i : ℕ} (h1 : 1 ≤ i) (hn : i ≤ n) (hi : i < 1024)
    (hv : (sampleFeatures 0 incompat).csumV2or3 = true) :
    jread (badCommits n incompat) i =
      .ok (wrongCommit (badCommits n incompat).jCsumSeed i) := by
  have hseed : (badCommits n incompat).jCsumSeed =
      ext2fsCrc32cLe allOnes32 (sUuid (sampleSuperblock 0 incompat 1024 1)) := if_pos hv
  have hdev : (badCommits n incompat).jDev i =
      some (wrongCommit (badCommits n incompat).jCsumSeed i) := by
    rw [hseed]
    exact if_pos ⟨h1, hn⟩
  rw [jread_of_lt (by omega), hdev]
  exact if_neg (Nat.not_le.mpr hi)

theorem wrongCommit_sec (seed tid : ℕ) : hCommitSec (wrongCommit seed tid) = 0 := by
  rw [hCommitSec, wrongCommit, putHeader]
  simp (disch := omega) only [getBe_putBe_of_disjoint]
  decide

/-- A round of the scan of such a log, at the bad commit block `i`. -/
theorem badCommits_round (n incompat i : ℕ) (h1 : 1 ≤ i) (hn : i ≤ n) (hi : i < 1024)
    (hv : (sampleFeatures 0 incompat).csumV2or3 = true) {s : PassState}
    (hblk : s.nextLogBlock = i) (hid : s.nextCommitID = i) (hneed : s.needCheckCommitTime = false)
    (htime : s.lastTransCommitTime = 0) :
    CommitFails (badCommits n incompat) s ∧
    passStep (badCommits n incompat) .scan s = .again
      (if (sampleFeatures 0 incompat).asyncCommit then
        { s.afterRead (badCommits n incompat) with
          info := { s.info with endTransaction := i }
          lastTransCommitTime := 0
          nextCommitID := tidSucc i }
      else
        { s.afterRead (badCommits n incompat) with
          info := { s.info with endTransaction := i }
          jFailedCommit := i }) := by
  have hb : jread (badCommits n incompat) s.nextLogBlock =
      .ok (wrongCommit (badCommits n incompat).jCsumSeed i) := by
    rw [hblk]
    exact badCommits_jread h1 hn hi hv
  have hh : HeaderIs (wrongCommit (badCommits n incompat).jCsumSeed i) jbd2CommitBlock
      s.nextCommitID := by
    rw [hid]
    exact wrongCommit_header _ (by omega)
  have hseed : (badCommits n incompat).jCsumSeed < 2 ^ 32 := csumSeed_lt _ _
  have hbad := wrongCommit_verify (j := badCommits n incompat) hv rfl hseed i
  refine ⟨commitFails_of_bad hb hh hneed rfl hbad, ?_⟩
  rw [passStep_badCommit hb hh hneed rfl hbad (by rw [htime]; exact Nat.zero_le _),
    wrongCommit_sec, hid]
  rfl

/-- The round after the bad commit blocks. -/
theorem badCommits_stop (n incompat : ℕ) (hn : n < 1023) {s : PassState}
    (hblk : s.nextLogBlock = n + 1) : passStep (badCommits n incompat) .scan s =
      .finish (s.afterRead (badCommits n incompat)) := by
  have hb : jread (badCommits n incompat) s.nextLogBlock = .ok zeroBlock := by
    have hdev : (badCommits n incompat).jDev (n + 1) = some zeroBlock := if_neg (by omega)
    rw [hblk, jread_of_lt (by omega), hdev]
    exact if_neg (Nat.not_le.mpr (by omega : n + 1 < 1024))
  rw [passStep_of_read (Or.inl rfl) hb, if_pos (by decide)]

/-- What a scan returns whose verdict is set. -/
theorem endPass_scan_of_ne {j : Journal} {fc : Option FcCallback} {s : PassState}
    (hfc : j.features.fastCommit = false) (hend : s.info.endTransaction ≠ 0)
    (hs : s.success = none) (hb : s.blockError = false) :
    endPass j fc .scan (.done s) = (none, s) := by
  simp [endPass, fastCommitPass, recordEnd, hfc, hend, hs, hb]

/-- **A verdict that is overruled.** With asynchronous commits and two bad commit blocks
the first that fails is that of transaction 1, and `end_transaction` is 2. -/
theorem badCommits_overruled :
    ∃ ctx sb j, e2fsckJournalLoad ctx sb = .ok j ∧
      ∃ s e s₁, FirstFailure j (startPass j .scan (recoverStart fun _ => zeroBlock)) s ∧
        Loop.Leaves (passStep j .scan) (startPass j .scan (recoverStart fun _ => zeroBlock))
          (.done e) ∧
        endPass j none .scan (.done e) = (none, s₁) ∧
        tidGt s₁.info.endTransaction s.nextCommitID = true := by
  have hload : e2fsckJournalLoad (sampleContext 1024 (badCommits 2 0x14).jDev)
      (sampleSuperblock 0 0x14 1024 1) = .ok (badCommits 2 0x14) :=
    load_sampleSuperblock_plain (by norm_num) (by norm_num) (by norm_num) (by norm_num)
      (by decide) (by decide) (by decide) (by decide) _
  obtain ⟨hf₁, hr₁⟩ := badCommits_round 2 0x14 1 (by norm_num)
    (by norm_num) (by norm_num) (by decide)
    (s := startPass (badCommits 2 0x14) .scan (recoverStart fun _ => zeroBlock)) rfl rfl rfl rfl
  rw [if_pos (by decide)] at hr₁
  obtain ⟨-, hr₂⟩ := badCommits_round 2 0x14 2 (by norm_num)
    (by norm_num) (by norm_num) (by decide)
    (s := { (startPass (badCommits 2 0x14) .scan (recoverStart fun _ => zeroBlock)).afterRead
        (badCommits 2 0x14) with
      info := { startTransaction := 1, endTransaction := 1, nrReplays := 0, nrRevokes := 0,
                nrRevokeHits := 0 }
      lastTransCommitTime := 0
      nextCommitID := tidSucc 1 }) (by decide) (by decide) rfl rfl
  rw [if_pos (by decide)] at hr₂
  have hl := Loop.leaves_of_round hr₁ (Loop.leaves_of_round hr₂
    (Loop.leaves_of_inr (badCommits_stop 2 0x14 (by norm_num) (by decide))))
  exact ⟨_, _, badCommits 2 0x14, hload, _, _, _, firstFailure_start hf₁ hl, hl,
    endPass_scan_of_ne (by decide) (by decide) rfl rfl, by decide⟩

/-- **A verdict that stands**: one bad commit block. -/
theorem badCommits_decided :
    ∃ s₁ : PassState, s₁.info.endTransaction = 1 ∧
      ∀ fuel err id r,
        jbd2JournalRecover (badCommits 1 0x10) none fuel (fun _ => zeroBlock) = some (err, id, r) →
        ∀ w ∈ r.fsWrites, tidGeq w.1 1 = false := by
  obtain ⟨hf₁, hr₁⟩ := badCommits_round 1 0x10 1 (by norm_num)
    (by norm_num) (by norm_num) (by decide)
    (s := startPass (badCommits 1 0x10) .scan (recoverStart fun _ => zeroBlock)) rfl rfl rfl rfl
  rw [if_neg (by decide)] at hr₁
  have hstop := badCommits_stop 1 0x10 (by norm_num)
    (s := { (startPass (badCommits 1 0x10) .scan (recoverStart fun _ => zeroBlock)).afterRead
        (badCommits 1 0x10) with
      info := { startTransaction := 1, endTransaction := 1, nrReplays := 0, nrRevokes := 0,
                nrRevokeHits := 0 }
      jFailedCommit := 1 }) (by decide)
  have hl := Loop.leaves_of_round hr₁ (Loop.leaves_of_inr hstop)
  have hkeep : ∀ u, Loop.Reach (passStep (badCommits 1 0x10) .scan)
      (startPass (badCommits 1 0x10) .scan (recoverStart fun _ => zeroBlock)) u →
      KeepsVerdict (badCommits 1 0x10) 1 u := by
    intro u hu
    refine ⟨fun hfail => ?_, fun h => absurd h (by norm_num)⟩
    rcases Loop.eq_or_reach_of_round hr₁ hu with rfl | hu
    · rfl
    · rw [Loop.eq_of_reach_of_inr hstop hu]
      rfl
  exact ⟨_, (firstFailure_decides (firstFailure_start hf₁ hl) hl
    (endPass_scan_of_ne (by decide) (by decide) rfl rfl)).1 hkeep⟩

end E2fsprogs
