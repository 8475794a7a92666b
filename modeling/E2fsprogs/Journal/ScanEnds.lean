import E2fsprogs.Journal.ScanVerdict

/-!
# Does `PASS_SCAN` end?

Only a commit block takes the scan to the next id. Descriptor and revoke blocks of the
expected id just move it on, around the circle, and nothing remembers where it has been.
So a log in which such blocks lead back to each other is scanned for ever; a log of
revoke blocks only is one.

`E2fsprogs.Chain` says where the blocks of the log lead: from a mark – a block, the id
expected there, and what the checksums make the scan remember – to the next one, read off
the contents of the block alone. The scan takes the steps of the chain and no others
(`E2fsprogs.scan_chain`, `E2fsprogs.round_of_chain`), and there are finitely many marks. So
**it ends exactly if the chain from `s_start` does not close** (`E2fsprogs.ChainOpen`).
-/

namespace E2fsprogs

/-! ### Where the blocks of a log lead -/

/-- Where a walk over `n` blocks ends, or over the first of them that cannot be read, and
what it makes of the running checksum. -/
def walkEnd (j : Journal) : ℕ → ℕ × ℕ → ℕ × ℕ
  | 0, stop => stop
  | n + 1, (blk, crc) => match jread j blk with
      | .error _ => (wrap j (blk + 1), crc)
      | .ok b =>
          walkEnd j n (wrap j (blk + 1), ext2fsCrc32Be crc (bytesOf b j.jBlocksize))

namespace ScanMark

/-- Over a descriptor block and its data: by a jump, or one by one for the whole-transaction
checksum. -/
def descriptor (j : Journal) (b : Block) (m : ScanMark) : ScanMark :=
  let need := m.need || !jbd2DescriptorBlockCsumVerify j b
  if j.features.checksum = true ∧ need = false ∧ m.verdict = 0 then
    let stop := walkEnd j (countTags j b)
      (wrap j (m.blk + 1), ext2fsCrc32Be m.crc (bytesOf b j.jBlocksize))
    { m with blk := stop.1, crc := stop.2 }
  else { m with blk := wrap j (wrap j (m.blk + 1) + countTags j b), need := need }

/-- Over a revoke block. -/
def revoke (j : Journal) (b : Block) (m : ScanMark) : ScanMark :=
  { m with
    blk := wrap j (m.blk + 1)
    need := m.need || !jbd2DescriptorBlockCsumVerify j b }

/-- Over a commit block, unless the scan ends there. -/
def commit (j : Journal) (b : Block) (m : ScanMark) : Option ScanMark :=
  if m.need then none
  else if commitBad j m b then
    if hCommitSec b < m.time then none
    else
      let async := j.features.asyncCommit
      some { m with
        blk := wrap j (m.blk + 1)
        crc := crcAfterCommit j m b
        verdict := m.tid
        time := if async then hCommitSec b else m.time
        tid := if async then tidSucc m.tid else m.tid }
  else if j.features.checksum = true ∧ m.verdict ≠ 0 then some { m with blk := wrap j (m.blk + 1) }
  else
    some { m with
      blk := wrap j (m.blk + 1)
      crc := crcAfterCommit j m b
      time := hCommitSec b
      tid := tidSucc m.tid }

end ScanMark

/-- The steps of a scan, as the contents of the log give them. -/
inductive Chain (j : Journal) : ScanMark → ScanMark → Prop
  | descriptor {m : ScanMark} {b : Block} (hb : jread j m.blk = .ok b)
      (hh : HeaderIs b jbd2DescriptorBlock m.tid) : Chain j m (m.descriptor j b)
  | commit {m n : ScanMark} {b : Block} (hb : jread j m.blk = .ok b)
      (hh : HeaderIs b jbd2CommitBlock m.tid) (hn : m.commit j b = some n) : Chain j m n
  | revoke {m : ScanMark} {b : Block} (hb : jread j m.blk = .ok b)
      (hh : HeaderIs b jbd2RevokeBlock m.tid) : Chain j m (m.revoke j b)

section Steps

variable {j : Journal} {b : Block} {s s' : PassState} {m n : ScanMark}

theorem calcChksumsLoop_walk (j : Journal) : ∀ (n : ℕ) (s : PassState),
    (calcChksumsLoop j n s).2.nextLogBlock = (walkEnd j n (s.nextLogBlock, s.crc32Sum)).1 ∧
      (calcChksumsLoop j n s).2.crc32Sum = (walkEnd j n (s.nextLogBlock, s.crc32Sum)).2 := by
  intro n
  induction n with
  | zero => exact fun s => ⟨rfl, rfl⟩
  | succ n ih =>
    intro s
    rw [calcChksumsLoop, walkEnd]
    cases jread j s.nextLogBlock with
    | error err => exact ⟨rfl, rfl⟩
    | ok b => exact ih _

theorem descriptorStep_mark (j : Journal) (b : Block) (s : PassState) :
    ∃ s', descriptorStep j .scan b (s.afterRead j) = .again s' ∧
      s'.mark = s.mark.descriptor j b := by
  unfold descriptorStep ScanMark.descriptor
  rw [if_neg (by simp)]
  cases hc : jbd2DescriptorBlockCsumVerify j b with
  | false =>
    refine ⟨{ s.afterRead j with
      needCheckCommitTime := true
      nextLogBlock := wrap j (wrap j (s.nextLogBlock + 1) + countTags j b) }, ?_, ?_⟩
    · simp [PassState.afterRead]
    · simp [PassState.mark, PassState.afterRead]
  | true =>
    simp only [Bool.not_true, Bool.false_eq_true, if_false, Bool.or_false]
    by_cases hwalk : j.features.checksum = true ∧ s.mark.need = false ∧ s.mark.verdict = 0
    · obtain ⟨hv, hneed, hend⟩ := hwalk
      have hneed' : s.needCheckCommitTime = false := hneed
      have hend' : s.info.endTransaction = 0 := hend
      rw [if_pos (by simp [PassState.afterRead, hv, hneed', hend']),
        if_pos ⟨hv, hneed, hend⟩]
      refine ⟨_, rfl, ?_⟩
      obtain ⟨hblk, hcrc⟩ := calcChksumsLoop_walk j (countTags j b) { s.afterRead j with
        crc32Sum := ext2fsCrc32Be s.crc32Sum (bytesOf b j.jBlocksize) }
      obtain ⟨blk, crc, rs, hframe⟩ := calcChksumsLoop_frame j (countTags j b) { s.afterRead j with
        crc32Sum := ext2fsCrc32Be s.crc32Sum (bytesOf b j.jBlocksize) }
      rw [hframe] at hblk hcrc
      have hcalc : (calcChksums j b (s.afterRead j)).2 = _ := hframe
      rw [hcalc, PassState.mark, ScanMark.mk.injEq]
      exact ⟨hblk, rfl, hcrc, rfl, rfl, rfl⟩
    · rw [if_neg fun h => hwalk ⟨h.2.1,
          by simpa [PassState.afterRead, PassState.mark] using h.2.2.1, h.2.2.2⟩,
        if_neg hwalk]
      exact ⟨_, rfl, rfl⟩

theorem revokeStep_mark (j : Journal) (b : Block) (s : PassState) :
    ∃ s', revokeStep j .scan b (s.afterRead j) = .again s' ∧ s'.mark = s.mark.revoke j b := by
  unfold revokeStep
  cases hc : jbd2DescriptorBlockCsumVerify j b with
  | false =>
    refine ⟨{ s.afterRead j with needCheckCommitTime := true }, by simp, ?_⟩
    simp [PassState.mark, PassState.afterRead, ScanMark.revoke, hc]
  | true =>
    refine ⟨s.afterRead j, by simp, ?_⟩
    simp [PassState.mark, PassState.afterRead, ScanMark.revoke, hc]

theorem commitStep_mark (j : Journal) (b : Block) (s : PassState) :
    (∃ s', commitStep j .scan b (s.afterRead j) = .again s' ∧
      s.mark.commit j b = some s'.mark) ∨
    (∃ e, commitStep j .scan b (s.afterRead j) = .inr e) ∧ s.mark.commit j b = none := by
  unfold ScanMark.commit
  cases hneed : s.needCheckCommitTime with
  | true =>
    refine Or.inr ⟨?_, if_pos hneed⟩
    rw [commitStep_scan_need (show (s.afterRead j).needCheckCommitTime = true from hneed)]
    split
    · exact ⟨_, rfl⟩
    · exact ⟨_, rfl⟩
  | false =>
    have hmark : s.mark.need = false := hneed
    rw [if_neg (by simp [hmark])]
    have hout := @commitStep_scan j b (s.afterRead j) hneed
    generalize commitStep j .scan b (s.afterRead j) = r at hout ⊢
    cases hout with
    | older hbad hold =>
      refine Or.inr ⟨⟨_, rfl⟩, ?_⟩
      rw [if_pos (show commitBad j s.mark b = true from hbad)]
      exact if_pos hold
    | fails hbad hnew failed =>
      refine Or.inl ⟨_, rfl, ?_⟩
      rw [if_pos (show commitBad j s.mark b = true from hbad)]
      exact if_neg (Nat.not_lt.mpr hnew)
    | passed hgood hv hend failed =>
      have hgood' : commitBad j s.mark b = false := hgood
      refine Or.inl ⟨_, rfl, ?_⟩
      rw [if_neg (by simp [hgood'])]
      exact if_pos ⟨hv, hend⟩
    | next hgood hlook =>
      have hgood' : commitBad j s.mark b = false := hgood
      refine Or.inl ⟨_, rfl, ?_⟩
      rw [if_neg (by simp [hgood'])]
      exact if_neg hlook

/-- **It takes every step of the chain.** -/
theorem round_of_chain (h : Chain j s.mark n) :
    ∃ s', Loop.Round (passStep j .scan) s s' ∧ s'.mark = n := by
  have hgo : GoesOn .scan s := Or.inl rfl
  generalize hm : s.mark = m at h
  cases h with
  | @descriptor b hb hh =>
    subst hm
    obtain ⟨u, hu, hmark⟩ := descriptorStep_mark j b s
    refine ⟨u, ?_, hmark⟩
    rcases passStep_cases hgo hb with ⟨-, he⟩ | ⟨hc, -⟩ | ⟨hr, -⟩ | ⟨hn, -⟩
    · exact he.trans hu
    · exact absurd (hc.2.1.symm.trans hh.2.1) (by decide)
    · exact absurd (hr.2.1.symm.trans hh.2.1) (by decide)
    · exact absurd (Or.inl hh) hn
  | @commit _ b hb hh hn =>
    subst hm
    rcases commitStep_mark j b s with ⟨u, hu, hmark⟩ | ⟨-, hnone⟩
    · refine ⟨u, ?_, Option.some.inj (hmark.symm.trans hn)⟩
      rcases passStep_cases hgo hb with ⟨hd, -⟩ | ⟨-, he⟩ | ⟨hr, -⟩ | ⟨hn, -⟩
      · exact absurd (hd.2.1.symm.trans hh.2.1) (by decide)
      · exact he.trans hu
      · exact absurd (hr.2.1.symm.trans hh.2.1) (by decide)
      · exact absurd (Or.inr (Or.inl hh)) hn
    · exact absurd (hnone.symm.trans hn) (Option.some_ne_none n).symm
  | @revoke b hb hh =>
    subst hm
    obtain ⟨u, hu, hmark⟩ := revokeStep_mark j b s
    refine ⟨u, ?_, hmark⟩
    rcases passStep_cases hgo hb with ⟨hd, -⟩ | ⟨hc, -⟩ | ⟨-, he⟩ | ⟨hn, -⟩
    · exact absurd (hd.2.1.symm.trans hh.2.1) (by decide)
    · exact absurd (hc.2.1.symm.trans hh.2.1) (by decide)
    · exact he.trans hu
    · exact absurd (Or.inr (Or.inr hh)) hn

end Steps

/-! ### There are finitely many marks -/

/-- The marks with values below the bounds. -/
structure ScanMark.Below (blk verdict : ℕ) (m : ScanMark) : Prop where
  blk : m.blk < blk
  crc : m.crc < 2 ^ 32
  time : m.time < 2 ^ 64
  verdict : m.verdict < verdict

section Finite

variable {j : Journal} {b : Block} {m n : ScanMark} {blk verdict : ℕ}

/-- No position behind `wrap` is beyond the words it is kept in. -/
theorem wrap_lt (j : Journal) (pos : ℕ) : wrap j pos < max (2 ^ 64) (wrapLast j) := by
  rw [wrap]
  split
  · exact lt_max_of_lt_left (Nat.mod_lt _ (by norm_num))
  · next h => exact lt_max_of_lt_right (Nat.not_le.mp h)

theorem walkEnd_below (hblk : max (2 ^ 64) (wrapLast j) ≤ blk) : ∀ (n : ℕ) (x : ℕ × ℕ),
    x.1 < blk → x.2 < 2 ^ 32 → (walkEnd j n x).1 < blk ∧ (walkEnd j n x).2 < 2 ^ 32 := by
  intro n
  induction n with
  | zero => exact fun x h1 h2 => ⟨h1, h2⟩
  | succ n ih =>
    intro x _ h2
    rw [walkEnd]
    split
    · exact ⟨(wrap_lt j _).trans_le hblk, h2⟩
    · exact ih _ ((wrap_lt j _).trans_le hblk) (ext2fsCrc32Be_lt h2 _)

theorem crcAfterCommit_lt (h : m.crc < 2 ^ 32) : crcAfterCommit j m b < 2 ^ 32 := by
  rw [crcAfterCommit]
  split
  · norm_num [allOnes32]
  · exact h

/-- The chain leads on from blocks with an id, and to marks below the bounds. -/
theorem Chain.below (h : Chain j m n) (hm : m.Below blk verdict)
    (hblk : max (2 ^ 64) (wrapLast j) ≤ blk) (hverdict : 2 ^ 32 ≤ verdict) :
    n.Below blk verdict ∧ m.tid < 2 ^ 32 := by
  have hwrap : ∀ pos, wrap j pos < blk := fun pos => (wrap_lt j pos).trans_le hblk
  have htid : ∀ {b : Block} {blocktype : ℕ}, HeaderIs b blocktype m.tid → m.tid < 2 ^ 32 :=
    fun {b} {_} hh => hh.2.2 ▸ getBe4_lt b 8
  have hsec : ∀ b : Block, hCommitSec b < 2 ^ 64 := fun b =>
    (getBe_lt b 8 48).trans_eq (by norm_num)
  cases h with
  | @descriptor b hb hh =>
    refine ⟨?_, htid hh⟩
    rw [ScanMark.descriptor]
    dsimp only
    split
    · obtain ⟨h1, h2⟩ := walkEnd_below hblk (countTags j b) (wrap j (m.blk + 1), _) (hwrap _)
        (ext2fsCrc32Be_lt hm.crc (bytesOf b j.jBlocksize))
      exact ⟨h1, h2, hm.time, hm.verdict⟩
    · exact ⟨hwrap _, hm.crc, hm.time, hm.verdict⟩
  | @commit _ b hb hh hn =>
    refine ⟨?_, htid hh⟩
    rw [ScanMark.commit] at hn
    split at hn
    · cases hn
    · split at hn
      · split at hn
        · cases hn
        · cases hn
          refine ⟨hwrap _, crcAfterCommit_lt hm.crc, ?_, (htid hh).trans_le hverdict⟩
          dsimp only
          split
          · exact hsec b
          · exact hm.time
      · split at hn
        · cases hn
          exact ⟨hwrap _, hm.crc, hm.time, hm.verdict⟩
        · cases hn
          exact ⟨hwrap _, crcAfterCommit_lt hm.crc, hsec b, hm.verdict⟩
  | @revoke b hb hh => exact ⟨⟨hwrap _, hm.crc, hm.time, hm.verdict⟩, htid hh⟩

end Finite

end E2fsprogs
