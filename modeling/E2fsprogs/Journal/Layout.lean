import E2fsprogs.Journal.RevokeTable
import E2fsprogs.Journal.Round
import E2fsprogs.Lib.Ring

/-!
# A log that can be recovered, and what recovering it should do

What a journal is for, said without the code: a log is a sequence of
transactions (`E2fsprogs.LogTransaction`), each a sequence of descriptor blocks with
their data and of revoke blocks, ended by a commit block. What recovering it
should do is `E2fsprogs.replayedContent`: a file-system block gets the data of the
last tag for it that no revoke record of the same or a later transaction
suppresses.

`E2fsprogs.WellFormedLog` says that a journal holds such a log: the transactions
follow each other from `s_start` on around the circle `[j_first, j_last)`, the headers
carry consecutive ids, all checksums are right, and the block after the last commit
block does not go on.

The tags of a descriptor block are described by their offsets
(`E2fsprogs.tagOffsets`), a list that the two tag loops of the code both run along.
-/

namespace E2fsprogs

/-! ### Tags -/

/-- The offsets of the tags from `tagp` on, at most `fuel` of them. -/
def tagOffsetsFrom (f : Features) (size : ℕ) (b : Block) : ℕ → ℕ → List ℕ
  | 0, _ => []
  | fuel + 1, tagp =>
      if tagp + journalTagBytes f ≤ size then
        if hasFlag (tFlags b tagp) jbd2FlagLastTag then [tagp]
        else tagp :: tagOffsetsFrom f size b fuel (nextTagp f b tagp)
      else []

/-- The offsets of the tags of a descriptor block. -/
def tagOffsets (j : Journal) (b : Block) : List ℕ :=
  tagOffsetsFrom j.features (j.jBlocksize - descrCsumSize j.features) b j.jBlocksize
    journalHeaderSize

theorem countTagsFrom_eq (f : Features) (size : ℕ) (b : Block) :
    ∀ fuel tagp, countTagsFrom f size b fuel tagp = (tagOffsetsFrom f size b fuel tagp).length := by
  intro fuel
  induction fuel with
  | zero => intro tagp; rfl
  | succ fuel ih =>
    intro tagp
    simp only [countTagsFrom, tagOffsetsFrom]
    split
    · split
      · rfl
      · rw [ih, List.length_cons, Nat.add_comm]
    · rfl

/-- **`count_tags` counts the tags.** -/
theorem countTags_eq (j : Journal) (b : Block) : countTags j b = (tagOffsets j b).length :=
  countTagsFrom_eq _ _ _ _ _

theorem replayTagsFrom_eq (j : Journal) (b : Block) : ∀ fuel tagp s,
    replayTagsFrom j b fuel tagp s =
      (tagOffsetsFrom j.features (j.jBlocksize - descrCsumSize j.features) b fuel tagp).foldl
        (fun s tagp => replayTag j b tagp s) s := by
  intro fuel
  induction fuel with
  | zero => intro tagp s; rfl
  | succ fuel ih =>
    intro tagp s
    simp only [replayTagsFrom, tagOffsetsFrom]
    split
    · split
      · rfl
      · rw [ih, List.foldl_cons]
    · rfl

/-- **The replay loop runs along the same tags.** -/
theorem replayTags_eq (j : Journal) (b : Block) (s : PassState) :
    replayTagsFrom j b j.jBlocksize journalHeaderSize s =
      (tagOffsets j b).foldl (fun s tagp => replayTag j b tagp s) s :=
  replayTagsFrom_eq _ _ _ _ _

/-! ### Transactions -/

/-- A piece of a transaction in the log. -/
inductive LogPiece
  /-- A descriptor block and the data blocks its tags announce. -/
  | descriptor (bh : Block) (data : List Block)
  /-- A revoke block. -/
  | revoke (bh : Block)

/-- A complete transaction. -/
structure LogTransaction where
  /-- What comes before the commit block. -/
  pieces : List LogPiece
  /-- The commit block. -/
  commit : Block

/-- The log blocks of a piece, in order. -/
def LogPiece.blocks : LogPiece → List Block
  | .descriptor bh data => bh :: data
  | .revoke bh => [bh]

/-- The log blocks of a transaction, in order. -/
def LogTransaction.blocks (t : LogTransaction) : List Block :=
  t.pieces.flatMap LogPiece.blocks ++ [t.commit]

/-- The blocks a piece asks to write, in order: one for each tag. -/
def LogPiece.writes (j : Journal) : LogPiece → List (ℕ × Block)
  | .descriptor bh data => ((tagOffsets j bh).zip data).map fun (tagp, d) =>
      (readTagBlock j.features bh tagp, unescape (tFlags bh tagp) d)
  | .revoke _ => []

/-- The blocks a piece revokes. -/
def LogPiece.revokes (j : Journal) : LogPiece → List ℕ
  | .descriptor _ _ => []
  | .revoke bh => revokeRecords j.features bh (rCount bh)

/-- The blocks a transaction asks to write, in order. -/
def LogTransaction.writes (j : Journal) (t : LogTransaction) : List (ℕ × Block) :=
  t.pieces.flatMap (LogPiece.writes j)

/-- The blocks a transaction revokes. -/
def LogTransaction.revokes (j : Journal) (t : LogTransaction) : List ℕ :=
  t.pieces.flatMap (LogPiece.revokes j)

/-! ### What recovery is for -/

/-- The writes of a log that count: those of a block that neither their own
transaction nor a later one revokes. -/
def liveWrites (j : Journal) : List LogTransaction → List (ℕ × Block)
  | [] => []
  | t :: log =>
      (t.writes j).filter (fun w => decide (∀ u ∈ t :: log, w.1 ∉ u.revokes j)) ++ liveWrites j log

/-- **The content a block should have after recovery**: the data of the last write
of it that counts, or what it held before. -/
def replayedContent (j : Journal) (log : List LogTransaction) (fsDev : ℕ → Block) (b : ℕ) :
    Block :=
  match ((liveWrites j log).filter fun w => w.1 = b).getLast? with
  | some w => w.2
  | none => fsDev b

/-- Writing a list of blocks one after the other. -/
def applyWrites (fsDev : ℕ → Block) (ws : List (ℕ × Block)) : ℕ → Block :=
  ws.foldl (fun dev w => Function.update dev w.1 w.2) fsDev

theorem applyWrites_append (fsDev : ℕ → Block) (ws vs : List (ℕ × Block)) :
    applyWrites fsDev (ws ++ vs) = applyWrites (applyWrites fsDev ws) vs :=
  List.foldl_append

/-- After a list of writes a block holds the data of the last of them that is
for it. -/
theorem applyWrites_apply (fsDev : ℕ → Block) (ws : List (ℕ × Block)) (b : ℕ) :
    applyWrites fsDev ws b = match (ws.filter fun w => w.1 = b).getLast? with
      | some w => w.2
      | none => fsDev b := by
  induction ws using List.reverseRecOn with
  | nil => rfl
  | append_singleton ws w ih =>
    rw [applyWrites_append, List.filter_append]
    rcases eq_or_ne w.1 b with rfl | hne
    · simp [applyWrites]
    · have h1 : ([w].filter fun w => decide (w.1 = b)) = [] := by simp [hne]
      rw [h1, List.append_nil, ← ih]
      exact Function.update_of_ne hne.symm _ _

theorem replayedContent_eq (j : Journal) (log : List LogTransaction) (fsDev : ℕ → Block)
    (b : ℕ) : replayedContent j log fsDev b = applyWrites fsDev (liveWrites j log) b :=
  (applyWrites_apply _ _ _).symm

/-! ### Well-formed logs -/

/-- The blocks of a list, checksummed one after the other. -/
def crcBlocks (j : Journal) (crc : ℕ) (bs : List Block) : ℕ :=
  bs.foldl (fun c b => ext2fsCrc32Be c (bytesOf b j.jBlocksize)) crc

/-- The running whole-transaction checksum over a piece. -/
def LogPiece.crc (j : Journal) (crc : ℕ) : LogPiece → ℕ
  | .descriptor bh data => crcBlocks j crc (bh :: data)
  | .revoke _ => crc

/-- The whole-transaction checksum of a transaction: of its descriptor and data
blocks, in order. -/
def LogTransaction.crc (j : Journal) (t : LogTransaction) : ℕ :=
  t.pieces.foldl (fun c p => p.crc j c) allOnes32

/-- A piece of the transaction `tid`, with right checksums. -/
def LogPiece.Ok (j : Journal) (tid : ℕ) : LogPiece → Prop
  | .descriptor bh data =>
      HeaderIs bh jbd2DescriptorBlock tid ∧ jbd2DescriptorBlockCsumVerify j bh = true ∧
      (tagOffsets j bh).length = data.length ∧
      ∀ x ∈ (tagOffsets j bh).zip data, jbd2BlockTagCsumVerify j bh x.1 x.2 tid = true
  | .revoke bh =>
      HeaderIs bh jbd2RevokeBlock tid ∧ jbd2DescriptorBlockCsumVerify j bh = true ∧
      rCount bh ≤ j.jBlocksize - descrCsumSize j.features

/-- A complete transaction with the id `tid`, with right checksums. -/
structure LogTransaction.Ok (j : Journal) (tid : ℕ) (t : LogTransaction) : Prop where
  pieces : ∀ p ∈ t.pieces, p.Ok j tid
  commit : HeaderIs t.commit jbd2CommitBlock tid
  csum : jbd2CommitBlockCsumVerify j t.commit = true
  checksum : j.features.checksum = true → chksumMismatch (t.crc j) t.commit = false

/-- The index of the log block `k` steps after `s_start`. -/
def logPos (j : Journal) (k : ℕ) : ℕ := ringPos j.jFirst (j.jLast - j.jFirst) j.jTail k

/-- All blocks of a log, in order. -/
def logBlocks (log : List LogTransaction) : List Block := log.flatMap LogTransaction.blocks

/-- **A journal that holds the log `log`** and nothing after it. No tag names a block of the
journal itself: the log and the file system are kept apart. -/
structure WellFormedLog (j : Journal) (log : List LogTransaction) : Prop where
  fastCommit : j.features.fastCommit = false
  first_le : j.jFirst ≤ j.jTail
  tail_lt : j.jTail < j.jLast
  last_le : j.jLast ≤ j.jTotalLen
  total_lt : j.jTotalLen < 2 ^ 32
  seq_lt : j.jTailSequence < 2 ^ 32
  count : log.length < 2 ^ 31
  fits : (logBlocks log).length ≤ j.jLast - j.jFirst
  /-- The blocks lie one after the other around the circle. -/
  placed : ∀ k b, (logBlocks log)[k]? = some b → j.jDev (logPos j k) = some b
  /-- The transactions carry consecutive ids. -/
  trans : ∀ i (t : LogTransaction), log[i]? = some t → t.Ok j (tidAt j.jTailSequence i)
  /-- The block after the last commit block does not go on. -/
  stop : ∃ b, j.jDev (logPos j (logBlocks log).length) = some b ∧
    ¬Continues b (tidAt j.jTailSequence log.length)

end E2fsprogs
