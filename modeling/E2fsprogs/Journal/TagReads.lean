import E2fsprogs.Journal.Layout

/-!
# What the tag loops read of a descriptor block

The structure `journal_block_tag_t` has twelve bytes, and both tag loops copy all of
them out of the block, `memcpy(&tag, tagp, sizeof(tag))`. What they check before is
that `journal_tag_bytes` of them are left, and that is eight or ten with some
features. The copy stays in the block all the same (`E2fsprogs.tagOffset_fits`): with
ten there is the tail of the block behind the last tag, and with eight the tags start
at offsets that are `4` modulo `8`, so that the last of them has twelve bytes left.

Here the two loops are run with a record of the bytes they look at, and, in the
replay, with memory that may run short, which leaves the loop for `failed`.
-/

namespace E2fsprogs

/-! ### The loops, with what they read -/

/-- `sizeof(journal_block_tag_t)`. -/
def journalBlockTagSize : ℕ := 12

/-- The loop of `count_tags`: the count, and the offsets and lengths of what was
copied. -/
def countTagsReadsFrom (f : Features) (size : ℕ) (b : Block) : ℕ → ℕ → ℕ × List (ℕ × ℕ)
  | 0, _ => (0, [])
  | fuel + 1, tagp =>
      if tagp + journalTagBytes f ≤ size then
        if hasFlag (tFlags b tagp) jbd2FlagLastTag then (1, [(tagp, journalBlockTagSize)])
        else
          let r := countTagsReadsFrom f size b fuel (nextTagp f b tagp)
          (1 + r.1, (tagp, journalBlockTagSize) :: r.2)
      else (0, [])

/-- `count_tags`, with what it reads of the block. -/
def countTagsReads (j : Journal) (b : Block) : ℕ × List (ℕ × ℕ) :=
  countTagsReadsFrom j.features (j.jBlocksize - descrCsumSize j.features) b j.jBlocksize
    journalHeaderSize

/-- The replay of tags: whether the loop was not left for `failed`, the state, and the
offsets and lengths of what was read of the descriptor block. -/
structure TagRun where
  ok : Bool
  state : PassState
  bytes : List (ℕ × ℕ)

/-- What `jbd2_block_tag_csum_verify` reads of the tag in the block: `t_checksum` of a
`journal_block_tag3_t`. The other checksum is in the copy. -/
def tag3Reads (j : Journal) (tagp : ℕ) : List (ℕ × ℕ) :=
  if j.features.csumV2or3 ∧ j.features.csum3 then [(tagp + 12, 4)] else []

/-- The body of the replay loop. `mem` says whether `__getblk` finds memory for a
buffer. -/
def replayTagRun (j : Journal) (bh : Block) (tagp : ℕ) (mem : Bool) (s : PassState) : TagRun :=
  let copy := (tagp, journalBlockTagSize)
  let ioBlock := s.nextLogBlock
  let s := { s with nextLogBlock := wrap j (s.nextLogBlock + 1) }.read ioBlock
  match jread j ioBlock with
  | .error err => ⟨true, { s with success := some err }, [copy]⟩
  | .ok obh =>
      let blocknr := readTagBlock j.features bh tagp
      if jbd2JournalTestRevoke s.jRevoke blocknr s.nextCommitID then
        ⟨true, { s with info := { s.info with nrRevokeHits := s.info.nrRevokeHits + 1 } }, [copy]⟩
      else if !jbd2BlockTagCsumVerify j bh tagp obh (hSequence bh) then
        ⟨true, { s with success := some .efsbadcrc, blockError := true },
          copy :: tag3Reads j tagp⟩
      else if !mem then ⟨false, s, copy :: tag3Reads j tagp⟩
      else
        ⟨true,
          { s with
            jFsDev := Function.update s.jFsDev blocknr (unescape (tFlags bh tagp) obh)
            fsWrites := (s.nextCommitID, blocknr, unescape (tFlags bh tagp) obh) :: s.fsWrites
            info := { s.info with nrReplays := s.info.nrReplays + 1 } },
          copy :: tag3Reads j tagp⟩

/-- The replay loop. `mem` says for each tag whether there is memory for its block. -/
def replayTagsRunFrom (j : Journal) (bh : Block) (mem : ℕ → Bool) :
    ℕ → ℕ → PassState → TagRun
  | 0, _, s => ⟨true, s, []⟩
  | fuel + 1, tagp, s =>
      if tagp + journalTagBytes j.features ≤ j.jBlocksize - descrCsumSize j.features then
        let r := replayTagRun j bh tagp (mem tagp) s
        if !r.ok then r
        else if hasFlag (tFlags bh tagp) jbd2FlagLastTag then r
        else
          let rest := replayTagsRunFrom j bh mem fuel (nextTagp j.features bh tagp) r.state
          { rest with bytes := r.bytes ++ rest.bytes }
      else ⟨true, s, []⟩

/-- The replay of a descriptor block. -/
def replayTagsRun (j : Journal) (bh : Block) (mem : ℕ → Bool) (s : PassState) : TagRun :=
  replayTagsRunFrom j bh mem j.jBlocksize journalHeaderSize s

/-- Nothing at or beyond the end of the block is read. -/
def InsideBlock (j : Journal) (bytes : List (ℕ × ℕ)) : Prop :=
  ∀ r ∈ bytes, r.1 + r.2 ≤ j.jBlocksize

/-! ### The tags of a block -/

variable {j : Journal} {bh : Block}

theorem countTagsReadsFrom_eq (f : Features) (size : ℕ) (b : Block) : ∀ fuel tagp,
    countTagsReadsFrom f size b fuel tagp =
      (countTagsFrom f size b fuel tagp,
        (tagOffsetsFrom f size b fuel tagp).map fun t => (t, journalBlockTagSize)) := by
  intro fuel
  induction fuel with
  | zero => intro tagp; rfl
  | succ fuel ih =>
    intro tagp
    simp only [countTagsReadsFrom, countTagsFrom, tagOffsetsFrom, ih]
    split
    · split
      · rfl
      · rfl
    · rfl

/-- Where a tag can start: it fits with its own length, and short tags start at
offsets that are `4` modulo `8`. -/
structure TagFits (f : Features) (size tagp : ℕ) : Prop where
  le : tagp + journalTagBytes f ≤ size
  aligned : journalTagBytes f = 8 → tagp % 8 = 4

theorem tagFits_of_mem (f : Features) (size : ℕ) (b : Block) : ∀ fuel tagp,
    (journalTagBytes f = 8 → tagp % 8 = 4) →
    ∀ t ∈ tagOffsetsFrom f size b fuel tagp, TagFits f size t := by
  intro fuel
  induction fuel with
  | zero =>
    intro tagp _ t ht
    cases ht
  | succ fuel ih =>
    intro tagp hal t ht
    rw [tagOffsetsFrom] at ht
    by_cases hle : tagp + journalTagBytes f ≤ size
    · have hhere : TagFits f size tagp := ⟨hle, hal⟩
      have hnext : journalTagBytes f = 8 → nextTagp f b tagp % 8 = 4 := by
        intro h8
        have := hal h8
        rw [nextTagp, h8]
        split <;> omega
      rw [if_pos hle] at ht
      split at ht
      · rw [List.mem_singleton.mp ht]
        exact hhere
      · rcases List.mem_cons.mp ht with rfl | hrest
        · exact hhere
        · exact ih _ hnext t hrest
    · rw [if_neg hle] at ht
      cases ht

theorem csumV2or3_of_tagBytes {f : Features} (h : journalTagBytes f = 10) : f.csumV2or3 = true := by
  rcases f with ⟨a, b, c, d, e, g⟩
  cases b <;> cases d <;> cases e <;> simp_all [journalTagBytes, Features.csumV2or3]

theorem tagBytes_cases (f : Features) : journalTagBytes f = 8 ∨ journalTagBytes f = 10 ∨
    12 ≤ journalTagBytes f := by
  rcases f with ⟨a, b, c, d, e, g⟩
  cases b <;> cases d <;> cases e <;> simp [journalTagBytes]

/-- **The structure that is copied ends inside the block**, longer than the tag though
it may be. -/
theorem tagOffset_fits (hbs : 8 ∣ j.jBlocksize) {tagp : ℕ}
    (h : TagFits j.features (j.jBlocksize - descrCsumSize j.features) tagp) :
    tagp + journalBlockTagSize ≤ j.jBlocksize := by
  have hle := h.le
  rw [journalBlockTagSize]
  rcases tagBytes_cases j.features with h8 | h10 | h12
  · have := h.aligned h8
    omega
  · have htail : descrCsumSize j.features = 4 := if_pos (csumV2or3_of_tagBytes h10)
    omega
  · omega

/-- The checksum of a long tag is part of the tag. -/
theorem tag3Reads_inside {tagp : ℕ}
    (h : TagFits j.features (j.jBlocksize - descrCsumSize j.features) tagp) :
    InsideBlock j (tag3Reads j tagp) := by
  intro r hr
  rw [tag3Reads] at hr
  split at hr
  · next h3 =>
    have h16 : journalTagBytes j.features = 16 := by simp [journalTagBytes, h3.2]
    have hle := h.le
    rw [List.mem_singleton.mp hr]
    show tagp + 12 + 4 ≤ j.jBlocksize
    omega
  · cases hr

/-! ### The replay -/

theorem replayTagRun_inside (hbs : 8 ∣ j.jBlocksize) {tagp : ℕ} (mem : Bool) (s : PassState)
    (h : TagFits j.features (j.jBlocksize - descrCsumSize j.features) tagp) :
    InsideBlock j (replayTagRun j bh tagp mem s).bytes := by
  have hcopy : InsideBlock j [(tagp, journalBlockTagSize)] := by
    intro r hr
    rw [List.mem_singleton.mp hr]
    exact tagOffset_fits hbs h
  have hboth : InsideBlock j ((tagp, journalBlockTagSize) :: tag3Reads j tagp) := by
    intro r hr
    rcases List.mem_cons.mp hr with rfl | hr
    · exact tagOffset_fits hbs h
    · exact tag3Reads_inside h r hr
  unfold replayTagRun
  dsimp only
  split
  · exact hcopy
  · split
    · exact hcopy
    · split
      · exact hboth
      · split
        · exact hboth
        · exact hboth

/-- Where memory is found the body of the loop is the one without the record. -/
theorem replayTagRun_state {tagp : ℕ} {mem : Bool} {s : PassState}
    (h : (replayTagRun j bh tagp mem s).ok = true) :
    (replayTagRun j bh tagp mem s).state = replayTag j bh tagp s := by
  unfold replayTagRun replayTag at *
  dsimp only at *
  cases hread : jread j s.nextLogBlock with
  | error err => rfl
  | ok obh =>
    simp only [hread] at h ⊢
    split
    · rfl
    · next hrev =>
      rw [if_neg hrev] at h
      split
      · rfl
      · next hsum =>
        rw [if_neg hsum] at h
        split
        · next hmem =>
          rw [if_pos hmem] at h
          cases h
        · rfl

/-- Only memory that runs short leaves the loop. -/
theorem replayTagRun_ok (tagp : ℕ) (s : PassState) : (replayTagRun j bh tagp true s).ok = true := by
  unfold replayTagRun
  dsimp only
  split
  · rfl
  · split
    · rfl
    · split
      · rfl
      · rfl

theorem replayTagsRunFrom_ok {mem : ℕ → Bool} (hmem : ∀ tagp, mem tagp = true) : ∀ fuel tagp s,
    (replayTagsRunFrom j bh mem fuel tagp s).ok = true := by
  intro fuel
  induction fuel with
  | zero => exact fun tagp s => rfl
  | succ fuel ih =>
    intro tagp s
    rw [replayTagsRunFrom, hmem]
    split
    · simp only [replayTagRun_ok, Bool.not_true, Bool.false_eq_true, if_false]
      split
      · exact replayTagRun_ok tagp s
      · exact ih _ _
    · rfl

/-- A tag takes one log block, read or not. -/
theorem replayTag_reads (tagp : ℕ) (s : PassState) :
    (replayTag j bh tagp s).reads = s.nextLogBlock % 2 ^ 32 :: s.reads := by
  unfold replayTag
  dsimp only
  split
  · rfl
  · split
    · rfl
    · split <;> rfl

/-- A loop that is not left for `failed` runs along all tags. -/
theorem replayTagsRunFrom_spec (hbs : 8 ∣ j.jBlocksize) (mem : ℕ → Bool) : ∀ fuel tagp s,
    (journalTagBytes j.features = 8 → tagp % 8 = 4) →
    InsideBlock j (replayTagsRunFrom j bh mem fuel tagp s).bytes ∧
      ((replayTagsRunFrom j bh mem fuel tagp s).ok = true →
        (replayTagsRunFrom j bh mem fuel tagp s).state = replayTagsFrom j bh fuel tagp s) := by
  intro fuel
  induction fuel with
  | zero => exact fun tagp s _ => ⟨fun r hr => absurd hr List.not_mem_nil, fun _ => rfl⟩
  | succ fuel ih =>
    intro tagp s hal
    rw [replayTagsRunFrom, replayTagsFrom]
    by_cases hle : tagp + journalTagBytes j.features ≤ j.jBlocksize - descrCsumSize j.features
    · rw [if_pos hle, if_pos hle]
      have hfits : TagFits j.features (j.jBlocksize - descrCsumSize j.features) tagp := ⟨hle, hal⟩
      have hin := @replayTagRun_inside j bh hbs tagp (mem tagp) s hfits
      have hstate := @replayTagRun_state j bh tagp (mem tagp) s
      obtain ⟨r, hr⟩ : ∃ r, r = replayTagRun j bh tagp (mem tagp) s := ⟨_, rfl⟩
      rw [← hr] at hin hstate ⊢
      cases hok : r.ok with
      | false => exact ⟨by simpa [hok] using hin, by simp [hok]⟩
      | true =>
        simp only [hok, Bool.not_true, Bool.false_eq_true, if_false, ← hstate hok]
        by_cases hlast : hasFlag (tFlags bh tagp) jbd2FlagLastTag = true
        · simp only [hlast, if_true]
          exact ⟨hin, fun _ => trivial⟩
        · simp only [hlast]
          have hnext : journalTagBytes j.features = 8 → nextTagp j.features bh tagp % 8 = 4 := by
            intro h8
            have := hal h8
            rw [nextTagp, h8]
            split <;> omega
          obtain ⟨h1, h2⟩ := ih (nextTagp j.features bh tagp) r.state hnext
          refine ⟨fun x hx => ?_, h2⟩
          rcases List.mem_append.mp hx with hx | hx
          · exact hin x hx
          · exact h1 x hx
    · rw [if_neg hle, if_neg hle]
      exact ⟨fun r hr => absurd hr List.not_mem_nil, fun _ => rfl⟩

theorem foldl_replayTag_reads : ∀ (tags : List ℕ) (s : PassState),
    (tags.foldl (fun s tagp => replayTag j bh tagp s) s).reads.length =
      s.reads.length + tags.length := by
  intro tags
  induction tags with
  | nil => exact fun s => rfl
  | cons t tags ih =>
    intro s
    rw [List.foldl_cons, ih, replayTag_reads, List.length_cons, List.length_cons]
    omega

/-- **Both tag loops read inside the block and agree.** A block is `1024` bytes shifted
by `s_log_block_size`. The replay loop, if it is not left because memory runs short – and it
is not where there always is memory – takes as many log blocks as `count_tags` counts. -/
theorem tagLoops_inside_and_agree (j : Journal) (logBlockSize : ℕ)
    (hbs : j.jBlocksize = 1024 * 2 ^ logBlockSize) (bh : Block) :
    InsideBlock j (countTagsReads j bh).2 ∧
    ∀ (mem : ℕ → Bool) (s : PassState),
      InsideBlock j (replayTagsRun j bh mem s).bytes ∧
      ((∀ tagp, mem tagp = true) → (replayTagsRun j bh mem s).ok = true) ∧
      ((replayTagsRun j bh mem s).ok = true →
        (replayTagsRun j bh mem s).state.reads.length =
          s.reads.length + (countTagsReads j bh).1) := by
  have h8 : 8 ∣ j.jBlocksize := by
    rw [hbs]
    exact Dvd.dvd.mul_right (by norm_num) _
  have hstart : journalTagBytes j.features = 8 → journalHeaderSize % 8 = 4 := fun _ => rfl
  rw [countTagsReads, countTagsReadsFrom_eq]
  refine ⟨?_, fun mem s => ?_⟩
  · intro r hr
    obtain ⟨t, ht, rfl⟩ := List.mem_map.mp hr
    exact tagOffset_fits h8 (tagFits_of_mem _ _ _ _ _ hstart t ht)
  · obtain ⟨hin, hstate⟩ := @replayTagsRunFrom_spec j bh h8 mem j.jBlocksize
      journalHeaderSize s hstart
    refine ⟨hin, fun hmem => replayTagsRunFrom_ok hmem _ _ _, fun hok => ?_⟩
    have hrun : (replayTagsRun j bh mem s).state =
        (tagOffsets j bh).foldl (fun s tagp => replayTag j bh tagp s) s :=
      (hstate hok).trans (replayTags_eq j bh s)
    rw [hrun, foldl_replayTag_reads, countTagsFrom_eq]
    rfl

/-- A journal of a file system of blocks of 1024 bytes, without features: tags of eight
bytes. -/
def shortTagJournal : Journal where
  jBlocksize := 1024
  jFirst := 1
  jLast := 100
  jFcFirst := 100
  jFcLast := 100
  jTotalLen := 100
  jTailSequence := 1
  jTail := 1
  jCsumSeed := 0
  features := ⟨false, false, false, false, false, false⟩
  jDev := fun _ => some zeroBlock

theorem tagLoops_inside_and_agree_short_tags :
    InsideBlock shortTagJournal (countTagsReads shortTagJournal zeroBlock).2 ∧
    ∀ (mem : ℕ → Bool) (s : PassState),
      InsideBlock shortTagJournal (replayTagsRun shortTagJournal zeroBlock mem s).bytes ∧
      ((∀ tagp, mem tagp = true) →
        (replayTagsRun shortTagJournal zeroBlock mem s).ok = true) ∧
      ((replayTagsRun shortTagJournal zeroBlock mem s).ok = true →
        (replayTagsRun shortTagJournal zeroBlock mem s).state.reads.length =
          s.reads.length + (countTagsReads shortTagJournal zeroBlock).1) :=
  tagLoops_inside_and_agree shortTagJournal 0 (by rfl) zeroBlock

end E2fsprogs
