import E2fsprogs.Quota.FreeBlocks

/-!
# The list of data blocks with free entries

A block is put in front of the list by `E2fsprogs.Quota.insertFreeDqentry`, and taken out of it by
`E2fsprogs.Quota.removeFreeDqentry`. Both change the links of the neighbours only: no entry is
touched, nor how many there are.
-/

namespace E2fsprogs

namespace Quota

open NullChain

variable {h h' : QuotaHandle} {buf : Buf} {avail : List ℕ} {b c : ℕ}

/-- What a change of the list that is about the block `b` leaves as it is. -/
structure Relinks (h h' : QuotaHandle) (avail : List ℕ) (b : ℕ) : Prop where
  fmt : h'.fmt = h.fmt
  blocks : h'.dqiBlocks = h.dqiBlocks
  free : h'.dqiFreeBlk = h.dqiFreeBlk
  same : ∀ c < 2 ^ 22, c ≠ b → SameEntries (h.readBlk c) (h'.readBlk c)
  entries : ∀ c < 2 ^ 22, c ≠ b → (h'.readBlk c).entries = (h.readBlk c).entries
  other : ∀ c < 2 ^ 22, c ≠ b → c ∉ avail → h'.readBlk c = h.readBlk c

/-! ### Taking a block out -/

theorem removeFreeDqentry_fst :
    (removeFreeDqentry h buf b).1 = (buf.setNextFree 0).setPrevFree 0 := rfl

theorem removeFreeDqentry_head :
    (removeFreeDqentry h buf b).2.dqiFreeEntry =
      if buf.prevFree = 0 then buf.nextFree else h.dqiFreeEntry := by
  rw [removeFreeDqentry]
  dsimp only [writeBlk_dqiFreeEntry]
  by_cases hp : buf.prevFree = 0
  · rw [if_neg (not_not.mpr hp), if_pos hp]
  · rw [if_pos hp, if_neg hp, writeBlk_dqiFreeEntry]
    split <;> rfl

/-- The other blocks: the one behind is linked to the one before, and the other way round. -/
theorem readBlk_removeFreeDqentry (hb : b < 2 ^ 22) (hnext : buf.nextFree < 2 ^ 22)
    (hprev : buf.prevFree < 2 ^ 22) (hc : c < 2 ^ 22) (hne : c ≠ b) :
    (removeFreeDqentry h buf b).2.readBlk c =
      if c = buf.prevFree ∧ c ≠ 0 then
        (if c = buf.nextFree ∧ c ≠ 0 then (h.readBlk c).setPrevFree buf.prevFree
          else h.readBlk c).setNextFree buf.nextFree
      else if c = buf.nextFree ∧ c ≠ 0 then (h.readBlk c).setPrevFree buf.prevFree
      else h.readBlk c := by
  rw [removeFreeDqentry]
  dsimp only
  rw [readBlk_write hb hc, if_neg hne]
  -- the block behind is written first
  obtain ⟨h₁, hh₁⟩ : ∃ h₁, h₁ = if buf.nextFree ≠ 0 then
      h.writeBlk buf.nextFree ((h.readBlk buf.nextFree).setPrevFree buf.prevFree) else h := ⟨_, rfl⟩
  have hread : ∀ e < 2 ^ 22, h₁.readBlk e =
      if e = buf.nextFree ∧ e ≠ 0 then (h.readBlk e).setPrevFree buf.prevFree else h.readBlk e := by
    intro e he
    by_cases hn : buf.nextFree = 0
    · rw [hh₁, if_neg (not_not.mpr hn), if_neg]
      rintro ⟨heq, h0⟩
      exact h0 (heq.trans hn)
    · rw [hh₁, if_pos hn, readBlk_write hnext he]
      rcases eq_or_ne e buf.nextFree with rfl | hen
      · rw [if_pos rfl, if_pos ⟨rfl, hn⟩]
      · rw [if_neg hen, if_neg fun hc => hen hc.1]
  rw [← hh₁]
  by_cases hp : buf.prevFree = 0
  · rw [if_neg (not_not.mpr hp), if_neg fun hc => hc.2 (hc.1.trans hp)]
    exact hread c hc
  · rw [if_pos hp, readBlk_write hprev hc]
    rcases eq_or_ne c buf.prevFree with rfl | hcp
    · rw [if_pos rfl, if_pos ⟨rfl, hp⟩, hread _ hc]
    · rw [if_neg hcp, if_neg fun hc => hcp hc.1, hread c hc]

theorem removeFreeDqentry_info :
    (removeFreeDqentry h buf b).2.fmt = h.fmt ∧
    (removeFreeDqentry h buf b).2.dqiBlocks = h.dqiBlocks ∧
    (removeFreeDqentry h buf b).2.dqiFreeBlk = h.dqiFreeBlk := by
  rw [removeFreeDqentry]
  dsimp only [writeBlk_fmt, writeBlk_dqiBlocks, writeBlk_dqiFreeBlk]
  split <;> split <;> exact ⟨rfl, rfl, rfl⟩

/-- **A block is out of the list.** -/
theorem removeFreeDqentry_spec (ha : AvailList h avail) (hlt : ∀ c ∈ avail, c < 2 ^ 22)
    (hb : b ∈ avail) (hnext : buf.nextFree = (h.readBlk b).nextFree)
    (hprev : buf.prevFree = (h.readBlk b).prevFree) :
    AvailList (removeFreeDqentry h buf b).2 (avail.erase b) ∧
      Relinks h (removeFreeDqentry h buf b).2 avail b := by
  have hnmem := ha.chain.next_mem hb
  have hpmem := ha.chain.prev_mem hb
  rw [← hnext] at hnmem
  rw [← hprev, List.mem_cons] at hpmem
  have hnlt : buf.nextFree < 2 ^ 22 := by
    rcases hnmem with h0 | hmem
    · omega
    · exact hlt _ hmem
  have hplt : buf.prevFree < 2 ^ 22 := by
    rcases hpmem with h0 | hmem
    · omega
    · exact hlt _ hmem
  have hread : ∀ c < 2 ^ 22, c ≠ b → _ := fun c hc hne =>
    @readBlk_removeFreeDqentry h buf b c (hlt b hb) hnlt hplt hc hne
  obtain ⟨hfmt, hblocks, hfree⟩ := @removeFreeDqentry_info h buf b
  -- the neighbours of the block are linked to each other, and nothing but links changes
  constructor
  · refine ⟨?_, ha.nodup.erase b⟩
    rw [removeFreeDqentry_head, hnext, hprev]
    refine ha.chain.erase ha.nodup (fun h0 => ha.chain.ne_zero h0 rfl) hb (fun c hc hne => ?_)
      fun c hc hne => ?_
    · have hc0 := ha.chain.ne_zero hc
      rw [hread c (hlt c hc) hne, ← hnext, ← hprev]
      simp only [ne_eq, hc0, not_false_eq_true, and_true]
      split
      · rw [nextFree_setNextFree]
      · split
        · rw [nextFree_setPrevFree]
        · rfl
    · have hc0 := ha.chain.ne_zero hc
      rw [hread c (hlt c hc) hne, ← hnext, ← hprev]
      simp only [ne_eq, hc0, not_false_eq_true, and_true]
      split
      · rw [prevFree_setNextFree]
        split
        · rw [prevFree_setPrevFree]
        · rfl
      · split
        · rw [prevFree_setPrevFree]
        · rfl
  · refine ⟨hfmt, hblocks, hfree, fun c hc hne => ?_, fun c hc hne => ?_, fun c hc hne hnot => ?_⟩
    · rw [hread c hc hne]
      split
      · split
        · exact sameEntries_setPrevFree.trans sameEntries_setNextFree
        · exact sameEntries_setNextFree
      · split
        · exact sameEntries_setPrevFree
        · exact .refl
    · rw [hread c hc hne]
      split <;> split <;> simp
    · rw [hread c hc hne, if_neg, if_neg]
      · rintro ⟨rfl, h0⟩
        exact hnot (hnmem.resolve_left h0)
      · rintro ⟨rfl, h0⟩
        exact hnot (hpmem.resolve_left h0)

/-! ### Putting a block in front -/

theorem insertFreeDqentry_info :
    (insertFreeDqentry h buf b).fmt = h.fmt ∧
    (insertFreeDqentry h buf b).dqiBlocks = h.dqiBlocks ∧
    (insertFreeDqentry h buf b).dqiFreeBlk = h.dqiFreeBlk := by
  rw [insertFreeDqentry]
  split <;> exact ⟨rfl, rfl, rfl⟩

theorem readBlk_insertFreeDqentry (hb : b < 2 ^ 22) (hhd : h.dqiFreeEntry < 2 ^ 22)
    (hc : c < 2 ^ 22) (hne : h.dqiFreeEntry ≠ b) :
    (insertFreeDqentry h buf b).readBlk c =
      if c = b then (buf.setNextFree h.dqiFreeEntry).setPrevFree 0
      else if c = h.dqiFreeEntry ∧ c ≠ 0 then (h.readBlk c).setPrevFree b else h.readBlk c := by
  rw [insertFreeDqentry]
  by_cases h0 : h.dqiFreeEntry = 0
  · rw [if_neg (not_not.mpr h0)]
    change (h.writeBlk b _).readBlk c = _
    rw [readBlk_write hb hc]
    split
    · rfl
    · rw [if_neg fun hc => hc.2 (hc.1.trans h0)]
  · rw [if_pos h0]
    change ((h.writeBlk b _).writeBlk h.dqiFreeEntry _).readBlk c = _
    rw [readBlk_write hhd hc, readBlk_write hb hhd, if_neg hne, readBlk_write hb hc]
    rcases eq_or_ne c h.dqiFreeEntry with rfl | hch
    · rw [if_pos rfl, if_neg hne, if_pos ⟨rfl, h0⟩]
    · rw [if_neg hch]
      split
      · rfl
      · rw [if_neg fun hc => hch hc.1]

/-- **A block is in front of the list.** -/
theorem insertFreeDqentry_spec (ha : AvailList h avail) (hlt : ∀ c ∈ avail, c < 2 ^ 22)
    (hb : b ∉ avail) (hb0 : b ≠ 0) (hblt : b < 2 ^ 22) :
    AvailList (insertFreeDqentry h buf b) (b :: avail) ∧
      Relinks h (insertFreeDqentry h buf b) avail b ∧
      (insertFreeDqentry h buf b).readBlk b = (buf.setNextFree h.dqiFreeEntry).setPrevFree 0 := by
  -- the old head, if there is one, gets its backward link
  have hhd : h.dqiFreeEntry = 0 ∨ h.dqiFreeEntry ∈ avail := by
    rcases eq_or_ne h.dqiFreeEntry 0 with h0 | h0
    · exact Or.inl h0
    · exact Or.inr (ha.chain.pop h0).1
  have hne : h.dqiFreeEntry ≠ b := by
    rintro rfl
    exact hb (hhd.resolve_left hb0)
  have hhdlt : h.dqiFreeEntry < 2 ^ 22 := by
    rcases hhd with h0 | hmem
    · omega
    · exact hlt _ hmem
  have hread : ∀ c < 2 ^ 22, _ := fun c hc =>
    @readBlk_insertFreeDqentry h buf b c hblt hhdlt hc hne
  obtain ⟨hfmt, hblocks, hfree⟩ := @insertFreeDqentry_info h buf b
  have hself := (hread b hblt).trans (if_pos rfl)
  have hcb : ∀ c ∈ avail, c ≠ b := fun c hc heq => hb (heq ▸ hc)
  refine ⟨⟨?_, List.nodup_cons.mpr ⟨hb, ha.nodup⟩⟩, ⟨hfmt, hblocks, hfree, fun c hc hne => ?_,
    fun c hc hne => ?_, fun c hc hne hnot => ?_⟩, hself⟩
  · change DoubleChain _ _ 0 b _
    refine ha.chain.push ha.nodup hb0 ?_ ?_ (fun c hc => ?_) fun c hc => ?_
    · rw [hself]
      simp
    · rw [hself]
      simp
    · rw [hread c (hlt c hc), if_neg (hcb c hc)]
      split
      · rw [nextFree_setPrevFree]
      · rfl
    · have hc0 := ha.chain.ne_zero hc
      rw [hread c (hlt c hc), if_neg (hcb c hc)]
      rcases eq_or_ne c h.dqiFreeEntry with heq | hch
      · rw [if_pos ⟨heq, hc0⟩, if_pos heq, prevFree_setPrevFree]
      · rw [if_neg fun hc => hch hc.1, if_neg hch]
  · rw [hread c hc, if_neg hne]
    split
    · exact sameEntries_setPrevFree
    · exact .refl
  · rw [hread c hc, if_neg hne]
    split <;> simp
  · rw [hread c hc, if_neg hne, if_neg]
    rintro ⟨rfl, h0⟩
    exact hnot (hhd.resolve_left h0)

end Quota

end E2fsprogs
