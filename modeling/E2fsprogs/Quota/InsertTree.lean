import E2fsprogs.Quota.Insert

/-!
# The recursion of an insertion

A block that is taken for a level gets its only reference after the level below it is done, or is
given back. The induction is over the levels; `E2fsprogs.Quota.doInsertTree_spec` is the result.
-/

namespace E2fsprogs

namespace Quota

open NullChain

variable {h h' h₁ : QuotaHandle} {L L' L₁ : Layout} {buf : Buf} {fmt : Fmt} {room : ℕ → Bool}
variable {r : Inserted} {b c d p q s t id blk n : ℕ} {i : Fin 256}

/-! ### The size of the file -/

theorem getFreeDqblk_blocks (hlt : h.dqiBlocks + 1 < 2 ^ 32) :
    h.dqiBlocks ≤ (getFreeDqblk room h).2.dqiBlocks ∧
      (getFreeDqblk room h).2.dqiBlocks ≤ h.dqiBlocks + 1 := by
  rw [getFreeDqblk]
  split
  · exact ⟨le_rfl, Nat.le_succ _⟩
  · split
    · change _ ≤ (h.dqiBlocks + 1) % 2 ^ 32 ∧ (h.dqiBlocks + 1) % 2 ^ 32 ≤ _
      rw [Nat.mod_eq_of_lt hlt]
      exact ⟨Nat.le_succ _, le_rfl⟩
    · exact ⟨le_rfl, Nat.le_succ _⟩

theorem takeDqentry_blocks_eq : (takeDqentry h buf b).2.dqiBlocks = h.dqiBlocks := by
  rw [takeDqentry]
  dsimp only
  rw [writeBlk_dqiBlocks]
  split
  · exact removeFreeDqentry_info.2.1
  · rfl

theorem findFreeDqentry_blocks (hlt : h.dqiBlocks + 1 < 2 ^ 32) :
    h.dqiBlocks ≤ (findFreeDqentry room h).handle.dqiBlocks ∧
      (findFreeDqentry room h).handle.dqiBlocks ≤ h.dqiBlocks + 1 := by
  rw [findFreeDqentry]
  split
  · rw [takeDqentry_blocks_eq]
    exact ⟨le_rfl, Nat.le_succ _⟩
  · have hget := @getFreeDqblk_blocks h room hlt
    split
    · next heq =>
      rw [heq] at hget
      exact hget
    · next heq =>
      rw [heq] at hget
      rw [takeDqentry_blocks_eq]
      exact hget

theorem linkTree_blocks {new : Bool} :
    (linkTree i blk buf new r).handle.dqiBlocks = r.handle.dqiBlocks := by
  rw [linkTree]
  split
  · split <;> rfl
  · split <;> rfl

theorem doInsertTree_blocks {id : UInt32} (n : ℕ) {h : QuotaHandle} {treeblk : ℕ}
    (hlt : h.dqiBlocks + n + 2 < 2 ^ 32) :
    h.dqiBlocks ≤ (doInsertTree room id n h treeblk).handle.dqiBlocks ∧
      (doInsertTree room id n h treeblk).handle.dqiBlocks ≤ h.dqiBlocks + n + 2 := by
  induction n generalizing h treeblk with
  | zero =>
    have hget := @getFreeDqblk_blocks h room (by omega)
    rw [doInsertTree]
    split
    · split
      · next heq =>
        rw [heq] at hget
        exact ⟨hget.1, hget.2.trans (by omega)⟩
      · next h₁ heq =>
        rw [heq] at hget
        dsimp only at hget
        have hfind := @findFreeDqentry_blocks h₁ room (by omega)
        rw [linkTree_blocks]
        omega
    · have hfind := @findFreeDqentry_blocks h room (by omega)
      rw [linkTree_blocks]
      omega
  | succ n ih =>
    have hget := @getFreeDqblk_blocks h room (by omega)
    rw [doInsertTree]
    split
    · split
      · next heq =>
        rw [heq] at hget
        exact ⟨hget.1, hget.2.trans (by omega)⟩
      · next h₁ heq =>
        rw [heq] at hget
        dsimp only at hget
        have hrec := @ih h₁ 0 (by omega)
        rw [linkTree_blocks]
        omega
    · have hrec := @ih h (h.readBlk treeblk (getIndex id (n + 1))) (by omega)
      rw [linkTree_blocks]
      omega

/-! Nothing is put behind a block number that cannot be had. -/

theorem getFreeDqblk_le (hle : h.dqiBlocks ≤ n) (hno : room n = false) :
    (getFreeDqblk room h).2.dqiBlocks ≤ n := by
  rw [getFreeDqblk]
  split
  · exact hle
  · split
    · next hroom =>
      have hne : h.dqiBlocks ≠ n := by
        rintro rfl
        rw [hno] at hroom
        cases hroom
      exact (Nat.mod_le _ _).trans (lt_of_le_of_ne hle hne)
    · exact hle

theorem findFreeDqentry_le (hle : h.dqiBlocks ≤ n) (hno : room n = false) :
    (findFreeDqentry room h).handle.dqiBlocks ≤ n := by
  rw [findFreeDqentry]
  split
  · rw [takeDqentry_blocks_eq]
    exact hle
  · have hget := getFreeDqblk_le hle hno
    split
    · next heq =>
      rw [heq] at hget
      exact hget
    · next heq =>
      rw [heq] at hget
      rw [takeDqentry_blocks_eq]
      exact hget

theorem doInsertTree_le {id : UInt32} (k : ℕ) {h : QuotaHandle} {treeblk : ℕ}
    (hle : h.dqiBlocks ≤ n) (hno : room n = false) :
    (doInsertTree room id k h treeblk).handle.dqiBlocks ≤ n := by
  induction k generalizing h treeblk with
  | zero =>
    have hget := getFreeDqblk_le hle hno
    rw [doInsertTree]
    split
    · split
      · next heq =>
        rw [heq] at hget
        exact hget
      · next heq =>
        rw [heq] at hget
        rw [linkTree_blocks]
        exact findFreeDqentry_le hget hno
    · rw [linkTree_blocks]
      exact findFreeDqentry_le hle hno
  | succ k ih =>
    have hget := getFreeDqblk_le hle hno
    rw [doInsertTree]
    split
    · split
      · next heq =>
        rw [heq] at hget
        exact hget
      · next heq =>
        rw [heq] at hget
        rw [linkTree_blocks]
        exact ih hget
    · rw [linkTree_blocks]
      exact ih hle

/-! ### A new data block -/

theorem entryUnused_zeroBuf : entryUnused (zeroBuf.entry fmt s) = true := by
  rw [entryUnused_entry_iff]
  intro j _
  rw [Buf.word]
  split <;> rfl

theorem usedEntries_zeroBuf : usedEntries fmt zeroBuf = 0 := by
  rw [usedEntries, Finset.card_eq_zero, Finset.filter_eq_empty_iff]
  intro s _ hs
  rw [entryUnused_zeroBuf] at hs
  cases hs

theorem Takes.ne (ht : Takes L b L') (hf : L.role c ≠ .free) (ho : L.role c ≠ .out) : c ≠ b := by
  rintro rfl
  exact ht.was.elim hf ho

theorem Fails.refl (H : Holds h L) : Fails h L ⟨none, 0, h⟩ L :=
  ⟨rfl, rfl, H, rfl, rfl, rfl, rfl, rfl, fun _ _ _ => rfl, fun _ hc => hc, fun _ _ _ _ _ => rfl⟩

/-- **An entry of a new data block.** -/
theorem takeDqentry_new (H : Holds h₁ L₁) (ht : Takes L b L₁) (hfmt : h₁.fmt = h.fmt)
    (hread : ∀ c < 2 ^ 22, c ≠ b → h₁.readBlk c = h.readBlk c) (H₀ : Holds h L)
    (hpend : L.pending = none) (hstale : L.stale = none) (hid : L.tree 4 id = 0)
    (hempty : L.avail = []) :
    ∃ s L', Inserts h L id 4 id True
      ⟨some b, (takeDqentry { h₁ with dqiFreeEntry := b } zeroBuf b).1,
        (takeDqentry { h₁ with dqiFreeEntry := b } zeroBuf b).2⟩ b b s L' := by
  have hbout : L₁.role b ≠ .out := ht.role_self ▸ by decide
  have hblt := H.lt hbout
  have hb0 := ht.ne_zero
  have hcap := @two_le_dqstrInBlk h₁.fmt
  obtain ⟨h', hh'⟩ : ∃ h', h' = (takeDqentry { h₁ with dqiFreeEntry := b } zeroBuf b).2 := ⟨_, rfl⟩
  have hentries : zeroBuf.entries = 0 := rfl
  have hw : h' = QuotaHandle.writeBlk { h₁ with dqiFreeEntry := b } b (zeroBuf.setEntries 1) := by
    rw [hh', takeDqentry, if_neg (by rw [hentries]; dsimp only; omega)]
    rfl
  have hself : h'.readBlk b = zeroBuf.setEntries 1 := by
    rw [hw, readBlk_write hblt hblt, if_pos rfl]
  have hother : ∀ c, L₁.role c ≠ .out → c ≠ b → h'.readBlk c = h₁.readBlk c := fun c hc hne => by
    rw [hw, readBlk_write hblt (H.lt hc), if_neg hne]
    rfl
  have hfmt' : h'.fmt = h₁.fmt := by rw [hw]; rfl
  have hlt21 : b < 2 ^ 21 := lt_of_lt_of_le (H.shape.lt_blocks hbout) H.shape.blocks_le
  have hsame : SameEntries zeroBuf (h'.readBlk b) := hself ▸ sameEntries_setEntries
  obtain ⟨s, hs, -, hoff⟩ := @takeDqentry_fst { h₁ with dqiFreeEntry := b } zeroBuf b hlt21
    (by rw [usedEntries_zeroBuf]; exact Nat.lt_of_lt_of_le two_pos hcap)
  -- the block was cleared, so it has no entry yet
  have hno : ∀ t q, ¬ EntryOf h' b t q := by
    rintro t q ⟨-, hused, -⟩
    rw [hsame.entry, entryUnused_zeroBuf] at hused
    cases hused
  have hcounted : Counted h' (L₁.tree 4) b s := by
    refine ⟨fun t q ht => absurd ht (hno t q), fun t _ q ht => absurd ht (hno t q),
      fun q hq => ?_, ?_, hfmt' ▸ hs, ?_⟩
    · exact absurd hq (H.shape.leaf_ne hb0 (ht.role_self ▸ by decide))
    · rw [usedEntries_congr hsame, usedEntries_zeroBuf, hself, entries_setEntries]
      rfl
    · rw [hsame.entry]
      exact entryUnused_zeroBuf
  have hindex : ∀ c d p, L₁.role c = .index d p → h'.readBlk c = h₁.readBlk c := fun c d p hc =>
    hother c (hc ▸ Role.index_ne_out) fun heq => by
      rw [heq, ht.role_self] at hc
      cases hc
  have hdata : ∀ c, L₁.role c = .data → h'.readBlk c = h₁.readBlk c := fun c hc =>
    hother c (hc ▸ by decide) fun heq => by
      rw [heq, ht.role_self] at hc
      cases hc
  have hH : Holds h' (L₁.reserve b s id [b]) := by
    refine H.reserve (ht.pending.trans hpend) (ht.stale.trans hstale) (by rw [ht.tree, hid])
      (Or.inr ht.role_self) hfmt' (by rw [hw]; rfl) ?_ ?_ (fun c => ?_) hindex (fun c hc hne => ?_)
      hcounted
    · refine H.free.congr (by rw [hw]; rfl) fun c hc => ?_
      have hc := (H.shape.mem_free c).mp hc
      rw [hother c (hc ▸ by decide) fun heq => by rw [heq, ht.role_self] at hc; cases hc]
    · refine ⟨⟨by rw [hw]; rfl, hb0, ?_, ?_⟩, List.nodup_singleton b⟩
      · change (h'.readBlk b).prevFree = 0
        rw [hself, prevFree_setEntries]
        rfl
      · change (h'.readBlk b).nextFree = 0
        rw [hself, nextFree_setEntries]
        rfl
    · rw [List.mem_singleton, hfmt']
      rcases eq_or_ne c b with rfl | hne
      · rw [hself, entries_setEntries]
        exact iff_of_true rfl ⟨Or.inl rfl, Nat.lt_of_lt_of_le (by decide) hcap⟩
      · rw [or_iff_right hne]
        refine iff_of_false hne ?_
        rintro ⟨hc, he⟩
        rw [hdata c hc] at he
        have hmem := (H.mem_avail c).mpr ⟨hc, he⟩
        rw [ht.avail, hempty] at hmem
        cases hmem
    · rw [hdata c hc]
      exact ⟨.refl, rfl⟩
  have hkeep : ∀ c, L.role c ≠ .free → L.role c ≠ .out → h'.readBlk c = h.readBlk c :=
    fun c hf ho => by
      have hne := ht.ne hf ho
      rw [hother c (by rw [ht.role_eq hf ho]; exact ho) hne, hread c (H₀.lt ho) hne]
  have hrole : ∀ c, L.role c ≠ .free → L.role c ≠ .out →
      (L₁.reserve b s id [b]).role c = L.role c := fun c hf ho => by
    change Function.update L₁.role b .data c = _
    rw [Function.update_of_ne (ht.ne hf ho), ht.role_eq hf ho]
  refine ⟨s, L₁.reserve b s id [b], rfl, hfmt ▸ hoff, hh' ▸ hH, rfl, setTree_self, hb0,
    fun q hq => ?_, fun d hd => ?_, fun _ => rfl, fun hn => absurd trivial hn,
    hh' ▸ hfmt'.trans hfmt, fun c d p hc => ?_, fun _ c d p hc => ?_, fun c hc => ⟨?_, ?_⟩,
    fun c => ?_⟩
  · rw [← ht.tree]
    exact setTree_of_ne fun heq => hq heq.2
  · rw [← ht.tree]
    exact setTree_of_depth_ne (by omega)
  · rw [hrole c (hc ▸ fun heq => by cases heq) (hc ▸ Role.index_ne_out), hc]
  · exact hh' ▸ hkeep c (hc ▸ fun heq => by cases heq) (hc ▸ Role.index_ne_out)
  · rw [hrole c (hc ▸ by decide) (hc ▸ by decide), hc]
  · change SameEntries _ ((takeDqentry { h₁ with dqiFreeEntry := b } zeroBuf b).2.readBlk c)
    rw [← hh', hkeep c (hc ▸ by decide) (hc ▸ by decide)]
    exact .refl
  · change Function.update L₁.role b .data c = _ ↔ _
    rcases eq_or_ne c b with rfl | hne
    · rw [Function.update_self]
      rcases ht.was with hw | hw <;> rw [hw] <;> decide
    · rw [Function.update_of_ne hne, ht.role, Function.update_of_ne hne]

/-- **A free entry is found**, or there is no block for one. -/
theorem findFreeDqentry_spec (H : Holds h L) (hpend : L.pending = none) (hstale : L.stale = none)
    (hid : L.tree 4 id = 0) (hle : (findFreeDqentry room h).handle.dqiBlocks ≤ 2 ^ 21) :
    Outcome h L id 4 id True (findFreeDqentry room h) := by
  by_cases hhd : h.dqiFreeEntry ≠ 0
  · have hb := (H.avail.chain.pop hhd).1
    obtain ⟨s, L', hins⟩ := takeDqentry_spec H hpend hstale hid hb
    rw [findFreeDqentry, if_pos hhd]
    exact Or.inl ⟨_, _, s, L', hins⟩
  · have hempty : L.avail = [] := by
      have hchain := H.avail.chain
      rw [not_not.mp hhd] at hchain
      cases hl : L.avail with
      | nil => rfl
      | cons a l =>
        rw [hl] at hchain
        exact absurd hchain.1.symm hchain.2.1
    have hblocks := @getFreeDqblk_blocks h room (by have := H.shape.blocks_le; omega)
    rw [findFreeDqentry, if_neg hhd] at hle ⊢
    have hle' : (getFreeDqblk room h).2.dqiBlocks ≤ 2 ^ 21 := by
      split at hle
      · next heq => rw [heq]; exact hle
      · next heq =>
        rw [takeDqentry_blocks_eq] at hle
        rw [heq]
        exact hle
    rcases getFreeDqblk_spec H hle' with ⟨hnone, -⟩ | ⟨b, L₁, hget, H₁, ht, hfmt, hread⟩
    · rw [hnone]
      exact Or.inr ⟨L, Fails.refl H⟩
    · rw [hget]
      obtain ⟨s, L', hins⟩ := takeDqentry_new H₁ ht hfmt hread H hpend hstale hid hempty
      exact Or.inl ⟨_, _, s, L', hins⟩

/-! ### Writing the references -/

/-- **The level of a new block.** -/
theorem linkTree_new (ht : Takes L blk L₁) (hfmt : h₁.fmt = h.fmt)
    (hread : ∀ c < 2 ^ 22, c ≠ blk → h₁.readBlk c = h.readBlk c) (H : Holds h L) (hd : d ≤ 3)
    (hd0 : d ≠ 0) (hnone : L.tree d p = 0)
    (hchild : Outcome h₁ L₁ id (d + 1) (p * 256 + (i : ℕ)) True r) :
    Outcome h L id d p True (linkTree i blk zeroBuf true r) := by
  rcases hchild with ⟨newblk, b, s, L₂, hins⟩ | ⟨L₂, hfail⟩
  · -- the block gets its reference
    have hlimbo := (hins.limbo blk).mpr ht.role_self
    have hblt : blk < 2 ^ 22 := hins.holds.lt (by rw [hlimbo]; decide)
    have hlink : linkTree i blk zeroBuf true r = ⟨some blk, r.dqbOff,
        r.handle.writeBlk blk (Function.update zeroBuf i newblk)⟩ := by
      rw [linkTree, hins.blk]
      exact if_pos rfl
    have H₂ : Holds (r.handle.writeBlk blk (Function.update zeroBuf i newblk)) L₂ :=
      hins.holds.writeLimbo hlimbo
    have H₃ := H₂.adopt hlimbo hd hd0
      (by rw [hins.above d (Nat.lt_succ_self d), ht.tree, hnone]) (hins.stale trivial)
      (by rw [hins.tree, readBlk_write hblt hblt, if_pos rfl])
    have hrole : ∀ c, L.role c ≠ .free → L.role c ≠ .out →
        (L₂.place blk (.index d p) d p blk).role c = L₂.role c ∧ L₁.role c = L.role c :=
      fun c hf ho => by
        refine ⟨?_, ht.role_eq hf ho⟩
        rw [place_role, Function.update_of_ne (ht.ne hf ho)]
    have hkeep : ∀ c, L.role c ≠ .free → L.role c ≠ .out →
        (r.handle.writeBlk blk (Function.update zeroBuf i newblk)).readBlk c =
          r.handle.readBlk c ∧ h₁.readBlk c = h.readBlk c := fun c hf ho => by
      refine ⟨?_, hread c (H.lt ho) (ht.ne hf ho)⟩
      rw [readBlk_write hblt (H.lt ho), if_neg (ht.ne hf ho)]
    rw [hlink]
    refine Or.inl ⟨blk, b, s, _, rfl, ?_, H₃, hins.pending, setTree_self, ht.ne_zero,
      fun q hq => ?_, fun d' hd' => ?_, fun _ => rfl, fun hn => absurd trivial hn,
      hins.fmt.trans hfmt, fun c d' p' hc => ?_, fun _ c d' p' hc => ?_, fun c hc => ?_, fun c =>
        ?_⟩
    · exact hfmt ▸ hins.off
    · rw [place_tree, setTree_of_depth_ne (by omega), hins.leaf q hq, ht.tree]
    · rw [place_tree, setTree_of_depth_ne (by omega), hins.above d' (by omega), ht.tree]
    · obtain ⟨h₂, h₁⟩ := hrole c (hc ▸ fun heq => by cases heq) (hc ▸ Role.index_ne_out)
      rw [h₂, hins.index c d' p' (h₁.trans hc)]
    · have hf : L.role c ≠ .free := hc ▸ fun heq => by cases heq
      have ho : L.role c ≠ .out := hc ▸ Role.index_ne_out
      rw [(hkeep c hf ho).1, hins.kept trivial c d' p' ((hrole c hf ho).2.trans hc),
        (hkeep c hf ho).2]
    · have hf : L.role c ≠ .free := hc ▸ by decide
      have ho : L.role c ≠ .out := hc ▸ by decide
      obtain ⟨hdata, hsame⟩ := hins.data c ((hrole c hf ho).2.trans hc)
      rw [(hkeep c hf ho).2] at hsame
      exact ⟨(hrole c hf ho).1.trans hdata, by rw [(hkeep c hf ho).1]; exact hsame⟩
    · rw [place_role]
      rcases eq_or_ne c blk with rfl | hne
      · rw [Function.update_self]
        exact iff_of_false Role.index_ne_limbo fun hc => by
          rcases ht.was with hw | hw <;> rw [hw] at hc <;> cases hc
      · rw [Function.update_of_ne hne, hins.limbo, ht.role, Function.update_of_ne hne]
  · -- the block is given back
    have hlimbo : L₂.role blk = .limbo := by
      rw [hfail.role blk (ht.role_self ▸ by decide) (ht.role_self ▸ by decide), ht.role_self]
    have hblt : blk < 2 ^ 22 := hfail.holds.lt (by rw [hlimbo]; decide)
    have hlink : linkTree i blk zeroBuf true r =
        ⟨none, r.dqbOff, putFreeDqblk r.handle zeroBuf blk⟩ := by
      rw [linkTree, hfail.blk]
      exact if_pos rfl
    rw [hlink]
    refine Or.inr ⟨L₂.withFree blk, rfl, hfail.off, putFreeDqblk_spec hfail.holds hlimbo,
      hfail.tree.trans ht.tree, hfail.avail.trans ht.avail, hfail.stale.trans ht.stale,
      hfail.pending.trans ht.pending, hfail.fmt.trans hfmt, fun c hf ho => ?_, fun c hc => ?_,
      fun c hlt hf hl hc => ?_⟩
    · change Function.update L₂.role blk .free c = _
      have h₁ := ht.role_eq hf ho
      rw [Function.update_of_ne (ht.ne hf ho), hfail.role c (h₁ ▸ hf) (h₁ ▸ ho), h₁]
    · change Function.update L₂.role blk .free c = _ ∨ Function.update L₂.role blk .free c = _
      rcases eq_or_ne c blk with rfl | hne
      · exact Or.inl (Function.update_self ..)
      · rw [Function.update_of_ne hne]
        refine hfail.back c ?_
        rw [ht.role, Function.update_of_ne hne]
        exact hc
    · have hne : c ≠ blk := by
        rintro rfl
        rcases ht.was with hw | hw
        · exact hf hw
        · exact ht.ne_zero (hc hw)
      have h₁ : L₁.role c = L.role c := by rw [ht.role, Function.update_of_ne hne]
      change (putFreeDqblk r.handle zeroBuf blk).readBlk c = _
      rw [readBlk_putFreeDqblk hblt hlt, if_neg hne, hfail.kept c hlt (h₁ ▸ hf) (h₁ ▸ hl) (h₁ ▸ hc),
        hread c hlt hne]

/-- **The level of a block that is there.** -/
theorem linkTree_old (H : Holds h L) (hd : d ≤ 3) (hne : L.tree d p ≠ 0)
    (hchild : Outcome h L id (d + 1) (p * 256 + (i : ℕ))
      (h.readBlk (L.tree d p) i = 0) r) :
    Outcome h L id d p False (linkTree i (L.tree d p) (h.readBlk (L.tree d p)) false r) := by
  have hroot := H.shape.index_of_tree hd hne
  rcases hchild with ⟨newblk, b, s, L₂, hins⟩ | ⟨L₂, hfail⟩
  · have htree : L₂.tree d p = L.tree d p := by rw [hins.above d (Nat.lt_succ_self d)]
    by_cases hz : h.readBlk (L.tree d p) i = 0
    · -- the reference is a new one
      have hkept := hins.kept hz _ d p hroot
      have H₂ := hins.holds.writeRef hd (htree ▸ hne) (hins.stale hz)
      rw [htree, hins.tree, hkept] at H₂
      have hblt := hins.holds.lt (b := L.tree d p) (hins.index _ d p hroot ▸ Role.index_ne_out)
      have hlink : linkTree i (L.tree d p) (h.readBlk (L.tree d p)) false r =
          ⟨some (L.tree d p), r.dqbOff, r.handle.writeBlk (L.tree d p)
            (Function.update (h.readBlk (L.tree d p)) i newblk)⟩ := by
        rw [linkTree, hins.blk]
        exact if_pos hz
      rw [hlink]
      refine Or.inl ⟨_, b, s, _, rfl, hins.off, H₂, hins.pending, htree, hne, hins.leaf,
        fun d' hd' => hins.above d' (by omega), fun hf => hf.elim, fun _ => rfl,
          hins.fmt, hins.index,
        fun hf => hf.elim, fun c hc => ⟨(hins.data c hc).1, ?_⟩, hins.limbo⟩
      change SameEntries _ ((r.handle.writeBlk _ _).readBlk c)
      rw [readBlk_write hblt (H.lt (hc ▸ by decide)), if_neg]
      · exact (hins.data c hc).2
      · rintro rfl
        rw [hroot] at hc
        cases hc
    · have hlink : linkTree i (L.tree d p) (h.readBlk (L.tree d p)) false r =
          ⟨some (L.tree d p), r.dqbOff, r.handle⟩ := by
        rw [linkTree, hins.blk]
        exact if_neg hz
      rw [hlink]
      exact Or.inl ⟨_, b, s, L₂, rfl, hins.off, hins.holds, hins.pending, htree, hne, hins.leaf,
        fun d' hd' => hins.above d' (by omega), fun hf => hf.elim, fun _ => hins.done hz, hins.fmt,
        hins.index, fun hf => hf.elim, hins.data, hins.limbo⟩
  · have hlink : linkTree i (L.tree d p) (h.readBlk (L.tree d p)) false r =
        ⟨none, r.dqbOff, r.handle⟩ := by
      rw [linkTree, hfail.blk]
      exact if_neg Bool.false_ne_true
    rw [hlink]
    exact Or.inr ⟨L₂, rfl, hfail.off, hfail.holds, hfail.tree, hfail.avail, hfail.stale,
      hfail.pending, hfail.fmt, hfail.role, hfail.back, hfail.kept⟩

/-! ### All levels -/

/-- The leading bytes of an id that lead to a depth, by the number of levels below. -/
def pathOf (id : UInt32) (n : ℕ) : ℕ := id.toNat / 256 ^ n

theorem pathOf_zero {id : UInt32} : pathOf id 0 = id.toNat := Nat.div_one _

theorem pathOf_succ {id : UInt32} (n : ℕ) :
    pathOf id n = pathOf id (n + 1) * 256 + (getIndex id n : ℕ) := by
  change id.toNat / 256 ^ n = id.toNat / 256 ^ (n + 1) * 256 + id.toNat / 256 ^ n % 256
  rw [pow_succ, ← Nat.div_div_eq_div_mul]
  omega

theorem pathOf_four {id : UInt32} : pathOf id 4 = 0 :=
  Nat.div_eq_of_lt (Nat.lt_of_lt_of_le id.toNat_lt (by norm_num))

/-- What a level finds in its reference is what the tree has below. -/
theorem Holds.ref_eq (H : Holds h L) (hstale : L.stale = none) (hd : d ≤ 3) (hne : L.tree d p ≠ 0)
    (i : Fin 256) : h.readBlk (L.tree d p) i = L.tree (d + 1) (p * 256 + (i : ℕ)) := by
  rw [H.refs d hd p i (by rw [hstale]; exact fun heq => by cases heq), if_neg hne]

theorem Holds.child_zero (H : Holds h L) (hstale : L.stale = none) (hd : d ≤ 3)
    (hnone : L.tree d p = 0) (i : Fin 256) : L.tree (d + 1) (p * 256 + (i : ℕ)) = 0 := by
  rw [H.refs d hd p i (by rw [hstale]; exact fun heq => by cases heq), if_pos hnone]

/-- A new block has nothing at its place so far. -/
theorem Outcome.congr_new {new' : Prop} (new : Prop) (ho : Outcome h L id d p new r)
    (hiff : new ↔ new') :
    Outcome h L id d p new' r := propext hiff ▸ ho

/-- Where a level takes a block, the file has its size after that. -/
theorem getFree_le {id : UInt32} {n : ℕ} (hn : n ≤ 3) (hblocks : h.dqiBlocks ≤ 2 ^ 21)
    (hle : (doInsertTree room id n h 0).handle.dqiBlocks ≤ 2 ^ 21) :
    (getFreeDqblk room h).2.dqiBlocks ≤ 2 ^ 21 := by
  have hget := @getFreeDqblk_blocks h room (by omega)
  cases n with
  | zero =>
    rw [doInsertTree, if_pos rfl] at hle
    split at hle
    · next heq => rw [heq]; exact hle
    · next heq =>
      rw [heq] at hget ⊢
      dsimp only at hget ⊢
      rw [linkTree_blocks] at hle
      exact (findFreeDqentry_blocks (by omega)).1.trans hle
  | succ n =>
    rw [doInsertTree, if_pos rfl] at hle
    split at hle
    · next heq => rw [heq]; exact hle
    · next heq =>
      rw [heq] at hget ⊢
      dsimp only at hget ⊢
      rw [linkTree_blocks] at hle
      exact (doInsertTree_blocks n (by omega)).1.trans hle

/-- **An insertion**, from the level that has `n` levels below it on. -/
theorem doInsertTree_spec {id : UInt32} (n : ℕ) {h : QuotaHandle} {L : Layout} {d : ℕ}
    (hdn : d + n = 3) (H : Holds h L) (hpend : L.pending = none) (hstale : L.stale = none)
    (hid : L.tree 4 id.toNat = 0)
    (hle : (doInsertTree room id n h (L.tree d (pathOf id (n + 1)))).handle.dqiBlocks ≤ 2 ^ 21) :
    Outcome h L id.toNat d (pathOf id (n + 1)) (L.tree d (pathOf id (n + 1)) = 0)
      (doInsertTree room id n h (L.tree d (pathOf id (n + 1)))) := by
  -- from the leaves up; the level below is the same call on the referenced block
  induction n generalizing h L d with
  | zero =>
    obtain rfl : d = 3 := by omega
    obtain ⟨p, hp⟩ : ∃ p, p = pathOf id 1 := ⟨_, rfl⟩
    have hpath : id.toNat = p * 256 + (getIndex id 0 : ℕ) := by
      rw [hp, ← pathOf_succ 0, pathOf_zero]
    rw [← hp] at hle ⊢
    -- an index block that is missing is taken from the free list or the end of the file
    by_cases hz : L.tree 3 p = 0
    · have hle' := getFree_le (by omega) H.shape.blocks_le (hz ▸ hle)
      rw [doInsertTree, if_pos hz] at hle ⊢
      have hd0 : (3 : ℕ) ≠ 0 := by decide
      refine Outcome.congr_new True ?_ (iff_of_true trivial hz)
      rcases getFreeDqblk_spec H hle' with ⟨hnone, -⟩ | ⟨blk, L₁, hget, H₁, ht, hfmt, hread⟩
      · rw [hnone]
        exact Or.inr ⟨L, Fails.refl H⟩
      · rw [hget] at hle ⊢
        dsimp only at hle ⊢
        rw [linkTree_blocks] at hle
        refine linkTree_new ht hfmt hread H le_rfl hd0 hz ?_
        rw [← hpath]
        exact findFreeDqentry_spec H₁ (ht.pending.trans hpend) (ht.stale.trans hstale)
          (by rw [ht.tree, hid]) hle
    · rw [doInsertTree, if_neg hz] at hle ⊢
      refine Outcome.congr_new False ?_ (iff_of_false not_false hz)
      rw [linkTree_blocks] at hle
      refine linkTree_old H le_rfl hz ?_
      rw [← hpath]
      refine Outcome.congr_new _ (findFreeDqentry_spec H hpend hstale hid hle)
        (iff_of_true trivial ?_)
      rw [H.ref_eq hstale le_rfl hz, ← hpath, hid]
  | succ n ih =>
    obtain ⟨p, hp⟩ : ∃ p, p = pathOf id (n + 1 + 1) := ⟨_, rfl⟩
    have hpath : pathOf id (n + 1) = p * 256 + (getIndex id (n + 1) : ℕ) := by
      rw [hp, ← pathOf_succ (n + 1)]
    rw [← hp] at hle ⊢
    by_cases hz : L.tree d p = 0
    · have hle' := getFree_le (by omega) H.shape.blocks_le (hz ▸ hle)
      rw [doInsertTree, if_pos hz] at hle ⊢
      have hd0 : d ≠ 0 := by
        rintro rfl
        obtain rfl : n = 2 := by omega
        rw [hp, pathOf_four, H.shape.root] at hz
        cases hz
      refine Outcome.congr_new True ?_ (iff_of_true trivial hz)
      rcases getFreeDqblk_spec H hle' with ⟨hnone, -⟩ | ⟨blk, L₁, hget, H₁, ht, hfmt, hread⟩
      · rw [hnone]
        exact Or.inr ⟨L, Fails.refl H⟩
      · rw [hget] at hle ⊢
        dsimp only at hle ⊢
        rw [linkTree_blocks] at hle
        refine linkTree_new ht hfmt hread H (by omega) hd0 hz ?_
        have hnone : L₁.tree (d + 1) (pathOf id (n + 1)) = 0 := by
          rw [ht.tree, hpath, H.child_zero hstale (by omega) hz]
        have hrec := @ih _ L₁ (d + 1) (by omega) H₁ (ht.pending.trans hpend) (ht.stale.trans hstale)
          (by rw [ht.tree, hid]) (by rw [hnone]; exact hle)
        rw [hnone, hpath] at hrec
        exact hrec.congr_new _ (iff_of_true rfl trivial)
    · rw [doInsertTree, if_neg hz] at hle ⊢
      refine Outcome.congr_new False ?_ (iff_of_false not_false hz)
      rw [linkTree_blocks] at hle
      refine linkTree_old H (by omega) hz ?_
      have hchild := H.ref_eq hstale (by omega) hz (getIndex id (n + 1))
      rw [← hpath] at hchild
      rw [hchild] at hle ⊢
      have hrec := ih (by omega) H hpend hstale hid hle
      rw [← hpath]
      exact hrec

end Quota

end E2fsprogs
