import E2fsprogs.Quota.Refs

/-!
# Insertions

What `E2fsprogs.Quota.doInsertTree` does to a layout. Either it has an entry for the id, which is
counted and not written yet, and the reference to the block that it returns is the one that its
caller still has to write (`E2fsprogs.Quota.Inserts`); or it has no block, and all of those that
were taken are free again (`E2fsprogs.Quota.Fails`). Taking an entry, at the end of the recursion,
is the same kind of step as a whole insertion, one level below the last.
-/

namespace E2fsprogs

namespace Quota

open NullChain

variable {h h' : QuotaHandle} {L L' L₁ : Layout} {buf : Buf} {fmt : Fmt} {room : ℕ → Bool}
variable {r : Inserted} {avail : List ℕ} {b c d p q s t id blk : ℕ} {i : Fin 256}

/-! ### Searching a block -/

theorem firstEntry_spec {f : List ℕ → Bool}
    (hex : ∃ s < fmt.dqstrInBlk, f (buf.entry fmt s) = true) :
    firstEntry fmt f buf < fmt.dqstrInBlk ∧ f (buf.entry fmt (firstEntry fmt f buf)) = true := by
  obtain ⟨s, hs, hf⟩ := hex
  have hsome : ((List.range fmt.dqstrInBlk).find? fun i => f (buf.entry fmt i)).isSome := by
    rw [List.find?_isSome]
    exact ⟨s, List.mem_range.mpr hs, hf⟩
  obtain ⟨t, ht⟩ := Option.isSome_iff_exists.mp hsome
  rw [firstEntry, ht, Option.getD_some]
  have hft := List.find?_some ht
  exact ⟨List.mem_range.mp (List.mem_of_find?_eq_some ht), hft⟩

/-- A block that is not full has an unused entry. -/
theorem exists_unused (hlt : usedEntries fmt buf < fmt.dqstrInBlk) :
    ∃ s < fmt.dqstrInBlk, entryUnused (buf.entry fmt s) = true := by
  by_contra hno
  push Not at hno
  have hall : (Finset.range fmt.dqstrInBlk).filter
      (fun s => entryUnused (buf.entry fmt s) = false) = Finset.range fmt.dqstrInBlk := by
    refine Finset.filter_true_of_mem fun s hs => ?_
    simpa using hno s (Finset.mem_range.mp hs)
  rw [usedEntries, hall, Finset.card_range] at hlt
  exact lt_irrefl _ hlt

theorem usedEntries_le : usedEntries fmt buf ≤ fmt.dqstrInBlk := by
  calc usedEntries fmt buf ≤ (Finset.range fmt.dqstrInBlk).card := Finset.card_filter_le _ _
    _ = fmt.dqstrInBlk := Finset.card_range _

/-! ### Taking an entry -/

/-- A layout where an entry of a block has been counted for an id. -/
def Layout.reserve (L : Layout) (b s id : ℕ) (avail : List ℕ) : Layout where
  role := Function.update L.role b .data
  tree := setTree L.tree 4 id b
  free := L.free
  avail := avail
  stale := some (4, id)
  pending := some (b, s, id)

/-- What an entry of a block is counted in: a data block with its entries, or a new one. -/
structure Counted (h' : QuotaHandle) (leaf : ℕ → ℕ) (b s : ℕ) : Prop where
  owned : ∀ t q, EntryOf h' b t q → leaf q = b
  unique : ∀ t t' q, EntryOf h' b t q → EntryOf h' b t' q → t = t'
  present : ∀ q, leaf q = b → ∃ t, EntryOf h' b t q
  entries : (h'.readBlk b).entries = usedEntries h'.fmt (h'.readBlk b) + 1
  lt : s < h'.fmt.dqstrInBlk
  unused : entryUnused ((h'.readBlk b).entry h'.fmt s) = true

/-- **An entry is counted.** -/
theorem Holds.reserve (H : Holds h L) (hpend : L.pending = none) (hstale : L.stale = none)
    (hid : L.tree 4 id = 0) (hrole : L.role b = .data ∨ L.role b = .limbo) (hfmt : h'.fmt = h.fmt)
    (hblocks : h'.dqiBlocks = h.dqiBlocks) (hfree : FreeList h' L.free)
    (havail : AvailList h' avail)
    (hmem : ∀ c, c ∈ avail ↔
      (c = b ∨ L.role c = .data) ∧ (h'.readBlk c).entries < h'.fmt.dqstrInBlk)
    (hindex : ∀ c d p, L.role c = .index d p → h'.readBlk c = h.readBlk c)
    (hdata : ∀ c, L.role c = .data → c ≠ b → SameEntries (h.readBlk c) (h'.readBlk c) ∧
      (h'.readBlk c).entries = (h.readBlk c).entries)
    (hb : Counted h' (L.tree 4) b s) : Holds h' (L.reserve b s id avail) := by
  have hbout : L.role b ≠ .out := by rcases hrole with hb | hb <;> rw [hb] <;> decide
  have hb0 := H.shape.ne_zero hbout
  have hbindex : ∀ d p, L.role b ≠ .index d p := fun d p heq => by
    rcases hrole with hb | hb <;> rw [hb] at heq <;> cases heq
  have hleaf : ∀ q ≠ id, setTree L.tree 4 id b 4 q = L.tree 4 q := fun q hq =>
    setTree_of_ne fun heq => hq heq.2
  have habove : ∀ d ≤ 3, (L.reserve b s id avail).tree d = L.tree d := fun d hd =>
    setTree_of_depth_ne (by omega)
  refine ⟨?_, ?_, hfree, havail, fun c => ?_, fun c hc => ?_, fun c t q hp => ?_⟩
  · rw [hblocks]
    refine H.shape.update H.shape.two_le H.shape.blocks_le (fun _ _ => Iff.rfl) hb0
      (H.shape.lt_blocks hbout) (by decide) rfl (fun d p => ?_) (fun c _ _ d p hd => ?_)
      (fun q hq => ?_) (fun c => ?_) (habove 0 (by omega))
    · refine iff_of_false (fun heq => by cases heq) ?_
      rintro ⟨hd, heq⟩
      rw [habove d hd] at heq
      exact H.shape.tree_ne hd hb0 hbindex heq
    · rw [habove d hd]
    · change if setTree L.tree 4 id b 4 q = b then _ else _
      split
      · rfl
      · next hne =>
        refine (hleaf q ?_).symm
        rintro rfl
        exact hne setTree_self
    · split
      · next heq =>
        refine iff_of_false (fun hmem => ?_) (by decide)
        have hf := (H.shape.mem_free c).mp hmem
        rw [heq] at hf
        rcases hrole with hb | hb <;> rw [hb] at hf <;> cases hf
      · exact Iff.rfl
  -- the new reference is the stale one, all others are as they were
  · intro d hd q j hst
    change setTree L.tree 4 id b _ _ = if setTree L.tree 4 id b d q = 0 then 0 else
      h'.readBlk (setTree L.tree 4 id b d q) j
    have hplace : ¬ (d + 1 = 4 ∧ q * 256 + (j : ℕ) = id) :=
      fun heq => hst (by rw [heq.1, heq.2]; rfl)
    rw [setTree_of_ne hplace, setTree_of_depth_ne (show d ≠ 4 by omega),
      H.refs d hd q j (by rw [hstale]; exact fun heq => by cases heq)]
    split
    · rfl
    · next hne => rw [hindex _ d q (H.shape.index_of_tree hd hne)]
  · change c ∈ avail ↔ Function.update L.role b .data c = .data ∧ _
    rw [hmem]
    refine and_congr_left fun _ => ?_
    rcases eq_or_ne c b with rfl | hne
    · rw [Function.update_self]
      exact iff_of_true (Or.inl rfl) rfl
    · rw [Function.update_of_ne hne]
      exact or_iff_right hne
  · change Function.update L.role b .data c = .data at hc
    change DataBlock h' (setTree L.tree 4 id b 4) (some (b, s, id)) c
    -- the block the entry is in, and the other data blocks
    rcases eq_or_ne c b with rfl | hne
    · refine ⟨⟨id, setTree_self⟩, fun t q ht => ?_, hb.unique, fun q hq => ?_, ?_⟩
      · rcases eq_or_ne q id with rfl | hq
        · exact setTree_self
        · rw [hleaf q hq, hb.owned t q ht]
      · rcases eq_or_ne q id with rfl | hne
        · exact Or.inr ⟨s, rfl⟩
        · exact Or.inl (hb.present q (hleaf q hne ▸ hq))
      · exact hb.entries.trans (by rw [Option.map_some, if_pos rfl])
    · rw [Function.update_of_ne hne] at hc
      obtain ⟨hsame, hcount⟩ := hdata c hc hne
      have hold := hpend ▸ H.data c hc
      have hc0 := H.shape.ne_zero (hc ▸ by decide : L.role c ≠ .out)
      have hnid : ∀ q, L.tree 4 q = c → q ≠ id := by
        rintro q hq rfl
        exact hc0 (hq.symm.trans hid)
      refine ⟨?_, fun t q ht => ?_, fun t t' q ht ht' => ?_, fun q hq => ?_, ?_⟩
      · obtain ⟨q, hq⟩ := hold.referred
        exact ⟨q, (hleaf q (hnid q hq)).trans hq⟩
      · have hq := hold.owned t q ((EntryOf.congr hfmt hsame).mp ht)
        exact (hleaf q (hnid q hq)).trans hq
      · exact hold.unique t t' q ((EntryOf.congr hfmt hsame).mp ht)
          ((EntryOf.congr hfmt hsame).mp ht')
      · have hqid : q ≠ id := by
          rintro rfl
          exact hne (hq.symm.trans setTree_self)
        rcases hold.present q ((hleaf q hqid).symm.trans hq) with ⟨t, ht⟩ | ⟨t, ht⟩
        · exact Or.inl ⟨t, (EntryOf.congr hfmt hsame).mpr ht⟩
        · cases ht
      · have hpc : ¬ (some (b, s, id)).map Prod.fst = some c := fun heq => hne (by cases heq; rfl)
        rw [if_neg hpc, hcount, hold.entries, hfmt, usedEntries_congr hsame]
        rfl
  · change some (b, s, id) = some (c, t, q) at hp
    cases hp
    refine ⟨Function.update_self .., setTree_self, hb.lt, hb.unused, fun t ht => ?_⟩
    exact hb0 ((hb.owned t id ht).symm.trans hid)

/-! ### What an insertion does -/

/-- **An entry has been counted for an id**, below the place `(d, p)`: the block that is there now
is returned, and where it is a `new` one, the reference to it is still to be written. -/
structure Inserts (h : QuotaHandle) (L : Layout) (id d p : ℕ) (new : Prop) (r : Inserted)
    (newblk b s : ℕ) (L' : Layout) : Prop where
  blk : r.blk = some newblk
  off : r.dqbOff = entryOff h.fmt b s
  holds : Holds r.handle L'
  pending : L'.pending = some (b, s, id)
  tree : L'.tree d p = newblk
  ne_zero : newblk ≠ 0
  leaf : ∀ q ≠ id, L'.tree 4 q = L.tree 4 q
  above : ∀ d' < d, L'.tree d' = L.tree d'
  stale : new → L'.stale = some (d, p)
  done : ¬ new → L'.stale = none
  fmt : r.handle.fmt = h.fmt
  index : ∀ c d p, L.role c = .index d p → L'.role c = .index d p
  kept : new → ∀ c d p, L.role c = .index d p → r.handle.readBlk c = h.readBlk c
  data : ∀ c, L.role c = .data →
    L'.role c = .data ∧ SameEntries (h.readBlk c) (r.handle.readBlk c)
  limbo : ∀ c, L'.role c = .limbo ↔ L.role c = .limbo

/-- **No block was to be had**: what has been taken is free again, and nothing else has changed. -/
structure Fails (h : QuotaHandle) (L : Layout) (r : Inserted) (L' : Layout) : Prop where
  blk : r.blk = none
  off : r.dqbOff = 0
  holds : Holds r.handle L'
  tree : L'.tree = L.tree
  avail : L'.avail = L.avail
  stale : L'.stale = L.stale
  pending : L'.pending = L.pending
  fmt : r.handle.fmt = h.fmt
  role : ∀ c, L.role c ≠ .free → L.role c ≠ .out → L'.role c = L.role c
  back : ∀ c, L.role c = .free ∨ L.role c = .out → L'.role c = .free ∨ L'.role c = .out
  kept : ∀ c < 2 ^ 22, L.role c ≠ .free → L.role c ≠ .limbo → (L.role c = .out → c = 0) →
    r.handle.readBlk c = h.readBlk c

/-- The two ways for an insertion to end. -/
def Outcome (h : QuotaHandle) (L : Layout) (id d p : ℕ) (new : Prop) (r : Inserted) : Prop :=
  (∃ blk b s L', Inserts h L id d p new r blk b s L') ∨ ∃ L', Fails h L r L'

/-! ### Taking an entry of a block -/

/-- What `takeDqentry` does to the blocks, in a block of the list. -/
theorem takeDqentry_blocks (ha : AvailList h avail) (hlt : ∀ c ∈ avail, c < 2 ^ 22) (hb : b ∈ avail)
    (he : (h.readBlk b).entries < h.fmt.dqstrInBlk) {h' : QuotaHandle}
    (hh' : h' = (takeDqentry h (h.readBlk b) b).2) :
    Relinks h h' avail b ∧ SameEntries (h.readBlk b) (h'.readBlk b) ∧
      (h'.readBlk b).entries = (h.readBlk b).entries + 1 ∧
      AvailList h' (if h.fmt.dqstrInBlk ≤ (h.readBlk b).entries + 1 then avail.erase b
        else avail) := by
  have hcap := @dqstrInBlk_lt h.fmt
  have hblt := hlt b hb
  by_cases hfull : h.fmt.dqstrInBlk ≤ (h.readBlk b).entries + 1
  · -- the block is full now
    obtain ⟨hav, hre⟩ := @removeFreeDqentry_spec h (h.readBlk b) avail b ha hlt hb rfl rfl
    obtain ⟨h₁, hh₁⟩ : ∃ h₁, h₁ = (removeFreeDqentry h (h.readBlk b) b).2 := ⟨_, rfl⟩
    rw [← hh₁] at hav hre
    have hw : h' = h₁.writeBlk b ((((h.readBlk b).setNextFree 0).setPrevFree 0).setEntries
        ((h.readBlk b).entries + 1)) := by
      rw [hh', takeDqentry, if_pos hfull, removeFreeDqentry_fst, ← hh₁]
      simp
    have hread : ∀ c < 2 ^ 22, c ≠ b → h'.readBlk c = h₁.readBlk c := fun c hc hne => by
      rw [hw, readBlk_write hblt hc, if_neg hne]
    refine ⟨⟨by rw [hw, writeBlk_fmt, hre.fmt], by rw [hw, writeBlk_dqiBlocks, hre.blocks],
      by rw [hw, writeBlk_dqiFreeBlk, hre.free], fun c hc hne => ?_, fun c hc hne => ?_,
      fun c hc hne hnot => ?_⟩, ?_, ?_, ?_⟩
    · rw [hread c hc hne]
      exact hre.same c hc hne
    · rw [hread c hc hne, hre.entries c hc hne]
    · rw [hread c hc hne, hre.other c hc hne hnot]
    · rw [hw, readBlk_write hblt hblt, if_pos rfl]
      exact (sameEntries_setNextFree.trans sameEntries_setPrevFree).trans sameEntries_setEntries
    · rw [hw, readBlk_write hblt hblt, if_pos rfl, entries_setEntries, Nat.mod_eq_of_lt (by omega)]
    · rw [if_pos hfull]
      refine hav.congr (by rw [hw, writeBlk_dqiFreeEntry]) fun c hc => ?_
      rw [hread c (hlt c (List.mem_of_mem_erase hc)) (ha.nodup.mem_erase_iff.mp hc).1]
      exact ⟨rfl, rfl⟩
  · have hw : h' = h.writeBlk b ((h.readBlk b).setEntries ((h.readBlk b).entries + 1)) := by
      rw [hh', takeDqentry, if_neg hfull]
    have hread : ∀ c < 2 ^ 22, c ≠ b → h'.readBlk c = h.readBlk c := fun c hc hne => by
      rw [hw, readBlk_write hblt hc, if_neg hne]
    have hself : h'.readBlk b = (h.readBlk b).setEntries ((h.readBlk b).entries + 1) := by
      rw [hw, readBlk_write hblt hblt, if_pos rfl]
    refine ⟨⟨by rw [hw, writeBlk_fmt], by rw [hw, writeBlk_dqiBlocks],
      by rw [hw, writeBlk_dqiFreeBlk], fun c hc hne => ?_, fun c hc hne => ?_,
      fun c hc hne _ => hread c hc hne⟩, ?_, ?_, ?_⟩
    · rw [hread c hc hne]
      exact .refl
    · rw [hread c hc hne]
    · rw [hself]
      exact sameEntries_setEntries
    · rw [hself, entries_setEntries, Nat.mod_eq_of_lt (by omega)]
    · rw [if_neg hfull]
      refine ha.congr (by rw [hw, writeBlk_dqiFreeEntry]) fun c hc => ?_
      rcases eq_or_ne c b with rfl | hne
      · rw [hself]
        simp
      · rw [hread c (hlt c hc) hne]
        exact ⟨rfl, rfl⟩

/-- The offset of the entry that is taken, by the entries of the block. -/
theorem takeDqentry_fst (hb : b < 2 ^ 21) (hcap : usedEntries h.fmt buf < h.fmt.dqstrInBlk) :
    ∃ s < h.fmt.dqstrInBlk, entryUnused (buf.entry h.fmt s) = true ∧
      (takeDqentry h buf b).1 = entryOff h.fmt b s := by
  obtain ⟨buf', hbuf'⟩ : ∃ buf', buf' = (if h.fmt.dqstrInBlk ≤ buf.entries + 1 then
      removeFreeDqentry h buf b else (buf, h)).1 := ⟨_, rfl⟩
  have hsame : SameEntries buf (buf'.setEntries (buf'.entries + 1)) := by
    refine SameEntries.trans ?_ sameEntries_setEntries
    rw [hbuf']
    split
    · rw [removeFreeDqentry_fst]
      exact sameEntries_setNextFree.trans sameEntries_setPrevFree
    · exact .refl
  obtain ⟨s, hs, hun⟩ := exists_unused hcap
  obtain ⟨hlt, hfirst⟩ := @firstEntry_spec (buf'.setEntries (buf'.entries + 1)) h.fmt entryUnused
    ⟨s, hs, by rw [hsame.entry]; exact hun⟩
  refine ⟨_, hlt, by rw [← hsame.entry]; exact hfirst, ?_⟩
  rw [takeDqentry]
  dsimp only
  rw [← hbuf', freeDqentryOff_eq hb hlt]

/-- **An entry of a block of the list.** -/
theorem takeDqentry_spec (H : Holds h L) (hpend : L.pending = none) (hstale : L.stale = none)
    (hid : L.tree 4 id = 0) (hb : b ∈ L.avail) :
    ∃ s L', Inserts h L id 4 id True
      ⟨some b, (takeDqentry h (h.readBlk b) b).1, (takeDqentry h (h.readBlk b) b).2⟩ b b s L' := by
  obtain ⟨hrole, he⟩ := (H.mem_avail b).mp hb
  have hbout : L.role b ≠ .out := hrole ▸ by decide
  have hlt : ∀ c ∈ L.avail, c < 2 ^ 22 := fun c hc =>
    H.lt (((H.mem_avail c).mp hc).1 ▸ by decide)
  have hdata := hpend ▸ H.data b hrole
  have hcount : (h.readBlk b).entries = usedEntries h.fmt (h.readBlk b) := hdata.entries
  obtain ⟨h', hh'⟩ : ∃ h', h' = (takeDqentry h (h.readBlk b) b).2 := ⟨_, rfl⟩
  obtain ⟨hre, hsame, hentries, hav⟩ := takeDqentry_blocks H.avail hlt hb he hh'
  have hlt21 : b < 2 ^ 21 := lt_of_lt_of_le (H.shape.lt_blocks hbout) H.shape.blocks_le
  obtain ⟨s, hs, hun, hoff⟩ := takeDqentry_fst hlt21 (hcount ▸ he)
  -- the other blocks
  have hother : ∀ c, L.role c ≠ .out → L.role c ≠ .data → h'.readBlk c = h.readBlk c :=
    fun c hc hcd => hre.other c (H.lt hc) (fun heq => hcd (heq ▸ hrole)) fun hmem =>
      hcd ((H.mem_avail c).mp hmem).1
  have hindex : ∀ c d p, L.role c = .index d p → h'.readBlk c = h.readBlk c := fun c d p hc =>
    hother c (hc ▸ Role.index_ne_out) (hc ▸ Role.index_ne_data)
  have hentry : ∀ t q, EntryOf h' b t q ↔ EntryOf h b t q := fun t q => EntryOf.congr hre.fmt hsame
  have hcounted : Counted h' (L.tree 4) b s := by
    refine ⟨fun t q ht => hdata.owned t q ((hentry t q).mp ht), fun t t' q ht ht' =>
      hdata.unique t t' q ((hentry t q).mp ht) ((hentry t' q).mp ht'), fun q hq => ?_, ?_,
      hre.fmt ▸ hs, ?_⟩
    · obtain ⟨t, ht⟩ := (hdata.present q hq).resolve_right fun ⟨_, hc⟩ => by cases hc
      exact ⟨t, (hentry t q).mpr ht⟩
    · rw [hentries, hcount, hre.fmt, usedEntries_congr hsame]
    · rw [hre.fmt, hsame.entry]
      exact hun
  obtain ⟨avail', havail'⟩ : ∃ l, l = if h.fmt.dqstrInBlk ≤ (h.readBlk b).entries + 1 then
      L.avail.erase b else L.avail := ⟨_, rfl⟩
  rw [← havail'] at hav
  refine ⟨s, L.reserve b s id avail', rfl, hoff, ?_, rfl, setTree_self, H.shape.ne_zero hbout,
    fun q hq => setTree_of_ne fun heq => hq heq.2, fun d hd => setTree_of_depth_ne (by omega),
    fun _ => rfl, fun hn => absurd trivial hn, hh' ▸ hre.fmt, fun c d p hc => ?_,
    fun _ c d p hc => hh' ▸ hindex c d p hc, fun c hc => ⟨?_, ?_⟩, fun c => ?_⟩
  · change Holds (takeDqentry h (h.readBlk b) b).2 _
    rw [← hh']
    refine H.reserve hpend hstale hid (Or.inl hrole) hre.fmt hre.blocks ?_ hav (fun c => ?_) hindex
      (fun c hc hne => ⟨hre.same c (H.lt (hc ▸ by decide)) hne,
        hre.entries c (H.lt (hc ▸ by decide)) hne⟩) hcounted
    · refine H.free.congr hre.free fun c hc => ?_
      have hc := (H.shape.mem_free c).mp hc
      rw [hother c (hc ▸ by decide) (hc ▸ by decide)]
    · rw [hre.fmt]
      rcases eq_or_ne c b with rfl | hne
      · rw [hentries, havail']
        split
        · next hfull =>
          refine iff_of_false (fun hmem => (H.avail.nodup.mem_erase_iff.mp hmem).1 rfl) fun hc => ?_
          omega
        · next hroom => exact iff_of_true hb ⟨Or.inl rfl, by omega⟩
      · have hmem : c ∈ avail' ↔ c ∈ L.avail := by
          rw [havail']
          split
          · rw [H.avail.nodup.mem_erase_iff]
            exact and_iff_right hne
          · exact Iff.rfl
        rw [hmem, H.mem_avail, or_iff_right hne]
        refine and_congr_right fun hc => ?_
        rw [hre.entries c (H.lt (hc ▸ by decide)) hne]
  · change Function.update L.role b .data c = _
    rw [Function.update_of_ne, hc]
    rintro rfl
    rw [hrole] at hc
    cases hc
  · change Function.update L.role b .data c = _
    rcases eq_or_ne c b with rfl | hne
    · exact Function.update_self ..
    · rw [Function.update_of_ne hne, hc]
  · change SameEntries _ ((takeDqentry h (h.readBlk b) b).2.readBlk c)
    rw [← hh']
    rcases eq_or_ne c b with rfl | hne
    · exact hsame
    · exact hre.same c (H.lt (hc ▸ by decide)) hne
  · change Function.update L.role b .data c = _ ↔ _
    rcases eq_or_ne c b with rfl | hne
    · exact iff_of_false (by rw [Function.update_self]; decide) (by rw [hrole]; decide)
    · rw [Function.update_of_ne hne]

end Quota

end E2fsprogs
