import E2fsprogs.Quota.Write

/-!
# Deleting a record

The entry is cleared, or its block given back where it was the last one; then the references on
the way up go, as long as they were the only ones of their blocks. Below the place that a level
has come to nothing leads to the id any more (`E2fsprogs.Quota.Removes`).
-/

namespace E2fsprogs

namespace Quota

open NullChain

variable {h h' : QuotaHandle} {L L' : Layout} {buf : Buf} {fmt : Fmt}
variable {b c d p q s t id : ℕ} {i : Fin 256}

/-! ### Clearing an entry -/

/-- The words of an entry that is cleared. -/
theorem entry_clear_self (hs : s < fmt.dqstrInBlk) :
    entryUnused ((buf.clear (4 + s * fmt.entryWords) fmt.entryWords).entry fmt s) = true := by
  rw [clear_eq_putEntry, entry_putEntry_self hs List.length_replicate, entryUnused_iff]
  exact fun w hw => List.eq_of_mem_replicate hw

theorem entry_clear_of_ne (hne : t ≠ s) :
    (buf.clear (4 + s * fmt.entryWords) fmt.entryWords).entry fmt t = buf.entry fmt t := by
  rw [clear_eq_putEntry, entry_putEntry_of_ne hne List.length_replicate]

/-- One entry less is in use. -/
theorem usedEntries_clear (hs : s < fmt.dqstrInBlk)
    (hused : entryUnused (buf.entry fmt s) = false) :
    usedEntries fmt (buf.clear (4 + s * fmt.entryWords) fmt.entryWords) + 1 =
      usedEntries fmt buf := by
  have hset : (Finset.range fmt.dqstrInBlk).filter (fun t =>
      entryUnused ((buf.clear (4 + s * fmt.entryWords) fmt.entryWords).entry fmt t) = false) =
      ((Finset.range fmt.dqstrInBlk).filter fun t => entryUnused (buf.entry fmt t) =
        false).erase s := by
    ext t
    rw [Finset.mem_erase, Finset.mem_filter, Finset.mem_filter]
    rcases eq_or_ne t s with rfl | hne
    · rw [entry_clear_self hs]
      exact iff_of_false (fun hc => by cases hc.2) fun hc => hc.1 rfl
    · rw [entry_clear_of_ne hne]
      exact (and_iff_right hne).symm
  rw [usedEntries, hset, usedEntries]
  exact Finset.card_erase_add_one (Finset.mem_filter.mpr ⟨Finset.mem_range.mpr hs, hused⟩)

/-- A block with one entry in use has no other one. -/
theorem eq_of_usedEntries_eq_one (hone : usedEntries fmt buf = 1) (hs : s < fmt.dqstrInBlk)
    (hused : entryUnused (buf.entry fmt s) = false) (ht : t < fmt.dqstrInBlk)
    (hused' : entryUnused (buf.entry fmt t) = false) : t = s := by
  obtain ⟨a, ha⟩ := Finset.card_eq_one.mp hone
  have hmem : ∀ u < fmt.dqstrInBlk, entryUnused (buf.entry fmt u) = false → u = a :=
    fun u hu hun => by
    have hin : u ∈ (Finset.range fmt.dqstrInBlk).filter fun t =>
        entryUnused (buf.entry fmt t) = false :=
      Finset.mem_filter.mpr ⟨Finset.mem_range.mpr hu, hun⟩
    rw [ha] at hin
    exact Finset.mem_singleton.mp hin
  rw [hmem t ht hused', hmem s hs hused]

/-- A block with several entries in use has another one. -/
theorem exists_used_ne (htwo : 2 ≤ usedEntries fmt buf) (s : ℕ) :
    ∃ t < fmt.dqstrInBlk, t ≠ s ∧ entryUnused (buf.entry fmt t) = false := by
  obtain ⟨t, ht, hne⟩ := Finset.exists_mem_ne (show 1 < _ from htwo) s
  rw [Finset.mem_filter, Finset.mem_range] at ht
  exact ⟨t, ht.1, hne, ht.2⟩

theorem usedEntries_pos (hs : s < fmt.dqstrInBlk) (hused : entryUnused (buf.entry fmt s) = false) :
    1 ≤ usedEntries fmt buf :=
  Finset.card_pos.mpr ⟨s, Finset.mem_filter.mpr ⟨Finset.mem_range.mpr hs, hused⟩⟩

/-! ### An entry is freed -/

theorem DataBlock.leaf_congr {leaf leaf' : ℕ → ℕ} {pending : Option (ℕ × ℕ × ℕ)}
    (hd : DataBlock h leaf pending b) (hiff : ∀ q, leaf' q = b ↔ leaf q = b) :
    DataBlock h leaf' pending b where
  referred := hd.referred.imp fun q hq => (hiff q).mpr hq
  owned s q hs := (hiff q).mpr (hd.owned s q hs)
  unique := hd.unique
  present q hq := hd.present q ((hiff q).mp hq)
  entries := hd.entries

/-- **What is left when nothing leads to an id any more**, from the place `(d, p)` on: the block
that is there now, or none, and then the reference to it has still to go. -/
structure Removes (h : QuotaHandle) (L : Layout) (id b s d p : ℕ) (r : ℕ × QuotaHandle)
    (L' : Layout) : Prop where
  holds : Holds r.2 L'
  pending : L'.pending = none
  tree : L'.tree d p = r.1
  stale : r.1 = 0 → L'.stale = some (d, p)
  done : r.1 ≠ 0 → L'.stale = none
  gone : L'.tree 4 id = 0
  leaf : ∀ q ≠ id, L'.tree 4 q = L.tree 4 q
  above : ∀ d' < d, L'.tree d' = L.tree d'
  kept : ∀ d' < d, ∀ c p', L.role c = .index d' p' → r.2.readBlk c = h.readBlk c
  data : ∀ c, L'.role c = .data → L.role c = .data ∧ ∀ t, ¬ (c = b ∧ t = s) →
    (r.2.readBlk c).entry h.fmt t = (h.readBlk c).entry h.fmt t
  fmt : r.2.fmt = h.fmt
  limbo : ∀ c, L'.role c = .limbo ↔ L.role c = .limbo

/-- The references, when one data block is not referred to any more. -/
theorem Refs.clear_leaf (H : Holds h L) (hstale : L.stale = none)
    (hindex : ∀ c d p, L.role c = .index d p → h'.readBlk c = h.readBlk c) :
    Refs h' (setTree L.tree 4 id 0) (some (4, id)) := by
  intro d hd p j hst
  have hplace : ¬ (d + 1 = 4 ∧ p * 256 + (j : ℕ) = id) := fun heq => hst (by rw [heq.1, heq.2])
  rw [setTree_of_ne hplace, setTree_of_depth_ne (show d ≠ 4 by omega),
    H.refs d hd p j (by rw [hstale]; exact fun heq => by cases heq)]
  split
  · rfl
  · next hne => rw [hindex _ d p (H.shape.index_of_tree hd hne)]

/-- **One of several entries is freed.** -/
theorem Holds.release (H : Holds h L) (hpend : L.pending = none) (hstale : L.stale = none)
    (hb : L.tree 4 id = b) (hb0 : b ≠ 0) (hs : EntryOf h b s id) (hfmt : h'.fmt = h.fmt)
    (hblocks : h'.dqiBlocks = h.dqiBlocks) (hfree : FreeList h' L.free) {avail : List ℕ}
    (havail : AvailList h' avail)
    (hmem : ∀ c, c ∈ avail ↔ L.role c = .data ∧ (h'.readBlk c).entries < h'.fmt.dqstrInBlk)
    (hindex : ∀ c d p, L.role c = .index d p → h'.readBlk c = h.readBlk c)
    (hdata : ∀ c, L.role c = .data → c ≠ b → SameEntries (h.readBlk c) (h'.readBlk c) ∧
      (h'.readBlk c).entries = (h.readBlk c).entries)
    (htwo : 2 ≤ (h.readBlk b).entries)
    (hentry : ∀ t ≠ s, (h'.readBlk b).entry h.fmt t = (h.readBlk b).entry h.fmt t)
    (hclear : entryUnused ((h'.readBlk b).entry h.fmt s) = true)
    (hcount : (h'.readBlk b).entries + 1 = (h.readBlk b).entries)
    (hused : usedEntries h.fmt (h'.readBlk b) + 1 = usedEntries h.fmt (h.readBlk b)) :
    Holds h' { L with
      tree := setTree L.tree 4 id 0
      avail := avail
      stale := some (4, id) } := by
  have hrole : L.role b = .data := hb ▸ H.shape.leaf id (hb ▸ hb0)
  have hS := H.shape
  have hold := hpend ▸ H.data b hrole
  have htree : ∀ d ≤ 3, setTree L.tree 4 id 0 d = L.tree d := fun d hd =>
    setTree_of_depth_ne (by omega)
  have hleaf : ∀ q ≠ id, setTree L.tree 4 id 0 4 q = L.tree 4 q := fun q hq =>
    setTree_of_ne fun heq => hq heq.2
  have hent : ∀ t q, EntryOf h' b t q ↔ t ≠ s ∧ EntryOf h b t q := by
    intro t q
    rw [EntryOf, hfmt]
    rcases eq_or_ne t s with rfl | hts
    · rw [hclear]
      exact iff_of_false (fun hc => by cases hc.2.1) fun hc => hc.1 rfl
    · rw [hentry t hts]
      exact (and_iff_right hts).symm
  refine ⟨hblocks ▸ ⟨hS.two_le, hS.blocks_le, hS.out, fun c d p => ?_, fun q hq => ?_,
    hS.mem_free, ?_, fun p hp => ?_⟩, Refs.clear_leaf H hstale hindex, hfree, havail, hmem,
    fun c hc => ?_, fun c t q hp => ?_⟩
  · rw [hS.index]
    exact and_congr_right fun hd => by rw [← htree d hd]
  · have hqid : q ≠ id := by
      rintro rfl
      exact hq setTree_self
    change L.role (setTree L.tree 4 id 0 4 q) = .data
    rw [hleaf q hqid]
    exact hS.leaf q fun h0 => hq ((hleaf q hqid).trans h0)
  · exact (congrFun (htree 0 (by omega)) 0).trans hS.root
  · exact (congrFun (htree 0 (by omega)) p).trans (hS.root_only p hp)
  · change DataBlock h' (setTree L.tree 4 id 0 4) L.pending c
    rw [hpend]
    rcases eq_or_ne c b with rfl | hne
    · -- the entries but one
      have hqid : ∀ t q, t ≠ s → EntryOf h c t q → q ≠ id := by
        rintro t q hts ht rfl
        exact hts (hold.unique t s q ht hs)
      refine ⟨?_, fun t q ht => ?_, fun t t' q ht ht' => ?_, fun q hq => Or.inl ?_, ?_⟩
      · have hcount : (h.readBlk c).entries = usedEntries h.fmt (h.readBlk c) := hold.entries
        obtain ⟨t, ht, hts, hused'⟩ := exists_used_ne (hcount ▸ htwo) s
        have htq : EntryOf h c t _ := ⟨ht, hused', rfl⟩
        exact ⟨_, (hleaf _ (hqid t _ hts htq)).trans (hold.owned t _ htq)⟩
      · obtain ⟨hts, ht⟩ := (hent t q).mp ht
        exact (hleaf q (hqid t q hts ht)).trans (hold.owned t q ht)
      · exact hold.unique t t' q ((hent t q).mp ht).2 ((hent t' q).mp ht').2
      · have hne : q ≠ id := by
          rintro rfl
          exact hb0 (hq.symm.trans setTree_self)
        obtain ⟨t, ht⟩ := (hold.present q ((hleaf q hne).symm.trans hq)).resolve_right (by
          rintro ⟨_, hc⟩
          cases hc)
        refine ⟨t, (hent t q).mpr ⟨?_, ht⟩⟩
        rintro rfl
        exact hne (ht.2.2.symm.trans hs.2.2)
      · have hcount' : (h.readBlk c).entries = usedEntries h.fmt (h.readBlk c) := hold.entries
        rw [hfmt]
        change _ = _ + 0
        omega
    · obtain ⟨hsame, hcount⟩ := hdata c hc hne
      have hc0 := hS.ne_zero (by rw [hc]; decide : L.role c ≠ .out)
      refine ((hpend ▸ H.data c hc).congr hfmt hsame hcount).leaf_congr fun q => ?_
      rcases eq_or_ne q id with rfl | hq
      · rw [setTree_self, hb]
        exact iff_of_false hc0.symm hne.symm
      · rw [hleaf q hq]
  · change L.pending = _ at hp
    rw [hpend] at hp
    cases hp

/-- **The last entry of a block is freed**: the block has no role any more. -/
theorem Holds.releaseLast (H : Holds h L) (hpend : L.pending = none) (hstale : L.stale = none)
    (hb : L.tree 4 id = b) (hb0 : b ≠ 0) (hs : EntryOf h b s id)
    (hre : Relinks h h' L.avail b) (havail : AvailList h' (L.avail.erase b))
    (hone : (h.readBlk b).entries = 1) :
    Holds h' { L with
      role := Function.update L.role b .limbo
      tree := setTree L.tree 4 id 0
      avail := L.avail.erase b
      stale := some (4, id) } := by
  have hrole : L.role b = .data := hb ▸ H.shape.leaf id (hb ▸ hb0)
  have hbout : L.role b ≠ .out := by
    rw [hrole]
    decide
  have hold := hpend ▸ H.data b hrole
  have hused : usedEntries h.fmt (h.readBlk b) = 1 := hold.entries.symm.trans hone
  have htree : ∀ d ≤ 3, setTree L.tree 4 id 0 d = L.tree d := fun d hd =>
    setTree_of_depth_ne (by omega)
  have hleaf : ∀ q ≠ id, setTree L.tree 4 id 0 4 q = L.tree 4 q := fun q hq =>
    setTree_of_ne fun heq => hq heq.2
  -- no other id leads to the block
  have honly : ∀ q, L.tree 4 q = b → q = id := by
    intro q hq
    obtain ⟨t, ht⟩ := (hold.present q hq).resolve_right fun ⟨_, hc⟩ => by cases hc
    obtain rfl := eq_of_usedEntries_eq_one hused hs.1 hs.2.1 ht.1 ht.2.1
    exact ht.2.2.symm.trans hs.2.2
  have hother : ∀ c, L.role c ≠ .out → L.role c ≠ .data → h'.readBlk c = h.readBlk c :=
    fun c hc hcd => hre.other c (H.lt hc) (fun heq => hcd (heq ▸ hrole)) fun hmem =>
      hcd ((H.mem_avail c).mp hmem).1
  refine ⟨?_, Refs.clear_leaf H hstale fun c d p hc => hother c (hc ▸ Role.index_ne_out)
    (hc ▸ Role.index_ne_data), ?_, havail, fun c => ?_, fun c hc => ?_, fun c t q hp => ?_⟩
  · rw [hre.blocks]
    refine H.shape.update H.shape.two_le H.shape.blocks_le (fun _ _ => Iff.rfl) hb0
      (H.shape.lt_blocks hbout) (by decide) rfl (fun d p => ?_) (fun c _ _ d p hd => ?_)
      (fun q hq => ?_) (fun c => ?_) (htree 0 (by omega))
    · refine iff_of_false (fun heq => by cases heq) ?_
      rintro ⟨hd, heq⟩
      refine H.shape.tree_ne hd hb0 (fun d p heq => ?_) ((congrFun (htree d hd) p).symm.trans heq)
      rw [hrole] at heq
      cases heq
    · change setTree L.tree 4 id 0 d p = c ↔ _
      rw [htree d hd]
    · change if setTree L.tree 4 id 0 4 q = b then _ else L.tree 4 q = setTree L.tree 4 id 0 4 q
      have hqid : q ≠ id := by
        rintro rfl
        exact hq setTree_self
      rw [hleaf q hqid, if_neg fun heq => hqid (honly q heq)]
    · split
      · next heq =>
        refine iff_of_false (fun hmem => ?_) (by decide)
        have hf := (H.shape.mem_free c).mp hmem
        rw [heq, hrole] at hf
        cases hf
      · exact Iff.rfl
  · refine H.free.congr hre.free fun c hc => ?_
    have hc := (H.shape.mem_free c).mp hc
    rw [hother c (hc ▸ by decide) (hc ▸ by decide)]
  · change c ∈ L.avail.erase b ↔ Function.update L.role b .limbo c = .data ∧ _
    rw [H.avail.nodup.mem_erase_iff]
    rcases eq_or_ne c b with rfl | hne
    · rw [Function.update_self]
      exact iff_of_false (fun hc => hc.1 rfl) fun hc => by cases hc.1
    · rw [Function.update_of_ne hne, and_iff_right hne, H.mem_avail, hre.fmt]
      refine and_congr_right fun hc => ?_
      rw [hre.entries c (H.lt (hc ▸ by decide)) hne]
  · change Function.update L.role b .limbo c = .data at hc
    change DataBlock h' (setTree L.tree 4 id 0 4) L.pending c
    have hne : c ≠ b := by
      rintro rfl
      rw [Function.update_self] at hc
      cases hc
    rw [Function.update_of_ne hne] at hc
    have hcout : L.role c ≠ .out := by
      rw [hc]
      decide
    refine ((H.data c hc).congr hre.fmt (hre.same c (H.lt hcout) hne)
      (hre.entries c (H.lt hcout) hne)).leaf_congr fun q => ?_
    rcases eq_or_ne q id with rfl | hq
    · rw [setTree_self, hb]
      exact iff_of_false (H.shape.ne_zero hcout).symm hne.symm
    · rw [hleaf q hq]
  · change L.pending = _ at hp
    rw [hpend] at hp
    cases hp

/-- **An entry is freed**, and its block where it was the last one. -/
theorem freeDqentry_spec (H : Holds h L) (hpend : L.pending = none) (hstale : L.stale = none)
    (hb : L.tree 4 id = b) (hb0 : b ≠ 0) (hs : EntryOf h b s id) :
    ∃ L', Removes h L id b s 4 id (0, freeDqentry h (entryOff h.fmt b s) b) L' := by
  have hrole : L.role b = .data := hb ▸ H.shape.leaf id (hb ▸ hb0)
  have hbout : L.role b ≠ .out := by
    rw [hrole]
    decide
  have hblt := H.lt hbout
  have hcap := @dqstrInBlk_lt h.fmt
  have hcap2 := @two_le_dqstrInBlk h.fmt
  have hold := hpend ▸ H.data b hrole
  have hcount : (h.readBlk b).entries = usedEntries h.fmt (h.readBlk b) := hold.entries
  have hpos : 1 ≤ (h.readBlk b).entries := hcount ▸ usedEntries_pos hs.1 hs.2.1
  have hle : (h.readBlk b).entries ≤ h.fmt.dqstrInBlk := hcount ▸ usedEntries_le
  have hlt : ∀ c ∈ L.avail, c < 2 ^ 22 := fun c hc =>
    H.lt (((H.mem_avail c).mp hc).1 ▸ by decide)
  have hdata : ∀ c, L.role c = .data → L.role c ≠ .out := fun c hc => hc ▸ by decide
  obtain ⟨buf, hbuf⟩ : ∃ buf,
      buf = (h.readBlk b).setEntries ((h.readBlk b).entries + (2 ^ 16 - 1)) :=
    ⟨_, rfl⟩
  have hentries : buf.entries + 1 = (h.readBlk b).entries := by
    rw [hbuf, entries_setEntries]
    omega
  have hsame : SameEntries (h.readBlk b) buf := hbuf ▸ sameEntries_setEntries
  have hnext : buf.nextFree = (h.readBlk b).nextFree := by rw [hbuf, nextFree_setEntries]
  have hprev : buf.prevFree = (h.readBlk b).prevFree := by rw [hbuf, prevFree_setEntries]
  by_cases hone : buf.entries = 0
  · -- the block has no entry any more
    have hmem : b ∈ L.avail := (H.mem_avail b).mpr ⟨hrole, by omega⟩
    obtain ⟨hav, hre⟩ := removeFreeDqentry_spec H.avail hlt hmem hnext hprev
    have hfree : freeDqentry h (entryOff h.fmt b s) b =
        putFreeDqblk (removeFreeDqentry h buf b).2 (removeFreeDqentry h buf b).1 b := by
      rw [freeDqentry, ← hbuf]
      exact if_pos hone
    have H₁ := H.releaseLast hpend hstale hb hb0 hs hre hav (by omega)
    obtain ⟨h₁, hh₁⟩ : ∃ h₁, h₁ = (removeFreeDqentry h buf b).2 := ⟨_, rfl⟩
    rw [← hh₁] at H₁ hre hfree
    have hlimbo : Function.update L.role b .limbo b = .limbo := Function.update_self ..
    have H₂ := @putFreeDqblk_spec _ _ (removeFreeDqentry h buf b).1 _ H₁ hlimbo
    rw [hfree]
    have hread : ∀ c < 2 ^ 22, c ≠ b →
        (putFreeDqblk h₁ (removeFreeDqentry h buf b).1 b).readBlk c = h₁.readBlk c :=
      fun c hc hne => by rw [readBlk_putFreeDqblk hblt hc, if_neg hne]
    refine ⟨_, H₂, hpend, setTree_self, fun _ => rfl, fun hn => absurd rfl hn, setTree_self,
      fun q hq => setTree_of_ne fun heq => hq heq.2, fun d hd => setTree_of_depth_ne (by omega),
      fun d hd c p hc => ?_, fun c hc => ?_, hre.fmt, fun c => ?_⟩
    · have hne : c ≠ b := by
        rintro rfl
        rw [hrole] at hc
        cases hc
      have hcout : L.role c ≠ .out := hc ▸ Role.index_ne_out
      rw [hread c (H.lt hcout) hne, hre.other c (H.lt hcout) hne]
      intro hmem
      have := ((H.mem_avail c).mp hmem).1
      rw [hc] at this
      cases this
    · change Function.update (Function.update L.role b .limbo) b .free c = .data at hc
      have hne : c ≠ b := by
        rintro rfl
        rw [Function.update_self] at hc
        cases hc
      rw [Function.update_of_ne hne, Function.update_of_ne hne] at hc
      refine ⟨hc, fun t _ => ?_⟩
      rw [hread c (H.lt (hdata c hc)) hne, (hre.same c (H.lt (hdata c hc)) hne).entry]
    · change Function.update (Function.update L.role b .limbo) b .free c = _ ↔ _
      rcases eq_or_ne c b with rfl | hne
      · exact iff_of_false (by rw [Function.update_self]; decide) (by rw [hrole]; decide)
      · rw [Function.update_of_ne hne, Function.update_of_ne hne]
  · have hoff : entryOff h.fmt b s % qtBlksize / 4 = 4 + s * h.fmt.entryWords := entryOff_mod hs.1
    obtain ⟨buf', hbuf'⟩ : ∃ buf', buf' =
        buf.clear (4 + s * h.fmt.entryWords) h.fmt.entryWords := ⟨_, rfl⟩
    have hhead := @header_putEntry buf (List.replicate h.fmt.entryWords 0) (s * h.fmt.entryWords)
    rw [← clear_eq_putEntry, ← hbuf'] at hhead
    have hself : entryUnused (buf'.entry h.fmt s) = true := hbuf' ▸ entry_clear_self hs.1
    have hrest : ∀ t ≠ s, buf'.entry h.fmt t = (h.readBlk b).entry h.fmt t := fun t hne => by
      rw [hbuf', entry_clear_of_ne hne, hsame.entry]
    have hused : usedEntries h.fmt buf' + 1 = usedEntries h.fmt (h.readBlk b) := by
      rw [hbuf', usedEntries_clear hs.1 (by rw [hsame.entry]; exact hs.2.1),
        usedEntries_congr hsame]
    have hcount' : buf'.entries + 1 = (h.readBlk b).entries := by rw [hhead.2.2, hentries]
    -- what follows depends on whether the block was full
    have hfinish : ∀ h' avail, freeDqentry h (entryOff h.fmt b s) b = h' → Relinks h h' L.avail b →
        SameEntries buf' (h'.readBlk b) → (h'.readBlk b).entries = buf'.entries →
        AvailList h' avail → (∀ c, c ∈ avail ↔ c = b ∨ c ∈ L.avail) →
        ∃ L', Removes h L id b s 4 id (0, freeDqentry h (entryOff h.fmt b s) b) L' := by
      intro h' avail hh' hre hsame' hent' hav hmem
      have hother : ∀ c, L.role c ≠ .out → L.role c ≠ .data → h'.readBlk c = h.readBlk c :=
        fun c hc hcd => hre.other c (H.lt hc) (fun heq => hcd (heq ▸ hrole)) fun hmem =>
          hcd ((H.mem_avail c).mp hmem).1
      have hindex : ∀ c d p, L.role c = .index d p → h'.readBlk c = h.readBlk c := fun c d p hc =>
        hother c (hc ▸ Role.index_ne_out) (hc ▸ Role.index_ne_data)
      have hrel := H.release hpend hstale hb hb0 hs hre.fmt hre.blocks
        (H.free.congr hre.free fun c hc => by
          have hc := (H.shape.mem_free c).mp hc
          rw [hother c (hc ▸ by decide) (hc ▸ by decide)]) hav
        (fun c => ?_) hindex (fun c hc hne => ⟨hre.same c (H.lt (hdata c hc)) hne,
          hre.entries c (H.lt (hdata c hc)) hne⟩) (by omega)
        (fun t hne => by rw [hsame'.entry, hrest t hne]) (by rw [hsame'.entry]; exact hself)
        (by rw [hent', hcount']) (by rw [usedEntries_congr hsame', hused])
      · rw [hh']
        refine ⟨_, hrel, hpend, setTree_self, fun _ => rfl, fun hn => absurd rfl hn, setTree_self,
          fun q hq => setTree_of_ne fun heq => hq heq.2, fun d hd => setTree_of_depth_ne (by omega),
          fun d hd c p hc => hindex c d p hc, fun c hc => ⟨hc, fun t ht => ?_⟩, hre.fmt, fun _ =>
            Iff.rfl⟩
        rcases eq_or_ne c b with rfl | hne
        · exact hsame'.entry.trans (hrest t fun heq => ht ⟨rfl, heq⟩)
        · exact (hre.same c (H.lt (hdata c hc)) hne).entry
      · rw [hmem, hre.fmt]
        rcases eq_or_ne c b with rfl | hne
        · rw [hent']
          exact iff_of_true (Or.inl rfl) ⟨hrole, by omega⟩
        · rw [or_iff_right hne, H.mem_avail]
          refine and_congr_right fun hc => ?_
          rw [hre.entries c (H.lt (hdata c hc)) hne]
    have hfree : freeDqentry h (entryOff h.fmt b s) b =
        if buf'.entries = h.fmt.dqstrInBlk - 1 then insertFreeDqentry h buf' b
        else h.writeBlk b buf' := by
      rw [freeDqentry, ← hbuf, hoff]
      dsimp only
      rw [if_neg hone, ← hbuf']
    by_cases hfull : buf'.entries = h.fmt.dqstrInBlk - 1
    · have hnot : b ∉ L.avail := fun hmem => by
        have := ((H.mem_avail b).mp hmem).2
        omega
      obtain ⟨hav, hre, hbself⟩ :=
        @insertFreeDqentry_spec h buf' L.avail b H.avail hlt hnot hb0 hblt
      refine hfinish _ _ (hfree.trans (if_pos hfull)) hre ?_ ?_ hav fun c => List.mem_cons
      · rw [hbself]
        exact sameEntries_setNextFree.trans sameEntries_setPrevFree
      · rw [hbself]
        simp
    · have hmem : b ∈ L.avail := (H.mem_avail b).mpr ⟨hrole, by omega⟩
      have hread : ∀ c < 2 ^ 22, (h.writeBlk b buf').readBlk c = if c = b then buf'
          else h.readBlk c :=
        fun c hc => readBlk_write hblt hc
      have hbself := (hread b hblt).trans (if_pos rfl)
      have hothers : ∀ c < 2 ^ 22, c ≠ b → (h.writeBlk b buf').readBlk c = h.readBlk c :=
        fun c hc hne => (hread c hc).trans (if_neg hne)
      refine hfinish _ L.avail (hfree.trans (if_neg hfull)) ⟨rfl, rfl, rfl, fun c hc hne => ?_,
        fun c hc hne => ?_, fun c hc hne _ => hothers c hc hne⟩ ?_ ?_ ?_ fun c => ?_
      · rw [hothers c hc hne]
        exact .refl
      · rw [hothers c hc hne]
      · rw [hbself]
        exact .refl
      · rw [hbself]
      · refine H.avail.congr rfl fun c hc => ?_
        rcases eq_or_ne c b with rfl | hne
        · rw [hbself, hhead.1, hhead.2.1, hnext, hprev]
          exact ⟨rfl, rfl⟩
        · rw [hothers c (hlt c hc) hne]
          exact ⟨rfl, rfl⟩
      · constructor
        · exact Or.inr
        · rintro (rfl | hc)
          · exact hmem
          · exact hc

end Quota

end E2fsprogs
