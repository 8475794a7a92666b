import E2fsprogs.Quota.InsertTree

/-!
# Writing a record

An entry is written where it has been counted, or over the one that the id has already
(`E2fsprogs.Quota.qtreeWriteDquot_spec`). When no entry was to be had, the record goes to the start
of the file: no block with a role is touched, and the header is gone
(`E2fsprogs.Quota.qtreeWriteDquot_fails`).
-/

namespace E2fsprogs

namespace Quota

open NullChain

variable {h h' : QuotaHandle} {L L' : Layout} {buf : Buf} {fmt : Fmt} {room : ℕ → Bool}
variable {disk : List ℕ} {b c d p q s t : ℕ}

/-! ### Records on disk -/

theorem length_store {id : UInt32} {m : Dqblk} {v : UInt64} :
    (fmt.store id m v).length = fmt.entryWords := by
  cases fmt <;> simp [Fmt.store, le64Words, Fmt.entryWords, Fmt.entrySize]

theorem entryId_store {id : UInt32} {m : Dqblk} {v : UInt64} :
    entryId (fmt.store id m v) = id.toNat := by
  cases fmt <;> rfl

theorem length_mem2disk {id : UInt32} {m : Dqblk} :
    (fmt.mem2disk id m).length = fmt.entryWords := by
  rw [Fmt.mem2disk]
  split <;> exact length_store

theorem entryId_mem2disk {id : UInt32} {m : Dqblk} : entryId (fmt.mem2disk id m) = id.toNat := by
  rw [Fmt.mem2disk]
  split <;> exact entryId_store

/-- A record is never stored as an unused entry. -/
theorem entryUnused_mem2disk {id : UInt32} {m : Dqblk} :
    entryUnused (fmt.mem2disk id m) = false := by
  rw [Fmt.mem2disk]
  split
  · have hone : (1 : ℕ) ∈ fmt.store id m 1 := by
      cases fmt <;> simp [Fmt.store, le64Words]
    by_contra hun
    exact one_ne_zero (entryUnused_iff.mp (Bool.not_eq_false _ ▸ hun) 1 hone)
  · next hused => exact Bool.not_eq_true _ ▸ hused

/-! ### One entry is written -/

/-- A file with an entry that has been written. -/
def QuotaHandle.putEntry (h : QuotaHandle) (b s : ℕ) (disk : List ℕ) : QuotaHandle :=
  { h with file := writeEntry h.file (entryOff h.fmt b s) disk }

/-- What makes a list of words an entry for an id. -/
structure IsEntry (fmt : Fmt) (disk : List ℕ) (id : ℕ) : Prop where
  length : disk.length = fmt.entryWords
  used : entryUnused disk = false
  id : entryId disk = id

theorem isEntry_mem2disk {id : UInt32} {m : Dqblk} :
    IsEntry fmt (fmt.mem2disk id m) id.toNat :=
  ⟨length_mem2disk, entryUnused_mem2disk, entryId_mem2disk⟩

section PutEntry

variable {id : ℕ}

theorem readBlk_putEntry (hb : b < 2 ^ 22) (hc : c < 2 ^ 22) (hs : s < h.fmt.dqstrInBlk)
    (hd : IsEntry h.fmt disk id) :
    (h.putEntry b s disk).readBlk c =
      if c = b then (h.readBlk b).putEntry (4 + s * h.fmt.entryWords) disk else h.readBlk c :=
  readBlk_writeEntry hb hc hs hd.length

/-- The header of the block is as before. -/
theorem header_putEntry (k : ℕ) :
    (buf.putEntry (4 + k) disk).nextFree = buf.nextFree ∧
    (buf.putEntry (4 + k) disk).prevFree = buf.prevFree ∧
    (buf.putEntry (4 + k) disk).entries = buf.entries := by
  have hlt : ∀ i : Fin 256, (i : ℕ) < 4 → buf.putEntry (4 + k) disk i = buf i := fun i hi =>
    if_neg fun hin => by omega
  refine ⟨hlt 0 (by decide), hlt 1 (by decide), ?_⟩
  rw [Buf.entries, hlt 2 (by decide), Buf.entries]

theorem entryOf_putEntry (hb : b < 2 ^ 22) (hc : c < 2 ^ 22) (hs : s < h.fmt.dqstrInBlk)
    (hd : IsEntry h.fmt disk id) :
    EntryOf (h.putEntry b s disk) c t q ↔ if c = b ∧ t = s then q = id else EntryOf h c t q := by
  rw [EntryOf, readBlk_putEntry hb hc hs hd]
  change t < h.fmt.dqstrInBlk ∧ entryUnused (Buf.entry _ h.fmt t) = false ∧
    entryId (Buf.entry _ h.fmt t) = q ↔ _
  rcases eq_or_ne c b with rfl | hcb
  · rw [if_pos rfl]
    rcases eq_or_ne t s with rfl | hts
    · rw [entry_putEntry_self hs hd.length, if_pos ⟨rfl, rfl⟩, hd.id]
      exact ⟨fun h => h.2.2.symm, fun h => ⟨hs, hd.used, h.symm⟩⟩
    · rw [entry_putEntry_of_ne hts hd.length, if_neg fun hc => hts hc.2, EntryOf]
  · rw [if_neg hcb, if_neg fun hc => hcb hc.1, EntryOf]

/-- One more entry is in use, or as many as before. -/
theorem usedEntries_putEntry (hs : s < fmt.dqstrInBlk) (hd : IsEntry fmt disk id) :
    usedEntries fmt (buf.putEntry (4 + s * fmt.entryWords) disk) =
      usedEntries fmt buf + if entryUnused (buf.entry fmt s) = true then 1 else 0 := by
  have hset : (Finset.range fmt.dqstrInBlk).filter (fun t =>
      entryUnused ((buf.putEntry (4 + s * fmt.entryWords) disk).entry fmt t) = false) =
      insert s ((Finset.range fmt.dqstrInBlk).filter fun t =>
        entryUnused (buf.entry fmt t) = false) := by
    ext t
    rw [Finset.mem_insert, Finset.mem_filter, Finset.mem_filter, Finset.mem_range]
    rcases eq_or_ne t s with rfl | hts
    · rw [entry_putEntry_self hs hd.length]
      exact iff_of_true ⟨hs, hd.used⟩ (Or.inl rfl)
    · rw [entry_putEntry_of_ne hts hd.length]
      exact (or_iff_right hts).symm
  rw [usedEntries, hset, usedEntries]
  split
  · next hun =>
    rw [Finset.card_insert_of_notMem]
    rw [Finset.mem_filter, hun]
    exact fun hc => by cases hc.2
  · next hused =>
    rw [Finset.insert_eq_of_mem]
    · rfl
    · rw [Finset.mem_filter, Finset.mem_range]
      exact ⟨hs, Bool.not_eq_true _ ▸ hused⟩

/-- The parts of a layout that do not depend on the entries. -/
theorem Holds.putEntry (H : Holds h L) (hb : L.role b = .data) (hs : s < h.fmt.dqstrInBlk)
    (hd : IsEntry h.fmt disk id) (hL : L'.role = L.role) (htree : L'.tree = L.tree)
    (hfree : L'.free = L.free) (havail : L'.avail = L.avail) (hstale : L'.stale = L.stale)
    (hpending : ∀ c ≠ b, ∀ t q, L'.pending = some (c, t, q) ↔ L.pending = some (c, t, q))
    (hnone : ∀ t q, L'.pending ≠ some (b, t, q))
    (hdata : DataBlock (h.putEntry b s disk) (L.tree 4) L'.pending b) :
    Holds (h.putEntry b s disk) L' := by
  have hblt : b < 2 ^ 22 := H.lt (by rw [hb]; decide)
  have hread : ∀ c < 2 ^ 22, c ≠ b → (h.putEntry b s disk).readBlk c = h.readBlk c :=
    fun c hc hne => by rw [readBlk_putEntry hblt hc hs hd, if_neg hne]
  -- the links and the count are in front of the entries, so writing one keeps them
  have hheader : ∀ c < 2 ^ 22,
      ((h.putEntry b s disk).readBlk c).nextFree = (h.readBlk c).nextFree ∧
      ((h.putEntry b s disk).readBlk c).prevFree = (h.readBlk c).prevFree ∧
      ((h.putEntry b s disk).readBlk c).entries = (h.readBlk c).entries := by
    intro c hc
    rw [readBlk_putEntry hblt hc hs hd]
    split
    · next heq =>
      subst heq
      exact header_putEntry _
    · exact ⟨rfl, rfl, rfl⟩
  have hS := H.shape
  refine ⟨⟨hS.two_le, hS.blocks_le, hL ▸ hS.out, ?_, ?_, ?_, htree ▸ hS.root, htree ▸ hS.root_only⟩,
    ?_, ?_, ?_, fun c => ?_, fun c hc => ?_, fun c t q hp => ?_⟩
  · rw [hL, htree]
    exact hS.index
  · rw [hL, htree]
    exact hS.leaf
  · rw [hL, hfree]
    exact hS.mem_free
  · rw [htree, hstale]
    refine H.refs.congr fun d hd' p hne => ?_
    have hrole := hS.index_of_tree hd' hne
    refine hread _ (H.lt (hrole ▸ Role.index_ne_out)) ?_
    intro heq
    rw [heq, hb] at hrole
    cases hrole
  · rw [hfree]
    refine H.free.congr rfl fun c hc => ?_
    exact (hheader c (H.lt (((hS.mem_free c).mp hc) ▸ by decide))).1
  · rw [havail]
    refine H.avail.congr rfl fun c hc => ?_
    obtain ⟨hn, hp, -⟩ := hheader c (H.lt (((H.mem_avail c).mp hc).1 ▸ by decide))
    exact ⟨hn, hp⟩
  · rw [havail, H.mem_avail, hL]
    refine and_congr_right fun hc => ?_
    rw [(hheader c (H.lt (hc ▸ by decide))).2.2]
    exact Iff.rfl
  · rw [hL] at hc
    rw [htree]
    rcases eq_or_ne c b with rfl | hne
    · exact hdata
    · have hsame := hread c (H.lt (hc ▸ by decide)) hne
      have hold := H.data c hc
      have hent : ∀ t q, EntryOf (h.putEntry b s disk) c t q ↔ EntryOf h c t q := fun t q =>
        EntryOf.congr rfl (by rw [hsame]; exact .refl)
      refine ⟨hold.referred, fun t q ht => hold.owned t q ((hent t q).mp ht), fun t t' q ht ht' =>
        hold.unique t t' q ((hent t q).mp ht) ((hent t' q).mp ht'), fun q hq =>
        (hold.present q hq).imp ?_ ?_, ?_⟩
      · rintro ⟨t, ht⟩
        exact ⟨t, (hent t q).mpr ht⟩
      · rintro ⟨t, ht⟩
        exact ⟨t, (hpending c hne t q).mpr ht⟩
      · rw [hsame, hold.entries]
        have hiff : L'.pending.map Prod.fst = some c ↔ L.pending.map Prod.fst = some c := by
          rw [Option.map_eq_some_iff, Option.map_eq_some_iff]
          constructor
          · rintro ⟨⟨c, t, q⟩, hp, rfl⟩
            exact ⟨_, (hpending c hne t q).mp hp, rfl⟩
          · rintro ⟨⟨c, t, q⟩, hp, rfl⟩
            exact ⟨_, (hpending c hne t q).mpr hp, rfl⟩
        simp only [hiff]
        rfl
  · rcases eq_or_ne c b with rfl | hne
    · exact absurd hp (hnone t q)
    · obtain ⟨hc, hleaf, ht, hun, hno⟩ := H.pending c t q ((hpending c hne t q).mp hp)
      have hsame := hread c (H.lt (hc ▸ by decide)) hne
      have hent : ∀ t, EntryOf (h.putEntry b s disk) c t q ↔ EntryOf h c t q := fun t =>
        EntryOf.congr rfl (by rw [hsame]; exact .refl)
      refine ⟨hL ▸ hc, htree ▸ hleaf, ht, ?_, fun t' ht' => hno t' ((hent t').mp ht')⟩
      rw [hsame]
      exact hun

/-- **The entry that has been counted is written.** -/
theorem Holds.settle (H : Holds h L) (hpend : L.pending = some (b, s, id))
    (hd : IsEntry h.fmt disk id) : Holds (h.putEntry b s disk) { L with pending := none } := by
  obtain ⟨hb, hleaf, hs, hun, hno⟩ := H.pending b s id hpend
  have hblt : b < 2 ^ 22 := H.lt (by rw [hb]; decide)
  have hold := hpend ▸ H.data b hb
  have hentry : ∀ t q, _ := fun t q => @entryOf_putEntry h disk b b q s t id hblt hblt hs hd
  refine H.putEntry hb hs hd rfl rfl rfl rfl rfl (fun c hne t q => ?_)
    (fun t q hc => by cases hc) ?_
  · rw [hpend]
    refine iff_of_false (fun hc => by cases hc) fun hc => ?_
    cases hc
    exact hne rfl
  · refine ⟨hold.referred, fun t q ht => ?_, fun t t' q ht ht' => ?_, fun q hq => Or.inl ?_, ?_⟩
    · rw [hentry] at ht
      split at ht
      · rw [ht, hleaf]
      · exact hold.owned t q ht
    · rw [hentry] at ht ht'
      split at ht
      · next heq =>
        split at ht'
        · next heq' => rw [heq.2, heq'.2]
        · exact absurd (ht ▸ ht') (hno t')
      · split at ht'
        · exact absurd (ht' ▸ ht) (hno t)
        · exact hold.unique t t' q ht ht'
    · rcases hold.present q hq with ⟨t, ht⟩ | ⟨t, ht⟩
      · refine ⟨t, ?_⟩
        rw [hentry, if_neg]
        · exact ht
        · rintro ⟨-, rfl⟩
          rw [ht.2.1] at hun
          cases hun
      · cases ht
        exact ⟨s, (hentry s id).mpr (by rw [if_pos ⟨rfl, rfl⟩])⟩
    · rw [readBlk_putEntry hblt hblt hs hd, if_pos rfl, (header_putEntry _).2.2, hold.entries]
      change _ = usedEntries h.fmt _ + _
      rw [usedEntries_putEntry hs hd, if_pos hun]
      simp

/-- **An entry is written over.** -/
theorem Holds.overwrite (H : Holds h L) (hpend : L.pending = none) (hb : L.role b = .data)
    (hs : EntryOf h b s id) (hd : IsEntry h.fmt disk id) : Holds (h.putEntry b s disk) L := by
  have hblt : b < 2 ^ 22 := H.lt (by rw [hb]; decide)
  have hold := H.data b hb
  have hentry : ∀ t q, EntryOf (h.putEntry b s disk) b t q ↔ EntryOf h b t q := by
    intro t q
    rw [entryOf_putEntry hblt hblt hs.1 hd]
    split
    · next heq =>
      rw [heq.2]
      exact ⟨fun hq => hq ▸ hs, fun ht => ht.2.2.symm.trans hs.2.2⟩
    · exact Iff.rfl
  refine H.putEntry hb hs.1 hd rfl rfl rfl rfl rfl (fun _ _ _ _ => Iff.rfl)
    (fun t q hc => by rw [hpend] at hc; cases hc) ?_
  refine ⟨hold.referred, fun t q ht => hold.owned t q ((hentry t q).mp ht), fun t t' q ht ht' =>
    hold.unique t t' q ((hentry t q).mp ht) ((hentry t' q).mp ht'), fun q hq =>
    (hold.present q hq).imp_left fun ⟨t, ht⟩ => ⟨t, (hentry t q).mpr ht⟩, ?_⟩
  rw [readBlk_putEntry hblt hblt hs.1 hd, if_pos rfl, (header_putEntry _).2.2, hold.entries]
  change _ = usedEntries h.fmt _ + _
  have hused : entryUnused ((h.readBlk b).entry h.fmt s) ≠ true := by
    rw [hs.2.1]
    exact Bool.false_ne_true
  rw [usedEntries_putEntry hs.1 hd, if_neg hused, add_zero]

end PutEntry

end Quota

end E2fsprogs
