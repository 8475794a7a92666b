import E2fsprogs.Quota.Lookup

/-!
# Sequences of calls

A quota file that has been made by `v2_new_io`, and then written, deleted from and read any number
of times, has a layout in which every id has the last record that was written for it
(`E2fsprogs.Quota.Stored`). Each caller keeps the offset of an id in the dquot that it has for it.

The record of id zero with nothing but an `itime` of one is what an all-zero record of that id is
stored as, and it comes back as one (`E2fsprogs.Quota.disk2mem_mem2disk`).
-/

namespace E2fsprogs

namespace Quota

/-! ### Calls -/

/-- A file with the offsets of the dquots in memory. -/
structure QuotaState where
  handle : QuotaHandle
  off : UInt32 → ℕ

inductive QuotaOp
  | write (id : UInt32) (dqb : Dqblk)
  | delete (id : UInt32)
  | read (id : UInt32)

/-- A call for the dquot of an id. -/
def QuotaOp.call (room : ℕ → Bool) (st : QuotaState) : QuotaOp → QuotaState
  | .write id dqb =>
    let r := qtreeWriteDquot room st.handle ⟨id, dqb, st.off id⟩
    ⟨r.2, Function.update st.off id r.1.dqbOff⟩
  | .delete id =>
    let r := qtreeDeleteDquot st.handle ⟨id, .empty, st.off id⟩
    ⟨r.2, Function.update st.off id r.1.dqbOff⟩
  | .read id => ⟨st.handle, Function.update st.off id (qtreeReadDquot st.handle id).dqbOff⟩

/-- The records that have been written last and have not been deleted. -/
def QuotaOp.record (records : UInt32 → Option Dqblk) : QuotaOp → UInt32 → Option Dqblk
  | .write id dqb => Function.update records id (some dqb)
  | .delete id => Function.update records id none
  | .read _ => records

def lastRecords (calls : List ((ℕ → Bool) × QuotaOp)) : UInt32 → Option Dqblk :=
  calls.foldl (fun records c => c.2.record records) fun _ => none

/-- These calls lead from a new file to a state, and the file stays below 2^31 bytes. Each call has
its own room. -/
inductive QuotaRun (magic : ℕ) : List ((ℕ → Bool) × QuotaOp) → QuotaState → Prop
  | start : QuotaRun magic [] ⟨v2NewIo magic, fun _ => 0⟩
  | call {calls : List ((ℕ → Bool) × QuotaOp)} {st : QuotaState} (room : ℕ → Bool) (op : QuotaOp)
      (run : QuotaRun magic calls st) (small : (op.call room st).handle.dqiBlocks ≤ 2 ^ 21) :
      QuotaRun magic (calls ++ [(room, op)]) (op.call room st)

/-- The record that is read for an id. -/
def readBack (id : UInt32) : Option Dqblk → Dqblk
  | none => .empty
  | some dqb => if id = 0 ∧ dqb = { Dqblk.empty with itime := 1 } then .empty else dqb

/-! ### Records come back -/

theorem ofLe64_le64Words (v : UInt64) : ofLe64 (v.toNat % 2 ^ 32) (v.toNat / 2 ^ 32) = v := by
  rw [ofLe64, Nat.mod_add_div, UInt64.ofNat_toNat]

theorem load_store {id : UInt32} {m : Dqblk} {v : UInt64} :
    Fmt.r1.load (Fmt.r1.store id m v) = { m with itime := v } := by
  simp only [Fmt.load, Fmt.store, le64Words, List.cons_append, List.nil_append, List.getD_cons_zero,
    List.getD_cons_succ, ofLe64_le64Words]

theorem store_inj {id id' : UInt32} {m m' : Dqblk} {v v' : UInt64} :
    Fmt.r1.store id m v = Fmt.r1.store id' m' v' ↔ id = id' ∧
    { m with itime := v } = { m' with itime := v' } := by
  constructor
  · intro h
    have hid := congrArg entryId h
    rw [entryId_store, entryId_store] at hid
    have hload := congrArg Fmt.r1.load h
    rw [load_store, load_store] at hload
    exact ⟨UInt32.toNat_inj.mp hid, hload⟩
  · rintro ⟨rfl, h⟩
    obtain ⟨a, b, c, d, e, f, g, i⟩ := m
    obtain ⟨a', b', c', d', e', f', g', i'⟩ := m'
    cases h
    rfl

theorem entryUnused_store_iff {id : UInt32} {m : Dqblk} {v : UInt64} :
    entryUnused (Fmt.r1.store id m v) = true ↔ id = 0 ∧ { m with itime := v } = Dqblk.empty := by
  have hzero : entryUnused (Fmt.r1.store 0 .empty 0) = true := by decide
  have hlen : (Fmt.r1.store id m v).length = (Fmt.r1.store 0 .empty 0).length := by
    rw [length_store, length_store]
  rw [entryUnused_iff] at hzero ⊢
  constructor
  · intro h
    have heq : Fmt.r1.store id m v = Fmt.r1.store 0 .empty 0 := by
      refine List.ext_getElem hlen fun k h1 h2 => ?_
      rw [h _ (List.getElem_mem h1), hzero _ (List.getElem_mem h2)]
    exact store_inj.mp heq
  · intro h
    have heq := store_inj.mpr (h : id = 0 ∧ { m with itime := v } = { Dqblk.empty with itime := 0 })
    rw [heq]
    exact hzero

/-- **A record comes back as it was stored**, but for one of id zero that stands for an all-zero
one. -/
theorem disk2mem_mem2disk {id : UInt32} {m : Dqblk} :
    Fmt.r1.disk2mem (Fmt.r1.mem2disk id m) = readBack id (some m) := by
  rw [Fmt.mem2disk, readBack]
  by_cases hun : entryUnused (Fmt.r1.store id m m.itime) = true
  · rw [if_pos hun]
    obtain ⟨rfl, rfl⟩ : id = 0 ∧ m = .empty := entryUnused_store_iff.mp hun
    decide
  · rw [if_neg hun, Fmt.disk2mem]
    have hiff : Fmt.r1.store id m m.itime = Fmt.r1.store 0 .empty 1 ↔
        id = 0 ∧ m = { Dqblk.empty with itime := 1 } := store_inj
    by_cases h : id = 0 ∧ m = { Dqblk.empty with itime := 1 }
    · rw [if_pos (hiff.mpr h), if_pos h, load_store, h.2]
      rfl
    · rw [if_neg (mt hiff.mp h), if_neg h, load_store]

/-! ### The invariant -/

/-- **Every id has its record** in a file with nothing amiss, and its dquot has the offset. -/
structure Stored (st : QuotaState) (records : UInt32 → Option Dqblk) (L : Layout) :
    Prop extends Settled st.handle L where
  no_limbo : ∀ b, L.role b ≠ .limbo
  r1 : st.handle.fmt = .r1
  absent : ∀ id, records id = none → L.tree 4 id.toNat = 0 ∧ st.off id = 0
  present : ∀ id dqb, records id = some dqb → L.tree 4 id.toNat ≠ 0 ∧
    ∃ s, EntryOf st.handle (L.tree 4 id.toNat) s id.toNat ∧
      (st.handle.readBlk (L.tree 4 id.toNat)).entry st.handle.fmt s =
        st.handle.fmt.mem2disk id dqb ∧
      st.off id = entryOff st.handle.fmt (L.tree 4 id.toNat) s

variable {st : QuotaState} {records : UInt32 → Option Dqblk} {L L₁ : Layout} {h₁ : QuotaHandle}
    {room : ℕ → Bool}
  {id : UInt32} {dqb : Dqblk} {b s : ℕ}

theorem entryOff_pos {fmt : Fmt} : 0 < entryOff fmt b s := by
  rw [entryOff]
  omega

theorem Stored.off_eq_zero_iff (S : Stored st records L) : st.off id = 0 ↔ records id = none := by
  constructor
  · intro hoff
    cases hr : records id with
    | none => rfl
    | some dqb =>
      obtain ⟨-, s, -, -, heq⟩ := S.present id dqb hr
      exact absurd (heq.symm.trans hoff) (ne_of_gt entryOff_pos)
  · exact fun h => (S.absent id h).2

/-- **What is read** is what has been written last. -/
theorem Stored.reads (S : Stored st records L) :
    qtreeReadDquot st.handle id = ⟨id, readBack id (records id), st.off id⟩ := by
  cases hr : records id with
  | none =>
    obtain ⟨hz, hoff⟩ := S.absent id hr
    rw [qtreeReadDquot_of_none S.toSettled hz, hoff]
    rfl
  | some dqb =>
    obtain ⟨hne, s, hs, hentry, hoff⟩ := S.present id dqb hr
    rw [qtreeReadDquot_of_entry S.toSettled hs hne, hentry, hoff, S.r1, disk2mem_mem2disk]

/-! ### A new file -/

/-- The layout of a new file. -/
def newLayout : Layout where
  role b := if b = 1 then .index 0 0 else .out
  tree d p := if d = 0 ∧ p = 0 then 1 else 0
  free := []
  avail := []
  stale := none
  pending := none

theorem newLayout_tree {d p : ℕ} : newLayout.tree d p ≠ 0 ↔ d = 0 ∧ p = 0 := by
  change (if d = 0 ∧ p = 0 then 1 else 0) ≠ 0 ↔ _
  split
  · exact iff_of_true one_ne_zero ‹_›
  · exact iff_of_false (fun h => h rfl) ‹_›

theorem newLayout_role_ne {b : ℕ} {r : Role} (h1 : r ≠ .out) (h2 : ∀ d p, r ≠ .index d p) :
    newLayout.role b ≠ r := by
  change (if b = 1 then Role.index 0 0 else .out) ≠ r
  split
  · exact (h2 0 0).symm
  · exact h1.symm

theorem stored_new {magic : ℕ} : Stored ⟨v2NewIo magic, fun _ => 0⟩ (fun _ => none) newLayout where
  shape := by
    refine ⟨le_rfl, by norm_num [v2NewIo], fun b => ?_, fun b d p => ?_, fun p hp => ?_,
      fun b => ?_, rfl, fun p hp => ?_⟩
    · change (if b = 1 then Role.index 0 0 else .out) = .out ↔ b = 0 ∨ 2 ≤ b
      split
      · exact iff_of_false Role.index_ne_out (by omega)
      · exact iff_of_true rfl (by omega)
    · change (if b = 1 then Role.index 0 0 else .out) = .index d p ↔ d ≤ 3 ∧ b ≠ 0 ∧
        (if d = 0 ∧ p = 0 then 1 else 0) = b
      split
      · next hb =>
        constructor
        · intro h
          cases h
          exact ⟨by norm_num, by omega, hb.symm⟩
        · rintro ⟨-, h0, h⟩
          split at h
          · next hdp => rw [hdp.1, hdp.2]
          · exact absurd h.symm h0
      · next hb =>
        refine iff_of_false (fun h => by cases h) ?_
        rintro ⟨-, h0, h⟩
        split at h
        · exact hb h.symm
        · exact h0 h.symm
    · exact absurd (newLayout_tree.mp hp).1 (by norm_num)
    · exact iff_of_false List.not_mem_nil (newLayout_role_ne (by decide) nofun)
    · by_contra hne
      exact hp (newLayout_tree.mp hne).2
  refs d hd p i _ := by
    have hchild : newLayout.tree (d + 1) (p * 256 + (i : ℕ)) = 0 := by
      by_contra hne
      exact absurd (newLayout_tree.mp hne).1 (by omega)
    rw [hchild]
    split
    · rfl
    · next hne =>
      -- there are zeroes behind the first block
      obtain ⟨rfl, rfl⟩ := newLayout_tree.mp hne
      have hread : (v2NewIo magic).readBlk 1 i = newWords magic (1 * 256 + i) :=
        readBlk_apply (by norm_num) i
      refine Eq.trans ?_ hread.symm
      rw [newWords, List.getD_eq_default]
      simp only [List.length_cons, List.length_nil]
      omega
  free := ⟨rfl, List.nodup_nil⟩
  avail := ⟨rfl, List.nodup_nil⟩
  mem_avail b := iff_of_false List.not_mem_nil fun h => by
    have hdata := @newLayout_role_ne b .data (by decide) nofun
    exact hdata h.1
  data b hb := absurd hb (newLayout_role_ne (by decide) nofun)
  pending _ _ _ hp := by cases hp
  none_stale := rfl
  none_pending := rfl
  no_limbo b := newLayout_role_ne (by decide) nofun
  r1 := rfl
  absent id _ := ⟨by
    by_contra hne
    exact absurd (newLayout_tree.mp hne).1 (by norm_num), rfl⟩
  present _ _ h := by cases h

/-! ### Writing -/

/-- An entry for an id has been written, and those of the others are as before. -/
theorem Stored.put (S : Stored st records L)
    (H : Settled (h₁.putEntry b s (h₁.fmt.mem2disk id dqb)) L₁)
    (hlimbo : ∀ c, L₁.role c ≠ .limbo) (hfmt : h₁.fmt = st.handle.fmt)
    (hb : L₁.tree 4 id.toNat = b) (hb0 : b ≠ 0)
    (hs : s < h₁.fmt.dqstrInBlk) (hleaf : ∀ q ≠ id, L₁.tree 4 q.toNat = L.tree 4 q.toNat)
    (hothers : ∀ q ≠ id, L.tree 4 q.toNat ≠ 0 →
      ∀ t, EntryOf st.handle (L.tree 4 q.toNat) t q.toNat →
      ¬(L.tree 4 q.toNat = b ∧ t = s) ∧ (h₁.readBlk (L.tree 4 q.toNat)).entry h₁.fmt t =
        (st.handle.readBlk (L.tree 4 q.toNat)).entry st.handle.fmt t) :
    Stored ⟨h₁.putEntry b s (h₁.fmt.mem2disk id dqb),
      Function.update st.off id (entryOff h₁.fmt b s)⟩
      (Function.update records id (some dqb)) L₁ where
  toSettled := H
  no_limbo := hlimbo
  r1 := hfmt.trans S.r1
  absent q hq := by
    have hne : q ≠ id := by
      rintro rfl
      rw [Function.update_self] at hq
      cases hq
    rw [Function.update_of_ne hne] at hq
    obtain ⟨hz, hoff⟩ := S.absent q hq
    exact ⟨(hleaf q hne).trans hz, (Function.update_of_ne hne _ _).trans hoff⟩
  present q dqb' hq := by
    have hrole : L₁.role b = .data := hb ▸ H.shape.leaf _ (hb ▸ hb0)
    have hblt : b < 2 ^ 22 := H.lt (by rw [hrole]; decide)
    have hd := @isEntry_mem2disk h₁.fmt id dqb
    -- the id of the record, and the others
    by_cases hne : q = id
    · subst hne
      rw [Function.update_self] at hq
      cases hq
      rw [hb]
      refine ⟨hb0, s, (entryOf_putEntry hblt hblt hs hd).mpr (by rw [if_pos ⟨rfl, rfl⟩]), ?_,
        Function.update_self ..⟩
      change Buf.entry ((h₁.putEntry b s _).readBlk b) h₁.fmt s = _
      rw [readBlk_putEntry hblt hblt hs hd, if_pos rfl, entry_putEntry_self hs hd.length]
      rfl
    · rw [Function.update_of_ne hne] at hq
      obtain ⟨hq0, t, ht, hentry, hoff⟩ := S.present q dqb' hq
      obtain ⟨hslot, hsame⟩ := hothers q hne hq0 t ht
      obtain ⟨c, hc⟩ : ∃ c, c = L.tree 4 q.toNat := ⟨_, rfl⟩
      have hclt : c < 2 ^ 22 := S.lt (by rw [hc, S.shape.leaf _ hq0]; decide)
      rw [hleaf q hne]
      rw [← hc] at hq0 ht hentry hoff hslot hsame ⊢
      have hread : ((h₁.putEntry b s (h₁.fmt.mem2disk id dqb)).readBlk c).entry h₁.fmt t =
          (h₁.readBlk c).entry h₁.fmt t := by
        rw [readBlk_putEntry hblt hclt hs hd]
        split
        · next hcb =>
          rw [hcb, entry_putEntry_of_ne (fun hts => hslot ⟨hcb, hts⟩) hd.length]
        · rfl
      have hto : ((h₁.putEntry b s (h₁.fmt.mem2disk id dqb)).readBlk c).entry h₁.fmt t =
          (st.handle.readBlk c).entry st.handle.fmt t := hread.trans hsame
      refine ⟨hq0, t, ⟨?_, ?_, ?_⟩, ?_, ?_⟩
      · exact (congrArg Fmt.dqstrInBlk hfmt).symm ▸ ht.1
      · exact (congrArg entryUnused hto).trans ht.2.1
      · exact (congrArg entryId hto).trans ht.2.2
      · refine hto.trans (hentry.trans ?_)
        rw [← hfmt]
        rfl
      · refine (Function.update_of_ne hne _ _).trans (hoff.trans ?_)
        rw [← hfmt]
        rfl

theorem qtreeWriteDquot_of_off {h : QuotaHandle} {off : ℕ} (hoff : off ≠ 0) :
    qtreeWriteDquot room h ⟨id, dqb, off⟩ =
      (⟨id, dqb, off⟩, { h with file := writeEntry h.file off (h.fmt.mem2disk id dqb) }) := by
  rw [qtreeWriteDquot, if_neg hoff]

/-- **A record is written over.** -/
theorem Stored.write_old (S : Stored st records L) {old : Dqblk} (hr : records id = some old) :
    Stored ((QuotaOp.write id dqb).call room st) (Function.update records id (some dqb)) L := by
  obtain ⟨hb0, s, hs, -, hoff⟩ := S.present id old hr
  obtain ⟨b, hb⟩ : ∃ b, b = L.tree 4 id.toNat := ⟨_, rfl⟩
  rw [← hb] at hb0 hs hoff
  have hrole : L.role b = .data := hb ▸ S.shape.leaf _ (hb ▸ hb0)
  have hcall : (QuotaOp.write id dqb).call room st =
      ⟨st.handle.putEntry b s (st.handle.fmt.mem2disk id dqb),
        Function.update st.off id (entryOff st.handle.fmt b s)⟩ := by
    rw [QuotaOp.call, hoff, qtreeWriteDquot_of_off (ne_of_gt entryOff_pos)]
    rfl
  rw [hcall]
  have H : Settled (st.handle.putEntry b s (st.handle.fmt.mem2disk id dqb)) L :=
    ⟨S.toHolds.overwrite S.none_pending hrole hs isEntry_mem2disk, S.none_stale, S.none_pending⟩
  refine S.put H S.no_limbo rfl hb.symm hb0 hs.1 (fun _ _ => rfl) fun q hne _ t ht => ⟨?_, rfl⟩
  rintro ⟨hqb, rfl⟩
  rw [hqb] at ht
  exact hne (UInt32.toNat_inj.mp (ht.2.2.symm.trans hs.2.2))

/-- A call for a new record: where the insertion fails, the offset is zero. -/
theorem call_write_new (hoff : st.off id = 0) : (QuotaOp.write id dqb).call room st =
    ⟨{ (doInsertTree room id 3 st.handle qtTreeoff).handle with
        file := writeEntry (doInsertTree room id 3 st.handle qtTreeoff).handle.file
          (doInsertTree room id 3 st.handle qtTreeoff).dqbOff
          ((doInsertTree room id 3 st.handle qtTreeoff).handle.fmt.mem2disk id dqb) },
      Function.update st.off id (doInsertTree room id 3 st.handle qtTreeoff).dqbOff⟩ := by
  rw [QuotaOp.call, hoff]
  rfl

/-- The start of the file is in no block with a role. -/
theorem readBlk_writeEntry_start {file : Words} {disk : List ℕ} {c : ℕ} (hlen : disk.length ≤ 256)
    (hc : c < 2 ^ 22)
    (hc0 : c ≠ 0) : Quota.readBlk (writeEntry file 0 disk) c = Quota.readBlk file c := by
  funext i
  rw [readBlk_apply hc, readBlk_apply hc, writeEntry, if_neg (by omega)]

theorem Fails.role_limbo {h : QuotaHandle} {r : Inserted} {L' : Layout} (hfail : Fails h L r L')
    (hlimbo : ∀ c, L.role c ≠ .limbo) (c : ℕ) : L'.role c ≠ .limbo := by
  by_cases hc : L.role c = .free ∨ L.role c = .out
  · rcases hfail.back c hc with h' | h' <;> rw [h'] <;> decide
  · rw [hfail.role c (fun h' => hc (Or.inl h')) fun h' => hc (Or.inr h')]
    exact hlimbo c

/-- **The record of an insertion that failed goes to the start of the file**, and every id has its
record still. -/
theorem Stored.write_fails (S : Stored st records L) (hr : records id = none) {L' : Layout}
    (hfail : Fails st.handle L (doInsertTree room id 3 st.handle qtTreeoff) L') :
    Stored ((QuotaOp.write id dqb).call room st) records L' := by
  obtain ⟨h', hh'⟩ : ∃ h', h' = (doInsertTree room id 3 st.handle qtTreeoff).handle := ⟨_, rfl⟩
  have H := hfail.holds
  have hfmt := hfail.fmt
  have hkept := hfail.kept
  rw [← hh'] at H hfmt hkept
  have hcall : (QuotaOp.write id dqb).call room st =
      ⟨{ h' with file := writeEntry h'.file 0 (h'.fmt.mem2disk id dqb) },
        Function.update st.off id 0⟩ := by
    rw [call_write_new (S.absent id hr).2, hfail.off, hh']
  have hlen : (h'.fmt.mem2disk id dqb).length ≤ 256 := by
    rw [length_mem2disk]
    cases h'.fmt <;> decide
  -- the record goes to the header, so no block of the tree or of the lists changes
  have hread : ∀ c, L'.role c ≠ .out →
      Quota.readBlk (writeEntry h'.file 0 (h'.fmt.mem2disk id dqb)) c = h'.readBlk c := fun c hc =>
    readBlk_writeEntry_start hlen (H.lt hc) (H.shape.ne_zero hc)
  have hdata : ∀ c, L.role c = .data → L'.role c = .data ∧
      Quota.readBlk (writeEntry h'.file 0 (h'.fmt.mem2disk id dqb)) c = st.handle.readBlk c := by
    intro c hc
    have hc' : L'.role c = .data :=
      (hfail.role c (by rw [hc]; decide) (by rw [hc]; decide)).trans hc
    refine ⟨hc', (hread c (by rw [hc']; decide)).trans ?_⟩
    exact hkept c (S.lt (by rw [hc]; decide)) (by rw [hc]; decide) (by rw [hc]; decide)
      (by rw [hc]; rintro ⟨⟩)
  have hsame : Function.update st.off id 0 = st.off := by
    rw [← (S.absent id hr).2, Function.update_eq_self]
  rw [hcall, hsame]
  refine ⟨⟨H.congr rfl rfl rfl rfl fun c hc _ => hread c hc, hfail.stale.trans S.none_stale,
    hfail.pending.trans S.none_pending⟩, hfail.role_limbo S.no_limbo, hfmt.trans S.r1, fun q hq =>
      ?_, fun q dqb' hq => ?_⟩
  · rw [hfail.tree]
    exact S.absent q hq
  · obtain ⟨hq0, t, ht, hentry, hoff⟩ := S.present q dqb' hq
    rw [hfail.tree]
    obtain ⟨hc', heq⟩ := hdata _ (S.shape.leaf _ hq0)
    refine ⟨hq0, t, ?_, ?_, ?_⟩
    · refine (@EntryOf.congr st.handle
        { h' with file := writeEntry h'.file 0 (h'.fmt.mem2disk id dqb) } _ _ _ hfmt ?_).mpr ht
      change SameEntries _ (Quota.readBlk _ _)
      rw [heq]
      exact .refl
    · change Buf.entry (Quota.readBlk _ _) h'.fmt t = h'.fmt.mem2disk q dqb'
      rw [heq, hfmt]
      exact hentry
    · change st.off q = entryOff h'.fmt _ t
      rw [hfmt]
      exact hoff

/-- **A new record is written**, or there is no block for it. -/
theorem Stored.write_new (S : Stored st records L) (hr : records id = none)
    (hle : ((QuotaOp.write id dqb).call room st).handle.dqiBlocks ≤ 2 ^ 21) :
    (∃ L', Stored ((QuotaOp.write id dqb).call room st)
      (Function.update records id (some dqb)) L') ∨
      ∃ L', Fails st.handle L (doInsertTree room id 3 st.handle qtTreeoff) L' := by
  obtain ⟨hid, hoff⟩ := S.absent id hr
  have hroot : L.tree 0 (pathOf id (3 + 1)) = qtTreeoff := by
    rw [pathOf_four, S.shape.root]
  have hcall := @call_write_new st room id dqb hoff
  have hspec :=
    @doInsertTree_spec room id 3 st.handle L 0 rfl S.toHolds S.none_pending S.none_stale hid
    (by rw [hroot]; rw [hcall] at hle; exact hle)
  rw [hroot] at hspec
  rcases hspec with ⟨blk, b, s, L', hins⟩ | hfail
  · left
    obtain ⟨h', hh'⟩ : ∃ h', h' = (doInsertTree room id 3 st.handle qtTreeoff).handle := ⟨_, rfl⟩
    have H := hins.holds
    have hfmt := hins.fmt
    have hdata := hins.data
    have hdqb := hins.off
    rw [← hh'] at H hfmt hdata
    rw [← hfmt] at hdqb
    rw [hcall, ← hh', hdqb]
    obtain ⟨hrole, hleaf, hs, hun, -⟩ := H.pending b s id.toNat hins.pending
    have hbout : L'.role b ≠ .out := by
      rw [hrole]
      decide
    have hsettled : Settled (h'.putEntry b s (h'.fmt.mem2disk id dqb)) _ :=
      ⟨H.settle hins.pending isEntry_mem2disk, hins.done one_ne_zero, rfl⟩
    refine ⟨_, S.put hsettled (fun c hc => ?_) hfmt
      hleaf (H.shape.ne_zero hbout) hs (fun q hne => hins.leaf _ (mt UInt32.toNat_inj.mp hne))
        fun q _ hq0 t ht => ?_⟩
    · exact S.no_limbo c ((hins.limbo c).mp hc)
    · obtain ⟨-, hsame⟩ := hdata _ (S.shape.leaf _ hq0)
      have hentry : (h'.readBlk (L.tree 4 q.toNat)).entry h'.fmt t =
          (st.handle.readBlk (L.tree 4 q.toNat)).entry st.handle.fmt t := by
        rw [hfmt, hsame.entry]
      refine ⟨?_, hentry⟩
      rintro ⟨hqb, rfl⟩
      have hused := ht.2.1
      rw [← hentry, hqb, hun] at hused
      cases hused
  · exact Or.inr hfail

/-! ### Deleting and reading -/

/-- **A record is deleted.** -/
theorem Stored.delete (S : Stored st records L) :
    ∃ L', Stored ((QuotaOp.delete id).call room st) (Function.update records id none) L' := by
  -- without an entry there is nothing to delete
  by_cases hoff : st.off id = 0
  · have hcall : (QuotaOp.delete id).call room st = st := by
      have hdel : qtreeDeleteDquot st.handle ⟨id, .empty, st.off id⟩ = (⟨id, .empty, st.off id⟩,
        st.handle) := if_pos hoff
      rw [QuotaOp.call, hdel]
      dsimp only
      rw [Function.update_eq_self]
    rw [hcall, ← S.off_eq_zero_iff.mp hoff, Function.update_eq_self]
    exact ⟨L, S⟩
  · obtain ⟨dqb, hr⟩ := Option.ne_none_iff_exists'.mp (mt S.off_eq_zero_iff.mpr hoff)
    obtain ⟨hb0, s, hs, -, heq⟩ := S.present id dqb hr
    obtain ⟨b, hb⟩ : ∃ b, b = L.tree 4 id.toNat := ⟨_, rfl⟩
    rw [← hb] at hb0 hs heq
    have hroot : L.tree 0 (pathOf id (3 + 1)) = qtTreeoff := by
      rw [pathOf_four, S.shape.root]
    obtain ⟨L', hrem⟩ :=
      @removeTree_spec st.handle L b s id 3 0 rfl S.toHolds S.none_pending S.none_stale
        hb.symm hb0 hs
    rw [hroot] at hrem
    obtain ⟨h', hh'⟩ : ∃ h', h' =
      (removeTree id (entryOff st.handle.fmt b s) 3 st.handle qtTreeoff).2 := ⟨_, rfl⟩
    have hcall : (QuotaOp.delete id).call room st = ⟨h', Function.update st.off id 0⟩ := by
      rw [QuotaOp.call, qtreeDeleteDquot, if_neg hoff, hh', ← heq]
    have H := hrem.holds
    have hfmt := hrem.fmt
    have hdata := hrem.data
    rw [← hh'] at H hfmt hdata
    have hone : (removeTree id (entryOff st.handle.fmt b s) 3 st.handle qtTreeoff).1 ≠ 0 := by
      rw [← hrem.tree, pathOf_four, H.shape.root]
      decide
    refine ⟨L', hcall ▸ ⟨⟨H, hrem.done hone, hrem.pending⟩,
      fun c hc => S.no_limbo c ((hrem.limbo c).mp hc), hfmt.trans S.r1, fun q hq => ?_,
        fun q dqb' hq => ?_⟩⟩
    · by_cases hne : q = id
      · subst hne
        exact ⟨hrem.gone, Function.update_self ..⟩
      · rw [Function.update_of_ne hne] at hq
        obtain ⟨hz, hoffq⟩ := S.absent q hq
        exact ⟨(hrem.leaf _ (mt UInt32.toNat_inj.mp hne)).trans hz,
          (Function.update_of_ne hne _ _).trans hoffq⟩
    · have hne : q ≠ id := by
        rintro rfl
        rw [Function.update_self] at hq
        cases hq
      rw [Function.update_of_ne hne] at hq
      obtain ⟨hq0, t, ht, hentry, hoffq⟩ := S.present q dqb' hq
      have hleaf : L'.tree 4 q.toNat = L.tree 4 q.toNat := hrem.leaf _ (mt UInt32.toNat_inj.mp hne)
      -- the entry of another id is in another place
      have hslot : ¬(L.tree 4 q.toNat = b ∧ t = s) := by
        rintro ⟨hqb, rfl⟩
        rw [hqb] at ht
        exact hne (UInt32.toNat_inj.mp (ht.2.2.symm.trans hs.2.2))
      have hsame : (h'.readBlk (L.tree 4 q.toNat)).entry h'.fmt t =
          (st.handle.readBlk (L.tree 4 q.toNat)).entry st.handle.fmt t := by
        rw [hfmt]
        exact (hdata _ (hleaf ▸ H.shape.leaf _ (by rw [hleaf]; exact hq0))).2 t hslot
      rw [hleaf]
      refine ⟨hq0, t, ⟨hfmt ▸ ht.1, (congrArg entryUnused hsame).trans ht.2.1,
        (congrArg entryId hsame).trans ht.2.2⟩, hsame.trans (hentry.trans (by rw [hfmt])), ?_⟩
      exact (Function.update_of_ne hne _ _).trans (hoffq.trans (by rw [hfmt]))

/-- Reading changes nothing. -/
theorem Stored.read (S : Stored st records L) :
    Stored ((QuotaOp.read id).call room st) records L := by
  have hcall : (QuotaOp.read id).call room st = st := by
    rw [QuotaOp.call, S.reads]
    dsimp only
    rw [Function.update_eq_self]
  rw [hcall]
  exact S

/-! ### There is room -/

theorem linkTree_blk {i : Fin 256} {treeblk : ℕ} {buf : Buf} {new : Bool} {r : Inserted} :
    (linkTree i treeblk buf new r).blk = none ↔ r.blk = none := by
  rw [linkTree]
  cases hr : r.blk with
  | none =>
    refine iff_of_true ?_ rfl
    dsimp only
    split_ifs
    · rfl
    · rfl
  | some newblk =>
    refine iff_of_false ?_ (Option.some_ne_none _)
    dsimp only
    split_ifs
    · exact not_false
    · exact not_false

/-- A block is to be had where there is room. -/
theorem getFreeDqblk_ok {h : QuotaHandle} (hroom : ∀ n, room n = true) (H : Holds h L)
    (hle : (getFreeDqblk room h).2.dqiBlocks ≤ 2 ^ 21) :
    ∃ b L', getFreeDqblk room h = (some b, (getFreeDqblk room h).2) ∧
      Holds (getFreeDqblk room h).2 L' ∧ Takes L b L' := by
  rcases getFreeDqblk_spec H hle with ⟨-, hno⟩ | ⟨b, L', hget, H', ht, -⟩
  · rw [hroom] at hno
    cases hno
  · exact ⟨b, L', hget, H', ht⟩

theorem findFreeDqentry_ok {h : QuotaHandle} (hroom : ∀ n, room n = true) (H : Holds h L)
    (hle : (findFreeDqentry room h).handle.dqiBlocks ≤ 2 ^ 21) :
    (findFreeDqentry room h).blk ≠ none := by
  rw [findFreeDqentry] at hle ⊢
  by_cases hhd : h.dqiFreeEntry ≠ 0
  · rw [if_pos hhd]
    exact Option.some_ne_none _
  · rw [if_neg hhd] at hle ⊢
    have hle' : (getFreeDqblk room h).2.dqiBlocks ≤ 2 ^ 21 := by
      rcases hget : getFreeDqblk room h with ⟨_ | blk, h₁⟩
      · rw [hget] at hle
        exact hle
      · rw [hget] at hle
        dsimp only at hle
        rw [takeDqentry_blocks_eq] at hle
        exact hle
    obtain ⟨b, -, hget, -⟩ := getFreeDqblk_ok hroom H hle'
    rw [hget]
    exact Option.some_ne_none _

/-- **An insertion succeeds** where there is room. -/
theorem doInsertTree_ok (hroom : ∀ n, room n = true) (n : ℕ) {h : QuotaHandle} {L : Layout} {d : ℕ}
    (hdn : d + n = 3) (H : Holds h L) (hstale : L.stale = none) (hid : L.tree 4 id.toNat = 0)
    (hle : (doInsertTree room id n h (L.tree d (pathOf id (n + 1)))).handle.dqiBlocks ≤ 2 ^ 21) :
    (doInsertTree room id n h (L.tree d (pathOf id (n + 1)))).blk ≠ none := by
  have hblocks := H.shape.blocks_le
  induction n generalizing h L d with
  | zero =>
    by_cases hz : L.tree d (pathOf id (0 + 1)) = 0
    · obtain ⟨b, L₁, hget, H₁, -⟩ :=
        getFreeDqblk_ok hroom H (getFree_le (by omega) hblocks (hz ▸ hle))
      rw [doInsertTree, if_pos hz, hget] at hle ⊢
      dsimp only at hle ⊢
      rw [linkTree_blocks] at hle
      exact mt linkTree_blk.mp (findFreeDqentry_ok hroom H₁ hle)
    · rw [doInsertTree, if_neg hz] at hle ⊢
      rw [linkTree_blocks] at hle
      exact mt linkTree_blk.mp (findFreeDqentry_ok hroom H hle)
  | succ n ih =>
    have hpath := @pathOf_succ id (n + 1)
    by_cases hz : L.tree d (pathOf id (n + 1 + 1)) = 0
    · obtain ⟨b, L₁, hget, H₁, ht⟩ :=
        getFreeDqblk_ok hroom H (getFree_le (by omega) hblocks (hz ▸ hle))
      rw [doInsertTree, if_pos hz, hget] at hle ⊢
      dsimp only at hle ⊢
      rw [linkTree_blocks] at hle
      have hnone : L₁.tree (d + 1) (pathOf id (n + 1)) = 0 := by
        rw [ht.tree, hpath, H.child_zero hstale (by omega) hz]
      have hrec := @ih _ L₁ (d + 1) (by omega) H₁ (ht.stale.trans hstale) (by rw [ht.tree, hid])
        (by rw [hnone]; exact hle)
        H₁.shape.blocks_le
      rw [hnone] at hrec
      exact mt linkTree_blk.mp hrec
    · have hchild := H.ref_eq hstale (by omega) hz (getIndex id (n + 1))
      rw [← hpath] at hchild
      rw [doInsertTree, if_neg hz, hchild] at hle ⊢
      rw [linkTree_blocks] at hle
      exact mt linkTree_blk.mp (ih (by omega) H hstale hid hle hblocks)

/-! ### Whole runs -/

variable {magic : ℕ} {calls : List ((ℕ → Bool) × QuotaOp)}

/-- **Every state that is reached** has a layout, whether there was room or not. -/
theorem QuotaRun.stored (hrun : QuotaRun magic calls st) : ∃ records L, Stored st records L := by
  induction hrun with
  | start => exact ⟨_, _, stored_new⟩
  | call room op run small ih =>
    obtain ⟨records, L, S⟩ := ih
    cases op with
    | write id dqb =>
      cases hr : records id with
      | some old => exact ⟨_, L, S.write_old hr⟩
      | none =>
        rcases S.write_new hr small with ⟨L', S'⟩ | ⟨L', hfail⟩
        · exact ⟨_, L', S'⟩
        · exact ⟨_, L', S.write_fails hr hfail⟩
    | delete id =>
      obtain ⟨L', S'⟩ := @Stored.delete _ _ _ room id S
      exact ⟨_, L', S'⟩
    | read id => exact ⟨_, L, S.read⟩

/-- With room, the records are those that have been written last. -/
theorem QuotaRun.stored_last (hrun : QuotaRun magic calls st)
    (hroom : ∀ c ∈ calls, ∀ n, c.1 n = true) :
    ∃ L, Stored st (lastRecords calls) L := by
  induction hrun with
  | start => exact ⟨_, stored_new⟩
  | @call calls st room op run small ih =>
    obtain ⟨L, S⟩ := ih fun c hc => hroom c (List.mem_append_left _ hc)
    have hlast : lastRecords (calls ++ [(room, op)]) = op.record (lastRecords calls) := by
      rw [lastRecords, List.foldl_append]
      rfl
    rw [hlast]
    cases op with
    | write id dqb =>
      cases hr : lastRecords calls id with
      | some old => exact ⟨L, S.write_old hr⟩
      | none =>
        rcases S.write_new hr small with hnew | ⟨L', hfail⟩
        · exact hnew
        · have hall :=
            hroom _ (List.mem_append_right _ (List.mem_singleton_self (room, QuotaOp.write id dqb)))
          have hroot : L.tree 0 (pathOf id (3 + 1)) = qtTreeoff := by
            rw [pathOf_four, S.shape.root]
          have hok := @doInsertTree_ok room id hall 3 st.handle L 0 rfl S.toHolds S.none_stale
            (S.absent id hr).1
            (by rw [hroot]; rw [call_write_new (S.absent id hr).2] at small; exact small)
          rw [hroot] at hok
          exact absurd hfail.blk hok
    | delete id => exact S.delete
    | read id => exact ⟨L, S.read⟩

/-- **A quota file is a map from ids to records**: reading gives the last record that has been
written, or an empty one, and all blocks have their places. -/
theorem quotaRun_map (hrun : QuotaRun magic calls st) (hroom : ∀ c ∈ calls, ∀ n, c.1 n = true) :
    (∀ id, (qtreeReadDquot st.handle id).dqb = readBack id (lastRecords calls id)) ∧
    WellFormed st.handle := by
  obtain ⟨L, S⟩ := hrun.stored_last hroom
  exact ⟨fun id => by rw [S.reads], S.toSettled.wellFormed S.no_limbo⟩

/-- A call takes five blocks at most. -/
theorem call_write_blocks (hlt : st.handle.dqiBlocks + 5 < 2 ^ 32) :
    ((QuotaOp.write id dqb).call room st).handle.dqiBlocks ≤ st.handle.dqiBlocks + 5 := by
  by_cases hoff : st.off id = 0
  · rw [call_write_new hoff]
    exact (doInsertTree_blocks 3 hlt).2
  · rw [QuotaOp.call, qtreeWriteDquot_of_off hoff]
    exact Nat.le_add_right _ _

theorem freeDqentry_blocks (h : QuotaHandle) (dqbOff blk : ℕ) :
    (freeDqentry h dqbOff blk).dqiBlocks = h.dqiBlocks := by
  simp only [freeDqentry, putFreeDqblk, removeFreeDqentry, insertFreeDqentry]
  split_ifs <;> rfl

theorem unlinkTree_blocks (i : Fin 256) (blk : ℕ) (buf : Buf) (newblk : ℕ) (h : QuotaHandle) :
    (unlinkTree i blk buf newblk h).2.dqiBlocks = h.dqiBlocks := by
  rw [unlinkTree]
  dsimp only
  split_ifs <;> rfl

/-- Deleting takes no block. -/
theorem removeTree_blocks (id : UInt32) (dqbOff n : ℕ) (h : QuotaHandle) (blk : ℕ) :
    (removeTree id dqbOff n h blk).2.dqiBlocks = h.dqiBlocks := by
  induction n generalizing blk with
  | zero =>
    rw [removeTree]
    exact (unlinkTree_blocks ..).trans (freeDqentry_blocks ..)
  | succ n ih =>
    rw [removeTree]
    exact (unlinkTree_blocks ..).trans (ih _)

theorem call_blocks (op : QuotaOp) (hlt : st.handle.dqiBlocks + 5 < 2 ^ 32) :
    (op.call room st).handle.dqiBlocks ≤ st.handle.dqiBlocks + 5 := by
  cases op with
  | write id dqb => exact call_write_blocks hlt
  | delete id =>
    refine Nat.le_add_right_of_le (le_of_eq ?_)
    have hdelete : (qtreeDeleteDquot st.handle ⟨id, .empty, st.off id⟩).2.dqiBlocks =
        st.handle.dqiBlocks := by
      rw [qtreeDeleteDquot]
      split
      · rfl
      · dsimp only
        rw [removeTree_blocks]
    exact hdelete
  | read id => exact Nat.le_add_right _ _

/-- The state that calls lead to. -/
def afterCalls (magic : ℕ) (calls : List ((ℕ → Bool) × QuotaOp)) : QuotaState :=
  calls.foldl (fun st c => c.2.call c.1 st) ⟨v2NewIo magic, fun _ => 0⟩

/-- **A few calls are always a run.** -/
theorem quotaRun_of_length (magic : ℕ) (calls : List ((ℕ → Bool) × QuotaOp))
    (hlen : 2 + 5 * calls.length ≤ 2 ^ 21) : QuotaRun magic calls (afterCalls magic calls) := by
  suffices h : QuotaRun magic calls (afterCalls magic calls) ∧
      (afterCalls magic calls).handle.dqiBlocks ≤ 2 + 5 * calls.length from h.1
  induction calls using List.reverseRecOn with
  | nil => exact ⟨.start, le_refl 2⟩
  | append_singleton calls c ih =>
    rw [List.length_append, List.length_singleton] at hlen ⊢
    obtain ⟨hrun, hblocks⟩ := ih (by omega)
    have hafter : afterCalls magic (calls ++ [c]) = c.2.call c.1 (afterCalls magic calls) := by
      rw [afterCalls, List.foldl_append]
      rfl
    have hcall := @call_blocks (afterCalls magic calls) c.1 c.2 (by omega)
    rw [hafter]
    exact ⟨.call c.1 c.2 hrun (by omega), by omega⟩

/-- Three ids: one record is overwritten, one is deleted, and one is in another data block of the
tree. -/
def sampleCalls : List ((ℕ → Bool) × QuotaOp) :=
  [.write 5 .empty, .write 7 { Dqblk.empty with curspace := 1 },
    .write 5 { Dqblk.empty with curspace := 2 }, .read 7, .delete 7,
    .write 70000 { Dqblk.empty with curinodes := 3 }].map fun op => (fun _ => true, op)

theorem quotaRun_map_sample :
    (∀ id, (qtreeReadDquot (afterCalls 0 sampleCalls).handle id).dqb =
      readBack id (lastRecords sampleCalls id)) ∧ WellFormed (afterCalls 0 sampleCalls).handle :=
  quotaRun_map (quotaRun_of_length 0 sampleCalls (by decide)) fun c hc n => by
    obtain ⟨op, -, rfl⟩ := List.mem_map.mp hc
    rfl

/-- A record of id zero with nothing but an `itime` of one does not come back. -/
theorem not_reads_last :
    ¬∀ magic calls st, QuotaRun magic calls st → (∀ c ∈ calls, ∀ n, c.1 n = true) →
    ∀ id, (qtreeReadDquot st.handle id).dqb = (lastRecords calls id).getD .empty := by
  intro h
  have hroom : ∀ c ∈ [((fun _ => true : ℕ → Bool), QuotaOp.write 0
      { Dqblk.empty with itime := 1 })], ∀ n, c.1 n = true :=
    fun c hc n => by rw [List.mem_singleton.mp hc]
  have hrun := quotaRun_of_length 0
    [(fun _ => true, .write 0 { Dqblk.empty with itime := 1 })] (by decide)
  obtain ⟨L, S⟩ := hrun.stored_last hroom
  have hread := h 0 _ _ hrun hroom 0
  rw [S.reads] at hread
  exact absurd hread (by decide)

/-! ### No room -/

/-- **A write for which there is no room changes nothing**: ids read as before, the header and the
info block are as before, and every block that is not in the tree is free. -/
structure FailsCleanly (st : QuotaState) (room : ℕ → Bool) (id : UInt32) (dqb : Dqblk) : Prop where
  reads : ∀ q, qtreeReadDquot ((QuotaOp.write id dqb).call room st).handle q =
    qtreeReadDquot st.handle q
  header : ∀ a < 256, ((QuotaOp.write id dqb).call room st).handle.file a = st.handle.file a
  free : ∃ l, FreeList ((QuotaOp.write id dqb).call room st).handle l ∧
    ∀ b, 2 ≤ b → b < ((QuotaOp.write id dqb).call room st).handle.dqiBlocks →
      ¬InTree st.handle b → b ∈ l

/-- The words of the header after an insertion that has failed. -/
theorem Fails.header {h : QuotaHandle} {r : Inserted} {L' : Layout} (hfail : Fails h L r L')
    (hS : Shape h.dqiBlocks L) {a : ℕ} (ha : a < 256) : r.handle.file a = h.file a := by
  have hout : L.role 0 = .out := (hS.out 0).mpr (Or.inl rfl)
  have hkept := hfail.kept 0 (by norm_num) (by rw [hout]; decide) (by rw [hout]; decide) fun _ =>
    rfl
  have hword := congrFun hkept ⟨a, ha⟩
  have h1 : r.handle.readBlk 0 ⟨a, ha⟩ = r.handle.file (0 * 256 + a) :=
    readBlk_apply (by norm_num) ⟨a, ha⟩
  have h2 : h.readBlk 0 ⟨a, ha⟩ = h.file (0 * 256 + a) := readBlk_apply (by norm_num) ⟨a, ha⟩
  rw [h1, h2, Nat.zero_mul, Nat.zero_add] at hword
  exact hword

/-- **A failed write changes nothing exactly if** the start of the file is the record already,
where the file cannot grow past `2 ^ 21` blocks. -/
theorem failsCleanly_iff (hrun : QuotaRun magic calls st) (hoff : st.off id = 0)
    (hfails : (doInsertTree room id 3 st.handle qtTreeoff).blk = none)
    (hsmall : ∃ n, st.handle.dqiBlocks ≤ n ∧ n ≤ 2 ^ 21 ∧ room n = false) :
    FailsCleanly st room id dqb ↔
    ∀ a < 18, st.handle.file a = (Fmt.r1.mem2disk id dqb).getD a 0 := by
  obtain ⟨records, L, S⟩ := hrun.stored
  obtain ⟨n, hn, hmax, hno⟩ := hsmall
  have hr := S.off_eq_zero_iff.mp hoff
  have hroot : L.tree 0 (pathOf id (3 + 1)) = qtTreeoff := by
    rw [pathOf_four, S.shape.root]
  have hspec := @doInsertTree_spec room id 3 st.handle L 0 rfl S.toHolds S.none_pending S.none_stale
    (S.absent id hr).1 ((doInsertTree_le 3 hn hno).trans hmax)
  rw [hroot] at hspec
  -- an insertion that succeeds is not the case here
  rcases hspec with ⟨blk, b, s, L', hins⟩ | ⟨L', hfail⟩
  · rw [hins.blk] at hfails
    cases hfails
  have S' := @Stored.write_fails st records L room id dqb S hr L' hfail
  have hcall := @call_write_new st room id dqb hoff
  rw [hfail.off] at hcall
  have hlen : (Fmt.r1.mem2disk id dqb).length = 18 := length_mem2disk
  have hword : ∀ a < 256, ((QuotaOp.write id dqb).call room st).handle.file a =
      if a < 18 then (Fmt.r1.mem2disk id dqb).getD a 0 else st.handle.file a := by
    intro a ha
    rw [hcall]
    change writeEntry _ 0 _ a = _
    rw [hfail.fmt, S.r1, writeEntry, hlen]
    by_cases h18 : a < 18
    · rw [if_pos ⟨Nat.zero_le a, by omega⟩, if_pos h18]
      rfl
    · rw [if_neg (by omega), if_neg h18, hfail.header S.shape ha]
  constructor
  · intro h a ha
    have hheader := h.header a (by omega)
    rw [hword a (by omega), if_pos ha] at hheader
    exact hheader.symm
  · intro h
    refine ⟨fun q => ?_, fun a ha => ?_, L'.free, S'.free, fun b h2 hb hnot => ?_⟩
    · rw [S'.reads, S.reads, hcall]
      dsimp only
      rw [← hoff, Function.update_eq_self]
    · rw [hword a ha]
      split
      · next h18 => exact (h a h18).symm
      · rfl
    · rw [S.toSettled.inTree_iff] at hnot
      have hwas : L.role b = .free ∨ L.role b = .out := by
        cases hrole : L.role b with
        | out => exact Or.inr rfl
        | free => exact Or.inl rfl
        | limbo => exact absurd hrole (S.no_limbo b)
        | data => exact absurd (Or.inl hrole) hnot
        | index d p => exact absurd (Or.inr ⟨d, p, hrole⟩) hnot
      rw [S'.shape.mem_free]
      refine (hfail.back b hwas).resolve_right fun hout => ?_
      have := (S'.shape.out b).mp hout
      omega

/-- In a new file, the first record for which there is no room goes over the magic number. -/
theorem not_failsCleanly_new :
    (doInsertTree (fun _ => false) 5 3 (v2NewIo 0xd9c01f11) qtTreeoff).blk = none ∧
      ¬FailsCleanly ⟨v2NewIo 0xd9c01f11, fun _ => 0⟩ (fun _ => false) 5 .empty := by
  refine ⟨rfl, fun h => ?_⟩
  have hheader := h.header 0 (by decide)
  exact absurd hheader (by decide)

/-- The magic number and what follows it are the record. -/
theorem failsCleanly_iff_zero :
    FailsCleanly ⟨v2NewIo 0xd9c01f11, fun _ => 0⟩ (fun _ => false) 5 .empty ↔
    ∀ a < 18, (v2NewIo 0xd9c01f11).file a = (Fmt.r1.mem2disk 5 .empty).getD a 0 :=
  failsCleanly_iff .start rfl rfl ⟨2, le_rfl, by norm_num, rfl⟩

end Quota

end E2fsprogs
