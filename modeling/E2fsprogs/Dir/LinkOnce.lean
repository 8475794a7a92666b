import E2fsprogs.Dir.Chain

/-!
# Linking edits one entry

Going through a valid block with `link_proc` keeps the chain of records valid and adds one
live entry or none. At each entry the function may absorb the unused record that follows
(`E2fsprogs.absorbNext_spec`), cut the record of a live entry in two
(`E2fsprogs.splitRecord_spec`) or fill an unused record (`E2fsprogs.fillEntry_spec`), and
it touches no byte before the entry.
-/

namespace E2fsprogs

section Edits

variable {fs : DirFs} {b : Block} {off stop : ℕ} {ds : List ℕ}

/-- A store in the record at `off`, between two offsets. -/
theorem sameOutside_putLe (b : Block) (o n v : ℕ) : SameOutside b (putLe b o n v) o (o + n) :=
  fun _ h => putLe_of_outside h

theorem SameOutside.before {b b' : Block} {lo hi : ℕ} (h : SameOutside b b' lo hi) (k : ℕ) :
    SameBytes b b' k lo := fun i _ hi => h i (Or.inl hi)

theorem SameOutside.after {b b' : Block} {lo hi k : ℕ} (h : SameOutside b b' lo hi) :
    SameBytes b b' hi k := fun i hi _ => h i (Or.inr hi)

theorem SameOutside.mono {b b' : Block} {lo hi lo' hi' : ℕ} (h : SameOutside b b' lo hi)
    (h1 : lo' ≤ lo) (h2 : hi ≤ hi') : SameOutside b b' lo' hi' :=
  fun i hi => h i (by omega)

theorem SameOutside.trans {b b' b'' : Block} {lo hi : ℕ} (h : SameOutside b b' lo hi)
    (h' : SameOutside b' b'' lo hi) : SameOutside b b'' lo hi :=
  fun i hi => (h' i hi).trans (h i hi)

theorem liveEntries_cons (b : Block) (d : ℕ) (ds : List ℕ) :
    liveEntries b (d :: ds) =
      (if dInode b d ≠ 0 then [direntAt b d] else []) ++ liveEntries b ds := by
  rw [liveEntries]
  split
  · rfl
  · rfl

/-- The record at `d` has room for an entry of that length, besides the one it holds. -/
def RoomAt (fs : DirFs) (need : ℕ) (b : Block) (d : ℕ) : Prop :=
  (if dInode b d ≠ 0 then dirRecLen (direntNameLen b d) else 0) + need ≤ recLen fs b d

/-- Some record has room for an entry of that length. -/
def HasRoom (fs : DirFs) (need : ℕ) (b : Block) (ds : List ℕ) : Prop := ∃ d ∈ ds, RoomAt fs need b d

theorem hasRoom_cons {need d : ℕ} :
    HasRoom fs need b (d :: ds) ↔ RoomAt fs need b d ∨ HasRoom fs need b ds :=
  List.exists_mem_cons_iff ..

theorem HasRoom.congr {b' : Block} {need : ℕ} (hroom : HasRoom fs need b ds)
    (h : DirChain fs b stop off ds) (hb : SameBytes b b' off stop) : HasRoom fs need b' ds := by
  induction ds generalizing off with
  | nil =>
    obtain ⟨d, hd, -⟩ := hroom
    cases hd
  | cons d ds ih =>
    obtain ⟨rfl, -, h8, -, hle⟩ := h.head
    refine hasRoom_cons.mpr ((hasRoom_cons.mp hroom).imp (fun hat => ?_) fun hin => ?_)
    · rw [RoomAt, dInode_congr (hb.mono le_rfl (by omega)),
        direntNameLen_congr (hb.mono (by omega) (by omega)),
        recLen_congr (hb.mono (by omega) (by omega))]
      exact hat
    · exact ih hin h.2.2.2 (hb.mono (by omega) le_rfl)

/-- What an edit at `off` leaves: a chain whose first entry says the same, with the same live
entries. -/
structure SameEntries (fs : DirFs) (stop off : ℕ) (b : Block) (ds : List ℕ) (b' : Block)
    (ds' : List ℕ) : Prop where
  chain : DirChain fs b' stop off (off :: ds')
  inode : dInode b' off = dInode b off
  entry : direntAt b' off = direntAt b off
  nameLen : direntNameLen b' off = direntNameLen b off
  rest : liveEntries b' ds' = liveEntries b ds
  outside : SameOutside b b' off stop
  room : ∀ need, HasRoom fs need b (off :: ds) → HasRoom fs need b' (off :: ds')

theorem SameEntries.trans {b' b'' : Block} {ds' ds'' : List ℕ}
    (h : SameEntries fs stop off b ds b' ds')
    (h' : SameEntries fs stop off b' ds' b'' ds'') : SameEntries fs stop off b ds b'' ds'' :=
  ⟨h'.chain, h'.inode.trans h.inode, h'.entry.trans h.entry, h'.nameLen.trans h.nameLen,
    h'.rest.trans h.rest, h.outside.trans h'.outside, fun need hr => h'.room need (h.room need hr)⟩

/-- **A change of the record length** at `off` to that of the records up to `next`. -/
theorem sameEntries_of_recLen {b' : Block} {ds' : List ℕ} (next : ℕ)
    (h : DirChain fs b stop off (off :: ds)) (hout : SameOutside b b' (off + 4) (off + 6))
    (hrec : recLen fs b' off = next - off) (hle : off + recLen fs b off ≤ next)
    (hmod : (next - off) % 4 = 0) (hnext : DirChain fs b stop next ds')
    (hlive : liveEntries b ds' = liveEntries b ds)
    (hds : ∀ need, HasRoom fs need b ds → off + recLen fs b off + need ≤ next ∨
      HasRoom fs need b ds') :
    SameEntries fs stop off b ds b' ds' := by
  obtain ⟨-, -, h8, hname, hstop⟩ := h.head
  have hroom := h.2.2.1
  have hnextle := hnext.le
  have hlen : direntNameLen b' off = direntNameLen b off :=
    direntNameLen_congr (hout.after.mono le_rfl (by omega : off + 7 ≤ stop))
  have hrest : SameBytes b b' next stop := hout.after.mono (by omega) le_rfl
  have hinode : dInode b' off = dInode b off :=
    dInode_congr ((hout.before 0).mono (Nat.zero_le _) (by omega))
  refine ⟨⟨rfl, by rw [hrec]; exact hmod, ?_, ?_⟩, hinode, ?_, hlen, ?_, ?_, fun need hneed => ?_⟩
  · rw [hrec, hlen]
    omega
  · rw [hrec, show off + (next - off) = next by omega]
    exact hnext.congr hrest
  · exact direntAt_congr ((hout.before 0).mono (Nat.zero_le _) (by omega)) hout.after
  · rw [liveEntries_congr hnext hrest, hlive]
  · exact hout.mono (by omega) (by omega)
  · have hroomat : ∀ k, (if dInode b off ≠ 0 then dirRecLen (direntNameLen b off)
      else 0) + need ≤ k →
        k ≤ next - off → HasRoom fs need b' (off :: ds') := by
      intro k h1 h2
      refine hasRoom_cons.mpr (Or.inl ?_)
      rw [RoomAt, hinode, hlen, hrec]
      omega
    rcases hasRoom_cons.mp hneed with hat | hin
    · exact hroomat _ hat (by omega)
    · rcases hds need hin with hgap | hin
      · refine hroomat (recLen fs b off + need) ?_ (by omega)
        split
        · omega
        · omega
      · exact hasRoom_cons.mpr (Or.inr (hin.congr hnext hrest))

/-- **Absorbing the next record** changes the record length only. -/
theorem absorbNext_spec (hfs : fs.Ok)
    (h : DirChain fs b (fs.blocksize - csumSize fs) off (off :: ds)) :
    (absorbNext fs fs.blocksize b off = (false, some b)) ∨
    ∃ b' ds', absorbNext fs fs.blocksize b off = (true, some b') ∧
      recLen fs b' off = recLen fs b off + dRecLen b (off + recLen fs b off) ∧
      SameEntries fs (fs.blocksize - csumSize fs) off b ds b' ds' := by
  have hcsum := csumSize_le fs
  have hmin := hfs.min_le
  have hmax := hfs.le_max
  rw [absorbNext]
  split_ifs with hab
  · refine Or.inr ?_
    obtain ⟨hlt, hunused, hfits⟩ := hab
    have hrest := h.2.2.2
    -- the record does not end the chain, so there is a next entry
    rcases ds with _ | ⟨d, ds⟩
    · have : off + recLen fs b off = fs.blocksize - csumSize fs := hrest
      omega
    · obtain ⟨rfl, hmod, h8, -, hstop⟩ := hrest.head
      obtain ⟨-, hmod0, h80, -, -⟩ := h.head
      have hraw : dRecLen b (off + recLen fs b off) = recLen fs b (off + recLen fs b off) :=
        dRecLen_eq hfs (by omega)
      rw [hraw]
      obtain ⟨v, hset, hv⟩ := setRecLen_spec hfs b off
        (recLen fs b off + recLen fs b (off + recLen fs b off)) (by omega) (by omega) (by omega)
      refine ⟨_, ds, by rw [hset], hv, ?_⟩
      refine sameEntries_of_recLen (off + recLen fs b off + recLen fs b (off + recLen fs b off)) h
        (sameOutside_putLe b (off + 4) 2 v) (by rw [hv]; omega) (by omega)
          (by omega) hrest.2.2.2 ?_ ?_
      · rw [liveEntries, if_neg (by simpa using hunused)]
      · intro need hneed
        refine (hasRoom_cons.mp hneed).imp (fun hat => ?_) id
        rw [RoomAt, if_neg (by simpa using hunused)] at hat
        omega
  · exact Or.inl rfl

/-- The unused entry that `link_proc` makes of the rest of a record. -/
theorem unusedEntry_spec (hfs : fs.Ok) (b : Block) (next len : ℕ) (hlen : len ≤ fs.blocksize)
    (hmod : len % 4 = 0) (hpos : 0 < len) :
    ∃ b', setRecLen fs len (direntSetFileType (direntSetNameLen (putLe b next 4 0) next 0) next 0)
        next = some b' ∧
      recLen fs b' next = len ∧ dInode b' next = 0 ∧ direntNameLen b' next = 0 ∧
      SameOutside b b' next (next + 8) := by
  obtain ⟨v, hset, hv⟩ := setRecLen_spec hfs
    (direntSetFileType (direntSetNameLen (putLe b next 4 0) next 0) next 0) next len hlen hmod hpos
  refine ⟨_, hset, hv, ?_, ?_, fun i hi => ?_⟩
  · rw [dInode, direntSetFileType, direntSetNameLen, getLe_putLe_of_disjoint (by omega),
      getLe_putLe_of_disjoint (by omega), getLe_putLe_of_disjoint (by omega),
      getLe_putLe _ _ (by norm_num)]
  · rw [direntNameLen, direntSetFileType, direntSetNameLen, getLe_putLe_of_disjoint (by omega),
      getLe_putLe_of_disjoint (by omega), getLe_putLe _ _ (by norm_num)]
  · rw [direntSetFileType, direntSetNameLen, putLe_of_outside (by omega),
      putLe_of_outside (by omega), putLe_of_outside (by omega), putLe_of_outside (by omega)]

/-- **Splitting a record**: a live entry keeps what it needs, and the rest is unused. -/
theorem splitRecord_spec (hfs : fs.Ok) (h : DirChain fs b stop off (off :: ds))
    (hstop : stop ≤ fs.blocksize)
    (hlive : dInode b off ≠ 0) (hroom : dirRecLen (direntNameLen b off) + 8 ≤ recLen fs b off) :
    ∃ b', splitRecord fs b off (recLen fs b off) (dirRecLen (direntNameLen b off)) = some b' ∧
      recLen fs b' off = dirRecLen (direntNameLen b off) ∧
      SameEntries fs stop off b ds b' ((off + dirRecLen (direntNameLen b off)) :: ds) := by
  obtain ⟨-, hmod, h8, -, hle⟩ := h.head
  have hmin8 := eight_le_dirRecLen (direntNameLen b off)
  have hminmod := dirRecLen_mod (direntNameLen b off)
  have hminle := dirRecLen_le (direntNameLen b off)
  have hname := name_le_dirRecLen (direntNameLen_lt b off)
  generalize hmin : dirRecLen (direntNameLen b off) = min at *
  obtain ⟨v, hset, hv⟩ := setRecLen_spec hfs b off min (by omega) hminmod (by omega)
  have hraw : dRecLen (putLe b (off + 4) 2 v) off = min :=
    (dRecLen_eq hfs (by omega)).trans hv
  obtain ⟨b', hset', hrec, hinode, hlen, hout⟩ := unusedEntry_spec hfs (putLe b (off + 4) 2 v)
    (off + min) (recLen fs b off - min) (by omega) (by omega) (by omega)
  -- the first record up to its new end comes from `ext2fs_set_rec_len`, the rest from the unused
  -- entry
  have hhead : SameBytes (putLe b (off + 4) 2 v) b' off (off + min) := hout.before off
  have hfirst : SameOutside b (putLe b (off + 4) 2 v) (off + 4) (off + 6) :=
    sameOutside_putLe b (off + 4) 2 v
  have hsame : ∀ lo hi, off + 6 ≤ lo ∧ hi ≤ off + min ∨ off ≤ lo ∧ hi ≤ off + 4 →
      SameBytes b b' lo hi := by
    intro lo hi hlohi i h1 h2
    rw [hhead i (by omega) (by omega), hfirst i (by omega)]
  have hrest : SameBytes b b' (off + recLen fs b off) stop := by
    intro i h1 h2
    rw [hout i (by omega), hfirst i (by omega)]
  have hnameLen : direntNameLen b' off = direntNameLen b off :=
    direntNameLen_congr (hsame _ _ (by omega))
  have hreclen : recLen fs b' off = min :=
    (recLen_congr (hhead.mono (by omega) (by omega))).trans hv
  refine ⟨b', ?_, hreclen, ⟨rfl, by rw [hreclen]; exact hminmod, ?_, ?_⟩,
    dInode_congr (hsame _ _ (by omega)),
    direntAt_congr (hsame _ _ (by omega)) (hsame _ _ (by omega)), hnameLen, ?_, ?_,
    fun need hneed => ?_⟩
  · rw [splitRecord, hset, Option.bind_some, hraw, hset']
  · rw [hreclen, hnameLen, hmin]
  · rw [hreclen]
    refine ⟨rfl, by rw [hrec]; omega, ?_, ?_⟩
    · rw [hrec, hlen, dirRecLen]
      omega
    · rw [hrec, show off + min + (recLen fs b off - min) = off + recLen fs b off by omega]
      exact h.2.2.2.congr hrest
  · rw [liveEntries, if_neg (by simpa using hinode), liveEntries_congr h.2.2.2 hrest]
  · intro i hi
    rw [hout i (by omega), hfirst i (by omega)]
  -- the room that was behind the live entry is now an entry of its own
  · refine hasRoom_cons.mpr (Or.inr (hasRoom_cons.mpr ?_))
    refine (hasRoom_cons.mp hneed).imp (fun hat => ?_) fun hin => hin.congr h.2.2.2 hrest
    rw [RoomAt, if_pos hlive, hmin] at hat
    rw [RoomAt, if_neg (by simpa using hinode), hrec]
    omega

/-- The new entry, in a record whose file type was `oldType`. -/
def LinkStruct.newEntry (fs : DirFs) (ls : LinkStruct) (oldType : ℕ) : DirEntry :=
  ⟨ls.inode, if fs.filetype then ls.flags % 8 else oldType, ls.name⟩

/-- A name and an inode number that can be linked. -/
structure LinkStruct.Ok (ls : LinkStruct) : Prop where
  name_pos : 1 ≤ ls.name.length
  name_le : ls.name.length ≤ 255
  inode_pos : 1 ≤ ls.inode
  inode_lt : ls.inode < 2 ^ 32

/-- **Filling an unused record.** -/
theorem fillEntry_spec {ls : LinkStruct} (hls : ls.Ok) (h : DirChain fs b stop off (off :: ds))
    (hroom : dirRecLen ls.name.length ≤ recLen fs b off) :
    DirChain fs (fillEntry fs ls b off) stop off (off :: ds) ∧
      direntAt (fillEntry fs ls b off) off = ls.newEntry fs (direntFileType b off) ∧
      SameOutside b (fillEntry fs ls b off) off (off + recLen fs b off) ∧
      dInode (fillEntry fs ls b off) off ≠ 0 := by
  obtain ⟨-, hmod, h8, -, hle⟩ := h.head
  have hpos := hls.name_pos
  have hlt := hls.name_le
  have hname := name_le_dirRecLen (show ls.name.length < 256 by omega)
  -- the entry before its file type is stored
  have hbase : ∀ b', b' = putBytes (direntSetNameLen (putLe b off 4 ls.inode) off ls.name.length)
      (off + 8) ls.name → dInode b' off = ls.inode ∧ direntNameLen b' off = ls.name.length ∧
        bytesAt b' (off + 8) ls.name.length = ls.name ∧
          direntFileType b' off = direntFileType b off ∧
        SameOutside b b' off (off + 8 + ls.name.length) ∧ recLen fs b' off = recLen fs b off := by
    rintro b' rfl
    refine ⟨?_, ?_, bytesAt_putBytes _ _ _, ?_, fun i hi => ?_, recLen_congr fun i h1 h2 => ?_⟩
    · rw [dInode, direntSetNameLen, getLe_putBytes_of_disjoint (by omega),
        getLe_putLe_of_disjoint (by omega), getLe_putLe _ _ (by have := hls.inode_lt; omega)]
    · rw [direntNameLen, direntSetNameLen, getLe_putBytes_of_disjoint (by omega),
        getLe_putLe _ _ (by omega)]
    · rw [direntFileType, direntSetNameLen, getLe_putBytes_of_disjoint (by omega),
        getLe_putLe_of_disjoint (by omega), getLe_putLe_of_disjoint (by omega), direntFileType]
    · rw [direntSetNameLen, putBytes_of_outside (by omega), putLe_of_outside (by omega),
        putLe_of_outside (by omega)]
    · rw [direntSetNameLen, putBytes_of_outside (by omega), putLe_of_outside (by omega),
        putLe_of_outside (by omega)]
  generalize hb : putBytes (direntSetNameLen (putLe b off 4 ls.inode) off ls.name.length)
    (off + 8) ls.name = base at hbase
  obtain ⟨hi, hn, hbytes, ht, hout, hrec⟩ := hbase base rfl
  have hfill : fillEntry fs ls b off =
      if fs.filetype then direntSetFileType base off (ls.flags % 8) else base := by
    rw [fillEntry, hb]
  have hfields : dInode (fillEntry fs ls b off) off = ls.inode ∧
      direntNameLen (fillEntry fs ls b off) off = ls.name.length ∧
      bytesAt (fillEntry fs ls b off) (off + 8) ls.name.length = ls.name ∧
      direntFileType (fillEntry fs ls b off) off =
        (if fs.filetype then ls.flags % 8 else direntFileType b off) ∧
      SameOutside b (fillEntry fs ls b off) off (off + recLen fs b off) ∧
      recLen fs (fillEntry fs ls b off) off = recLen fs b off := by
    rw [hfill]
    split_ifs
    · have hset : SameOutside base (direntSetFileType base off (ls.flags % 8))
          (off + 7) (off + 8) :=
        sameOutside_putLe _ _ _ _
      refine ⟨(dInode_congr ((hset.before off).mono le_rfl (by omega))).trans hi,
        (direntNameLen_congr ((hset.before 0).mono (Nat.zero_le _) le_rfl)).trans hn,
        (bytesAt_congr hset.after).trans hbytes, ?_, ?_,
        (recLen_congr ((hset.before 0).mono (Nat.zero_le _) (by omega))).trans hrec⟩
      · rw [direntFileType, direntSetFileType, getLe_putLe _ _ (by omega)]
      · intro i hi
        rw [hset i (by omega), hout i (by omega)]
    · exact ⟨hi, hn, hbytes, ht, hout.mono le_rfl (by omega), hrec⟩
  generalize fillEntry fs ls b off = b' at hfields ⊢
  obtain ⟨hi, hn, hbytes, ht, hout, hrec⟩ := hfields
  refine ⟨⟨rfl, by rw [hrec]; exact hmod, by rw [hrec, hn]; exact hroom, ?_⟩, ?_, hout, ?_⟩
  · rw [hrec]
    exact h.2.2.2.congr hout.after
  · rw [direntAt, hi, ht, direntName, hn, hbytes]
    rfl
  · have := hls.inode_pos
    omega

/-- What `link_proc` comes to at an entry: it goes on, with the same entries in perhaps other
records, or it has filled the unused record it is at. -/
structure Linked (fs : DirFs) (ls : LinkStruct) (stop off : ℕ) (b : Block) (ds : List ℕ)
    (r : DirRet × Block × LinkStruct) : Prop where
  abort : r.1 = ⟨true, true⟩
  priv : r.2.2 = { ls with done := true }
  unused : dInode b off = 0
  inode : dInode r.2.1 off ≠ 0
  entry : direntAt r.2.1 off = ls.newEntry fs (direntFileType b off)
  outside : SameOutside b r.2.1 off stop
  rest : ∃ ds', DirChain fs r.2.1 stop off (off :: ds') ∧ liveEntries r.2.1 ds' = liveEntries b ds

/-- **`link_proc` at an entry.** -/
theorem linkProc_spec (hfs : fs.Ok) {ls : LinkStruct} (hls : ls.Ok) (hdone : ls.done = false)
    (kind : DirentKind) (h : DirChain fs b (fs.blocksize - csumSize fs) off (off :: ds)) :
    (∃ changed b' ds', linkProc fs fs.blocksize kind off b ls = (⟨changed, false⟩, b', ls) ∧
      (changed = false → b' = b) ∧ SameEntries fs (fs.blocksize - csumSize fs) off b ds b' ds' ∧
      ¬RoomAt fs (dirRecLen ls.name.length) b' off) ∨
    Linked fs ls (fs.blocksize - csumSize fs) off b ds
      (linkProc fs fs.blocksize kind off b ls) := by
  -- the block after the next record has been absorbed, or not
  obtain ⟨changed, b', ds', hab, hcurr, hsame, hid⟩ : ∃ changed b' ds',
      absorbNext fs fs.blocksize b off = (changed, some b') ∧
      (if changed then recLen fs b off + dRecLen b (off + recLen fs b off)
        else recLen fs b off) = recLen fs b' off ∧
      SameEntries fs (fs.blocksize - csumSize fs) off b ds b' ds' ∧ (changed = false → b' = b) := by
    rcases absorbNext_spec hfs h with hab | ⟨b', ds', hab, hrec, hsame⟩
    · exact ⟨false, b, ds, hab, if_neg Bool.false_ne_true,
        ⟨h, rfl, rfl, rfl, rfl, fun _ _ => rfl, fun _ => id⟩, fun _ => rfl⟩
    · exact ⟨true, b', ds', hab, (if_pos rfl).trans hrec.symm, hsame, fun h => by cases h⟩
  rw [linkProc, if_neg (by simp [hdone]), hab]
  dsimp only
  rw [hcurr]
  have hname8 := eight_le_dirRecLen ls.name.length
  by_cases hlive : dInode b' off ≠ 0
  · refine Or.inl ?_
    rw [if_pos hlive]
    by_cases hshort : recLen fs b' off < dirRecLen (direntNameLen b' off) + dirRecLen ls.name.length
    · rw [if_pos hshort]
      refine ⟨changed, b', ds', rfl, hid, hsame, ?_⟩
      rw [RoomAt, if_pos hlive]
      omega
    · rw [if_neg hshort]
      obtain ⟨b'', hsplit, hrec, hsame'⟩ :=
        splitRecord_spec hfs hsame.chain (by omega) hlive (by omega)
      rw [hsplit]
      refine ⟨true, b'', _, rfl, (fun h => by cases h), hsame.trans hsame', ?_⟩
      rw [RoomAt, if_pos (by rw [hsame'.inode]; exact hlive), hrec, hsame'.nameLen]
      omega
  · rw [if_neg hlive]
    by_cases hshort : recLen fs b' off < dirRecLen ls.name.length
    · rw [if_pos hshort]
      refine Or.inl ⟨changed, b', ds', rfl, hid, hsame, ?_⟩
      rw [RoomAt, if_neg hlive]
      omega
    · rw [if_neg hshort]
      refine Or.inr ?_
      obtain ⟨-, -, -, -, hle⟩ := hsame.chain.head
      obtain ⟨hchain, hentry, hout, hinode⟩ := fillEntry_spec hls hsame.chain (not_lt.mp hshort)
      have htype : direntFileType b' off = direntFileType b off :=
        congrArg DirEntry.fileType hsame.entry
      refine ⟨rfl, rfl, ?_, hinode, by rw [hentry, htype],
        hsame.outside.trans (hout.mono le_rfl hle), ds', hchain, ?_⟩
      · rw [← hsame.inode]
        exact not_not.mp hlive
      · rw [liveEntries_congr hsame.chain.2.2.2 hout.after, hsame.rest]

end Edits

/-! ### Going through the block -/

section Visit

variable {σ : Type} {fs : DirFs} {func : DirFunc σ} {s : DirIter σ} {ds : List ℕ}

theorem advance_empty (fs : DirFs) (s : DirIter σ) (len : ℕ) :
    ∃ next, s.advance fs .empty len =
      { s with nextRealEntry := next, offset := s.offset + len } := by
  refine ⟨if s.nextRealEntry = s.offset then s.nextRealEntry + len else s.nextRealEntry, ?_⟩
  rw [DirIter.advance, if_neg (by simp [DirFlags.empty])]

/-- The loop ends at the end of the block, and skips the tail. -/
theorem run_at_stop (hfs : fs.Ok) (hoff : s.offset = fs.blocksize - csumSize fs)
    (htail : HasTail fs s.buf) (n : ℕ) :
    Loop.run (dirStep fs .empty fs.blocksize func) (n + 2) s =
      some ⟨false, false, s.changed, s.buf, s.priv⟩ := by
  have hmin := hfs.min_le
  have hend : ∀ s : DirIter σ, s.offset = fs.blocksize →
      dirStep fs .empty fs.blocksize func s = .inr ⟨false, false, s.changed, s.buf, s.priv⟩ := by
    intro s hs
    rw [dirStep, if_neg (by omega)]
  rcases hcsum : fs.metadataCsum with _ | _
  · have hsize : csumSize fs = 0 := by simp [csumSize, hcsum]
    exact Loop.run_of_inr _ (hend s (by omega))
  · have hsize : csumSize fs = 12 := if_pos hcsum
    rw [hsize] at hoff
    obtain ⟨hinode, hrec, hname⟩ := htail hcsum
    rw [← hoff] at hinode hrec hname
    have hlen : recLen fs s.buf s.offset = 12 := by
      rw [recLen, hrec, getRecLen]
      split_ifs with h1 h2
      · rfl
      · simp at h2
      · rfl
    have hnameLen : direntNameLen s.buf s.offset = 0 := by
      rw [dNameLen, getLe] at hname
      have := (s.buf (s.offset + 6)).toNat_lt
      rw [direntNameLen, getLe, getLe]
      omega
    have hstep : dirStep fs .empty fs.blocksize func s = .inl (s.advance fs .empty 12) := by
      rw [dirStep, if_pos (by omega)]
      dsimp only
      rw [hlen, hnameLen, if_neg (by omega), if_pos ⟨⟨hinode, rfl, by omega, by omega, hname⟩, rfl⟩]
    obtain ⟨next, hadv⟩ := advance_empty fs s 12
    refine Loop.run_of_round hstep ?_
    rw [hadv]
    exact Loop.run_of_inr _ (hend _ (by show s.offset + 12 = _; omega))

/-- The entries before the tail are shown to the function. What it returns decides whether the
loop goes on to the next record of the block the function leaves, or ends. -/
theorem dirStep_visit (func : DirFunc σ)
    (h : DirChain fs s.buf (fs.blocksize - csumSize fs) s.offset (s.offset :: ds))
    (hoff : s.offset < fs.blocksize - 8) :
    ∃ kind, ∀ ret b' priv', func kind s.offset s.buf s.priv = (ret, b', priv') →
      (ret.abort = true → dirStep fs .empty fs.blocksize func s =
        .inr ⟨false, true, s.changed || ret.changed, b', priv'⟩) ∧
      (ret.abort = false → (ret.changed = false → b' = s.buf) →
        ∃ s', dirStep fs .empty fs.blocksize func s = .inl s' ∧
          s'.offset = s.offset + recLen fs b' s.offset ∧ s'.buf = b' ∧ s'.priv = priv') := by
  obtain ⟨-, hmod, h8, hname, hle⟩ := h.head
  have htail : ¬isTail fs .empty fs.blocksize s.buf s.offset := by
    rintro ⟨-, -, hat, -⟩
    omega
  refine ⟨if s.offset < s.nextRealEntry then .deleted else s.entry, fun ret b' priv' hr => ?_⟩
  rw [dirStep, if_pos hoff]
  dsimp only
  rw [if_neg (by omega), if_neg fun h => htail h.1, if_neg (by simp [DirFlags.empty]), if_neg htail,
    hr]
  refine ⟨fun habort => if_pos habort, fun habort hid => ?_⟩
  have hlen : (if ret.changed then recLen fs b' s.offset else recLen fs s.buf s.offset) =
      recLen fs b' s.offset := by
    rcases hc : ret.changed with _ | _
    · rw [if_neg Bool.false_ne_true, hid hc]
    · rw [if_pos rfl]
  obtain ⟨next, hadv⟩ := advance_empty fs { s with
    entry := s.entry.succ, changed := s.changed || ret.changed, buf := b', priv := priv' }
    (recLen fs b' s.offset)
  refine ⟨{ s with
    nextRealEntry := next, offset := s.offset + recLen fs b' s.offset, entry := s.entry.succ,
    changed := s.changed || ret.changed, buf := b', priv := priv' }, ?_, rfl, rfl, rfl⟩
  rw [if_neg (by simp [habort]), hlen, hadv]

end Visit

/-- What the loop over a block comes to with `link_proc`: no error, and from the offset it
started at one live entry more or the same ones. -/
structure LinkEnds (fs : DirFs) (ls : LinkStruct) (stop off : ℕ) (b : Block) (ds : List ℕ)
    (r : DirEnd LinkStruct) : Prop where
  corrupted : r.corrupted = false
  err : r.priv.err = ls.err
  outside : SameOutside b r.buf off stop
  entries : ∃ ds', DirChain fs r.buf stop off ds' ∧
    ((r.priv.done = false ∧ liveEntries r.buf ds' = liveEntries b ds) ∨
      (r.priv.done = true ∧ ∃ l l' oldType, liveEntries b ds = l ++ l' ∧
        liveEntries r.buf ds' = l ++ ls.newEntry fs oldType :: l'))
  room : HasRoom fs (dirRecLen ls.name.length) b ds → r.priv.done = true

section Ends

variable {fs : DirFs} {ls : LinkStruct} {stop off : ℕ} {b : Block} {ds : List ℕ}

/-- The rest of the loop, after a round that has kept the entries. -/
theorem LinkEnds.of_sameEntries {b' : Block} {ds' : List ℕ} {next : ℕ} {r : DirEnd LinkStruct}
    (h : LinkEnds fs ls stop next b' ds' r) (hsame : SameEntries fs stop off b ds b' ds')
    (hnext : next = off + recLen fs b' off) (hno : ¬RoomAt fs (dirRecLen ls.name.length) b' off) :
    LinkEnds fs ls stop off b (off :: ds) r := by
  obtain ⟨-, hmod, h8, hname, hle⟩ := hsame.chain.head
  subst hnext
  obtain ⟨ds'', hchain, hlive⟩ := h.entries
  have hbefore := h.outside.before off
  have hrec : recLen fs r.buf off = recLen fs b' off :=
    recLen_congr (hbefore.mono (by omega) (by omega))
  have hnameLen : direntNameLen r.buf off = direntNameLen b' off :=
    direntNameLen_congr (hbefore.mono (by omega) (by omega))
  have hinode : dInode r.buf off = dInode b off :=
    (dInode_congr (hbefore.mono le_rfl (by omega))).trans hsame.inode
  have hentry : direntAt r.buf off = direntAt b off :=
    (direntAt_congr (hbefore.mono le_rfl (by omega)) (hbefore.mono (by omega) (by omega))).trans
      hsame.entry
  refine ⟨h.corrupted, h.err, hsame.outside.trans (h.outside.mono (by omega) le_rfl), ⟨off :: ds'',
    ⟨rfl, by rw [hrec]; exact hmod, by rw [hrec, hnameLen]; exact hsame.chain.2.2.1,
      by rw [hrec]; exact hchain⟩, ?_⟩, fun hroom => ?_⟩
  · rw [liveEntries_cons, liveEntries_cons, hinode, hentry]
    rcases hlive with ⟨hd, hl⟩ | ⟨hd, l, l', oldType, hl, hl'⟩
    · exact Or.inl ⟨hd, by rw [hl, hsame.rest]⟩
    · refine Or.inr ⟨hd, (if dInode b off ≠ 0 then [direntAt b off] else []) ++ l, l',
        oldType, ?_, ?_⟩
      · rw [List.append_assoc, ← hl, hsame.rest]
      · rw [List.append_assoc, ← hl']
  · exact h.room ((hasRoom_cons.mp (hsame.room _ hroom)).resolve_left hno)

/-- The loop ends where a record has been filled. -/
theorem Linked.linkEnds {r : DirRet × Block × LinkStruct} (h : Linked fs ls stop off b ds r)
    (changed : Bool) :
    LinkEnds fs ls stop off b (off :: ds) ⟨false, true, changed, r.2.1, r.2.2⟩ := by
  obtain ⟨ds', hchain, hlive⟩ := h.rest
  refine ⟨rfl, by rw [h.priv], h.outside, ⟨off :: ds', hchain, Or.inr ⟨by rw [h.priv], [],
    liveEntries b ds, direntFileType b off, ?_, ?_⟩⟩, fun _ => by rw [h.priv]⟩
  · rw [liveEntries, if_neg (by simpa using h.unused)]
    rfl
  · rw [liveEntries, if_pos h.inode, h.entry, hlive]
    rfl

end Ends

theorem link_loop {fs : DirFs} (hfs : fs.Ok) {ls : LinkStruct} (hls : ls.Ok)
    (hdone : ls.done = false)
    (n : ℕ) : ∀ (s : DirIter LinkStruct) (ds : List ℕ), fs.blocksize - s.offset ≤ n → s.priv = ls →
      DirChain fs s.buf (fs.blocksize - csumSize fs) s.offset ds → HasTail fs s.buf →
      ∃ r, Loop.run (dirStep fs .empty fs.blocksize (linkProc fs fs.blocksize)) (n + 2) s = some r ∧
        LinkEnds fs ls (fs.blocksize - csumSize fs) s.offset s.buf ds r := by
  have hcsum := csumSize_le fs
  have hmin := hfs.min_le
  -- the loop goes no further
  have hstays : ∀ (s : DirIter LinkStruct) (ds : List ℕ), s.priv = ls →
      DirChain fs s.buf (fs.blocksize - csumSize fs) s.offset ds →
      ¬HasRoom fs (dirRecLen ls.name.length) s.buf ds →
      LinkEnds fs ls (fs.blocksize - csumSize fs) s.offset s.buf ds
        ⟨false, false, s.changed, s.buf, s.priv⟩ := by
    intro s ds hpriv h hno
    exact ⟨rfl, by rw [hpriv], fun _ _ => rfl, ⟨ds, h, Or.inl ⟨by rw [hpriv]; exact hdone, rfl⟩⟩,
      fun hroom => absurd hroom hno⟩
  have hnil : ∀ b, ¬HasRoom fs (dirRecLen ls.name.length) b [] := by
    rintro b ⟨d, hd, -⟩
    cases hd
  induction n with
  | zero =>
    intro s ds hn hpriv h htail
    have := h.le
    rcases ds with _ | ⟨d, ds⟩
    · exact ⟨_, run_at_stop hfs h htail _, hstays s [] hpriv h (hnil _)⟩
    · obtain ⟨-, -, h8, -, hle⟩ := h.head
      omega
  | succ n ih =>
    intro s ds hn hpriv h htail
    rcases ds with _ | ⟨d, ds⟩
    · exact ⟨_, run_at_stop hfs h htail _, hstays s [] hpriv h (hnil _)⟩
    · obtain ⟨rfl, hmod, h8, -, hle⟩ := h.head
      by_cases hoff : s.offset < fs.blocksize - 8
      · obtain ⟨kind, hstep⟩ := dirStep_visit (linkProc fs fs.blocksize) h hoff
        rw [hpriv] at hstep
        rcases linkProc_spec hfs hls hdone kind h with
          ⟨changed, b', ds', hr, hid, hsame, hno⟩ | hlinked
        · obtain ⟨s', hround, hoff', rfl, hpriv'⟩ := (hstep _ _ _ hr).2 rfl hid
          obtain ⟨-, -, h8', -, hle'⟩ := hsame.chain.head
          have hrest := hsame.chain.2.2.2
          rw [← hoff'] at hrest
          obtain ⟨r, hleaves, hends⟩ := ih s' ds' (by omega) hpriv' hrest
            (htail.congr hfs hsame.outside.after)
          exact ⟨r, Loop.run_of_round hround hleaves, hends.of_sameEntries hsame hoff' hno⟩
        · generalize linkProc fs fs.blocksize kind s.offset s.buf ls = out at hstep hlinked
          exact ⟨_, Loop.run_of_inr _ ((hstep out.1 out.2.1 out.2.2 rfl).1 (by rw [hlinked.abort])),
            hlinked.linkEnds _⟩
      · refine ⟨_, Loop.run_of_inr _ ?_, hstays s _ hpriv h ?_⟩
        · rw [dirStep, if_neg hoff]
        · -- a record of eight bytes at the very end, which is not looked at
          have hneed := name_le_dirRecLen (show ls.name.length < 256 by have := hls.name_le; omega)
          have hpos := hls.name_pos
          have hlast : ds = [] := by
            rcases ds with _ | ⟨d', ds⟩
            · rfl
            · obtain ⟨rfl, -, h8', -, hle'⟩ := h.2.2.2.head
              omega
          subst hlast
          intro hroom
          rcases hasRoom_cons.mp hroom with hat | hin
          · rw [RoomAt] at hat
            omega
          · exact hnil _ hin

/-- What linking a name does to a block: it adds one live entry, of which `IsNew` holds, or finds
no room. -/
def LinkAddsOne (fs : DirFs) (ls : LinkStruct) (entry : DirentKind) (b : Block) (ds : List ℕ)
    (IsNew : DirEntry → Prop) : Prop :=
  ∃ r, Loop.Leaves (dirStep fs .empty fs.blocksize (linkProc fs fs.blocksize))
      (.start entry b ls) r ∧ r.corrupted = false ∧ r.priv.err = false ∧
    SameBytes b r.buf (fs.blocksize - csumSize fs) fs.blocksize ∧
    ∃ ds', ValidDirBlock fs r.buf ds' ∧
      ((r.priv.done = false ∧ ¬HasRoom fs (dirRecLen ls.name.length) b ds ∧
          liveEntries r.buf ds' = liveEntries b ds) ∨
        (r.priv.done = true ∧ ∃ l new l', IsNew new ∧ liveEntries b ds = l ++ l' ∧
          liveEntries r.buf ds' = l ++ new :: l'))

/-- The entry asked for. Its file type is stored where the file system has the feature. -/
def LinkStruct.Asks (fs : DirFs) (ls : LinkStruct) (e : DirEntry) : Prop :=
  e.inode = ls.inode ∧ e.name = ls.name ∧ (fs.filetype = true → e.fileType = ls.flags % 8)

/-- **Linking a name edits one entry.** -/
theorem linkAddsOne {fs : DirFs} (hfs : fs.Ok) {ls : LinkStruct} (hls : ls.Ok)
    (hdone : ls.done = false) (herr : ls.err = false) {b : Block} {ds : List ℕ}
    (h : ValidDirBlock fs b ds) (entry : DirentKind) :
    LinkAddsOne fs ls entry b ds (ls.Asks fs) := by
  obtain ⟨r, hleaves, hends⟩ := link_loop hfs hls hdone fs.blocksize (.start entry b ls) ds
    (Nat.sub_le _ _) rfl h.chain h.tail
  obtain ⟨ds', hchain, hlive⟩ := hends.entries
  refine ⟨r, ⟨_, hleaves⟩, hends.corrupted, hends.err.trans herr, hends.outside.after, ds',
    ⟨hchain, h.tail.congr hfs hends.outside.after⟩, hlive.imp (fun hno => ?_) fun hyes => ?_⟩
  · refine ⟨hno.1, fun hroom => ?_, hno.2⟩
    have := hends.room hroom
    simp [hno.1] at this
  · obtain ⟨hd, l, l', oldType, hl, hl'⟩ := hyes
    exact ⟨hd, l, _, l', ⟨rfl, rfl, fun ht => if_pos ht⟩, hl, hl'⟩

end E2fsprogs
