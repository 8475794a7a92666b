import E2fsprogs.Rehash.Directory

/-!
# The leaf blocks of a rebuilt directory

`copy_dir_entries` packs the entries it is given, in their order, into valid directory blocks, and
records for each block the hash its first entry has, with the lowest bit set if the entry before has
the same hash (`E2fsprogs.copyDirEntries_spec`).
-/

namespace E2fsprogs

variable {fs : DirFs} {fd : FillDir} {b b' : Block}

/-- An entry that can be written. -/
structure HashEntry.Ok (ent : HashEntry) : Prop where
  inode_lt : ent.dirent.inode < 2 ^ 32
  fileType_lt : ent.dirent.fileType < 256
  name_le : ent.dirent.name.length ≤ 255
  hash_lt : ent.hash < 2 ^ 32

/-! ### Records -/

section Records

variable {d off v : ℕ} {ds : List ℕ} {ent : HashEntry}

theorem dirRecLenExt_mod (n : ℕ) (extended : Bool) : dirRecLenExt n extended % 4 = 0 := by
  have := dirRecLen_mod n
  rw [dirRecLenExt]
  split <;> omega

theorem dirRecLenExt_le (n : ℕ) (extended : Bool) : dirRecLenExt n extended ≤ 272 := by
  have := dirRecLen_le n
  rw [dirRecLenExt]
  split <;> omega

theorem dirRecLen_le_ext (n : ℕ) (extended : Bool) : dirRecLen n ≤ dirRecLenExt n extended :=
  Nat.le_add_right _ _

/-- The bytes an entry is written to. -/
theorem putDirent_of_before {p : ℕ} (hp : p < d) : putDirent fd b d ent p = b p := by
  have h8 := eight_le_dirRecLen ent.dirent.name.length
  rw [putDirent]
  split
  · rw [putLe_of_outside (by omega), putLe_of_outside (by omega), putBytes_of_outside (by omega),
      direntSetFileType, putLe_of_outside (by omega), direntSetNameLen, putLe_of_outside (by omega),
      putLe_of_outside (by omega)]
  · rw [putBytes_of_outside (by omega),
      direntSetFileType, putLe_of_outside (by omega), direntSetNameLen, putLe_of_outside (by omega),
      putLe_of_outside (by omega)]

/-- **An entry that has been written reads back.** -/
theorem direntAt_putDirent (hent : ent.Ok) (fd : FillDir) (b : Block) (d v : ℕ) :
    direntAt (putLe (putDirent fd b d ent) (d + 4) 2 v) d = ent.dirent ∧
      direntNameLen (putLe (putDirent fd b d ent) (d + 4) 2 v) d = ent.dirent.name.length := by
  have hlen := hent.name_le
  have hroom := name_le_dirRecLen (show ent.dirent.name.length < 256 by omega)
  -- the entry before its hashes are stored
  have hbase : ∀ c, c = putBytes
    (direntSetFileType (direntSetNameLen (putLe b d 4 ent.dirent.inode) d
      ent.dirent.name.length) d ent.dirent.fileType) (d + 8) ent.dirent.name →
      dInode c d = ent.dirent.inode ∧ direntNameLen c d = ent.dirent.name.length ∧
        direntFileType c d = ent.dirent.fileType ∧
        bytesAt c (d + 8) ent.dirent.name.length = ent.dirent.name := by
    rintro c rfl
    refine ⟨?_, ?_, ?_, bytesAt_putBytes _ _ _⟩
    · rw [dInode, getLe_putBytes_of_disjoint (by omega), direntSetFileType,
        getLe_putLe_of_disjoint (by omega), direntSetNameLen, getLe_putLe_of_disjoint (by omega),
        getLe_putLe _ _ (by have := hent.inode_lt; omega)]
    · rw [direntNameLen, getLe_putBytes_of_disjoint (by omega), direntSetFileType,
        getLe_putLe_of_disjoint (by omega), direntSetNameLen, getLe_putLe _ _ (by omega)]
    · rw [direntFileType, getLe_putBytes_of_disjoint (by omega), direntSetFileType,
        getLe_putLe _ _ (by have := hent.fileType_lt; omega)]
  generalize hc : putBytes (direntSetFileType (direntSetNameLen (putLe b d 4 ent.dirent.inode) d
      ent.dirent.name.length) d ent.dirent.fileType) (d + 8) ent.dirent.name = c at hbase
  obtain ⟨hi, hn, ht, hbytes⟩ := hbase c rfl
  have hput : putDirent fd b d ent = if fd.hashInEntry then
      putLe (putLe c (d + dirRecLen ent.dirent.name.length) 4 ent.hash)
        (d + dirRecLen ent.dirent.name.length + 4) 4 ent.minorHash else c := by
    rw [putDirent, ← hc]
  have hsame : ∀ p, d ≤ p → p < d + 8 + ent.dirent.name.length → p < d + 4 ∨ d + 6 ≤ p →
      putLe (putDirent fd b d ent) (d + 4) 2 v p = c p := by
    intro p h1 h2 h3
    rw [putLe_of_outside (by omega), hput]
    split
    · rw [putLe_of_outside (by omega), putLe_of_outside (by omega)]
    · rfl
  have hinode : dInode (putLe (putDirent fd b d ent) (d + 4) 2 v) d = ent.dirent.inode :=
    (dInode_congr fun p h1 h2 => hsame p (by omega) (by omega) (by omega)).trans hi
  have hname : direntNameLen (putLe (putDirent fd b d ent) (d + 4) 2 v) d =
      ent.dirent.name.length :=
    (direntNameLen_congr fun p h1 h2 => hsame p (by omega) (by omega) (by omega)).trans hn
  have htype : direntFileType (putLe (putDirent fd b d ent) (d + 4) 2 v) d = ent.dirent.fileType :=
    (getLe_congr fun p h1 h2 => hsame p (by omega) (by omega) (by omega)).trans ht
  refine ⟨?_, hname⟩
  rw [direntAt, hinode, htype, direntName, hname,
    bytesAt_congr fun p h1 h2 => hsame p (by omega) (by omega) (by omega), hbytes]

/-- A record after the last one. -/
theorem dirChain_concat (h : DirChain fs b off 0 ds) (hbytes : SameBytes b b' 0 off)
    (hmod : recLen fs b' off % 4 = 0)
    (hroom : dirRecLen (direntNameLen b' off) ≤ recLen fs b' off) :
    DirChain fs b' (off + recLen fs b' off) 0 (ds ++ [off]) ∧
      liveEntries b' (ds ++ [off]) = liveEntries b ds ++ liveEntries b' [off] := by
  refine ⟨dirChain_append.mpr ⟨off, h.congr hbytes, rfl, hmod, hroom, rfl⟩, ?_⟩
  rw [liveEntries_append, liveEntries_congr h hbytes]

/-- The last record made longer. -/
theorem dirChain_extend (h : DirChain fs b off 0 (ds ++ [d]))
    (hmod : recLen fs (putLe b (d + 4) 2 v) d % 4 = 0)
    (hlong : recLen fs b d ≤ recLen fs (putLe b (d + 4) 2 v) d) :
    DirChain fs (putLe b (d + 4) 2 v) (d + recLen fs (putLe b (d + 4) 2 v) d) 0 (ds ++ [d]) ∧
      liveEntries (putLe b (d + 4) 2 v) (ds ++ [d]) = liveEntries b (ds ++ [d]) := by
  obtain ⟨mid, hds, rfl, -, hroom, -⟩ := dirChain_append.mp h
  have hbefore : SameBytes b (putLe b (d + 4) 2 v) 0 d := fun p _ hp => putLe_of_outside (by omega)
  have hname : direntNameLen (putLe b (d + 4) 2 v) d = direntNameLen b d :=
    direntNameLen_congr fun p h1 h2 => putLe_of_outside (by omega)
  have hentry : direntAt (putLe b (d + 4) 2 v) d = direntAt b d :=
    direntAt_congr (fun p h1 h2 => putLe_of_outside (by omega)) fun p h1 h2 =>
      putLe_of_outside (by omega)
  have hinode : dInode (putLe b (d + 4) 2 v) d = dInode b d :=
    dInode_congr fun p h1 h2 => putLe_of_outside (by omega)
  obtain ⟨hchain, hlive⟩ := dirChain_concat hds hbefore hmod (by rw [hname]; omega)
  refine ⟨hchain, ?_⟩
  rw [hlive, liveEntries_append, liveEntries_cons, liveEntries_cons, hinode, hentry]
  rfl

end Records

/-! ### Filling a block -/

section Filling

variable {cur : List HashEntry} {st : CopyState} {ent : HashEntry}

/-- Where the records of a leaf block end. -/
def leafStop (fs : DirFs) : ℕ := fs.blocksize - csumSize fs

/-- A valid leaf block with these entries. -/
def LeafOk (fs : DirFs) (b : Block) (es : List DirEntry) : Prop :=
  ∃ ds, ValidDirBlock fs b ds ∧ liveEntries b ds = es

/-- The records of a block up to `offset`, the last one of them at `dirent`, hold these entries. -/
structure Filled (fs : DirFs) (cur : List HashEntry) (st : CopyState) : Prop where
  chain : ∃ ds, DirChain fs st.block st.offset 0 (ds ++ [st.dirent]) ∧
    liveEntries st.block (ds ++ [st.dirent]) = cur.map HashEntry.dirent
  last : E2fsprogs.recLen fs st.block st.dirent = st.prevRecLen
  sum : st.offset + st.left = leafStop fs
  offset_mod : st.offset % 4 = 0
  recLen : st.left ≠ 0 → st.recLen = st.prevRecLen

/-- The block that is being filled is empty, or holds some entries. -/
def Filling (fs : DirFs) (cur : List HashEntry) (st : CopyState) : Prop :=
  (cur = [] ∧ st.block = zeroBlock ∧ st.dirent = 0 ∧ st.offset = 0 ∧ st.left = leafStop fs ∧
      st.prevRecLen = 0 ∧ st.recLen = 0) ∨
    (cur ≠ [] ∧ Filled fs cur st)

theorem leafStop_spec (hfs : fs.Ok) :
    1012 ≤ leafStop fs ∧ leafStop fs ≤ fs.blocksize ∧ leafStop fs % 4 = 0 := by
  have h1 := hfs.min_le
  have h2 := hfs.four_dvd
  rw [leafStop, csumSize]
  split <;> omega

/-- Where the last record is. -/
theorem Filled.dirent_add (h : Filled fs cur st) : st.dirent + st.prevRecLen = st.offset ∧
    8 ≤ st.prevRecLen ∧ st.prevRecLen % 4 = 0 := by
  obtain ⟨ds, hchain, -⟩ := h.chain
  obtain ⟨mid, -, rfl, hmod, hroom, hend⟩ := dirChain_append.mp hchain
  have h8 := eight_le_dirRecLen (direntNameLen st.block st.dirent)
  rw [h.last] at hmod hroom hend
  have hend' : st.dirent + st.prevRecLen = st.offset := hend
  omega

/-- Writing the tail finishes a block whose records reach it. -/
theorem leafOk_of_chain (hfs : fs.Ok) {ds : List ℕ} {es : List DirEntry}
    (h : DirChain fs b (leafStop fs) 0 ds) (hlive : liveEntries b ds = es) :
    LeafOk fs (if fs.metadataCsum then initializeDirentTail fs b else b) es := by
  have hmin := hfs.min_le
  by_cases hcsum : fs.metadataCsum = true
  · have hstop : leafStop fs = fs.blocksize - 12 := by rw [leafStop, csumSize, if_pos hcsum]
    rw [if_pos hcsum]
    have hbytes : SameBytes b (initializeDirentTail fs b) 0 (leafStop fs) := by
      intro p _ hp
      rw [initializeDirentTail, putLe_of_outside (by omega), putLe_of_outside (by omega),
        memcpy_of_outside (by omega)]
    refine ⟨ds, ⟨h.congr hbytes, fun _ => ⟨?_, ?_, ?_⟩⟩, (liveEntries_congr h hbytes).trans hlive⟩
    · rw [dInode, initializeDirentTail, getLe_putLe_of_disjoint (by omega),
        getLe_putLe_of_disjoint (by omega)]
      have hzero : getLe (memcpy b (fs.blocksize - 12) zeroBlock 12) (fs.blocksize - 12) 4 =
          getLe zeroBlock (fs.blocksize - 12) 4 :=
        getLe_congr fun p h1 h2 => memcpy_of_inside h1 (by omega)
      rw [hzero]
      rfl
    · rw [dRecLen, initializeDirentTail, getLe_putLe_of_disjoint (by omega),
        getLe_putLe _ _ (by decide)]
    · rw [dNameLen, initializeDirentTail, getLe_putLe _ _ (by decide)]
  · rw [if_neg hcsum]
    exact ⟨ds, ⟨h, fun hcon => absurd hcon hcsum⟩, hlive⟩

/-- **Finishing a block.** -/
theorem finishBlock_spec (hfs : fs.Ok) (h : Filling fs cur st) {len : ℕ}
    (hlen : st.left ≠ 0 → len = st.left + st.prevRecLen) :
    ∃ b', finishBlock fs st len = some (st.setBlock b') ∧
    LeafOk fs b' (cur.map HashEntry.dirent) := by
  obtain ⟨hmin, hle, hmod⟩ := leafStop_spec hfs
  rw [finishBlock]
  rcases h with ⟨hcur, hblock, hdirent, hoffset, hleft, hprev, -⟩ | ⟨hcur, h⟩
  · rw [if_pos (by omega), hblock, hdirent, hlen (by omega), hleft, hprev, Nat.add_zero]
    obtain ⟨v, hset, hrec⟩ := setRecLen_spec hfs zeroBlock 0 (leafStop fs) hle hmod (by omega)
    have hinode : dInode (putLe zeroBlock (0 + 4) 2 v) 0 = 0 :=
      (getLe_putLe_of_disjoint (by omega)).trans rfl
    have hname : direntNameLen (putLe zeroBlock (0 + 4) 2 v) 0 = 0 :=
      (getLe_putLe_of_disjoint (by omega)).trans rfl
    have hchain : DirChain fs (putLe zeroBlock (0 + 4) 2 v) (leafStop fs) 0 [0] := by
      refine ⟨rfl, by rw [hrec]; exact hmod, ?_, ?_⟩
      · rw [hrec, hname]
        have : dirRecLen 0 = 8 := rfl
        omega
      · rw [hrec]
        exact Nat.zero_add _
    rw [hset]
    refine ⟨_, rfl, leafOk_of_chain hfs hchain ?_⟩
    rw [hcur, liveEntries_cons, if_neg (not_not.mpr hinode)]
    rfl
  · obtain ⟨hadd, h8, hmod'⟩ := h.dirent_add
    have hsum := h.sum
    have hoff := h.offset_mod
    obtain ⟨ds, hchain, hlive⟩ := h.chain
    by_cases hleft : st.left = 0
    · rw [if_neg (not_not.mpr hleft)]
      have hend : st.offset = leafStop fs := by omega
      rw [hend] at hchain
      exact ⟨_, rfl, leafOk_of_chain hfs hchain hlive⟩
    · rw [if_pos hleft, hlen hleft]
      obtain ⟨v, hset, hrec⟩ := setRecLen_spec hfs st.block st.dirent (st.left + st.prevRecLen)
        (by omega) (by omega) (by omega)
      obtain ⟨hchain', hlive'⟩ := @dirChain_extend fs st.block st.dirent st.offset v ds hchain
        (by omega) (by rw [hrec, h.last]; omega)
      have hend : st.dirent + recLen fs (putLe st.block (st.dirent + 4) 2 v) st.dirent =
          leafStop fs := by
        omega
      rw [hend] at hchain'
      rw [hset]
      exact ⟨_, rfl, leafOk_of_chain hfs hchain' (hlive'.trans hlive)⟩

/-- The hash that is recorded for a block that starts with this entry. -/
def leafKey (prevHash : ℕ) (ent : HashEntry) : ℕ :=
  if ent.hash = prevHash then ent.hash ||| 1 else ent.hash

/-- The hashes after an entry has been copied. -/
def hashesAfter (st : CopyState) (ent : HashEntry) : ℕ → ℕ :=
  if st.offset = 0 then Function.update st.out.hashes (st.out.num - 1) (leafKey st.prevHash ent)
  else st.out.hashes

/-- The offset after an entry has been written at an offset. -/
def offsetAfter (fs : DirFs) (fd : FillDir) (slack off : ℕ) (ent : HashEntry) : ℕ :=
  let next := off + dirRecLenExt ent.dirent.name.length fd.hashInEntry
  if leafStop fs - next < slack then leafStop fs else next

/-- **Copying an entry into a block that has room for it.** -/
theorem copyInto_spec (hfs : fs.Ok) (hent : ent.Ok) (hino : ent.dirent.inode ≠ 0) {ds : List ℕ}
    {slack : ℕ} (hchain : DirChain fs st.block st.offset 0 ds)
    (hlive : liveEntries st.block ds = cur.map HashEntry.dirent) (hmod : st.offset % 4 = 0)
    (hroom : st.offset + dirRecLenExt ent.dirent.name.length fd.hashInEntry ≤ leafStop fs) :
    ∃ st', copyInto fs fd slack st ent = some st' ∧ Filled fs (cur ++ [ent]) st' ∧
      st'.prevHash = ent.hash ∧ st'.offset = offsetAfter fs fd slack st.offset ent ∧
      st'.out.num = st.out.num ∧ st'.out.max = st.out.max ∧ st'.out.hashes = hashesAfter st ent ∧
      ∀ k, k ≠ st.out.num - 1 → st'.out.buf k = st.out.buf k := by
  obtain ⟨-, hle, hstop⟩ := leafStop_spec hfs
  obtain ⟨r, hr⟩ : ∃ r, dirRecLenExt ent.dirent.name.length fd.hashInEntry = r := ⟨_, rfl⟩
  have hr4 : r % 4 = 0 := hr ▸ dirRecLenExt_mod _ _
  have hrn : dirRecLen ent.dirent.name.length ≤ r := hr ▸ dirRecLen_le_ext _ _
  have hr8 := eight_le_dirRecLen ent.dirent.name.length
  rw [hr] at hroom
  obtain ⟨v, hset, hrec⟩ := setRecLen_spec hfs (putDirent fd st.block st.offset ent) st.offset r
    (by omega) hr4 (by omega)
  obtain ⟨hentry, hname⟩ := direntAt_putDirent hent fd st.block st.offset v
  obtain ⟨b, hb⟩ : ∃ b, b = putLe (putDirent fd st.block st.offset ent) (st.offset + 4) 2 v :=
    ⟨_, rfl⟩
  rw [← hb] at hset hrec hentry hname
  have hbytes : SameBytes st.block b 0 st.offset := by
    intro p _ hp
    rw [hb, putLe_of_outside (by omega), putDirent_of_before hp]
  obtain ⟨hchain', hlive'⟩ := dirChain_concat hchain hbytes (by rw [hrec]; exact hr4)
    (by rw [hrec, hname]; exact hrn)
  have hcur : liveEntries b (ds ++ [st.offset]) = (cur ++ [ent]).map HashEntry.dirent := by
    have hinode : dInode b st.offset = ent.dirent.inode := congrArg DirEntry.inode hentry
    rw [hlive', hlive, liveEntries_cons, if_pos (by rw [hinode]; exact hino), hentry,
      List.map_append]
    rfl
  rw [hrec] at hchain'
  obtain ⟨left, hleft⟩ : ∃ left, left = leafStop fs - st.offset - r := ⟨_, rfl⟩
  -- the state when the entry has been written and the slack has not been looked at
  obtain ⟨mid, hmid⟩ : ∃ mid : CopyState, mid = {
      out := { st.out with
        hashes := hashesAfter st ent, buf := Function.update st.out.buf (st.out.num - 1) b }
      dirent := st.offset, offset := st.offset + r, left := left
      prevRecLen := r, recLen := r, prevHash := ent.hash } := ⟨_, rfl⟩
  have hcopy : copyInto fs fd slack st ent = if mid.left < slack then
      (setRecLen fs (mid.prevRecLen + mid.left) mid.block mid.dirent).map fun b =>
        { mid.setBlock b with
          prevRecLen := mid.prevRecLen + mid.left, offset := mid.offset + mid.left, left := 0 }
      else some mid := by
    rw [copyInto, hr, hset, hmid, hleft]
    rfl
  have hblock : mid.block = b := by
    rw [hmid, CopyState.block]
    exact Function.update_self ..
  have hout : mid.out = { st.out with
      hashes := hashesAfter st ent, buf := Function.update st.out.buf (st.out.num - 1) b } := by
    rw [hmid]
  have hsum : mid.dirent = st.offset ∧ mid.offset = st.offset + r ∧ mid.left = left ∧
      mid.prevRecLen = r ∧ mid.recLen = r ∧ mid.prevHash = ent.hash := by
    rw [hmid]
    exact ⟨rfl, rfl, rfl, rfl, rfl, rfl⟩
  obtain ⟨hdirent, hoffset, hleft', hprev, hrecLen, hhash⟩ := hsum
  clear hmid
  rw [hcopy]
  by_cases hslack : mid.left < slack
  · rw [if_pos hslack, hblock, hprev, hleft', hdirent, hoffset]
    obtain ⟨v', hset', hrec'⟩ :=
      setRecLen_spec hfs b st.offset (r + left) (by omega) (by omega) (by omega)
    obtain ⟨hlong, hlong'⟩ :=
      dirChain_extend hchain' (by rw [hrec']; omega) (by rw [hrec, hrec']; omega)
    obtain ⟨c, hc⟩ : ∃ c, c = putLe b (st.offset + 4) 2 v' := ⟨_, rfl⟩
    rw [← hc] at hset' hrec' hlong hlong'
    rw [hset']
    have hbuf : (mid.setBlock c).out = { st.out with
        hashes := hashesAfter st ent, buf := Function.update st.out.buf (st.out.num - 1) c } := by
      show { mid.out with buf := Function.update mid.out.buf (mid.out.num - 1) c } = _
      rw [hout]
      exact congrArg (fun f => OutDir.mk _ _ _ f _) (Function.update_idem ..)
    refine ⟨⟨(mid.setBlock c).out, mid.dirent, st.offset + r + left, 0, r + left, mid.recLen,
      mid.prevHash⟩, rfl, ⟨⟨ds, ?_, ?_⟩, ?_, ?_, ?_, fun h => absurd rfl h⟩, hhash, ?_, ?_⟩
    all_goals
      simp only [CopyState.block, hbuf, Function.update_self, hdirent]
    · rw [hrec', ← Nat.add_assoc] at hlong
      exact hlong
    · rw [hlong', hcur]
    · exact hrec'
    · omega
    · omega
    · rw [offsetAfter, hr, if_pos (by omega)]
      omega
    · exact ⟨trivial, trivial, trivial, fun k hk => Function.update_of_ne hk _ _⟩
  · rw [if_neg hslack]
    refine ⟨mid, rfl, ⟨⟨ds, ?_, ?_⟩, ?_, ?_, ?_, fun _ => ?_⟩, hhash, ?_, ?_⟩
    · rw [hblock, hdirent, hoffset]
      exact hchain'
    · rw [hblock, hdirent, hcur]
    · rw [hblock, hdirent, hrec, hprev]
    · omega
    · omega
    · omega
    · rw [offsetAfter, hr, if_neg (by omega), hoffset]
    · rw [hout]
      exact ⟨rfl, rfl, rfl, fun k hk => Function.update_of_ne hk _ _⟩

end Filling

/-! ### All entries -/

section Packing

variable {slack p m : ℕ} {cur es : List HashEntry} {st : CopyState} {out : OutDir}

/-- The entries that are copied. -/
def HashEntry.live (ent : HashEntry) : Bool := ent.dirent.inode ≠ 0

/-- **How the entries are divided among the leaf blocks.** The block that is being filled holds
`cur` and is used up to `off`. -/
def packLeaves (fs : DirFs) (fd : FillDir) (slack : ℕ) :
    List HashEntry → ℕ → List HashEntry → List (List HashEntry)
  | cur, _, [] => [cur]
  | cur, off, ent :: es =>
    if leafStop fs - off < dirRecLenExt ent.dirent.name.length fd.hashInEntry then
      cur :: packLeaves fs fd slack [ent] (offsetAfter fs fd slack 0 ent) es
    else packLeaves fs fd slack (cur ++ [ent]) (offsetAfter fs fd slack off ent) es

/-- The hash of the last entry, `p` if there is none. -/
def lastHash (p : ℕ) (g : List HashEntry) : ℕ := (g.getLast?.map HashEntry.hash).getD p

/-- The hash that is recorded for a block, where the entry before it has hash `p`. -/
def firstKey (p : ℕ) (g : List HashEntry) : ℕ := (g.head?.map (leafKey p)).getD 0

/-- The hashes that are recorded for blocks. -/
def leafKeys : ℕ → List (List HashEntry) → List ℕ
  | _, [] => []
  | p, g :: gs => firstKey p g :: leafKeys (lastHash p g) gs

/-- The size of the buffer when it holds `n` blocks, if it was allocated for `m` of them. -/
def bufMax (m : ℕ) : ℕ → ℕ
  | 0 => m
  | n + 1 => if bufMax m n ≤ n then bufMax m n + Nat.max (bufMax m n / 10) 50 else bufMax m n

/-- The blocks from `first` on hold the entries of `gs`. -/
structure Packed (fs : DirFs) (p m first : ℕ) (gs : List (List HashEntry)) (before out : OutDir) :
    Prop where
  num : out.num = first + gs.length
  max : out.max = bufMax m out.num
  leaf : ∀ i g, gs[i]? = some g → LeafOk fs (out.buf (first + i)) (g.map HashEntry.dirent)
  key : ∀ i g, gs[i]? = some g → g ≠ [] → (leafKeys p gs)[i]? = some (out.hashes (first + i))
  same : ∀ k < first, out.buf k = before.buf k ∧ out.hashes k = before.hashes k
  hash_lt : (∀ k, before.hashes k < 2 ^ 32) → ∀ k, out.hashes k < 2 ^ 32

theorem setBlock_buf (st : CopyState) (b : Block) :
    (st.setBlock b).out.buf = Function.update st.out.buf (st.out.num - 1) b := rfl

theorem getNextBlock_num (out : OutDir) : (getNextBlock out).num = out.num + 1 := by
  rw [getNextBlock]
  split <;> rfl

theorem getNextBlock_max (h : out.max = bufMax m out.num) :
    (getNextBlock out).max = bufMax m (out.num + 1) := by
  rw [getNextBlock, bufMax, ← h]
  split <;> rfl

theorem getNextBlock_buf (out : OutDir) :
    (getNextBlock out).buf = Function.update out.buf out.num zeroBlock := by
  rw [getNextBlock]
  split <;> rfl

theorem getNextBlock_hashes (out : OutDir) : (getNextBlock out).hashes = out.hashes := by
  rw [getNextBlock]
  split <;> rfl

/-- The blocks that are left behind when a block is finished and the next ones are filled. -/
theorem Packed.cons {first : ℕ} {gs : List (List HashEntry)} {before mid : OutDir}
    (h : Packed fs (lastHash p cur) m (first + 1) gs mid out)
    (hleaf : LeafOk fs (mid.buf first) (cur.map HashEntry.dirent))
    (hkey : cur ≠ [] → mid.hashes first = firstKey p cur)
    (hsame : ∀ k < first, mid.buf k = before.buf k ∧ mid.hashes k = before.hashes k)
    (hlt : (∀ k, before.hashes k < 2 ^ 32) → ∀ k, mid.hashes k < 2 ^ 32) :
    Packed fs p m first (cur :: gs) before out := by
  obtain ⟨hbuf, hhash⟩ := h.same first (Nat.lt_succ_self _)
  refine ⟨?_, h.max, ?_, ?_, ?_, fun h0 => h.hash_lt (hlt h0)⟩
  · rw [h.num, List.length_cons]
    omega
  · intro i g hg
    cases i with
    | zero =>
      obtain rfl : cur = g := by simpa using hg
      rw [Nat.add_zero, hbuf]
      exact hleaf
    | succ i =>
      have := h.leaf i g (by simpa using hg)
      rwa [show first + (i + 1) = first + 1 + i by omega]
  · intro i g hg hne
    cases i with
    | zero =>
      obtain rfl : cur = g := by simpa using hg
      rw [Nat.add_zero, hhash, hkey hne]
      rfl
    | succ i =>
      have := h.key i g (by simpa using hg) hne
      rwa [show first + (i + 1) = first + 1 + i by omega]
  · intro k hk
    obtain ⟨h1, h2⟩ := h.same k (by omega)
    obtain ⟨h3, h4⟩ := hsame k hk
    exact ⟨h1.trans h3, h2.trans h4⟩

theorem lastHash_concat (p : ℕ) (g : List HashEntry) (ent : HashEntry) :
    lastHash p (g ++ [ent]) = ent.hash := by
  rw [lastHash, List.getLast?_concat]
  rfl

theorem firstKey_append {g : List HashEntry} (hg : g ≠ []) (p : ℕ) (es : List HashEntry) :
    firstKey p (g ++ es) = firstKey p g := by
  cases g with
  | nil => exact absurd rfl hg
  | cons e g => rfl

/-- What is left of the block while it is filled. -/
theorem Filling.left_eq (h : Filling fs cur st) : st.left = leafStop fs - st.offset := by
  rcases h with ⟨-, -, -, hoffset, hleft, -, -⟩ | ⟨-, h⟩
  · omega
  · have := h.sum
    omega

/-- The two record lengths agree where the last one is extended. -/
theorem Filling.recLen_eq (h : Filling fs cur st) (hleft : st.left ≠ 0) :
    st.recLen = st.prevRecLen := by
  rcases h with ⟨-, -, -, -, -, hprev, hrec⟩ | ⟨-, h⟩
  · rw [hprev, hrec]
  · exact h.recLen hleft

/-- The records that have been written. -/
theorem Filling.chain (h : Filling fs cur st) :
    st.offset % 4 = 0 ∧ ∃ ds, DirChain fs st.block st.offset 0 ds ∧
    liveEntries st.block ds = cur.map HashEntry.dirent := by
  rcases h with ⟨rfl, -, -, hoffset, -, -, -⟩ | ⟨-, h⟩
  · exact ⟨by omega, [], hoffset.symm, rfl⟩
  · obtain ⟨ds, hds⟩ := h.chain
    exact ⟨h.offset_mod, _, hds⟩

/-- Only the hash of the block that is being filled changes. -/
theorem hashesAfter_of_ne {ent : HashEntry} {k : ℕ} (hk : k ≠ st.out.num - 1) :
    hashesAfter st ent k = st.out.hashes k := by
  rw [hashesAfter]
  split
  · exact Function.update_of_ne hk _ _
  · rfl

theorem leafKey_lt {ent : HashEntry} (hent : ent.Ok) (p : ℕ) : leafKey p ent < 2 ^ 32 := by
  rw [leafKey]
  split
  · exact Nat.or_lt_two_pow hent.hash_lt (by omega)
  · exact hent.hash_lt

theorem hashesAfter_lt {ent : HashEntry} (hent : ent.Ok)
    (h : ∀ k, st.out.hashes k < 2 ^ 32) (k : ℕ) :
    hashesAfter st ent k < 2 ^ 32 := by
  by_cases hk : k = st.out.num - 1
  · rw [hashesAfter, hk]
    split
    · rw [Function.update_self]
      exact leafKey_lt hent _
    · exact h _
  · rw [hashesAfter_of_ne hk]
    exact h k

/-- The hash of the block that is being filled is that of its first entry. -/
theorem hashesAfter_first {ent : HashEntry} (h : Filling fs cur st)
    (hprev : st.prevHash = lastHash p cur)
    (hkey : cur ≠ [] → st.out.hashes (st.out.num - 1) = firstKey p cur) :
    hashesAfter st ent (st.out.num - 1) = firstKey p (cur ++ [ent]) := by
  rcases h with ⟨rfl, -, -, hoffset, -⟩ | ⟨hcur, h⟩
  · rw [hashesAfter, if_pos hoffset, Function.update_self, hprev]
    rfl
  · have := h.dirent_add
    rw [hashesAfter, if_neg (by omega), hkey hcur, firstKey_append hcur]

/-- **Copying the rest of the entries.** The induction is on the entries; the blocks before the one
that is being filled have been left behind. -/
theorem copyEntries_spec (hfs : fs.Ok) (hes : ∀ ent ∈ es, ent.Ok) (hfill : Filling fs cur st)
    (hnum : 0 < st.out.num) (hmax : st.out.max = bufMax m st.out.num)
    (hprev : st.prevHash = lastHash p cur)
    (hkey : cur ≠ [] → st.out.hashes (st.out.num - 1) = firstKey p cur) :
    ∃ out, ((es.foldlM (copyEntry fs fd slack) st).bind fun st =>
        (finishBlock fs st (st.recLen + st.left)).map CopyState.out) = some out ∧
      Packed fs p m (st.out.num - 1)
        (packLeaves fs fd slack cur st.offset (es.filter HashEntry.live))
        st.out out := by
  induction es generalizing cur st p with
  | nil =>
    have hlen : st.left ≠ 0 → st.recLen + st.left = st.left + st.prevRecLen := fun hleft => by
      rw [hfill.recLen_eq hleft, Nat.add_comm]
    obtain ⟨b, hfinish, hleaf⟩ := finishBlock_spec hfs hfill hlen
    have hnil : Packed fs (lastHash p cur) m (st.out.num - 1 + 1) [] (st.setBlock b).out
        (st.setBlock b).out :=
      ⟨(Nat.sub_add_cancel hnum).symm, hmax, fun i g hg => by simp at hg,
        fun i g hg => by simp at hg, fun k _ => ⟨rfl, rfl⟩, fun h0 => h0⟩
    refine ⟨(st.setBlock b).out, ?_, hnil.cons ?_ hkey (fun k hk => ⟨?_, rfl⟩) fun h0 => h0⟩
    · rw [List.foldlM_nil, Option.pure_def, Option.bind_some, hfinish]
      rfl
    · rw [setBlock_buf, Function.update_self]
      exact hleaf
    · rw [setBlock_buf, Function.update_of_ne (by omega)]
  | cons ent es ih =>
    have hes' : ∀ e ∈ es, e.Ok := fun e he => hes e (List.mem_cons_of_mem _ he)
    rw [List.foldlM_cons, Option.bind_eq_bind, Option.bind_assoc]
    by_cases hino : ent.dirent.inode = 0
    · have hlive : ent.live = false := by simp [HashEntry.live, hino]
      rw [copyEntry, if_pos hino, List.filter_cons, hlive]
      exact ih hes' hfill hnum hmax hprev hkey
    have hlive : ent.live = true := by simp [HashEntry.live, hino]
    have hent := hes ent List.mem_cons_self
    rw [copyEntry, if_neg hino, List.filter_cons, hlive, if_pos rfl, packLeaves, hfill.left_eq]
    obtain ⟨hmod, ds, hchain, hlive'⟩ := hfill.chain
    by_cases hroom : leafStop fs - st.offset < dirRecLenExt ent.dirent.name.length fd.hashInEntry
    · rw [if_pos hroom, if_pos hroom]
      -- the block is finished, and the entry is the first one of the next block
      have hlen : st.left ≠ 0 → leafStop fs - st.offset + st.prevRecLen = st.left + st.prevRecLen :=
        fun _ => by rw [hfill.left_eq]
      obtain ⟨b, hfinish, hleaf⟩ := finishBlock_spec hfs hfill hlen
      obtain ⟨next, hnext⟩ : ∃ next : CopyState, next =
          { st.setBlock b with out := getNextBlock (st.setBlock b).out, offset := 0 } := ⟨_, rfl⟩
      have hnum' : next.out.num = st.out.num + 1 := by
        rw [hnext]
        exact getNextBlock_num _
      have hoffset : next.offset = 0 := by rw [hnext]
      have hbuf : next.out.buf = Function.update (st.setBlock b).out.buf st.out.num zeroBlock := by
        rw [hnext]
        exact getNextBlock_buf _
      have hhashes : next.out.hashes = st.out.hashes := by
        rw [hnext]
        exact getNextBlock_hashes _
      have hmax' : next.out.max = bufMax m next.out.num := by
        rw [hnum', hnext]
        exact getNextBlock_max hmax
      have hprev' : next.prevHash = lastHash p cur := by
        rw [← hprev, hnext]
        rfl
      have hfit : next.offset + dirRecLenExt ent.dirent.name.length fd.hashInEntry ≤
          leafStop fs := by
        have := dirRecLenExt_le ent.dirent.name.length fd.hashInEntry
        have := (leafStop_spec hfs).1
        omega
      obtain ⟨st', hcopy, hfilled, hhash, hoff, hsame, hmx, hhs, hbf⟩ :=
        @copyInto_spec fs fd [] next ent hfs hent hino [] slack hoffset.symm rfl (by omega) hfit
      have hkey' : st'.out.hashes (st'.out.num - 1) = firstKey (lastHash p cur) [ent] := by
        rw [hsame, hhs, hashesAfter, if_pos hoffset, ← hprev']
        exact Function.update_self ..
      have hfill' : Filling fs [ent] st' := Or.inr ⟨by simp, hfilled⟩
      obtain ⟨out, hrun, hpacked⟩ := @ih (lastHash p cur) [ent] st' hes' hfill' (by omega)
        (by rw [hmx, hsame]; exact hmax') hhash (fun _ => hkey')
      have hfirst : st'.out.num - 1 = st.out.num - 1 + 1 := by omega
      rw [hoff, hoffset, hfirst] at hpacked
      have hbuf' : ∀ k < st.out.num, st'.out.buf k = (st.setBlock b).out.buf k := by
        intro k hk
        rw [hbf k (by omega), hbuf, Function.update_of_ne (by omega)]
      have hhashes' : ∀ k < st.out.num, st'.out.hashes k = st.out.hashes k := by
        intro k hk
        rw [hhs, hashesAfter_of_ne (by omega), hhashes]
      have hlt : (∀ k, st.out.hashes k < 2 ^ 32) → ∀ k, st'.out.hashes k < 2 ^ 32 := fun h0 => by
        rw [hhs]
        exact hashesAfter_lt hent (by rw [hhashes]; exact h0)
      refine ⟨out, ?_, hpacked.cons ?_ ?_ (fun k hk => ⟨?_, hhashes' k (by omega)⟩) hlt⟩
      · rw [hfinish, Option.bind_some, ← hnext, hcopy]
        exact hrun
      · rw [hbuf' _ (by omega), setBlock_buf, Function.update_self]
        exact hleaf
      · intro hcur
        rw [hhashes' _ (by omega), hkey hcur]
      · rw [hbuf' k (by omega), setBlock_buf, Function.update_of_ne (by omega)]
    · rw [if_neg hroom, if_neg hroom]
      have hfit : st.offset + dirRecLenExt ent.dirent.name.length fd.hashInEntry ≤ leafStop fs := by
        have := dirRecLen_le_ext ent.dirent.name.length fd.hashInEntry
        have := eight_le_dirRecLen ent.dirent.name.length
        omega
      obtain ⟨st', hcopy, hfilled, hhash, hoff, hsame, hmx, hhs, hbf⟩ :=
        @copyInto_spec fs fd cur st ent hfs hent hino ds slack hchain hlive' hmod hfit
      have hfill' : Filling fs (cur ++ [ent]) st' := Or.inr ⟨by simp, hfilled⟩
      have hkey' : st'.out.hashes (st'.out.num - 1) = firstKey p (cur ++ [ent]) := by
        rw [hsame, hhs]
        exact hashesAfter_first hfill hprev hkey
      obtain ⟨out, hrun, hpacked⟩ := @ih p (cur ++ [ent]) st' hes' hfill' (by omega)
        (by rw [hmx, hsame]; exact hmax) (by rw [hhash, lastHash_concat]) (fun _ => hkey')
      rw [hoff, hsame] at hpacked
      have hlt : (∀ k, st.out.hashes k < 2 ^ 32) → ∀ k, st'.out.hashes k < 2 ^ 32 := fun h0 => by
        rw [hhs]
        exact hashesAfter_lt hent h0
      refine ⟨out, ?_, ⟨hpacked.num, hpacked.max, hpacked.leaf, hpacked.key, fun k hk => ?_,
        fun h0 => hpacked.hash_lt (hlt h0)⟩⟩
      · rw [hcopy]
        exact hrun
      · obtain ⟨h1, h2⟩ := hpacked.same k hk
        rw [h1, h2, hhs, hashesAfter_of_ne (by omega), hbf k (by omega)]
        exact ⟨rfl, rfl⟩

/-- **The leaf blocks.** Copying succeeds; the blocks hold the entries in their order, and the hash
recorded for a block is that of its first entry. -/
theorem copyDirEntries_spec (hfs : fs.Ok) (hes : ∀ ent ∈ fd.harray, ent.Ok) (slackPercentage : ℕ) :
    ∃ out, copyDirEntries fs fd slackPercentage = some out ∧
      Packed fs 1 (fd.dirSize / fs.blocksize + 2) (if fd.compress then 0 else 1)
        (packLeaves fs fd (copySlack fs fd slackPercentage) [] 0 (fd.harray.filter HashEntry.live))
        (allocSizeDir fs fd) out := by
  obtain ⟨st, hst⟩ : ∃ st : CopyState, st = {
      out := getNextBlock (allocSizeDir fs fd)
      dirent := 0, offset := 0, left := fs.blocksize - csumSize fs, prevRecLen := 0, recLen := 0
      prevHash := 1 } := ⟨_, rfl⟩
  have hnum : st.out.num = (if fd.compress then 0 else 1) + 1 := by
    rw [hst]
    exact getNextBlock_num _
  have hfill : Filling fs [] st := by
    refine Or.inl ⟨rfl, ?_, by rw [hst], by rw [hst], by rw [hst]; rfl, by rw [hst], by rw [hst]⟩
    rw [CopyState.block, hnum, hst]
    exact (congrFun (getNextBlock_buf _) _).trans (Function.update_self ..)
  have hmax : st.out.max = bufMax (fd.dirSize / fs.blocksize + 2) st.out.num := by
    rw [hnum, hst]
    refine getNextBlock_max ?_
    rw [allocSizeDir]
    cases fd.compress with
    | true => rfl
    | false => exact (if_neg (Nat.not_le_of_lt (Nat.succ_pos _))).symm
  obtain ⟨out, hrun, hpacked⟩ := @copyEntries_spec fs fd (copySlack fs fd slackPercentage) 1
    (fd.dirSize / fs.blocksize + 2) [] fd.harray st hfs hes hfill (by omega) hmax (by rw [hst]; rfl)
    (fun h => absurd rfl h)
  have hoffset : st.offset = 0 := by rw [hst]
  rw [hnum, hoffset, Nat.add_sub_cancel] at hpacked
  refine ⟨out, ?_, hpacked.num, hpacked.max, hpacked.leaf, hpacked.key,
    fun k hk => ?_, fun h0 => ?_⟩
  · rw [copyDirEntries, ← hrun, hst]
  · obtain ⟨h1, h2⟩ := hpacked.same k hk
    rw [h1, h2, hst]
    refine ⟨(congrFun (getNextBlock_buf _) k).trans (Function.update_of_ne ?_ _ _),
      congrFun (getNextBlock_hashes _) k⟩
    exact Nat.ne_of_lt hk
  · refine hpacked.hash_lt ?_
    rw [hst, getNextBlock_hashes]
    exact h0

end Packing

end E2fsprogs
