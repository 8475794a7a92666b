import E2fsprogs.Dir.LinkOnce

/-!
# Unlinking removes one entry

Going through a valid block with `unlink_proc` removes the first live entry that matches.
The record of a removed entry is added to the record before it, in 16-bit arithmetic: for
a block of 64 KiB the sum may be the whole block, and the zero it wraps to is one of the
two encodings of that length (`E2fsprogs.recLen_add`).
-/

namespace E2fsprogs

/-- The live entry is one `unlink_proc` removes. -/
def UnlinkStruct.MatchesEntry (ls : UnlinkStruct) (e : DirEntry) : Prop :=
  (∀ name ∈ ls.name, e.name = name) ∧
    if ls.force = false ∧ ls.inode ≠ 0 then e.inode = ls.inode else e.inode ≠ 0

instance (ls : UnlinkStruct) (e : DirEntry) : Decidable (ls.MatchesEntry e) :=
  inferInstanceAs (Decidable (_ ∧ _))

section Chains

variable {fs : DirFs} {b : Block} {off stop : ℕ}

theorem dirChain_append {ds ds' : List ℕ} : DirChain fs b stop off (ds ++ ds') ↔
    ∃ mid, DirChain fs b mid off ds ∧ DirChain fs b stop mid ds' := by
  induction ds generalizing off with
  | nil =>
    constructor
    · exact fun h => ⟨off, rfl, h⟩
    · rintro ⟨mid, rfl, h⟩
      exact h
  | cons d ds ih =>
    rw [List.cons_append, DirChain, ih]
    constructor
    · rintro ⟨rfl, h1, h2, mid, h3, h4⟩
      exact ⟨mid, ⟨rfl, h1, h2, h3⟩, h4⟩
    · rintro ⟨mid, ⟨rfl, h1, h2, h3⟩, h4⟩
      exact ⟨rfl, h1, h2, mid, h3, h4⟩

theorem liveEntries_append (b : Block) (ds ds' : List ℕ) :
    liveEntries b (ds ++ ds') = liveEntries b ds ++ liveEntries b ds' := by
  induction ds with
  | nil => rfl
  | cons d ds ih =>
    rw [List.cons_append, liveEntries_cons, liveEntries_cons, ih, List.append_assoc]

theorem matches_iff {ls : UnlinkStruct} {d : ℕ} :
    ls.Matches b d ↔ ls.MatchesEntry (direntAt b d) := by
  have hlen : (direntName b d).length = direntNameLen b d := length_bytesAt _ _ _
  constructor
  · rintro ⟨h1, h2⟩
    exact ⟨fun name hname => (h1 name hname).2, h2⟩
  · rintro ⟨h1, h2⟩
    refine ⟨fun name hname => ?_, h2⟩
    have := h1 name hname
    exact ⟨by rw [← hlen]; exact congrArg List.length this, this⟩

/-- Only live entries match. -/
theorem UnlinkStruct.Matches.live {ls : UnlinkStruct} {d : ℕ} (h : ls.Matches b d) :
    dInode b d ≠ 0 := by
  have h2 := h.2
  split_ifs at h2 with hino
  · rw [h2]
    exact hino.2
  · exact h2

/-- **Adding a record to the one before it.** -/
theorem recLen_add (hfs : fs.Ok) (prev off : ℕ) (hmod : recLen fs b prev % 4 = 0)
    (hmod' : recLen fs b off % 4 = 0) (hpos : 8 ≤ recLen fs b prev) (hpos' : 8 ≤ recLen fs b off)
    (hle : recLen fs b prev + recLen fs b off ≤ fs.blocksize) :
    recLen fs (putLe b (prev + 4) 2 ((dRecLen b prev + dRecLen b off) % 2 ^ 16)) prev =
      recLen fs b prev + recLen fs b off := by
  have hmax := hfs.le_max
  rw [dRecLen_eq hfs (show recLen fs b prev < 65536 by omega),
    dRecLen_eq hfs (show recLen fs b off < 65536 by omega), recLen, dRecLen,
    getLe_putLe _ _ (by norm_num; omega)]
  have hlenmod : (recLen fs b prev + recLen fs b off) % 4 = 0 := by omega
  have hlenpos : 0 < recLen fs b prev + recLen fs b off := by omega
  generalize recLen fs b prev + recLen fs b off = len at hle hlenmod hlenpos
  rw [getRecLen]
  by_cases hlt : len < 2 ^ 16
  · rw [Nat.mod_eq_of_lt hlt]
    split_ifs with h1 h2
    · rfl
    · omega
    · omega
  · have hlen : len = 65536 := by omega
    have hzero : len % 2 ^ 16 = 0 := by omega
    rw [hzero, if_neg (by omega), if_pos (Or.inr rfl)]
    omega

end Chains

/-- What unlinking a name does to a block. -/
def UnlinkRemovesFirst (fs : DirFs) (ls : UnlinkStruct) (entry : DirentKind) (b : Block)
    (ds : List ℕ) : Prop :=
  ∃ r, Loop.Leaves (dirStep fs .empty fs.blocksize unlinkProc) (.start entry b ls) r ∧
    r.corrupted = false ∧ (r.priv.done = true ↔ ∃ e ∈ liveEntries b ds, ls.MatchesEntry e) ∧
    SameBytes b r.buf (fs.blocksize - csumSize fs) fs.blocksize ∧
    ∃ ds', ValidDirBlock fs r.buf ds' ∧
      liveEntries r.buf ds' = (liveEntries b ds).eraseP fun e => ls.MatchesEntry e

section Remove

variable {fs : DirFs} {b : Block} {off stop : ℕ} {pre ds : List ℕ}

/-- The block after the entry at `off` has been removed, where `pre` are the entries before it. -/
structure Removed (fs : DirFs) (stop off : ℕ) (b : Block) (pre ds : List ℕ) (b' : Block) :
    Prop where
  outside : SameOutside b b' 0 stop
  entries : ∃ ds', DirChain fs b' stop 0 ds' ∧
    liveEntries b' ds' = liveEntries b pre ++ liveEntries b ds

/-- Removing the first entry of a block. -/
theorem removed_first (h : DirChain fs b stop 0 (0 :: ds)) :
    Removed fs stop 0 b [] ds (putLe b 0 4 0) := by
  obtain ⟨-, -, h8, -, hle⟩ := h.head
  have hout : SameOutside b (putLe b 0 4 0) 0 4 := sameOutside_putLe b 0 4 0
  have hrec : recLen fs (putLe b 0 4 0) 0 = recLen fs b 0 :=
    recLen_congr (hout.after.mono le_rfl le_rfl)
  have hrest : SameBytes b (putLe b 0 4 0) (0 + recLen fs b 0) stop :=
    hout.after.mono (by omega) le_rfl
  have hinode : dInode (putLe b 0 4 0) 0 = 0 := getLe_putLe _ _ (by norm_num)
  refine ⟨hout.mono le_rfl (by omega), 0 :: ds, ⟨rfl, by rw [hrec]; exact h.2.1, ?_, ?_⟩, ?_⟩
  · rw [hrec, direntNameLen_congr (hout.after.mono (by omega) le_rfl)]
    exact h.2.2.1
  · rw [hrec]
    exact h.2.2.2.congr hrest
  · rw [liveEntries_cons, if_neg (by simpa using hinode), liveEntries_congr h.2.2.2 hrest]
    rfl

/-- Removing an entry with another before it. -/
theorem removed_next (hfs : fs.Ok) (hstop : stop ≤ fs.blocksize) {prev : ℕ}
    (hpre : DirChain fs b off 0 (pre ++ [prev])) (h : DirChain fs b stop off (off :: ds)) :
    Removed fs stop off b (pre ++ [prev]) ds
      (putLe b (prev + 4) 2 ((dRecLen b prev + dRecLen b off) % 2 ^ 16)) := by
  obtain ⟨mid, hpre, hlast⟩ := dirChain_append.mp hpre
  obtain ⟨rfl, hmodp, h8p, hnamep, hlep⟩ := hlast.head
  have hnext : prev + recLen fs b prev = off := hlast.2.2.2
  obtain ⟨-, hmod, h8, -, hle⟩ := h.head
  have hrec := recLen_add hfs prev off hmodp hmod h8p h8 (by omega)
  have hout := sameOutside_putLe b (prev + 4) 2 ((dRecLen b prev + dRecLen b off) % 2 ^ 16)
  generalize putLe b (prev + 4) 2 ((dRecLen b prev + dRecLen b off) % 2 ^ 16) = b' at hrec hout ⊢
  have hbefore : SameBytes b b' 0 prev := (hout.before 0).mono le_rfl (by omega)
  have hrest : SameBytes b b' (off + recLen fs b off) stop := hout.after.mono (by omega) le_rfl
  have hinode : dInode b' prev = dInode b prev :=
    dInode_congr ((hout.before 0).mono (Nat.zero_le _) le_rfl)
  have hentry : direntAt b' prev = direntAt b prev :=
    direntAt_congr ((hout.before 0).mono (Nat.zero_le _) le_rfl) hout.after
  refine ⟨hout.mono (by omega) (by omega), pre ++ prev :: ds, dirChain_append.mpr ⟨prev,
    hpre.congr hbefore, rfl, by rw [hrec]; omega, ?_, ?_⟩, ?_⟩
  · rw [hrec, direntNameLen_congr (hout.after.mono le_rfl le_rfl)]
    have := hlast.2.2.1
    omega
  · rw [hrec, show prev + (recLen fs b prev + recLen fs b off) = off + recLen fs b off by omega]
    exact h.2.2.2.congr hrest
  · rw [liveEntries_append, liveEntries_append, liveEntries_cons, liveEntries_cons, hinode, hentry,
      liveEntries_congr hpre hbefore, liveEntries_congr h.2.2.2 hrest]
    simp [liveEntries]

end Remove

/-- How the loop over a block ends with `unlink_proc`, from an offset with the entries `pre`
before it. -/
structure UnlinkEnds (fs : DirFs) (ls : UnlinkStruct) (stop : ℕ) (b : Block) (pre ds : List ℕ)
    (r : DirEnd UnlinkStruct) : Prop where
  corrupted : r.corrupted = false
  done : r.priv.done = true ↔ ∃ e ∈ liveEntries b ds, ls.MatchesEntry e
  outside : SameOutside b r.buf 0 stop
  entries : ∃ ds', DirChain fs r.buf stop 0 ds' ∧ liveEntries r.buf ds' =
    liveEntries b pre ++ (liveEntries b ds).eraseP fun e => ls.MatchesEntry e

section Loops

variable {fs : DirFs} {ls : UnlinkStruct} {b : Block} {name : List UInt8}

/-- No entry matches. -/
theorem unlinkEnds_of_none {stop off : ℕ} {pre ds : List ℕ} {changed : Bool} {prev : ℕ}
    (hdone : ls.done = false) (hpre : DirChain fs b off 0 pre) (h : DirChain fs b stop off ds)
    (hno : ∀ e ∈ liveEntries b ds, ¬ls.MatchesEntry e) :
    UnlinkEnds fs ls stop b pre ds ⟨false, false, changed, b, { ls with prev := prev }⟩ := by
  refine ⟨rfl, ?_, fun _ _ => rfl, pre ++ ds, dirChain_append.mpr ⟨off, hpre, h⟩, ?_⟩
  · constructor
    · intro hd
      simp [hdone] at hd
    · rintro ⟨e, he, hm⟩
      exact absurd hm (hno e he)
  · rw [liveEntries_append, List.eraseP_of_forall_not (by simpa using hno)]

theorem unlinkProc_of_not_matches {kind : DirentKind} {off prev : ℕ} (h : ¬ls.Matches b off) :
    unlinkProc kind off b { ls with prev := prev } = (⟨false, false⟩, b, { ls with prev := off }) :=
  if_neg h

theorem unlinkProc_of_matches {kind : DirentKind} {off prev : ℕ} (h : ls.Matches b off) :
    unlinkProc kind off b { ls with prev := prev } = (⟨true, true⟩,
      if off ≠ 0 then putLe b (prev + 4) 2 ((dRecLen b prev + dRecLen b off) % 2 ^ 16)
      else putLe b off 4 0,
      { ls with prev := off, done := true }) :=
  if_pos h

/-- The rest of the loop, after an entry that does not match. -/
theorem UnlinkEnds.of_not_matches {stop d : ℕ} {pre ds : List ℕ} {r : DirEnd UnlinkStruct}
    (h : UnlinkEnds fs ls stop b (pre ++ [d]) ds r) (hm : ¬ls.Matches b d) :
    UnlinkEnds fs ls stop b pre (d :: ds) r := by
  have hme : ¬ls.MatchesEntry (direntAt b d) := fun hme => hm (matches_iff.mpr hme)
  obtain ⟨ds', hchain, hentries⟩ := h.entries
  rw [liveEntries_append, liveEntries_cons, List.append_assoc] at hentries
  refine ⟨h.corrupted, h.done.trans ?_, h.outside, ds', hchain, hentries.trans ?_⟩
  · rw [liveEntries_cons]
    split
    · simp [hme]
    · rfl
  · rw [liveEntries_cons]
    split
    · simp [liveEntries, hme]
    · rfl

/-- **The loop**, from an offset with no matching entry before it. -/
theorem unlink_loop (hfs : fs.Ok) (hname : ls.name = some name) (hpos : 1 ≤ name.length)
    (hdone : ls.done = false) (htail : HasTail fs b) (n : ℕ) :
    ∀ (off next : ℕ) (entry : DirentKind) (changed : Bool) (prev : ℕ) (pre ds : List ℕ),
      fs.blocksize - off ≤ n → DirChain fs b off 0 pre → (∀ d ∈ pre.getLast?, prev = d) →
      DirChain fs b (fs.blocksize - csumSize fs) off ds →
      ∃ r, Loop.run (dirStep fs .empty fs.blocksize unlinkProc) (n + 2)
          ⟨off, next, entry, changed, b, { ls with prev := prev }⟩ = some r ∧
        UnlinkEnds fs ls (fs.blocksize - csumSize fs) b pre ds r := by
  have hcsum := csumSize_le fs
  have hmin := hfs.min_le
  induction n with
  | zero =>
    intro off next entry changed prev pre ds hn hpre hprev h
    have := h.le
    rcases ds with _ | ⟨d, ds⟩
    · refine ⟨⟨false, false, changed, b, { ls with prev := prev }⟩, ?_,
        unlinkEnds_of_none hdone hpre h fun e he => by cases he⟩
      exact @run_at_stop _ fs _ ⟨off, next, entry, changed, b,
        { ls with prev := prev }⟩ hfs h htail _
    · obtain ⟨-, -, h8, -, hle⟩ := h.head
      omega
  | succ n ih =>
    intro off next entry changed prev pre ds hn hpre hprev h
    rcases ds with _ | ⟨d, ds⟩
    · refine ⟨⟨false, false, changed, b, { ls with prev := prev }⟩, ?_,
        unlinkEnds_of_none hdone hpre h fun e he => by cases he⟩
      exact @run_at_stop _ fs _ ⟨off, next, entry, changed, b,
        { ls with prev := prev }⟩ hfs h htail _
    · obtain ⟨rfl, hmod, h8, hnm, hle⟩ := h.head
      by_cases hoff : d < fs.blocksize - 8
      · obtain ⟨kind, hstep⟩ := @dirStep_visit _ fs
          ⟨d, next, entry, changed, b, { ls with prev := prev }⟩ ds unlinkProc h hoff
        by_cases hm : ls.Matches b d
        · refine ⟨_, Loop.run_of_inr _ ((hstep _ _ _ (unlinkProc_of_matches hm)).1 rfl), ?_⟩
          have hlive := hm.live
          have hme := matches_iff.mp hm
          have hremoved : Removed fs (fs.blocksize - csumSize fs) d b pre ds
              (if d ≠ 0 then putLe b (prev + 4) 2 ((dRecLen b prev + dRecLen b d) % 2 ^ 16)
                else putLe b d 4 0) := by
            rcases List.eq_nil_or_concat pre with rfl | ⟨pre, last, rfl⟩
            · have hd : 0 = d := hpre
              subst hd
              exact removed_first h
            · rw [List.concat_eq_append] at hpre hprev ⊢
              obtain rfl := hprev last (by simp)
              obtain ⟨mid, -, hlast⟩ := dirChain_append.mp hpre
              obtain ⟨-, -, h8', -, hle'⟩ := hlast.head
              rw [if_pos (by omega)]
              exact removed_next hfs (by omega) hpre h
          obtain ⟨ds', hchain, hentries⟩ := hremoved.entries
          refine ⟨rfl, ⟨fun _ => ⟨direntAt b d, ?_, hme⟩, fun _ => rfl⟩, hremoved.outside,
            ds', hchain, ?_⟩
          · rw [liveEntries, if_pos hlive]
            exact List.mem_cons_self
          · rw [hentries, liveEntries, if_pos hlive, List.eraseP_cons_of_pos (by simpa using hme)]
        · obtain ⟨⟨off, next', entry', changed', b', priv'⟩, hround, hoff', hb', hpriv'⟩ :=
            (hstep _ _ _ (unlinkProc_of_not_matches hm)).2 rfl fun _ => rfl
          dsimp only at hoff' hb' hpriv'
          rw [hoff', hb', hpriv'] at hround
          obtain ⟨r, hleaves, hends⟩ :=
            ih (d + recLen fs b d) next' entry' changed' d (pre ++ [d]) ds
            (by omega) (dirChain_append.mpr ⟨d, hpre, rfl, hmod, h.2.2.1, rfl⟩) (by simp) h.2.2.2
          exact ⟨r, Loop.run_of_round hround hleaves, hends.of_not_matches hm⟩
      · refine ⟨⟨false, false, changed, b, { ls with prev := prev }⟩,
          Loop.run_of_inr _ (if_neg hoff), ?_⟩
        refine unlinkEnds_of_none hdone hpre h fun e he hm => ?_
        -- a record of eight bytes at the very end, whose name is empty
        have hlast : ds = [] := by
          rcases ds with _ | ⟨d', ds⟩
          · rfl
          · obtain ⟨rfl, -, h8', -, hle'⟩ := h.2.2.2.head
            omega
        subst hlast
        rw [liveEntries_cons] at he
        split_ifs at he
        · obtain rfl : e = direntAt b d := by simpa [liveEntries] using he
          have hlen : (direntName b d).length = direntNameLen b d := length_bytesAt _ _ _
          rw [show direntName b d = name from hm.1 name hname] at hlen
          omega
        · cases he

end Loops

theorem unlinkRemovesFirst {fs : DirFs} (hfs : fs.Ok) {ls : UnlinkStruct} {name : List UInt8}
    (hname : ls.name = some name) (hpos : 1 ≤ name.length) (hdone : ls.done = false) {b : Block}
    {ds : List ℕ} (h : ValidDirBlock fs b ds) (entry : DirentKind) :
    UnlinkRemovesFirst fs ls entry b ds := by
  obtain ⟨r, hleaves, hends⟩ := unlink_loop hfs hname hpos hdone h.tail fs.blocksize 0 0 entry false
    ls.prev [] ds (Nat.sub_le _ _) rfl (fun d hd => by cases hd) h.chain
  obtain ⟨ds', hchain, hentries⟩ := hends.entries
  exact ⟨r, ⟨_, hleaves⟩, hends.corrupted, hends.done, hends.outside.after, ds',
    ⟨hchain, h.tail.congr hfs hends.outside.after⟩, hentries⟩

/-! ### One entry at a time -/

/-- **Linking and unlinking a name edit one entry.** -/
theorem dirBlock_editsOne {fs : DirFs} (hfs : fs.Ok) {b : Block} {ds : List ℕ}
    (h : ValidDirBlock fs b ds) {name : List UInt8} (hpos : 1 ≤ name.length)
    (hle : name.length ≤ 255) (entry : DirentKind) :
    (∀ inode flags, 1 ≤ inode → inode < 2 ^ 32 →
      LinkAddsOne fs ⟨name, inode, flags, false, false⟩ entry b ds
        (LinkStruct.Asks fs ⟨name, inode, flags, false, false⟩)) ∧
    ∀ inode force prev, UnlinkRemovesFirst fs ⟨some name, inode, force, prev,
      false⟩ entry b ds := by
  constructor
  · intro inode flags h1 h2
    exact linkAddsOne hfs ⟨hpos, hle, h1, h2⟩ rfl rfl h entry
  · intro inode force prev
    exact unlinkRemovesFirst hfs rfl hpos rfl h entry

/-- A block of 1 KiB with a tail, the entries of a directory with the files `b` and `a`, and an
unused entry. -/
def tailedBlock : Block :=
  putLe (putLe (putLe (([2, 0, 0, 0, 12, 0, 1, 2, 46, 0, 0, 0,
    2, 0, 0, 0, 12, 0, 2, 2, 46, 46, 0, 0,
    13, 0, 0, 0, 16, 0, 1, 1, 98, 0, 0, 0, 0, 0, 0, 0,
    12, 0, 0, 0, 160, 0, 1, 1, 97] : List UInt8).getD · 0) 204 2 812) 1016 2 12) 1018 2 0xDE00

theorem tailedBlock_valid : ValidDirBlock ⟨1024, true, true⟩ tailedBlock [0, 12, 24, 40, 200] :=
  ⟨⟨rfl, by decide, by decide, rfl, by decide, by decide, rfl, by decide, by decide, rfl,
    by decide, by decide, rfl, by decide, by decide, by rw [DirChain]; decide⟩, fun _ => by decide⟩

theorem dirBlock_editsOne_tailedBlock :
    liveEntries tailedBlock [0, 12, 24, 40, 200] =
        [⟨2, 2, [46]⟩, ⟨2, 2, [46, 46]⟩, ⟨13, 1, [98]⟩, ⟨12, 1, [97]⟩] ∧
      LinkAddsOne ⟨1024, true, true⟩ ⟨[99], 14, 1, false, false⟩ .other tailedBlock
        [0, 12, 24, 40, 200] (LinkStruct.Asks ⟨1024, true, true⟩ ⟨[99], 14, 1, false, false⟩) ∧
      UnlinkRemovesFirst ⟨1024, true, true⟩ ⟨some [98], 13, false, 0, false⟩ .other tailedBlock
        [0, 12, 24, 40, 200] := by
  have hfs : DirFs.Ok ⟨1024, true, true⟩ := ⟨by norm_num, by norm_num, by norm_num⟩
  exact ⟨by decide, (dirBlock_editsOne hfs tailedBlock_valid (by decide) (by decide) .other).1 14 1
      (by norm_num) (by norm_num),
    (dirBlock_editsOne hfs tailedBlock_valid (by decide) (by decide) .other).2 13 false 0⟩

/-- A block of 1 KiB without tail and with one unused entry. -/
def emptyBlock : Block := putLe zeroBlock 4 2 1024

/-- A file system without file types. -/
def typelessFs : DirFs := ⟨1024, false, false⟩

/-- Without file types in the file system, an entry does not get the file type it is linked
with. -/
theorem typelessFs_not_addsGiven : typelessFs.Ok ∧ ValidDirBlock typelessFs emptyBlock [0] ∧
    ¬LinkAddsOne typelessFs ⟨[97], 12, 1, false, false⟩ .other emptyBlock [0]
      (fun e => e = ⟨12, 1, [97]⟩) := by
  have hvalid : ValidDirBlock typelessFs emptyBlock [0] :=
    ⟨⟨rfl, by decide, by decide, by rw [DirChain]; decide⟩, fun h => by cases h⟩
  refine ⟨⟨by decide, by decide, by decide⟩, hvalid, ?_⟩
  rintro ⟨r, hleaves, -, -, -, ds', hvalid', hcase⟩
  have hrun : Loop.Leaves (dirStep typelessFs .empty typelessFs.blocksize
      (linkProc typelessFs typelessFs.blocksize))
        (.start .other emptyBlock ⟨[97], 12, 1, false, false⟩)
      ⟨false, true, true, fillEntry typelessFs ⟨[97], 12, 1, false, false⟩ emptyBlock 0,
        ⟨[97], 12, 1, true, false⟩⟩ := Loop.leaves_of_inr rfl
  obtain rfl := Loop.leaves_unique hleaves hrun
  dsimp only at hvalid' hcase
  have hrec : recLen typelessFs (fillEntry typelessFs ⟨[97], 12, 1, false, false⟩ emptyBlock 0) 0 =
      1024 := by decide
  have hds : ds' = [0] := by
    rcases ds' with _ | ⟨d, ds'⟩
    · exact absurd hvalid'.chain (by rw [DirChain]; decide)
    · obtain ⟨rfl, -, -, hrest⟩ := hvalid'.chain
      rw [hrec] at hrest
      rcases ds' with _ | ⟨d, ds'⟩
      · rfl
      · obtain ⟨-, -, h8, -, hle⟩ := hrest.head
        have : typelessFs.blocksize - csumSize typelessFs = 1024 := rfl
        omega
  subst hds
  rcases hcase with ⟨h, -⟩ | ⟨-, l, new, l', rfl, hl, hl'⟩
  · cases h
  · have hlive : liveEntries emptyBlock [0] = [] := by decide
    have hlive' : liveEntries (fillEntry typelessFs ⟨[97], 12, 1, false, false⟩ emptyBlock 0) [0] =
        [⟨12, 0, [97]⟩] := by decide
    rw [hlive] at hl
    obtain ⟨rfl, rfl⟩ := List.append_eq_nil_iff.mp hl.symm
    rw [hlive'] at hl'
    simp at hl'

end E2fsprogs
