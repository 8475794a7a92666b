import E2fsprogs.Pass1b.Dupes

/-!
# The directories of the inodes that share blocks

`search_dirent_proc` and `pass1c` of `e2fsck/pass1b.c`. The directories are read for an entry of
every inode with duplicate blocks, until a counter says that none is missing.

Stopping early loses nothing: each inode gets the directory of its first entry, as it would have if
all entries had been read (`E2fsprogs.pass1c_names`).
-/

namespace E2fsprogs

section Naming

variable {ι : Type}

/-- `struct search_dir_struct`. -/
structure SearchDir where
  count : ℤ
  firstInode : ℕ
  maxInode : ℕ

/-- A directory entry, with its directory, as `ext2fs_dblist_dir_iterate` has it. `other` is an
entry that is neither `.` nor `..` (`DIRENT_OTHER_FILE`). -/
structure NamedEntry where
  dir : ℕ
  ino : ℕ
  other : Bool

/-- `search_dirent_proc`, with whether the iteration is to stop. -/
def searchDirentProc (marked : List ℕ) (sd : SearchDir) (inoDict : IntDict (DupInode ι))
    (e : NamedEntry) :
    Bool × SearchDir × IntDict (DupInode ι) :=
  if sd.maxInode < e.ino then (false, sd, inoDict)
  else if e.ino < sd.firstInode ∨ e.other = false ∨ e.ino ∉ marked then (false, sd, inoDict)
  else
    match inoDict.get e.ino with
    | none => (false, sd, inoDict)
    | some p =>
      if p.dir = 0 then
        (sd.count - 1 = 0, { sd with count := sd.count - 1 },
          inoDict.put e.ino { p with dir := e.dir })
      else (sd.count = 0, sd, inoDict)

/-- The iteration. -/
def searchDirents (marked : List ℕ) (sd : SearchDir) (inoDict : IntDict (DupInode ι)) :
    List NamedEntry → IntDict (DupInode ι)
  | [] => inoDict
  | e :: entries =>
    match searchDirentProc marked sd inoDict e with
    | (true, _, inoDict) => inoDict
    | (false, sd, inoDict) => searchDirents marked sd inoDict entries

/-- `pass1c`. -/
def pass1c (fs : Pass1bFs) (inodesCount : ℕ) (d : Dupes ι) (entries : List NamedEntry) : Dupes ι :=
  { d with
    inoDict := searchDirents d.inodeDupMap ⟨(d.dupInodeCount : ℤ) - d.dupInodeFounddir,
      fs.firstInode, inodesCount⟩
      d.inoDict entries }

/-- The directory of the first entry of an inode. -/
def firstDir (entries : List NamedEntry) (ino : ℕ) : ℕ :=
  ((entries.find? fun e => e.other = true ∧ e.ino = ino).map NamedEntry.dir).getD 0

theorem firstDir_append {done : List NamedEntry} (hdir : ∀ e ∈ done, e.dir ≠ 0)
    (rest : List NamedEntry) (i : ℕ) :
    firstDir (done ++ rest) i = if firstDir done i = 0 then firstDir rest i
      else firstDir done i := by
  rw [firstDir, firstDir, firstDir, List.find?_append]
  cases hfind : done.find? fun e => e.other = true ∧ e.ino = i with
  | none => rfl
  | some e => exact (if_neg (hdir e (List.mem_of_find?_eq_some hfind))).symm

theorem firstDir_singleton (e : NamedEntry) (i : ℕ) :
    firstDir [e] i = if e.other = true ∧ e.ino = i then e.dir else 0 := by
  rw [firstDir, List.find?_singleton]
  by_cases h : e.other = true ∧ e.ino = i
  · rw [if_pos (decide_eq_true h), if_pos h]
    rfl
  · rw [if_neg fun h' => h (of_decide_eq_true h'), if_neg h]
    rfl

/-- A count with one inode apart. -/
theorem countP_split {inodes : List (DupeScanned ι)} (hnodup : (inodes.map DupeScanned.ino).Nodup)
    (p : DupeScanned ι → Bool) {s : DupeScanned ι} (hs : s ∈ inodes) :
    inodes.countP p = inodes.countP (fun t => p t && t.ino ≠ s.ino) + if p s = true then
      1 else 0 := by
  induction inodes with
  | nil => cases hs
  | cons t inodes ih =>
    obtain ⟨hnew, hnodup⟩ := List.nodup_cons.mp hnodup
    rw [List.countP_cons, List.countP_cons]
    rcases List.mem_cons.mp hs with rfl | hs
    · have hrest : inodes.countP (fun t => p t && t.ino ≠ s.ino) = inodes.countP p :=
        List.countP_congr fun t ht => by
          have hne : t.ino ≠ s.ino := fun h => hnew (List.mem_map.mpr ⟨t, ht, h⟩)
          simp [hne]
      rw [hrest]
      simp only [ne_eq, not_true_eq_false, decide_false, Bool.and_false, Bool.false_eq_true,
        if_false, Nat.add_zero]
    · have hne : t.ino ≠ s.ino := fun h => hnew (List.mem_map.mpr ⟨s, hs, h.symm⟩)
      rw [ih hnodup hs]
      simp only [hne, ne_eq, not_false_eq_true, decide_true, Bool.and_true]
      omega

/-- Pass 1c has to find an entry of an inode. -/
def DupeScanned.Sought (fs : Pass1bFs) (s : DupeScanned ι) : Prop :=
  s.Examined ∧ fs.dups (s.visited fs) ≠ [] ∧ fs.firstInode ≤ s.ino

instance (fs : Pass1bFs) (s : DupeScanned ι) : Decidable (s.Sought fs) :=
  inferInstanceAs (Decidable (_ ∧ _))

/-- The record of an inode, with the directory of its first entry. -/
def DupInode.named (fs : Pass1bFs) (entries : List NamedEntry) (i : ℕ) (di : DupInode ι) :
    DupInode ι :=
  if di.dir = 0 ∧ fs.firstInode ≤ i then { di with dir := firstDir entries i } else di

/-- A scan finds an inode once, and none beyond `s_inodes_count`; the root is reserved. -/
structure ScannedOnce (fs : Pass1bFs) (inodes : List (DupeScanned ι)) (inodesCount : ℕ) : Prop where
  small : ∀ s ∈ inodes, s.ino < 2 ^ 31
  le : ∀ s ∈ inodes, s.ino ≤ inodesCount
  nodup : (inodes.map DupeScanned.ino).Nodup
  root : ext2RootIno < fs.firstInode

/-- Where pass 1c is: the inodes that it has found have their directories, and it counts the
others. -/
structure Naming (fs : Pass1bFs) (inodes : List (DupeScanned ι)) (d : Dupes ι)
    (done : List NamedEntry) (count : ℤ) (dict : IntDict (DupInode ι)) : Prop where
  get : ∀ i, i < 2 ^ 31 → dict.get i = (d.inoDict.get i).map (DupInode.named fs done i)
  count : count = inodes.countP fun s => s.Sought fs ∧ firstDir done s.ino = 0

variable {fs : Pass1bFs} {inodes : List (DupeScanned ι)} {d : Dupes ι} {inodesCount : ℕ}

/-- An inode is marked exactly where it has a record. -/
theorem Dupes.Exact.marked_iff (h : d.Exact fs inodes) {i : ℕ} (hi : i < 2 ^ 31) :
    i ∈ d.inodeDupMap ↔ (d.inoDict.get i).isSome = true := by
  rw [h.marked i, Option.isSome_iff_ne_none, ne_eq, ← Option.isNone_iff_eq_none,
    h.agree.isNone_iff hi]
  constructor
  · rintro ⟨s, hs, hex, hsi, hne⟩
    obtain ⟨blockNr, hb⟩ := List.exists_mem_of_ne_nil _ hne
    exact List.ne_nil_of_mem ((h.claims i _ hi).mpr ⟨s, hs, hex, hsi, blockNr, hb, rfl⟩)
  · intro hne
    obtain ⟨c, hc⟩ := List.exists_mem_of_ne_nil _ hne
    obtain ⟨s, hs, hex, hsi, blockNr, hb, -⟩ := (h.claims i c hi).mp hc
    exact ⟨s, hs, hex, hsi, List.ne_nil_of_mem hb⟩

section Search

variable {done : List NamedEntry} {count : ℤ} {dict : IntDict (DupInode ι)}

variable (h : Naming fs inodes d done count dict) (hexact : d.Exact fs inodes)

include h hexact

/-- An entry that is not the first one of an inode that is sought changes nothing. -/
theorem Naming.keep (hdir : ∀ e ∈ done, e.dir ≠ 0) {rest : List NamedEntry}
    (hrest : ∀ e ∈ rest, e.other = true → fs.firstInode ≤ e.ino → e.ino ∈ d.inodeDupMap →
      firstDir done e.ino ≠ 0) :
    Naming fs inodes d (done ++ rest) count dict := by
  have hsame : ∀ i, fs.firstInode ≤ i → i ∈ d.inodeDupMap →
      firstDir (done ++ rest) i = firstDir done i := by
    intro i hfirst hmarked
    rw [firstDir_append hdir]
    split_ifs with hzero
    · rw [hzero, firstDir, List.find?_eq_none.mpr, Option.map_none, Option.getD_none]
      intro e he hmatch
      obtain ⟨hother, rfl⟩ := of_decide_eq_true hmatch
      exact hrest e he hother hfirst hmarked hzero
    · rfl
  refine ⟨fun i hi => ?_, ?_⟩
  · rw [h.get i hi]
    cases hget : d.inoDict.get i with
    | none => rfl
    | some di =>
      have hmarked := (hexact.marked_iff hi).mpr (by rw [hget]; rfl)
      rw [Option.map_some, Option.map_some, DupInode.named, DupInode.named]
      split_ifs with hcond
      · rw [hsame i hcond.2 hmarked]
      · rfl
  · rw [h.count]
    refine congrArg _ (List.countP_congr fun s hs => ?_)
    rw [decide_eq_true_iff, decide_eq_true_iff]
    refine and_congr_right fun hsought => ?_
    rw [hsame s.ino hsought.2.2 ((hexact.marked _).mpr ⟨s, hs, hsought.1, rfl, hsought.2.1⟩)]

/-- Where the count is zero, every inode has been found. -/
theorem Naming.done_of_count (hcount : count = 0) {i : ℕ} (hfirst : fs.firstInode ≤ i)
    (hmarked : i ∈ d.inodeDupMap) : firstDir done i ≠ 0 := by
  intro hzero
  obtain ⟨s, hs, hex, rfl, hdups⟩ := (hexact.marked i).mp hmarked
  have hnone := Int.ofNat.inj (h.count.symm.trans hcount)
  exact List.countP_eq_zero.mp hnone s hs (decide_eq_true ⟨⟨hex, hdups, hfirst⟩, hzero⟩)

variable (hscan : ScannedOnce fs inodes inodesCount)

include hscan

/-- What the dictionary has for an inode that is sought. -/
theorem Naming.get_sought {i : ℕ} (hi : i < 2 ^ 31) (hfirst : fs.firstInode ≤ i) {p : DupInode ι}
    (hget : dict.get i = some p) :
    ∃ di, d.inoDict.get i = some di ∧ di.dir = 0 ∧ p = { di with dir := firstDir done i } := by
  have hroot := hscan.root
  rw [h.get i hi] at hget
  obtain ⟨di, hdi, rfl⟩ := Option.map_eq_some_iff.mp hget
  have hzero : di.dir = 0 := by rw [(hexact.agree.ino i di hi hdi).2.2, if_neg (by omega)]
  exact ⟨di, hdi, hzero, by rw [DupInode.named, if_pos ⟨hzero, hfirst⟩]⟩

/-- **The first entry of an inode that is sought.** -/
theorem Naming.found (hdir : ∀ e ∈ done, e.dir ≠ 0) {e : NamedEntry} (he : e.dir ≠ 0)
    (hother : e.other = true) (hfirst : fs.firstInode ≤ e.ino) (hmarked : e.ino ∈ d.inodeDupMap)
    {p : DupInode ι} (hget : dict.get e.ino = some p) (hzero : p.dir = 0) :
    Naming fs inodes d (done ++ [e]) (count - 1) (dict.put e.ino { p with dir := e.dir }) := by
  obtain ⟨s, hs, hex, hsi, hdups⟩ := (hexact.marked _).mp hmarked
  have hi : e.ino < 2 ^ 31 := hsi ▸ hscan.small s hs
  obtain ⟨di, hdi, hdir₀, rfl⟩ := h.get_sought hexact hscan hi hfirst hget
  have hnone : firstDir done e.ino = 0 := hzero
  have hnew : ∀ i, firstDir (done ++ [e]) i = if e.ino = i then e.dir else firstDir done i := by
    intro i
    rw [firstDir_append hdir, firstDir_singleton]
    by_cases hi : e.ino = i
    · rw [if_pos (hi ▸ hnone), if_pos ⟨hother, hi⟩, if_pos hi]
    · rw [if_neg (show ¬(e.other = true ∧ e.ino = i) from fun h => hi h.2), if_neg hi]
      split_ifs with hz
      · exact hz.symm
      · rfl
  refine ⟨fun i hi' => ?_, ?_⟩
  · rw [IntDict.get_put _ hi hi']
    split_ifs with hie
    · rw [← hie, hdi, Option.map_some, DupInode.named, if_pos ⟨hdir₀, hfirst⟩, hnew, if_pos rfl]
    · rw [h.get i hi']
      refine congrArg (fun f => Option.map f (d.inoDict.get i)) (funext fun di => ?_)
      rw [DupInode.named, DupInode.named, hnew, if_neg hie]
  · have hP : (fun t : DupeScanned ι => decide (t.Sought fs ∧ firstDir (done ++ [e]) t.ino = 0)) =
        fun t => decide (t.Sought fs ∧ firstDir done t.ino = 0) && decide (t.ino ≠ s.ino) := by
      refine funext fun t => ?_
      rw [hnew, ← Bool.decide_and, decide_eq_decide]
      split_ifs with ht
      · exact ⟨fun h => absurd h.2 he, fun h => absurd (ht.symm.trans hsi.symm) h.2⟩
      · exact ⟨fun h => ⟨h, fun heq => ht (hsi.symm.trans heq.symm)⟩, And.left⟩
    have hsplit :=
      countP_split hscan.nodup (fun t => decide (t.Sought fs ∧ firstDir done t.ino = 0)) hs
    rw [if_pos (decide_eq_true ⟨⟨hex, hdups, hsi ▸ hfirst⟩, hsi ▸ hnone⟩)] at hsplit
    rw [h.count, hP]
    omega

/-- **One entry.** The iteration is stopped only where nothing is left to be found. -/
theorem Naming.step (hdir : ∀ e ∈ done, e.dir ≠ 0) {e : NamedEntry} (he : e.dir ≠ 0) :
    ∃ stop count' dict', searchDirentProc d.inodeDupMap ⟨count, fs.firstInode, inodesCount⟩ dict e =
        (stop, ⟨count', fs.firstInode, inodesCount⟩, dict') ∧
      Naming fs inodes d (done ++ [e]) count' dict' ∧ (stop = true → count' = 0) := by
  have hpass : (e.other = true → fs.firstInode ≤ e.ino → e.ino ∈ d.inodeDupMap →
    firstDir done e.ino ≠ 0) →
      Naming fs inodes d (done ++ [e]) count dict := fun hskip =>
    h.keep hexact hdir fun e' he' => by rw [List.mem_singleton.mp he']; exact hskip
  rw [searchDirentProc]
  split_ifs with hlarge hother
  · refine ⟨false, count, dict, rfl, hpass fun _ _ hmarked => ?_, nofun⟩
    obtain ⟨s, hs, -, hsi, -⟩ := (hexact.marked _).mp hmarked
    exact absurd (hsi ▸ hscan.le s hs) (Nat.not_le_of_lt hlarge)
  · refine ⟨false, count, dict, rfl, hpass fun ho hf hm => ?_, nofun⟩
    rcases hother with hlow | hdot | hnot
    · exact absurd hlow (Nat.not_lt_of_le hf)
    · exact absurd (hdot.symm.trans ho) Bool.false_ne_true
    · exact absurd hm hnot
  obtain ⟨hfirst, ho, hm⟩ : fs.firstInode ≤ e.ino ∧ e.other = true ∧ e.ino ∈ d.inodeDupMap := by
    simpa using hother
  obtain ⟨s, hs, -, hsi, -⟩ := (hexact.marked _).mp hm
  have hi : e.ino < 2 ^ 31 := hsi ▸ hscan.small s hs
  -- a marked inode has a record
  have hsome : (dict.get e.ino).isSome = true := by
    rw [h.get _ hi, Option.isSome_map]
    exact (hexact.marked_iff hi).mp hm
  obtain ⟨p, hget⟩ := Option.isSome_iff_exists.mp hsome
  simp only [hget]
  split_ifs with hzero
  · exact ⟨_, _, _, rfl, h.found hexact hscan hdir he ho hfirst hm hget hzero, of_decide_eq_true⟩
  · refine ⟨_, count, dict, rfl, hpass fun _ _ _ hnone => hzero ?_, of_decide_eq_true⟩
    obtain ⟨di, -, -, rfl⟩ := h.get_sought hexact hscan hi hfirst hget
    exact hnone

/-- **The iteration**, which stops where nothing is left to be found. -/
theorem Naming.run (entries : List NamedEntry) (hdir : ∀ e ∈ done ++ entries, e.dir ≠ 0) :
    ∃ count', Naming fs inodes d (done ++ entries) count'
      (searchDirents d.inodeDupMap ⟨count, fs.firstInode, inodesCount⟩ dict entries) := by
  induction entries generalizing done count dict with
  | nil => exact ⟨count, by rwa [List.append_nil]⟩
  | cons e entries ih =>
    have hdone : ∀ e ∈ done, e.dir ≠ 0 := fun e he => hdir e (List.mem_append_left _ he)
    have he : e.dir ≠ 0 := hdir e (List.mem_append_right _ List.mem_cons_self)
    obtain ⟨stop, count', dict', hcall, hnext, hstop⟩ := h.step hexact hscan hdone he
    rw [List.append_cons] at hdir ⊢
    rw [searchDirents, hcall]
    cases stop with
    | false => exact ih hnext hdir
    | true =>
      refine ⟨count', hnext.keep hexact
        (fun e he => hdir e (List.mem_append_left _ he)) fun e' _ _ hfirst hmarked => ?_⟩
      exact hnext.done_of_count hexact (hstop rfl) hfirst hmarked

end Search

/-- What pass 1c starts with: the inodes that were counted, without the root. -/
theorem Dupes.Exact.naming (h : d.Exact fs inodes) (hscan : ScannedOnce fs inodes inodesCount) :
    Naming fs inodes d [] ((d.dupInodeCount : ℤ) - d.dupInodeFounddir) d.inoDict := by
  have hroot := hscan.root
  have hlt : ext2RootIno < 2 ^ 31 := by decide
  refine ⟨fun i hi => ?_, ?_⟩
  · have hid : ∀ di : DupInode ι, di.named fs [] i = di := by
      intro di
      rw [DupInode.named]
      split_ifs with hcond
      · rw [show firstDir [] i = di.dir from hcond.1.symm]
      · rfl
    rw [funext hid, Option.map_id']
  · have hmarked := h.marked_iff hlt
    rw [Option.isSome_iff_ne_none, ne_eq, ← Option.isNone_iff_eq_none, h.agree.isNone_iff hlt]
      at hmarked
    rw [h.counted, h.agree.founddir]
    split_ifs with hnil
    · rw [Int.natCast_zero, Int.sub_zero]
      refine congrArg _ (List.countP_congr fun t ht => ?_)
      rw [decide_eq_true_iff, decide_eq_true_iff]
      constructor
      · rintro ⟨hext, hdupst, hfirst | hti⟩
        · exact ⟨⟨hext, hdupst, hfirst⟩, rfl⟩
        · exact absurd hnil (hmarked.mp ((h.marked _).mpr ⟨t, ht, hext, hti, hdupst⟩))
      · rintro ⟨⟨hext, hdupst, hfirst⟩, -⟩
        exact ⟨hext, hdupst, .inl hfirst⟩
    · obtain ⟨s, hs, hex, hsi, hdups⟩ := (h.marked _).mp (hmarked.mpr hnil)
      have hsplit := countP_split hscan.nodup (fun s => decide (s.Counted fs)) hs
      rw [if_pos (decide_eq_true ⟨hex, hdups, .inr hsi⟩)] at hsplit
      rw [hsplit, Int.natCast_add, Int.natCast_one, Int.add_sub_cancel]
      refine congrArg _ (List.countP_congr fun t _ => ?_)
      rw [← Bool.decide_and, decide_eq_true_iff, decide_eq_true_iff, hsi]
      constructor
      · rintro ⟨⟨hext, hdupst, hnumber⟩, hne⟩
        exact ⟨⟨hext, hdupst, hnumber.resolve_right hne⟩, rfl⟩
      · rintro ⟨⟨hext, hdupst, hfirst⟩, -⟩
        exact ⟨⟨hext, hdupst, .inl hfirst⟩, by omega⟩

/-- **Pass 1c names every inode as if it had read all directories.** After pass 1b, it leaves the
records as they are, but for the directory of each inode that is not reserved, which is now that of
the first entry of the inode. -/
theorem pass1c_names (fs : Pass1bFs) (inodes : List (DupeScanned ι)) (inodesCount : ℕ)
    (hscan : ScannedOnce fs inodes inodesCount) (hmap : ∀ c, fs.blockDupMap c = true → c < 2 ^ 31)
    (entries : List NamedEntry) (hdir : ∀ e ∈ entries, e.dir ≠ 0) (i : ℕ) (hi : i < 2 ^ 31) :
    (pass1c fs inodesCount (pass1b fs inodes) entries).inoDict.get i =
      ((pass1b fs inodes).inoDict.get i).map (DupInode.named fs entries i) := by
  have hexact := exact_init.run inodes hscan.small hmap
  obtain ⟨count, hend⟩ := (hexact.naming hscan).run hexact hscan entries hdir
  exact hend.get i hi

/-- Two inodes that share a block, with an entry each, and a name that is not read any more. -/
theorem pass1c_names_two :
    let fs : Pass1bFs := ⟨0, false, 11, fun c => c == 20⟩
    let d := pass1b fs [⟨12, (), true, true, [⟨0, 20⟩], 0⟩, ⟨13, (), true, true, [⟨0, 20⟩], 0⟩]
    let entries : List NamedEntry := [⟨2, 2, false⟩, ⟨2, 13, true⟩, ⟨3, 12, true⟩, ⟨15, 13, true⟩]
    (pass1c fs 64 d entries).inoDict.get 13 = (d.inoDict.get 13).map
      (DupInode.named fs entries 13) ∧
      firstDir entries 13 = 2 := by
  refine ⟨pass1c_names _ _ 64 ⟨by decide, by decide, by decide, by decide⟩ (fun c hc => ?_) _
    (by decide) 13 (by decide), by decide⟩
  rw [eq_of_beq hc]
  decide

end Naming

end E2fsprogs
