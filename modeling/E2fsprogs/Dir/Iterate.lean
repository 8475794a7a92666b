import E2fsprogs.Dir.UnlinkOnce

/-!
# Going through a directory

`ext2fs_dir_iterate2` calls a function on the entries of one block after the other, until the
function says to stop, and writes the blocks it has changed. `ext2fs_link` and `ext2fs_unlink`
go through a directory with `link_proc` and `unlink_proc`. On the directory as a whole they add
one live entry (`E2fsprogs.linkBlocks_spec`), or remove the first that matches
(`E2fsprogs.unlinkBlocks_spec`).

A directory with an index has blocks whose only entries are `.` and `..`, or none: what is
behind them belongs to the index. Reading and writing blocks does not fail.
-/

namespace E2fsprogs

/-- The errors of the functions for directories. -/
def etDirCorrupted : ℕ := 2133571363
def etDirNoSpace : ℕ := 2133571366

/-! ### The blocks one after the other -/

section Iterate

variable {σ : Type} (fs : DirFs) (func : DirFunc σ)

/-- `ext2fs_process_dir_block`, on a block that has been read. A round goes on by eight bytes
or more, as long as the function leaves the records in order. -/
def processDirBlock (entry : DirentKind) (b : Block) (priv : σ) : DirEnd σ :=
  (Loop.run (dirStep fs .empty fs.blocksize func) (fs.blocksize + 2) (.start entry b priv)).getD
    ⟨true, false, false, b, priv⟩

/-- `ext2fs_dir_iterate2`: the error, the blocks as they are then, and the data of the
function. -/
def dirIterate : DirentKind → List Block → σ → Option ℕ × List Block × σ
  | _, [], priv => (none, [], priv)
  | entry, b :: bs, priv =>
    let r := processDirBlock fs func entry b priv
    if r.corrupted then (some etDirCorrupted, b :: bs, r.priv)
    else
      let b := if r.changed then r.buf else b
      if r.aborted then (none, b :: bs, r.priv)
      else
        let rest := dirIterate .other bs r.priv
        (rest.1, b :: rest.2.1, rest.2.2)

/-- `ext2fs_unlink`, on the blocks of a directory. -/
def unlinkBlocks (name : List UInt8) (ino : ℕ) (force : Bool) (bs : List Block) : ℕ × List Block :=
  match dirIterate fs unlinkProc .dot bs ⟨some name, ino, force, 0, false⟩ with
  | (some err, bs, _) => (err, bs)
  | (none, bs, ls) => (if ls.done then 0 else etDirNoSpace, bs)

/-- `ext2fs_link` without an index, on the blocks of a directory. What `ext2fs_set_rec_len`
refuses is an invalid argument. -/
def linkBlocks (name : List UInt8) (ino flags : ℕ) (bs : List Block) : ℕ × List Block :=
  match dirIterate fs (linkProc fs fs.blocksize) .dot bs ⟨name, ino, flags, false, false⟩ with
  | (some err, bs, _) => (err, bs)
  | (none, bs, ls) => (if ls.err then 22 else if ls.done then 0 else etDirNoSpace, bs)

end Iterate

/-! ### What the function keeps -/

section Keeps

variable {σ : Type} {fs : DirFs} {func : DirFunc σ} {s : DirIter σ} {r : DirEnd σ}

variable {always goesOn stopped failed : σ → Prop}

/-- What holds of the state of the loop. -/
structure IterKeeps (b : Block) (always goesOn : σ → Prop) (s : DirIter σ) : Prop where
  unchanged : s.changed = false → s.buf = b
  always : always s.priv
  goesOn : goesOn s.priv

theorem IterKeeps.advance {b : Block} (h : IterKeeps b always goesOn s) (len : ℕ) :
    IterKeeps b always goesOn (s.advance fs .empty len) := by
  obtain ⟨next, hadv⟩ := advance_empty fs s len
  rw [hadv]
  exact ⟨h.unchanged, h.always, h.goesOn⟩

end Keeps

section Procs

variable {fs : DirFs}

end Procs

/-! ### Directories -/

section Directories

variable {fs : DirFs} {b : Block} {name : List UInt8} {bs : List Block}
  {es es' : List DirEntry} {ess : List (List DirEntry)}

/-- `.` and `..`. -/
def dotNames : List (List UInt8) := [[46], [46, 46]]

/-- A block of an index: its records go to the very end, and have no other names. -/
structure IndexBlock (fs : DirFs) (b : Block) (ds : List ℕ) : Prop where
  chain : DirChain fs b fs.blocksize 0 ds
  dots : ∀ e ∈ liveEntries b ds, e.name ∈ dotNames

/-- The live entries of a block of a directory, with an index or without. -/
def BlockHas (fs : DirFs) (indexed : Bool) (b : Block) (es : List DirEntry) : Prop :=
  ∃ ds, liveEntries b ds = es ∧ (ValidDirBlock fs b ds ∨ indexed = true ∧ IndexBlock fs b ds)

/-- The live entries of a directory. -/
def DirHas (fs : DirFs) (indexed : Bool) (bs : List Block) (es : List DirEntry) : Prop :=
  ∃ ess, List.Forall₂ (BlockHas fs indexed) bs ess ∧ ess.flatten = es

theorem DirHas.of_cons {indexed : Bool} (h : DirHas fs indexed (b :: bs) es) :
    ∃ es₁ es₂, BlockHas fs indexed b es₁ ∧ DirHas fs indexed bs es₂ ∧ es = es₁ ++ es₂ := by
  obtain ⟨ess, hall, rfl⟩ := h
  cases hall with
  | cons hb hbs => exact ⟨_, _, hb, ⟨_, hbs, rfl⟩, List.flatten_cons⟩

/-- Two chains from one offset have the same records, as far as both go. -/
theorem DirChain.extends {stop stop' off : ℕ} {ds ds' : List ℕ} (h : DirChain fs b stop off ds)
    (h' : DirChain fs b stop' off ds') (hle : stop ≤ stop') :
    ∃ rest, ds' = ds ++ rest ∧ DirChain fs b stop' stop rest := by
  induction ds generalizing off ds' with
  | nil =>
    obtain rfl : off = stop := h
    exact ⟨ds', rfl, h'⟩
  | cons d ds ih =>
    obtain ⟨rfl, -, h8, -, hlen⟩ := h.head
    rcases ds' with _ | ⟨d', ds'⟩
    · have : d = stop' := h'
      omega
    · obtain ⟨rfl, -⟩ := h'.head
      obtain ⟨rest, rfl, hrest⟩ := ih h.2.2.2 h'.2.2.2
      exact ⟨rest, rfl, hrest⟩

/-- The tail is no entry. -/
theorem liveEntries_behind (hfs : fs.Ok) {ds ds' : List ℕ} (h : ValidDirBlock fs b ds)
    (h' : DirChain fs b fs.blocksize 0 ds') : liveEntries b ds' = liveEntries b ds := by
  have hmin := hfs.min_le
  obtain ⟨rest, rfl, hrest⟩ := h.chain.extends h' (Nat.sub_le _ _)
  rw [liveEntries_append]
  rcases rest with _ | ⟨d, rest⟩
  · rw [liveEntries, List.append_nil]
  · obtain ⟨rfl, -, h8, -, hle⟩ := hrest.head
    rcases hcsum : fs.metadataCsum with _ | _
    · have hsize : csumSize fs = 0 := by simp [csumSize, hcsum]
      omega
    · have hsize : csumSize fs = 12 := if_pos hcsum
      rw [hsize] at hrest hle ⊢
      obtain ⟨hinode, hrec, -⟩ := h.tail hcsum
      have hlen : recLen fs b (fs.blocksize - 12) = 12 := by
        rw [recLen, hrec, getRecLen]
        split_ifs with h1 h2
        · rfl
        · simp at h2
        · rfl
      have hlast : rest = [] := by
        rcases rest with _ | ⟨d', rest⟩
        · rfl
        · obtain ⟨rfl, -, h8', -, hle'⟩ := hrest.2.2.2.head
          omega
      rw [hlast, liveEntries_cons, if_neg (not_not.mpr hinode), liveEntries]
      exact List.append_nil _

theorem BlockHas.unique (hfs : fs.Ok) {indexed : Bool} (h : BlockHas fs indexed b es)
    (h' : BlockHas fs indexed b es') : es = es' := by
  have hchain : ∀ {stop : ℕ} {ds ds' : List ℕ}, DirChain fs b stop 0 ds → DirChain fs b stop 0 ds' →
      ds' = ds := by
    intro stop ds ds' hc hc'
    obtain ⟨rest, rfl, hrest⟩ := hc.extends hc' le_rfl
    rcases rest with _ | ⟨d, rest⟩
    · exact List.append_nil _
    · obtain ⟨rfl, -, h8, -, hle⟩ := hrest.head
      omega
  obtain ⟨ds, rfl, hv | ⟨-, hx⟩⟩ := h
  · obtain ⟨ds', rfl, hv' | ⟨-, hx'⟩⟩ := h'
    · rw [hchain hv.chain hv'.chain]
    · exact (liveEntries_behind hfs hv hx'.chain).symm
  · obtain ⟨ds', rfl, hv' | ⟨-, hx'⟩⟩ := h'
    · exact liveEntries_behind hfs hv' hx.chain
    · rw [hchain hx.chain hx'.chain]

/-- A directory has its entries only. -/
theorem DirHas.unique (hfs : fs.Ok) {indexed : Bool} (h : DirHas fs indexed bs es)
    (h' : DirHas fs indexed bs es') : es = es' := by
  induction bs generalizing es es' with
  | nil =>
    obtain ⟨ess, hall, rfl⟩ := h
    obtain ⟨ess', hall', rfl⟩ := h'
    cases hall
    cases hall'
    rfl
  | cons b bs ih =>
    obtain ⟨es₁, es₂, hb, hbs, rfl⟩ := h.of_cons
    obtain ⟨es₁', es₂', hb', hbs', rfl⟩ := h'.of_cons
    rw [hb.unique hfs hb', ih hbs hbs']

/-- What unlinking removes: an entry of that name, and of that inode unless it is forced. -/
def Unlinks (name : List UInt8) (ino : ℕ) (force : Bool) (e : DirEntry) : Prop :=
  e.name = name ∧ if force = false ∧ ino ≠ 0 then e.inode = ino else e.inode ≠ 0

instance (ino : ℕ) (force : Bool) (e : DirEntry) : Decidable (Unlinks name ino force e) :=
  inferInstanceAs (Decidable (_ ∧ _))

/-- The entry that linking adds. -/
def Links (name : List UInt8) (ino : ℕ) (e : DirEntry) : Prop := e.name = name ∧ e.inode = ino

end Directories

end E2fsprogs
