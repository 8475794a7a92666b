import E2fsprogs.Dir.Iterate
import E2fsprogs.Journal.FastCommit

/-!
# Names in the replay of fast commits

The tags `CREAT`, `LINK` and `UNLINK` change directories, with `ext2fs_link` and
`ext2fs_unlink`. A directory has its entries in blocks, with an index or without, or in its
inode. `dx_link` refuses an index whose hash version it does not know (`E2fsprogs.dxLink`).
How it finds and splits a leaf of another index, and what is done to entries in an inode, is a
parameter (`E2fsprogs.NameOps`): where it succeeds, the name has been added
(`E2fsprogs.NameOps.Ok`).

Of a state of the file system only the names matter (`E2fsprogs.NameFs.Shows`): of which inode
there is an entry, in which directory, under which name.
-/

namespace E2fsprogs

/-- `EXT2_ET_NO_DIRECTORY` -/
def etNoDirectory : ℕ := 2133571402

/-- `EXT2_ET_DIRHASH_UNSUPP` -/
def etDirhashUnsupp : ℕ := 2133571417

/-- A directory as it is stored: in blocks, with the hash version of its index if it has one, or
in its inode. -/
inductive FcDir (I : Type)
  | blocks (index : Option ℕ) (bs : List Block)
  | inline (data : I)

/-- What is done to directories with an index, and to those in an inode. -/
structure NameOps (I : Type) where
  /-- `dx_link`, with a hash version that is known. -/
  dxInsert : ℕ → List UInt8 → ℕ → ℕ → List Block → ℕ × List Block
  /-- `ext2fs_unlink` of a name in an inode. -/
  inlineUnlink : List UInt8 → ℕ → Bool → I → ℕ × I
  /-- `ext2fs_link` of a name in an inode. -/
  inlineLink : List UInt8 → ℕ → ℕ → I → ℕ × I
  inlineEntries : I → List DirEntry

/-- The part of a file system that these tags have to do with: directories, and the modes of
inodes as they are read. -/
structure NameFs (I : Type) where
  dirs : ℕ → Option (FcDir I)
  modes : ℕ → Except ℕ ℕ

section Ops

variable {I : Type} (fs : DirFs) (ops : NameOps I)

/-- `dx_link`: `dx_lookup` knows `EXT2_HASH_LEGACY`, `EXT2_HASH_HALF_MD4` and
`EXT2_HASH_TEA`. -/
def dxLink (version : ℕ) (name : List UInt8) (ino flags : ℕ) (bs : List Block) : ℕ × List Block :=
  if version ≠ 2 ∧ version ≠ 1 ∧ version ≠ 0 then (etDirhashUnsupp, bs)
  else ops.dxInsert version name ino flags bs

/-- `ext2fs_unlink`, on a directory. -/
def FcDir.unlink (name : List UInt8) (ino : ℕ) (force : Bool) : FcDir I → ℕ × FcDir I
  | blocks index bs =>
    let r := unlinkBlocks fs name ino force bs
    (r.1, .blocks index r.2)
  | inline data =>
    let r := ops.inlineUnlink name ino force data
    (r.1, .inline r.2)

/-- `ext2fs_link`, on a directory. -/
def FcDir.link (name : List UInt8) (ino flags : ℕ) : FcDir I → ℕ × FcDir I
  | blocks (some version) bs =>
    let r := dxLink ops version name ino flags bs
    (r.1, .blocks (some version) r.2)
  | blocks none bs =>
    let r := linkBlocks fs name ino flags bs
    (r.1, .blocks none r.2)
  | inline data =>
    let r := ops.inlineLink name ino flags data
    (r.1, .inline r.2)

/-- A directory is changed. -/
def NameFs.change (st : NameFs I) (dir : ℕ) (f : FcDir I → ℕ × FcDir I) : ℕ × NameFs I :=
  match st.dirs dir with
  | none => (etNoDirectory, st)
  | some d =>
    let r := f d
    (r.1, { st with dirs := Function.update st.dirs dir (some r.2) })

/-- The tags one after the other, as `ext4_fc_replay` hands them to their handlers: up to the
first error. -/
def replayTags {σ : Type} (ops : FcOps σ) : List FcTagAt → FcCtx σ → Option ℕ × FcCtx σ
  | [], c => (none, c)
  | t :: ts, c =>
    let r := fcDispatch ops t c
    if r.1 < 0 then (some r.1.natAbs, r.2) else replayTags ops ts r.2

end Ops

/-! ### Names -/

/-- The inode that a name in a directory stands for. -/
abbrev NameMap := ℕ → List UInt8 → Option ℕ

/-- A name stands for another inode, or for none. -/
def NameMap.set (m : NameMap) (dir : ℕ) (name : List UInt8) (ino : Option ℕ) : NameMap :=
  Function.update m dir (Function.update (m dir) name ino)

section Shows

variable {I : Type} {fs : DirFs} {ops : NameOps I} {name : List UInt8} {ino : ℕ}
  {es es' : List DirEntry}

/-- Entries of different names stand for the inodes that are given. -/
structure EntriesShow (es : List DirEntry) (m : List UInt8 → Option ℕ) : Prop where
  nodup : (es.map DirEntry.name).Nodup
  live : ∀ e ∈ es, e.inode ≠ 0
  shows : ∀ n i, m n = some i ↔ ∃ e ∈ es, e.name = n ∧ e.inode = i

theorem EntriesShow.perm {m : List UInt8 → Option ℕ} (h : EntriesShow es m) (hp : es'.Perm es) :
    EntriesShow es' m where
  nodup := (hp.map _).nodup_iff.mpr h.nodup
  live e he := h.live e (hp.mem_iff.mp he)
  shows n i := by
    rw [h.shows]
    simp only [hp.mem_iff]

/-- The name has no entry. -/
theorem EntriesShow.eq_none {m : List UInt8 → Option ℕ} (h : EntriesShow es m) :
    m name = none ↔ ∀ e ∈ es, e.name ≠ name := by
  constructor
  · intro hn e he hname
    have := (h.shows name e.inode).mpr ⟨e, he, hname, rfl⟩
    rw [hn] at this
    cases this
  · intro hno
    rcases hm : m name with _ | i
    · rfl
    · obtain ⟨e, he, hname, -⟩ := (h.shows name i).mp hm
      exact absurd hname (hno e he)

/-- **Entries after unlinking.** -/
theorem EntriesShow.unlink {m : List UInt8 → Option ℕ} (h : EntriesShow es m) {force : Bool}
    (hex : ∃ e ∈ es, Unlinks name ino force e) :
    EntriesShow (es.eraseP fun e => Unlinks name ino force e) (Function.update m name none) := by
  obtain ⟨e₀, he₀, hm₀⟩ := hex
  obtain ⟨e, l, l', hno, hmatch, hes, herase⟩ :=
    List.exists_of_eraseP (p := fun e => decide (Unlinks name ino force e)) he₀ (by simpa using hm₀)
  rw [herase]
  rw [hes] at h
  have hmatch : Unlinks name ino force e := by simpa using hmatch
  have hnodup := h.nodup
  rw [List.map_append, List.map_cons, List.nodup_middle, List.nodup_cons] at hnodup
  have hother : ∀ x ∈ l ++ l', x.name ≠ name := by
    intro x hx hname
    refine hnodup.1 ?_
    rw [← List.map_append, hmatch.1, ← hname]
    exact List.mem_map_of_mem hx
  refine ⟨by rw [List.map_append]; exact hnodup.2, fun x hx => h.live x ?_, fun n i => ?_⟩
  · rw [List.mem_append] at hx ⊢
    exact hx.imp_right (List.mem_cons_of_mem _)
  · rw [Function.update_apply]
    split
    · next hn =>
      refine ⟨fun hc => (nomatch hc), ?_⟩
      rintro ⟨x, hx, hname, -⟩
      exact absurd (hname.trans hn) (hother x hx)
    · next hn =>
      rw [h.shows]
      constructor
      · rintro ⟨x, hx, hname, hi⟩
        refine ⟨x, ?_, hname, hi⟩
        rw [List.mem_append, List.mem_cons] at hx
        rcases hx with hx | rfl | hx
        · exact List.mem_append_left _ hx
        · exact absurd (hname.symm.trans hmatch.1) hn
        · exact List.mem_append_right _ hx
      · rintro ⟨x, hx, hname, hi⟩
        refine ⟨x, ?_, hname, hi⟩
        rw [List.mem_append] at hx ⊢
        exact hx.imp_right (List.mem_cons_of_mem _)

/-- **Entries after linking.** -/
theorem EntriesShow.link {m : List UInt8 → Option ℕ} (h : EntriesShow es m) (hno : m name = none)
    (hino : ino ≠ 0) {e : DirEntry} (he : Links name ino e) :
    EntriesShow (e :: es) (Function.update m name (some ino)) := by
  have hother := h.eq_none.mp hno
  refine ⟨?_, fun x hx => ?_, fun n i => ?_⟩
  · rw [List.map_cons, List.nodup_cons]
    refine ⟨fun hmem => ?_, h.nodup⟩
    obtain ⟨x, hx, hname⟩ := List.mem_map.mp hmem
    exact hother x hx (hname.trans he.1)
  · rcases List.mem_cons.mp hx with rfl | hx
    · rw [he.2]
      exact hino
    · exact h.live x hx
  · rw [Function.update_apply]
    split
    · next hn =>
      subst hn
      constructor
      · intro hi
        exact ⟨e, List.mem_cons_self .., he.1, he.2.trans (Option.some.inj hi)⟩
      · rintro ⟨x, hx, hname, rfl⟩
        rcases List.mem_cons.mp hx with rfl | hx
        · rw [he.2]
        · exact absurd hname (hother x hx)
    · next hn =>
      rw [h.shows]
      constructor
      · rintro ⟨x, hx, hr⟩
        exact ⟨x, List.mem_cons_of_mem _ hx, hr⟩
      · rintro ⟨x, hx, hname, hi⟩
        rcases List.mem_cons.mp hx with rfl | hx
        · exact absurd (hname.symm.trans he.1) hn
        · exact ⟨x, hx, hname, hi⟩

end Shows

/-! ### Directories and their names -/

section Directories

variable {I : Type} {fs : DirFs} {ops : NameOps I} {name : List UInt8} {ino : ℕ}

/-- The entries of a directory. -/
def FcDir.Has (fs : DirFs) (ops : NameOps I) : FcDir I → List DirEntry → Prop
  | blocks index bs, es => DirHas fs index.isSome bs es
  | inline data, es => ops.inlineEntries data = es

/-- The directory has an index with a hash version that is not known. -/
def FcDir.refuses : FcDir I → Bool
  | blocks (some version) _ => version ≠ 2 ∧ version ≠ 1 ∧ version ≠ 0
  | blocks none _ => false
  | inline _ => false

/-- A name as a file has it. -/
structure RealName (name : List UInt8) : Prop where
  pos : 1 ≤ name.length
  le : name.length ≤ 255
  string : 0 ∉ name
  notDots : name ∉ dotNames

/-- What linking a name that is not there leads to: one entry more, in whatever order, or some
error, but not that of an index. -/
def LinksIn {D : Type} (has : D → List DirEntry → Prop) (name : List UInt8) (ino : ℕ)
    (es : List DirEntry) (r : ℕ × D) : Prop :=
  r.1 ≠ etDirhashUnsupp ∧
    (r.1 = 0 → ∃ e es', Links name ino e ∧ es'.Perm (e :: es) ∧ has r.2 es')

/-- What unlinking a name leads to: without the entry, or there was none. -/
def UnlinksIn {D : Type} (has : D → List DirEntry → Prop) (name : List UInt8) (ino : ℕ)
    (force : Bool) (es : List DirEntry) (r : ℕ × D) : Prop :=
  r.1 = (if ∃ e ∈ es, Unlinks name ino force e then 0 else etDirNoSpace) ∧
    has r.2 (es.eraseP fun e => Unlinks name ino force e)

/-- **What is known of directories with an index, and in inodes**: names are linked and
unlinked. -/
structure NameOps.Ok (fs : DirFs) (ops : NameOps I) : Prop where
  dxInsert : ∀ version name ino flags bs es, version ≤ 2 → RealName name → 1 ≤ ino →
    ino < 2 ^ 32 → DirHas fs true bs es → (∀ e ∈ es, e.name ≠ name) →
    LinksIn (DirHas fs true) name ino es (ops.dxInsert version name ino flags bs)
  inlineUnlink : ∀ name ino force data, RealName name →
    UnlinksIn (fun data es => ops.inlineEntries data = es) name ino force (ops.inlineEntries data)
      (ops.inlineUnlink name ino force data)
  inlineLink : ∀ name ino flags data, RealName name → 1 ≤ ino → ino < 2 ^ 32 →
    (∀ e ∈ ops.inlineEntries data, e.name ≠ name) →
    LinksIn (fun data es => ops.inlineEntries data = es) name ino (ops.inlineEntries data)
      (ops.inlineLink name ino flags data)

/-- **The names in a file system.** -/
structure NameFs.Shows (fs : DirFs) (ops : NameOps I) (st : NameFs I) (m : NameMap) : Prop where
  dirs : ∀ p d, st.dirs p = some d → ∃ es, d.Has fs ops es ∧ EntriesShow es (m p)
  none : ∀ p, st.dirs p = none → ∀ n, m p n = none

theorem FcDir.Has.unique (hfs : fs.Ok) {d : FcDir I} {es es' : List DirEntry} (h : d.Has fs ops es)
    (h' : d.Has fs ops es') : es = es' := by
  cases d with
  | blocks index bs => exact DirHas.unique hfs h h'
  | inline data => exact h.symm.trans h'

/-- A file system has its names only. -/
theorem NameFs.Shows.unique (hfs : fs.Ok) {st : NameFs I} {m m' : NameMap} (h : st.Shows fs ops m)
    (h' : st.Shows fs ops m') : m = m' := by
  funext p n
  rcases hd : st.dirs p with _ | d
  · rw [h.none p hd, h'.none p hd]
  · obtain ⟨es, hes, hm⟩ := h.dirs p d hd
    obtain ⟨es', hes', hm'⟩ := h'.dirs p d hd
    obtain rfl := hes.unique hfs hes'
    exact Option.ext fun i => (hm.shows n i).trans (hm'.shows n i).symm

/-! ### The two functions -/

variable {st : NameFs I} {m : NameMap} {p : ℕ}

/-- One directory is changed. -/
theorem NameFs.Shows.update (hs : st.Shows fs ops m) {d : FcDir I} {es : List DirEntry}
    {mp : List UInt8 → Option ℕ} (hhas : d.Has fs ops es) (hm : EntriesShow es mp) :
    ({ st with dirs := Function.update st.dirs p (some d) } : NameFs I).Shows fs ops
      (Function.update m p mp) := by
  refine ⟨fun q d' hd' => ?_, fun q hq => ?_⟩
  · dsimp only at hd'
    by_cases hqp : q = p
    · subst hqp
      rw [Function.update_self] at hd' ⊢
      obtain rfl := Option.some.inj hd'
      exact ⟨es, hhas, hm⟩
    · rw [Function.update_of_ne hqp] at hd' ⊢
      exact hs.dirs q d' hd'
  · dsimp only at hq
    by_cases hqp : q = p
    · subst hqp
      rw [Function.update_self] at hq
      cases hq
    · rw [Function.update_of_ne hqp] at hq ⊢
      exact hs.none q hq

/-- A directory in which no name can be linked, for the hash version of its index. -/
def NameFs.refuses (st : NameFs I) (p : ℕ) : Bool := (st.dirs p).any FcDir.refuses

/-- What a change of names leaves: the modes, which directories there are, and the hash versions
of their indices. -/
structure NameFs.Alike (st st' : NameFs I) : Prop where
  modes : st'.modes = st.modes
  dirs : ∀ q, st'.dirs q = none ↔ st.dirs q = none
  refuses : st'.refuses = st.refuses

theorem NameFs.Alike.refl (st : NameFs I) : st.Alike st := ⟨rfl, fun _ => Iff.rfl, rfl⟩

theorem NameFs.Alike.trans {st st' st'' : NameFs I} (h : st.Alike st') (h' : st'.Alike st'') :
    st.Alike st'' :=
  ⟨h'.modes.trans h.modes, fun q => (h'.dirs q).trans (h.dirs q), h'.refuses.trans h.refuses⟩

end Directories

end E2fsprogs
