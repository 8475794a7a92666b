import E2fsprogs.Lib.NullChain
import E2fsprogs.Quota.Blocks

/-!
# How a quota file is laid out

Every block has one role: it is free, an index block at a place of the tree, a data block, or,
during an operation, a block that has been taken and has no role yet. `E2fsprogs.Quota.Holds`
says that a file has the layout it should have. Two things may be amiss in the middle of an
operation: one reference may not be written yet (`stale`), and one entry may be counted and not
be written yet (`pending`).

A place of the tree is a depth and the leading bytes of the ids that lead there. What is at it is
in `tree`, zero for nothing; at depth four there are the data blocks.
-/

namespace E2fsprogs

namespace Quota

open NullChain

/-- What a block is for. -/
inductive Role
  | out
  | free
  | limbo
  | data
  | index (d p : ℕ)
  deriving DecidableEq

/-- A layout. -/
structure Layout where
  role : ℕ → Role
  tree : ℕ → ℕ → ℕ
  free : List ℕ
  avail : List ℕ
  stale : Option (ℕ × ℕ)
  pending : Option (ℕ × ℕ × ℕ)

/-- The number of entries of a data block that are not all zero. -/
def usedEntries (fmt : Fmt) (buf : Buf) : ℕ :=
  ((Finset.range fmt.dqstrInBlk).filter fun s => entryUnused (buf.entry fmt s) = false).card

/-- The roles fit with the size of the file, the tree and the free blocks. -/
structure Shape (dqiBlocks : ℕ) (L : Layout) : Prop where
  two_le : 2 ≤ dqiBlocks
  blocks_le : dqiBlocks ≤ 2 ^ 21
  out : ∀ b, L.role b = .out ↔ b = 0 ∨ dqiBlocks ≤ b
  index : ∀ b d p, L.role b = .index d p ↔ d ≤ 3 ∧ b ≠ 0 ∧ L.tree d p = b
  leaf : ∀ p, L.tree 4 p ≠ 0 → L.role (L.tree 4 p) = .data
  mem_free : ∀ b, b ∈ L.free ↔ L.role b = .free
  root : L.tree 0 0 = 1
  root_only : ∀ p ≠ 0, L.tree 0 p = 0

/-- The index blocks have the references of the tree. -/
def Refs (h : QuotaHandle) (tree : ℕ → ℕ → ℕ) (stale : Option (ℕ × ℕ)) : Prop :=
  ∀ d ≤ 3, ∀ p, ∀ i : Fin 256, stale ≠ some (d + 1, p * 256 + (i : ℕ)) →
    tree (d + 1) (p * 256 + i) = if tree d p = 0 then 0 else h.readBlk (tree d p) i

/-- The list of free blocks. -/
structure FreeList (h : QuotaHandle) (free : List ℕ) : Prop where
  chain : NullChain.Chain (fun b => (h.readBlk b).nextFree) h.dqiFreeBlk free
  nodup : free.Nodup

/-- The list of data blocks with free entries. -/
structure AvailList (h : QuotaHandle) (avail : List ℕ) : Prop where
  chain : DoubleChain (fun b => (h.readBlk b).nextFree) (fun b => (h.readBlk b).prevFree) 0
    h.dqiFreeEntry avail
  nodup : avail.Nodup

/-- An entry of a data block is in use for an id. -/
def EntryOf (h : QuotaHandle) (b s id : ℕ) : Prop :=
  s < h.fmt.dqstrInBlk ∧ entryUnused ((h.readBlk b).entry h.fmt s) = false ∧
    entryId ((h.readBlk b).entry h.fmt s) = id

/-- A data block has the entries of the ids that lead to it, and has counted them. -/
structure DataBlock (h : QuotaHandle) (leaf : ℕ → ℕ) (pending : Option (ℕ × ℕ × ℕ)) (b : ℕ) :
    Prop where
  referred : ∃ id, leaf id = b
  owned : ∀ s id, EntryOf h b s id → leaf id = b
  unique : ∀ s s' id, EntryOf h b s id → EntryOf h b s' id → s = s'
  present : ∀ id, leaf id = b → (∃ s, EntryOf h b s id) ∨ ∃ s, pending = some (b, s, id)
  entries : (h.readBlk b).entries = usedEntries h.fmt (h.readBlk b) +
    if pending.map Prod.fst = some b then 1 else 0

/-- **A quota file has a layout.** -/
structure Holds (h : QuotaHandle) (L : Layout) : Prop where
  shape : Shape h.dqiBlocks L
  refs : Refs h L.tree L.stale
  free : FreeList h L.free
  avail : AvailList h L.avail
  mem_avail : ∀ b, b ∈ L.avail ↔
    L.role b = .data ∧ (h.readBlk b).entries < h.fmt.dqstrInBlk
  data : ∀ b, L.role b = .data → DataBlock h (L.tree 4) L.pending b
  pending : ∀ b s id, L.pending = some (b, s, id) → L.role b = .data ∧ L.tree 4 id = b ∧
    s < h.fmt.dqstrInBlk ∧
    entryUnused ((h.readBlk b).entry h.fmt s) = true ∧ ∀ t, ¬ EntryOf h b t id

variable {h h' : QuotaHandle} {L L' : Layout} {buf buf' : Buf} {fmt : Fmt} {n : ℕ}
variable {b b' c d d' p q s t id : ℕ} {i : Fin 256}

/-! ### Roles -/

theorem Shape.lt (hs : Shape n L) (hb : L.role b ≠ .out) : b < 2 ^ 22 := by
  have hout := mt (hs.out b).mpr hb
  have hle := hs.blocks_le
  omega

theorem Shape.ne_zero (hs : Shape n L) (hb : L.role b ≠ .out) : b ≠ 0 :=
  fun h0 => hb ((hs.out b).mpr (Or.inl h0))

theorem Shape.lt_blocks (hs : Shape n L) (hb : L.role b ≠ .out) : b < n := by
  have hout := mt (hs.out b).mpr hb
  omega

theorem Shape.index_of_tree (hs : Shape n L) (hd : d ≤ 3) (hne : L.tree d p ≠ 0) :
    L.role (L.tree d p) = .index d p := (hs.index _ d p).mpr ⟨hd, hne, rfl⟩

theorem Holds.lt (H : Holds h L) (hb : L.role b ≠ .out) : b < 2 ^ 22 := H.shape.lt hb

/-! ### What matters to each part -/

/-- The references are in the index blocks only. -/
theorem Refs.congr (hr : Refs h L.tree L.stale)
    (heq : ∀ d ≤ 3, ∀ p, L.tree d p ≠ 0 → h'.readBlk (L.tree d p) = h.readBlk (L.tree d p)) :
    Refs h' L.tree L.stale := by
  intro d hd p i hst
  rw [hr d hd p i hst]
  split
  · rfl
  · next hne => rw [heq d hd p hne]

theorem FreeList.congr {free : List ℕ} (hf : FreeList h free) (hhd : h'.dqiFreeBlk = h.dqiFreeBlk)
    (heq : ∀ b ∈ free, (h'.readBlk b).nextFree = (h.readBlk b).nextFree) : FreeList h' free :=
  ⟨hhd ▸ hf.chain.congr heq, hf.nodup⟩

theorem AvailList.congr {avail : List ℕ} (ha : AvailList h avail)
    (hhd : h'.dqiFreeEntry = h.dqiFreeEntry)
    (heq : ∀ b ∈ avail, (h'.readBlk b).nextFree = (h.readBlk b).nextFree ∧
      (h'.readBlk b).prevFree = (h.readBlk b).prevFree) : AvailList h' avail :=
  ⟨hhd ▸ ha.chain.congr (fun b hb => (heq b hb).1) fun b hb => (heq b hb).2, ha.nodup⟩

/-- The file has the same entries in a block. -/
theorem EntryOf.congr (hfmt : h'.fmt = h.fmt) (heq : SameEntries (h.readBlk b) (h'.readBlk b)) :
    EntryOf h' b s id ↔ EntryOf h b s id := by
  rw [EntryOf, EntryOf, hfmt, heq.entry]

theorem usedEntries_congr (heq : SameEntries buf buf') :
    usedEntries fmt buf' = usedEntries fmt buf := by
  rw [usedEntries, usedEntries]
  congr 1
  ext s
  rw [Finset.mem_filter, Finset.mem_filter, heq.entry]

/-- A data block, where its header has the same count. -/
theorem DataBlock.congr {leaf : ℕ → ℕ} {pending : Option (ℕ × ℕ × ℕ)}
    (hd : DataBlock h leaf pending b) (hfmt : h'.fmt = h.fmt)
    (heq : SameEntries (h.readBlk b) (h'.readBlk b))
    (hentries : (h'.readBlk b).entries = (h.readBlk b).entries) : DataBlock h' leaf pending b where
  referred := hd.referred
  owned s id hs := hd.owned s id ((EntryOf.congr hfmt heq).mp hs)
  unique s s' id hs hs' :=
    hd.unique s s' id ((EntryOf.congr hfmt heq).mp hs) ((EntryOf.congr hfmt heq).mp hs')
  present id hid := (hd.present id hid).imp_left fun ⟨s, hs⟩ => ⟨s, (EntryOf.congr hfmt heq).mpr hs⟩
  entries := by rw [hentries, hd.entries, hfmt, usedEntries_congr heq]

/-- **A file that differs in blocks without a role only** has the same layout. -/
theorem Holds.congr (H : Holds h L) (hfmt : h'.fmt = h.fmt) (hblocks : h'.dqiBlocks = h.dqiBlocks)
    (hfree : h'.dqiFreeBlk = h.dqiFreeBlk) (hentry : h'.dqiFreeEntry = h.dqiFreeEntry)
    (heq : ∀ b, L.role b ≠ .out → L.role b ≠ .limbo → h'.readBlk b = h.readBlk b) :
    Holds h' L := by
  have hdata : ∀ b, L.role b = .data → h'.readBlk b = h.readBlk b := fun b hb =>
    heq b (hb ▸ by decide) (hb ▸ by decide)
  refine ⟨hblocks ▸ H.shape, H.refs.congr fun d hd p hne => ?_,
    H.free.congr hfree fun b hb => ?_, H.avail.congr hentry fun b hb => ?_, fun b => ?_,
    fun b hb => ?_, fun b s id hp => ?_⟩
  · have hrole := H.shape.index_of_tree hd hne
    rw [heq _ (by rw [hrole]; exact fun hc => by cases hc)
      (by rw [hrole]; exact fun hc => by cases hc)]
  · have hrole := (H.shape.mem_free b).mp hb
    rw [heq b (hrole ▸ by decide) (hrole ▸ by decide)]
  · rw [hdata b ((H.mem_avail b).mp hb).1]
    exact ⟨rfl, rfl⟩
  · rw [H.mem_avail b, hfmt]
    exact and_congr_right fun hb => by rw [hdata b hb]
  · exact (H.data b hb).congr hfmt (by rw [hdata b hb]; exact .refl) (by rw [hdata b hb])
  · obtain ⟨hb, hleaf, hs, hun, hno⟩ := H.pending b s id hp
    refine ⟨hb, hleaf, hfmt ▸ hs, by rw [hfmt, hdata b hb]; exact hun, fun t ht => hno t ?_⟩
    exact (EntryOf.congr hfmt (by rw [hdata b hb]; exact .refl)).mp ht

end Quota

end E2fsprogs
