import E2fsprogs.Quota.DeleteTree
import E2fsprogs.Quota.Write

/-!
# Finding a record

A lookup follows the references of an id to its data block, and there it goes through the entries
(`E2fsprogs.Quota.findTreeDqentry_spec`). What a file looks like from outside is said with the
references alone (`E2fsprogs.Quota.WellFormed`): it follows from a layout with nothing amiss.
-/

namespace E2fsprogs

namespace Quota

open NullChain

variable {h h' : QuotaHandle} {L L' : Layout} {b c d p s t : ℕ}

/-! ### Following references -/

/-- The blocks that references lead to from the root on, with their depth. -/
inductive AtDepth (h : QuotaHandle) : ℕ → ℕ → Prop
  | root : AtDepth h 0 qtTreeoff
  | child {d b : ℕ} (i : Fin 256) (hb : AtDepth h d b) (hd : d ≤ 3) (hne : h.readBlk b i ≠ 0) :
      AtDepth h (d + 1) (h.readBlk b i)

/-- An index block or a data block. -/
def InTree (h : QuotaHandle) (b : ℕ) : Prop := ∃ d, AtDepth h d b

/-- **The blocks of a quota file have their places**: each but the first two is either in the tree
or free, the list of blocks with free entries has exactly the data blocks that have some, and the
counts of entries are right. -/
structure WellFormed (h : QuotaHandle) : Prop where
  free : ∃ l, FreeList h l ∧ ∀ b, 2 ≤ b → b < h.dqiBlocks → Xor (InTree h b) (b ∈ l)
  avail : ∃ l, AvailList h l ∧ ∀ b, b ∈ l ↔ AtDepth h 4 b ∧ 1 ≤ usedEntries h.fmt (h.readBlk b) ∧
    usedEntries h.fmt (h.readBlk b) < h.fmt.dqstrInBlk
  entries : ∀ b, AtDepth h 4 b → (h.readBlk b).entries = usedEntries h.fmt (h.readBlk b)

/-- A layout of a file between two operations. -/
structure Settled (h : QuotaHandle) (L : Layout) : Prop extends Holds h L where
  none_stale : L.stale = none
  none_pending : L.pending = none

theorem Settled.of_tree (H : Settled h L) :
    ∀ {d p : ℕ}, d ≤ 4 → L.tree d p ≠ 0 → AtDepth h d (L.tree d p) := by
  intro d
  induction d with
  | zero =>
    intro p _ hne
    have hp : p = 0 := by
      by_contra hp
      exact hne (H.shape.root_only p hp)
    rw [hp, H.shape.root]
    exact .root
  | succ d ih =>
    intro p hd hne
    -- the last byte of the place is the index of the reference
    obtain ⟨q, i, rfl⟩ : ∃ q, ∃ i : Fin 256, p = q * 256 + (i : ℕ) :=
      ⟨p / 256, ⟨p % 256, Nat.mod_lt _ (by norm_num)⟩, (Nat.div_add_mod' p 256).symm⟩
    have hq : L.tree d q ≠ 0 := fun hz => hne (H.child_zero H.none_stale (by omega) hz i)
    have href := H.ref_eq H.none_stale (by omega : d ≤ 3) hq i
    rw [← href] at hne ⊢
    exact .child i (ih (by omega) hq) (by omega) hne

theorem Settled.exists_tree (H : Settled h L) (hb : AtDepth h d b) :
    d ≤ 4 ∧ b ≠ 0 ∧ ∃ p, L.tree d p = b := by
  induction hb with
  | root => exact ⟨by norm_num, by norm_num, 0, H.shape.root⟩
  | child i _ hd hne ih =>
    obtain ⟨-, hb0, p, hp⟩ := ih
    refine ⟨by omega, hne, p * 256 + (i : ℕ), ?_⟩
    rw [← H.ref_eq H.none_stale hd (hp ▸ hb0) i, hp]

theorem Settled.atDepth_four_iff (H : Settled h L) : AtDepth h 4 b ↔ L.role b = .data := by
  constructor
  · intro hb
    obtain ⟨-, hb0, p, rfl⟩ := H.exists_tree hb
    exact H.shape.leaf p hb0
  · intro hb
    obtain ⟨id, rfl⟩ := (H.data b hb).referred
    exact H.of_tree le_rfl (H.shape.ne_zero (by rw [hb]; decide))

theorem Settled.inTree_iff (H : Settled h L) :
    InTree h b ↔ L.role b = .data ∨ ∃ d p, L.role b = .index d p := by
  constructor
  · rintro ⟨d, hb⟩
    obtain ⟨hd, hb0, p, rfl⟩ := H.exists_tree hb
    rcases Nat.lt_or_ge d 4 with hlt | hge
    · exact Or.inr ⟨d, p, H.shape.index_of_tree (by omega) hb0⟩
    · obtain rfl : d = 4 := by omega
      exact Or.inl (H.shape.leaf p hb0)
  · rintro (hb | ⟨d, p, hb⟩)
    · exact ⟨4, H.atDepth_four_iff.mpr hb⟩
    · obtain ⟨hd, hb0, rfl⟩ := (H.shape.index b d p).mp hb
      exact ⟨d, H.of_tree (by omega) hb0⟩

theorem Settled.entries_eq (H : Settled h L) (hb : L.role b = .data) :
    (h.readBlk b).entries = usedEntries h.fmt (h.readBlk b) := by
  have hentries := (H.data b hb).entries
  rw [H.none_pending] at hentries
  exact hentries

/-- Every data block has an entry. -/
theorem Settled.usedEntries_pos (H : Settled h L) (hb : L.role b = .data) :
    1 ≤ usedEntries h.fmt (h.readBlk b) := by
  obtain ⟨id, hid⟩ := (H.data b hb).referred
  rcases (H.data b hb).present id hid with ⟨s, hs⟩ | ⟨s, hs⟩
  · exact Quota.usedEntries_pos hs.1 hs.2.1
  · rw [H.none_pending] at hs
    cases hs

/-- **A layout with nothing amiss** puts every block in its place, where no block is in limbo. -/
theorem Settled.wellFormed (H : Settled h L) (hlimbo : ∀ b, L.role b ≠ .limbo) : WellFormed h where
  free := by
    refine ⟨L.free, H.free, fun b h2 hb => ?_⟩
    have hout : L.role b ≠ .out := fun hc => by
      have := (H.shape.out b).mp hc
      omega
    rw [H.inTree_iff, H.shape.mem_free]
    cases hr : L.role b with
    | out => exact absurd hr hout
    | limbo => exact absurd hr (hlimbo b)
    | free => exact Or.inr ⟨rfl, by rintro (hc | ⟨d, p, hc⟩) <;> cases hc⟩
    | data => exact Or.inl ⟨Or.inl rfl, by rintro ⟨⟩⟩
    | index d p => exact Or.inl ⟨Or.inr ⟨d, p, rfl⟩, by rintro ⟨⟩⟩
  avail := by
    refine ⟨L.avail, H.avail, fun b => ?_⟩
    rw [H.mem_avail, H.atDepth_four_iff]
    refine and_congr_right fun hb => ?_
    rw [H.entries_eq hb]
    exact (and_iff_right (H.usedEntries_pos hb)).symm
  entries b hb := H.entries_eq (H.atDepth_four_iff.mp hb)

/-! ### The lookup of an id -/

section Lookup

variable {id : UInt32}

/-- **The entry of an id is found**, and none where there is none. -/
theorem findTreeDqentry_spec (H : Settled h L) (n : ℕ) {d : ℕ} (hdn : d + n = 3)
    (hne : L.tree d (pathOf id (n + 1)) ≠ 0) :
    findTreeDqentry h id n (L.tree d (pathOf id (n + 1))) =
      if L.tree 4 id.toNat = 0 then 0 else findBlockDqentry h id (L.tree 4 id.toNat) := by
  induction n generalizing d with
  | zero =>
    obtain rfl : d = 3 := by omega
    have href := H.ref_eq H.none_stale le_rfl hne (getIndex id 0)
    rw [← pathOf_succ 0, pathOf_zero] at href
    rw [findTreeDqentry, href]
  | succ n ih =>
    have href := H.ref_eq H.none_stale (by omega) hne (getIndex id (n + 1))
    rw [← pathOf_succ (n + 1)] at href
    rw [findTreeDqentry, href]
    by_cases hz : L.tree (d + 1) (pathOf id (n + 1)) = 0
    · rw [if_pos hz, if_pos]
      by_contra hid
      exact H.path_ne_zero H.none_stale hid n (by omega) hz
    · rw [if_neg hz]
      exact ih (by omega) hz

theorem findBlockDqentry_spec (H : Settled h L) (hs : EntryOf h (L.tree 4 id.toNat) s id.toNat)
    (hne : L.tree 4 id.toNat ≠ 0) :
    findBlockDqentry h id (L.tree 4 id.toNat) = entryOff h.fmt (L.tree 4 id.toNat) s := by
  have hrole := H.shape.leaf _ hne
  have hbout : L.role (L.tree 4 id.toNat) ≠ .out := by
    rw [hrole]
    decide
  have hisId : ∀ t, isId ((h.readBlk (L.tree 4 id.toNat)).entry h.fmt t) id = true ↔
      entryUnused ((h.readBlk (L.tree 4 id.toNat)).entry h.fmt t) = false ∧
        entryId ((h.readBlk (L.tree 4 id.toNat)).entry h.fmt t) = id.toNat := by
    intro t
    rw [isId, Bool.and_eq_true, Bool.not_eq_true', decide_eq_true_eq]
  obtain ⟨hlt, hfound⟩ :=
    @firstEntry_spec _ h.fmt (fun disk => isId disk id) ⟨s, hs.1, (hisId s).mpr hs.2⟩
  have heq := (H.data _ hrole).unique _ s _ ⟨hlt, (hisId _).mp hfound⟩ hs
  rw [findBlockDqentry, heq]
  exact blockDqentryOff_eq (lt_of_lt_of_le (H.shape.lt_blocks hbout) H.shape.blocks_le) hs.1

theorem findTreeDqentry_root (H : Settled h L) : findTreeDqentry h id 3 qtTreeoff =
    if L.tree 4 id.toNat = 0 then 0 else findBlockDqentry h id (L.tree 4 id.toNat) := by
  have hroot : L.tree 0 (pathOf id (3 + 1)) = 1 := by
    rw [pathOf_four, H.shape.root]
  have hspec := @findTreeDqentry_spec h L id H 3 0 rfl (by rw [hroot]; decide)
  rwa [hroot] at hspec

/-- **Reading a record** that is there. -/
theorem qtreeReadDquot_of_entry (H : Settled h L) (hs : EntryOf h (L.tree 4 id.toNat) s id.toNat)
    (hne : L.tree 4 id.toNat ≠ 0) :
    qtreeReadDquot h id = ⟨id, h.fmt.disk2mem ((h.readBlk (L.tree 4 id.toNat)).entry h.fmt s),
      entryOff h.fmt (L.tree 4 id.toNat) s⟩ := by
  have hbout : L.role (L.tree 4 id.toNat) ≠ .out := by
    rw [H.shape.leaf _ hne]
    decide
  have hoff : findTreeDqentry h id 3 qtTreeoff = entryOff h.fmt (L.tree 4 id.toNat) s := by
    rw [findTreeDqentry_root H, if_neg hne, findBlockDqentry_spec H hs hne]
  have hpos : 0 < entryOff h.fmt (L.tree 4 id.toNat) s := by
    rw [entryOff]
    omega
  have hread : readEntry h.file h.fmt (entryOff h.fmt (L.tree 4 id.toNat) s) =
      (h.readBlk (L.tree 4 id.toNat)).entry h.fmt s := readEntry_entryOff (H.lt hbout) hs.1
  rw [qtreeReadDquot, hoff]
  dsimp only
  rw [if_pos hpos, hread, hs.2.2, UInt32.ofNat_toNat]

/-- Reading a record that is not there. -/
theorem qtreeReadDquot_of_none (H : Settled h L) (hz : L.tree 4 id.toNat = 0) :
    qtreeReadDquot h id = ⟨id, .empty, 0⟩ := by
  rw [qtreeReadDquot, findTreeDqentry_root H, if_pos hz]
  exact if_neg (lt_irrefl 0)

end Lookup

end Quota

end E2fsprogs
