import E2fsprogs.Quota.Layout

/-!
# Taking and giving back blocks

A block that `E2fsprogs.Quota.getFreeDqblk` returns comes from the list of free blocks or from
behind the end of the file, and has no role then; `E2fsprogs.Quota.putFreeDqblk` puts such a block
into the list. Index blocks and data blocks are left alone.
-/

namespace E2fsprogs

namespace Quota

open NullChain

variable {h h' : QuotaHandle} {L L' : Layout} {buf buf' : Buf} {fmt : Fmt} {n n' : ℕ}
variable {b b' c d p q s t id : ℕ} {r : Role} {room : ℕ → Bool}

/-! ### One block gets another role -/

/-- **The role of one block changes**, and perhaps the size of the file, the tree and the free
blocks. -/
theorem Shape.update (hs : Shape n L) (hn : 2 ≤ n') (hn' : n' ≤ 2 ^ 21)
    (hout : ∀ c ≠ b, n' ≤ c ↔ n ≤ c) (hb0 : b ≠ 0) (hb : b < n') (hr : r ≠ .out)
    (hrole : L'.role = Function.update L.role b r)
    (hindex : ∀ d p, r = .index d p ↔ d ≤ 3 ∧ L'.tree d p = b)
    (htree : ∀ c, c ≠ b → c ≠ 0 → ∀ d p, d ≤ 3 → (L'.tree d p = c ↔ L.tree d p = c))
    (hleaf : ∀ p, L'.tree 4 p ≠ 0 → if L'.tree 4 p = b then r = .data else L.tree 4 p = L'.tree 4 p)
    (hfree : ∀ c, c ∈ L'.free ↔ if c = b then r = .free else c ∈ L.free)
    (hroot : L'.tree 0 = L.tree 0) : Shape n' L' where
  two_le := hn
  blocks_le := hn'
  out c := by
    rw [hrole]
    rcases eq_or_ne c b with rfl | hc
    · rw [Function.update_self]
      exact ⟨fun h => absurd h hr, fun h => by omega⟩
    · rw [Function.update_of_ne hc, hs.out, hout c hc]
  index c d p := by
    rw [hrole]
    rcases eq_or_ne c b with rfl | hc
    · rw [Function.update_self, hindex]
      exact and_congr_right fun _ => (and_iff_right hb0).symm
    · rw [Function.update_of_ne hc, hs.index]
      exact and_congr_right fun hd => and_congr_right fun hc0 => (htree c hc hc0 d p hd).symm
  leaf p hp := by
    have h := hleaf p hp
    rw [hrole]
    split at h
    · next heq => rw [heq, Function.update_self, h]
    · next hne => rw [Function.update_of_ne hne, ← h, hs.leaf p (h ▸ hp)]
  mem_free c := by
    rw [hfree, hrole]
    split
    · next heq => rw [heq, Function.update_self]
    · next hne => rw [Function.update_of_ne hne, hs.mem_free]
  root := by rw [hroot, hs.root]
  root_only p hp := by rw [hroot, hs.root_only p hp]

/-- **Only free blocks and those without a role have changed.** -/
theorem Holds.ofFree (H : Holds h L) (hshape : Shape h'.dqiBlocks L') (hfree : FreeList h' L'.free)
    (hfmt : h'.fmt = h.fmt) (hentry : h'.dqiFreeEntry = h.dqiFreeEntry)
    (htree : L'.tree = L.tree) (havail : L'.avail = L.avail) (hstale : L'.stale = L.stale)
    (hpending : L'.pending = L.pending)
    (hdata : ∀ c, L'.role c = .data ↔ L.role c = .data)
    (heq : ∀ c d p, L.role c = .data ∨ L.role c = .index d p → h'.readBlk c = h.readBlk c) :
    Holds h' L' := by
  have hd : ∀ c, L.role c = .data → h'.readBlk c = h.readBlk c := fun c hc => heq c 0 0 (Or.inl hc)
  have hself : ∀ c, L.role c = .data → SameEntries (h.readBlk c) (h'.readBlk c) := fun c hc => by
    rw [hd c hc]
    exact .refl
  refine ⟨hshape, ?_, hfree, ?_, fun c => ?_, fun c hc => ?_, fun c s id hp => ?_⟩
  · rw [htree, hstale]
    exact H.refs.congr fun d hd p hne => heq _ d p (Or.inr (H.shape.index_of_tree hd hne))
  · rw [havail]
    refine H.avail.congr hentry fun c hc => ?_
    rw [hd c ((H.mem_avail c).mp hc).1]
    exact ⟨rfl, rfl⟩
  · rw [havail, H.mem_avail, hdata, hfmt]
    exact and_congr_right fun hc => by rw [hd c hc]
  · rw [hdata] at hc
    rw [htree, hpending]
    exact (H.data c hc).congr hfmt (hself c hc) (by rw [hd c hc])
  · rw [hpending] at hp
    obtain ⟨hc, hleaf, hs, hun, hno⟩ := H.pending c s id hp
    rw [hdata, htree, hfmt, hd c hc]
    exact ⟨hc, hleaf, hs, hun, fun t ht => hno t ((EntryOf.congr hfmt (hself c hc)).mp ht)⟩

/-! ### Taking a block -/

/-- A layout without a block that has been taken. -/
structure Takes (L : Layout) (b : ℕ) (L' : Layout) : Prop where
  role : L'.role = Function.update L.role b .limbo
  was : L.role b = .free ∨ L.role b = .out
  ne_zero : b ≠ 0
  tree : L'.tree = L.tree
  avail : L'.avail = L.avail
  stale : L'.stale = L.stale
  pending : L'.pending = L.pending

theorem Takes.role_self (ht : Takes L b L') : L'.role b = .limbo := by
  rw [ht.role, Function.update_self]

theorem Takes.role_eq (ht : Takes L b L') (hf : L.role c ≠ .free) (ho : L.role c ≠ .out) :
    L'.role c = L.role c := by
  rw [ht.role, Function.update_of_ne]
  rintro rfl
  exact ht.was.elim hf ho

theorem Takes.data_iff (ht : Takes L b L') : L'.role c = .data ↔ L.role c = .data := by
  rw [ht.role]
  rcases eq_or_ne c b with rfl | hne
  · rw [Function.update_self]
    rcases ht.was with hw | hw <;> rw [hw] <;> decide
  · rw [Function.update_of_ne hne]

/-- What is not in the tree has no place there. -/
theorem Shape.tree_ne (hs : Shape n L) (hd : d ≤ 3) (hb0 : b ≠ 0)
    (hb : ∀ d p, L.role b ≠ .index d p) : L.tree d p ≠ b := by
  intro heq
  exact hb d p ((hs.index b d p).mpr ⟨hd, hb0, heq⟩)

theorem Shape.leaf_ne (hs : Shape n L) (hb0 : b ≠ 0) (hb : L.role b ≠ .data) : L.tree 4 p ≠ b := by
  rintro rfl
  exact hb (hs.leaf p hb0)

/-- A block that has no place in the tree loses its role, or gets it back as a free one. -/
theorem Shape.retype (hs : Shape n L) (hn : 2 ≤ n') (hn' : n' ≤ 2 ^ 21)
    (hout : ∀ c ≠ b, n' ≤ c ↔ n ≤ c) (hb0 : b ≠ 0) (hb : b < n')
    (hwas : L.role b = .free ∨ L.role b = .out ∨ L.role b = .limbo)
    (hr : r = .free ∨ r = .limbo)
    (hrole : L'.role = Function.update L.role b r) (htree : L'.tree = L.tree)
    (hfree : ∀ c, c ∈ L'.free ↔ if c = b then r = .free else c ∈ L.free) : Shape n' L' := by
  have hindex : ∀ d p, L.role b ≠ .index d p := fun d p heq => by
    rcases hwas with hw | hw | hw <;> rw [hw] at heq <;> cases heq
  have hdata : L.role b ≠ .data := fun heq => by
    rcases hwas with hw | hw | hw <;> rw [hw] at heq <;> cases heq
  refine hs.update hn hn' hout hb0 hb ?_ hrole (fun d p => ?_) (fun c _ _ d p _ => by rw [htree])
    (fun p hp => ?_) hfree (by rw [htree])
  · rcases hr with rfl | rfl <;> decide
  · rw [htree]
    constructor
    · rintro rfl
      rcases hr with hr | hr <;> cases hr
    · rintro ⟨hd, heq⟩
      exact absurd heq (hs.tree_ne hd hb0 hindex)
  · rw [htree, if_neg (hs.leaf_ne hb0 hdata)]

/-- **A block is taken**, or none where the file cannot grow. -/
theorem getFreeDqblk_spec (H : Holds h L) (hle : (getFreeDqblk room h).2.dqiBlocks ≤ 2 ^ 21) :
    (getFreeDqblk room h = (none, h) ∧ room h.dqiBlocks = false) ∨
      ∃ b L', getFreeDqblk room h = (some b, (getFreeDqblk room h).2) ∧
        Holds (getFreeDqblk room h).2 L' ∧ Takes L b L' ∧ (getFreeDqblk room h).2.fmt = h.fmt ∧
        ∀ c < 2 ^ 22, c ≠ b → (getFreeDqblk room h).2.readBlk c = h.readBlk c := by
  have hblocks := H.shape.blocks_le
  by_cases hfree : h.dqiFreeBlk ≠ 0
  · -- the first block of the list
    obtain ⟨l, hl, hchain⟩ := H.free.chain.pop hfree
    have hnd := hl ▸ H.free.nodup
    obtain ⟨hnot, hnd⟩ := List.nodup_cons.mp hnd
    have hrole : L.role h.dqiFreeBlk = .free :=
      (H.shape.mem_free _).mp (hl ▸ List.mem_cons_self)
    have hlt := H.shape.lt_blocks (hrole ▸ by decide : L.role h.dqiFreeBlk ≠ .out)
    have hget : getFreeDqblk room h =
        (some h.dqiFreeBlk, { h with dqiFreeBlk := (h.readBlk h.dqiFreeBlk).nextFree }) := by
      rw [getFreeDqblk, if_pos hfree, asInt, if_pos (by omega)]
    have ht : Takes L h.dqiFreeBlk
        { L with role := Function.update L.role h.dqiFreeBlk .limbo, free := l } :=
      ⟨rfl, Or.inl hrole, hfree, rfl, rfl, rfl, rfl⟩
    refine Or.inr ⟨h.dqiFreeBlk, _, by rw [hget], ?_, ht, by rw [hget],
      fun c _ _ => by rw [hget]; rfl⟩
    rw [hget]
    refine H.ofFree ?_ ⟨hchain, hnd⟩ rfl rfl rfl rfl rfl rfl (fun c => ht.data_iff) fun _ _ _ _ =>
      rfl
    refine H.shape.retype H.shape.two_le hblocks (fun _ _ => Iff.rfl) hfree hlt (Or.inl hrole)
      (Or.inr rfl) rfl rfl fun c => ?_
    rw [hl, List.mem_cons]
    split
    · next heq =>
      subst heq
      exact iff_of_false hnot (by decide)
    · next hne => exact (or_iff_right hne).symm
  · by_cases hroom : room h.dqiBlocks = true
    · -- the block behind the last one
      have hget : getFreeDqblk room h = (some h.dqiBlocks,
          { h.writeBlk h.dqiBlocks zeroBuf with dqiBlocks := h.dqiBlocks + 1 }) := by
        rw [getFreeDqblk, if_neg hfree, if_pos hroom, asInt, if_pos (by omega),
          Nat.mod_eq_of_lt (by omega)]
      rw [hget] at hle ⊢
      dsimp only at hle
      have htwo := H.shape.two_le
      have hrole : L.role h.dqiBlocks = .out := (H.shape.out _).mpr (Or.inr le_rfl)
      have ht : Takes L h.dqiBlocks { L with role := Function.update L.role h.dqiBlocks .limbo } :=
        ⟨rfl, Or.inr hrole, by omega, rfl, rfl, rfl, rfl⟩
      have hread : ∀ c < 2 ^ 22, c ≠ h.dqiBlocks →
          QuotaHandle.readBlk { h.writeBlk h.dqiBlocks zeroBuf with dqiBlocks := h.dqiBlocks + 1 }
            c =
            h.readBlk c := fun c hc hne => by
        have hw := @readBlk_write h zeroBuf h.dqiBlocks c (by omega) hc
        rwa [if_neg hne] at hw
      have hkeep : ∀ c, L.role c ≠ .out →
          QuotaHandle.readBlk { h.writeBlk h.dqiBlocks zeroBuf with dqiBlocks := h.dqiBlocks + 1 }
            c =
            h.readBlk c := fun c hc =>
        hread c (H.lt hc) fun heq => hc (heq ▸ hrole)
      refine Or.inr ⟨h.dqiBlocks, _, rfl, ?_, ht, rfl, hread⟩
      refine H.ofFree ?_ ?_ rfl rfl rfl rfl rfl rfl (fun c => ht.data_iff) fun c d p hc => ?_
      · refine H.shape.retype (show 2 ≤ h.dqiBlocks + 1 by omega) hle (fun c hc => ?_) (by omega)
          (Nat.lt_succ_self _)
          (Or.inr (Or.inl hrole)) (Or.inr rfl) rfl rfl fun c => ?_
        · change h.dqiBlocks + 1 ≤ c ↔ _
          omega
        · split
          · next heq =>
            rw [heq, H.shape.mem_free, hrole]
            decide
          · exact Iff.rfl
      · refine H.free.congr rfl fun c hc => ?_
        have hc := (H.shape.mem_free c).mp hc
        rw [hkeep c (hc ▸ by decide)]
      · refine hkeep c ?_
        rcases hc with hc | hc <;> rw [hc] <;> exact fun heq => by cases heq
    · refine Or.inl ⟨?_, by simpa using hroom⟩
      rw [getFreeDqblk, if_neg hfree, if_neg hroom]

/-! ### Giving a block back -/

/-- A layout with a block that has been put into the list of free ones. -/
def Layout.withFree (L : Layout) (b : ℕ) : Layout :=
  { L with role := Function.update L.role b .free, free := b :: L.free }

theorem putFreeDqblk_fmt : (putFreeDqblk h buf b).fmt = h.fmt := rfl

theorem readBlk_putFreeDqblk (hb : b < 2 ^ 22) (hc : c < 2 ^ 22) :
    (putFreeDqblk h buf b).readBlk c =
      if c = b then ((buf.setNextFree h.dqiFreeBlk).setPrevFree 0).setEntries 0 else h.readBlk c :=
  readBlk_write hb hc

/-- **A block is given back.** -/
theorem putFreeDqblk_spec (H : Holds h L) (hb : L.role b = .limbo) :
    Holds (putFreeDqblk h buf b) (L.withFree b) := by
  have hbout : L.role b ≠ .out := hb ▸ by decide
  have hblt := H.lt hbout
  have hkeep : ∀ c, L.role c ≠ .out → c ≠ b → (putFreeDqblk h buf b).readBlk c = h.readBlk c :=
    fun c hc hne => by rw [readBlk_putFreeDqblk hblt (H.lt hc), if_neg hne]
  have hnot : b ∉ L.free := by
    rw [H.shape.mem_free, hb]
    decide
  refine H.ofFree ?_ ⟨?_, List.nodup_cons.mpr ⟨hnot, H.free.nodup⟩⟩ rfl rfl rfl rfl rfl rfl
    (fun c => ?_) fun c d p hc => ?_
  · refine H.shape.retype H.shape.two_le H.shape.blocks_le (fun _ _ => Iff.rfl)
      (H.shape.ne_zero hbout) (H.shape.lt_blocks hbout) (Or.inr (Or.inr hb)) (Or.inl rfl) rfl rfl
      fun c => ?_
    rw [Layout.withFree, List.mem_cons]
    split
    · next heq => exact iff_of_true (Or.inl heq) rfl
    · next hne => exact or_iff_right hne
  · refine H.free.chain.push (H.shape.ne_zero hbout) ?_ fun c hc => ?_
    · change ((putFreeDqblk h buf b).readBlk b).nextFree = _
      rw [readBlk_putFreeDqblk hblt hblt, if_pos rfl]
      simp
    · have hrole := (H.shape.mem_free c).mp hc
      rw [hkeep c (hrole ▸ by decide) fun heq => hnot (heq ▸ hc)]
  · change Function.update L.role b .free c = .data ↔ _
    rcases eq_or_ne c b with rfl | hne
    · rw [Function.update_self, hb]
      decide
    · rw [Function.update_of_ne hne]
  · refine hkeep c ?_ ?_
    · rcases hc with hc | hc <;> rw [hc] <;> exact fun heq => by cases heq
    · rintro rfl
      rw [hb] at hc
      rcases hc with hc | hc <;> cases hc

end Quota

end E2fsprogs
