import E2fsprogs.Quota.Avail

/-!
# References of index blocks

A reference is the last thing that an insertion or a removal writes at each level: until then the
tree has something at a place that its parent does not know of (`stale`). Writing the reference
moves the stale place up by one level where the index block is itself a new one, or has been
given back, and otherwise ends there.
-/

namespace E2fsprogs

namespace Quota

variable {h h' : QuotaHandle} {L : Layout} {buf : Buf} {tree : ℕ → ℕ → ℕ}
variable {b c d d' p p' : ℕ} {i : Fin 256}

/-- A tree with another block at one place. -/
def setTree (tree : ℕ → ℕ → ℕ) (d p b : ℕ) : ℕ → ℕ → ℕ := fun d' p' =>
  if d' = d ∧ p' = p then b else tree d' p'

@[simp] theorem setTree_self : setTree tree d p b d p = b := if_pos ⟨rfl, rfl⟩

theorem setTree_of_ne (hne : ¬ (d' = d ∧ p' = p)) : setTree tree d p b d' p' = tree d' p' :=
  if_neg hne

theorem setTree_of_depth_ne (hne : d' ≠ d) : setTree tree d p b d' = tree d' :=
  funext fun _ => if_neg fun heq => hne heq.1

/-- A layout with another role for one block and another block at one place, whose reference is
not written yet. -/
def Layout.place (L : Layout) (b : ℕ) (r : Role) (d p x : ℕ) : Layout :=
  { L with
    role := Function.update L.role b r
    tree := setTree L.tree d p x
    stale := some (d, p) }

section Place

variable {r : Role} {x : ℕ}

@[simp] theorem place_role : (L.place b r d p x).role = Function.update L.role b r := rfl

@[simp] theorem place_tree : (L.place b r d p x).tree = setTree L.tree d p x := rfl

@[simp] theorem place_stale : (L.place b r d p x).stale = some (d, p) := rfl

@[simp] theorem place_free : (L.place b r d p x).free = L.free := rfl

@[simp] theorem place_avail : (L.place b r d p x).avail = L.avail := rfl

@[simp] theorem place_pending : (L.place b r d p x).pending = L.pending := rfl

end Place

theorem Role.index_ne_limbo : Role.index d p ≠ .limbo := fun heq => by cases heq

theorem Role.index_ne_out : Role.index d p ≠ .out := fun heq => by cases heq

theorem Role.index_ne_data : Role.index d p ≠ .data := fun heq => by cases heq

/-- The places below two places are different. -/
theorem child_inj {j : Fin 256} (heq : p * 256 + (i : ℕ) = p' * 256 + (j : ℕ)) :
    p = p' ∧ i = j := by
  have hi := i.isLt
  have hj := j.isLt
  exact ⟨by omega, Fin.ext (by omega)⟩

/-- A block that has no role is written: nothing changes. -/
theorem Holds.writeLimbo (H : Holds h L) (hb : L.role b = .limbo) :
    Holds (h.writeBlk b buf) L := by
  refine H.congr rfl rfl rfl rfl fun c hc hl => ?_
  rw [readBlk_write (H.lt (hb ▸ by decide)) (H.lt hc), if_neg]
  rintro rfl
  exact hl hb

/-- **A block without a role becomes an index block** that has one reference, to what is at the
stale place. -/
theorem Holds.adopt (H : Holds h L) (hb : L.role b = .limbo) (hd : d ≤ 3) (hd0 : d ≠ 0)
    (hnone : L.tree d p = 0) (hstale : L.stale = some (d + 1, p * 256 + (i : ℕ)))
    (hbuf : h.readBlk b = Function.update zeroBuf i (L.tree (d + 1) (p * 256 + (i : ℕ)))) :
    Holds h (L.place b (.index d p) d p b) := by
  have hbout : L.role b ≠ .out := hb ▸ by decide
  have hb0 := H.shape.ne_zero hbout
  have hnot : ∀ d' p', d' ≤ 3 → L.tree d' p' ≠ b := fun d' p' hd' =>
    H.shape.tree_ne hd' hb0 fun d p heq => by rw [hb] at heq; cases heq
  have hnotleaf : ∀ p', L.tree 4 p' ≠ b := fun p' =>
    H.shape.leaf_ne hb0 fun heq => by rw [hb] at heq; cases heq
  have hdata : ∀ c, Function.update L.role b (.index d p) c = .data ↔ L.role c = .data := by
    intro c
    rcases eq_or_ne c b with rfl | hne
    · rw [Function.update_self, hb]
      exact iff_of_false Role.index_ne_data (by decide)
    · rw [Function.update_of_ne hne]
  have hleaf : setTree L.tree d p b 4 = L.tree 4 := setTree_of_depth_ne (by omega)
  refine ⟨?_, ?_, H.free, H.avail, fun c => ?_, fun c hc => ?_, fun c s id hp => ?_⟩
  · refine H.shape.update H.shape.two_le H.shape.blocks_le (fun _ _ => Iff.rfl) hb0
      (H.shape.lt_blocks hbout) Role.index_ne_out rfl (fun d' p' => ?_) (fun c hc hc0 d' p' hd' =>
        ?_)
      (fun p' hp' => ?_) (fun c => ?_) (by rw [place_tree, setTree_of_depth_ne hd0.symm])
    · rw [place_tree]
      constructor
      · rintro ⟨⟩
        exact ⟨hd, setTree_self⟩
      · rintro ⟨hd', heq⟩
        by_cases hsame : d' = d ∧ p' = p
        · rw [hsame.1, hsame.2]
        · rw [setTree_of_ne hsame] at heq
          exact absurd heq (hnot d' p' hd')
    · rw [place_tree]
      by_cases hsame : d' = d ∧ p' = p
      · obtain ⟨rfl, rfl⟩ := hsame
        rw [setTree_self, hnone]
        exact ⟨fun heq => absurd heq.symm hc, fun heq => absurd heq.symm hc0⟩
      · rw [setTree_of_ne hsame]
    · rw [place_tree, hleaf, if_neg (hnotleaf p')]
    · split
      · next heq =>
        rw [heq, place_free, H.shape.mem_free, hb]
        exact iff_of_false (by decide) fun heq => by cases heq
      · exact Iff.rfl
  · intro d' hd' p' j hst
    rw [place_stale] at hst
    rw [place_tree]
    have hplace : ¬ (d' + 1 = d ∧ p' * 256 + (j : ℕ) = p) := fun hc => hst (by rw [hc.1, hc.2])
    rw [setTree_of_ne hplace]
    by_cases hsame : d' = d ∧ p' = p
    · -- the references of the new index block
      obtain ⟨rfl, rfl⟩ := hsame
      rw [setTree_self, if_neg hb0, hbuf]
      rcases eq_or_ne j i with rfl | hj
      · rw [Function.update_self]
      · rw [Function.update_of_ne hj, H.refs d' hd' p' j, if_pos hnone]
        · rfl
        · rw [hstale]
          intro heq
          simp only [Option.some.injEq, Prod.mk.injEq, true_and] at heq
          exact hj (child_inj heq).2.symm
    · rw [setTree_of_ne hsame]
      refine H.refs d' hd' p' j ?_
      rw [hstale]
      intro heq
      simp only [Option.some.injEq, Prod.mk.injEq, Nat.add_right_cancel_iff] at heq
      exact hsame ⟨heq.1.symm, (child_inj heq.2).1.symm⟩
  · rw [place_role, hdata]
    exact H.mem_avail c
  · rw [place_role, hdata] at hc
    rw [place_tree, place_pending, hleaf]
    exact H.data c hc
  · rw [place_role, hdata, place_tree, hleaf]
    exact H.pending c s id hp

/-- **The stale reference is written** into the index block that is there. -/
theorem Holds.writeRef (H : Holds h L) (hd : d ≤ 3) (hne : L.tree d p ≠ 0)
    (hstale : L.stale = some (d + 1, p * 256 + (i : ℕ))) :
    Holds (h.writeBlk (L.tree d p) (Function.update (h.readBlk (L.tree d p)) i
      (L.tree (d + 1) (p * 256 + (i : ℕ))))) { L with stale := none } := by
  have hrole := H.shape.index_of_tree hd hne
  have hlt := H.lt (hrole ▸ Role.index_ne_out)
  obtain ⟨h', hh'⟩ : ∃ h', h' = h.writeBlk (L.tree d p) (Function.update (h.readBlk (L.tree d p)) i
      (L.tree (d + 1) (p * 256 + (i : ℕ)))) := ⟨_, rfl⟩
  have hread : ∀ c, L.role c ≠ .out → L.role c ≠ .index d p → h'.readBlk c = h.readBlk c := by
    intro c hc hci
    rw [hh', readBlk_write hlt (H.lt hc), if_neg]
    rintro rfl
    exact hci hrole
  have hfmt : h'.fmt = h.fmt := by rw [hh', writeBlk_fmt]
  have hdata : ∀ c, L.role c = .data → h'.readBlk c = h.readBlk c := fun c hc =>
    hread c (hc ▸ by decide) (hc ▸ Role.index_ne_data.symm)
  have hself : ∀ c, L.role c = .data → SameEntries (h.readBlk c) (h'.readBlk c) := fun c hc => by
    rw [hdata c hc]
    exact .refl
  rw [← hh']
  have hblocks : h'.dqiBlocks = h.dqiBlocks := by rw [hh', writeBlk_dqiBlocks]
  have hS := H.shape
  refine ⟨hblocks ▸ ⟨hS.two_le, hS.blocks_le, hS.out, hS.index, hS.leaf, hS.mem_free, hS.root,
    hS.root_only⟩, ?_, ?_, ?_, fun c => ?_, fun c hc => ?_, fun c s id hp => ?_⟩
  · intro d' hd' p' j _
    -- the block written has its one reference changed, other index blocks are not touched
    by_cases hsame : d' = d ∧ p' = p
    · obtain ⟨rfl, rfl⟩ := hsame
      rw [if_neg hne, hh', readBlk_write hlt hlt, if_pos rfl]
      rcases eq_or_ne j i with rfl | hj
      · rw [Function.update_self]
      · rw [Function.update_of_ne hj, H.refs d' hd' p' j, if_neg hne]
        rw [hstale]
        intro heq
        simp only [Option.some.injEq, Prod.mk.injEq, true_and] at heq
        exact hj (child_inj heq).2.symm
    · rw [H.refs d' hd' p' j]
      · split
        · rfl
        · next hne' =>
          have hrole' := H.shape.index_of_tree hd' hne'
          rw [hread _ (hrole' ▸ Role.index_ne_out)]
          rw [hrole']
          rintro ⟨⟩
          exact hsame ⟨rfl, rfl⟩
      · rw [hstale]
        intro heq
        simp only [Option.some.injEq, Prod.mk.injEq, Nat.add_right_cancel_iff] at heq
        exact hsame ⟨heq.1.symm, (child_inj heq.2).1.symm⟩
  · refine H.free.congr (by rw [hh', writeBlk_dqiFreeBlk]) fun c hc => ?_
    have hc := (H.shape.mem_free c).mp hc
    rw [hread c (hc ▸ by decide) (hc ▸ fun heq => by cases heq)]
  · refine H.avail.congr (by rw [hh', writeBlk_dqiFreeEntry]) fun c hc => ?_
    rw [hdata c ((H.mem_avail c).mp hc).1]
    exact ⟨rfl, rfl⟩
  · rw [H.mem_avail, hfmt]
    exact and_congr_right fun hc => by rw [hdata c hc]
  · exact (H.data c hc).congr hfmt (hself c hc) (by rw [hdata c hc])
  · obtain ⟨hc, hleaf, hs, hun, hno⟩ := H.pending c s id hp
    refine ⟨hc, hleaf, hfmt ▸ hs, by rw [hfmt, hdata c hc]; exact hun, fun t ht => hno t ?_⟩
    exact (EntryOf.congr hfmt (hself c hc)).mp ht

/-- **An index block without references loses its place.** -/
theorem Holds.abandon (H : Holds h L) (hd : d ≤ 3) (hd0 : d ≠ 0) (hne : L.tree d p ≠ 0)
    (hstale : L.stale = some (d + 1, p * 256 + (i : ℕ)))
    (hnone : L.tree (d + 1) (p * 256 + (i : ℕ)) = 0)
    (hbuf : ∀ j, Function.update (h.readBlk (L.tree d p)) i 0 j = 0) :
    Holds h (L.place (L.tree d p) .limbo d p 0) := by
  have hrole := H.shape.index_of_tree hd hne
  have hbout : L.role (L.tree d p) ≠ .out := hrole ▸ Role.index_ne_out
  have hdata : ∀ c, Function.update L.role (L.tree d p) .limbo c = .data ↔ L.role c = .data := by
    intro c
    rcases eq_or_ne c (L.tree d p) with rfl | hc
    · rw [Function.update_self, hrole]
      exact iff_of_false (by decide) Role.index_ne_data
    · rw [Function.update_of_ne hc]
  have hleaf : setTree L.tree d p 0 4 = L.tree 4 := setTree_of_depth_ne (by omega)
  -- nothing else is at the place of this block
  have honly : ∀ d' p', d' ≤ 3 → L.tree d' p' = L.tree d p → d' = d ∧ p' = p := by
    intro d' p' hd' heq
    have hi := (H.shape.index (L.tree d p) d' p').mpr ⟨hd', hne, heq⟩
    rw [hrole] at hi
    cases hi
    exact ⟨rfl, rfl⟩
  have hnotleaf : ∀ p', L.tree 4 p' ≠ L.tree d p := fun p' =>
    H.shape.leaf_ne hne fun heq => Role.index_ne_data (hrole.symm.trans heq)
  refine ⟨?_, ?_, H.free, H.avail, fun c => ?_, fun c hc => ?_, fun c s id hp => ?_⟩
  · refine H.shape.update H.shape.two_le H.shape.blocks_le (fun _ _ => Iff.rfl) hne
      (H.shape.lt_blocks hbout) (by decide) rfl (fun d' p' => ?_) (fun c hc hc0 d' p' hd' => ?_)
      (fun p' hp' => ?_) (fun c => ?_) (by rw [place_tree, setTree_of_depth_ne hd0.symm])
    · rw [place_tree]
      refine iff_of_false (fun heq => by cases heq) ?_
      rintro ⟨hd', heq⟩
      by_cases hsame : d' = d ∧ p' = p
      · rw [hsame.1, hsame.2, setTree_self] at heq
        exact hne heq.symm
      · rw [setTree_of_ne hsame] at heq
        exact hsame (honly d' p' hd' heq)
    · rw [place_tree]
      by_cases hsame : d' = d ∧ p' = p
      · obtain ⟨rfl, rfl⟩ := hsame
        rw [setTree_self]
        exact ⟨fun heq => absurd heq.symm hc0, fun heq => absurd heq.symm hc⟩
      · rw [setTree_of_ne hsame]
    · rw [place_tree, hleaf, if_neg (hnotleaf p')]
    · split
      · next heq =>
        rw [heq, place_free, H.shape.mem_free, hrole]
        exact iff_of_false (fun heq => by cases heq) (by decide)
      · exact Iff.rfl
  · intro d' hd' p' j hst
    rw [place_stale] at hst
    rw [place_tree]
    have hplace : ¬ (d' + 1 = d ∧ p' * 256 + (j : ℕ) = p) := fun hc => hst (by rw [hc.1, hc.2])
    rw [setTree_of_ne hplace]
    by_cases hsame : d' = d ∧ p' = p
    · obtain ⟨rfl, rfl⟩ := hsame
      rw [setTree_self, if_pos rfl]
      rcases eq_or_ne j i with rfl | hj
      · exact hnone
      · have hz := hbuf j
        rw [Function.update_of_ne hj] at hz
        rw [H.refs d' hd' p' j, if_neg hne, hz]
        rw [hstale]
        intro heq
        simp only [Option.some.injEq, Prod.mk.injEq, true_and] at heq
        exact hj (child_inj heq).2.symm
    · rw [setTree_of_ne hsame]
      refine H.refs d' hd' p' j ?_
      rw [hstale]
      intro heq
      simp only [Option.some.injEq, Prod.mk.injEq, Nat.add_right_cancel_iff] at heq
      exact hsame ⟨heq.1.symm, (child_inj heq.2).1.symm⟩
  · rw [place_role, hdata]
    exact H.mem_avail c
  · rw [place_role, hdata] at hc
    rw [place_tree, place_pending, hleaf]
    exact H.data c hc
  · rw [place_role, hdata, place_tree, hleaf]
    exact H.pending c s id hp

end Quota

end E2fsprogs
