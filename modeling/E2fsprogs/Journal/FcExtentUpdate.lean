import E2fsprogs.Bitmap.Marked
import E2fsprogs.Journal.FcExtentPieces

/-!
# Editing the extent list is a range update

`ext4_modify_extent_list` is to put the range in place of what the list maps there, or to
take it out, to leave the list in order, and to have the bitmap mark what the list maps.

It does so exactly under the conditions of `E2fsprogs.UpdateFits`, unless the list cannot be grown
for the second half of an extent, which it says. That the list cannot be grown for the new extent it
does not say: the last extent is lost, which only does no harm where nothing is left of it. The
clean-up does nothing for a list of one extent, so that deleting all of it leaves one of length
zero. Of a longer list everything may be lost when there is an extent of length zero in it, for the
comparison that is to put it last is no order. A distance of `2 ^ 31` blocks or more is no `int`,
the lengths of merged extents may add up to more than 32 bits, and the bitmap keeps clusters, not
blocks.
-/

namespace E2fsprogs

/-! ### What is to hold afterwards -/

/-- The map after the range is mapped by `ex`, or unmapped. -/
def UpdatedMap (l : List FcExtent) (ex : FcExtent) (del : Bool) (x : ℕ) (v : ℕ × Bool) : Prop :=
  (del = false ∧ ex.Maps x v) ∨ (ListMaps l x v ∧ ¬ex.Covers x)

/-- The extent has the physical block. -/
def FcExtent.HasBlock (e : FcExtent) (b : ℕ) : Prop := e.ePblk ≤ b ∧ b < e.ePblk + e.eLen

/-- No two of the physical ranges have a block in common. -/
def PhysDisjoint (l : List FcExtent) : Prop :=
  l.Pairwise fun a b => ∀ k, ¬(a.HasBlock k ∧ b.HasBlock k)

section Update

variable (bal : SearchTree RbExtent → List RbExtent → SearchTree RbExtent)

/-- The list is in order again, its map is the updated one, and the bitmap marks what it
maps. -/
structure UpdateDone (l : List FcExtent) (ex : FcExtent) (del : Bool)
    (r : ExtentList × BlockBitmap) :
    Prop where
  order : ListOk r.1.extents
  map : ∀ x v, ListMaps r.1.extents x v ↔ UpdatedMap l ex del x v
  marks : PhysDisjoint (ex :: l) → ∀ b, (∃ e ∈ ex :: l, e.HasBlock b) →
    (r.2.test b = true ↔ ∃ e ∈ r.1.extents, e.HasBlock b)

/-- What is to hold of the outcome of an edit: only an error may be returned instead. -/
def OutcomeOk (l : List FcExtent) (ex : FcExtent) (del : Bool) :
    Except FcListErr (ExtentList × BlockBitmap) → Prop
  | .ok r => UpdateDone l ex del r
  | .error .noMemory => True
  | .error .undefined => False

/-- If an extent is added or deleted with success, the list and the bitmap are as they should
be, with any `qsort`. -/
def UpdatesRange (mem : FcListMem) (bm : BlockBitmap) (list : ExtentList) (ex : FcExtent)
    (del : Bool) : Prop :=
  ∀ qsort, Qsort.Conforms qsort → OutcomeOk list.extents ex del
    (if del then ext4DelExtentFromList qsort bal mem bm list ex
    else ext4AddExtentToList qsort bal mem bm list ex)

/-! ### When it does -/

/-- The block is mapped afterwards. -/
def KeptBlock (l : List FcExtent) (ex : FcExtent) (del : Bool) (b : ℕ) : Prop :=
  ∃ x u, UpdatedMap l ex del x (b, u)

/-- The bitmap can tell the blocks that are mapped afterwards from the others. -/
structure BitsFit (bm : BlockBitmap) (l : List FcExtent) (ex : FcExtent) (del : Bool) : Prop where
  /-- What is mapped is in the bitmap. -/
  kept : ∀ b, KeptBlock l ex del b → bm.BlockIn b
  /-- What is not has no mapped block in its cluster, and if it was marked, an extent that
  the bitmap can unmark. -/
  dropped : ∀ b, (∃ e ∈ ex :: l, e.HasBlock b) → ¬KeptBlock l ex del b →
    (∀ b', KeptBlock l ex del b' → b' >>> bm.clusterBits ≠ b >>> bm.clusterBits) ∧
    (bm.test b = true → ∃ e ∈ l, Overlaps ex e ∧ bm.RangeIn e.ePblk e.eLen ∧
      bm.Shares e.ePblk e.eLen b)

/-- The list cannot be grown for the second half of an extent. -/
def SplitFails (mem : FcListMem) (list : ExtentList) (ex : FcExtent) : Prop :=
  mem.split = false ∧ AnySplit ex list.extents ∧ list.extents.length = list.size

/-- The list that is put in order: what the range leaves of the extents, and the new extent
behind it, in place of the last of them if the list is full and cannot be grown. -/
def orderedList (mem : FcListMem) (list : ExtentList) (ex : FcExtent) (del : Bool) :
    List FcExtent :=
  let left := pieces ex list.extents
  if del then left
  else if mem.add = false ∧
      list.extents.length + (if AnySplit ex list.extents then 1 else 0) = list.size then
    left.dropLast ++ [ex]
  else left ++ [ex]

/-- When the edit is a range update. -/
structure UpdateFits (mem : FcListMem) (bm : BlockBitmap) (list : ExtentList) (ex : FcExtent)
    (del : Bool) : Prop where
  /-- A full list is grown enough for the second half of an extent. -/
  splitRoom : AnySplit ex list.extents → list.extents.length = list.size →
    (list.size + 1) * 24 ≤ grownBytes list.size
  /-- A full list is grown enough for the new extent, or nothing of its last one is left. -/
  addRoom : del = false →
    list.extents.length + (if AnySplit ex list.extents then 1 else 0) = list.size →
    if mem.add = true then (list.size + 1) * 24 ≤ grownBytes list.size
    else ∃ l e, list.extents = l ++ [e] ∧ InsideRange ex e
  /-- No start of an extent is moved by a distance that is no `int`. -/
  shortMove : ∀ e ∈ list.extents, ShortMove ex e
  /-- No merged extent is too long. -/
  noRun : NoRun (UpdatedMap list.extents ex del)
  /-- It is not a list of one extent that is deleted. -/
  cleaned : del = true → ∀ e, list.extents = [e] → ¬InsideRange ex e
  /-- The comparison by length puts the extents of length zero last. -/
  cut : CutsZeros (orderedList mem list ex del)
  bits : PhysDisjoint (ex :: list.extents) → BitsFit bm list.extents ex del

variable {mem : FcListMem} {bm : BlockBitmap} {list : ExtentList} {l q : List FcExtent}
  {ex e y : FcExtent} {del : Bool} {x b size : ℕ} {v : ℕ × Bool}

/-! ### The bitmap -/

/-- The blocks of the extents marked in the bitmap. -/
def markAll (bm : BlockBitmap) (l : List FcExtent) : BlockBitmap :=
  l.foldl (fun bm e => bm.markRange bal e.ePblk e.eLen) bm

/-- A range of an extent that is in the bitmap, with a block in the cluster. -/
def Reaches (bm : BlockBitmap) (b : ℕ) (e : FcExtent) : Prop :=
  bm.RangeIn e.ePblk e.eLen ∧ bm.Shares e.ePblk e.eLen b

variable {bal} {qsort : (FcExtent → FcExtent → Option ℤ) → List FcExtent → List FcExtent}

theorem BlockBitmap.SameShape.reaches {bm' : BlockBitmap} (h : BlockBitmap.SameShape bm' bm) :
    Reaches bm' b e ↔ Reaches bm b e := and_congr h.rangeIn h.shares

/-- **A test after the extents are marked.** -/
theorem test_markAll (hbal : ∀ t l, (bal t l).inorder = l) :
    ∀ {l : List FcExtent} {bm : BlockBitmap}, bm.Sound → (∀ e ∈ l, 0 < e.eLen ∧ e.eLen < 2 ^ 32) →
    ((markAll bal bm l).test b = true ↔ bm.test b = true ∨ ∃ e ∈ l, Reaches bm b e) := by
  intro l
  induction l with
  | nil => simp [markAll]
  | cons e l ih =>
    intro bm hs hlen
    obtain ⟨hpos, hlt⟩ := hlen e (by simp)
    obtain ⟨hs', hshape, -⟩ := @markRange_kept bal bm e.ePblk e.eLen hbal hs
    have hcons : markAll bal bm (e :: l) = markAll bal (bm.markRange bal e.ePblk e.eLen) l := rfl
    rw [hcons, ih hs' fun y hy => hlen y (by simp [hy]), test_markRange hbal hs hpos hlt, or_assoc,
      List.exists_mem_cons_iff]
    simp only [hshape.reaches]
    rfl

/-- **A test after the extents are unmarked.** -/
theorem test_unmarkAll (hbal : ∀ t l, (bal t l).inorder = l) : ∀ {l : List FcExtent}
    {bm : BlockBitmap}, bm.Sound → (∀ e ∈ l, 0 < e.eLen ∧ e.eLen < 2 ^ 32) →
    (unmarkAll bal bm l).Sound ∧ BlockBitmap.SameShape (unmarkAll bal bm l) bm ∧
      ((unmarkAll bal bm l).test b = true ↔ bm.test b = true ∧ ¬∃ e ∈ l, Reaches bm b e) := by
  intro l
  induction l with
  | nil => exact fun {bm} hs _ => ⟨hs, ⟨rfl, rfl, rfl⟩, by simp [unmarkAll]⟩
  | cons e l ih =>
    intro bm hs hlen
    obtain ⟨hpos, hlt⟩ := hlen e (by simp)
    obtain ⟨hs', hshape, -⟩ := @unmarkRange_kept bal bm e.ePblk e.eLen hbal hs
    have hcons : unmarkAll bal bm (e :: l) = unmarkAll bal (bm.unmarkRange bal e.ePblk e.eLen) l :=
      rfl
    obtain ⟨h1, h2, h3⟩ := ih hs' fun y hy => hlen y (by simp [hy])
    rw [hcons]
    refine ⟨h1, h2.trans hshape, ?_⟩
    rw [h3, test_unmarkRange hbal hs hpos hlt, and_assoc, List.exists_mem_cons_iff, not_or]
    simp only [hshape.reaches]
    rfl

/-! ### The list that is put in order -/

/-- The map says which physical blocks a list has. -/
theorem hasBlock_iff : (∃ e ∈ l, e.HasBlock b) ↔ ∃ x u, ListMaps l x (b, u) := by
  constructor
  · rintro ⟨e, he, h1, h2⟩
    refine ⟨e.eLblk + (b - e.ePblk), e.uninit, e, he, ⟨by omega, by omega⟩, Prod.ext ?_ rfl⟩
    show b = e.ePblk + (e.eLblk + (b - e.ePblk) - e.eLblk)
    omega
  · rintro ⟨x, u, e, he, ⟨h1, h2⟩, hv⟩
    have hb : b = e.ePblk + (x - e.eLblk) := congrArg Prod.fst hv
    exact ⟨e, he, by omega, by omega⟩

/-- **The marks are exact** when the bitmap can tell the blocks apart. -/
theorem marks_iff (hbal : ∀ t l, (bal t l).inorder = l) (hs : bm.Sound) (h : UpdateIn ex l)
    (horder : ListOk q) (hmap : ∀ x v, ListMaps q x v ↔ UpdatedMap l ex del x v)
    (hlen : ∀ e ∈ q, e.eLen < 2 ^ 32) :
    (∀ b, (∃ e ∈ ex :: l, e.HasBlock b) → ((markAll bal
        (unmarkAll bal bm (l.filter fun e => Overlaps ex e)) q).test b = true ↔
          ∃ e ∈ q, e.HasBlock b)) ↔ BitsFit bm l ex del := by
  have hkept : ∀ b, (∃ e ∈ q, e.HasBlock b) ↔ KeptBlock l ex del b := by
    intro b
    rw [hasBlock_iff]
    simp only [hmap, KeptBlock]
  have hold : ∀ b, KeptBlock l ex del b → ∃ e ∈ ex :: l, e.HasBlock b := by
    rintro b ⟨x, u, ⟨-, hm⟩ | ⟨hm, -⟩⟩
    · exact hasBlock_iff.mpr ⟨x, u, ex, by simp, hm⟩
    · exact hasBlock_iff.mpr ⟨x, u, listMaps_cons.mpr (Or.inr hm)⟩
  obtain ⟨bm', hbm'⟩ : ∃ bm', bm' = unmarkAll bal bm (l.filter fun e => Overlaps ex e) := ⟨_, rfl⟩
  have hun : ∀ b, bm'.Sound ∧ BlockBitmap.SameShape bm' bm ∧ (bm'.test b = true ↔ bm.test b = true ∧
      ¬∃ e ∈ l, Overlaps ex e ∧ Reaches bm b e) := by
    intro b
    obtain ⟨h1, h2, h3⟩ := @test_unmarkAll bal b hbal (l.filter fun e => Overlaps ex e) bm hs
      fun e he =>
        ⟨h.nonzero e (List.mem_of_mem_filter he), (h.fits e (List.mem_of_mem_filter he)).len⟩
    rw [hbm']
    refine ⟨h1, h2, h3.trans (and_congr_right fun _ => not_congr (exists_congr fun e => ?_))⟩
    rw [List.mem_filter, decide_eq_true_eq, and_assoc]
  have hshape := (hun 0).2.1
  have htest : ∀ b, (markAll bal bm' q).test b = true ↔
      (bm.test b = true ∧ ¬∃ e ∈ l, Overlaps ex e ∧ Reaches bm b e) ∨ ∃ e ∈ q, Reaches bm b e := by
    intro b
    rw [test_markAll hbal (hun b).1 fun e he => ⟨horder.nonzero e he, hlen e he⟩, (hun b).2.2]
    simp only [hshape.reaches]
  rw [← hbm']
  -- a range is in the bitmap if its blocks are, and then its clusters are marked
  have hreach : (∀ b, KeptBlock l ex del b → bm.BlockIn b) → ∀ b, (∃ e ∈ q, Reaches bm b e) ↔
      ∃ b', KeptBlock l ex del b' ∧ b' >>> bm.clusterBits = b >>> bm.clusterBits := by
    intro hin b
    constructor
    · rintro ⟨e, he, -, b', h1, h2, h3⟩
      exact ⟨b', (hkept b').mp ⟨e, he, h1, h2⟩, h3⟩
    · rintro ⟨b', hb', h3⟩
      obtain ⟨e, he, h1, h2⟩ := (hkept b').mpr hb'
      have hpos := horder.nonzero e he
      have hfirst := hin e.ePblk ((hkept _).mp ⟨e, he, le_rfl, by omega⟩)
      have hlast := hin (e.ePblk + e.eLen - 1) ((hkept _).mp ⟨e, he, by omega, by omega⟩)
      exact ⟨e, he, ⟨hfirst.1, hlast.2⟩, b', h1, h2, h3⟩
  constructor
  · intro hall
    have hin : ∀ b, KeptBlock l ex del b → bm.BlockIn b := by
      intro b hb
      have ht := (hall b (hold b hb)).mpr ((hkept b).mpr hb)
      rcases (htest b).mp ht with ⟨ht, -⟩ | ⟨e, -, hin, hsh⟩
      · exact blockIn_of_test hs ht
      · exact blockIn_of_shares hin hsh
    refine ⟨hin, fun b hb hno => ?_⟩
    have hclear := mt (hall b hb).mp (mt (hkept b).mp hno)
    rw [htest, hreach hin, not_or] at hclear
    obtain ⟨h1, h2⟩ := hclear
    refine ⟨fun b' hb' heq => h2 ⟨b', hb', heq⟩, fun ht => ?_⟩
    by_contra hnone
    exact h1 ⟨ht, hnone⟩
  · intro hfit b hb
    rw [htest, hreach hfit.kept, hkept]
    by_cases hk : KeptBlock l ex del b
    · exact iff_of_true (Or.inr ⟨b, hk, rfl⟩) hk
    · obtain ⟨h1, h2⟩ := hfit.dropped b hb hk
      refine iff_of_false ?_ hk
      rintro (⟨ht, hno⟩ | ⟨b', hb', heq⟩)
      · exact hno (h2 ht)
      · exact h1 b' hb' heq

/-- The list and the bitmap after the list `q` is put in order and marked. -/
def tidied (qsort : (FcExtent → FcExtent → Option ℤ) → List FcExtent → List FcExtent)
    (bal : SearchTree RbExtent → List RbExtent → SearchTree RbExtent) (bm : BlockBitmap)
    (l : List FcExtent) (ex : FcExtent) (q : ExtentList) : ExtentList × BlockBitmap :=
  (exSortAndMerge qsort q,
    markAll bal (unmarkAll bal bm (l.filter fun e => Overlaps ex e))
      (exSortAndMerge qsort q).extents)

/-- The list `q` is put in order well by any `qsort`. -/
def AlwaysDone (bal : SearchTree RbExtent → List RbExtent → SearchTree RbExtent)
    (bm : BlockBitmap) (l : List FcExtent) (ex : FcExtent) (del : Bool) (q : ExtentList) : Prop :=
  ∀ qsort, Qsort.Conforms qsort → UpdateDone l ex del (tidied qsort bal bm l ex q)

theorem updatedMap_bound (h : UpdateIn ex l) (hm : UpdatedMap l ex del x v) :
    x < 2 ^ 64 ∧ v.1 < 2 ^ 64 := by
  have hbound : ∀ {e : FcExtent}, e.Fits → e.Maps x v → x < 2 ^ 64 ∧ v.1 < 2 ^ 64 := by
    rintro e hf ⟨⟨h1, h2⟩, rfl⟩
    have h3 := hf.lblk
    have h4 := hf.pblk
    exact ⟨by omega, by dsimp only; omega⟩
  rcases hm with ⟨-, hm⟩ | ⟨⟨e, he, hm⟩, -⟩
  · exact hbound h.addFits hm
  · exact hbound (h.fits e he) hm

/-- The extents of the list are pieces, and the new one. -/
def FromPieces (l : List FcExtent) (ex : FcExtent) (del : Bool) (q : List FcExtent) : Prop :=
  ∀ y ∈ q, y ∈ pieces ex l ∨ del = false ∧ y = ex

theorem FromPieces.eLen (hq : FromPieces l ex del q) (h : UpdateIn ex l) :
    ∀ y ∈ q, y.eLen < 2 ^ 32 := by
  intro y hy
  rcases hq y hy with hp | ⟨-, rfl⟩
  · exact eLen_pieces h.toHoleIn y hp
  · exact h.addFits.len

/-- What holds if the outcome is as it should be. -/
structure DoneNeeds (bm : BlockBitmap) (l : List FcExtent) (ex : FcExtent) (del : Bool)
    (q : List FcExtent) : Prop where
  covered : ∀ x v, UpdatedMap l ex del x v → Covered q x
  shortMove : ∀ e ∈ l, ShortMove ex e
  noRun : NoRun (UpdatedMap l ex del)
  two : q.length < 2 → ∀ e ∈ q, 0 < e.eLen
  cut : CutsZeros q
  bits : PhysDisjoint (ex :: l) → BitsFit bm l ex del

theorem AlwaysDone.shortMove (h : UpdateIn ex l) (hq : FromPieces l ex del q)
    (hd : AlwaysDone bal bm l ex del ⟨q, size⟩) : ∀ e ∈ l, ShortMove ex e := by
  intro e he
  obtain ⟨qsort, hqs⟩ := Qsort.exists_conforms FcExtent
  by_contra hlong
  obtain ⟨x, v, hm, hx, hno⟩ := not_covered_of_long h he hlong
  have hm : UpdatedMap l ex del x v := Or.inr ⟨hm, hx⟩
  obtain ⟨y, hy, hc⟩ := @covered_of_exSortAndMerge x _ hqs ⟨q, size⟩ (updatedMap_bound h hm).1
    (((hd qsort hqs).map x v).mpr hm).covered
  rcases hq y hy with hp | ⟨-, rfl⟩
  · exact hno ⟨y, hp, hc⟩
  · exact hx hc

/-- An extent of some length that is put in order is in the map that is to hold. -/
theorem exists_updatedMap (h : UpdateIn ex l) (hshort : ∀ e ∈ l, ShortMove ex e)
    (hq : FromPieces l ex del q) (hy : y ∈ q) (hpos : 0 < y.eLen) :
    ∃ x v, UpdatedMap l ex del x v := by
  have hm : y.Maps y.eLblk (y.ePblk + (y.eLblk - y.eLblk), y.uninit) :=
    ⟨⟨le_rfl, Nat.lt_add_of_pos_right hpos⟩, rfl⟩
  rcases hq y hy with hp | ⟨hdel, rfl⟩
  · exact ⟨_, _, Or.inr ((listMaps_pieces h hshort).mp ⟨y, hp, hm⟩)⟩
  · exact ⟨_, _, Or.inl ⟨hdel, hm⟩⟩

/-- **The zeros must be cut off** whatever `qsort` makes of the comparison by length. -/
theorem AlwaysDone.cut (h : UpdateIn ex l) (hq : FromPieces l ex del q)
    (hd : AlwaysDone bal bm l ex del ⟨q, size⟩) : CutsZeros q := by
  by_contra hcut
  obtain ⟨⟨y, hy, hpos⟩, qsort, hqs, hlost⟩ := exists_qsort_lost hcut
  obtain ⟨x, v, hm⟩ := exists_updatedMap h (hd.shortMove h hq) hq hy hpos
  have htwo : ¬q.length < 2 := by
    intro hlt
    obtain ⟨z, rfl⟩ : ∃ z, q = [z] := by
      match q, hy, hlt with
      | [z], _, _ => exact ⟨z, rfl⟩
    rw [List.mem_singleton.mp hy] at hpos
    exact hcut (Or.inl fun e he => List.mem_singleton.mp he ▸ hpos.ne')
  have hnil : (exSortAndMerge qsort ⟨q, size⟩).extents = [] := by
    rw [exSortAndMerge, if_neg htwo]
    dsimp only
    rw [hlost, List.perm_nil.mp (hqs.perm exCompar [])]
    rfl
  obtain ⟨e, he, -⟩ := ((hd qsort hqs).map x v).mpr hm
  have he : e ∈ (exSortAndMerge qsort ⟨q, size⟩).extents := he
  rw [hnil] at he
  cases he

theorem AlwaysDone.needs (hbal : ∀ t l, (bal t l).inorder = l) (hs : bm.Sound)
    (h : UpdateIn ex l) (hq : FromPieces l ex del q)
    (hd : AlwaysDone bal bm l ex del ⟨q, size⟩) : DoneNeeds bm l ex del q := by
  obtain ⟨qsort, hqs⟩ := Qsort.exists_conforms FcExtent
  obtain ⟨horder, hmap, hmarks⟩ := hd qsort hqs
  have hlen := @eLen_exSortAndMerge _ hqs ⟨q, size⟩ (hq.eLen h)
  refine ⟨fun x v hm => ?_, hd.shortMove h hq, ?_, fun htwo => ?_, hd.cut h hq, fun hdis => ?_⟩
  · exact @covered_of_exSortAndMerge x _ hqs ⟨q, size⟩ (updatedMap_bound h hm).1
      ((hmap x v).mpr hm).covered
  · have hrun := noRun_of_chain horder hlen (isChain_exSortAndMerge _)
      fun x v hm => updatedMap_bound h ((hmap x v).mp hm)
    have hmap : ∀ x v, ListMaps (exSortAndMerge qsort ⟨q, size⟩).extents x v ↔
      UpdatedMap l ex del x v := hmap
    have hrun : NoRun (ListMaps (exSortAndMerge qsort ⟨q, size⟩).extents) := hrun
    simpa only [NoRun, hmap] using hrun
  · have hsame : exSortAndMerge qsort ⟨q, size⟩ = ⟨q, size⟩ := if_pos htwo
    have hpos : ∀ e ∈ (exSortAndMerge qsort ⟨q, size⟩).extents, 0 < e.eLen := horder.nonzero
    rwa [hsame] at hpos
  · exact (marks_iff hbal hs h horder hmap hlen).mp (hmarks hdis)

/-- **The list is put in order**, with the map that it has. -/
theorem updateDone_of (hbal : ∀ t l, (bal t l).inorder = l) (hs : bm.Sound) (h : UpdateIn ex l)
    (hq : FromPieces l ex del q) (hcut : CutsZeros q) (hshort : ∀ e ∈ l, ShortMove ex e)
    (hno : (q.filter fun e => e.eLen ≠ 0).Pairwise NoOverlap)
    (hmap : ∀ x v, ListMaps q x v ↔ UpdatedMap l ex del x v) (hrun : NoRun (UpdatedMap l ex del))
    (htwo : q.length < 2 → ∀ e ∈ q, 0 < e.eLen)
    (hbits : PhysDisjoint (ex :: l) → BitsFit bm l ex del) :
    AlwaysDone bal bm l ex del ⟨q, size⟩ := by
  intro qsort hqs
  have hfits : ∀ e ∈ q, 0 < e.eLen → e.Fits := by
    intro y hy hpos
    rcases hq y hy with hp | ⟨-, rfl⟩
    · exact (within_pieces h hshort hp hpos).1
    · exact h.addFits
  obtain ⟨horder, hkept⟩ := @exSortAndMerge_spec _ hqs ⟨q, size⟩ hcut hno hfits
    (by simpa only [NoRun, hmap] using hrun) htwo
  have hmap' := fun x v => (hkept x v).trans (hmap x v)
  exact ⟨horder, hmap', fun hdis =>
    (marks_iff hbal hs h horder hmap' (@eLen_exSortAndMerge _ hqs ⟨q, size⟩ (hq.eLen h))).mpr
      (hbits hdis)⟩

/-! ### Deleting and adding -/

theorem updatedMap_del : UpdatedMap l ex true x v ↔ ListMaps l x v ∧ ¬ex.Covers x := by
  simp [UpdatedMap]

theorem updatedMap_add (h : UpdateIn ex l) (hshort : ∀ e ∈ l, ShortMove ex e) :
    UpdatedMap l ex false x v ↔ ListMaps (pieces ex l ++ [ex]) x v := by
  rw [UpdatedMap, ← listMaps_pieces h hshort]
  simp only [ListMaps, List.mem_append, List.mem_singleton, or_and_right, exists_or,
    exists_eq_left, true_and]
  exact or_comm

/-- A list of one piece is a list of one extent. -/
theorem pieces_two (h : UpdateIn ex l) (hshort : ∀ e ∈ l, ShortMove ex e) :
    ((pieces ex l).length < 2 → ∀ y ∈ pieces ex l, 0 < y.eLen) ↔
      ∀ e, l = [e] → ¬InsideRange ex e := by
  rw [length_pieces h.toHoleIn]
  constructor
  · rintro htwo e rfl hi
    obtain ⟨p, y, hp, hzero, -⟩ := piece_concat (h.pieceIn (by simp)) (hshort e (by simp))
    have hns : ¬AnySplit ex [e] := by
      rintro ⟨z, hz, hs⟩
      rw [List.mem_singleton.mp hz] at hs
      have h1 := hi.2
      have h2 := hs.2
      omega
    have hy : y ∈ pieces ex [e] := by simp [pieces, hp]
    rw [if_neg hns] at htwo
    have hpos := htwo (by simp) y hy
    have := hzero.mpr hi
    omega
  · intro hone hlen y hy
    rcases l with _ | ⟨e, _ | ⟨a, l⟩⟩
    · cases hy
    · obtain ⟨p, z, hp, hzero, -⟩ := piece_concat (h.pieceIn (by simp)) (hshort e (by simp))
      have hone := mt hzero.mp (hone e rfl)
      have hlen' := length_pieces h.toHoleIn
      simp only [pieces, List.flatMap_cons, List.flatMap_nil, List.append_nil, hp] at hy hlen'
      have hnil : p = [] := by
        rw [List.length_append, List.length_singleton] at hlen'
        exact List.eq_nil_of_length_eq_zero (by omega)
      rw [hnil] at hy
      rw [List.mem_singleton.mp hy]
      omega
    · rw [List.length_cons, List.length_cons] at hlen
      omega

/-- **Deleting** is a range update under the conditions. -/
theorem updateDone_del (hbal : ∀ t l, (bal t l).inorder = l) (hs : bm.Sound) (h : UpdateIn ex l) :
    AlwaysDone bal bm l ex true ⟨pieces ex l, size⟩ ↔
      (∀ e ∈ l, ShortMove ex e) ∧ NoRun (UpdatedMap l ex true) ∧
      (∀ e, l = [e] → ¬InsideRange ex e) ∧ CutsZeros (pieces ex l) ∧
      (PhysDisjoint (ex :: l) → BitsFit bm l ex true) := by
  have hq : FromPieces l ex true (pieces ex l) := fun y hy => Or.inl hy
  constructor
  · intro hd
    have hn := hd.needs hbal hs h hq
    exact ⟨hn.shortMove, hn.noRun, (pieces_two h hn.shortMove).mp hn.two, hn.cut, hn.bits⟩
  · rintro ⟨hshort, hrun, hone, hcut, hbits⟩
    refine updateDone_of hbal hs h hq hcut hshort ?_ (fun x v => ?_) hrun
      ((pieces_two h hshort).mpr hone) hbits
    · exact (sorted_pieces h hshort).imp fun hb => Or.inl hb
    · rw [listMaps_pieces h hshort, updatedMap_del]

theorem noOverlap_concat (h : UpdateIn ex l) (hshort : ∀ e ∈ l, ShortMove ex e)
    (hsub : q.Sublist (pieces ex l)) :
    ((q ++ [ex]).filter fun e => e.eLen ≠ 0).Pairwise NoOverlap := by
  rw [List.filter_append]
  refine List.pairwise_append.mpr ⟨?_, (List.pairwise_singleton _ _).filter _, fun y hy z hz => ?_⟩
  · exact ((sorted_pieces h hshort).sublist (hsub.filter _)).imp fun hb => Or.inl hb
  · obtain ⟨hy, hy0⟩ := List.mem_filter.mp hy
    rw [List.mem_singleton.mp (List.mem_of_mem_filter hz)]
    exact noOverlap_pieces h hshort (hsub.mem hy) (Nat.pos_of_ne_zero (by simpa using hy0))

theorem fromPieces_concat (hsub : q.Sublist (pieces ex l)) :
    FromPieces l ex false (q ++ [ex]) := by
  intro y hy
  rcases List.mem_append.mp hy with hy | hy
  · exact Or.inl (hsub.mem hy)
  · exact Or.inr ⟨rfl, List.mem_singleton.mp hy⟩

theorem two_concat (h : UpdateIn ex l) :
    (q ++ [ex]).length < 2 → ∀ e ∈ q ++ [ex], 0 < e.eLen := by
  intro hlen e he
  rw [List.length_append, List.length_singleton] at hlen
  have hnil : q = [] := List.eq_nil_of_length_eq_zero (by omega)
  rw [hnil] at he
  rw [List.mem_singleton.mp he]
  exact h.addPos

/-- **Adding** is a range update under the conditions, if there is room. -/
theorem updateDone_add (hbal : ∀ t l, (bal t l).inorder = l) (hs : bm.Sound) (h : UpdateIn ex l) :
    AlwaysDone bal bm l ex false ⟨pieces ex l ++ [ex], size⟩ ↔
      (∀ e ∈ l, ShortMove ex e) ∧ NoRun (UpdatedMap l ex false) ∧ CutsZeros (pieces ex l ++ [ex]) ∧
      (PhysDisjoint (ex :: l) → BitsFit bm l ex false) := by
  have hq := fromPieces_concat (List.Sublist.refl (pieces ex l))
  constructor
  · intro hd
    have hn := hd.needs hbal hs h hq
    exact ⟨hn.shortMove, hn.noRun, hn.cut, hn.bits⟩
  · rintro ⟨hshort, hrun, hcut, hbits⟩
    exact updateDone_of hbal hs h hq hcut hshort (noOverlap_concat h hshort (List.Sublist.refl _))
      (fun x v => (updatedMap_add h hshort).symm) hrun (two_concat h) hbits

/-- **Adding over the last piece** is one only if nothing is left of the last extent. -/
theorem updateDone_over (hbal : ∀ t l, (bal t l).inorder = l) (hs : bm.Sound)
    (h : UpdateIn ex (l ++ [e])) {p : List FcExtent} (hp : pieces ex (l ++ [e]) = p ++ [y])
    (hpe : ShortMove ex e → (y.eLen = 0 ↔ InsideRange ex e)) :
    AlwaysDone bal bm (l ++ [e]) ex false ⟨p ++ [ex], size⟩ ↔
      InsideRange ex e ∧ (∀ z ∈ l ++ [e], ShortMove ex z) ∧
      NoRun (UpdatedMap (l ++ [e]) ex false) ∧ CutsZeros (p ++ [ex]) ∧
      (PhysDisjoint (ex :: (l ++ [e])) → BitsFit bm (l ++ [e]) ex false) := by
  have hsub : p.Sublist (pieces ex (l ++ [e])) := hp ▸ List.sublist_append_left _ _
  have hq := fromPieces_concat hsub
  constructor
  · intro hd
    have hn := hd.needs hbal hs h hq
    refine ⟨?_, hn.shortMove, hn.noRun, hn.cut, hn.bits⟩
    by_contra hi
    have hpos : 0 < y.eLen :=
      Nat.pos_of_ne_zero (mt (hpe (hn.shortMove e (by simp))).mp hi)
    have hy : y ∈ pieces ex (l ++ [e]) := by simp [hp]
    -- the first block of the last piece is mapped by no other piece
    have hm : ListMaps (pieces ex (l ++ [e])) y.eLblk (y.ePblk + (y.eLblk - y.eLblk), y.uninit) :=
      ⟨y, hy, ⟨le_rfl, by omega⟩, rfl⟩
    have hm := (listMaps_pieces h hn.shortMove).mp hm
    obtain ⟨z, hz, hc1, hc2⟩ := hn.covered _ _ (Or.inr hm)
    rcases List.mem_append.mp hz with hz | hz
    · have hsorted := sorted_pieces h hn.shortMove
      rw [hp, List.filter_append] at hsorted
      have hb := (List.pairwise_append.mp hsorted).2.2 z
        (List.mem_filter.mpr ⟨hz, by simp; omega⟩) y (List.mem_filter.mpr ⟨by simp, by simp; omega⟩)
      simp only [EndsBefore] at hb
      omega
    · rw [List.mem_singleton.mp hz] at hc1 hc2
      exact hm.2 ⟨hc1, hc2⟩
  · rintro ⟨hi, hshort, hrun, hcut, hbits⟩
    have hzero := (hpe (hshort e (by simp))).mpr hi
    refine updateDone_of hbal hs h hq hcut hshort (noOverlap_concat h hshort hsub)
      (fun x v => ?_) hrun
      (two_concat h) hbits
    rw [updatedMap_add h hshort, hp]
    refine listMaps_congr fun z hz => ?_
    have hne : z ≠ y := fun heq => by
      rw [heq] at hz
      omega
    simp [hne]

/-! ### Room in the list -/

theorem roomFor_cases (mem : Bool) (count size : ℕ) (q : List FcExtent) :
    (count = size ∧ mem = false ∧ roomFor mem count size q = .error .noMemory) ∨
    (count = size ∧ mem = true ∧ grownBytes size < (size + 1) * 24 ∧
      roomFor mem count size q = .error .undefined) ∨
    (count = size ∧ mem = true ∧ (size + 1) * 24 ≤ grownBytes size ∧
      roomFor mem count size q = .ok ⟨q, (size + 341) % 2 ^ 32⟩) ∨
    (count ≠ size ∧ roomFor mem count size q = .ok ⟨q, size⟩) := by
  rw [roomFor]
  by_cases hfull : count = size
  · subst hfull
    rw [if_pos rfl]
    cases mem with
    | false => exact Or.inl ⟨rfl, rfl, rfl⟩
    | true =>
      rw [if_neg (by decide)]
      by_cases hroom : grownBytes count < (count + 1) * 24
      · exact Or.inr (Or.inl ⟨rfl, rfl, hroom, if_pos hroom⟩)
      · exact Or.inr (Or.inr (Or.inl ⟨rfl, rfl, Nat.le_of_not_lt hroom, if_neg hroom⟩))
  · exact Or.inr (Or.inr (Or.inr ⟨hfull, if_neg hfull⟩))

theorem last_piece (h : UpdateIn ex (l ++ [e])) : ∃ p y, pieces ex (l ++ [e]) = p ++ [y] ∧
    (ShortMove ex e → (y.eLen = 0 ↔ InsideRange ex e)) := by
  rcases List.eq_nil_or_concat' (pieces ex (l ++ [e])) with hnil | ⟨p, y, hp⟩
  · have hlen := length_pieces h.toHoleIn
    rw [hnil, List.length_append, List.length_singleton, List.length_nil] at hlen
    omega
  · refine ⟨p, y, hp, fun hshort => ?_⟩
    obtain ⟨p', y', hp', hzero, -⟩ := piece_concat (h.pieceIn (by simp)) hshort
    rw [pieces_concat, hp', ← List.append_assoc] at hp
    obtain ⟨-, heq⟩ := List.append_inj' hp rfl
    rw [← List.singleton_inj.mp heq]
    exact hzero

/-- The outcome of an edit is as it should be with any `qsort`, if `r` is what is put in
order. -/
def AlwaysOk (bal : SearchTree RbExtent → List RbExtent → SearchTree RbExtent)
    (bm : BlockBitmap) (l : List FcExtent) (ex : FcExtent) (del : Bool)
    (r : Except FcListErr ExtentList) : Prop :=
  ∀ qsort, Qsort.Conforms qsort → OutcomeOk l ex del (r.map (tidied qsort bal bm l ex))

theorem not_alwaysOk_undefined : ¬AlwaysOk bal bm l ex del (.error .undefined) := by
  obtain ⟨qsort, hqs⟩ := Qsort.exists_conforms FcExtent
  exact fun h => h qsort hqs

/-- **The new extent is put at the end** of the pieces, if there is room for it. -/
theorem alwaysOk_append (hbal : ∀ t l, (bal t l).inorder = l) (hs : bm.Sound) (h : UpdateIn ex l)
    (mem : Bool) : AlwaysOk bal bm l ex false (appendExtent mem ⟨pieces ex l, size⟩ ex) ↔
      ((pieces ex l).length = size → if mem = true then (size + 1) * 24 ≤ grownBytes size
        else ∃ l' e, l = l' ++ [e] ∧ InsideRange ex e) ∧
      (∀ e ∈ l, ShortMove ex e) ∧ NoRun (UpdatedMap l ex false) ∧
      CutsZeros (if mem = false ∧ (pieces ex l).length = size then (pieces ex l).dropLast ++ [ex]
        else pieces ex l ++ [ex]) ∧
      (PhysDisjoint (ex :: l) → BitsFit bm l ex false) := by
  have hinsert : (pieces ex l).insertIdx (pieces ex l).length ex = pieces ex l ++ [ex] :=
    List.insertIdx_length_self
  rw [appendExtent, ExtentList.makeRoom_eq]
  dsimp only
  rw [hinsert]
  -- the list is full and cannot grow, grows by too little, grows, or has room
  rcases roomFor_cases mem (pieces ex l).length size (pieces ex l ++ [ex]) with
    ⟨hfull, rfl, hroom⟩ | ⟨hfull, rfl, hlt, hroom⟩ | ⟨hfull, rfl, hge, hroom⟩ | ⟨hfull, hroom⟩
  · have hcut : (if false = false ∧ (pieces ex l).length = size then
        (pieces ex l).dropLast ++ [ex] else pieces ex l ++ [ex]) = (pieces ex l).dropLast ++ [ex] :=
      if_pos ⟨rfl, hfull⟩
    rw [hroom, hcut]
    dsimp only
    simp only [hfull, forall_const, Bool.false_eq_true, if_false]
    rcases List.eq_nil_or_concat' l with rfl | ⟨l', e, rfl⟩
    · rw [if_pos (show pieces ex [] = [] from rfl)]
      refine iff_of_false not_alwaysOk_undefined ?_
      rintro ⟨⟨l', e, hnil, -⟩, -⟩
      cases l' <;> cases hnil
    · obtain ⟨p, y, hp, hpe⟩ := last_piece h
      -- `ex` overwrites the last piece, which is right only where that piece is empty
      have hne : pieces ex (l' ++ [e]) ≠ [] := by simp [hp]
      have hset : (pieces ex (l' ++ [e])).set (size - 1) ex = p ++ [ex] := by
        rw [← hfull, hp, List.length_append, List.length_singleton, Nat.add_sub_cancel,
          List.set_append_right _ _ le_rfl, Nat.sub_self]
        rfl
      have hlast : (pieces ex (l' ++ [e])).dropLast = p := by rw [hp, List.dropLast_concat]
      rw [if_neg hne, hset, hlast]
      refine (updateDone_over hbal hs h hp hpe).trans (and_congr_left fun _ => ?_)
      constructor
      · exact fun hi => ⟨l', e, rfl, hi⟩
      · rintro ⟨l'', e', heq, hi⟩
        obtain ⟨-, heq⟩ := List.append_inj' heq rfl
        rwa [List.singleton_inj.mp heq]
  · rw [hroom]
    refine iff_of_false not_alwaysOk_undefined fun hn => ?_
    have := hn.1 hfull
    simp at this
    omega
  · have hcut : (if true = false ∧ (pieces ex l).length = size then
        (pieces ex l).dropLast ++ [ex] else pieces ex l ++ [ex]) = pieces ex l ++ [ex] :=
      if_neg fun hno => absurd hno.1 (by decide)
    rw [hroom, hcut]
    refine (updateDone_add hbal hs h).trans (and_iff_right fun _ => ?_).symm
    rw [if_pos rfl]
    exact hge
  · have hcut : (if mem = false ∧ (pieces ex l).length = size then
        (pieces ex l).dropLast ++ [ex] else pieces ex l ++ [ex]) = pieces ex l ++ [ex] :=
      if_neg fun hno => hfull hno.2
    rw [hroom, hcut]
    exact (updateDone_add hbal hs h).trans (and_iff_right fun heq => absurd heq hfull).symm

/-- What becomes of the list before it is put in order. -/
def listToOrder (mem : FcListMem) (list : ExtentList) (ex : FcExtent) (del : Bool) :
    Except FcListErr ExtentList :=
  match (if AnySplit ex list.extents then
      roomFor mem.split list.extents.length list.size (pieces ex list.extents)
    else .ok ⟨pieces ex list.extents, list.size⟩) with
  | .error err => .error err
  | .ok r => if del = false then appendExtent mem.add r ex else .ok r

/-- The edit, with the loop and the marks taken as a whole. -/
theorem ext4ModifyExtentList_eq {list : ExtentList} (h : UpdateIn ex list.extents) :
    ext4ModifyExtentList qsort bal mem bm list ex del =
      (listToOrder mem list ex del).map (tidied qsort bal bm list.extents ex) := by
  have hcond : (ex.eLen ≠ 0 ∧ del = false) = (del = false) :=
    propext (and_iff_right h.addPos.ne')
  rw [ext4ModifyExtentList, holeFrom_eq bal mem.split list.size list.extents [] bm h.toHoleIn,
    holeResult, listToOrder]
  simp only [hcond, List.nil_append]
  obtain ⟨hole, hhole⟩ : ∃ hole, hole = (if AnySplit ex list.extents then
      roomFor mem.split list.extents.length list.size (pieces ex list.extents)
    else .ok ⟨pieces ex list.extents, list.size⟩) := ⟨_, rfl⟩
  have hany : (∃ e ∈ list.extents, Splits ex e) = AnySplit ex list.extents := rfl
  simp only [hany, ← hhole]
  cases hole with
  | error err => rfl
  | ok r =>
    dsimp only
    cases (if del = false then appendExtent mem.add r ex else .ok r) with
    | error err => rfl
    | ok q => rfl

theorem updatesRange_iff_alwaysOk {list : ExtentList} (h : UpdateIn ex list.extents) :
    UpdatesRange bal mem bm list ex del ↔
      AlwaysOk bal bm list.extents ex del (listToOrder mem list ex del) := by
  refine forall₂_congr fun qsort _ => ?_
  rw [← ext4ModifyExtentList_eq h]
  cases del <;> rfl

/-- The list has been grown, or not, for the second half of an extent. -/
theorem alwaysOk_of_hole (hbal : ∀ t l, (bal t l).inorder = l) (hs : bm.Sound)
    {list : ExtentList} (h : UpdateIn ex list.extents) {size : ℕ}
    (hroom : AnySplit ex list.extents → list.extents.length = list.size →
      (list.size + 1) * 24 ≤ grownBytes list.size)
    (hsize : (pieces ex list.extents).length = size ↔
      list.extents.length + (if AnySplit ex list.extents then 1 else 0) = list.size)
    (hsame : (pieces ex list.extents).length = size → size = list.size) :
    AlwaysOk bal bm list.extents ex del (if del = false then appendExtent mem.add
      ⟨pieces ex list.extents, size⟩ ex else .ok ⟨pieces ex list.extents, size⟩) ↔
        UpdateFits mem bm list ex del := by
  cases del with
  | true =>
    rw [if_neg (by decide)]
    refine (updateDone_del hbal hs h).trans ⟨?_, fun hf => ?_⟩
    · rintro ⟨hshort, hrun, hone, hcut, hbits⟩
      exact ⟨hroom, fun hdel => absurd hdel (by decide), hshort, hrun, fun _ => hone, hcut, hbits⟩
    · exact ⟨hf.shortMove, hf.noRun, hf.cleaned rfl, hf.cut, hf.bits⟩
  | false =>
    have hordered : orderedList mem list ex false =
        if mem.add = false ∧ (pieces ex list.extents).length = size then
          (pieces ex list.extents).dropLast ++ [ex] else pieces ex list.extents ++ [ex] :=
      if_congr (and_congr_right fun _ => hsize.symm) rfl rfl
    rw [if_pos rfl, alwaysOk_append hbal hs h, ← hordered]
    constructor
    · rintro ⟨hadd, hshort, hrun, hcut, hbits⟩
      refine ⟨hroom, fun _ hfull => ?_, hshort, hrun, fun hdel => absurd hdel (by decide), hcut,
        hbits⟩
      have hfull := hsize.mpr hfull
      rw [← hsame hfull]
      exact hadd hfull
    · intro hf
      refine ⟨fun hfull => ?_, hf.shortMove, hf.noRun, hf.cut, hf.bits⟩
      have hadd := hf.addRoom rfl (hsize.mp hfull)
      rwa [← hsame hfull] at hadd

/-- **Editing the extent list is a range update** exactly if the list cannot be grown for
the second half of an extent, which is reported, or the edit fits. -/
theorem updatesRange_iff (hbal : ∀ t l, (bal t l).inorder = l) (h64 : bm.Is64)
    (hreach : bm.Reachable bal) {list : ExtentList} (hok : ListOk list.extents)
    (hfits : ∀ e ∈ list.extents, e.Fits) (hex : ex.Fits) (hpos : 0 < ex.eLen)
    (hlblk : ex.eLblk + ex.eLen < 2 ^ 32) : UpdatesRange bal mem bm list ex del ↔
      SplitFails mem list ex ∨ UpdateFits mem bm list ex del := by
  have h : UpdateIn ex list.extents := ⟨⟨hok, hfits, hex, hpos⟩, hlblk⟩
  have hs := sound_of_reachable hbal h64 hreach
  have hlen := length_pieces h.toHoleIn
  rw [updatesRange_iff_alwaysOk h, listToOrder]
  by_cases hsplit : AnySplit ex list.extents
  · rw [if_pos hsplit] at hlen ⊢
    rcases roomFor_cases mem.split list.extents.length list.size (pieces ex list.extents) with
      ⟨hfull, hmem, hroom⟩ | ⟨hfull, hmem, hlt, hroom⟩ | ⟨hfull, hmem, hge, hroom⟩ | ⟨hfull, hroom⟩
    · rw [hroom]
      exact iff_of_true (fun _ _ => trivial) (Or.inl ⟨hmem, hsplit, hfull⟩)
    · rw [hroom]
      refine iff_of_false not_alwaysOk_undefined ?_
      rintro (⟨hno, -⟩ | hf)
      · rw [hmem] at hno
        cases hno
      · have := hf.splitRoom hsplit hfull
        omega
    · have hno : ¬SplitFails mem list ex := by
        rintro ⟨hno, -⟩
        rw [hmem] at hno
        cases hno
      rw [hroom, or_iff_right hno]
      refine alwaysOk_of_hole hbal hs h (fun _ _ => hge) ?_ ?_
      · rw [if_pos hsplit]
        exact iff_of_false (by omega) (by omega)
      · omega
    · have hno : ¬SplitFails mem list ex := fun hno => hfull hno.2.2
      rw [hroom, or_iff_right hno]
      refine alwaysOk_of_hole hbal hs h (fun _ heq => absurd heq hfull) ?_ (fun heq => rfl)
      rw [if_pos hsplit, hlen]
  · have hno : ¬SplitFails mem list ex := fun hno => hsplit hno.2.1
    rw [if_neg hsplit] at hlen ⊢
    rw [or_iff_right hno]
    refine alwaysOk_of_hole hbal hs h (fun hs _ => absurd hs hsplit) ?_ (fun heq => rfl)
    rw [if_neg hsplit, hlen]

/-- An extent deleted as a whole stays in the list with length zero. -/
theorem not_updatesRange_del : ¬UpdatesRange (fun _ l => .ofList l) ⟨true, true⟩
    (.ba 0 0 63 fun _ => 0) ⟨[⟨20, 10, 5, 0⟩], 341⟩ ⟨0, 10, 5, 0⟩ true := by
  intro h
  obtain ⟨qsort, hqs⟩ := Qsort.exists_conforms FcExtent
  have hord : ListOk [⟨20, 10, 0, 0⟩] := UpdateDone.order (h qsort hqs)
  exact absurd (hord.nonzero _ (List.mem_singleton.mpr rfl)) (by decide)

/-- The blocks 20 to 29, marked. -/
def tenBlocks : BlockBitmap := .ba 0 0 63 fun i => if i = 2 then 0xf0 else if i = 3 then 0x3f else 0

/-- An extent in the middle of another one fits in a bitmap with room for it. -/
theorem updateFits_middle : UpdateFits ⟨true, true⟩ tenBlocks ⟨[⟨20, 10, 10, 0⟩], 341⟩
    ⟨40, 13, 3, 0⟩ false := by
  have hold : ∀ x v, ListMaps [⟨20, 10, 10, 0⟩] x v ↔
      (10 ≤ x ∧ x < 20) ∧ v = (20 + (x - 10), false) :=
    fun x v => listMaps_singleton
  have hmap : ∀ x v, UpdatedMap [⟨20, 10, 10, 0⟩] ⟨40, 13, 3, 0⟩ false x v ↔
      ((13 ≤ x ∧ x < 16) ∧ v = (40 + (x - 13), false)) ∨
        ((10 ≤ x ∧ x < 20) ∧ v = (20 + (x - 10), false)) ∧ ¬(13 ≤ x ∧ x < 16) := by
    intro x v
    rw [UpdatedMap, hold]
    exact or_congr (and_iff_right rfl) Iff.rfl
  refine ⟨fun _ h => absurd h (by decide), fun _ h => absurd h (by decide), fun e he => ?_, ?_,
    fun h => absurd h (by decide), Or.inl (by decide), fun _ => ⟨?_, ?_⟩⟩
  · rw [List.mem_singleton.mp he]
    exact fun _ => by decide
  · rintro ⟨l, p, u, h⟩
    rcases (hmap _ _).mp (h 100 (by norm_num)) with ⟨h1, -⟩ | ⟨⟨h1, -⟩, -⟩ <;> omega
  · rintro b ⟨x, u, hm⟩
    refine ⟨Nat.zero_le _, ?_⟩
    show b ≤ 63
    rcases (hmap _ _).mp hm with ⟨h1, h2⟩ | ⟨⟨h1, h2⟩, -⟩
    · have := congrArg Prod.fst h2
      dsimp only at this
      omega
    · have := congrArg Prod.fst h2
      dsimp only at this
      omega
  · rintro b ⟨e, he, hb⟩ hno
    rcases List.mem_cons.mp he with rfl | he
    · refine absurd ?_ hno
      have hb : 40 ≤ b ∧ b < 40 + 3 := hb
      exact ⟨b - 27, false, (hmap _ _).mpr (Or.inl ⟨by omega, Prod.ext (by dsimp only; omega) rfl⟩)⟩
    · rw [List.mem_singleton.mp he] at hb
      have hb : 20 ≤ b ∧ b < 20 + 10 := hb
      -- no cluster has two blocks
      refine ⟨fun b' hb' heq => hno ?_, fun _ => ⟨_, List.mem_singleton.mpr rfl, by decide,
        ⟨by decide, by decide⟩, b, hb.1, hb.2, rfl⟩⟩
      have heq : b' = b := heq
      exact heq ▸ hb'

theorem updatesRange_middle : UpdatesRange (fun _ l => .ofList l) ⟨true, true⟩ tenBlocks
    ⟨[⟨20, 10, 10, 0⟩], 341⟩ ⟨40, 13, 3, 0⟩ false :=
  (@updatesRange_iff _ ⟨true, true⟩ tenBlocks ⟨40, 13, 3, 0⟩ false
    (fun _ l => SearchTree.inorder_ofList l) trivial trivial ⟨[⟨20, 10, 10, 0⟩], 341⟩
    ⟨List.pairwise_singleton _ _, fun e he => List.mem_singleton.mp he ▸ by decide⟩
    (fun e he => List.mem_singleton.mp he ▸ ⟨by decide, by decide, by decide⟩)
    ⟨by decide, by decide, by decide⟩ (by decide) (by decide)).mpr (Or.inr updateFits_middle)

end Update

end E2fsprogs
