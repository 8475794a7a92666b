import E2fsprogs.Journal.FcExtentMerge

/-!
# The hole in a list of extents

What the loop of `ext4_modify_extent_list` makes of a list that is in order: every extent
is replaced by its pieces outside the range (`E2fsprogs.piece`), one of length zero if there
is nothing left of it. The loop leaves at the first extent behind the range, and the
extents behind are their own pieces, so that this holds of the whole list
(`E2fsprogs.holeFrom_eq`).

The pieces of an extent are what it has outside the range (`E2fsprogs.piece_spec`), unless
its start has to be moved by `2 ^ 31` blocks or more: the distance is an `int`, and the
piece ends up near the end of the 64-bit numbers (`E2fsprogs.not_covers_piece`).
-/

namespace E2fsprogs

/-! ### Pieces -/

/-- The extent has a block of the range. -/
def Overlaps (add e : FcExtent) : Prop := ¬exEnd e < add.eLblk ∧ ¬exEnd add < e.eLblk

instance (add e : FcExtent) : Decidable (Overlaps add e) := inferInstanceAs (Decidable (_ ∧ _))

/-- The range is inside the extent, with blocks of it on both sides. -/
def Splits (add e : FcExtent) : Prop := e.eLblk < add.eLblk ∧ exEnd add < exEnd e

instance (add e : FcExtent) : Decidable (Splits add e) := inferInstanceAs (Decidable (_ ∧ _))

/-- The extent is inside the range. -/
def InsideRange (add e : FcExtent) : Prop := add.eLblk ≤ e.eLblk ∧ exEnd e ≤ exEnd add

instance (add e : FcExtent) : Decidable (InsideRange add e) := inferInstanceAs (Decidable (_ ∧ _))

/-- What the loop leaves of an extent. -/
def piece (add e : FcExtent) : List FcExtent :=
  if Overlaps add e then
    if Splits add e then [cutBefore add e, moveBehind add e]
    else if InsideRange add e then [{ e with eLen := 0 }]
    else if exEnd add < exEnd e then [moveBehind add e]
    else [cutBefore add e]
  else [e]

/-- What the loop leaves of a list. -/
def pieces (add : FcExtent) (l : List FcExtent) : List FcExtent := l.flatMap (piece add)

/-- The result of `make_room` for a list that has become `l`. -/
def roomFor (mem : Bool) (count size : ℕ) (l : List FcExtent) : Except FcListErr ExtentList :=
  if count = size then
    if mem = false then .error .noMemory
    else if grownBytes size < (count + 1) * 24 then .error .undefined
    else .ok ⟨l, (size + 341) % 2 ^ 32⟩
  else .ok ⟨l, size⟩

theorem ExtentList.makeRoom_eq (mem : Bool) (list : ExtentList) (i : ℕ) (x : FcExtent) :
    ExtentList.makeRoom mem list i x =
      roomFor mem list.extents.length list.size (list.extents.insertIdx i x) := rfl

section Hole

variable {add e a : FcExtent} {l : List FcExtent} {x : ℕ} {v : ℕ × Bool}

theorem exEnd_eq (h : e.Fits) (hpos : 0 < e.eLen) : exEnd e = e.eLblk + e.eLen - 1 := by
  have := h.lblk
  rw [exEnd]
  omega

theorem exEnd_add_one (h : e.Fits) (hpos : 0 < e.eLen) : exEnd e + 1 = e.eLblk + e.eLen := by
  have := exEnd_eq h hpos
  omega

theorem piece_of_not_overlaps (h : ¬Overlaps add e) : piece add e = [e] := if_neg h

theorem pieces_cons (add e : FcExtent) (l : List FcExtent) :
    pieces add (e :: l) = piece add e ++ pieces add l := rfl

/-- Behind the range nothing is changed. -/
theorem pieces_of_behind (h : ∀ e ∈ l, exEnd add < e.eLblk) : pieces add l = l := by
  induction l with
  | nil => rfl
  | cons e l ih =>
    rw [pieces_cons, piece_of_not_overlaps fun ho => ho.2 (h e (by simp)),
      ih fun y hy => h y (by simp [hy])]
    rfl

/-! ### The loop -/

/-- The range, and the list the loop runs over. -/
structure HoleIn (add : FcExtent) (l : List FcExtent) : Prop extends ListOk l where
  fits : ∀ e ∈ l, e.Fits
  addFits : add.Fits
  addPos : 0 < add.eLen

theorem HoleIn.tail (h : HoleIn add (e :: l)) : HoleIn add l :=
  ⟨⟨(List.pairwise_cons.mp h.sorted).2, fun y hy => h.nonzero y (by simp [hy])⟩,
    fun y hy => h.fits y (by simp [hy]), h.addFits, h.addPos⟩

/-- Behind an extent that ends after the range there is nothing of the range. -/
theorem HoleIn.behind (h : HoleIn add (e :: l)) (hend : exEnd add ≤ exEnd e) :
    ∀ y ∈ l, exEnd add < y.eLblk := by
  intro y hy
  have hle := (List.pairwise_cons.mp h.sorted).1 y hy
  have he := exEnd_add_one (h.fits e (by simp)) (h.nonzero e (by simp))
  simp only [EndsBefore] at hle
  omega

theorem HoleIn.no_overlap_behind (h : HoleIn add (e :: l)) (hend : exEnd add ≤ exEnd e) :
    (l.filter fun y => Overlaps add y) = [] ∧ (¬∃ y ∈ l, Splits add y) ∧ pieces add l = l := by
  have hb := h.behind hend
  refine ⟨?_, ?_, pieces_of_behind hb⟩
  · rw [List.filter_eq_nil_iff]
    intro y hy
    rw [decide_eq_true_eq]
    exact fun ho => ho.2 (hb y hy)
  · rintro ⟨y, hy, hs⟩
    have h1 := hb y hy
    have h2 := exEnd_add_one h.addFits h.addPos
    have h3 := hs.1
    omega

variable (bal : SearchTree RbExtent → List RbExtent → SearchTree RbExtent)

/-- The blocks of the extents taken out of the bitmap. -/
def unmarkAll (bm : BlockBitmap) (l : List FcExtent) : BlockBitmap :=
  l.foldl (fun bm e => bm.unmarkRange bal e.ePblk e.eLen) bm

/-- What the loop comes to for a list `l` behind `done`. -/
def holeResult (mem : Bool) (size : ℕ) (add : FcExtent) (done l : List FcExtent)
    (bm : BlockBitmap) : Except FcListErr ExtentList × BlockBitmap :=
  (if ∃ e ∈ l, Splits add e then roomFor mem (done ++ l).length size (done ++ pieces add l)
    else .ok ⟨done ++ pieces add l, size⟩,
    unmarkAll bal bm (l.filter fun e => Overlaps add e))

theorem insertIdx_after (done rest : List FcExtent) (a b : FcExtent) :
    (done ++ a :: rest).insertIdx (done.length + 1) b = done ++ a :: b :: rest := by
  induction done with
  | nil => rfl
  | cons d done ih => simpa using ih

/-- An extent before the range is passed over. -/
theorem holeResult_cons {mem : Bool} {size : ℕ} {done : List FcExtent} {bm : BlockBitmap}
    {p : List FcExtent} (hp : piece add e = p) (hs : ¬Splits add e) (hlen : p.length = 1) :
    holeResult bal mem size add done (e :: l) bm =
      holeResult bal mem size add (done ++ p) l
        (if Overlaps add e then bm.unmarkRange bal e.ePblk e.eLen else bm) := by
  have hany : (∃ y ∈ e :: l, Splits add y) ↔ ∃ y ∈ l, Splits add y := by simp [hs]
  have hcount : (done ++ e :: l).length = (done ++ p ++ l).length := by
    simp only [List.length_append, List.length_cons, hlen]
    omega
  have hall : done ++ pieces add (e :: l) = done ++ p ++ pieces add l := by
    rw [pieces_cons, hp, List.append_assoc]
  rw [holeResult, holeResult, hall, hcount]
  refine Prod.ext ?_ ?_
  · exact if_congr hany rfl rfl
  · by_cases ho : Overlaps add e
    · rw [if_pos ho, List.filter_cons_of_pos (by simpa using ho)]
      rfl
    · rw [if_neg ho, List.filter_cons_of_neg (by simpa using ho)]

/-- The loop leaves here: the rest is behind the range. -/
theorem HoleIn.holeResult_last {mem : Bool} {size : ℕ} {done : List FcExtent} {bm : BlockBitmap}
    (h : HoleIn add (e :: l)) (hend : exEnd add ≤ exEnd e) :
    holeResult bal mem size add done (e :: l) bm =
      (if Splits add e then roomFor mem (done ++ e :: l).length size (done ++ (piece add e ++ l))
        else .ok ⟨done ++ (piece add e ++ l), size⟩,
        if Overlaps add e then bm.unmarkRange bal e.ePblk e.eLen else bm) := by
  obtain ⟨hfilter, hnone, hpieces⟩ := h.no_overlap_behind hend
  have hany : (∃ y ∈ e :: l, Splits add y) ↔ Splits add e := by
    rw [List.exists_mem_cons_iff]
    exact or_iff_left hnone
  rw [holeResult, pieces_cons, hpieces]
  refine Prod.ext ?_ ?_
  · exact if_congr hany rfl rfl
  · by_cases ho : Overlaps add e
    · rw [if_pos ho, List.filter_cons_of_pos (by simpa using ho), hfilter]
      rfl
    · rw [if_neg ho, List.filter_cons_of_neg (by simpa using ho), hfilter]
      rfl

/-- **The loop of `ext4_modify_extent_list`** replaces every extent by its pieces. -/
theorem holeFrom_eq (mem : Bool) (size : ℕ) : ∀ (l done : List FcExtent) (bm : BlockBitmap),
    HoleIn add l → holeFrom bal mem size add done l bm = holeResult bal mem size add done l bm := by
  intro l
  -- over the list; an extent behind the range ends the loop
  induction l with
  | nil =>
    intro done bm _
    rw [holeFrom, holeResult, if_neg (by simp)]
    simp [pieces, unmarkAll]
  | cons e l ih =>
    intro done bm h
    have hadd := exEnd_add_one h.addFits h.addPos
    have hpos := h.addPos
    have hzero := h.nonzero e (by simp)
    have he := exEnd_add_one (h.fits e (by simp)) hzero
    rw [holeFrom]
    by_cases hbefore : exEnd e < add.eLblk
    · have ho : ¬Overlaps add e := fun ho => ho.1 hbefore
      rw [if_pos hbefore, holeResult_cons bal (piece_of_not_overlaps ho)
        (fun hs => by have := hs.2; omega) rfl, if_neg ho, ih _ _ h.tail]
    · rw [if_neg hbefore]
      by_cases hbehind : exEnd add < e.eLblk
      · have ho : ¬Overlaps add e := fun ho => ho.2 hbehind
        rw [if_pos hbehind, h.holeResult_last bal (by omega), if_neg ho,
          piece_of_not_overlaps ho, if_neg fun hs => by have := hs.1; omega]
        rfl
      · have ho : Overlaps add e := ⟨hbefore, hbehind⟩
        rw [if_neg hbehind]
        dsimp only
        -- split in two, removed, cut in front or cut behind, as the branches of the source
        by_cases hs : Splits add e
        · have hp : piece add e = [cutBefore add e, moveBehind add e] := by
            rw [piece, if_pos ho, if_pos hs]
          have hcount : (done ++ cutBefore add e :: l).length = (done ++ e :: l).length := by simp
          rw [if_pos (show e.eLblk < add.eLblk ∧ exEnd add < exEnd e from hs),
            h.holeResult_last bal hs.2.le, if_pos ho, if_pos hs, hp, ExtentList.makeRoom_eq]
          dsimp only
          rw [insertIdx_after, hcount]
          rfl
        · rw [if_neg (show ¬(e.eLblk < add.eLblk ∧ exEnd add < exEnd e) from hs)]
          by_cases hin : InsideRange add e
          · have hp : piece add e = [{ e with eLen := 0 }] := by
              rw [piece, if_pos ho, if_neg hs, if_pos hin]
            rw [if_pos (show add.eLblk ≤ e.eLblk ∧ exEnd e ≤ exEnd add from hin),
              holeResult_cons bal hp hs rfl, if_pos ho, ih _ _ h.tail]
          · rw [if_neg (show ¬(add.eLblk ≤ e.eLblk ∧ exEnd e ≤ exEnd add) from hin)]
            by_cases hend : exEnd add < exEnd e
            · have hp : piece add e = [moveBehind add e] := by
                rw [piece, if_pos ho, if_neg hs, if_neg hin, if_pos hend]
              rw [if_pos hend, h.holeResult_last bal hend.le, if_pos ho, if_neg hs, hp]
              rfl
            · have hp : piece add e = [cutBefore add e] := by
                rw [piece, if_pos ho, if_neg hs, if_neg hin, if_neg hend]
              have hlt : e.eLblk < add.eLblk := by
                by_contra hge
                exact hin ⟨by omega, by omega⟩
              rw [if_neg hend, if_pos (by omega), if_pos hlt, holeResult_cons bal hp hs rfl,
                if_pos ho, ih _ _ h.tail]

/-! ### What the pieces map -/

/-- The start of the extent is moved by less than `2 ^ 31` blocks, if at all. -/
def ShortMove (add e : FcExtent) : Prop :=
  Overlaps add e → exEnd add < exEnd e → exEnd add + 1 - e.eLblk < 2 ^ 31

/-- A range of 32-bit block numbers and an extent it may overlap. -/
structure PieceIn (add e : FcExtent) : Prop where
  fits : e.Fits
  pos : 0 < e.eLen
  addFits : add.Fits
  addPos : 0 < add.eLen
  addLblk : add.eLblk + add.eLen < 2 ^ 32

theorem PieceIn.cutBefore_eq (h : PieceIn add e) (hlt : e.eLblk < add.eLblk)
    (hle : add.eLblk ≤ exEnd e) : cutBefore add e = { e with eLen := add.eLblk - e.eLblk } := by
  have he := exEnd_add_one h.fits h.pos
  have h1 := h.fits.len
  have h2 := h.addLblk
  rw [cutBefore]
  congr 1
  omega

theorem PieceIn.moveBehind_eq (h : PieceIn add e) (hle : e.eLblk ≤ exEnd add)
    (hlt : exEnd add < exEnd e) (hshort : exEnd add + 1 - e.eLblk < 2 ^ 31) :
    moveBehind add e = { e with
      eLblk := exEnd add + 1
      ePblk := e.ePblk + (exEnd add + 1 - e.eLblk)
      eLen := e.eLblk + e.eLen - (exEnd add + 1) } := by
  have he := exEnd_add_one h.fits h.pos
  have h1 := h.fits.len
  have h2 := h.fits.lblk
  have h3 := h.fits.pblk
  have hoff : (exEnd add + 1 + 2 ^ 64 - e.eLblk) % 2 ^ 64 % 2 ^ 32 = exEnd add + 1 - e.eLblk := by
    omega
  have hsign : signExtend64 (exEnd add + 1 - e.eLblk) = exEnd add + 1 - e.eLblk := if_pos hshort
  simp only [moveBehind, hoff, hsign, FcExtent.mk.injEq, and_true]
  exact ⟨by omega, by omega, by omega⟩

/-- The blocks of the extent on one side of the range. -/
theorem maps_part {p len : ℕ} (hlo : e.eLblk ≤ p) (hhi : p + len ≤ e.eLblk + e.eLen) :
    ({ e with eLblk := p, ePblk := e.ePblk + (p - e.eLblk), eLen := len } : FcExtent).Maps x v ↔
      e.Maps x v ∧ p ≤ x ∧ x < p + len := by
  constructor
  · rintro ⟨⟨h1, h2⟩, rfl⟩
    have h1 : p ≤ x := h1
    have h2 : x < p + len := h2
    refine ⟨⟨⟨by omega, by omega⟩, Prod.ext ?_ rfl⟩, h1, h2⟩
    show e.ePblk + (p - e.eLblk) + (x - p) = e.ePblk + (x - e.eLblk)
    omega
  · rintro ⟨⟨-, rfl⟩, h1, h2⟩
    refine ⟨⟨h1, h2⟩, Prod.ext ?_ rfl⟩
    show e.ePblk + (x - e.eLblk) = e.ePblk + (p - e.eLblk) + (x - p)
    omega

theorem PieceIn.cutBefore_maps (h : PieceIn add e) (hlt : e.eLblk < add.eLblk)
    (hle : add.eLblk ≤ exEnd e) :
    (cutBefore add e).Maps x v ↔ e.Maps x v ∧ x < add.eLblk := by
  have he := exEnd_add_one h.fits h.pos
  have hpart := @maps_part e x v e.eLblk (add.eLblk - e.eLblk) le_rfl (by omega)
  rw [Nat.sub_self, Nat.add_zero] at hpart
  rw [h.cutBefore_eq hlt hle]
  refine hpart.trans (and_congr_right fun hm => ?_)
  have := hm.1.1
  omega

theorem PieceIn.moveBehind_maps (h : PieceIn add e) (hle : e.eLblk ≤ exEnd add)
    (hlt : exEnd add < exEnd e) (hshort : exEnd add + 1 - e.eLblk < 2 ^ 31) :
    (moveBehind add e).Maps x v ↔ e.Maps x v ∧ exEnd add < x := by
  have he := exEnd_add_one h.fits h.pos
  rw [h.moveBehind_eq hle hlt hshort]
  refine (@maps_part e x v (exEnd add + 1) _ (by omega) (by omega)).trans
    (and_congr_right fun hm => ?_)
  have := hm.1.2
  omega

/-- What is left of an extent, of which nothing is of length zero. -/
structure PieceOf (add e : FcExtent) (l : List FcExtent) : Prop where
  maps : ∀ x v, ListMaps l x v ↔ e.Maps x v ∧ ¬add.Covers x
  within : ∀ y ∈ l, 0 < y.eLen → y.Fits ∧ e.eLblk ≤ y.eLblk ∧ y.eLblk + y.eLen ≤ e.eLblk + e.eLen
  sorted : (l.filter fun y => y.eLen ≠ 0).Pairwise EndsBefore

theorem listMaps_singleton : ListMaps [e] x v ↔ e.Maps x v := by simp [ListMaps]

theorem pairwise_filter_singleton (y : FcExtent) :
    ([y].filter fun y => y.eLen ≠ 0).Pairwise EndsBefore :=
  (List.pairwise_singleton _ y).filter _

theorem PieceIn.cutBefore_within (h : PieceIn add e) (hlt : e.eLblk < add.eLblk)
    (hle : add.eLblk ≤ exEnd e) : (cutBefore add e).Fits ∧ e.eLblk ≤ (cutBefore add e).eLblk ∧
      (cutBefore add e).eLblk + (cutBefore add e).eLen ≤ e.eLblk + e.eLen := by
  have he := exEnd_add_one h.fits h.pos
  have h1 := h.fits.len
  have h2 := h.fits.lblk
  have h3 := h.fits.pblk
  rw [h.cutBefore_eq hlt hle]
  exact ⟨⟨by dsimp only; omega, by dsimp only; omega, by dsimp only; omega⟩, le_rfl,
    by dsimp only; omega⟩

theorem PieceIn.moveBehind_within (h : PieceIn add e) (hle : e.eLblk ≤ exEnd add)
    (hlt : exEnd add < exEnd e) (hshort : exEnd add + 1 - e.eLblk < 2 ^ 31) :
    (moveBehind add e).Fits ∧ e.eLblk ≤ (moveBehind add e).eLblk ∧
      (moveBehind add e).eLblk + (moveBehind add e).eLen ≤ e.eLblk + e.eLen := by
  have he := exEnd_add_one h.fits h.pos
  have h1 := h.fits.len
  have h2 := h.fits.lblk
  have h3 := h.fits.pblk
  rw [h.moveBehind_eq hle hlt hshort]
  exact ⟨⟨by dsimp only; omega, by dsimp only; omega, by dsimp only; omega⟩, by dsimp only; omega,
    by dsimp only; omega⟩

/-- **The pieces of an extent** are what it has outside the range. -/
theorem piece_spec (h : PieceIn add e) (hshort : ShortMove add e) :
    PieceOf add e (piece add e) := by
  have hadd := exEnd_add_one h.addFits h.addPos
  have he := exEnd_add_one h.fits h.pos
  have hpos := h.addPos
  have hcovers : ∀ x, add.Covers x ↔ add.eLblk ≤ x ∧ x ≤ exEnd add := by
    intro x
    rw [FcExtent.Covers]
    omega
  have hin : ∀ {x v}, e.Maps x v → e.eLblk ≤ x ∧ x ≤ exEnd e := by
    intro x v hm
    have h1 := hm.1.1
    have h2 := hm.1.2
    omega
  rw [piece]
  by_cases ho : Overlaps add e
  · have hle := Nat.le_of_not_lt ho.1
    have hge := Nat.le_of_not_lt ho.2
    rw [if_pos ho]
    -- the four ways an extent can meet the range
    by_cases hs : Splits add e
    · have hmove := hshort ho hs.2
      rw [if_pos hs]
      refine ⟨fun x v => ?_, fun y hy _ => ?_, ?_⟩
      · rw [listMaps_cons, listMaps_singleton, h.cutBefore_maps hs.1 hle,
          h.moveBehind_maps hge hs.2 hmove, hcovers, ← and_or_left]
        refine and_congr_right fun hm => ?_
        omega
      · rcases List.mem_cons.mp hy with rfl | hy
        · exact h.cutBefore_within hs.1 hle
        · rw [List.mem_singleton.mp hy]
          exact h.moveBehind_within hge hs.2 hmove
      · refine List.Pairwise.filter _ (List.pairwise_pair.mpr ?_)
        rw [h.cutBefore_eq hs.1 hle, h.moveBehind_eq hge hs.2 hmove]
        show e.eLblk + (add.eLblk - e.eLblk) ≤ exEnd add + 1
        omega
    · rw [if_neg hs]
      by_cases hi : InsideRange add e
      · rw [if_pos hi]
        refine ⟨fun x v => ?_, fun y hy hpos' => ?_, pairwise_filter_singleton _⟩
        · rw [listMaps_singleton]
          constructor
          · rintro ⟨⟨h1, h2⟩, -⟩
            exact absurd h2 (Nat.not_lt.mpr h1)
          · rintro ⟨hm, hno⟩
            have h1 := hin hm
            exact absurd ((hcovers x).mpr ⟨hi.1.trans h1.1, h1.2.trans hi.2⟩) hno
        · rw [List.mem_singleton.mp hy] at hpos'
          exact absurd hpos' (Nat.lt_irrefl 0)
      · rw [if_neg hi]
        by_cases hend : exEnd add < exEnd e
        · have hmove := hshort ho hend
          have hstart : add.eLblk ≤ e.eLblk := Nat.le_of_not_lt fun hlt => hs ⟨hlt, hend⟩
          rw [if_pos hend]
          refine ⟨fun x v => ?_, fun y hy _ => ?_, pairwise_filter_singleton _⟩
          · rw [listMaps_singleton, h.moveBehind_maps hge hend hmove, hcovers]
            refine and_congr_right fun hm => ?_
            have := hin hm
            omega
          · rw [List.mem_singleton.mp hy]
            exact h.moveBehind_within hge hend hmove
        · have hstart : e.eLblk < add.eLblk := by
            by_contra hnot
            exact hi ⟨Nat.le_of_not_lt hnot, Nat.le_of_not_lt hend⟩
          rw [if_neg hend]
          refine ⟨fun x v => ?_, fun y hy _ => ?_, pairwise_filter_singleton _⟩
          · rw [listMaps_singleton, h.cutBefore_maps hstart hle, hcovers]
            refine and_congr_right fun hm => ?_
            have := hin hm
            omega
          · rw [List.mem_singleton.mp hy]
            exact h.cutBefore_within hstart hle
  · rw [if_neg ho]
    refine ⟨fun x v => ?_, fun y hy _ => ?_, pairwise_filter_singleton _⟩
    · rw [listMaps_singleton]
      refine (and_iff_left_of_imp fun hm hc => ho ?_).symm
      have h1 := hin hm
      have h2 := (hcovers x).mp hc
      exact ⟨by omega, by omega⟩
    · rw [List.mem_singleton.mp hy]
      exact ⟨h.fits, le_rfl, le_rfl⟩

/-- **A long move** loses the last block of the extent. -/
theorem not_covers_piece (h : PieceIn add e) (hlong : ¬ShortMove add e) :
    Overlaps add e ∧ exEnd add < exEnd e ∧ ∀ y ∈ piece add e, ¬y.Covers (exEnd e) := by
  rw [ShortMove] at hlong
  push Not at hlong
  obtain ⟨ho, hend, hmove⟩ := hlong
  have hadd := exEnd_add_one h.addFits h.addPos
  have he := exEnd_add_one h.fits h.pos
  have h1 := h.fits.len
  have h2 := h.addLblk
  have h3 := Nat.le_of_not_lt ho.1
  have h4 := Nat.le_of_not_lt ho.2
  have hmoved : ¬(moveBehind add e).Covers (exEnd e) := by
    have hoff : (exEnd add + 1 + 2 ^ 64 - e.eLblk) % 2 ^ 64 % 2 ^ 32 = exEnd add + 1 - e.eLblk := by
      omega
    have hlblk : (moveBehind add e).eLblk = exEnd add + 1 + (2 ^ 64 - 2 ^ 32) := by
      rw [moveBehind, hoff, signExtend64, if_neg (Nat.not_lt.mpr hmove)]
      dsimp only
      omega
    rintro ⟨hlo, -⟩
    omega
  have hi : ¬InsideRange add e := fun hi => by
    have := hi.2
    omega
  refine ⟨ho, hend, ?_⟩
  rw [piece, if_pos ho]
  by_cases hs : Splits add e
  · rw [if_pos hs]
    intro y hy
    rcases List.mem_cons.mp hy with rfl | hy
    · rw [h.cutBefore_eq hs.1 h3]
      rintro ⟨-, hhi⟩
      have hhi : exEnd e < e.eLblk + (add.eLblk - e.eLblk) := hhi
      omega
    · rw [List.mem_singleton.mp hy]
      exact hmoved
  · rw [if_neg hs, if_neg hi, if_pos hend]
    intro y hy
    rw [List.mem_singleton.mp hy]
    exact hmoved

end Hole

end E2fsprogs
