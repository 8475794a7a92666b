import E2fsprogs.Journal.FcExtentHole

/-!
# The pieces of a list of extents

What the hole in a list comes to for the list as a whole, from what it comes to for each
extent: the map without the range (`E2fsprogs.listMaps_pieces`), pieces without overlap among
themselves and with the range (`E2fsprogs.noOverlap_pieces`), one more of them if the range
splits an extent (`E2fsprogs.length_pieces`).
-/

namespace E2fsprogs

/-- A list and a range of 32-bit block numbers. -/
structure UpdateIn (add : FcExtent) (l : List FcExtent) : Prop extends HoleIn add l where
  addLblk : add.eLblk + add.eLen < 2 ^ 32

section Pieces

variable {add e a y : FcExtent} {l : List FcExtent} {x : ℕ} {v : ℕ × Bool}

theorem UpdateIn.tail (h : UpdateIn add (e :: l)) : UpdateIn add l :=
  ⟨h.toHoleIn.tail, h.addLblk⟩

theorem UpdateIn.pieceIn (h : UpdateIn add l) (he : e ∈ l) : PieceIn add e :=
  ⟨h.fits e he, h.nonzero e he, h.addFits, h.addPos, h.addLblk⟩

theorem mem_pieces : y ∈ pieces add l ↔ ∃ e ∈ l, y ∈ piece add e := List.mem_flatMap

theorem listMaps_pieces_iff :
    ListMaps (pieces add l) x v ↔ ∃ e ∈ l, ListMaps (piece add e) x v := by
  simp only [ListMaps, mem_pieces]
  constructor
  · rintro ⟨y, ⟨e, he, hy⟩, hm⟩
    exact ⟨e, he, y, hy, hm⟩
  · rintro ⟨e, he, y, hy, hm⟩
    exact ⟨y, ⟨e, he, hy⟩, hm⟩

/-- **The map of the pieces** is the map without the range. -/
theorem listMaps_pieces (h : UpdateIn add l) (hshort : ∀ e ∈ l, ShortMove add e) :
    ListMaps (pieces add l) x v ↔ ListMaps l x v ∧ ¬add.Covers x := by
  rw [listMaps_pieces_iff, ListMaps, exists_and_right.symm.trans (exists_congr fun e => and_assoc)]
  refine exists_congr fun e => and_congr_right fun he => ?_
  exact (piece_spec (h.pieceIn he) (hshort e he)).maps x v

/-- A piece of some length is in the extent it is a piece of. -/
theorem within_pieces (h : UpdateIn add l) (hshort : ∀ e ∈ l, ShortMove add e)
    (hy : y ∈ pieces add l) (hpos : 0 < y.eLen) :
    y.Fits ∧ ∃ e ∈ l, e.eLblk ≤ y.eLblk ∧ y.eLblk + y.eLen ≤ e.eLblk + e.eLen := by
  obtain ⟨e, he, hye⟩ := mem_pieces.mp hy
  obtain ⟨hfits, hin⟩ := (piece_spec (h.pieceIn he) (hshort e he)).within y hye hpos
  exact ⟨hfits, e, he, hin⟩

theorem sorted_pieces : ∀ {l : List FcExtent}, UpdateIn add l → (∀ e ∈ l, ShortMove add e) →
    ((pieces add l).filter fun y => y.eLen ≠ 0).Pairwise EndsBefore := by
  intro l
  induction l with
  | nil => exact fun _ _ => List.Pairwise.nil
  | cons e l ih =>
    intro h hshort
    have hp := piece_spec (h.pieceIn (e := e) (by simp)) (hshort e (by simp))
    have hl : ∀ y ∈ l, ShortMove add y := fun y hy => hshort y (by simp [hy])
    rw [pieces_cons, List.filter_append]
    refine List.pairwise_append.mpr ⟨hp.sorted, ih h.tail hl, fun y hy z hz => ?_⟩
    obtain ⟨hy, hy0⟩ := List.mem_filter.mp hy
    obtain ⟨hz, hz0⟩ := List.mem_filter.mp hz
    have hypos : 0 < y.eLen := Nat.pos_of_ne_zero (by simpa using hy0)
    have hzpos : 0 < z.eLen := Nat.pos_of_ne_zero (by simpa using hz0)
    obtain ⟨-, -, hye⟩ := hp.within y hy hypos
    obtain ⟨-, e', he', hze, -⟩ := within_pieces h.tail hl hz hzpos
    have hee' : e.eLblk + e.eLen ≤ e'.eLblk := (List.pairwise_cons.mp h.sorted).1 e' he'
    exact hye.trans (hee'.trans hze)

/-- No piece of some length has a block of the range. -/
theorem noOverlap_pieces (h : UpdateIn add l) (hshort : ∀ e ∈ l, ShortMove add e)
    (hy : y ∈ pieces add l) (hpos : 0 < y.eLen) : NoOverlap y add := by
  by_contra hno
  have hadd := h.addPos
  rw [NoOverlap, not_or, EndsBefore, EndsBefore] at hno
  have hc : y.Covers (max y.eLblk add.eLblk) := ⟨le_max_left _ _, by omega⟩
  exact ((listMaps_pieces h hshort).mp ⟨y, hy, hc, rfl⟩).2 ⟨le_max_right _ _, by omega⟩

theorem eLen_piece (hlen : e.eLen < 2 ^ 32) : ∀ y ∈ piece add e, y.eLen < 2 ^ 32 := by
  have hcut : (cutBefore add e).eLen < 2 ^ 32 := Nat.mod_lt _ (by norm_num)
  have hmove : (moveBehind add e).eLen < 2 ^ 32 := Nat.mod_lt _ (by norm_num)
  intro y hy
  rw [piece] at hy
  split at hy
  · split at hy
    · rcases List.mem_cons.mp hy with rfl | hy
      · exact hcut
      · exact List.mem_singleton.mp hy ▸ hmove
    · split at hy
      · rw [List.mem_singleton.mp hy]
        norm_num
      · split at hy
        · exact List.mem_singleton.mp hy ▸ hmove
        · exact List.mem_singleton.mp hy ▸ hcut
  · exact List.mem_singleton.mp hy ▸ hlen

theorem eLen_pieces (h : HoleIn add l) : ∀ y ∈ pieces add l, y.eLen < 2 ^ 32 := by
  intro y hy
  obtain ⟨e, he, hye⟩ := mem_pieces.mp hy
  exact eLen_piece (h.fits e he).len y hye

/-! ### How many there are -/

/-- Whether some extent is split. -/
def AnySplit (add : FcExtent) (l : List FcExtent) : Prop := ∃ e ∈ l, Splits add e

instance (add : FcExtent) (l : List FcExtent) : Decidable (AnySplit add l) :=
  inferInstanceAs (Decidable (∃ e ∈ l, Splits add e))

theorem HoleIn.overlaps_of_splits (h : HoleIn add (e :: l)) (hs : Splits add e) :
    Overlaps add e := by
  have hadd := exEnd_add_one h.addFits h.addPos
  have hpos := h.addPos
  obtain ⟨h1, h2⟩ := hs
  exact ⟨by omega, by omega⟩

theorem HoleIn.length_piece (h : HoleIn add (e :: l)) :
    (piece add e).length = if Splits add e then 2 else 1 := by
  by_cases hs : Splits add e
  · rw [piece, if_pos (h.overlaps_of_splits hs), if_pos hs, if_pos hs]
    rfl
  · rw [piece, if_neg hs, if_neg hs]
    split
    · split
      · rfl
      · split <;> rfl
    · rfl

/-- **There is one piece more** if the range splits an extent. -/
theorem length_pieces : ∀ {l : List FcExtent}, HoleIn add l →
    (pieces add l).length = l.length + if AnySplit add l then 1 else 0 := by
  intro l
  induction l with
  | nil => exact fun _ => rfl
  | cons e l ih =>
    intro h
    rw [pieces_cons, List.length_append, h.length_piece]
    by_cases hs : Splits add e
    · obtain ⟨-, -, hl⟩ := h.no_overlap_behind hs.2.le
      rw [hl, if_pos hs, if_pos ⟨e, by simp, hs⟩, List.length_cons]
      omega
    · have hany : AnySplit add (e :: l) ↔ AnySplit add l := by simp [AnySplit, hs]
      rw [ih h.tail, if_neg hs, if_congr hany rfl rfl, List.length_cons]
      omega

/-- The last piece is one of the last extent. -/
theorem pieces_concat (add e : FcExtent) (l : List FcExtent) :
    pieces add (l ++ [e]) = pieces add l ++ piece add e := by
  simp [pieces]

/-- The last piece has length zero exactly if its extent is inside the range. -/
theorem piece_concat (h : PieceIn add e) (hshort : ShortMove add e) :
    ∃ p y, piece add e = p ++ [y] ∧ (y.eLen = 0 ↔ InsideRange add e) ∧
      (InsideRange add e → p = []) := by
  have hadd := exEnd_add_one h.addFits h.addPos
  have hpos := h.addPos
  have he := exEnd_add_one h.fits h.pos
  rw [piece]
  by_cases ho : Overlaps add e
  · have hle := Nat.le_of_not_lt ho.1
    have hge := Nat.le_of_not_lt ho.2
    -- what is moved behind the range ends past it, so it is never empty
    have hmoved : exEnd add < exEnd e → ((moveBehind add e).eLen = 0 ↔ InsideRange add e) := by
      intro hend
      rw [h.moveBehind_eq hge hend (hshort ho hend)]
      refine ⟨fun h0 => ?_, fun hi => ?_⟩
      · have h0 : e.eLblk + e.eLen - (exEnd add + 1) = 0 := h0
        omega
      · have := hi.2
        omega
    rw [if_pos ho]
    by_cases hs : Splits add e
    · rw [if_pos hs]
      refine ⟨[cutBefore add e], _, rfl, hmoved hs.2, fun hi => ?_⟩
      have h1 := hi.2
      have h2 := hs.2
      omega
    · rw [if_neg hs]
      by_cases hi : InsideRange add e
      · rw [if_pos hi]
        exact ⟨[], _, rfl, iff_of_true rfl hi, fun _ => rfl⟩
      · rw [if_neg hi]
        by_cases hend : exEnd add < exEnd e
        · rw [if_pos hend]
          exact ⟨[], _, rfl, hmoved hend, fun _ => rfl⟩
        · have hstart : e.eLblk < add.eLblk := by
            by_contra hnot
            exact hi ⟨Nat.le_of_not_lt hnot, Nat.le_of_not_lt hend⟩
          rw [if_neg hend]
          refine ⟨[], _, rfl, iff_of_false (fun h0 => ?_) hi, fun _ => rfl⟩
          rw [h.cutBefore_eq hstart hle] at h0
          have h0 : add.eLblk - e.eLblk = 0 := h0
          omega
  · rw [if_neg ho]
    refine ⟨[], e, rfl, iff_of_false h.pos.ne' fun hi => ho ?_, fun _ => rfl⟩
    have h1 := hi.1
    have h2 := hi.2
    have h3 := h.pos
    exact ⟨by omega, by omega⟩

/-! ### A long move -/

theorem covered_pieces_iff : Covered (pieces add l) x ↔ ∃ e ∈ l, Covered (piece add e) x := by
  simp only [Covered, mem_pieces]
  constructor
  · rintro ⟨y, ⟨e, he, hy⟩, hm⟩
    exact ⟨e, he, y, hy, hm⟩
  · rintro ⟨e, he, y, hy, hm⟩
    exact ⟨y, ⟨e, he, hy⟩, hm⟩

/-- Only one extent can go on behind the range. -/
theorem eq_of_overlaps_end (h : HoleIn add l) (he : e ∈ l) (ha : a ∈ l) (ho : Overlaps add e)
    (ho' : Overlaps add a) (hend : exEnd add < exEnd e) (hend' : exEnd add < exEnd a) : e = a := by
  induction l with
  | nil => cases he
  | cons z l ih =>
    rcases List.mem_cons.mp he with rfl | hel
    · rcases List.mem_cons.mp ha with rfl | hal
      · rfl
      · exact absurd (h.behind hend.le a hal) ho'.2
    · rcases List.mem_cons.mp ha with rfl | hal
      · exact absurd (h.behind hend'.le e hel) ho.2
      · exact ih h.tail hel hal

/-- Extents of a list in order that share a block are the same. -/
theorem eq_of_covers (h : ListOk l) (he : e ∈ l) (ha : a ∈ l) (hx : e.Covers x)
    (hx' : a.Covers x) : e = a := by
  by_contra hne
  have hall : l.Pairwise NoOverlap := h.sorted.imp fun hab => Or.inl hab
  have hno : NoOverlap e a := hall.forall he ha hne
  obtain ⟨h1, h2⟩ := hx
  obtain ⟨h3, h4⟩ := hx'
  rcases hno with hb | hb <;> simp only [EndsBefore] at hb <;> omega

/-- **A long move** leaves a block behind the range without a mapping. -/
theorem not_covered_of_long (h : UpdateIn add l) (he : e ∈ l) (hlong : ¬ShortMove add e) :
    ∃ x v, ListMaps l x v ∧ ¬add.Covers x ∧ ¬Covered (pieces add l) x := by
  obtain ⟨ho, hend, hno⟩ := not_covers_piece (h.pieceIn he) hlong
  have hadd := exEnd_add_one h.addFits h.addPos
  have hlast := exEnd_add_one (h.fits e he) (h.nonzero e he)
  have hpos := h.nonzero e he
  have hcov : e.Covers (exEnd e) := ⟨by omega, by omega⟩
  refine ⟨exEnd e, _, ⟨e, he, hcov, rfl⟩, fun hc => ?_, fun hc => ?_⟩
  · have := hc.2
    omega
  · obtain ⟨a, ha, y, hy, hyc⟩ := covered_pieces_iff.mp hc
    by_cases hshort : ShortMove add a
    · have hm := ((piece_spec (h.pieceIn ha) hshort).maps (exEnd e) _).mp ⟨y, hy, hyc, rfl⟩
      rw [← eq_of_covers h.toListOk he ha hcov hm.1.1] at hy
      exact hno y hy hyc
    · obtain ⟨ho', hend', -⟩ := not_covers_piece (h.pieceIn ha) hshort
      rw [← eq_of_overlaps_end h.toHoleIn he ha ho ho' hend hend'] at hy
      exact hno y hy hyc

end Pieces

end E2fsprogs
