import E2fsprogs.Journal.FcExtents

/-!
# What a list of extents maps, and putting one in order

A list of extents is a partial map from logical blocks to physical blocks with a flag
(`E2fsprogs.ListMaps`). `ex_sort_and_merge` leaves the map of a list as it is, drops the
extents of length zero and sorts the others (`E2fsprogs.exSortAndMerge_spec`), under three
conditions: the list has at least two extents, for it does nothing with one, what is merged
has a length of 32 bits (`E2fsprogs.NoRun`), and the comparison by length, which is no order,
has the extents of length zero go last (`E2fsprogs.CutsZeros`).

What it leaves is merged as far as can be (`E2fsprogs.isChain_exSortAndMerge`), which is
why the condition on lengths is needed: a list of extents of 32-bit lengths without two that
could be merged has no run of `2 ^ 32` blocks (`E2fsprogs.noRun_of_chain`).
-/

namespace E2fsprogs

/-! ### The map of a list -/

/-- The extent has the logical block. -/
def FcExtent.Covers (e : FcExtent) (x : ℕ) : Prop := e.eLblk ≤ x ∧ x < e.eLblk + e.eLen

/-- The extent maps the logical block so. -/
def FcExtent.Maps (e : FcExtent) (x : ℕ) (v : ℕ × Bool) : Prop :=
  e.Covers x ∧ v = (e.ePblk + (x - e.eLblk), e.uninit)

/-- The map of a list. -/
def ListMaps (l : List FcExtent) (x : ℕ) (v : ℕ × Bool) : Prop := ∃ e ∈ l, e.Maps x v

/-- Some extent of the list has the logical block. -/
def Covered (l : List FcExtent) (x : ℕ) : Prop := ∃ e ∈ l, e.Covers x

/-- The numbers of the blocks of an extent are 64-bit numbers, and their number a 32-bit
one. -/
structure FcExtent.Fits (e : FcExtent) : Prop where
  len : e.eLen < 2 ^ 32
  lblk : e.eLblk + e.eLen < 2 ^ 64
  pblk : e.ePblk + e.eLen < 2 ^ 64

/-- The first extent ends before the second begins. -/
def EndsBefore (a b : FcExtent) : Prop := a.eLblk + a.eLen ≤ b.eLblk

/-- A list that is sorted, without overlap, and without extents of length zero. -/
structure ListOk (l : List FcExtent) : Prop where
  sorted : l.Pairwise EndsBefore
  nonzero : ∀ e ∈ l, 0 < e.eLen

/-- No `2 ^ 32` blocks in a row are mapped to as many in a row. -/
def NoRun (m : ℕ → ℕ × Bool → Prop) : Prop :=
  ¬∃ l p u, ∀ k < 2 ^ 32, m (l + k) (p + k, u)

section Merge

variable {a b e : FcExtent} {l l' rest : List FcExtent} {x : ℕ} {v : ℕ × Bool}

theorem listMaps_cons : ListMaps (e :: l) x v ↔ e.Maps x v ∨ ListMaps l x v := by
  simp [ListMaps]

theorem covered_cons : Covered (e :: l) x ↔ e.Covers x ∨ Covered l x := by
  simp [Covered]

theorem ListMaps.covered (h : ListMaps l x v) : Covered l x := by
  obtain ⟨e, he, hm⟩ := h
  exact ⟨e, he, hm.1⟩

/-- The map only depends on which extents of some length there are. -/
theorem listMaps_congr (h : ∀ e : FcExtent, 0 < e.eLen → (e ∈ l ↔ e ∈ l')) :
    ListMaps l x v ↔ ListMaps l' x v := by
  refine exists_congr fun e => ?_
  rw [and_congr_left_iff]
  rintro ⟨⟨hlo, hhi⟩, -⟩
  exact h e (by omega)

/-! ### Contiguous extents -/

theorem exEnd_succ (e : FcExtent) : (exEnd e + 1) % 2 ^ 64 = (e.eLblk + e.eLen) % 2 ^ 64 := by
  rw [exEnd]
  omega

theorem exPend_succ (e : FcExtent) : (exPend e + 1) % 2 ^ 64 = (e.ePblk + e.eLen) % 2 ^ 64 := by
  rw [exPend]
  omega

theorem contiguous_iff (ha : a.Fits) : Contiguous a b ↔
    a.eLblk + a.eLen = b.eLblk ∧ a.ePblk + a.eLen = b.ePblk ∧ a.uninit = b.uninit := by
  rw [Contiguous, exEnd_succ, exPend_succ, Nat.mod_eq_of_lt ha.lblk, Nat.mod_eq_of_lt ha.pblk]

/-- Two extents taken for one. -/
def merged (a b : FcExtent) : FcExtent := { a with eLen := (a.eLen + b.eLen) % 2 ^ 32 }

/-- Merging may lose blocks, but makes none up. -/
theorem covers_merged (hx : x < 2 ^ 64) (h : Contiguous a b) (hc : (merged a b).Covers x) :
    a.Covers x ∨ b.Covers x := by
  obtain ⟨hlo, hhi⟩ := hc
  have hlo : a.eLblk ≤ x := hlo
  have hhi : x < a.eLblk + (a.eLen + b.eLen) % 2 ^ 32 := hhi
  have hend := h.1
  rw [exEnd_succ] at hend
  have hle := Nat.mod_le (a.eLen + b.eLen) (2 ^ 32)
  rcases Nat.lt_or_ge x (a.eLblk + a.eLen) with hlt | hge
  · exact Or.inl ⟨hlo, hlt⟩
  · rw [Nat.mod_eq_of_lt (by omega)] at hend
    exact Or.inr ⟨by omega, by omega⟩

/-- **Merging two extents** whose lengths add up to a 32-bit number. -/
theorem merged_spec (ha : a.Fits) (hb : b.Fits) (h : Contiguous a b)
    (hlen : a.eLen + b.eLen < 2 ^ 32) : (merged a b).Fits ∧
      ∀ x v, (merged a b).Maps x v ↔ a.Maps x v ∨ b.Maps x v := by
  obtain ⟨hl, hp, hu⟩ := (contiguous_iff ha).mp h
  have hsum : (merged a b).eLen = a.eLen + b.eLen := Nat.mod_eq_of_lt hlen
  have hbl := hb.lblk
  have hbp := hb.pblk
  refine ⟨⟨by omega, ?_, ?_⟩, fun x v => ?_⟩
  · show a.eLblk + (merged a b).eLen < 2 ^ 64
    omega
  · show a.ePblk + (merged a b).eLen < 2 ^ 64
    omega
  · have hblk : (merged a b).Maps x v ↔ (a.eLblk ≤ x ∧ x < a.eLblk + (a.eLen + b.eLen)) ∧
        v = (a.ePblk + (x - a.eLblk), a.uninit) := by
      rw [← hsum]
      rfl
    rw [hblk]
    constructor
    · rintro ⟨⟨hlo, hhi⟩, rfl⟩
      rcases Nat.lt_or_ge x (a.eLblk + a.eLen) with hlt | hge
      · exact Or.inl ⟨⟨hlo, hlt⟩, rfl⟩
      · refine Or.inr ⟨⟨by omega, by omega⟩, Prod.ext ?_ hu⟩
        show a.ePblk + (x - a.eLblk) = b.ePblk + (x - b.eLblk)
        omega
    · rintro (⟨⟨hlo, hhi⟩, rfl⟩ | ⟨⟨hlo, hhi⟩, rfl⟩)
      · exact ⟨⟨hlo, by omega⟩, rfl⟩
      · refine ⟨⟨by omega, by omega⟩, Prod.ext ?_ hu.symm⟩
        show b.ePblk + (x - b.eLblk) = a.ePblk + (x - a.eLblk)
        omega

/-- Where two extents cannot be merged there are `2 ^ 32` blocks in a row. -/
theorem not_noRun_of_contiguous (ha : a.Fits) (h : Contiguous a b)
    (hlen : 2 ^ 32 ≤ a.eLen + b.eLen) (hab : ∀ x v, a.Maps x v ∨ b.Maps x v → ListMaps l x v) :
    ¬NoRun (ListMaps l) := by
  obtain ⟨hl, hp, hu⟩ := (contiguous_iff ha).mp h
  refine not_not.mpr ⟨a.eLblk, a.ePblk, a.uninit, fun k hk => hab _ _ ?_⟩
  rcases Nat.lt_or_ge k a.eLen with hlt | hge
  · refine Or.inl ⟨⟨by omega, by omega⟩, Prod.ext ?_ rfl⟩
    show a.ePblk + k = a.ePblk + (a.eLblk + k - a.eLblk)
    omega
  · refine Or.inr ⟨⟨by omega, by omega⟩, Prod.ext ?_ hu⟩
    show a.ePblk + k = b.ePblk + (a.eLblk + k - b.eLblk)
    omega

/-! ### The merging loop -/

theorem mergeFrom_cons (e e' : FcExtent) (rest : List FcExtent) : mergeFrom e (e' :: rest) =
    if Contiguous e e' then mergeFrom (merged e e') rest else e :: mergeFrom e' rest := rfl

theorem covered_of_mergeFrom (hx : x < 2 ^ 64) : ∀ {rest : List FcExtent} {e : FcExtent},
    Covered (mergeFrom e rest) x → Covered (e :: rest) x := by
  intro rest
  induction rest with
  | nil => exact fun h => h
  | cons e' rest ih =>
    intro e h
    rw [mergeFrom_cons] at h
    by_cases hc : Contiguous e e'
    · rw [if_pos hc] at h
      rcases covered_cons.mp (ih h) with hm | hrest
      · rcases covers_merged hx hc hm with h1 | h1
        · exact covered_cons.mpr (Or.inl h1)
        · exact covered_cons.mpr (Or.inr (covered_cons.mpr (Or.inl h1)))
      · exact covered_cons.mpr (Or.inr (covered_cons.mpr (Or.inr hrest)))
    · rw [if_neg hc] at h
      rcases covered_cons.mp h with h1 | h1
      · exact covered_cons.mpr (Or.inl h1)
      · exact covered_cons.mpr (Or.inr (ih h1))

theorem eLen_mergeFrom : ∀ {rest : List FcExtent} {e : FcExtent},
    (∀ y ∈ e :: rest, y.eLen < 2 ^ 32) → ∀ y ∈ mergeFrom e rest, y.eLen < 2 ^ 32 := by
  intro rest
  induction rest with
  | nil => exact fun h => h
  | cons e' rest ih =>
    intro e h
    rw [mergeFrom_cons]
    have hrest : ∀ y ∈ rest, y.eLen < 2 ^ 32 := fun y hy => h y (by simp [hy])
    split
    · refine ih fun y hy => ?_
      rcases List.mem_cons.mp hy with rfl | hy
      · exact Nat.mod_lt _ (by norm_num)
      · exact hrest y hy
    · intro y hy
      rcases List.mem_cons.mp hy with rfl | hy
      · exact h y (by simp)
      · exact ih (fun y hy => h y (List.mem_cons_of_mem _ hy)) y hy

/-- What is left begins as the first extent does. -/
theorem head_mergeFrom : ∀ (rest : List FcExtent) (e : FcExtent),
    ∃ len ys, mergeFrom e rest = { e with eLen := len } :: ys := by
  intro rest
  induction rest with
  | nil => exact fun e => ⟨e.eLen, [], rfl⟩
  | cons e' rest ih =>
    intro e
    rw [mergeFrom_cons]
    split
    · obtain ⟨len, ys, h⟩ := ih (merged e e')
      exact ⟨len, ys, h⟩
    · exact ⟨e.eLen, _, rfl⟩

/-- No two extents in a row are left that could be merged. -/
theorem isChain_mergeFrom : ∀ (rest : List FcExtent) (e : FcExtent),
    (mergeFrom e rest).IsChain fun a b => ¬Contiguous a b := by
  intro rest
  induction rest with
  | nil => exact fun e => List.isChain_singleton _
  | cons e' rest ih =>
    intro e
    rw [mergeFrom_cons]
    by_cases hc : Contiguous e e'
    · rw [if_pos hc]
      exact ih _
    · rw [if_neg hc]
      have hih := ih e'
      obtain ⟨len, ys, h⟩ := head_mergeFrom rest e'
      rw [h] at hih ⊢
      exact List.isChain_cons_cons.mpr ⟨hc, hih⟩

/-- **The merging loop** keeps the map. -/
theorem mergeFrom_spec : ∀ {rest : List FcExtent} {e : FcExtent},
    (e :: rest).Pairwise EndsBefore → (∀ y ∈ e :: rest, y.Fits ∧ 0 < y.eLen) →
    NoRun (ListMaps (e :: rest)) →
    (∀ x v, ListMaps (mergeFrom e rest) x v ↔ ListMaps (e :: rest) x v) ∧
      ListOk (mergeFrom e rest) ∧ ∀ y ∈ mergeFrom e rest, e.eLblk ≤ y.eLblk := by
  intro rest
  -- over the list; the head is the extent merged so far
  induction rest with
  | nil =>
    intro e hs hok _
    refine ⟨fun x v => Iff.rfl, ⟨hs, fun y hy => (hok y hy).2⟩, fun y hy => ?_⟩
    rw [List.mem_singleton.mp hy]
  | cons e' rest ih =>
    intro e hs hok hrun
    obtain ⟨hse, hse', hsrest⟩ := by simpa [List.pairwise_cons] using hs
    obtain ⟨hfe, hze⟩ := hok e (by simp)
    obtain ⟨hfe', hze'⟩ := hok e' (by simp)
    have hrest : ∀ y ∈ rest, y.Fits ∧ 0 < y.eLen := fun y hy => hok y (by simp [hy])
    rw [mergeFrom_cons]
    by_cases hc : Contiguous e e'
    · rw [if_pos hc]
      -- the length of a merged extent does not wrap, as no run is that long
      have hlen : e.eLen + e'.eLen < 2 ^ 32 := by
        by_contra hge
        refine not_noRun_of_contiguous hfe hc (Nat.le_of_not_lt hge) (fun x v h => ?_) hrun
        rcases h with h | h
        · exact listMaps_cons.mpr (Or.inl h)
        · exact listMaps_cons.mpr (Or.inr (listMaps_cons.mpr (Or.inl h)))
      obtain ⟨hfits, hmaps⟩ := merged_spec hfe hfe' hc hlen
      have hsum : (merged e e').eLen = e.eLen + e'.eLen := Nat.mod_eq_of_lt hlen
      obtain ⟨hl, -, -⟩ := (contiguous_iff hfe).mp hc
      have hmap : ∀ x v, ListMaps (merged e e' :: rest) x v ↔ ListMaps (e :: e' :: rest) x v := by
        intro x v
        rw [listMaps_cons, hmaps, listMaps_cons, listMaps_cons, or_assoc]
      have hs' : (merged e e' :: rest).Pairwise EndsBefore := by
        refine List.pairwise_cons.mpr ⟨fun y hy => ?_, hsrest⟩
        have hle : e'.eLblk + e'.eLen ≤ y.eLblk := hse' y hy
        show e.eLblk + (merged e e').eLen ≤ y.eLblk
        omega
      obtain ⟨h1, h2, h3⟩ := ih hs' (fun y hy => by
        rcases List.mem_cons.mp hy with rfl | hy
        · exact ⟨hfits, by omega⟩
        · exact hrest y hy) (by simpa only [NoRun, hmap] using hrun)
      exact ⟨fun x v => (h1 x v).trans (hmap x v), h2, h3⟩
    · rw [if_neg hc]
      have hrun' : NoRun (ListMaps (e' :: rest)) := by
        rintro ⟨l, p, u, h⟩
        exact hrun ⟨l, p, u, fun k hk => listMaps_cons.mpr (Or.inr (h k hk))⟩
      obtain ⟨h1, h2, h3⟩ := ih (List.pairwise_cons.mpr ⟨hse', hsrest⟩)
        (fun y hy => hok y (List.mem_cons_of_mem _ hy)) hrun'
      have hle : e.eLblk + e.eLen ≤ e'.eLblk := hse.1
      refine ⟨fun x v => ?_, ⟨List.pairwise_cons.mpr ⟨fun y hy => hle.trans (h3 y hy), h2.sorted⟩,
        fun y hy => ?_⟩, fun y hy => ?_⟩
      · rw [listMaps_cons, listMaps_cons (e := e), h1]
      · rcases List.mem_cons.mp hy with rfl | hy
        · exact hze
        · exact h2.nonzero y hy
      · rcases List.mem_cons.mp hy with rfl | hy
        · exact le_rfl
        · exact (Nat.le_add_right _ _).trans (hle.trans (h3 y hy))

/-! ### Sorting -/

/-- The lengths ascend with the first blocks. -/
def LensAscend (l : List FcExtent) : Prop :=
  ∀ a ∈ l, ∀ b ∈ l, (a.eLblk < b.eLblk → a.eLen < b.eLen) ∧ (a.eLblk = b.eLblk → a.eLen = b.eLen)

/-- **The comparison by length is an order** only on such a list. -/
theorem consistent_exLenCompar_iff : Qsort.Consistent exLenCompar l ↔ LensAscend l := by
  constructor
  · intro h a ha b hb
    have hab := h.anti a ha b hb
    have hba := h.anti b hb a ha
    simp only [Qsort.InFront, Qsort.Behind, exLenCompar] at hab hba
    refine ⟨fun hlt => ?_, fun heq => ?_⟩
    · by_contra hle
      rcases (Nat.le_of_not_lt hle).lt_or_eq with hlen | hlen
      · simp [hlen, hlen.not_gt, hlt.not_gt] at hab
      · simp [hlen, hlt, hlt.not_gt] at hba
    · rcases lt_trichotomy a.eLen b.eLen with hlen | hlen | hlen
      · simp [heq, hlen, hlen.not_gt] at hba
      · exact hlen
      · simp [heq, hlen, hlen.not_gt] at hab
  · intro h
    suffices hfollows : Qsort.Follows exLenCompar (fun e : FcExtent => -(e.eLen : ℤ)) l from
      hfollows.consistent
    intro a ha b hb
    have hba := h b hb a ha
    rcases lt_trichotomy a.eLen b.eLen with hlen | hlen | hlen
    · exact Qsort.compares_of_gt (if_pos hlen) (by norm_num) (by omega)
    · have hnot : ¬b.eLblk < a.eLblk := fun hlt => (hba.1 hlt).ne' hlen
      refine Qsort.compares_of_eq ?_ (by omega)
      rw [exLenCompar, if_neg hlen.not_lt, if_neg hnot]
    · have hlt : b.eLblk < a.eLblk := by
        by_contra hle
        rcases (Nat.le_of_not_lt hle).lt_or_eq with hlt | heq
        · have := (h a ha b hb).1 hlt
          omega
        · have := hba.2 heq.symm
          omega
      refine Qsort.compares_of_lt (r := -1) ?_ (by norm_num) (by omega)
      rw [exLenCompar, if_neg hlen.not_gt, if_pos hlt]

/-- What the loop behind the first `qsort` can be relied on to cut off: the extents of length
zero go last if the comparison by length is an order, and it does not matter where they go if
there are none, or no others. -/
def CutsZeros (l : List FcExtent) : Prop :=
  (∀ e ∈ l, e.eLen ≠ 0) ∨ (∀ e ∈ l, e.eLen = 0) ∨ LensAscend l

theorem takeWhile_eq_filter : ∀ {l : List FcExtent},
    l.Pairwise (fun a b => a.eLen = 0 → b.eLen = 0) →
    (l.takeWhile fun e => e.eLen ≠ 0) = l.filter fun e => e.eLen ≠ 0 := by
  intro l
  induction l with
  | nil => exact fun _ => rfl
  | cons e l ih =>
    intro h
    obtain ⟨he, hl⟩ := List.pairwise_cons.mp h
    rcases Nat.eq_zero_or_pos e.eLen with h0 | hpos
    · have hnil : (l.filter fun e => e.eLen ≠ 0) = [] := by
        rw [List.filter_eq_nil_iff]
        intro y hy
        simp [he y hy h0]
      rw [List.takeWhile_cons_of_neg (by simp [h0]), List.filter_cons_of_neg (by simp [h0]), hnil]
    · rw [List.takeWhile_cons_of_pos (by simp [hpos.ne']),
        List.filter_cons_of_pos (by simp [hpos.ne']), ih hl]

variable {qsort : (FcExtent → FcExtent → Option ℤ) → List FcExtent → List FcExtent}

/-- Then the extents of length zero are all that is cut off. -/
theorem takeWhile_qsort (hq : Qsort.Conforms qsort) (h : CutsZeros l) :
    ((qsort exLenCompar l).takeWhile fun e => e.eLen ≠ 0).Perm
      (l.filter fun e => e.eLen ≠ 0) := by
  have hperm := hq.perm exLenCompar l
  have hlast : (qsort exLenCompar l).Pairwise fun a b => a.eLen = 0 → b.eLen = 0 := by
    rcases h with hnone | hall | hasc
    · exact List.pairwise_of_forall_mem_list fun a ha b hb h0 =>
        absurd h0 (hnone a (hperm.mem_iff.mp ha))
    · exact List.pairwise_of_forall_mem_list fun a ha b hb h0 => hall b (hperm.mem_iff.mp hb)
    · obtain ⟨-, hsorted⟩ := hq.sorts exLenCompar l (consistent_exLenCompar_iff.mpr hasc)
      refine hsorted.imp fun {a b} hab h0 => ?_
      obtain ⟨r, hr, hle⟩ := hab
      by_contra hb
      rw [exLenCompar, if_pos (by omega)] at hr
      have := Option.some.inj hr
      omega
  rw [takeWhile_eq_filter hlast]
  exact hperm.filter _

/-- Otherwise a list with extents of some length may be lost as a whole. -/
theorem exists_qsort_lost (h : ¬CutsZeros l) : (∃ e ∈ l, 0 < e.eLen) ∧
    ∃ qsort : (FcExtent → FcExtent → Option ℤ) → List FcExtent → List FcExtent,
      Qsort.Conforms qsort ∧ ((qsort exLenCompar l).takeWhile fun e => e.eLen ≠ 0) = [] := by
  simp only [CutsZeros, not_or, not_forall, not_not, exists_prop] at h
  obtain ⟨⟨z, hz, hz0⟩, ⟨e, he, he0⟩, hasc⟩ := h
  obtain ⟨qsort, hq, heq⟩ := Qsort.exists_conforms_of_perm
    (mt consistent_exLenCompar_iff.mp hasc) (List.perm_cons_erase hz).symm
  refine ⟨⟨e, he, Nat.pos_of_ne_zero he0⟩, qsort, hq, ?_⟩
  rw [heq, List.takeWhile_cons_of_neg (by simp [hz0])]

/-- Extents that begin at different blocks are sorted by where they begin. -/
theorem qsort_exCompar (hq : Qsort.Conforms qsort) {l : List FcExtent}
    (h : ∀ a ∈ l, ∀ b ∈ l, a.eLblk = b.eLblk → a = b) :
    (qsort exCompar l).Pairwise fun a b => a.eLblk ≤ b.eLblk := by
  have hfollows : Qsort.Follows exCompar FcExtent.eLblk l := by
    intro a ha b hb
    rcases lt_trichotomy a.eLblk b.eLblk with hlt | heq | hgt
    · exact Qsort.compares_of_lt (if_pos hlt) (by norm_num) hlt
    · refine Qsort.compares_of_eq ?_ heq
      rw [h a ha b hb heq, exCompar, if_neg (lt_irrefl _), if_neg (lt_irrefl _)]
      simp
    · refine Qsort.compares_of_gt (r := 1) ?_ (by norm_num) hgt
      rw [exCompar, if_neg hgt.not_gt, if_pos hgt]
  exact (hfollows.sorts (hq.sorts exCompar l)).2

/-! ### Sorting and merging -/

/-- Two extents without a common block, in either order. -/
def NoOverlap (a b : FcExtent) : Prop := EndsBefore a b ∨ EndsBefore b a

instance : Std.Symm NoOverlap := ⟨fun _ _ => Or.symm⟩

/-- The extents of some length, sorted by where they begin. -/
theorem sorted_of_noOverlap (hq : Qsort.Conforms qsort) (hcut : CutsZeros l)
    (h : (l.filter fun e => e.eLen ≠ 0).Pairwise NoOverlap) :
    ∃ s, qsort exCompar ((qsort exLenCompar l).takeWhile fun e => e.eLen ≠ 0) = s ∧
      s.Pairwise EndsBefore ∧ ∀ e, e ∈ s ↔ e ∈ l ∧ 0 < e.eLen := by
  have hperm := takeWhile_qsort hq hcut
  obtain ⟨t, ht⟩ : ∃ t, t = (qsort exLenCompar l).takeWhile fun e => e.eLen ≠ 0 := ⟨_, rfl⟩
  rw [← ht] at hperm ⊢
  have hmem : ∀ e, e ∈ t ↔ e ∈ l ∧ 0 < e.eLen := by
    intro e
    rw [hperm.mem_iff, List.mem_filter]
    simp [Nat.pos_iff_ne_zero]
  have hsymm : ∀ {a b : FcExtent}, NoOverlap a b → NoOverlap b a := Or.symm
  have hno : t.Pairwise NoOverlap := (hperm.pairwise_iff hsymm).mpr h
  have hinj : ∀ a ∈ t, ∀ b ∈ t, a.eLblk = b.eLblk → a = b := by
    intro a ha b hb heq
    by_contra hne
    have hab : NoOverlap a b := hno.forall ha hb hne
    have hza := ((hmem a).mp ha).2
    have hzb := ((hmem b).mp hb).2
    rcases hab with h | h <;> simp only [EndsBefore] at h <;> omega
  have hperm' := hq.perm exCompar t
  have hle := qsort_exCompar hq hinj
  refine ⟨_, rfl, ?_, fun e => (hperm'.mem_iff).trans (hmem e)⟩
  have hno' : (qsort exCompar t).Pairwise NoOverlap := (hperm'.pairwise_iff hsymm).mpr hno
  refine (hle.and hno').imp_of_mem fun {a b} ha hb h => ?_
  have hzb := ((hmem b).mp (hperm'.mem_iff.mp hb)).2
  rcases h.2 with hab | hba
  · exact hab
  · have := h.1
    simp only [EndsBefore] at hba
    omega

/-- **`ex_sort_and_merge` puts a list in order** and keeps its map. -/
theorem exSortAndMerge_spec (hq : Qsort.Conforms qsort) {list : ExtentList}
    (hcut : CutsZeros list.extents)
    (hno : (list.extents.filter fun e => e.eLen ≠ 0).Pairwise NoOverlap)
    (hfits : ∀ e ∈ list.extents, 0 < e.eLen → e.Fits) (hrun : NoRun (ListMaps list.extents))
    (htwo : list.extents.length < 2 → ∀ e ∈ list.extents, 0 < e.eLen) :
    ListOk (exSortAndMerge qsort list).extents ∧
      ∀ x v, ListMaps (exSortAndMerge qsort list).extents x v ↔ ListMaps list.extents x v := by
  rw [exSortAndMerge]
  by_cases hlen : list.extents.length < 2
  · rw [if_pos hlen]
    refine ⟨⟨?_, htwo hlen⟩, fun x v => Iff.rfl⟩
    match hl : list.extents with
    | [] => exact List.Pairwise.nil
    | [e] => exact List.pairwise_singleton _ _
    | a :: b :: l => simp [hl] at hlen
  · rw [if_neg hlen]
    obtain ⟨s, hs, hsorted, hmem⟩ := sorted_of_noOverlap hq hcut hno
    dsimp only
    rw [hs]
    have hmap : ∀ x v, ListMaps s x v ↔ ListMaps list.extents x v := fun x v =>
      listMaps_congr fun e he => (hmem e).trans (and_iff_left he)
    cases s with
    | nil => exact ⟨⟨List.Pairwise.nil, by simp [mergeExtents]⟩, hmap⟩
    | cons e rest =>
      obtain ⟨h1, h2, -⟩ := mergeFrom_spec hsorted
        (fun y hy => ⟨hfits y ((hmem y).mp hy).1 ((hmem y).mp hy).2, ((hmem y).mp hy).2⟩)
        (by simpa only [NoRun, hmap] using hrun)
      exact ⟨h2, fun x v => (h1 x v).trans (hmap x v)⟩

/-- Every extent that is merged is one of the list. -/
theorem mem_of_mem_sorted (hq : Qsort.Conforms qsort)
    (h : e ∈ qsort exCompar ((qsort exLenCompar l).takeWhile fun e => e.eLen ≠ 0)) : e ∈ l :=
  (hq.perm _ _).mem_iff.mp ((List.takeWhile_sublist _).mem ((hq.perm _ _).mem_iff.mp h))

theorem covered_of_exSortAndMerge (hq : Qsort.Conforms qsort) {list : ExtentList}
    (hx : x < 2 ^ 64) (h : Covered (exSortAndMerge qsort list).extents x) :
    Covered list.extents x := by
  rw [exSortAndMerge] at h
  split at h
  · exact h
  · dsimp only at h
    obtain ⟨s, hs⟩ : ∃ s, s = qsort exCompar ((qsort exLenCompar list.extents).takeWhile
      fun e => e.eLen ≠ 0) := ⟨_, rfl⟩
    rw [← hs] at h
    cases s with
    | nil =>
      obtain ⟨e, he, -⟩ := h
      cases he
    | cons e rest =>
      obtain ⟨y, hy, hc⟩ := covered_of_mergeFrom hx h
      exact ⟨y, mem_of_mem_sorted hq (hs ▸ hy), hc⟩

theorem eLen_exSortAndMerge (hq : Qsort.Conforms qsort) {list : ExtentList}
    (h : ∀ e ∈ list.extents, e.eLen < 2 ^ 32) :
    ∀ e ∈ (exSortAndMerge qsort list).extents, e.eLen < 2 ^ 32 := by
  rw [exSortAndMerge]
  split
  · exact h
  · dsimp only
    obtain ⟨s, hs⟩ : ∃ s, s = qsort exCompar ((qsort exLenCompar list.extents).takeWhile
      fun e => e.eLen ≠ 0) := ⟨_, rfl⟩
    rw [← hs]
    cases s with
    | nil => exact fun e he => by cases he
    | cons e rest => exact eLen_mergeFrom fun y hy => h y (mem_of_mem_sorted hq (hs ▸ hy))

theorem isChain_exSortAndMerge (list : ExtentList) :
    (exSortAndMerge qsort list).extents.IsChain fun a b => ¬Contiguous a b := by
  rw [exSortAndMerge]
  split
  · next hlen =>
    match hl : list.extents with
    | [] => exact List.isChain_nil
    | [e] => exact List.isChain_singleton _
    | a :: b :: l => simp [hl] at hlen
  · dsimp only
    cases qsort exCompar ((qsort exLenCompar list.extents).takeWhile fun e => e.eLen ≠ 0) with
    | nil => exact List.isChain_nil
    | cons e rest => exact isChain_mergeFrom rest e

/-- **A merged list has no run of `2 ^ 32` blocks.** -/
theorem noRun_of_chain {l : List FcExtent} (hok : ListOk l) (hlen : ∀ e ∈ l, e.eLen < 2 ^ 32)
    (hchain : l.IsChain fun a b => ¬Contiguous a b)
    (hdom : ∀ x v, ListMaps l x v → x < 2 ^ 64 ∧ v.1 < 2 ^ 64) : NoRun (ListMaps l) := by
  rintro ⟨b, p, u, hall⟩
  obtain ⟨e, he, ⟨hlo, hhi⟩, hv⟩ := hall 0 (by norm_num)
  -- every block of the run is in the first extent
  have hin : ∀ k < 2 ^ 32, b + k < e.eLblk + e.eLen := by
    intro k
    induction k with
    | zero => exact fun _ => hhi
    | succ k ih =>
      intro hk
      have hprev := ih (by omega)
      by_contra hge
      obtain ⟨e', he', ⟨hlo', hhi'⟩, hv'⟩ := hall (k + 1) hk
      obtain ⟨hx, hp⟩ := hdom _ _ (hall (k + 1) hk)
      have hpe : p + 0 = e.ePblk + (b + 0 - e.eLblk) := congrArg Prod.fst hv
      have hpe' : p + (k + 1) = e'.ePblk + (b + (k + 1) - e'.eLblk) := congrArg Prod.fst hv'
      have hu : u = e.uninit := congrArg Prod.snd hv
      have hu' : u = e'.uninit := congrArg Prod.snd hv'
      have hp : p + (k + 1) < 2 ^ 64 := hp
      obtain ⟨l1, l2, rfl⟩ := List.append_of_mem he
      obtain ⟨-, hs2, hs12⟩ := List.pairwise_append.mp hok.sorted
      obtain ⟨hse, hs2⟩ := List.pairwise_cons.mp hs2
      -- the extent of the next block comes after the first one, and right after it
      have hmem : e' ∈ l2 := by
        rcases List.mem_append.mp he' with h1 | h2
        · have hb := hs12 e' h1 e (by simp)
          simp only [EndsBefore] at hb
          omega
        · rcases List.mem_cons.mp h2 with rfl | h2
          · omega
          · exact h2
      cases l2 with
      | nil => cases hmem
      | cons r l2 =>
        have hr := hse r (by simp)
        have hzr := hok.nonzero r (by simp)
        have hze := hok.nonzero e (by simp)
        simp only [EndsBefore] at hr
        rcases List.mem_cons.mp hmem with rfl | hmem
        · have hnot : ¬Contiguous e e' := by
            have hc := (List.isChain_append.mp hchain).2.1
            exact (List.isChain_cons_cons.mp hc).1
          refine hnot ⟨?_, ?_, hu.symm.trans hu'⟩
          · rw [exEnd_succ, Nat.mod_eq_of_lt (by omega)]
            omega
          · rw [exPend_succ, Nat.mod_eq_of_lt (by omega)]
            omega
        · have hb := (List.pairwise_cons.mp hs2).1 e' hmem
          simp only [EndsBefore] at hb
          omega
  have hlast := hin (2 ^ 32 - 1) (by norm_num)
  have := hlen e he
  omega

end Merge

end E2fsprogs
