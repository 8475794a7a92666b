import E2fsprogs.Alloc.Tables

/-!
# The search for free blocks

`ext2fs_get_free_blocks2` of `lib/ext2fs/alloc.c`. The positions are the starts of clusters, and
the search goes through them in cyclic order, from the cluster of `start`. It is left in three
ways: with the first run that is free, at the end of the device when `finish` is behind `start`,
and where the position is exactly `finish`. What it is left with is right in each
(`E2fsprogs.Searched`), but a `finish` so near the end of the device that no run fits in front of it
is never a position, nor is the first data block; then, when nothing is free, the search goes
round for ever.
-/

namespace E2fsprogs

variable (g : TableGeometry)

/-! ### What a search is for -/

/-- Where the search starts. -/
def searchFrom (start : ℕ) : ℕ :=
  let b := if start = 0 then g.firstDataBlock else start
  b - b % g.ratio

/-- Where the search is to end. -/
def searchTo (start finish : ℕ) : ℕ :=
  let finish := if finish = 0 then start else finish
  finish - finish % g.ratio

/-- The position `c` can be the start of a run of `num` blocks on the device. -/
structure SearchPosition (num c : ℕ) : Prop where
  aligned : g.ratio ∣ c
  first : g.firstDataBlock ≤ c
  last : c + num ≤ g.blocksCount

/-- The blocks of a run are free. -/
def RunFree (map : ℕ → Bool) (b num : ℕ) : Prop :=
  ∀ x, b ≤ x → x < b + num → map (x / g.ratio) = false

/-- In cyclic order from `s`, position `c` comes before `b`. -/
def CyclicBefore (s b c : ℕ) : Prop := if s ≤ b then s ≤ c ∧ c < b else s ≤ c ∨ c < b

/-- In cyclic order, position `c` is in `[s, f)`: everywhere, when `f` is `s`. -/
def CyclicWithin (s f c : ℕ) : Prop := if s < f then s ≤ c ∧ c < f else s ≤ c ∨ c < f

/-- **The search ends and is exact**: what it finds is on the device and free, and the first such
run; when it finds nothing there is nothing to be found. -/
def FreeSearchRight (map : ℕ → Bool) (start finish num : ℕ) : Prop :=
  ∃ n r, getFreeBlocks2 g n map start finish num = some r ∧
    (∀ b ∈ r, g.firstDataBlock ≤ b ∧ b + num ≤ g.blocksCount ∧ RunFree g map b num ∧
      ∀ c, SearchPosition g num c → CyclicBefore (searchFrom g start) b c → ¬RunFree g map c num) ∧
    (r = none → ∀ c, SearchPosition g num c →
      CyclicWithin (searchFrom g start) (searchTo g start finish) c → ¬RunFree g map c num)

/-- The search comes to its end even when it finds nothing. -/
def SearchStops (start finish num : ℕ) : Prop :=
  start < searchTo g start finish ∨
    g.firstDataBlock < searchTo g start finish ∧
      searchTo g start finish + num ≤ g.blocksCount + g.ratio

/-- A call for a run that has room on the device. With clusters, the first data block is at the
start of one. -/
structure SearchCall (start num : ℕ) : Prop where
  aligned : g.ratio ∣ g.firstDataBlock
  pos : 0 < num
  room : g.firstDataBlock + num ≤ g.blocksCount
  start : start = 0 ∨ g.firstDataBlock ≤ start

variable {g} {map : ℕ → Bool} {start finish num s f b c z : ℕ}

/-! ### Positions -/

/-- The next position. -/
theorem add_ratio_le (hb : g.ratio ∣ b) (hc : g.ratio ∣ c) (hlt : b < c) : b + g.ratio ≤ c := by
  obtain ⟨i, rfl⟩ := hb
  obtain ⟨j, rfl⟩ := hc
  have hij : i + 1 ≤ j := Nat.lt_of_mul_lt_mul_left hlt
  calc g.ratio * i + g.ratio = g.ratio * (i + 1) := (Nat.mul_succ _ _).symm
    _ ≤ g.ratio * j := Nat.mul_le_mul_left _ hij

theorem eq_of_lt_add_ratio (hb : g.ratio ∣ b) (hc : g.ratio ∣ c) (hle : b ≤ c)
    (hlt : c < b + g.ratio) : c = b := by
  rcases Nat.eq_or_lt_of_le hle with heq | hless
  · exact heq.symm
  · exact absurd (add_ratio_le hb hc hless) (not_le.mpr hlt)

theorem searchTo_aligned (start finish : ℕ) : g.ratio ∣ searchTo g start finish :=
  Nat.dvd_sub_mod _

theorem searchFrom_aligned (start : ℕ) : g.ratio ∣ searchFrom g start := Nat.dvd_sub_mod _

/-- The start of the cluster of `y` is the last position up to it. -/
theorem le_sub_mod_ratio {y : ℕ} (hb : g.ratio ∣ b) (hle : b ≤ y) : b ≤ y - y % g.ratio := by
  by_contra hlt
  have hnext := add_ratio_le (Nat.dvd_sub_mod y) hb (not_le.mp hlt)
  have hmod := Nat.mod_lt y g.ratio_pos
  omega

theorem SearchCall.first_le (h : SearchCall g start num) :
    g.firstDataBlock ≤ searchFrom g start := by
  refine le_sub_mod_ratio h.aligned ?_
  rcases h.start with rfl | hstart
  · exact le_rfl
  · split_ifs
    · exact le_rfl
    · exact hstart

/-- Without a `start` the search begins at the first data block. -/
theorem SearchCall.from_le (h : SearchCall g start num) (hlt : start < searchFrom g start) :
    searchFrom g start = g.firstDataBlock := by
  rw [searchFrom] at hlt ⊢
  split_ifs at hlt ⊢
  · rw [Nat.mod_eq_zero_of_dvd h.aligned, Nat.sub_zero]
  · omega

theorem SearchCall.firstPosition (h : SearchCall g start num) :
    SearchPosition g num g.firstDataBlock := ⟨h.aligned, le_rfl, h.room⟩

theorem getFreeBlocks2_eq (hnum : 0 < num) (n : ℕ) : getFreeBlocks2 g n map start finish num =
    Loop.run (freeStep g map start (searchTo g start finish) num) n (searchFrom g start) := by
  rw [getFreeBlocks2]
  rw [if_neg hnum.ne']
  rfl

/-! ### One round -/

/-- A run of clusters that are all free passes the test. -/
theorem testRange_of_runFree (h : RunFree g map b num) (hb : g.ratio ∣ b) :
    testRange g map b num = true := by
  have hr := g.ratio_pos
  rw [testRange]
  split_ifs
  · rfl
  · refine List.all_eq_true.mpr fun c hc => ?_
    obtain ⟨hle, hlt⟩ := List.mem_range'_1.mp hc
    obtain ⟨k, rfl⟩ := hb
    rw [Nat.mul_div_cancel_left k hr] at hle hlt
    have hend : c < clusterEnd g (g.ratio * k) num := by omega
    -- the first block of the cluster is in the run
    have hin : g.ratio * c < g.ratio * k + num := by
      rw [clusterEnd, Nat.lt_iff_add_one_le, Nat.le_div_iff_mul_le hr, Nat.succ_mul,
        Nat.mul_comm] at hend
      omega
    have hfree := h (g.ratio * c) (Nat.mul_le_mul_left _ hle) hin
    rw [Nat.mul_div_cancel_left c hr] at hfree
    rw [hfree]
    rfl

theorem SearchPosition.testRange_iff (hc : SearchPosition g num c) (hnum : 0 < num) :
    testRange g map c num = true ↔ RunFree g map c num :=
  ⟨fun h _ => free_of_testRange h hc.first hnum hc.last,
    fun h => testRange_of_runFree h hc.aligned⟩

/-- What a round makes of the position it tests. -/
def testStep (g : TableGeometry) (map : ℕ → Bool) (f num z : ℕ) : ℕ ⊕ Option ℕ :=
  if testRange g map z num then .inr (some z)
  else if z + g.ratio ≠ f then .inl (z + g.ratio)
  else .inr none

theorem freeStep_fits (hfits : ¬g.blocksCount ≤ b + num - 1) :
    freeStep g map start f num b = testStep g map f num b := by
  have hhead : ¬(g.blocksCount ≤ b + num - 1 ∧ start < f) := fun hc => hfits hc.1
  rw [freeStep, if_neg hhead]
  dsimp only
  rw [if_neg hfits]
  rfl

theorem freeStep_back (hout : g.blocksCount ≤ b + num - 1) (hback : f ≤ start) :
    freeStep g map start f num b = testStep g map f num g.firstDataBlock := by
  have hhead : ¬(g.blocksCount ≤ b + num - 1 ∧ start < f) := fun hc => not_lt.mpr hback hc.2
  rw [freeStep, if_neg hhead]
  dsimp only
  rw [if_pos hout]
  rfl

theorem testStep_eq (hz : SearchPosition g num z) (hnum : 0 < num) :
    RunFree g map z num ∧ testStep g map f num z = .inr (some z) ∨
      ¬RunFree g map z num ∧ testStep g map f num z =
        if z + g.ratio ≠ f then .inl (z + g.ratio) else .inr none := by
  by_cases hfree : RunFree g map z num
  · exact Or.inl ⟨hfree, if_pos ((hz.testRange_iff hnum).mpr hfree)⟩
  · exact Or.inr ⟨hfree, if_neg (mt (hz.testRange_iff hnum).mp hfree)⟩

/-- The position that a round tests. -/
def SearchAt (g : TableGeometry) (start f num b z : ℕ) : Prop :=
  b + num ≤ g.blocksCount ∧ z = b ∨
    g.blocksCount < b + num ∧ f ≤ start ∧ z = g.firstDataBlock

/-- **A round** ends the search at the end of the device, or it tests a position. -/
theorem SearchCall.round (h : SearchCall g start num) (map : ℕ → Bool) (f : ℕ) (hb : g.ratio ∣ b)
    (hfirst : g.firstDataBlock ≤ b) :
    g.blocksCount < b + num ∧ start < f ∧ freeStep g map start f num b = .inr none ∨
    ∃ z, SearchAt g start f num b z ∧ SearchPosition g num z ∧
      (RunFree g map z num ∧ freeStep g map start f num b = .inr (some z) ∨
        ¬RunFree g map z num ∧ freeStep g map start f num b =
          if z + g.ratio ≠ f then .inl (z + g.ratio) else .inr none) := by
  have hpos := h.pos
  by_cases hfits : b + num ≤ g.blocksCount
  · have hz : SearchPosition g num b := ⟨hb, hfirst, hfits⟩
    refine Or.inr ⟨b, Or.inl ⟨hfits, rfl⟩, hz, ?_⟩
    rw [freeStep_fits (by omega)]
    exact testStep_eq hz hpos
  · have hout : g.blocksCount ≤ b + num - 1 := by omega
    by_cases hlin : start < f
    · exact Or.inl ⟨by omega, hlin, if_pos ⟨hout, hlin⟩⟩
    · have hback := not_lt.mp hlin
      refine Or.inr ⟨g.firstDataBlock, Or.inr ⟨by omega, hback, rfl⟩, h.firstPosition, ?_⟩
      rw [freeStep_back hout hback]
      exact testStep_eq h.firstPosition hpos

/-! ### What has been searched -/

/-- **The invariant.** Nothing is free from the start up to the position; once the search has
gone back to the first data block, nothing from the start on is, and nothing in front of the
position. -/
structure Searched (g : TableGeometry) (map : ℕ → Bool) (start f num b : ℕ) : Prop where
  aligned : g.ratio ∣ b
  first : g.firstDataBlock ≤ b
  done : (searchFrom g start ≤ b ∧ ∀ c, SearchPosition g num c → searchFrom g start ≤ c → c < b →
      ¬RunFree g map c num) ∨
    f ≤ start ∧ (∀ c, SearchPosition g num c → searchFrom g start ≤ c → ¬RunFree g map c num) ∧
      ∀ c, SearchPosition g num c → c < b → ¬RunFree g map c num

theorem SearchCall.searched (h : SearchCall g start num) :
    Searched g map start f num (searchFrom g start) where
  aligned := searchFrom_aligned start
  first := h.first_le
  done := Or.inl ⟨le_rfl, fun _ _ hle hlt => absurd hle (not_le.mpr hlt)⟩

/-- Behind the position there is no position that fits. -/
theorem Searched.from_all (h : Searched g map start f num b) (hout : g.blocksCount < b + num) :
    ∀ c, SearchPosition g num c → searchFrom g start ≤ c → ¬RunFree g map c num := by
  rcases h.done with ⟨-, hdone⟩ | ⟨-, hdone, -⟩
  · intro c hc hle
    have := hc.last
    exact hdone c hc hle (by omega)
  · exact hdone

/-- What is tested comes next in cyclic order. -/
theorem Searched.before (h : Searched g map start f num b) (hz : SearchAt g start f num b z) :
    ∀ c, SearchPosition g num c → CyclicBefore (searchFrom g start) z c →
      ¬RunFree g map c num := by
  intro c hc hbefore
  rw [CyclicBefore] at hbefore
  rcases hz with ⟨-, rfl⟩ | ⟨hout, -, rfl⟩
  · rcases h.done with ⟨hle, hdone⟩ | ⟨-, hfrom, hdone⟩
    · rw [if_pos hle] at hbefore
      exact hdone c hc hbefore.1 hbefore.2
    · split_ifs at hbefore
      · exact hfrom c hc hbefore.1
      · exact hbefore.elim (hfrom c hc) (hdone c hc)
  · have hfirst := hc.first
    split_ifs at hbefore
    · omega
    · exact h.from_all hout c hc (hbefore.resolve_right (not_lt.mpr hfirst))

/-- **The step lemma**: after a position that is not free, the next one. -/
theorem Searched.next (h : Searched g map start f num b) (hz : SearchAt g start f num b z)
    (hpos : SearchPosition g num z) (hfree : ¬RunFree g map z num) :
    Searched g map start f num (z + g.ratio) where
  aligned := Nat.dvd_add hpos.aligned dvd_rfl
  first := hpos.first.trans (Nat.le_add_right _ _)
  done := by
    have hlast : ∀ c, SearchPosition g num c → z ≤ c → c < z + g.ratio → ¬RunFree g map c num := by
      intro c hc hle hlt
      rw [eq_of_lt_add_ratio hpos.aligned hc.aligned hle hlt]
      exact hfree
    rcases hz with ⟨-, rfl⟩ | ⟨hout, hback, rfl⟩
    · rcases h.done with ⟨hle, hdone⟩ | ⟨hback, hfrom, hdone⟩
      · refine Or.inl ⟨hle.trans (Nat.le_add_right _ _), fun c hc hlec hlt => ?_⟩
        rcases Nat.lt_or_ge c z with hcz | hcz
        · exact hdone c hc hlec hcz
        · exact hlast c hc hcz hlt
      · refine Or.inr ⟨hback, hfrom, fun c hc hlt => ?_⟩
        rcases Nat.lt_or_ge c z with hcz | hcz
        · exact hdone c hc hcz
        · exact hlast c hc hcz hlt
    · exact Or.inr ⟨hback, h.from_all hout, fun c hc hlt => hlast c hc hc.first hlt⟩

/-- Where the position is exactly `finish`. -/
theorem Searched.within (h : Searched g map start f num b) (hz : SearchAt g start f num b z)
    (hpos : SearchPosition g num z) (hfree : ¬RunFree g map z num) (hf : z + g.ratio = f) :
    ∀ c, SearchPosition g num c → CyclicWithin (searchFrom g start) f c → ¬RunFree g map c num := by
  intro c hc hwithin
  have hnext := h.next hz hpos hfree
  rw [hf] at hnext
  rw [CyclicWithin] at hwithin
  rcases hnext.done with ⟨hle, hdone⟩ | ⟨-, hfrom, hdone⟩
  · split_ifs at hwithin with hlt
    · exact hdone c hc hwithin.1 hwithin.2
    · -- the search has not come round, so it has passed its start
      have hr := g.ratio_pos
      rcases hz with ⟨-, rfl⟩ | ⟨hout, -, rfl⟩
      · rcases h.done with ⟨hstart, -⟩ | ⟨-, hfrom, hback⟩
        · omega
        · rcases Nat.lt_or_ge c z with hcz | hcz
          · exact hback c hc hcz
          · rcases Nat.lt_or_ge c (z + g.ratio) with hcf | hcf
            · rw [eq_of_lt_add_ratio hpos.aligned hc.aligned hcz hcf]
              exact hfree
            · exact hfrom c hc (by omega)
      · have hall := h.from_all hout
        rcases Nat.lt_or_ge c (searchFrom g start) with hcs | hcs
        · have hcz : c = g.firstDataBlock :=
            eq_of_lt_add_ratio hpos.aligned hc.aligned hc.first (by omega)
          rw [hcz]
          exact hfree
        · exact hall c hc hcs
  · split_ifs at hwithin
    · exact hfrom c hc hwithin.1
    · exact hwithin.elim (hfrom c hc) (hdone c hc)

/-! ### Whether it ends -/

section Ends

variable (h : SearchCall g start num)
include h

/-- The search ends if it does once it is past the last run that fits. -/
theorem ends_of_past
    (hpast : ∀ c, g.ratio ∣ c → g.firstDataBlock ≤ c → g.blocksCount < c + num →
      Loop.Ends (freeStep g map start f num) c) (hb : g.ratio ∣ b) (hfirst : g.firstDataBlock ≤ b) :
    Loop.Ends (freeStep g map start f num) b := by
  induction hgap : g.blocksCount - b using Nat.strong_induction_on generalizing b with
  | _ gap ih =>
    have hr := g.ratio_pos
    have hpos := h.pos
    rcases Nat.lt_or_ge g.blocksCount (b + num) with hout | hfits
    · exact hpast b hb hfirst hout
    rcases h.round map f hb hfirst with ⟨hout, -, -⟩ | ⟨z, hz, -, hstep⟩
    · omega
    rcases hz with ⟨-, rfl⟩ | ⟨hout, -, -⟩
    · rcases hstep with ⟨-, hstep⟩ | ⟨-, hstep⟩
      · exact ⟨_, Loop.leaves_of_inr hstep⟩
      · split_ifs at hstep
        · obtain ⟨r, hr⟩ := ih (g.blocksCount - (z + g.ratio)) (by omega)
            (Nat.dvd_add hb dvd_rfl) (by omega) rfl
          exact ⟨r, Loop.leaves_of_round hstep hr⟩
        · exact ⟨_, Loop.leaves_of_inr hstep⟩
    · omega

/-- It ends if it is in front of a position whose run is free. -/
theorem ends_of_free (hc : SearchPosition g num c) (hfree : RunFree g map c num)
    (hb : g.ratio ∣ b) (hfirst : g.firstDataBlock ≤ b) (hle : b ≤ c) :
    Loop.Ends (freeStep g map start f num) b := by
  induction hgap : c - b using Nat.strong_induction_on generalizing b with
  | _ gap ih =>
    have hr := g.ratio_pos
    have hlast := hc.last
    rcases h.round map f hb hfirst with ⟨hout, -, -⟩ | ⟨z, hz, -, hstep⟩
    · omega
    rcases hz with ⟨-, rfl⟩ | ⟨hout, -, -⟩
    · rcases hstep with ⟨-, hstep⟩ | ⟨hused, hstep⟩
      · exact ⟨_, Loop.leaves_of_inr hstep⟩
      · have hne : z ≠ c := fun heq => hused (heq ▸ hfree)
        have hnext := add_ratio_le hb hc.aligned (by omega)
        split_ifs at hstep
        · obtain ⟨r, hr⟩ := ih (c - (z + g.ratio)) (by omega) (Nat.dvd_add hb dvd_rfl)
            (by omega) hnext rfl
          exact ⟨r, Loop.leaves_of_round hstep hr⟩
        · exact ⟨_, Loop.leaves_of_inr hstep⟩
    · omega

/-- It ends if it is in front of `finish`, and the run in front of that fits. -/
theorem ends_of_finish (hf : g.ratio ∣ f) (hfits : f + num ≤ g.blocksCount + g.ratio)
    (hb : g.ratio ∣ b) (hfirst : g.firstDataBlock ≤ b) (hlt : b < f) :
    Loop.Ends (freeStep g map start f num) b := by
  induction hgap : f - b using Nat.strong_induction_on generalizing b with
  | _ gap ih =>
    have hr := g.ratio_pos
    have hnext := add_ratio_le hb hf hlt
    rcases h.round map f hb hfirst with ⟨hout, -, -⟩ | ⟨z, hz, -, hstep⟩
    · omega
    rcases hz with ⟨-, rfl⟩ | ⟨hout, -, -⟩
    · rcases hstep with ⟨-, hstep⟩ | ⟨-, hstep⟩
      · exact ⟨_, Loop.leaves_of_inr hstep⟩
      · split_ifs at hstep with hne
        · obtain ⟨r, hr⟩ := ih (f - (z + g.ratio)) (by omega) (Nat.dvd_add hb dvd_rfl)
            (by omega) (by omega) rfl
          exact ⟨r, Loop.leaves_of_round hstep hr⟩
        · exact ⟨_, Loop.leaves_of_inr hstep⟩
    · omega

/-- Past the last run that fits, the search goes on as from the first data block. -/
theorem freeStep_past (hout : g.blocksCount < b + num) (hback : f ≤ start) :
    freeStep g map start f num b = freeStep g map start f num g.firstDataBlock := by
  have hroom := h.room
  have hpos := h.pos
  rw [freeStep_back (by omega) hback, freeStep_fits (by omega)]

theorem ends_past_of_ends_first (hback : f ≤ start)
    (hends : Loop.Ends (freeStep g map start f num) g.firstDataBlock)
    (hout : g.blocksCount < b + num) : Loop.Ends (freeStep g map start f num) b := by
  obtain ⟨r, n, hn⟩ := hends
  cases n with
  | zero => cases hn
  | succ n =>
    refine ⟨r, n + 1, ?_⟩
    rw [Loop.run] at hn ⊢
    rw [freeStep_past h hout hback]
    exact hn

/-- **The search ends** if it is to stop somewhere, or something is free. -/
theorem ends_of_stops (finish : ℕ) (hstops : SearchStops g start finish num ∨
      ∃ c, SearchPosition g num c ∧ RunFree g map c num) :
    Loop.Ends (freeStep g map start (searchTo g start finish) num) (searchFrom g start) := by
  refine ends_of_past h (fun b hb hfirst hout => ?_) (searchFrom_aligned start) h.first_le
  rcases Nat.lt_or_ge start (searchTo g start finish) with hlin | hback
  · rcases h.round map (searchTo g start finish) hb hfirst with
      ⟨-, -, hstep⟩ | ⟨z, hz, -, -⟩
    · exact ⟨_, Loop.leaves_of_inr hstep⟩
    · rcases hz with ⟨hfits, -⟩ | ⟨-, hback, -⟩
      · omega
      · omega
  · refine ends_past_of_ends_first h hback ?_ hout
    rcases hstops with (hlin | ⟨hlt, hfits⟩) | ⟨c, hc, hfree⟩
    · exact absurd hback (not_le.mpr hlin)
    · exact ends_of_finish h (searchTo_aligned start finish) hfits h.aligned le_rfl hlt
    · exact ends_of_free h hc hfree h.aligned le_rfl hc.first

/-- **It goes round for ever** otherwise. -/
theorem not_ends_of_not_stops {finish : ℕ} (hstops : ¬SearchStops g start finish num)
    (hused : ∀ c, SearchPosition g num c → ¬RunFree g map c num) :
    ¬Loop.Ends (freeStep g map start (searchTo g start finish) num) (searchFrom g start) := by
  rw [SearchStops, not_or] at hstops
  refine Loop.not_ends_of_closed (P := fun b => g.ratio ∣ b ∧ g.firstDataBlock ≤ b) ?_
    ⟨searchFrom_aligned start, h.first_le⟩
  rintro b ⟨hb, hfirst⟩
  rcases h.round map (searchTo g start finish) hb hfirst with
    ⟨-, hlin, -⟩ | ⟨z, -, hz, hstep⟩
  · exact absurd hlin hstops.1
  rcases hstep with ⟨hfree, -⟩ | ⟨-, hstep⟩
  · exact absurd hfree (hused z hz)
  · have hne : z + g.ratio ≠ searchTo g start finish := by
      intro heq
      have hr := g.ratio_pos
      have hzf := hz.first
      have hzl := hz.last
      refine hstops.2 ⟨?_, ?_⟩
      · omega
      · omega
    rw [if_pos hne] at hstep
    exact ⟨z + g.ratio, hstep, Nat.dvd_add hz.aligned dvd_rfl,
      hz.first.trans (Nat.le_add_right _ _)⟩

end Ends

/-! ### The search -/

/-- What the search is left with is right. -/
theorem SearchCall.leaves_right (h : SearchCall g start num) {r : Option ℕ}
    (hleaves : Loop.Leaves (freeStep g map start f num) (searchFrom g start) r) :
    (∀ b ∈ r, g.firstDataBlock ≤ b ∧ b + num ≤ g.blocksCount ∧ RunFree g map b num ∧
      ∀ c, SearchPosition g num c → CyclicBefore (searchFrom g start) b c → ¬RunFree g map c num) ∧
    (r = none → ∀ c, SearchPosition g num c → CyclicWithin (searchFrom g start) f c →
      ¬RunFree g map c num) := by
  obtain ⟨b, hreach, hlast⟩ := Loop.exists_last_of_leaves hleaves
  have hinv : Searched g map start f num b := by
    refine Loop.invariant (P := Searched g map start f num) ?_ hreach h.searched
    intro a c ha hround
    rw [Loop.Round] at hround
    rcases h.round map f ha.aligned ha.first with
      ⟨-, -, hstep⟩ | ⟨z, hz, hpos, ⟨-, hstep⟩ | ⟨hused, hstep⟩⟩
    · rw [hstep] at hround
      cases hround
    · rw [hstep] at hround
      cases hround
    · rw [hstep] at hround
      split_ifs at hround
      obtain rfl := Sum.inl.inj hround
      exact ha.next hz hpos hused
  rcases h.round map f hinv.aligned hinv.first with
    ⟨hout, hlin, hstep⟩ | ⟨z, hz, hpos, ⟨hfree, hstep⟩ | ⟨hused, hstep⟩⟩
  · rw [hlast] at hstep
    obtain rfl := Sum.inr.inj hstep
    refine ⟨fun b hb => absurd hb (Option.not_mem_none b),
      fun _ c hc hwithin => hinv.from_all hout c hc ?_⟩
    rw [CyclicWithin] at hwithin
    split_ifs at hwithin with hlt
    · exact hwithin.1
    · -- `finish` is behind `start`, but not behind where the search began
      rw [h.from_le (by omega)]
      exact hc.first
  · rw [hlast] at hstep
    obtain rfl := Sum.inr.inj hstep
    refine ⟨fun b hb => ?_, fun hnone => absurd hnone (Option.some_ne_none _)⟩
    rcases Option.some.inj hb with rfl
    exact ⟨hpos.first, hpos.last, hfree, hinv.before hz⟩
  · rw [hlast] at hstep
    split_ifs at hstep with hf
    obtain rfl := Sum.inr.inj hstep
    exact ⟨fun b hb => absurd hb (Option.not_mem_none b),
      fun _ => hinv.within hz hpos hused (not_not.mp hf)⟩

/-- **The search for free blocks ends and is exact** if and only if it is to stop at a position
that it comes to, or there is something to be found. -/
theorem freeSearchRight_iff (h : SearchCall g start num) (map : ℕ → Bool) (finish : ℕ) :
    FreeSearchRight g map start finish num ↔
      SearchStops g start finish num ∨ ∃ c, SearchPosition g num c ∧ RunFree g map c num := by
  constructor
  · rintro ⟨n, r, hn, -⟩
    rw [getFreeBlocks2_eq h.pos] at hn
    by_contra hnot
    rw [not_or, not_exists] at hnot
    exact not_ends_of_not_stops h hnot.1 (fun c hc hfree => hnot.2 c ⟨hc, hfree⟩) ⟨r, n, hn⟩
  · intro hstops
    obtain ⟨r, hleaves⟩ := ends_of_stops h finish hstops
    obtain ⟨n, hn⟩ := hleaves
    refine ⟨n, r, ?_, h.leaves_right ⟨n, hn⟩⟩
    rw [getFreeBlocks2_eq h.pos]
    exact hn

/-- A device of eight blocks, without clusters. -/
def usedDevice : TableGeometry where
  firstDataBlock := 0
  blocksCount := 8
  blocksPerGroup := 8
  groupDescCount := 1
  inodeBlocksPerGroup := 2
  stride := 0
  flexBg := false
  logGroupsPerFlex := 0
  clusterBits := 0

theorem freeSearchRight_iff_eight : FreeSearchRight usedDevice (fun _ => true) 5 0 2 ↔
    SearchStops usedDevice 5 0 2 ∨
      ∃ c, SearchPosition usedDevice 2 c ∧ RunFree usedDevice (fun _ => true) c 2 :=
  freeSearchRight_iff ⟨by decide, by decide, by decide, by decide⟩ _ _

/-- Three blocks are searched for from the last block on, and none is free: behind the last run
that fits the search goes back to block 0, and never comes to block 7. -/
theorem not_freeSearchRight_last : ¬FreeSearchRight usedDevice (fun _ => true) 7 0 3 := by
  rintro ⟨n, r, hn, -⟩
  have h : SearchCall usedDevice 7 3 := ⟨by decide, by decide, by decide, by decide⟩
  rw [getFreeBlocks2_eq h.pos] at hn
  refine not_ends_of_not_stops h (by rw [SearchStops]; decide) (fun c _ hfree => ?_) ⟨r, n, hn⟩
  exact absurd (hfree c le_rfl (by omega)) nofun

end E2fsprogs
