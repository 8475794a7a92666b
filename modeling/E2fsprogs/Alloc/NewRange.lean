import E2fsprogs.Alloc.StatsRange
import E2fsprogs.Lib.Loop

/-!
# Allocating a range of blocks

`ext2fs_new_range` of `lib/ext2fs/alloc.c`. The search goes from free run to free run, from the goal
to the end of the device and then from the first block on. It has two ways to begin again: when the
last run touches the end of the device, which `looped` notes, and when there is no free block any
more, which nothing notes. In the second case it goes round for ever if no run is long enough
(`E2fsprogs.RangeCycles`).

A tree without nodes answers that there is no clear bit, and then nothing is found.
-/

namespace E2fsprogs

/-- What `ext2fs_new_range` fails with. -/
inductive RangeErr
  | invalidArgument
  | einval
  | allocFail
  deriving DecidableEq

section NewRange

variable (g : StatsGeometry) (base : ℕ) (map : BlockBitmap) (flags goal len : ℕ)

/-- `EXT2_NEWRANGE_FIXED_GOAL`. -/
def fixedGoal : Bool := flags.testBit 0

/-- `EXT2_NEWRANGE_MIN_LENGTH`. -/
def minLength : Bool := flags.testBit 1

/-- The goal that the search begins with. -/
def rangeGoal : ℕ := if goal = 0 ∨ g.blocksCount ≤ goal then g.firstDataBlock else goal

/-- What is done with a free block: `stop` is the first block behind the run. -/
def newRangeRun (looped : Bool) (start stop : ℕ) : (ℕ × Bool) ⊕ Except RangeErr (ℕ × ℕ) :=
  if minLength flags = false ∨ len ≤ stop - start then .inr (.ok (start, stop - start))
  else if fixedGoal flags then .inr (.error .allocFail)
  else if g.blocksCount ≤ stop then
    if looped then .inr (.error .allocFail) else .inl (g.firstDataBlock, true)
  else .inl (stop, looped)

/-- A round of the loop of `ext2fs_new_range`, with `start` and `looped`. -/
def newRangeStep (s : ℕ × Bool) : (ℕ × Bool) ⊕ Except RangeErr (ℕ × ℕ) :=
  if s.2 = true ∧ goal < s.1 then .inr (.error .allocFail)
  else
    match map.findFirstZero base s.1 (g.blocksCount - 1) with
    | .error .einval => .inr (.error .einval)
    | .error .enoent =>
      if fixedGoal flags ∨ s.1 = g.firstDataBlock then .inr (.error .allocFail)
      else .inl (g.firstDataBlock, s.2)
    | .ok start =>
      if fixedGoal flags ∧ start ≠ goal then .inr (.error .allocFail)
      else
        let b := Nat.min ((start + len - 1) % 2 ^ 64) (g.blocksCount - 1)
        match map.findFirstSet base start b with
        | .error .einval => .inr (.error .einval)
        | .error .enoent => newRangeRun g flags len s.2 start (b + 1)
        | .ok stop => newRangeRun g flags len s.2 start stop

/-- The groups whose `EXT2_BG_BLOCK_UNINIT` is cleared for a range that has been found. -/
def clearRangeUninit (start stop : ℕ) (uninit : ℕ → Bool) : ℕ → Bool :=
  (List.range ((stop - start + g.blocksPerGroup - 1) / g.blocksPerGroup)).foldl
    (fun uninit i =>
      let group := g.groupOf (start + i * g.blocksPerGroup)
      if g.groupDescCount ≤ group ∨ g.hasGroupDescCsum = false then uninit
      else Function.update uninit group false) uninit

/-- `ext2fs_new_range` without a callback, with a loop of at most `n` rounds, and the flags of the
groups. -/
def newRange (n : ℕ) (uninit : ℕ → Bool) : Option (Except RangeErr (ℕ × ℕ) × (ℕ → Bool)) :=
  if len = 0 ∨ 4 ≤ flags then some (.error .invalidArgument, uninit)
  else (Loop.run (newRangeStep g base map flags (rangeGoal g goal) len) n (rangeGoal g goal,
    false)).map fun r =>
    match r with
    | .ok (start, plen) => (r, clearRangeUninit g start (start + plen) uninit)
    | .error _ => (r, uninit)

/-- `ext2fs_new_range` returns so. -/
def NewRangeReturns (uninit : ℕ → Bool) (r : Except RangeErr (ℕ × ℕ)) : Prop :=
  ∃ n uninit', newRange g base map flags goal len n uninit = some (r, uninit')

/-- A block whose bit is clear. -/
def FreeBlock (b : ℕ) : Prop := map.bit (b >>> map.clusterBits) = false

/-- A run of free blocks that satisfies the flags. -/
structure FreeRange (p n : ℕ) : Prop where
  first_le : g.firstDataBlock ≤ p
  le_count : p + n ≤ g.blocksCount
  free : ∀ b, p ≤ b → b < p + n → FreeBlock map b
  pos : 1 ≤ n
  le_len : n ≤ len
  min_length : minLength flags = true → n = len
  fixed_goal : fixedGoal flags = true → p = rangeGoal g goal

/-- **`ext2fs_new_range` returns, with a run if there is one.** -/
structure NewRangeRight (uninit : ℕ → Bool) : Prop where
  returns : ∃ r, NewRangeReturns g base map flags goal len uninit r
  run : ∀ p n, NewRangeReturns g base map flags goal len uninit (.ok (p, n)) →
    FreeRange g map flags goal len p n
  none : NewRangeReturns g base map flags goal len uninit (.error .allocFail) →
    ∀ p n, ¬FreeRange g map flags goal len p n

/-- All of `len` blocks are free. -/
def LongRun (p : ℕ) : Prop := p + len ≤ g.blocksCount ∧ ∀ b, p ≤ b → b < p + len → FreeBlock map b

/-- The search goes round for ever: runs have a minimal length and may begin anywhere, but none is
so long; there are free blocks, but not at the end of the device; and no number wraps around that
the end of a run is looked for with. -/
structure RangeCycles : Prop where
  min_length : minLength flags = true
  any_goal : fixedGoal flags = false
  short : ∀ p, g.firstDataBlock ≤ p → ¬LongRun g map len p
  last_used : ¬FreeBlock map (g.blocksCount - 1)
  some_free : ∃ b, g.firstDataBlock ≤ b ∧ b < g.blocksCount ∧ FreeBlock map b
  no_wrap : ∀ b, g.firstDataBlock ≤ b → b < g.blocksCount → FreeBlock map b →
    (b = g.firstDataBlock ∨ b = rangeGoal g goal ∨ ¬FreeBlock map (b - 1)) → b + len - 1 < 2 ^ 64

variable {g base map flags goal len}
    {bal : SearchTree RbExtent → List RbExtent → SearchTree RbExtent} {start stop : ℕ}
  {looped : Bool}

/-! ### What is found -/

/-- The first block of a cluster that is found. -/
theorem FindsBlock.findsBlocks {P : ℕ → Prop} {clusterBits : ℕ} {r : Except FindErr ℕ}
    (h : FindsBlock P clusterBits start stop r)
    (hle : start ≤ stop) : FindsBit (fun b => P (b >>> clusterBits)) start stop r := by
  have hpos := Nat.two_pow_pos clusterBits
  cases r with
  | error e => exact ⟨h.1, fun b hlo hhi => h.2 _ (shiftRight_mono hlo _) (shiftRight_mono hhi _)⟩
  | ok n =>
    obtain ⟨k, ⟨⟨hlo, hhi, hk⟩, hleast⟩, rfl⟩ := h
    rw [Nat.shiftRight_eq_div_pow] at hlo hhi
    have hstop : k <<< clusterBits ≤ stop := by
      rw [Nat.shiftLeft_eq]
      exact (Nat.le_div_iff_mul_le hpos).mp hhi
    have hcluster : max start (k <<< clusterBits) >>> clusterBits = k := by
      rcases le_total start (k <<< clusterBits) with hle' | hge
      · rw [max_eq_right hle', Nat.shiftLeft_shiftRight]
      · rw [max_eq_left hge, Nat.shiftRight_eq_div_pow]
        rw [Nat.shiftLeft_eq] at hge
        exact le_antisymm hlo ((Nat.le_div_iff_mul_le hpos).mpr hge)
    refine ⟨⟨le_max_left _ _, max_le hle hstop, ?_⟩, fun b hb => ?_⟩
    · show P (_ >>> clusterBits)
      rwa [hcluster]
    · obtain ⟨h1, h2, h3⟩ := hb
      have hkb := hleast ⟨shiftRight_mono h1 _, shiftRight_mono h2 _, h3⟩
      rw [Nat.shiftRight_eq_div_pow] at hkb
      refine max_le h1 ?_
      rw [Nat.shiftLeft_eq]
      exact (Nat.le_div_iff_mul_le hpos).mp hkb

/-- The blocks of the device are in the bitmap. -/
theorem BlockMapOf.blocks_in (hmap : BlockMapOf g bal map) (hstart : g.firstDataBlock ≤ start)
    (hstop : stop < g.blocksCount) :
    map.first ≤ start >>> map.clusterBits ∧ stop >>> map.clusterBits ≤ map.last := by
  rw [hmap.first, hmap.last, hmap.clusterBits, Nat.shiftRight_eq_div_pow, Nat.shiftRight_eq_div_pow]
  exact ⟨Nat.div_le_div_right hstart, Nat.div_le_div_right (by omega)⟩

/-- The first free block. -/
theorem BlockMapOf.findZero (hbal : ∀ t l, (bal t l).inorder = l) (hmap : BlockMapOf g bal map)
    (hne : ¬map.Empty) (hstart : g.firstDataBlock ≤ start) (hlt : start < g.blocksCount) :
    FindsBit (FreeBlock map) start (g.blocksCount - 1)
      (map.findFirstZero base start (g.blocksCount - 1)) := by
  obtain ⟨h1, h2⟩ :=
    @BlockMapOf.blocks_in g map bal start (g.blocksCount - 1) hmap hstart (by omega)
  exact (findFirstZero_exact hbal hmap.reach (by omega) h1 h2 hne).findsBlocks (by omega)

/-- The first used block. -/
theorem BlockMapOf.findSet (hbal : ∀ t l, (bal t l).inorder = l) (hmap : BlockMapOf g bal map)
    (hstart : g.firstDataBlock ≤ start) (hle : start ≤ stop) (hlt : stop < g.blocksCount) :
    FindsBit (fun b => ¬FreeBlock map b) start stop (map.findFirstSet base start stop) := by
  obtain ⟨h1, h2⟩ := @BlockMapOf.blocks_in g map bal start stop hmap hstart hlt
  refine ((findFirstSet_spec hbal hmap.reach hle h1 h2).findsBlocks hle).congr fun b _ _ => ?_
  rw [FreeBlock, Bool.not_eq_false]

/-- A range that ends before it begins is refused. -/
theorem findFirstSet_refused (h : stop < start) :
    map.findFirstSet base start stop = .error .einval := by
  cases map with
  | rb c first last bp => exact if_pos (Or.inr (Or.inr h))
  | ba c first last b => exact if_pos (Or.inr (Or.inr h))
  | legacy first last realEnd b =>
    rw [BlockBitmap.findFirstSet, if_pos (Or.inr (Or.inr h)), ite_self]

/-- So is one that begins before the bitmap. -/
theorem findFirstZero_refused (h : start >>> map.clusterBits < map.first) :
    map.findFirstZero base start stop = .error .einval := by
  cases map with
  | rb c first last bp => exact if_pos (Or.inl h)
  | ba c first last b => exact if_pos (Or.inl h)
  | legacy first last realEnd b =>
    rw [BlockBitmap.findFirstZero, if_pos (Or.inl h : start < first ∨ _), ite_self]

/-! ### A round -/

/-- What a round does with the first free block of the rest, if there is one. -/
inductive RoundEnds (g : StatsGeometry) (base : ℕ) (map : BlockBitmap) (flags goal len : ℕ)
    (start : ℕ) (looped : Bool) : Prop
  /-- There is none. -/
  | drained (none : ∀ b, start ≤ b → b < g.blocksCount → ¬FreeBlock map b)
      (step : newRangeStep g base map flags goal len (start, looped) =
        if fixedGoal flags ∨ start = g.firstDataBlock then .inr (.error .allocFail)
        else .inl (g.firstDataBlock, looped))
  /-- It is not the goal. -/
  | elsewhere (z : ℕ) (hz : IsLeast {b | start ≤ b ∧ b < g.blocksCount ∧ FreeBlock map b} z)
    (fixed : fixedGoal flags = true)
      (ne : z ≠ goal) (step : newRangeStep g base map flags goal len (start, looped) =
        .inr (.error .allocFail))
  /-- The end of the run is looked for with a number that wraps around. -/
  | wraps (z : ℕ) (hz : IsLeast {b | start ≤ b ∧ b < g.blocksCount ∧ FreeBlock map b} z) (wrap :
    2 ^ 64 ≤ z + len - 1)
      (step : newRangeStep g base map flags goal len (start, looped) = .inr (.error .einval))
  /-- It begins a run up to `stop`, which is as long as wanted or cannot be longer. -/
  | run (z stop : ℕ) (hz : IsLeast {b | start ≤ b ∧ b < g.blocksCount ∧ FreeBlock map b} z) (wrap :
    z + len - 1 < 2 ^ 64)
      (fixed : fixedGoal flags = true → z = goal) (lt : z < stop) (le_count : stop ≤ g.blocksCount)
        (le_len : stop ≤ z + len)
      (free : ∀ b, z ≤ b → b < stop → FreeBlock map b)
      (ends : stop < z + len → stop = g.blocksCount ∨ ¬FreeBlock map stop)
      (step : newRangeStep g base map flags goal len (start, looped) =
        newRangeRun g flags len looped z stop)

/-- **A round of the search.** -/
theorem newRangeStep_spec (hbal : ∀ t l, (bal t l).inorder = l) (hmap : BlockMapOf g bal map)
    (hne : ¬map.Empty) (hlen : 1 ≤ len) (hlen64 : len < 2 ^ 64) (hstart : g.firstDataBlock ≤ start)
    (hlt : start < g.blocksCount)
    (hcount : g.blocksCount < 2 ^ 64) (hloop : looped = true → start ≤ goal) :
    RoundEnds g base map flags goal len start looped := by
  have hfind := @BlockMapOf.findZero g base map bal start hbal hmap hne hstart hlt
  have hcond : ¬(looped = true ∧ goal < start) := fun h => absurd (hloop h.1) (not_le.mpr h.2)
  have hstep := Eq.refl (newRangeStep g base map flags goal len (start, looped))
  conv_rhs at hstep => rw [newRangeStep, if_neg hcond]
  dsimp only at hstep
  -- no block from `start` on is free, or `z` is the first one
  cases hzero : map.findFirstZero base start (g.blocksCount - 1) with
  | error e =>
    rw [hzero] at hfind
    obtain ⟨rfl, hnone⟩ := hfind
    rw [hzero] at hstep
    exact .drained (fun b h1 h2 => hnone b h1 (by omega)) hstep
  | ok z =>
    rw [hzero] at hfind hstep
    obtain ⟨⟨hsz, hzlast, hz⟩, hleast⟩ := hfind
    have hisleast : IsLeast {b | start ≤ b ∧ b < g.blocksCount ∧ FreeBlock map b} z :=
      ⟨⟨hsz, by omega, hz⟩, fun b hb => hleast ⟨hb.1, by have := hb.2.1; omega, hb.2.2⟩⟩
    dsimp only at hstep
    by_cases hfixed : fixedGoal flags = true ∧ z ≠ goal
    · rw [if_pos hfixed] at hstep
      exact .elsewhere z hisleast hfixed.1 hfixed.2 hstep
    rw [if_neg hfixed] at hstep
    have hgoal : fixedGoal flags = true → z = goal :=
      fun hf => not_not.mp fun hzg => hfixed ⟨hf, hzg⟩
    -- the end of the run that is looked for is taken in 64 bits
    rcases Nat.lt_or_ge (z + len - 1) (2 ^ 64) with hnowrap | hwrap
    · rw [Nat.mod_eq_of_lt hnowrap] at hstep
      obtain ⟨b, hb⟩ : ∃ b, b = Nat.min (z + len - 1) (g.blocksCount - 1) := ⟨_, rfl⟩
      have hb1 : b ≤ z + len - 1 := hb ▸ Nat.min_le_left _ _
      have hb2 : b ≤ g.blocksCount - 1 := hb ▸ Nat.min_le_right _ _
      have hb3 : z ≤ b := hb ▸ Nat.le_min.mpr ⟨by omega, hzlast⟩
      have hb4 : b = z + len - 1 ∨ b = g.blocksCount - 1 := by
        rcases Nat.le_total (z + len - 1) (g.blocksCount - 1) with hle | hle
        · exact Or.inl (hb.trans (Nat.min_eq_left hle))
        · exact Or.inr (hb.trans (Nat.min_eq_right hle))
      rw [← hb] at hstep
      have hset :=
        @BlockMapOf.findSet g base map bal z b hbal hmap (hstart.trans hsz) hb3 (by omega)
      cases hused : map.findFirstSet base z b with
      | error e =>
        rw [hused] at hset hstep
        obtain ⟨rfl, hall⟩ := hset
        refine .run z (b + 1) hisleast hnowrap hgoal (by omega) (by omega) (by omega)
          (fun c h1 h2 => not_not.mp (hall c h1 (by omega))) (fun h => Or.inl ?_) hstep
        omega
      | ok stop =>
        rw [hused] at hset hstep
        obtain ⟨⟨hzs, hsb, hstop⟩, hleast'⟩ := hset
        have hne : z ≠ stop := by
          rintro rfl
          exact hstop hz
        refine .run z stop hisleast hnowrap hgoal (by omega) (by omega) (by omega)
          (fun c h1 h2 => ?_)
          (fun _ => Or.inr hstop) hstep
        by_contra hc
        exact absurd (hleast' ⟨h1, by omega, hc⟩) (not_le.mpr h2)
    · have hmin : Nat.min ((z + len - 1) % 2 ^ 64) (g.blocksCount - 1) < z := by
        have hmod : (z + len - 1) % 2 ^ 64 < z := by omega
        exact (Nat.min_le_left _ _).trans_lt hmod
      rw [findFirstSet_refused hmin] at hstep
      exact .wraps z hisleast hwrap hstep

/-! ### Runs that are passed over -/

/-- No long run begins where the search has been. -/
theorem not_longRun_of_round {z : ℕ}
    (hz : IsLeast {b | start ≤ b ∧ b < g.blocksCount ∧ FreeBlock map b} z)
    (hshort : stop - z < len) (ends : stop < z + len → stop = g.blocksCount ∨ ¬FreeBlock map stop)
    {p : ℕ} (hp : start ≤ p) (hps : p < stop) : ¬LongRun g map len p := by
  rintro ⟨hle, hfree⟩
  have hzp : z ≤ p := hz.2 ⟨hp, by omega, hfree p (le_refl p) (by omega)⟩
  rcases ends (by omega) with hend | hused
  · omega
  · exact hused (hfree stop hps.le (by omega))

/-- The block begins a run of free blocks, as far as they are at or behind `start`. -/
def BeginsRun (map : BlockBitmap) (start b : ℕ) : Prop :=
  start ≤ b ∧ FreeBlock map b ∧ (b = start ∨ ¬FreeBlock map (b - 1))

/-- What the search from `start` to the end of the device comes to, when runs have a minimal length
and may begin anywhere, and the search has not begun again at the first block. -/
inductive PassEnds (g : StatsGeometry) (base : ℕ) (map : BlockBitmap) (flags goal len start : ℕ) :
    Prop
  /-- A run is long enough. -/
  | found (p : ℕ) (le : start ≤ p) (long : LongRun g map len p)
      (leaves : Loop.Leaves (newRangeStep g base map flags goal len) (start, false) (.ok (p, len)))
  /-- A number wraps around. -/
  | wraps (b : ℕ) (lt : b < g.blocksCount) (begins : BeginsRun map start b) (wrap :
    2 ^ 64 ≤ b + len - 1)
      (leaves : Loop.Leaves (newRangeStep g base map flags goal len) (start,
        false) (.error .einval))
  /-- The last run touches the end of the device. -/
  | touches (short : ∀ p, start ≤ p → ¬LongRun g map len p) (last :
    FreeBlock map (g.blocksCount - 1))
      (reach : Loop.Reach (newRangeStep g base map flags goal len) (start,
        false) (g.firstDataBlock, true))
  /-- There are no free blocks any more. -/
  | drained (s : ℕ) (le : start ≤ s) (lt : s < g.blocksCount) (none : ∀ b, s ≤ b →
    b < g.blocksCount → ¬FreeBlock map b)
      (short : ∀ p, start ≤ p → ¬LongRun g map len p)
      (some_free : s ≠ start → ∃ b, start ≤ b ∧ b < g.blocksCount ∧ FreeBlock map b)
      (no_wrap : ∀ b, b < g.blocksCount → BeginsRun map start b → b + len - 1 < 2 ^ 64)
      (reach : Loop.Reach (newRangeStep g base map flags goal len) (start, false) (s, false))

theorem LongRun.free_first {p : ℕ} (hlen : 1 ≤ len) (h : LongRun g map len p) :
    p < g.blocksCount ∧ FreeBlock map p :=
  ⟨by have := h.1; omega, h.2 p (le_refl p) (by omega)⟩

theorem beginsRun_of_least {z : ℕ}
    (hz : IsLeast {b | start ≤ b ∧ b < g.blocksCount ∧ FreeBlock map b} z) :
    BeginsRun map start z := by
  refine ⟨hz.1.1, hz.1.2.2, ?_⟩
  rcases Nat.eq_or_lt_of_le hz.1.1 with heq | hlt
  · exact Or.inl heq.symm
  · have hzc := hz.1.2.1
    refine Or.inr fun hfree => ?_
    have := hz.2 (show z - 1 ∈ _ from ⟨by omega, by omega, hfree⟩)
    omega

/-- Behind a used block, a run that begins begins for every start. -/
theorem BeginsRun.of_used {b : ℕ} (hle : start ≤ stop) (hused : ¬FreeBlock map stop)
    (h : BeginsRun map stop b) :
    BeginsRun map start b := by
  refine ⟨hle.trans h.1, h.2.1, h.2.2.imp_left ?_⟩
  rintro rfl
  exact absurd h.2.1 hused

/-- **A pass of the search.** -/
theorem newRange_pass (hbal : ∀ t l, (bal t l).inorder = l) (hmap : BlockMapOf g bal map)
    (hne : ¬map.Empty) (hlen : 1 ≤ len) (hlen64 : len < 2 ^ 64) (hstart : g.firstDataBlock ≤ start)
    (hlt : start < g.blocksCount) (hcount : g.blocksCount < 2 ^ 64) (hmin : minLength flags = true)
    (hany : fixedGoal flags = false) :
    PassEnds g base map flags goal len start := by
  obtain ⟨k, hk⟩ : ∃ k, k = g.blocksCount - start := ⟨_, rfl⟩
  induction k using Nat.strong_induction_on generalizing start with
  | _ k ih =>
    cases @newRangeStep_spec g base map flags goal len bal start false hbal hmap hne hlen hlen64
      hstart hlt hcount nofun with
    | drained hnone hstep =>
      refine .drained start (le_refl _) hlt hnone (fun p hp hlong => ?_) (fun h => absurd rfl h)
        (fun b hb hbegin => ?_)
        Relation.ReflTransGen.refl
      · obtain ⟨h1, h2⟩ := hlong.free_first hlen
        exact hnone p hp h1 h2
      · exact absurd hbegin.2.1 (hnone b hbegin.1 hb)
    | elsewhere z hz hfixed => rw [hany] at hfixed; cases hfixed
    | wraps z hz hwrap hstep =>
      exact .wraps z hz.1.2.1 (beginsRun_of_least hz) hwrap (Loop.leaves_of_inr hstep)
    | run z stop hz hwrap hfixed hzs hle hlen' hfree hends hstep =>
      have hsz : start ≤ z := hz.1.1
      rw [newRangeRun] at hstep
      by_cases hlong : len ≤ stop - z
      · rw [if_pos (Or.inr hlong), show stop - z = len by omega] at hstep
        exact .found z hsz ⟨by omega, fun b h1 h2 => hfree b h1 (by omega)⟩
          (Loop.leaves_of_inr hstep)
      rw [if_neg (by rw [hmin]; simpa using hlong), if_neg (by rw [hany]; decide)] at hstep
      have hends := hends (by omega)
      have hpassed : ∀ p, start ≤ p → p < stop → ¬LongRun g map len p := fun p hp hps =>
        not_longRun_of_round hz (by omega) (fun _ => hends) hp hps
      by_cases hend : g.blocksCount ≤ stop
      · rw [if_pos hend, if_neg Bool.false_ne_true] at hstep
        refine .touches (fun p hp hlongp => ?_) (hfree _ (by omega) (by omega))
          (Relation.ReflTransGen.single hstep)
        exact hpassed p hp (by have := (hlongp.free_first hlen).1; omega) hlongp
      · rw [if_neg hend] at hstep
        have hused : ¬FreeBlock map stop := hends.resolve_left (by omega)
        have hshort : (∀ p, stop ≤ p → ¬LongRun g map len p) → ∀ p, start ≤ p →
            ¬LongRun g map len p := by
          intro hrest p hp
          rcases Nat.lt_or_ge p stop with hps | hps
          · exact hpassed p hp hps
          · exact hrest p hps
        cases @ih (g.blocksCount - stop) (by omega) stop (by omega) (by omega) rfl with
        | found p hp hlongp hleaves =>
          exact .found p (by omega) hlongp (Loop.leaves_of_round hstep hleaves)
        | wraps b hb hbegin hw hleaves =>
          exact .wraps b hb (hbegin.of_used (by omega) hused) hw
            (Loop.leaves_of_round hstep hleaves)
        | touches hrest hlast hreach =>
          exact .touches (hshort hrest) hlast (Relation.ReflTransGen.head hstep hreach)
        | drained s hs hsc hnone hrest hsome hnowrap hreach =>
          refine .drained s (by omega) hsc hnone (hshort hrest) (fun _ => ⟨z, hz.1⟩)
            (fun b hb hbegin => ?_)
            (Relation.ReflTransGen.head hstep hreach)
          obtain ⟨hsb, hfreeb, hfirst⟩ := hbegin
          have hzb : z ≤ b := hz.2 ⟨hsb, hb, hfreeb⟩
          rcases Nat.lt_or_ge b stop with hbs | hbs
          · -- only the first block of the run
            have hbz : b = z := by
              rcases Nat.eq_or_lt_of_le hzb with heq | hlt'
              · exact heq.symm
              · refine hfirst.elim (fun h => by omega) fun h =>
                  absurd (hfree (b - 1) (by omega) (by omega)) h
            rw [hbz]
            exact hwrap
          · exact hnowrap b hb ⟨hbs, hfreeb, Or.inr (hfirst.resolve_left (by omega))⟩

/-- What the search comes to when it has begun again at the first block, with a free block at the
end of the device: it leaves. -/
inductive SecondPassEnds (g : StatsGeometry) (base : ℕ) (map : BlockBitmap)
    (flags goal len start : ℕ) : Prop
  | found (p : ℕ) (le : start ≤ p) (long : LongRun g map len p)
      (leaves : Loop.Leaves (newRangeStep g base map flags goal len) (start, true) (.ok (p, len)))
  | wraps (leaves : Loop.Leaves (newRangeStep g base map flags goal len) (start,
    true) (.error .einval))
  | fails (short : ∀ p, start ≤ p → p ≤ goal → ¬LongRun g map len p)
      (leaves : Loop.Leaves (newRangeStep g base map flags goal len) (start,
        true) (.error .allocFail))

/-- **The second pass.** -/
theorem newRange_second (hbal : ∀ t l, (bal t l).inorder = l) (hmap : BlockMapOf g bal map)
    (hne : ¬map.Empty) (hlen : 1 ≤ len) (hlen64 : len < 2 ^ 64) (hstart : g.firstDataBlock ≤ start)
    (hlt : start < g.blocksCount) (hcount : g.blocksCount < 2 ^ 64) (hmin : minLength flags = true)
    (hany : fixedGoal flags = false) (hlast : FreeBlock map (g.blocksCount - 1)) :
    SecondPassEnds g base map flags goal len start := by
  obtain ⟨k, hk⟩ : ∃ k, k = g.blocksCount - start := ⟨_, rfl⟩
  induction k using Nat.strong_induction_on generalizing start with
  | _ k ih =>
    by_cases hgoal : goal < start
    · refine .fails (fun p h1 h2 => by omega) (Loop.leaves_of_inr ?_)
      rw [newRangeStep, if_pos ⟨rfl, hgoal⟩]
    cases @newRangeStep_spec g base map flags goal len bal start true hbal hmap hne hlen hlen64
      hstart hlt hcount
      (fun _ => not_lt.mp hgoal) with
    | drained hnone hstep => exact absurd hlast (hnone _ (by omega) (by omega))
    | elsewhere z hz hfixed => rw [hany] at hfixed; cases hfixed
    | wraps z hz hwrap hstep => exact .wraps (Loop.leaves_of_inr hstep)
    | run z stop hz hwrap hfixed hzs hle hlen' hfree hends hstep =>
      have hsz : start ≤ z := hz.1.1
      rw [newRangeRun] at hstep
      by_cases hlong : len ≤ stop - z
      · rw [if_pos (Or.inr hlong), show stop - z = len by omega] at hstep
        exact .found z hsz ⟨by omega, fun b h1 h2 => hfree b h1 (by omega)⟩
          (Loop.leaves_of_inr hstep)
      rw [if_neg (by rw [hmin]; simpa using hlong), if_neg (by rw [hany]; decide)] at hstep
      have hends := hends (by omega)
      have hpassed : ∀ p, start ≤ p → p < stop → ¬LongRun g map len p := fun p hp hps =>
        not_longRun_of_round hz (by omega) (fun _ => hends) hp hps
      by_cases hend : g.blocksCount ≤ stop
      · rw [if_pos hend, if_pos rfl] at hstep
        refine .fails (fun p hp _ hlongp => ?_) (Loop.leaves_of_inr hstep)
        exact hpassed p hp (by have := (hlongp.free_first hlen).1; omega) hlongp
      · rw [if_neg hend] at hstep
        cases @ih (g.blocksCount - stop) (by omega) stop (by omega) (by omega) rfl with
        | found p hp hlongp hleaves =>
          exact .found p (by omega) hlongp (Loop.leaves_of_round hstep hleaves)
        | wraps hleaves => exact .wraps (Loop.leaves_of_round hstep hleaves)
        | fails hrest hleaves =>
          refine .fails (fun p hp hpg => ?_) (Loop.leaves_of_round hstep hleaves)
          rcases Nat.lt_or_ge p stop with hps | hps
          · exact hpassed p hp hps
          · exact hrest p hps hpg

/-! ### The range that is returned -/

variable {uninit : ℕ → Bool} {r : Except RangeErr (ℕ × ℕ)}

theorem newRangeReturns_iff (hlen : 1 ≤ len) (hflags : flags < 4) :
    NewRangeReturns g base map flags goal len uninit r ↔
    Loop.Leaves (newRangeStep g base map flags (rangeGoal g goal) len) (rangeGoal g goal,
      false) r := by
  have hnot : ¬(len = 0 ∨ 4 ≤ flags) := by omega
  constructor
  · rintro ⟨n, uninit', h⟩
    rw [newRange, if_neg hnot] at h
    obtain ⟨r', hr', heq⟩ := Option.map_eq_some_iff.mp h
    refine ⟨n, hr'.trans (congrArg some ?_)⟩
    cases r' with
    | ok p => exact congrArg Prod.fst heq
    | error e => exact congrArg Prod.fst heq
  · rintro ⟨n, h⟩
    refine ⟨n, ?_⟩
    rw [newRange, if_neg hnot, h]
    cases r with
    | ok p => exact ⟨_, rfl⟩
    | error e => exact ⟨_, rfl⟩

/-- The search leaves with what is right. -/
theorem newRangeRight_of_leaves (hlen : 1 ≤ len) (hflags : flags < 4)
    (h : Loop.Leaves (newRangeStep g base map flags (rangeGoal g goal) len)
      (rangeGoal g goal, false) r)
    (hok : ∀ p n, r = .ok (p, n) → FreeRange g map flags goal len p n)
    (hfail : r = .error .allocFail → ∀ p n, ¬FreeRange g map flags goal len p n) :
    NewRangeRight g base map flags goal len uninit where
  returns := ⟨r, (newRangeReturns_iff hlen hflags).mpr h⟩
  run p n hret := hok p n (Loop.leaves_unique h ((newRangeReturns_iff hlen hflags).mp hret))
  none hret := hfail (Loop.leaves_unique h ((newRangeReturns_iff hlen hflags).mp hret))

theorem FreeRange.free_first {p n : ℕ} (h : FreeRange g map flags goal len p n) :
    p < g.blocksCount ∧ FreeBlock map p :=
  ⟨by have := h.le_count; have := h.pos; omega, h.free p (le_refl p) (by have := h.pos; omega)⟩

theorem FreeRange.longRun {p n : ℕ} (h : FreeRange g map flags goal len p n)
    (hmin : minLength flags = true) :
    LongRun g map len p := by
  have hn := h.min_length hmin
  exact ⟨hn ▸ h.le_count, hn ▸ h.free⟩

theorem rangeGoal_lt (hfirst : g.firstDataBlock < g.blocksCount) :
    rangeGoal g goal < g.blocksCount := by
  rw [rangeGoal]
  split <;> omega

/-- A goal before the first block is refused. -/
theorem newRangeRight_of_before (hmap : BlockMapOf g bal map) (hlen : 1 ≤ len) (hflags : flags < 4)
    (h : rangeGoal g goal < g.firstDataBlock) : NewRangeRight g base map flags goal len uninit := by
  have hbefore : rangeGoal g goal >>> map.clusterBits < map.first := by
    rw [hmap.first, hmap.clusterBits, Nat.shiftRight_eq_div_pow]
    exact Nat.div_lt_div_of_lt_of_dvd g.first_dvd h
  refine newRangeRight_of_leaves
    (r := .error .einval) hlen hflags (Loop.leaves_of_inr ?_) nofun nofun
  rw [newRangeStep, if_neg (fun h => absurd h.1 Bool.false_ne_true), findFirstZero_refused hbefore]

/-- A tree without nodes gives no range. -/
theorem newRange_of_empty (hmap : BlockMapOf g bal map) (hempty : map.Empty)
    (hfirst : g.firstDataBlock < g.blocksCount) (hgoal : g.firstDataBlock ≤ rangeGoal g goal) :
    Loop.Leaves (newRangeStep g base map flags (rangeGoal g goal) len) (rangeGoal g goal,
      false) (.error .allocFail) := by
  have hstep : ∀ start, g.firstDataBlock ≤ start → start < g.blocksCount →
      newRangeStep g base map flags (rangeGoal g goal) len (start, false) =
        if fixedGoal flags ∨ start = g.firstDataBlock then .inr (.error .allocFail)
        else .inl (g.firstDataBlock, false) := by
    intro start hstart hlt
    obtain ⟨h1, h2⟩ :=
      @BlockMapOf.blocks_in g map bal start (g.blocksCount - 1) hmap hstart (by omega)
    rw [newRangeStep, if_neg (fun h => absurd h.1 Bool.false_ne_true),
      hempty.findFirstZero (by omega) h1 h2]
  have hgoal' := hstep _ hgoal (rangeGoal_lt hfirst)
  split at hgoal'
  · exact Loop.leaves_of_inr hgoal'
  · have hsecond := hstep g.firstDataBlock (le_refl _) hfirst
    rw [if_pos (Or.inr rfl)] at hsecond
    exact Loop.leaves_of_round hgoal' (Loop.leaves_of_inr hsecond)

/-- With all blocks free, there is a range unless it does not fit on the device. -/
theorem exists_freeRange_of_empty (hbal : ∀ t l, (bal t l).inorder = l)
    (hmap : BlockMapOf g bal map) (hempty : map.Empty)
    (hlen : 1 ≤ len) (hfirst : g.firstDataBlock < g.blocksCount)
    (hgoal : g.firstDataBlock ≤ rangeGoal g goal) :
    (∀ p n, ¬FreeRange g map flags goal len p n) ↔
      minLength flags = true ∧ g.blocksCount < (if fixedGoal flags then rangeGoal g goal
        else g.firstDataBlock) + len := by
  have hfree : ∀ b, FreeBlock map b := fun b => Bool.eq_false_iff.mpr (hempty.clear hmap.reach hbal)
  have hlt := @rangeGoal_lt g goal hfirst
  obtain ⟨o, ho⟩ : ∃ o, o = if fixedGoal flags then rangeGoal g goal else g.firstDataBlock :=
    ⟨_, rfl⟩
  have horigin : g.firstDataBlock ≤ o ∧ o < g.blocksCount := by split at ho <;> omega
  have hfixed : fixedGoal flags = true → o = rangeGoal g goal := fun h => by rw [ho, if_pos h]
  rw [← ho]
  constructor
  · intro hnone
    by_contra hnot
    by_cases hmin : minLength flags = true
    · exact hnone o len ⟨horigin.1, by have : ¬_ := fun h => hnot ⟨hmin, h⟩; omega,
        fun b _ _ => hfree b, hlen, le_refl _, fun _ => rfl, hfixed⟩
    · exact hnone o 1 ⟨horigin.1, horigin.2, fun b _ _ => hfree b, le_refl _, hlen,
        fun h => absurd h hmin, hfixed⟩
  · rintro ⟨hmin, hlong⟩ p n h
    have h1 := h.le_count
    have h2 := h.min_length hmin
    have h3 : o ≤ p := by
      by_cases hf : fixedGoal flags = true
      · rw [hfixed hf, h.fixed_goal hf]
      · rw [ho, if_neg hf]
        exact h.first_le
    omega

/-- A run that is accepted satisfies the flags. -/
theorem freeRange_of_round {z : ℕ} (hgoal : g.firstDataBlock ≤ start)
    (hz : IsLeast {b | start ≤ b ∧ b < g.blocksCount ∧ FreeBlock map b} z) (hzs : z < stop)
    (hle : stop ≤ g.blocksCount)
    (hlen' : stop ≤ z + len) (hfree : ∀ b, z ≤ b → b < stop → FreeBlock map b)
    (hfixed : fixedGoal flags = true → z = rangeGoal g goal)
    (hlong : minLength flags = false ∨ len ≤ stop - z) :
    FreeRange g map flags goal len z (stop - z) where
  first_le := hgoal.trans hz.1.1
  le_count := by omega
  free b h1 h2 := hfree b h1 (by omega)
  pos := by omega
  le_len := by omega
  min_length hmin := by
    rw [hmin] at hlong
    have := hlong.resolve_left (by decide)
    omega
  fixed_goal := hfixed

/-- **With a fixed goal**, one round is enough. -/
theorem newRangeRight_of_fixed (hbal : ∀ t l, (bal t l).inorder = l) (hmap : BlockMapOf g bal map)
    (hne : ¬map.Empty) (hlen : 1 ≤ len) (hlen64 : len < 2 ^ 64) (hflags : flags < 4)
    (hfirst : g.firstDataBlock < g.blocksCount)
    (hcount : g.blocksCount < 2 ^ 64) (hgoal : g.firstDataBlock ≤ rangeGoal g goal)
    (hfix : fixedGoal flags = true) :
    NewRangeRight g base map flags goal len uninit := by
  have hlt := @rangeGoal_lt g goal hfirst
  cases @newRangeStep_spec g base map flags (rangeGoal g goal) len bal
    (rangeGoal g goal) false hbal hmap hne hlen hlen64 hgoal
    hlt hcount nofun with
  | drained hnone hstep =>
    rw [if_pos (Or.inl hfix)] at hstep
    refine newRangeRight_of_leaves hlen hflags (Loop.leaves_of_inr hstep) nofun fun _ p n h => ?_
    have hp := h.free_first
    rw [h.fixed_goal hfix] at hp
    exact hnone _ (le_refl _) hp.1 hp.2
  | elsewhere z hz hfixed hzg hstep =>
    refine newRangeRight_of_leaves hlen hflags (Loop.leaves_of_inr hstep) nofun fun _ p n h => ?_
    have hp := h.free_first
    rw [h.fixed_goal hfix] at hp
    exact hzg (le_antisymm (hz.2 ⟨le_refl _, hp.1, hp.2⟩) hz.1.1)
  | wraps z hz hwrap hstep =>
    exact newRangeRight_of_leaves hlen hflags (Loop.leaves_of_inr hstep) nofun nofun
  | run z stop hz hwrap hfixed hzs hle hlen' hfree hends hstep =>
    rw [newRangeRun] at hstep
    by_cases hlong : minLength flags = false ∨ len ≤ stop - z
    · rw [if_pos hlong] at hstep
      refine newRangeRight_of_leaves hlen hflags (Loop.leaves_of_inr hstep)
        (fun p n heq => ?_) nofun
      cases heq
      exact freeRange_of_round hgoal hz hzs hle hlen' hfree hfixed hlong
    · rw [if_neg hlong, if_pos hfix] at hstep
      obtain ⟨hmin, hshort⟩ := not_or.mp hlong
      refine newRangeRight_of_leaves hlen hflags (Loop.leaves_of_inr hstep) nofun fun _ p n h => ?_
      have hrun := h.longRun (Bool.eq_true_of_not_eq_false hmin)
      rw [h.fixed_goal hfix] at hrun
      exact not_longRun_of_round hz (by omega) hends (le_refl _) (hz.1.1.trans_lt hzs) hrun

/-- A round that needs neither the goal nor a length leaves, or begins again at the first block. -/
theorem newRange_any_round (hbal : ∀ t l, (bal t l).inorder = l) (hmap : BlockMapOf g bal map)
    (hne : ¬map.Empty) (hlen : 1 ≤ len) (hlen64 : len < 2 ^ 64) (hcount : g.blocksCount < 2 ^ 64)
    (hstart : g.firstDataBlock ≤ start)
    (hlt : start < g.blocksCount) (hany : fixedGoal flags = false)
    (hmin : minLength flags = false) :
    (∃ r, newRangeStep g base map flags (rangeGoal g goal) len (start, false) = .inr r ∧
      r ≠ .error .allocFail ∧
        ∀ p n, r = .ok (p, n) → FreeRange g map flags goal len p n) ∨
      (∀ b, start ≤ b → b < g.blocksCount → ¬FreeBlock map b) ∧
        newRangeStep g base map flags (rangeGoal g goal) len (start, false) =
          if start = g.firstDataBlock then .inr (.error .allocFail)
            else .inl (g.firstDataBlock, false) := by
  cases @newRangeStep_spec g base map flags (rangeGoal g goal) len bal start false hbal hmap hne
    hlen hlen64 hstart
    hlt hcount nofun with
  | drained hnone hstep =>
    refine Or.inr ⟨hnone, hstep.trans (if_congr ?_ rfl rfl)⟩
    rw [hany]
    exact or_iff_right Bool.false_ne_true
  | elsewhere z hz hfixed => rw [hany] at hfixed; cases hfixed
  | wraps z hz hwrap hstep => exact Or.inl ⟨_, hstep, nofun, nofun⟩
  | run z stop hz hwrap hfixed hzs hle hlen' hfree hends hstep =>
    rw [newRangeRun, if_pos (Or.inl hmin)] at hstep
    refine Or.inl ⟨_, hstep, nofun, fun p n heq => ?_⟩
    cases heq
    exact freeRange_of_round hstart hz hzs hle hlen' hfree hfixed (Or.inl hmin)

/-- **With neither a fixed goal nor a minimal length**, two rounds are enough. -/
theorem newRangeRight_of_any (hbal : ∀ t l, (bal t l).inorder = l) (hmap : BlockMapOf g bal map)
    (hne : ¬map.Empty) (hlen : 1 ≤ len) (hlen64 : len < 2 ^ 64) (hflags : flags < 4)
    (hfirst : g.firstDataBlock < g.blocksCount)
    (hcount : g.blocksCount < 2 ^ 64) (hgoal : g.firstDataBlock ≤ rangeGoal g goal)
    (hany : fixedGoal flags = false)
    (hmin : minLength flags = false) : NewRangeRight g base map flags goal len uninit := by
  have hlt := @rangeGoal_lt g goal hfirst
  rcases @newRange_any_round g base map flags goal len bal _ hbal hmap hne hlen hlen64 hcount hgoal
    hlt hany hmin with
    ⟨r, hstep, hr, hok⟩ | ⟨hnone, hstep⟩
  · exact newRangeRight_of_leaves hlen hflags (Loop.leaves_of_inr hstep) hok fun h => absurd h hr
  · by_cases heq : rangeGoal g goal = g.firstDataBlock
    · rw [if_pos heq] at hstep
      refine newRangeRight_of_leaves hlen hflags (Loop.leaves_of_inr hstep) nofun fun _ p n h => ?_
      exact hnone p (heq ▸ h.first_le) h.free_first.1 h.free_first.2
    · rw [if_neg heq] at hstep
      rcases @newRange_any_round g base map flags goal len bal _ hbal hmap hne hlen hlen64 hcount
        (le_refl _) hfirst hany hmin
        with ⟨r, hstep', hr, hok⟩ | ⟨hnone', hstep'⟩
      · exact newRangeRight_of_leaves hlen hflags
          (Loop.leaves_of_round hstep (Loop.leaves_of_inr hstep')) hok
          fun h => absurd h hr
      · rw [if_pos rfl] at hstep'
        refine newRangeRight_of_leaves hlen hflags
          (Loop.leaves_of_round hstep (Loop.leaves_of_inr hstep')) nofun
          fun _ p n h => ?_
        exact hnone' p h.first_le h.free_first.1 h.free_first.2

theorem LongRun.freeRange {p : ℕ} (hlen : 1 ≤ len) (h : LongRun g map len p)
    (hp : g.firstDataBlock ≤ p)
    (hany : fixedGoal flags = false) : FreeRange g map flags goal len p len where
  first_le := hp
  le_count := h.1
  free := h.2
  pos := hlen
  le_len := le_refl _
  min_length _ := rfl
  fixed_goal hf := by rw [hany] at hf; cases hf

/-- Where there are no free blocks any more, the search begins again, or has begun with the first
block. -/
theorem newRangeStep_of_drained (hbal : ∀ t l, (bal t l).inorder = l) (hmap : BlockMapOf g bal map)
    (hne : ¬map.Empty) (hlen : 1 ≤ len) (hlen64 : len < 2 ^ 64) (hstart : g.firstDataBlock ≤ start)
    (hlt : start < g.blocksCount) (hcount : g.blocksCount < 2 ^ 64) (hany : fixedGoal flags = false)
    (hnone : ∀ b, start ≤ b → b < g.blocksCount → ¬FreeBlock map b) :
    newRangeStep g base map flags goal len (start, false) =
      if start = g.firstDataBlock then .inr (.error .allocFail)
        else .inl (g.firstDataBlock, false) := by
  cases @newRangeStep_spec g base map flags goal len bal start false hbal hmap hne hlen hlen64
    hstart hlt hcount nofun with
  | drained _ hstep =>
    refine hstep.trans (if_congr ?_ rfl rfl)
    rw [hany]
    exact or_iff_right Bool.false_ne_true
  | elsewhere z hz _ _ _ => exact absurd hz.1.2.2 (hnone z hz.1.1 hz.1.2.1)
  | wraps z hz _ _ => exact absurd hz.1.2.2 (hnone z hz.1.1 hz.1.2.1)
  | run z stop hz _ _ _ _ _ _ _ _ => exact absurd hz.1.2.2 (hnone z hz.1.1 hz.1.2.1)

/-- **With a minimal length**, the search is right exactly if it does not go round for ever. -/
theorem newRangeRight_iff_of_min (hbal : ∀ t l, (bal t l).inorder = l) (hmap : BlockMapOf g bal map)
    (hne : ¬map.Empty) (hlen : 1 ≤ len) (hlen64 : len < 2 ^ 64) (hflags : flags < 4)
    (hfirst : g.firstDataBlock < g.blocksCount)
    (hcount : g.blocksCount < 2 ^ 64) (hgoal : g.firstDataBlock ≤ rangeGoal g goal)
    (hany : fixedGoal flags = false) (hmin : minLength flags = true) :
    NewRangeRight g base map flags goal len uninit ↔ ¬RangeCycles g map flags goal len := by
  have hlt := @rangeGoal_lt g goal hfirst
  have hok : ∀ {p}, g.firstDataBlock ≤ p → LongRun g map len p → ∀ p' n,
      (Except.ok (p, len) : Except RangeErr (ℕ × ℕ)) = .ok (p', n) →
        FreeRange g map flags goal len p' n := by
    intro p hp hlong p' n heq
    cases heq
    exact hlong.freeRange hlen hp hany
  cases @newRange_pass g base map flags (rangeGoal g goal) len bal _ hbal hmap hne hlen hlen64 hgoal
    hlt hcount hmin hany with
  | found p hp hlong hleaves =>
    refine iff_of_true (newRangeRight_of_leaves hlen hflags hleaves
      (hok (hgoal.trans hp) hlong) nofun) fun hc => ?_
    exact hc.short p (hgoal.trans hp) hlong
  | wraps b hb hbegin hw hleaves =>
    refine iff_of_true (newRangeRight_of_leaves hlen hflags hleaves nofun nofun) fun hc => ?_
    exact absurd (hc.no_wrap b (hgoal.trans hbegin.1) hb hbegin.2.1 (Or.inr hbegin.2.2))
      (not_lt.mpr hw)
  | touches hshort hlast hreach =>
    refine iff_of_true ?_ fun hc => hc.last_used hlast
    cases @newRange_second g base map flags (rangeGoal g goal) len bal _ hbal hmap hne hlen hlen64
      (le_refl _) hfirst hcount
      hmin hany hlast with
    | found p hp hlong hleaves =>
      exact newRangeRight_of_leaves hlen hflags (Loop.leaves_of_reach hreach hleaves)
        (hok hp hlong) nofun
    | wraps hleaves =>
      exact newRangeRight_of_leaves hlen hflags (Loop.leaves_of_reach hreach hleaves) nofun nofun
    | fails hshort' hleaves =>
      refine newRangeRight_of_leaves hlen hflags
        (Loop.leaves_of_reach hreach hleaves) nofun fun _ p n h => ?_
      rcases le_total p (rangeGoal g goal) with hp | hp
      · exact hshort' p h.first_le hp (h.longRun hmin)
      · exact hshort p hp (h.longRun hmin)
  | drained s hs hsc hnone hshort hsome hnowrap hreach =>
    -- the search begins again with the first block, and nothing is noted
    have hagain :=
      @newRangeStep_of_drained g base map flags
        (rangeGoal g goal) len bal s hbal hmap hne hlen hlen64
      (hgoal.trans hs) hsc hcount hany hnone
    by_cases hs0 : s = g.firstDataBlock
    · rw [if_pos hs0] at hagain
      refine iff_of_true (newRangeRight_of_leaves hlen hflags
        (Loop.leaves_of_reach hreach (Loop.leaves_of_inr hagain)) nofun
        fun _ p n h => hnone p (hs0 ▸ h.first_le) h.free_first.1 h.free_first.2) fun hc => ?_
      obtain ⟨b, h1, h2, h3⟩ := hc.some_free
      exact hnone b (hs0 ▸ h1) h2 h3
    rw [if_neg hs0] at hagain
    have hreach' := Relation.ReflTransGen.tail hreach hagain
    cases @newRange_pass g base map flags (rangeGoal g goal) len bal _ hbal hmap hne hlen hlen64
      (le_refl _) hfirst hcount hmin
      hany with
    | found p hp hlong hleaves =>
      refine iff_of_true (newRangeRight_of_leaves hlen hflags (Loop.leaves_of_reach hreach' hleaves)
        (hok hp hlong) nofun)
        fun hc => ?_
      exact hc.short p hp hlong
    | wraps b hb hbegin hw hleaves =>
      refine iff_of_true (newRangeRight_of_leaves hlen hflags
        (Loop.leaves_of_reach hreach' hleaves) nofun nofun) fun hc => ?_
      exact absurd (hc.no_wrap b hbegin.1 hb hbegin.2.1 (hbegin.2.2.imp_right Or.inr))
        (not_lt.mpr hw)
    | touches _ hlast _ => exact absurd hlast (hnone _ (by omega) (by omega))
    | drained s' hs' hsc' hnone' hshort' hsome' hnowrap' hreach'' =>
      have hagain' :=
        @newRangeStep_of_drained g base map flags
          (rangeGoal g goal) len bal s' hbal hmap hne hlen hlen64 hs' hsc'
        hcount hany hnone'
      by_cases hs0' : s' = g.firstDataBlock
      · rw [if_pos hs0'] at hagain'
        refine iff_of_true (newRangeRight_of_leaves hlen hflags
          (Loop.leaves_of_reach hreach'
            (Loop.leaves_of_reach hreach'' (Loop.leaves_of_inr hagain'))) nofun
          fun _ p n h => hnone' p (hs0' ▸ h.first_le) h.free_first.1 h.free_first.2) fun hc => ?_
        obtain ⟨b, h1, h2, h3⟩ := hc.some_free
        exact hnone' b (hs0' ▸ h1) h2 h3
      · rw [if_neg hs0'] at hagain'
        refine iff_of_false (fun hright => ?_)
          (not_not.mpr ⟨hmin, hany, hshort', hnone _ (by omega) (by omega), hsome' hs0',
            fun b h1 h2 h3 h4 => ?_⟩)
        · obtain ⟨r, hr⟩ := hright.returns
          have hleaves :=
            Loop.leaves_of_reach_start hreach' ((newRangeReturns_iff hlen hflags).mp hr)
          exact Loop.not_transGen_self hleaves (Relation.TransGen.tail' hreach'' hagain')
        · rcases h4 with h4 | rfl | h4
          · exact hnowrap' b h2 ⟨h1, h3, Or.inl h4⟩
          · exact hnowrap _ h2 ⟨le_refl _, h3, Or.inl rfl⟩
          · exact hnowrap' b h2 ⟨h1, h3, Or.inr h4⟩

/-- **`ext2fs_new_range` returns, with a run if there is one, exactly if** the flags or the goal are
refused, or the bitmap is a tree without nodes and no run of the length fits, or it is not and the
search does not go round for ever. -/
theorem newRangeRight_iff (hbal : ∀ t l, (bal t l).inorder = l) (hmap : BlockMapOf g bal map)
    (hlen : 1 ≤ len) (hlen64 : len < 2 ^ 64) (hfirst : g.firstDataBlock < g.blocksCount)
    (hcount : g.blocksCount < 2 ^ 64) :
    NewRangeRight g base map flags goal len uninit ↔
      4 ≤ flags ∨ rangeGoal g goal < g.firstDataBlock ∨
        (map.Empty ∧ minLength flags = true ∧
          g.blocksCount < (if fixedGoal flags then rangeGoal g goal else g.firstDataBlock) + len) ∨
        (¬map.Empty ∧ ¬RangeCycles g map flags goal len) := by
  by_cases hflags : 4 ≤ flags
  · refine iff_of_true ⟨⟨.error .invalidArgument, 0, uninit, if_pos (Or.inr hflags)⟩, ?_,
      ?_⟩ (Or.inl hflags)
    · rintro p n ⟨k, u, h⟩
      rw [newRange, if_pos (Or.inr hflags)] at h
      cases h
    · rintro ⟨k, u, h⟩
      rw [newRange, if_pos (Or.inr hflags)] at h
      cases h
  have hflags := not_le.mp hflags
  by_cases hbefore : rangeGoal g goal < g.firstDataBlock
  · exact iff_of_true (newRangeRight_of_before hmap hlen hflags hbefore) (Or.inr (Or.inl hbefore))
  have hgoal := not_lt.mp hbefore
  rw [or_iff_right (not_le.mpr hflags), or_iff_right hbefore]
  by_cases hempty : map.Empty
  · have hleaves := @newRange_of_empty g base map flags goal len bal hmap hempty hfirst hgoal
    have hexists :=
      @exists_freeRange_of_empty g map flags goal len bal hbal hmap hempty hlen hfirst hgoal
    rw [or_iff_left (fun h => h.1 hempty), and_iff_right hempty, ← hexists]
    constructor
    · exact fun h => h.none ((newRangeReturns_iff hlen hflags).mpr hleaves)
    · exact fun h => newRangeRight_of_leaves hlen hflags hleaves nofun fun _ => h
  · rw [or_iff_right (fun h => hempty h.1), and_iff_right hempty]
    -- only the search for a whole run that is not bound to the goal can go round for ever
    cases hfix : fixedGoal flags with
    | true =>
      refine iff_of_true (newRangeRight_of_fixed hbal hmap hempty hlen hlen64 hflags hfirst hcount
        hgoal hfix) fun hc => ?_
      have := hc.any_goal
      rw [hfix] at this
      cases this
    | false =>
      cases hmin : minLength flags with
      | true =>
        exact newRangeRight_iff_of_min hbal hmap hempty hlen hlen64 hflags hfirst hcount
          hgoal hfix hmin
      | false =>
        refine iff_of_true (newRangeRight_of_any hbal hmap hempty hlen hlen64 hflags hfirst hcount
          hgoal hfix hmin) fun hc => ?_
        have := hc.min_length
        rw [hmin] at this
        cases this

/-- Two groups with one free cluster, blocks 12 to 15. -/
def oneFreeCluster : BlockBitmap := .ba 2 0 15 fun i => if i = 0 then 0xf7 else 0xff

theorem oneFreeCluster_of :
    @BlockMapOf (twoStatsGroups false) (fun _ l => .ofList l) oneFreeCluster :=
  ⟨trivial, rfl, rfl, rfl⟩

theorem freeBlock_oneFreeCluster : ∀ b < 64, FreeBlock oneFreeCluster b ↔ 12 ≤ b ∧ b ≤ 15 := by
  unfold FreeBlock
  decide

/-- A run of 8 blocks is looked for in this bitmap for ever. -/
theorem rangeCycles_oneFreeCluster : RangeCycles (twoStatsGroups false) oneFreeCluster 2 0 8 where
  min_length := rfl
  any_goal := rfl
  short p _ h := by
    obtain ⟨hp, hfree⟩ := h
    change p + 8 ≤ 64 at hp
    have h1 := (freeBlock_oneFreeCluster p (by omega)).mp (hfree p (le_refl p) (by omega))
    have h2 :=
      (freeBlock_oneFreeCluster (p + 7) (by omega)).mp (hfree (p + 7) (by omega) (by omega))
    omega
  last_used h := by
    have h1 := (freeBlock_oneFreeCluster 63 (by decide)).mp h
    omega
  some_free := ⟨12, by decide, by decide, (freeBlock_oneFreeCluster 12 (by decide)).mpr (by decide)⟩
  no_wrap b _ h _ _ := by
    change b < 64 at h
    omega

/-- The search does not come to an end. -/
theorem not_newRangeRight_oneFreeCluster :
    ¬NewRangeRight (twoStatsGroups false) 0 oneFreeCluster 2 0 8 fun _ => false := fun h =>
  (newRangeRight_iff_of_min (fun _ l => SearchTree.inorder_ofList l) oneFreeCluster_of not_false
    (by decide) (by decide)
    (by decide) (by decide) (by decide) (by decide) rfl rfl).mp h rangeCycles_oneFreeCluster

theorem newRangeRight_iff_any_length :
    NewRangeRight (twoStatsGroups false) 0 oneFreeCluster 0 0 8 fun _ => false :=
  (newRangeRight_iff (fun _ l => SearchTree.inorder_ofList l) oneFreeCluster_of (by decide)
    (by decide) (by decide)
    (by decide)).mpr
      (Or.inr (Or.inr (Or.inr ⟨not_false, fun h => Bool.false_ne_true h.min_length⟩)))

end NewRange

end E2fsprogs
