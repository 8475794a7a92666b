import E2fsprogs.Bitmap.Find

/-!
# Importing and exporting a range of bits

`set_bmap_range` and `get_bmap_range` of both back ends. The tree of extents is filled with the runs
of the buffer, and the buffer with the runs of the tree; the array is copied byte by byte.

What is imported into a tree is added to what it holds, and an empty tree leaves the buffer of an
export alone. The array is copied from the byte `start >> 3` on, as if the bitmap began in its first
byte, and with whole bytes.
-/

namespace E2fsprogs

/-! ### The tree of extents -/

/-- The run from `first_set` up to `i` is inserted. Both are converted to 64 bits. -/
def rbSetRun (bal : SearchTree RbExtent → List RbExtent → SearchTree RbExtent) (bmapStart start : ℕ)
    (firstSet : ℤ) (i : ℕ) (bp : RbPrivate) : RbPrivate :=
  (rbInsertExtent bal (((start : ℤ) + firstSet - bmapStart) % 2 ^ 64).toNat
    (((i : ℤ) - firstSet) % 2 ^ 64).toNat bp).2

/-- The loop of `rb_set_bmap_range`, from `i` on. `first_set` is an `int`. -/
def rbSetLoop (bal : SearchTree RbExtent → List RbExtent → SearchTree RbExtent)
    (bmapStart start num : ℕ) (inp : Block)
    (i : ℕ) (firstSet : ℤ) (bp : RbPrivate) : ℤ × RbPrivate :=
  if i < num then
    if i % 8 = 0 ∧ inp (i / 8) = 255 then
      rbSetLoop bal bmapStart start num inp (i + 8) (if firstSet = -1 then (i : ℤ).bmod (2 ^ 32)
        else firstSet) bp
    else if i % 8 = 0 ∧ inp (i / 8) = 0 ∧
      firstSet = -1 then rbSetLoop bal bmapStart start num inp (i + 8) firstSet bp
    else if bitAt inp i = true then
      rbSetLoop bal bmapStart start num inp (i + 1) (if firstSet = -1 then (i : ℤ).bmod (2 ^ 32)
        else firstSet) bp
    else if firstSet = -1 then rbSetLoop bal bmapStart start num inp (i + 1) firstSet bp
    else rbSetLoop bal bmapStart start num inp (i + 1) (-1)
      (rbSetRun bal bmapStart start firstSet i bp)
  else (firstSet, bp)
termination_by num - i

/-- What is left of a run behind the loop. -/
def rbSetLast (bal : SearchTree RbExtent → List RbExtent → SearchTree RbExtent)
    (bmapStart start num : ℕ) (r : ℤ × RbPrivate) : RbPrivate :=
  if r.1 ≠ -1 then rbSetRun bal bmapStart start r.1 num r.2 else r.2

/-- `rb_set_bmap_range`. -/
def rbSetRange (bal : SearchTree RbExtent → List RbExtent → SearchTree RbExtent)
    (bmapStart start num : ℕ) (inp : Block) (bp : RbPrivate) : RbPrivate :=
  rbSetLast bal bmapStart start num (rbSetLoop bal bmapStart start num inp 0 (-1) bp)

/-- The bits of a run are set in the buffer, eight at a time where that is possible. The number
of bytes and the offset are `int`s: where `offset` or `nbytes << 3` overflows, `pos` goes back
behind the start of the buffer, and there is no result. -/
def rbFill (start : ℕ) (count pos : ℕ) (out : Block) : Option Block :=
  if 0 < count then
    if 8 ≤ count ∧ (pos - start) % 8 = 0 then
      if 2 ^ 31 ≤ count / 8 * 8 ∨ 2 ^ 31 ≤ (pos - start) / 8 then none
      else rbFill start (count - count / 8 * 8) (pos + count / 8 * 8)
        (memcpy out ((pos - start) / 8) (fun _ => 255) (count / 8))
    else rbFill start (count - 1) (pos + 1) (setBitAt out (pos - start))
  else some out
termination_by count

/-- The loop of `rb_get_bmap_range` over the nodes. -/
def rbGetNodes (start num : ℕ) : List RbExtent → Block → Option Block
  | [], out => some out
  | ext :: nodes, out =>
    if start + num ≤ ext.start then some out
    else if ext.start < start ∧ ext.start + ext.count < start then rbGetNodes start num nodes out
    else
      let pos := if ext.start < start then start else ext.start
      let count := if ext.start < start then ext.count - (start - ext.start) else ext.count
      let count := if start + num < pos + count then start + num - pos else count
      match rbFill start count pos out with
      | none => none
      | some out => rbGetNodes start num nodes out

/-- `rb_get_bmap_range`. -/
def rbGetRange (bmapStart start num : ℕ) (bp : RbPrivate) (out : Block) : Option Block :=
  let start := start - bmapStart
  if bp.nodes = [] then some out
  else
    let r := bp.tree.find (cmpWithin start) none
    let out := memcpy out 0 (fun _ => 0) ((num + 7) / 8)
    match r.1.or r.2 with
    | none => some out
    | some parent => rbGetNodes start num (bp.onward parent.id) out

/-! ### The array of bits -/

/-- `ba_set_bmap_range`. -/
def baSetRange (start num : ℕ) (inp b : Block) : Block := memcpy b (start / 8) inp ((num + 7) / 8)

/-- `ba_get_bmap_range`. -/
def baGetRange (start num : ℕ) (b out : Block) : Block :=
  memcpy out 0 (fromPos b (start / 8)) ((num + 7) / 8)

/-- Import and export of a range are exact in both back ends, whatever the buffers hold: what is
exported are the bits of the range, what is imported becomes the bits of the range, the other bits
of the bitmap stay, and an export behind an import returns the buffer. -/
structure RangeExact (bal : SearchTree RbExtent → List RbExtent → SearchTree RbExtent)
    (bmapStart bmapEnd start num : ℕ) (bp : RbPrivate) (b : Block) : Prop where
  rbGet : ∀ out, ∃ out', rbGetRange bmapStart start num bp out = some out' ∧
    ∀ i < num, bitAt out' i = rbTest bmapStart bp (start + i)
  rbSet : ∀ inp i, i < num →
    rbTest bmapStart (rbSetRange bal bmapStart start num inp bp) (start + i) = bitAt inp i
  rbKeep : ∀ inp k, bmapStart ≤ k → k ≤ bmapEnd → ¬(start ≤ k ∧ k < start + num) →
    rbTest bmapStart (rbSetRange bal bmapStart start num inp bp) k = rbTest bmapStart bp k
  rbRound : ∀ inp out, ∃ out',
    rbGetRange bmapStart start num (rbSetRange bal bmapStart start num inp bp) out = some out' ∧
      ∀ i < num, bitAt out' i = bitAt inp i
  baGet : ∀ out i, i < num → bitAt (baGetRange start num b out) i = bitAt b (start + i - bmapStart)
  baSet : ∀ inp i, i < num →
    bitAt (baSetRange start num inp b) (start + i - bmapStart) = bitAt inp i
  baKeep : ∀ inp k, bmapStart ≤ k → k ≤ bmapEnd → ¬(start ≤ k ∧ k < start + num) →
    bitAt (baSetRange start num inp b) (k - bmapStart) = bitAt b (k - bmapStart)
  baRound : ∀ inp out i, i < num →
    bitAt (baGetRange start num (baSetRange start num inp b) out) i = bitAt inp i

section Range

variable {bal : SearchTree RbExtent → List RbExtent → SearchTree RbExtent} {bp : RbPrivate}
    {inp out b : Block}
  {bmapStart bmapEnd start num i lower m count pos : ℕ} {firstSet : ℤ} {l : List RbExtent}

/-! ### Importing into the tree -/

theorem bitAt_of_ones (h : b (m / 8) = 255) : bitAt b m = true := by
  rw [bitAt, h]
  exact testBit_255 (Nat.mod_lt m (by norm_num))

/-- An `int` that is not too large is itself. -/
theorem bmod_of_lt (h : i < 2 ^ 31) : (i : ℤ).bmod (2 ^ 32) = i := by
  rw [Int.bmod_eq_iff (by norm_num)]
  omega

/-- A run of the range is inserted. -/
theorem rbSetRun_spec (hbal : ∀ t l, (bal t l).inorder = l) (h : bp.Ok) (hstart : bmapStart ≤ start)
    (hle : lower ≤ i) (hfit : start - bmapStart + i ≤ 2 ^ 64) (hi : i ≤ 2 ^ 31) :
    (rbSetRun bal bmapStart start lower i bp).Ok ∧
    ∀ k, Marked (rbSetRun bal bmapStart start lower i bp).nodes k ↔
      Marked bp.nodes k ∨ ∃ j, lower ≤ j ∧ j < i ∧ k = start - bmapStart + j := by
  rcases Nat.eq_or_lt_of_le hle with rfl | hlt
  · have hcount : (((lower : ℤ) - lower) % 2 ^ 64).toNat = 0 := by omega
    have hm :=
      @rbInsertExtent_spec bal bp (((start : ℤ) + lower - bmapStart) % 2 ^ 64).toNat 0 hbal h
    rw [rbSetRun, hcount]
    refine ⟨hm.ok, fun k => ?_⟩
    rw [hm.marked]
    refine or_congr_right ⟨fun hk => by omega, ?_⟩
    rintro ⟨j, h1, h2, -⟩
    omega
  · have hpos : (((start : ℤ) + lower - bmapStart) % 2 ^ 64).toNat = start - bmapStart + lower := by
      omega
    have hcount : (((i : ℤ) - lower) % 2 ^ 64).toNat = i - lower := by omega
    have hm := @rbInsertExtent_spec bal bp (start - bmapStart + lower) (i - lower) hbal h
    rw [rbSetRun, hpos, hcount]
    refine ⟨hm.ok, fun k => ?_⟩
    rw [hm.marked]
    refine or_congr_right ⟨fun hk => ⟨k - (start - bmapStart), by omega, by omega, by omega⟩, ?_⟩
    rintro ⟨j, h1, h2, rfl⟩
    omega

/-- What `first_set` remembers: nothing, or where a run of set bits began that reaches up to `i`.
The bits from `lower` on are not yet in the tree. -/
def Pending (inp : Block) (num i lower : ℕ) (firstSet : ℤ) : Prop :=
  (firstSet = -1 ∧ lower = i) ∨ (firstSet = lower ∧ lower < i ∧ lower < num ∧
    ∀ j, lower ≤ j → j < i → j < num → bitAt inp j = true)

/-- A few set bits more. -/
theorem Pending.set (h : Pending inp num i lower firstSet) (hi : i < num) (hsmall : num ≤ 2 ^ 31)
    (hpos : 0 < count) (hset : ∀ j, i ≤ j → j < i + count → bitAt inp j = true) :
    Pending inp num (i + count) lower (if firstSet = -1 then (i : ℤ).bmod (2 ^ 32)
      else firstSet) := by
  right
  rcases h with ⟨rfl, rfl⟩ | ⟨rfl, hlt, hnum, hrun⟩
  · rw [if_pos rfl, bmod_of_lt (by omega)]
    exact ⟨rfl, by omega, hi, fun j h1 h2 _ => hset j h1 h2⟩
  · rw [if_neg (by omega)]
    refine ⟨rfl, by omega, hnum, fun j h1 h2 h3 => ?_⟩
    rcases Nat.lt_or_ge j i with hj | hj
    · exact hrun j h1 hj h3
    · exact hset j hj h2

/-- The set bits of the buffer from one on are in the tree, at their place in the range. -/
structure Imported (inp : Block) (offset num lower : ℕ) (bp r : RbPrivate) : Prop where
  ok : r.Ok
  marked : ∀ k, Marked r.nodes k ↔
    Marked bp.nodes k ∨ ∃ j, lower ≤ j ∧ j < num ∧ bitAt inp j = true ∧ k = offset + j

/-- Clear bits are passed over. -/
theorem Imported.skip {offset : ℕ} {r : RbPrivate} (h : Imported inp offset num (i + count) bp r)
    (hclear : ∀ j, i ≤ j → j < i + count → bitAt inp j = false) :
    Imported inp offset num i bp r := by
  refine ⟨h.ok, fun k => (h.marked k).trans (or_congr_right ⟨?_, ?_⟩)⟩
  · rintro ⟨j, h1, h2⟩
    exact ⟨j, by omega, h2⟩
  · rintro ⟨j, h1, h2, hset, rfl⟩
    rcases Nat.lt_or_ge j (i + count) with hj | hj
    · rw [hclear j h1 hj] at hset
      cases hset
    · exact ⟨j, hj, h2, hset, rfl⟩

/-- **The loop of `rb_set_bmap_range`**, by induction on what is left of the range. -/
theorem rbSetLoop_spec (hbal : ∀ t l, (bal t l).inorder = l) (h : bp.Ok)
    (hstart : bmapStart ≤ start) (hfit : start - bmapStart + num ≤ 2 ^ 64) (hsmall : num ≤ 2 ^ 31)
    (hp : Pending inp num i lower firstSet) :
    Imported inp (start - bmapStart) num lower bp
      (rbSetLast bal bmapStart start num
        (rbSetLoop bal bmapStart start num inp i firstSet bp)) := by
  obtain ⟨n, hn⟩ : ∃ n, n = num - i := ⟨_, rfl⟩
  induction n using Nat.strong_induction_on generalizing i lower firstSet bp with
  | _ n ih =>
    rw [rbSetLoop]
    by_cases hlt : i < num
    · rw [if_pos hlt]
      by_cases hones : i % 8 = 0 ∧ inp (i / 8) = 255
      · -- a byte of set bits
        rw [if_pos hones]
        refine ih (num - (i + 8)) (by omega) h (hp.set hlt hsmall (by norm_num) fun j h1 h2 =>
          ?_) rfl
        exact bitAt_of_ones (by rw [show j / 8 = i / 8 by omega, hones.2])
      rw [if_neg hones]
      by_cases hzeros : i % 8 = 0 ∧ inp (i / 8) = 0 ∧ firstSet = -1
      · -- a byte of clear bits
        obtain ⟨-, rfl⟩ := hp.resolve_right fun hrun => by omega
        rw [if_pos hzeros]
        refine (ih (num - (lower + 8)) (by omega) h (Or.inl ⟨hzeros.2.2, rfl⟩) rfl).skip
          fun j h1 h2 => ?_
        rw [bitAt, show j / 8 = lower / 8 by omega, hzeros.2.1]
        exact Nat.zero_testBit _
      rw [if_neg hzeros]
      by_cases hset : bitAt inp i = true
      · rw [if_pos hset]
        refine ih (num - (i + 1)) (by omega) h (hp.set hlt hsmall Nat.one_pos fun j h1 h2 => ?_) rfl
        rwa [show j = i by omega]
      rw [if_neg hset]
      by_cases hnone : firstSet = -1
      · obtain ⟨-, rfl⟩ := hp.resolve_right fun hrun => by omega
        rw [if_pos hnone]
        refine (ih (num - (lower + 1)) (by omega) h (Or.inl ⟨hnone, rfl⟩) rfl).skip fun j h1 h2 =>
          ?_
        rw [show j = lower by omega]
        exact Bool.eq_false_iff.mpr hset
      · -- a run ends
        rw [if_neg hnone]
        obtain ⟨rfl, hlow, -, hrun⟩ := hp.resolve_left fun hno => hnone hno.1
        obtain ⟨hok, hmarked⟩ :=
          rbSetRun_spec hbal h hstart hlow.le (by omega : start - bmapStart + i ≤ 2 ^ 64) (by omega)
        have hrest := ih (num - (i + 1)) (by omega) hok (Or.inl ⟨rfl, rfl⟩) rfl
        refine ⟨hrest.ok, fun k => ?_⟩
        rw [hrest.marked, hmarked, or_assoc]
        refine or_congr_right ⟨?_, ?_⟩
        · rintro (⟨j, h1, h2, rfl⟩ | ⟨j, h1, h2, hbit, rfl⟩)
          · exact ⟨j, h1, by omega, hrun j h1 h2 (by omega), rfl⟩
          · exact ⟨j, by omega, h2, hbit, rfl⟩
        · rintro ⟨j, h1, h2, hbit, rfl⟩
          rcases Nat.lt_trichotomy j i with hj | rfl | hj
          · exact Or.inl ⟨j, h1, hj, rfl⟩
          · exact absurd hbit hset
          · exact Or.inr ⟨j, hj, h2, hbit, rfl⟩
    · -- the end of the range
      rw [if_neg hlt, rbSetLast]
      rcases hp with ⟨rfl, rfl⟩ | ⟨rfl, hlow, hnum, hrun⟩
      · rw [if_neg (not_not.mpr rfl)]
        refine ⟨h, fun k => (or_iff_left ?_).symm⟩
        rintro ⟨j, h1, h2, -⟩
        omega
      · rw [if_pos (by dsimp only; omega)]
        obtain ⟨hok, hmarked⟩ := rbSetRun_spec hbal h hstart hnum.le hfit hsmall
        refine ⟨hok, fun k => (hmarked k).trans (or_congr_right ⟨?_, ?_⟩)⟩
        · rintro ⟨j, h1, h2, rfl⟩
          exact ⟨j, h1, h2, hrun j h1 (by omega) h2, rfl⟩
        · rintro ⟨j, h1, h2, -, rfl⟩
          exact ⟨j, h1, h2, rfl⟩

/-- **`rb_set_bmap_range`** adds the bits of the buffer. -/
theorem rbSetRange_spec (hbal : ∀ t l, (bal t l).inorder = l) (h : bp.Ok)
    (hstart : bmapStart ≤ start) (hfit : start - bmapStart + num ≤ 2 ^ 64) (hsmall : num ≤ 2 ^ 31) :
    Imported inp (start - bmapStart) num 0 bp (rbSetRange bal bmapStart start num inp bp) :=
  rbSetLoop_spec hbal h hstart hfit hsmall (Or.inl ⟨rfl, rfl⟩)

/-! ### A run that begins behind the range of an `int` -/

/-- The byte that begins with the bit `2 ^ 31` has that bit set, and nothing else is set. -/
def farBit : Block := fun k => if k = 2 ^ 28 then 1 else 0

theorem bitAt_farBit : bitAt farBit m = true ↔ m = 2 ^ 31 := by
  rw [bitAt, farBit]
  split_ifs with h
  · show Nat.testBit 1 (m % 8) = true ↔ _
    rw [Nat.testBit_one_eq_true_iff_self_eq_zero]
    omega
  · show Nat.testBit 0 (m % 8) = true ↔ _
    rw [Nat.zero_testBit]
    exact ⟨Bool.noConfusion, fun hm => by omega⟩

/-- Clear bytes are passed over. -/
theorem rbSetLoop_skip {j : ℕ} (hi : i % 8 = 0) (hj : j % 8 = 0) (hle : i ≤ j) (hnum : j ≤ num)
    (hclear : ∀ k, i / 8 ≤ k → k < j / 8 → inp k = 0) :
    rbSetLoop bal bmapStart start num inp i (-1) bp =
      rbSetLoop bal bmapStart start num inp j (-1) bp := by
  obtain ⟨n, hn⟩ : ∃ n, j / 8 - i / 8 = n := ⟨_, rfl⟩
  induction n generalizing i with
  | zero => rw [show i = j by omega]
  | succ n ih =>
    have hbyte := hclear (i / 8) le_rfl (by omega)
    rw [rbSetLoop, if_pos (by omega), if_neg (by rw [hbyte]; exact fun h => absurd h.2 (by decide)),
      if_pos ⟨hi, hbyte, rfl⟩]
    exact ih (by omega) (by omega) (fun k h1 h2 => hclear k (by omega) h2) (by omega)

/-- Clear bits to the end of the range. -/
theorem rbSetLoop_clear (hclear : ∀ j, i ≤ j → j < num → bitAt inp j = false) :
    rbSetLoop bal bmapStart start num inp i (-1) bp = (-1, bp) := by
  obtain ⟨n, hn⟩ : ∃ n, n = num - i := ⟨_, rfl⟩
  induction n using Nat.strong_induction_on generalizing i with
  | _ n ih =>
    rw [rbSetLoop]
    by_cases hlt : i < num
    · have hbit := hclear i le_rfl hlt
      have hones : ¬(i % 8 = 0 ∧ inp (i / 8) = 255) := by
        rintro ⟨-, hbyte⟩
        rw [bitAt_of_ones hbyte] at hbit
        cases hbit
      rw [if_pos hlt, if_neg hones]
      by_cases hzeros : i % 8 = 0 ∧ inp (i / 8) = 0 ∧ (-1 : ℤ) = -1
      · rw [if_pos hzeros]
        exact ih (num - (i + 8)) (by omega) (fun j h1 h2 => hclear j (by omega) h2) rfl
      · rw [if_neg hzeros, if_neg (by rw [hbit]; exact Bool.noConfusion), if_pos rfl]
        exact ih (num - (i + 1)) (by omega) (fun j h1 h2 => hclear j (by omega) h2) rfl
    · rw [if_neg hlt]

/-- A clear buffer changes nothing. -/
theorem rbSetRange_clear (hclear : ∀ j, j < num → bitAt inp j = false) :
    rbSetRange bal bmapStart start num inp bp = bp := by
  rw [rbSetRange, rbSetLoop_clear fun j _ hj => hclear j hj, rbSetLast, if_neg (by simp)]

/-- The place of the bit is taken for a negative one. -/
theorem rbSetRange_farBit (hnum : 2 ^ 31 < num) :
    rbSetRange bal bmapStart start num farBit bp =
      (rbInsertExtent bal (((start : ℤ) - 2 ^ 31 - bmapStart) % 2 ^ 64).toNat
        (2 ^ 32 + 1) bp).2 := by
  have hmod : ((2 ^ 31 : ℕ) : ℤ).bmod (2 ^ 32) = -2 ^ 31 := by decide
  have hbit : ∀ j, 2 ^ 31 + 1 ≤ j → j < num → bitAt farBit j = false := fun j h1 _ =>
    Bool.eq_false_iff.mpr fun h => by have := bitAt_farBit.mp h; omega
  have hrun : rbSetRun bal bmapStart start (-2 ^ 31) (2 ^ 31 + 1) bp =
      (rbInsertExtent bal (((start : ℤ) - 2 ^ 31 - bmapStart) % 2 ^ 64).toNat (2 ^ 32 + 1) bp).2 :=
        rfl
  have hskip : rbSetLoop bal bmapStart start num farBit 0 (-1) bp =
      rbSetLoop bal bmapStart start num farBit (2 ^ 31) (-1) bp :=
    rbSetLoop_skip (by norm_num) (by norm_num) (Nat.zero_le _) hnum.le fun k _ hk =>
      if_neg (by omega)
  rw [rbSetRange, hskip, rbSetLoop, if_pos hnum, if_neg (by decide), if_neg (by decide),
    if_pos (by decide), if_pos rfl, hmod, ← hrun]
  rcases Nat.eq_or_lt_of_le (Nat.succ_le_of_lt hnum) with heq | hlt
  · rw [rbSetLoop, if_neg (by omega), rbSetLast, if_pos (by norm_num), ← heq]
  · have hset : ¬bitAt farBit (2 ^ 31 + 1) = true := by rw [bitAt_farBit]; omega
    rw [rbSetLoop, if_pos hlt, if_neg (by decide), if_neg (by decide), if_neg hset,
      if_neg (by decide), rbSetLoop_clear fun j h1 h2 => hbit j (by omega) h2, rbSetLast,
        if_neg (by simp)]

/-! ### Exporting from the tree -/

theorem bitAt_memcpy {dst src : Block} {p n : ℕ} : bitAt (memcpy dst p src n) m =
    if 8 * p ≤ m ∧ m < 8 * p + 8 * n then bitAt src (m - 8 * p) else bitAt dst m := by
  split_ifs with hin
  · rw [bitAt, memcpy_of_inside (by omega) (by omega), bitAt,
      show (m - 8 * p) / 8 = m / 8 - p by omega, show (m - 8 * p) % 8 = m % 8 by omega]
  · exact bitAt_congr (memcpy_of_outside (by omega))

/-- What a run that ends before the bit `2 ^ 31` of the buffer sets. -/
theorem bitAt_rbFill (h : start ≤ pos) (hfit : pos - start + count < 2 ^ 31) :
    ∃ out', rbFill start count pos out = some out' ∧ ∀ m, bitAt out' m = true ↔
      bitAt out m = true ∨ (pos - start ≤ m ∧ m < pos - start + count) := by
  induction count using Nat.strong_induction_on generalizing pos out with
  | _ count ih =>
    rw [rbFill]
    by_cases hpos : 0 < count
    · rw [if_pos hpos]
      by_cases hbytes : 8 ≤ count ∧ (pos - start) % 8 = 0
      · rw [if_pos hbytes, if_neg (by omega)]
        obtain ⟨out', hout, hbits⟩ := @ih (count - count / 8 * 8) (by omega)
          (memcpy out ((pos - start) / 8) (fun _ => 255) (count / 8)) (pos + count / 8 * 8)
          (by omega) (by omega)
        refine ⟨out', hout, fun m => ?_⟩
        rw [hbits, bitAt_memcpy]
        split_ifs with hin
        · exact ⟨fun _ => Or.inr (by omega), fun _ => Or.inl (bitAt_of_ones rfl)⟩
        · refine or_congr_right ?_
          omega
      · rw [if_neg hbytes]
        obtain ⟨out', hout, hbits⟩ := @ih (count - 1) (by omega) (setBitAt out (pos - start))
          (pos + 1) (by omega) (by omega)
        refine ⟨out', hout, fun m => ?_⟩
        rw [hbits, bitAt_setBitAt, Bool.or_eq_true, decide_eq_true_iff, or_assoc]
        refine or_congr_right ?_
        omega
    · rw [if_neg hpos]
      refine ⟨out, rfl, fun m => (or_iff_left ?_).symm⟩
      omega

/-- **The loop of `rb_get_bmap_range`** sets the bits of the nodes in the buffer, those of the
range. -/
theorem bitAt_rbGetNodes (hl : Apart l) (hsmall : num < 2 ^ 31) :
    ∃ out', rbGetNodes start num l out = some out' ∧
      ∀ m, bitAt out' m = true ↔ bitAt out m = true ∨ (m < num ∧ Marked l (start + m)) := by
  -- over the nodes in order: behind the range, in front of it, or reaching into it
  induction l generalizing out with
  | nil => exact ⟨out, rfl, fun m => (or_iff_left fun h => marked_nil h.2).symm⟩
  | cons x l ih =>
    obtain ⟨hx, hxl, hl'⟩ := Apart.cons_iff.mp hl
    rw [rbGetNodes]
    by_cases hfar : start + num ≤ x.start
    · rw [if_pos hfar]
      refine ⟨out, rfl, fun m => (or_iff_left ?_).symm⟩
      rw [marked_cons]
      rintro ⟨hm, hin | hin⟩
      · omega
      · refine not_marked_of_lt (fun y hy => ?_) hin
        have := hxl y hy
        rw [RbExtent.stop] at this
        omega
    rw [if_neg hfar]
    by_cases hbefore : x.start < start ∧ x.start + x.count < start
    · rw [if_pos hbefore]
      obtain ⟨out', hout, hbits⟩ := @ih out hl'
      refine ⟨out', hout, fun m => ?_⟩
      rw [hbits, marked_cons]
      refine or_congr_right (and_congr_right fun _ => (or_iff_right fun hin => ?_).symm)
      rw [RbExtent.stop] at hin
      omega
    · rw [if_neg hbefore]
      obtain ⟨pos, hpos⟩ : ∃ pos, pos = if x.start < start then start else x.start := ⟨_, rfl⟩
      obtain ⟨count, hcount⟩ : ∃ c, c = if x.start < start then x.count - (start - x.start)
        else x.count := ⟨_, rfl⟩
      obtain ⟨count', hcount'⟩ : ∃ c, c = if start + num < pos + count then start + num - pos
        else count := ⟨_, rfl⟩
      -- cut at both ends, the node stays inside the buffer
      have hle : start ≤ pos ∧ pos - start + count' ≤ num := by
        rw [hcount', hpos]
        rw [hpos] at hcount'
        split_ifs at hcount' ⊢ <;> omega
      obtain ⟨filled, hfill, hfilled⟩ := @bitAt_rbFill out start count' pos hle.1 (by omega)
      obtain ⟨out', hout, hbits⟩ := @ih filled hl'
      rw [← hpos, ← hcount]
      dsimp only
      rw [← hcount', hfill]
      refine ⟨out', hout, fun m => ?_⟩
      rw [hbits, hfilled, or_assoc, marked_cons, and_or_left]
      refine or_congr_right (or_congr_left ?_)
      rw [RbExtent.stop, hcount', hcount, hpos]
      split_ifs <;> omega

/-- **`rb_get_bmap_range`** is exact on a tree that is not empty, for a range that an `int` can
count, and leaves what is behind the last byte of the range. -/
theorem rbGetRange_spec (h : bp.Ok) (hne : bp.nodes ≠ []) (hsmall : num < 2 ^ 31) :
    ∃ out', rbGetRange bmapStart start num bp out = some out' ∧
      (∀ m < num, bitAt out' m = true ↔ Marked bp.nodes (start - bmapStart + m)) ∧
      ∀ m, 8 * ((num + 7) / 8) ≤ m → bitAt out' m = bitAt out m := by
  have hzero : ∀ m, bitAt (memcpy out 0 (fun _ => 0) ((num + 7) / 8)) m =
      if m < 8 * ((num + 7) / 8) then false else bitAt out m := by
    intro m
    rw [bitAt_memcpy]
    split_ifs with h1 h2 h2 <;> first | exact bitAt_zero _ | omega | rfl
  -- from the node at the end of the search on
  have hfrom : ∀ a x c, bp.nodes = a ++ x :: c → (∀ y ∈ a, y.stop ≤ start - bmapStart) →
      ∃ out', rbGetNodes (start - bmapStart) num (bp.onward x.id)
          (memcpy out 0 (fun _ => 0) ((num + 7) / 8)) = some out' ∧
        (∀ m < num, bitAt out' m = true ↔ Marked bp.nodes (start - bmapStart + m)) ∧
        ∀ m, 8 * ((num + 7) / 8) ≤ m → bitAt out' m = bitAt out m := by
    intro a x c hnodes ha
    have hapart := h.apart
    rw [hnodes, Apart.append_iff] at hapart
    obtain ⟨out', hout, hbits⟩ := @bitAt_rbGetNodes (memcpy out 0 (fun _ => 0) ((num + 7) / 8))
      (start - bmapStart) num (x :: c) hapart.2.1 hsmall
    rw [h.addresses.onward_eq hnodes]
    refine ⟨out', hout, fun m hm => ?_, fun m hm => ?_⟩
    · rw [hbits, hzero, if_pos (by omega), hnodes, marked_append]
      refine (or_iff_right Bool.noConfusion).trans ((and_iff_right hm).trans (or_iff_right ?_).symm)
      exact not_marked_of_gt fun y hy => by have := ha y hy; omega
    · rw [Bool.eq_iff_iff, hbits, hzero, if_neg (by omega)]
      exact or_iff_left fun hin => by omega
  rw [rbGetRange, if_neg hne]
  rcases hfind : bp.tree.find (cmpWithin (start - bmapStart)) none with ⟨found, parent⟩
  cases found with
  | some x =>
    have hsome : (bp.tree.find (cmpWithin (start - bmapStart)) none).1 = some x := by rw [hfind]
    obtain ⟨hx, hc⟩ := SearchTree.find_found hsome
    obtain ⟨a, c, hnodes⟩ := exists_middle hx
    have hin := cmpWithin_eq.mp hc
    have hapart := h.apart
    rw [RbPrivate.nodes, hnodes, Apart.middle_iff] at hapart
    exact hfrom a x c hnodes fun y hy => by have := hapart.2.2.2.1 y hy; omega
  | none =>
    have hnone : (bp.tree.find (cmpWithin (start - bmapStart)) none).1 = none := by rw [hfind]
    have hpar : (bp.tree.find (cmpWithin (start - bmapStart)) none).2 = parent := by rw [hfind]
    rcases SearchTree.find_gap (h.apart.sorted_within _) hnone with ⟨hnil, -⟩ |
      ⟨q, a, c, hq, hin, -, ha, -⟩
    · exact absurd hnil hne
    · rw [← hpar, hq]
      have hapart := h.apart
      rw [RbPrivate.nodes, hin, Apart.append_iff] at hapart
      exact hfrom a q c hin fun y hy => (cmpWithin_gt (hapart.1.pos y hy)).mp (ha y hy)

/-- An empty tree leaves the buffer alone. -/
theorem rbGetRange_of_empty (h : bp.nodes = []) :
    rbGetRange bmapStart start num bp out = some out := by
  rw [rbGetRange, if_pos h]

/-- A run of `2 ^ 31` bits is more than the `int`s can count. -/
theorem rbGetRange_of_long (h : bp.Ok)
    (hrun : ∀ j < 2 ^ 31, Marked bp.nodes (start - bmapStart + j)) :
    rbGetRange bmapStart start (2 ^ 31) bp out = none := by
  rcases @find_within (start - bmapStart) bp.tree h.apart none with ⟨x, hx, hfind, hlo, hhi⟩ |
    ⟨-, hnot⟩
  swap
  · exact absurd (hrun 0 (by norm_num)) hnot
  obtain ⟨a, c, hnodes⟩ := exists_middle hx
  have hne : bp.nodes ≠ [] := fun hempty => by
    rw [RbPrivate.nodes] at hempty
    rw [hempty] at hx
    cases hx
  -- the run goes on to the end of the range
  have hstop : start - bmapStart + 2 ^ 31 ≤ x.stop := by
    by_contra hlt
    refine h.apart.not_marked_stop hx ?_
    rw [show x.stop = start - bmapStart + (x.stop - (start - bmapStart)) by omega]
    exact hrun _ (by omega)
  rw [RbExtent.stop] at hstop
  rw [rbGetRange, if_neg hne]
  dsimp only
  rw [hfind]
  dsimp only [Option.or]
  rw [h.addresses.onward_eq hnodes, rbGetNodes, if_neg (by omega), if_neg (by omega)]
  dsimp only
  have hcount : (if start - bmapStart + 2 ^ 31 <
        (if x.start < start - bmapStart then start - bmapStart else x.start) +
          (if x.start < start - bmapStart then x.count - (start - bmapStart - x.start) else x.count)
      then start - bmapStart + 2 ^ 31 -
        (if x.start < start - bmapStart then start - bmapStart else x.start)
      else if x.start < start - bmapStart then x.count - (start - bmapStart - x.start)
        else x.count) = 2 ^ 31 := by
    split_ifs <;> omega
  have hpos : (if x.start < start - bmapStart then start - bmapStart else x.start) =
      start - bmapStart := by
    split_ifs <;> omega
  rw [hcount, hpos, rbFill, if_pos (by norm_num), if_pos (by omega), if_pos (by norm_num)]

/-! ### The array -/

theorem bitAt_baSetRange : bitAt (baSetRange start num inp b) m =
    if 8 * (start / 8) ≤ m ∧ m < 8 * (start / 8) + 8 * ((num + 7) / 8) then
      bitAt inp (m - 8 * (start / 8)) else bitAt b m :=
  bitAt_memcpy

theorem bitAt_baGetRange (hm : m < num) :
    bitAt (baGetRange start num b out) m = bitAt b (8 * (start / 8) + m) := by
  rw [baGetRange, bitAt_memcpy, if_pos (by omega), bitAt, bitAt, fromPos,
    show (m - 8 * 0) / 8 = m / 8 by omega, show start / 8 + m / 8 = (8 * (start / 8) + m) / 8 by
      omega, show (m - 8 * 0) % 8 = (8 * (start / 8) + m) % 8 by omega]

/-- A buffer in which every bit is the opposite of one. -/
theorem bitAt_const (c : Bool) (m : ℕ) : bitAt (fun _ => if c then 0 else 255) m = !c :=
  bitAt_of_skip rfl

/-! ### Both back ends -/

theorem rbTest_iff (h : bp.Ok) {k : ℕ} :
    rbTest bmapStart bp k = true ↔ Marked bp.nodes (k - bmapStart) :=
  (rbTestBit_spec h).answer

/-- **Import and export are exact exactly for an empty range, or** when the tree is not empty but
clear in the range, the range is not longer than an `int` can count, the bitmap begins in its
first byte, and the range ends with a byte or with the bitmap. -/
theorem rangeExact_iff (hbal : ∀ t l, (bal t l).inorder = l) (h : RbReachable bal bp) (b : Block)
    (hstart : bmapStart ≤ start) (hin : start + num ≤ bmapEnd + 1)
    (hbyte : (start - bmapStart) % 8 = 0) (hend : bmapEnd < 2 ^ 64) :
    RangeExact bal bmapStart bmapEnd start num bp b ↔ num = 0 ∨
      (bp.nodes ≠ [] ∧ (∀ k, start ≤ k → k < start + num → rbTest bmapStart bp k = false) ∧
        num < 2 ^ 31 ∧
        bmapStart < 8 ∧ (num % 8 = 0 ∨ start + num = bmapEnd + 1)) := by
  have hok := h.ok hbal
  constructor
  · intro hexact
    refine or_iff_not_imp_left.mpr fun hpos => ?_
    have hclear : ∀ k, start ≤ k → k < start + num → rbTest bmapStart bp k = false := by
      intro k hlo hhi
      have hset := hexact.rbSet (fun _ => 0) (k - start) (by omega)
      rwa [rbSetRange_clear fun j _ => bitAt_zero j, bitAt_zero, Nat.add_sub_cancel' hlo] at hset
    have hlow : bmapStart < 8 := by
      -- the array is written at the wrong byte
      by_contra hlate
      have hset :=
        hexact.baSet (fun _ => if bitAt b (start - bmapStart) then 0 else 255) 0 (by omega)
      rw [Nat.add_zero, bitAt_baSetRange, if_neg (by omega), bitAt_const] at hset
      exact (Bool.eq_not_self _).mp hset
    refine ⟨fun hempty => ?_, hclear, ?_, hlow, ?_⟩
    · -- the buffer is left alone
      obtain ⟨out', hout, hget⟩ := hexact.rbGet (fun _ => 255)
      obtain rfl := Option.some.inj ((rbGetRange_of_empty hempty).symm.trans hout)
      have hzero := hget 0 (by omega)
      rw [bitAt_of_ones rfl, eq_comm, rbTest_iff hok, hempty] at hzero
      exact marked_nil hzero
    · by_contra hlarge
      rcases Nat.eq_or_lt_of_le (Nat.le_of_not_lt hlarge) with rfl | hlarge
      · -- a run that is too long
        obtain ⟨out', hout, -⟩ := hexact.rbRound (fun _ => 255) (fun _ => 0)
        have himp := @rbSetRange_spec bal bp (fun _ => 255) bmapStart start (2 ^ 31) hbal hok hstart
          (by omega) le_rfl
        rw [rbGetRange_of_long himp.ok fun j hj => (himp.marked _).mpr
          (Or.inr ⟨j, Nat.zero_le _, hj, bitAt_of_ones rfl, rfl⟩)] at hout
        cases hout
      -- a run that begins too far behind
      have hfar := hexact.rbSet farBit (2 ^ 31) (by omega)
      have hbefore := hexact.rbSet farBit (2 ^ 31 - 1) (by omega)
      have hnot : bitAt farBit (2 ^ 31 - 1) = false := Bool.eq_false_iff.mpr fun hbit => by
        have := bitAt_farBit.mp hbit
        omega
      obtain ⟨pos, hposdef⟩ : ∃ pos, pos = (((start : ℤ) - 2 ^ 31 - bmapStart) % 2 ^ 64).toNat :=
        ⟨_, rfl⟩
      have hm := @rbInsertExtent_spec bal bp pos (2 ^ 32 + 1) hbal hok
      rw [rbSetRange_farBit (by omega), ← hposdef, bitAt_farBit.mpr rfl, rbTest_iff hm.ok,
        hm.marked] at hfar
      rw [rbSetRange_farBit (by omega), ← hposdef, hnot, rbTest_eq_false hm.ok, hm.marked,
        not_or] at hbefore
      rcases Nat.lt_or_ge (start - bmapStart) (2 ^ 31) with hnear | hhigh
      · rcases hfar with hwas | hnow
        · exact absurd hwas ((rbTest_eq_false hok).mp
            (hclear (start + 2 ^ 31) (by omega) (by omega)))
        · omega
      · omega
    · -- the bits behind the range are in its last byte
      by_contra! hnot
      have hkeep := hexact.baKeep (fun _ => if bitAt b (start + num - bmapStart) then 0
        else 255) (start + num) (by omega)
        (by omega) (by omega)
      rw [bitAt_baSetRange, if_pos (by omega), bitAt_const, eq_comm] at hkeep
      exact (Bool.eq_not_self _).mp hkeep
  · have hbaRound : ∀ inp out i, i < num →
        bitAt (baGetRange start num (baSetRange start num inp b) out) i = bitAt inp i := by
      intro inp out i hi
      rw [bitAt_baGetRange hi, bitAt_baSetRange, if_pos (by omega), Nat.add_sub_cancel_left]
    rintro (rfl | ⟨hne, hclear, hsmall, hlow, hlast⟩)
    · have hget : ∀ {bp : RbPrivate}, bp.Ok → ∀ out, ∃ out',
          rbGetRange bmapStart start 0 bp out = some out' := by
        intro bp hok out
        by_cases hne : bp.nodes = []
        · exact ⟨out, rbGetRange_of_empty hne⟩
        · obtain ⟨out', hout, -⟩ := @rbGetRange_spec bp out bmapStart start 0 hok hne (by norm_num)
          exact ⟨out', hout⟩
      have hsame : ∀ inp, rbSetRange bal bmapStart start 0 inp bp = bp := fun inp =>
        rbSetRange_clear fun j hj => by omega
      refine ⟨fun out => ?_, fun _ _ hi => by omega, fun inp k _ _ _ => ?_, fun inp out => ?_,
        fun _ _ hi => by omega, fun _ _ hi => by omega, fun inp k _ _ _ => ?_, hbaRound⟩
      · obtain ⟨out', hout⟩ := hget hok out
        exact ⟨out', hout, fun i hi => by omega⟩
      · rw [hsame]
      · rw [hsame]
        obtain ⟨out', hout⟩ := hget hok out
        exact ⟨out', hout, fun i hi => by omega⟩
      · rw [bitAt_baSetRange, if_neg (by omega)]
    · have himp : ∀ inp, Imported inp (start - bmapStart) num 0 bp
          (rbSetRange bal bmapStart start num inp bp) :=
        fun inp => rbSetRange_spec hbal hok hstart (by omega) hsmall.le
      -- a bit of the range is set behind the import exactly if it is set in the buffer
      have hset : ∀ inp i, i < num →
          (Marked (rbSetRange bal bmapStart start num inp bp).nodes (start - bmapStart + i) ↔
            bitAt inp i = true) := by
        intro inp i hi
        have hwas := (rbTest_eq_false hok).mp (hclear (start + i) (by omega) (by omega))
        rw [show start + i - bmapStart = start - bmapStart + i by omega] at hwas
        rw [(himp inp).marked, or_iff_right hwas]
        constructor
        · rintro ⟨j, -, -, hbit, hj⟩
          rwa [show i = j by omega]
        · exact fun hbit => ⟨i, Nat.zero_le _, hi, hbit, rfl⟩
      refine ⟨fun out => ?_, fun inp i hi => ?_, fun inp k hlo hhi hout => ?_, fun inp out => ?_,
        fun out i hi => ?_, fun inp i hi => ?_, fun inp k hlo hhi hout => ?_, hbaRound⟩
      · obtain ⟨out', hout, hbits, -⟩ := @rbGetRange_spec bp out bmapStart start num hok hne hsmall
        refine ⟨out', hout, fun i hi => ?_⟩
        rw [Bool.eq_iff_iff, hbits i hi, rbTest_iff hok,
          show start + i - bmapStart = start - bmapStart + i by omega]
      · rw [Bool.eq_iff_iff, rbTest_iff (himp inp).ok,
          show start + i - bmapStart = start - bmapStart + i by omega, hset inp i hi]
      · rw [Bool.eq_iff_iff, rbTest_iff (himp inp).ok, rbTest_iff hok, (himp inp).marked]
        refine or_iff_left ?_
        rintro ⟨j, -, hj, -, hk⟩
        omega
      · have hne' : (rbSetRange bal bmapStart start num inp bp).nodes ≠ [] := by
          obtain ⟨x, hx⟩ := List.exists_mem_of_ne_nil _ hne
          have hpos := RbExtent.start_lt_stop (hok.apart.pos x hx)
          intro hempty
          have hmark := ((himp inp).marked x.start).mpr (Or.inl ⟨x, hx, le_rfl, hpos⟩)
          rw [hempty] at hmark
          exact marked_nil hmark
        obtain ⟨out', hout, hbits, -⟩ :=
          @rbGetRange_spec _ out bmapStart start num (himp inp).ok hne' hsmall
        refine ⟨out', hout, fun i hi => ?_⟩
        rw [Bool.eq_iff_iff, hbits i hi, hset inp i hi]
      · rw [bitAt_baGetRange hi, show 8 * (start / 8) + i = start + i - bmapStart by omega]
      · rw [bitAt_baSetRange, if_pos (by omega),
          show start + i - bmapStart - 8 * (start / 8) = i by omega]
      · rw [bitAt_baSetRange, if_neg (by omega)]

/-- A bit that is set is not cleared by an import of clear bits. -/
theorem not_rangeExact_markedAtFive : RbReachable (fun _ l => .ofList l) markedAtFive ∧
    ¬RangeExact (fun _ l => .ofList l) 0 15 0 16 markedAtFive fun _ => 0 := by
  refine ⟨.insert 5 1 .new, fun h => ?_⟩
  have hset := h.rbSet (fun _ => 0) 5 (by decide)
  rw [rbSetRange_clear fun j _ => bitAt_zero j] at hset
  exact absurd hset (by decide)

theorem rangeExact_markedAtFive :
    RangeExact (fun _ l => .ofList l) 0 15 8 8 markedAtFive fun _ => 0 :=
  (rangeExact_iff (fun _ l => SearchTree.inorder_ofList l) (.insert 5 1 .new) _ (by decide)
    (by decide) (by decide)
    (by norm_num)).mpr (Or.inr ⟨by decide, fun k hlo hhi => by interval_cases k <;> decide,
      by norm_num, by decide, Or.inl (by decide)⟩)

end Range

end E2fsprogs
