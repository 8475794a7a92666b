import E2fsprogs.Lib.BitArray
import E2fsprogs.Lib.Memcpy

/-!
# The bitmap that is an array of bits

`lib/ext2fs/blkmap64_ba.c`. Bits are counted from the start of the bitmap.
-/

namespace E2fsprogs

/-- The number of bytes of a bitmap: `((bitmap->real_end - bitmap->start) / 8) + 1`. -/
def baSize (start realEnd : ℕ) : ℕ := (realEnd - start) / 8 + 1

/-- `ba_mark_bmap`: the old value, and the array. -/
def baMark (bit : ℕ) (b : Block) : Bool × Block := (bitAt b bit, setBitAt b bit)

/-- `ba_unmark_bmap`. -/
def baUnmark (bit : ℕ) (b : Block) : Bool × Block := (bitAt b bit, clearBitAt b bit)

/-- `ba_mark_bmap_extent`. -/
def baMarkExtent (bit num : ℕ) (b : Block) : Block :=
  (List.range num).foldl (fun b i => setBitAt b (bit + i)) b

/-- `ba_unmark_bmap_extent`. -/
def baUnmarkExtent (bit num : ℕ) (b : Block) : Block :=
  (List.range num).foldl (fun b i => clearBitAt b (bit + i)) b

/-- The mask of so many bits, from one downwards. -/
def maskDown : ℕ → ℕ → ℕ
  | 0, _ => 0
  | i + 1, markBit => 2 ^ markBit ||| maskDown i (markBit - 1)

/-- `ext2fs_mem_is_zero`. -/
def memIsZero (b : Block) (pos len : ℕ) : Bool := (List.range len).all fun i => b (pos + i) = 0

/-- `ba_test_clear_bmap_extent`, once the range begins with a byte. -/
def baTestClearBytes (startByte lenBit lenByte : ℕ) (b : Block) : Bool :=
  if lenBit ≠ 0 then
    if maskDown lenBit (lenBit - 1) &&& (b (startByte + lenByte)).toNat ≠ 0 then false
    else if lenByte = 0 then true
    else memIsZero b startByte lenByte
  else memIsZero b startByte lenByte

/-- `ba_test_clear_bmap_extent`. -/
def baTestClear (start len : ℕ) (b : Block) : Bool :=
  let startByte := start / 8
  let startBit := start % 8
  if startBit ≠ 0 then
    let markCount := if len < 8 - startBit then len else 8 - startBit
    let markBit := if len < 8 - startBit then len + startBit - 1 else 7
    if maskDown markCount markBit &&& (b startByte).toNat ≠ 0 then false
    else if len ≤ 8 - startBit then true
    else baTestClearBytes (startByte + 1) ((len - markCount) % 8) ((len - markCount) / 8) b
  else baTestClearBytes startByte (len % 8) (len / 8) b

/-- `ba_clear_bmap`, and `ba_new_bmap`. -/
def baClear (start realEnd : ℕ) (b : Block) : Block :=
  memcpy b 0 (fun _ => 0) (baSize start realEnd)

/-- `ba_copy_bmap`, into what has been allocated. -/
def baCopy (start realEnd : ℕ) (b dest : Block) : Block := memcpy dest 0 b (baSize start realEnd)

/-- The loop of `ba_resize_bmap`, from `bitno` down to `oldEnd`. -/
def baClearDown (start oldEnd : ℕ) : ℕ → Block → Block
  | 0, b => b
  | bitno + 1, b => if oldEnd < bitno + 1 then
    baClearDown start oldEnd bitno (clearBitAt b (bitno + 1 - start)) else b

/-- `ext2fs_resize_mem`: what lies behind the old size is what the memory holds. -/
def resizeMem (b : Block) (size newSize : ℕ) (mem : Block) : Block :=
  fun i => if i < size ∧ i < newSize then b i else mem i

/-- `ba_resize_bmap`, for a bitmap from `start` to `oldEnd` and `oldRealEnd`. -/
def baResize (start oldEnd oldRealEnd newEnd newRealEnd : ℕ) (mem b : Block) : Block :=
  let b := if oldEnd < newEnd then baClearDown start oldEnd (if newEnd < oldRealEnd then newEnd
    else oldRealEnd) b else b
  if newRealEnd = oldRealEnd then b
  else
    let size := baSize start oldRealEnd
    let newSize := baSize start newRealEnd
    let b := if size ≠ newSize then resizeMem b size newSize mem else b
    if size < newSize then memcpy b size (fun _ => 0) (newSize - size) else b

section Specs

variable {b : Block} {bit num start len m : ℕ}

theorem bitAt_baMark : bitAt (baMark bit b).2 m = true ↔ bitAt b m = true ∨ m = bit := by
  rw [baMark, bitAt_setBitAt, Bool.or_eq_true, decide_eq_true_iff, @eq_comm _ bit m]

theorem bitAt_baUnmark : bitAt (baUnmark bit b).2 m = true ↔ bitAt b m = true ∧ m ≠ bit := by
  rw [baUnmark, bitAt_clearBitAt, Bool.and_eq_true, Bool.not_eq_true',
    decide_eq_false_iff_not, ne_comm]

theorem bitAt_baMarkExtent : bitAt (baMarkExtent bit num b) m = true ↔
    bitAt b m = true ∨ (bit ≤ m ∧ m < bit + num) := by
  induction num with
  | zero => exact ⟨Or.inl, fun h => h.resolve_right fun h => by omega⟩
  | succ num ih =>
    rw [baMarkExtent, List.range_succ, List.foldl_append, List.foldl_cons, List.foldl_nil,
      ← baMarkExtent, bitAt_setBitAt, Bool.or_eq_true, ih, decide_eq_true_iff, or_assoc]
    refine or_congr_right ?_
    omega

theorem bitAt_baUnmarkExtent : bitAt (baUnmarkExtent bit num b) m = true ↔
    bitAt b m = true ∧ ¬(bit ≤ m ∧ m < bit + num) := by
  induction num with
  | zero => exact ⟨fun h => ⟨h, by omega⟩, And.left⟩
  | succ num ih =>
    rw [baUnmarkExtent, List.range_succ, List.foldl_append, List.foldl_cons, List.foldl_nil,
      ← baUnmarkExtent, bitAt_clearBitAt, Bool.and_eq_true, ih, Bool.not_eq_true',
      decide_eq_false_iff_not, and_assoc]
    refine and_congr_right fun _ => ?_
    omega

/-- The mask has the bits down from the first one. -/
theorem testBit_maskDown {i markBit k : ℕ} (h : i ≤ markBit + 1) :
    (maskDown i markBit).testBit k = true ↔ markBit + 1 ≤ k + i ∧ k ≤ markBit := by
  induction i generalizing markBit with
  | zero =>
    rw [maskDown, Nat.zero_testBit]
    exact ⟨nofun, fun h => by omega⟩
  | succ i ih =>
    rw [maskDown, Nat.testBit_or, Bool.or_eq_true, Nat.testBit_two_pow, decide_eq_true_iff]
    rcases Nat.eq_zero_or_pos markBit with rfl | hpos
    · obtain rfl : i = 0 := by omega
      rw [maskDown, Nat.zero_testBit]
      constructor
      · rintro (rfl | hbad)
        · omega
        · cases hbad
      · intro hk
        exact Or.inl (by omega)
    · rw [ih (by omega)]
      omega

/-- No bit of a mask is set in a byte. -/
theorem and_mask_eq_zero_iff {mask : ℕ} (x : UInt8) :
    mask &&& x.toNat = 0 ↔ ∀ k, mask.testBit k = true → x.toNat.testBit k = false := by
  constructor
  · intro h k hk
    have hand : (mask &&& x.toNat).testBit k = false := by rw [h, Nat.zero_testBit]
    rwa [Nat.testBit_and, hk, Bool.true_and] at hand
  · intro h
    refine Nat.eq_of_testBit_eq fun k => ?_
    rw [Nat.testBit_and, Nat.zero_testBit]
    cases hk : mask.testBit k with
    | false => rfl
    | true => rw [h k hk, Bool.and_false]

theorem memIsZero_iff (pos len : ℕ) : memIsZero b pos len = true ↔
    ∀ m, 8 * pos ≤ m → m < 8 * pos + 8 * len → bitAt b m = false := by
  rw [← bytes_eq_zero_iff, memIsZero, List.all_eq_true]
  constructor
  · exact fun h k hk => of_decide_eq_true (h k (List.mem_range.mpr hk))
  · exact fun h k hk => decide_eq_true (h k (List.mem_range.mp hk))

theorem baTestClearBytes_iff {startByte lenBit lenByte : ℕ} (hbit : lenBit < 8) :
    baTestClearBytes startByte lenBit lenByte b = true ↔
      ∀ m, 8 * startByte ≤ m → m < 8 * startByte + (8 * lenByte + lenBit) → bitAt b m = false := by
  rw [baTestClearBytes]
  by_cases hzero : lenBit = 0
  · rw [if_neg (not_not.mpr hzero), memIsZero_iff, hzero, Nat.add_zero]
  · rw [if_pos hzero]
    -- the bits of the last byte
    have hlast : maskDown lenBit (lenBit - 1) &&& (b (startByte + lenByte)).toNat = 0 ↔
        ∀ m, 8 * (startByte + lenByte) ≤ m → m < 8 * (startByte + lenByte) + lenBit →
          bitAt b m = false := by
      rw [and_mask_eq_zero_iff]
      constructor
      · intro h m hlo hhi
        have hm : m = 8 * (startByte + lenByte) + (m - 8 * (startByte + lenByte)) := by omega
        rw [hm, bitAt_mul_add _ (by omega)]
        exact h _ ((testBit_maskDown (by omega)).mpr (by omega))
      · intro h k hk
        have hk' := (testBit_maskDown (by omega)).mp hk
        rw [← bitAt_mul_add _ (by omega : k < 8)]
        exact h _ (by omega) (by omega)
    have hbytes := @memIsZero_iff b startByte lenByte
    split_ifs with hmask hnone
    · refine ⟨nofun, fun hall =>
        absurd (hlast.mpr fun m hlo hhi => hall m (by omega) (by omega)) hmask⟩
    · rw [not_not, hlast] at hmask
      exact ⟨fun _ m hlo hhi => hmask m (by omega) (by omega), fun _ => rfl⟩
    · rw [not_not, hlast] at hmask
      rw [hbytes]
      constructor
      · intro hall m hlo hhi
        by_cases hm : m < 8 * startByte + 8 * lenByte
        · exact hall m hlo hm
        · exact hmask m (by omega) (by omega)
      · exact fun hall m hlo hhi => hall m hlo (by omega)

/-- **`ba_test_clear_bmap_extent`** tells whether no bit of the range is set. -/
theorem baTestClear_iff : baTestClear start len b = true ↔ ∀ m, start ≤ m → m < start + len →
    bitAt b m = false := by
  rw [baTestClear]
  dsimp only
  by_cases hzero : start % 8 = 0
  · rw [if_neg (not_not.mpr hzero), baTestClearBytes_iff (Nat.mod_lt _ (by norm_num))]
    have h1 : 8 * (start / 8) = start := by omega
    have h2 : 8 * (len / 8) + len % 8 = len := by omega
    rw [h1, h2]
  · rw [if_pos hzero]
    obtain ⟨count, hcount⟩ : ∃ count, count = if len < 8 - start % 8 then len else 8 - start % 8 :=
      ⟨_, rfl⟩
    obtain ⟨markBit, hmarkBit⟩ : ∃ k, k = if len < 8 - start % 8 then len + start % 8 - 1 else 7 :=
      ⟨_, rfl⟩
    rw [← hcount, ← hmarkBit]
    have hcm : count = markBit + 1 - start % 8 ∧ markBit < 8 ∧
      start % 8 ≤ markBit + 1 ∧ count ≤ len ∧
        (len ≤ 8 - start % 8 → count = len) ∧ (8 - start % 8 < len → markBit = 7) := by
      rw [hcount, hmarkBit]
      split_ifs <;> omega
    -- the bits of the first byte
    have hfirst : maskDown count markBit &&& (b (start / 8)).toNat = 0 ↔
        ∀ m, start ≤ m → m < start + count → bitAt b m = false := by
      rw [and_mask_eq_zero_iff]
      constructor
      · intro h m hlo hhi
        have hm : m = 8 * (start / 8) + (m - 8 * (start / 8)) := by omega
        rw [hm, bitAt_mul_add _ (by omega)]
        exact h _ ((testBit_maskDown (by omega)).mpr (by omega))
      · intro h k hk
        have hk' := (testBit_maskDown (by omega)).mp hk
        rw [← bitAt_mul_add _ (by omega : k < 8)]
        exact h _ (by omega) (by omega)
    split_ifs with hmask hshort
    · refine ⟨nofun, fun hall => absurd (hfirst.mpr fun m hlo hhi => hall m hlo (by omega)) hmask⟩
    · rw [not_not, hfirst] at hmask
      exact ⟨fun _ m hlo hhi => hmask m hlo (by omega), fun _ => rfl⟩
    · rw [not_not, hfirst] at hmask
      rw [baTestClearBytes_iff (Nat.mod_lt _ (by norm_num))]
      have h1 : 8 * (start / 8 + 1) = start + count := by omega
      have h2 : start + count + (8 * ((len - count) / 8) + (len - count) % 8) = start + len := by
        omega
      rw [h1, h2]
      constructor
      · intro hall m hlo hhi
        by_cases hm : m < start + count
        · exact hmask m hlo hm
        · exact hall m (by omega) hhi
      · exact fun hall m hlo hhi => hall m (by omega) hhi

/-- The bits of a bitmap lie in its bytes. -/
theorem div_lt_baSize {realEnd : ℕ} (h : m ≤ realEnd - start) : m / 8 < baSize start realEnd := by
  rw [baSize]
  omega

theorem bitAt_baClear {realEnd : ℕ} (h : m ≤ realEnd - start) :
    bitAt (baClear start realEnd b) m = false := by
  have hbyte : baClear start realEnd b (m / 8) = 0 :=
    memcpy_of_inside (Nat.zero_le _) (by have := div_lt_baSize h; omega)
  rw [bitAt, hbyte]
  exact Nat.zero_testBit _

theorem bitAt_baCopy {realEnd : ℕ} {dest : Block} (h : m ≤ realEnd - start) :
    bitAt (baCopy start realEnd b dest) m = bitAt b m := by
  refine bitAt_congr ?_
  have hbyte : baCopy start realEnd b dest (m / 8) = b (m / 8 - 0) :=
    memcpy_of_inside (Nat.zero_le _) (by have := div_lt_baSize h; omega)
  rw [hbyte, Nat.sub_zero]

end Specs

end E2fsprogs
