import E2fsprogs.Lib.Bytes

/-!
# Bits in a block of bytes

The bit `n` of a block is the bit `n % 8` of its byte `n / 8`, as `ext2fs_set_bit64` and its
relatives have it. Setting and clearing a bit changes no other one.
-/

namespace E2fsprogs

/-- A bit of a block. -/
def bitAt (b : Block) (n : ℕ) : Bool := (b (n / 8)).toNat.testBit (n % 8)

/-- Set a bit. -/
def setBitAt (b : Block) (n : ℕ) : Block :=
  Function.update b (n / 8) (UInt8.ofNat ((b (n / 8)).toNat ||| 2 ^ (n % 8)))

/-- Clear a bit. -/
def clearBitAt (b : Block) (n : ℕ) : Block :=
  Function.update b (n / 8) (UInt8.ofNat ((b (n / 8)).toNat &&& (255 ^^^ 2 ^ (n % 8))))

section Bits

variable {b b' : Block} {n m : ℕ}

theorem bitAt_congr (h : b' (n / 8) = b (n / 8)) : bitAt b' n = bitAt b n := by
  rw [bitAt, bitAt, h]

/-- Two bits of one byte at one place are the same bit. -/
theorem eq_of_div_of_mod (h : n / 8 = m / 8) (h' : n % 8 = m % 8) : n = m := by
  omega

theorem testBit_255 {k : ℕ} (h : k < 8) : (255 : ℕ).testBit k = true := by
  interval_cases k <;> rfl

theorem bitAt_setBitAt (b : Block) (n m : ℕ) :
    bitAt (setBitAt b n) m = (bitAt b m || decide (n = m)) := by
  rw [bitAt, setBitAt]
  by_cases hbyte : m / 8 = n / 8
  · have hpow : 2 ^ (n % 8) < 2 ^ 8 :=
      Nat.pow_lt_pow_right (by norm_num) (Nat.mod_lt n (by norm_num))
    have hlt : (b (n / 8)).toNat ||| 2 ^ (n % 8) < 2 ^ 8 :=
      Nat.or_lt_two_pow (UInt8.toNat_lt _) hpow
    rw [hbyte, Function.update_self, UInt8.toNat_ofNat_of_lt' hlt, Nat.testBit_or,
      Nat.testBit_two_pow, bitAt, hbyte]
    congr 1
    rw [decide_eq_decide]
    exact ⟨fun h => eq_of_div_of_mod hbyte.symm h, fun h => by rw [h]⟩
  · rw [Function.update_of_ne hbyte, bitAt, decide_eq_false (fun h => hbyte (by rw [h])),
      Bool.or_false]

theorem bitAt_clearBitAt (b : Block) (n m : ℕ) :
    bitAt (clearBitAt b n) m = (bitAt b m && !decide (n = m)) := by
  rw [bitAt, clearBitAt]
  by_cases hbyte : m / 8 = n / 8
  · have hlt : (b (n / 8)).toNat &&& (255 ^^^ 2 ^ (n % 8)) < 2 ^ 8 :=
      lt_of_le_of_lt Nat.and_le_left (UInt8.toNat_lt _)
    rw [hbyte, Function.update_self, UInt8.toNat_ofNat_of_lt' hlt, Nat.testBit_and, Nat.testBit_xor,
      Nat.testBit_two_pow, testBit_255 (Nat.mod_lt m (by norm_num)), bitAt, hbyte, Bool.true_xor]
    congr 2
    rw [decide_eq_decide]
    exact ⟨fun h => eq_of_div_of_mod hbyte.symm h, fun h => by rw [h]⟩
  · rw [Function.update_of_ne hbyte, bitAt, decide_eq_false (fun h => hbyte (by rw [h])),
      Bool.not_false, Bool.and_true]

@[simp] theorem bitAt_zero (n : ℕ) : bitAt (fun _ => 0) n = false := Nat.zero_testBit _

/-- A byte is zero exactly if its bits are. -/
theorem byte_eq_zero_iff (x : UInt8) : x = 0 ↔ ∀ k < 8, x.toNat.testBit k = false := by
  constructor
  · rintro rfl k -
    exact Nat.zero_testBit k
  · intro h
    rw [← UInt8.toNat_inj]
    refine Nat.eq_of_testBit_eq fun k => ?_
    rcases Nat.lt_or_ge k 8 with hk | hk
    · rw [h k hk]
      exact (Nat.zero_testBit k).symm
    · rw [Nat.testBit_lt_two_pow
        (lt_of_lt_of_le (UInt8.toNat_lt x) (Nat.pow_le_pow_right (by norm_num) hk))]
      exact (Nat.zero_testBit k).symm

/-- A byte has all bits exactly if it is 255. -/
theorem byte_eq_ones_iff (x : UInt8) : x = 255 ↔ ∀ k < 8, x.toNat.testBit k = true := by
  constructor
  · rintro rfl k hk
    exact testBit_255 hk
  · intro h
    rw [← UInt8.toNat_inj]
    refine Nat.eq_of_testBit_eq fun k => ?_
    rcases Nat.lt_or_ge k 8 with hk | hk
    · rw [h k hk]
      exact (testBit_255 hk).symm
    · rw [Nat.testBit_lt_two_pow
        (lt_of_lt_of_le (UInt8.toNat_lt x) (Nat.pow_le_pow_right (by norm_num) hk)),
        Nat.testBit_lt_two_pow (lt_of_lt_of_le (UInt8.toNat_lt 255)
          (Nat.pow_le_pow_right (by norm_num) hk))]

/-- The bits of a byte of a block. -/
theorem bitAt_mul_add {k : ℕ} (i : ℕ) (hk : k < 8) :
    bitAt b (8 * i + k) = (b i).toNat.testBit k := by
  rw [bitAt, show (8 * i + k) / 8 = i by omega, show (8 * i + k) % 8 = k by omega]

/-- Bytes from one on are zero exactly if their bits are. -/
theorem bytes_eq_zero_iff (i n : ℕ) :
    (∀ k < n, b (i + k) = 0) ↔ ∀ m, 8 * i ≤ m → m < 8 * i + 8 * n → bitAt b m = false := by
  constructor
  · intro h m hlo hhi
    have hbyte := h (m / 8 - i) (by omega)
    rw [show i + (m / 8 - i) = m / 8 by omega] at hbyte
    exact (byte_eq_zero_iff _).mp hbyte _ (Nat.mod_lt m (by norm_num))
  · intro h k hk
    refine (byte_eq_zero_iff _).mpr fun j hj => ?_
    rw [← bitAt_mul_add _ hj]
    exact h _ (by omega) (by omega)

end Bits

/-! ### The first of a range -/

/-- The first number from `lo` on, of so many, that has a property. -/
def firstIn (p : ℕ → Bool) (lo count : ℕ) : Option ℕ := (List.range' lo count).find? p

section First

variable {p : ℕ → Bool} {lo count n : ℕ}

theorem firstIn_succ : firstIn p lo (count + 1) = if p lo = true then some lo
    else firstIn p (lo + 1) count := by
  rw [firstIn, List.range'_succ, List.find?_cons, firstIn]
  cases p lo with
  | true => rfl
  | false => rfl

/-- What does not have the property is passed over. -/
theorem firstIn_skip {k : ℕ} (hk : k ≤ count) (h : ∀ m, lo ≤ m → m < lo + k → p m = false) :
    firstIn p lo count = firstIn p (lo + k) (count - k) := by
  induction k generalizing lo count with
  | zero => rw [Nat.add_zero, Nat.sub_zero]
  | succ k ih =>
    obtain ⟨count, rfl⟩ := Nat.exists_eq_add_of_le' (Nat.one_le_of_lt hk)
    rw [firstIn_succ, if_neg (by rw [h lo le_rfl (by omega)]; exact Bool.noConfusion),
      ih (by omega) fun m hlo hhi => h m (by omega) (by omega), Nat.add_right_comm, Nat.add_assoc,
      Nat.add_sub_add_right]

theorem firstIn_eq_none : firstIn p lo count = none ↔ ∀ m, lo ≤ m → m < lo + count →
    p m = false := by
  rw [firstIn, List.find?_eq_none]
  constructor
  · exact fun h m hlo hhi => Bool.eq_false_iff.mpr (h m (List.mem_range'_1.mpr ⟨hlo, hhi⟩))
  · intro h m hm
    obtain ⟨hlo, hhi⟩ := List.mem_range'_1.mp hm
    exact Bool.eq_false_iff.mp (h m hlo hhi)

theorem firstIn_eq_some (h : firstIn p lo count = some n) :
    IsLeast {m | lo ≤ m ∧ m < lo + count ∧ p m = true} n := by
  induction count generalizing lo with
  | zero => cases h
  | succ count ih =>
    rw [firstIn_succ] at h
    split_ifs at h with hp
    · obtain rfl := Option.some.inj h
      exact ⟨⟨le_rfl, by omega, hp⟩, fun m hm => hm.1⟩
    · obtain ⟨⟨hlo, hhi, hn⟩, hleast⟩ := ih h
      refine ⟨⟨by omega, by omega, hn⟩, fun m hm => hleast ⟨?_, by have := hm.2.1; omega, hm.2.2⟩⟩
      refine Nat.lt_of_le_of_ne hm.1 ?_
      rintro rfl
      exact hp hm.2.2

end First

end E2fsprogs
