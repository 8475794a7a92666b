import Mathlib

/-!
# Blocks of bytes and big-endian fields

A disk block is read and written through fields: a fixed number of bytes at a
fixed offset, most significant byte first. This file gives the two operations –
`E2fsprogs.getBe` reads a field, `E2fsprogs.putBe` stores one – for every width
at once, and the three facts every format proof is made of: a stored field reads
back (`E2fsprogs.getBe_putBe`), a field is untouched by a store elsewhere
(`E2fsprogs.getBe_putBe_of_disjoint`), and a field is bounded by its width
(`E2fsprogs.getBe_lt`).

A block is a function from offsets to bytes. Its size is a parameter of whoever
looks at the whole of it (`E2fsprogs.bytesOf`); a store never needs it.
-/

namespace E2fsprogs

/-- The bytes of a disk block, by offset. -/
abbrev Block := ℕ → UInt8

/-- The first `n` bytes of a block, as a list. -/
def bytesOf (b : Block) (n : ℕ) : List UInt8 :=
  (List.range n).map b

/-- The bytes of a block that is zero from `k` on. -/
theorem bytesOf_add {b : Block} {k : ℕ} (h : ∀ i, k ≤ i → b i = 0) (n : ℕ) :
    bytesOf b (k + n) = bytesOf b k ++ List.replicate n 0 := by
  rw [bytesOf, bytesOf, List.range_add, List.map_append, List.map_map]
  congr 1
  refine List.eq_replicate_iff.mpr ⟨by simp, fun x hx => ?_⟩
  obtain ⟨i, -, rfl⟩ := List.mem_map.mp hx
  exact h _ (Nat.le_add_right k i)

/-- The big-endian field of `n` bytes at offset `o`. -/
def getBe (b : Block) (o : ℕ) : ℕ → ℕ
  | 0 => 0
  | n + 1 => (b o).toNat * 256 ^ n + getBe b (o + 1) n

/-- The little-endian field of `n` bytes at offset `o`. -/
def getLe (b : Block) (o : ℕ) : ℕ → ℕ
  | 0 => 0
  | n + 1 => (b o).toNat + 256 * getLe b (o + 1) n

/-- The `n` bytes of a block from offset `o` on. -/
def bytesAt (b : Block) (o n : ℕ) : List UInt8 :=
  (List.range n).map fun i => b (o + i)

/-- Store `v` in the big-endian field of `n` bytes at offset `o`, dropping the
high part of `v` that does not fit. -/
def putBe (b : Block) (o n v : ℕ) : Block := fun i =>
  if o ≤ i ∧ i < o + n then UInt8.ofNat (v / 256 ^ (o + n - 1 - i)) else b i

/-- Store `v` in the little-endian field of `n` bytes at offset `o`, dropping the high part of
`v` that does not fit. -/
def putLe (b : Block) (o n v : ℕ) : Block := fun i =>
  if o ≤ i ∧ i < o + n then UInt8.ofNat (v / 256 ^ (i - o)) else b i

/-- Store a list of bytes from offset `o` on. -/
def putBytes (b : Block) (o : ℕ) (l : List UInt8) : Block := fun i =>
  if o ≤ i ∧ i < o + l.length then l.getD (i - o) 0 else b i

/-- The block of zero bytes. -/
def zeroBlock : Block := fun _ => 0

theorem getBe_lt (b : Block) (n : ℕ) : ∀ o, getBe b o n < 256 ^ n := by
  induction n with
  | zero => intro o; simp [getBe]
  | succ n ih =>
    intro o
    have h1 : (b o).toNat ≤ 255 := by
      have := (b o).toNat_lt
      omega
    have h2 := ih (o + 1)
    calc getBe b o (n + 1) = (b o).toNat * 256 ^ n + getBe b (o + 1) n := rfl
      _ < 255 * 256 ^ n + 256 ^ n := by
        have := Nat.mul_le_mul_right (256 ^ n) h1
        omega
      _ = 256 ^ (n + 1) := by ring

/-- A field only depends on its own bytes. -/
theorem getBe_congr {b c : Block} {n : ℕ} :
    ∀ {o : ℕ}, (∀ i, o ≤ i → i < o + n → b i = c i) → getBe b o n = getBe c o n := by
  induction n with
  | zero => intro o _; rfl
  | succ n ih =>
    intro o h
    have h0 : b o = c o := h o (by omega) (by omega)
    have h1 : getBe b (o + 1) n = getBe c (o + 1) n := ih fun i h1 h2 => h i (by omega) (by omega)
    rw [getBe, getBe, h0, h1]

theorem putBe_of_outside {b : Block} {o n v i : ℕ} (h : i < o ∨ o + n ≤ i) :
    putBe b o n v i = b i := by
  rw [putBe, if_neg (by omega)]

/-- **A store elsewhere leaves a field alone.** -/
theorem getBe_putBe_of_disjoint {b : Block} {o n v p m : ℕ} (h : p + m ≤ o ∨ o + n ≤ p) :
    getBe (putBe b o n v) p m = getBe b p m :=
  getBe_congr fun i _ _ => putBe_of_outside (by omega)

theorem getBe_putBytes_of_disjoint {b : Block} {o p m : ℕ} {l : List UInt8}
    (h : p + m ≤ o ∨ o + l.length ≤ p) : getBe (putBytes b o l) p m = getBe b p m :=
  getBe_congr fun i _ _ => by rw [putBytes, if_neg (by omega)]

/-- **A stored field reads back**, up to the part that does not fit. -/
theorem getBe_putBe_mod (n : ℕ) :
    ∀ (b : Block) (o v : ℕ), getBe (putBe b o n v) o n = v % 256 ^ n := by
  induction n with
  | zero => intro b o v; simp [getBe, Nat.mod_one]
  | succ n ih =>
    intro b o v
    have hhead : (putBe b o (n + 1) v o).toNat = v / 256 ^ n % 256 := by
      rw [putBe, if_pos (by omega)]
      have : o + (n + 1) - 1 - o = n := by omega
      rw [this, UInt8.toNat_ofNat']
    have htail : getBe (putBe b o (n + 1) v) (o + 1) n = getBe (putBe b (o + 1) n v) (o + 1) n := by
      refine getBe_congr fun i h1 h2 => ?_
      have he : o + (n + 1) - 1 - i = o + 1 + n - 1 - i := by omega
      rw [putBe, if_pos (by omega), putBe, if_pos (by omega), he]
    rw [getBe, hhead, htail, ih]
    have hpow : (256 : ℕ) ^ (n + 1) = 256 ^ n * 256 := pow_succ 256 n
    rw [hpow, Nat.mod_mul]
    ring

/-- A stored field reads back. -/
theorem getBe_putBe {n v : ℕ} (b : Block) (o : ℕ) (h : v < 256 ^ n) :
    getBe (putBe b o n v) o n = v := by
  rw [getBe_putBe_mod, Nat.mod_eq_of_lt h]

/-- The later of two stores to a field wins. -/
theorem putBe_putBe (b : Block) (o n v v' : ℕ) : putBe (putBe b o n v) o n v' = putBe b o n v' := by
  funext i
  simp only [putBe]
  split <;> rfl

/-- Two blocks with the same first bytes have the same contents as lists. -/
theorem bytesOf_congr {b c : Block} {n : ℕ} (h : ∀ i < n, b i = c i) :
    bytesOf b n = bytesOf c n :=
  List.map_congr_left fun i hi => h i (List.mem_range.mp hi)

/-- Storing the field that is already there changes nothing. -/
theorem putBe_getBe_self (n : ℕ) (b : Block) (o : ℕ) : putBe b o n (getBe b o n) = b := by
  induction n generalizing o with
  | zero =>
    funext i
    exact putBe_of_outside (by omega)
  | succ n ih =>
    funext i
    have hlt := getBe_lt b n (o + 1)
    have hpos : 0 < 256 ^ n := Nat.pow_pos (by norm_num)
    by_cases hi : o ≤ i ∧ i < o + (n + 1)
    · rw [putBe, if_pos hi]
      rcases Nat.lt_or_ge o i with hlt' | hge
      · -- past the first byte the shifts agree with those of the shorter field
        have htail := congrFun (ih (o + 1)) i
        rw [putBe, if_pos (by omega)] at htail
        rw [← htail]
        set k := o + 1 + n - 1 - i with hk
        have hk' : o + (n + 1) - 1 - i = k := by omega
        have hkn : k < n := by omega
        rw [hk', getBe]
        have hsplit : 256 ^ n = 256 ^ k * (256 * 256 ^ (n - k - 1)) := by
          rw [← pow_succ', ← pow_add]
          congr 1
          omega
        have hdiv : ((b o).toNat * 256 ^ n + getBe b (o + 1) n) / 256 ^ k
            = (b o).toNat * (256 * 256 ^ (n - k - 1)) + getBe b (o + 1) n / 256 ^ k := by
          rw [hsplit, Nat.add_comm, Nat.mul_left_comm,
            Nat.add_mul_div_left _ _ (Nat.pow_pos (by norm_num)), Nat.add_comm]
        rw [hdiv]
        apply UInt8.toNat.inj
        rw [UInt8.toNat_ofNat', UInt8.toNat_ofNat']
        have : (b o).toNat * (256 * 256 ^ (n - k - 1)) =
            256 * ((b o).toNat * 256 ^ (n - k - 1)) := by
          ring
        omega
      · obtain rfl : o = i := by omega
        have he : o + (n + 1) - 1 - o = n := by omega
        rw [he, getBe, Nat.add_comm, Nat.add_mul_div_right _ _ hpos,
          Nat.div_eq_of_lt hlt, Nat.zero_add]
        exact UInt8.ofNat_toNat
    · exact putBe_of_outside (by omega)

/-! ### Little-endian fields and runs of bytes -/

theorem getLe_lt (b : Block) (n : ℕ) : ∀ o, getLe b o n < 256 ^ n := by
  induction n with
  | zero => intro o; simp [getLe]
  | succ n ih =>
    intro o
    have h1 := (b o).toNat_lt
    have h2 := ih (o + 1)
    rw [getLe, pow_succ]
    omega

/-- A field only depends on its own bytes. -/
theorem getLe_congr {b c : Block} {n : ℕ} :
    ∀ {o : ℕ}, (∀ i, o ≤ i → i < o + n → b i = c i) → getLe b o n = getLe c o n := by
  induction n with
  | zero => intro o _; rfl
  | succ n ih =>
    intro o h
    have h0 : b o = c o := h o (by omega) (by omega)
    have h1 : getLe b (o + 1) n = getLe c (o + 1) n := ih fun i h1 h2 => h i (by omega) (by omega)
    rw [getLe, getLe, h0, h1]

theorem putLe_of_outside {b : Block} {o n v i : ℕ} (h : i < o ∨ o + n ≤ i) :
    putLe b o n v i = b i := by
  rw [putLe, if_neg (by omega)]

theorem getLe_putLe_of_disjoint {b : Block} {o n v p m : ℕ} (h : p + m ≤ o ∨ o + n ≤ p) :
    getLe (putLe b o n v) p m = getLe b p m :=
  getLe_congr fun i _ _ => putLe_of_outside (by omega)

/-- A stored field reads back, up to the part that does not fit. -/
theorem getLe_putLe_mod (n : ℕ) :
    ∀ (b : Block) (o v : ℕ), getLe (putLe b o n v) o n = v % 256 ^ n := by
  induction n with
  | zero => intro b o v; simp [getLe, Nat.mod_one]
  | succ n ih =>
    intro b o v
    have hhead : (putLe b o (n + 1) v o).toNat = v % 256 := by
      rw [putLe, if_pos (by omega), Nat.sub_self, pow_zero, Nat.div_one, UInt8.toNat_ofNat']
    have htail : getLe (putLe b o (n + 1) v) (o + 1) n =
        getLe (putLe b (o + 1) n (v / 256)) (o + 1) n := by
      refine getLe_congr fun i h1 h2 => ?_
      rw [putLe, if_pos (by omega), putLe, if_pos (by omega), Nat.div_div_eq_div_mul, ← pow_succ',
        show i - (o + 1) + 1 = i - o by omega]
    rw [getLe, hhead, htail, ih, pow_succ', Nat.mod_mul]

theorem getLe_putLe {n v : ℕ} (b : Block) (o : ℕ) (h : v < 256 ^ n) :
    getLe (putLe b o n v) o n = v := by
  rw [getLe_putLe_mod, Nat.mod_eq_of_lt h]

theorem putBytes_of_outside {b : Block} {o i : ℕ} {l : List UInt8} (h : i < o ∨ o + l.length ≤ i) :
    putBytes b o l i = b i := by
  rw [putBytes, if_neg (by omega)]

theorem getLe_putBytes_of_disjoint {b : Block} {o p m : ℕ} {l : List UInt8}
    (h : p + m ≤ o ∨ o + l.length ≤ p) : getLe (putBytes b o l) p m = getLe b p m :=
  getLe_congr fun i _ _ => putBytes_of_outside (by omega)

@[simp] theorem length_bytesAt (b : Block) (o n : ℕ) : (bytesAt b o n).length = n := by
  rw [bytesAt, List.length_map, List.length_range]

theorem bytesAt_congr {b c : Block} {o n : ℕ} (h : ∀ i, o ≤ i → i < o + n → b i = c i) :
    bytesAt b o n = bytesAt c o n := by
  refine List.map_congr_left fun i hi => ?_
  have := List.mem_range.mp hi
  exact h _ (by omega) (by omega)

/-- Stored bytes read back. -/
theorem bytesAt_putBytes (b : Block) (o : ℕ) (l : List UInt8) :
    bytesAt (putBytes b o l) o l.length = l := by
  refine List.ext_getElem (by simp) fun i h1 h2 => ?_
  simp only [bytesAt, List.getElem_map, List.getElem_range]
  rw [putBytes, if_pos (by omega), Nat.add_sub_cancel_left, List.getD_eq_getElem _ _ h2]

end E2fsprogs
