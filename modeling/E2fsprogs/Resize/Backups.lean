import Mathlib

/-!
# The groups with a backup of the superblock

Two ways to go through them: `list_backups` of `lib/ext2fs/res_gdt.c` has three counters that run
over the powers of 3, 5 and 7 and takes the least, and `ext2fs_bg_has_super` of
`lib/ext2fs/closefs.c` tests a group. They find the same groups in the same order, as long as the
counters, which have 32 bits, do not wrap around: after `5 ^ 13` the counter of the powers of five
goes on with `5 ^ 14 % 2 ^ 32`, which is less than the powers of 3 and 7 that are next.
-/

namespace E2fsprogs

/-- The fields of the superblock that say where the backups are. -/
structure BackupGeometry where
  groupDescCount : ℕ
  sparseSuper : Bool
  sparseSuper2 : Bool
  backupBgs : ℕ × ℕ

variable (g : BackupGeometry)

/-! ### Testing a group -/

/-- `test_root`: the loop has at most `n` rounds. -/
def testRoot : ℕ → ℕ → ℕ → Bool
  | 0, _, _ => false
  | n + 1, a, b =>
    if a < b then false
    else if a = b then true
    else if a % b ≠ 0 then false
    else testRoot n (a / b) b

/-- `ext2fs_bg_has_super`. -/
def bgHasSuper (group : ℕ) : Bool :=
  if group = 0 then true
  else if g.sparseSuper2 then decide (group = g.backupBgs.1 ∨ group = g.backupBgs.2)
  else if group ≤ 1 ∨ g.sparseSuper = false then true
  else if group % 2 = 0 then false
  else testRoot group group 3 || testRoot group group 5 || testRoot group group 7

/-! ### Going through the groups -/

/-- The counters of `list_backups`. -/
structure BackupCounters where
  three : ℕ
  five : ℕ
  seven : ℕ

/-- `list_backups`: a group, and the counters for the next call. -/
def listBackups (c : BackupCounters) : ℕ × BackupCounters :=
  if g.sparseSuper2 then
    if c.three = 1 ∧ g.backupBgs.1 ≠ 0 then (g.backupBgs.1, { c with three := 2 })
    else if (c.three = 1 ∨ c.three = 2) ∧
      g.backupBgs.2 ≠ 0 then (g.backupBgs.2, { c with three := 3 })
    else (g.groupDescCount, { c with three := if c.three = 1 ∨ c.three = 2 then 3 else c.three })
  else if g.sparseSuper = false then (c.three, { c with three := (c.three + 1) % 2 ^ 32 })
  else if c.five < c.three then
    if c.seven < c.five then (c.seven, { c with seven := c.seven * 7 % 2 ^ 32 })
    else (c.five, { c with five := c.five * 5 % 2 ^ 32 })
  else if c.seven < c.three then (c.seven, { c with seven := c.seven * 7 % 2 ^ 32 })
  else (c.three, { c with three := c.three * 3 % 2 ^ 32 })

/-- The values the counters are set to. -/
def firstCounters : BackupCounters := ⟨1, 5, 7⟩

/-- The groups that a loop over `list_backups` goes through in at most `n` rounds. -/
def backupsFrom : ℕ → BackupCounters → List ℕ
  | 0, _ => []
  | n + 1, c =>
    if (listBackups g c).1 < g.groupDescCount then
      (listBackups g c).1 :: backupsFrom n (listBackups g c).2
    else []

/-! ### Powers -/

/-- A proper power of a number. -/
def IsPower (b a : ℕ) : Prop := ∃ k, a = b ^ (k + 1)

theorem testRoot_iff {b : ℕ} (hb : 2 ≤ b) :
    ∀ {n a : ℕ}, 0 < a → a ≤ n → (testRoot n a b = true ↔ IsPower b a) := by
  intro n
  induction n with
  | zero => intro a h0 h1; omega
  | succ n ih =>
    intro a ha hn
    rw [testRoot]
    split
    · next hlt =>
      refine iff_of_false Bool.false_ne_true ?_
      rintro ⟨k, rfl⟩
      have : b ^ 1 ≤ b ^ (k + 1) := Nat.pow_le_pow_right (by omega) (by omega)
      rw [pow_one] at this
      omega
    · split
      · next heq => exact iff_of_true rfl ⟨0, by rw [heq, zero_add, pow_one]⟩
      · next hne =>
        split
        · next hmod =>
          refine iff_of_false Bool.false_ne_true ?_
          rintro ⟨k, rfl⟩
          exact hmod (by rw [pow_succ, Nat.mul_mod_left])
        · next hmod =>
          have hdvd : b ∣ a := Nat.dvd_of_mod_eq_zero (not_not.mp hmod)
          obtain ⟨q, rfl⟩ := hdvd
          have hq : 0 < q := Nat.pos_of_mul_pos_left ha
          rw [Nat.mul_div_cancel_left q (by omega), ih hq (by
            have : 2 * q ≤ b * q := Nat.mul_le_mul_right q hb
            omega)]
          constructor
          · rintro ⟨k, rfl⟩
            exact ⟨k + 1, by rw [pow_succ' b (k + 1)]⟩
          · rintro ⟨k, hk⟩
            cases k with
            | zero =>
              rw [zero_add, pow_one] at hk
              exact absurd hk hne
            | succ k =>
              rw [pow_succ' b (k + 1)] at hk
              exact ⟨k, Nat.eq_of_mul_eq_mul_left (by omega) hk⟩

/-- A group with a backup, when they are at the powers. -/
def BackupPower (a : ℕ) : Prop := a = 1 ∨ IsPower 3 a ∨ IsPower 5 a ∨ IsPower 7 a

theorem bgHasSuper_sparse (hs : g.sparseSuper = true) (hs2 : g.sparseSuper2 = false) {a : ℕ}
    (ha : 0 < a) :
    bgHasSuper g a = true ↔ BackupPower a := by
  have hodd : ∀ b, b % 2 = 1 → ∀ {k}, b ^ k % 2 = 1 := by
    intro b hb k
    rw [Nat.pow_mod, hb, one_pow, Nat.one_mod]
  rw [bgHasSuper, if_neg (by omega), hs2, if_neg Bool.false_ne_true]
  split
  · next hle =>
    rcases hle with hle | hle
    · exact iff_of_true rfl (Or.inl (by omega))
    · rw [hs] at hle
      cases hle
  · next hgt =>
    split
    · next heven =>
      refine iff_of_false Bool.false_ne_true ?_
      rintro (rfl | ⟨k, rfl⟩ | ⟨k, rfl⟩ | ⟨k, rfl⟩)
      · cases heven
      · rw [hodd 3 rfl] at heven
        cases heven
      · rw [hodd 5 rfl] at heven
        cases heven
      · rw [hodd 7 rfl] at heven
        cases heven
    · rw [Bool.or_eq_true, Bool.or_eq_true, testRoot_iff (by decide) ha (le_refl a),
        testRoot_iff (by decide) ha (le_refl a), testRoot_iff (by decide) ha (le_refl a), or_assoc]
      constructor
      · exact Or.inr
      · rintro (h1 | h)
        · omega
        · exact h

/-! ### The two ways lead to the same groups -/

variable {g}

/-- The least number from `m` on with a property. -/
def LeastFrom (P : ℕ → Prop) (m x : ℕ) : Prop := P x ∧ m ≤ x ∧ ∀ y, P y → m ≤ y → x ≤ y

theorem LeastFrom.later {P : ℕ → Prop} {m m' x : ℕ} (h : LeastFrom P m x) (hm : m ≤ m')
    (hx : m' ≤ x) :
    LeastFrom P m' x := ⟨h.1, hx, fun y hy hm' => h.2.2 y hy (hm.trans hm')⟩

/-- The next power. -/
theorem leastFrom_mul {b j : ℕ} (hb : 2 ≤ b) (x : ℕ) (hx : ∃ k, x = b ^ (k + j)) :
    LeastFrom (fun a => ∃ k, a = b ^ (k + j)) (x + 1) (x * b) := by
  obtain ⟨k, rfl⟩ := hx
  have hpow : ∀ i, 0 < b ^ i := fun i => Nat.pow_pos (by omega)
  refine ⟨⟨k + 1, by rw [Nat.add_right_comm, pow_succ]⟩, ?_, ?_⟩
  · have h1 : b ^ (k + j) * 2 ≤ b ^ (k + j) * b := Nat.mul_le_mul_left _ hb
    have h2 := hpow (k + j)
    omega
  · rintro y ⟨i, rfl⟩ hlt
    have hki : k + j < i + j := (Nat.pow_lt_pow_iff_right (by omega)).mp hlt
    rw [← pow_succ]
    exact Nat.pow_le_pow_right (by omega) hki

/-- The counters of a loop that has gone through the groups before `m`. -/
structure BackupCounters.Upto (c : BackupCounters) (m : ℕ) : Prop where
  three : LeastFrom (fun a => ∃ k, a = 3 ^ (k + 0)) m c.three
  five : LeastFrom (fun a => ∃ k, a = 5 ^ (k + 1)) m c.five
  seven : LeastFrom (fun a => ∃ k, a = 7 ^ (k + 1)) m c.seven

theorem firstCounters_upto : firstCounters.Upto 1 where
  three := ⟨⟨0, rfl⟩, le_refl _, fun _ _ h => h⟩
  five := ⟨⟨0, rfl⟩, by decide, by
    rintro y ⟨k, rfl⟩ -
    exact Nat.le_self_pow (by omega) 5⟩
  seven := ⟨⟨0, rfl⟩, by decide, by
    rintro y ⟨k, rfl⟩ -
    exact Nat.le_self_pow (by omega) 7⟩

theorem backupPower_iff {a : ℕ} : BackupPower a ↔
    (∃ k, a = 3 ^ (k + 0)) ∨ (∃ k, a = 5 ^ (k + 1)) ∨ ∃ k, a = 7 ^ (k + 1) := by
  constructor
  · rintro (rfl | ⟨k, rfl⟩ | h | h)
    · exact Or.inl ⟨0, rfl⟩
    · exact Or.inl ⟨k + 1, rfl⟩
    · exact Or.inr (Or.inl h)
    · exact Or.inr (Or.inr h)
  · rintro (⟨k, rfl⟩ | h | h)
    · cases k with
      | zero => exact Or.inl rfl
      | succ k => exact Or.inr (Or.inl ⟨k, rfl⟩)
    · exact Or.inr (Or.inr (Or.inl h))
    · exact Or.inr (Or.inr (Or.inr h))

/-- Powers of different primes are different. -/
theorem pow_ne_pow {p q i j : ℕ} (hp : p.Prime) (hq : q.Prime) (hne : p ≠ q) :
    p ^ (i + 1) ≠ q ^ j := by
  intro h
  have hdvd : p ∣ q ^ j := h ▸ dvd_pow_self p (by omega)
  exact hne ((Nat.prime_dvd_prime_iff_eq hp hq).mp (hp.dvd_of_dvd_pow hdvd))

/-- **A call of `list_backups`** gives the next group, and the counters go on behind it, up to the
last power of five that has 32 bits. -/
theorem listBackups_sparse (hs : g.sparseSuper = true) (hs2 : g.sparseSuper2 = false)
    {c : BackupCounters} {m : ℕ} (h : c.Upto m) : LeastFrom BackupPower m (listBackups g c).1 ∧
      ((listBackups g c).1 < 5 ^ 13 → (listBackups g c).2.Upto ((listBackups g c).1 + 1)) := by
  have hleast : ∀ x, BackupPower x → m ≤ x → x ≤ c.three → x ≤ c.five → x ≤ c.seven →
      LeastFrom BackupPower m x := by
    intro x hx hm h3 h5 h7
    refine ⟨hx, hm, fun y hy hmy => ?_⟩
    rcases backupPower_iff.mp hy with hy | hy | hy
    · exact h3.trans (h.three.2.2 y hy hmy)
    · exact h5.trans (h.five.2.2 y hy hmy)
    · exact h7.trans (h.seven.2.2 y hy hmy)
  have h53 : c.five ≠ c.three := by
    obtain ⟨i, hi⟩ := h.five.1
    obtain ⟨j, hj⟩ := h.three.1
    rw [hi, hj]
    exact pow_ne_pow (by norm_num) (by norm_num) (by decide)
  have h73 : c.seven ≠ c.three := by
    obtain ⟨i, hi⟩ := h.seven.1
    obtain ⟨j, hj⟩ := h.three.1
    rw [hi, hj]
    exact pow_ne_pow (by norm_num) (by norm_num) (by decide)
  have h75 : c.seven ≠ c.five := by
    obtain ⟨i, hi⟩ := h.seven.1
    obtain ⟨j, hj⟩ := h.five.1
    rw [hi, hj]
    exact pow_ne_pow (by norm_num) (by norm_num) (by decide)
  -- whichever counter is the least
  have hseven : c.seven < c.three → c.seven < c.five → LeastFrom BackupPower m c.seven ∧
      (c.seven < 5 ^ 13 → BackupCounters.Upto { c with seven := c.seven * 7 % 2 ^ 32 }
        (c.seven + 1)) := by
    intro h1 h2
    refine ⟨hleast _ (backupPower_iff.mpr (Or.inr (Or.inr h.seven.1))) h.seven.2.1 h1.le h2.le
      (le_refl _), fun hlt => ⟨h.three.later (h.seven.2.1.trans (by omega)) h1,
        h.five.later (h.seven.2.1.trans (by omega)) h2, ?_⟩⟩
    have hfit : c.seven * 7 < 2 ^ 32 := by
      obtain ⟨k, hk⟩ := h.seven.1
      rw [hk] at hlt ⊢
      have hk : k + 1 < 11 := (Nat.pow_lt_pow_iff_right (by decide)).mp (hlt.trans (by norm_num))
      calc 7 ^ (k + 1) * 7 = 7 ^ (k + 1 + 1) := (pow_succ 7 (k + 1)).symm
        _ ≤ 7 ^ 11 := Nat.pow_le_pow_right (by decide) hk
        _ < 2 ^ 32 := by norm_num
    rw [Nat.mod_eq_of_lt hfit]
    exact leastFrom_mul (by decide) _ h.seven.1
  rw [listBackups, hs2, if_neg Bool.false_ne_true, hs, if_neg Bool.true_eq_false.mp]
  split
  · next hlt =>
    split
    · next hlt' => exact hseven (by omega) hlt'
    · next hge =>
      refine ⟨hleast _ (backupPower_iff.mpr (Or.inr (Or.inl h.five.1))) h.five.2.1 hlt.le
        (le_refl _) (by omega), fun hlt' => ⟨h.three.later (h.five.2.1.trans (by omega)) hlt, ?_,
          h.seven.later (h.five.2.1.trans (by omega)) (by show c.five + 1 ≤ c.seven; omega)⟩⟩
      have hfit : c.five * 5 < 2 ^ 32 := by
        obtain ⟨k, hk⟩ := h.five.1
        dsimp only at hlt'
        rw [hk] at hlt' ⊢
        have hk : k + 1 < 13 := (Nat.pow_lt_pow_iff_right (by decide)).mp hlt'
        calc 5 ^ (k + 1) * 5 = 5 ^ (k + 1 + 1) := (pow_succ 5 (k + 1)).symm
          _ ≤ 5 ^ 13 := Nat.pow_le_pow_right (by decide) hk
          _ < 2 ^ 32 := by norm_num
      dsimp only
      rw [Nat.mod_eq_of_lt hfit]
      exact leastFrom_mul (by decide) _ h.five.1
  · split
    · next hlt' => exact hseven hlt' (by omega)
    · refine ⟨hleast _ (backupPower_iff.mpr (Or.inl h.three.1)) h.three.2.1 (le_refl _)
        (by omega) (by omega), fun hlt' =>
          ⟨?_, h.five.later (h.three.2.1.trans (by omega)) (by show c.three + 1 ≤ c.five; omega),
            h.seven.later (h.three.2.1.trans (by omega)) (by show c.three + 1 ≤ c.seven; omega)⟩⟩
      dsimp only at hlt' ⊢
      rw [Nat.mod_eq_of_lt (by omega)]
      exact leastFrom_mul (by decide) _ h.three.1

/-- The groups before the least one are passed over. -/
theorem filter_range'_least {P : ℕ → Bool} {m x k : ℕ} (h : LeastFrom (fun a => P a = true) m x) :
    (List.range' m k).filter P =
      if x < m + k then x :: (List.range' (x + 1) (m + k - (x + 1))).filter P else [] := by
  have hbelow : ∀ i, i ≤ x - m → (List.range' m i).filter P = [] := by
    intro i hi
    refine List.filter_eq_nil_iff.mpr fun y hy hP => ?_
    have hy := List.mem_range'_1.mp hy
    have := h.2.2 y hP hy.1
    omega
  have hmx := h.2.1
  split
  · next hlt =>
    rw [show k = x - m + (1 + (m + k - (x + 1))) by omega, ← List.range'_append_1,
      List.filter_append, hbelow _ (le_refl _), List.nil_append, Nat.add_sub_cancel' hmx,
      ← List.range'_append_1, List.filter_append]
    have hx : (List.range' x 1).filter P = [x] := by
      rw [List.range'_one, List.filter_cons_of_pos h.1, List.filter_nil]
    rw [hx, show m + (x - m + (1 + (m + k - (x + 1)))) - (x + 1) = m + k - (x + 1) by omega]
    rfl
  · exact hbelow k (by omega)

/-- `5 ^ 14`, in 32 bits. -/
def wrappedFive : ℕ := 1808548329

theorem wrappedFive_eq : 5 ^ 13 * 5 % 2 ^ 32 = wrappedFive := by norm_num [wrappedFive]

/-- The counters of a loop that has come to the last power of five. -/
theorem BackupCounters.Upto.last {c : BackupCounters} {m : ℕ} (h : c.Upto m) (hm : m ≤ 5 ^ 13)
    (h3 : 5 ^ 13 < c.three) (h7 : 5 ^ 13 < c.seven) : c.three = 3 ^ 20 ∧ c.seven = 7 ^ 11 := by
  have hleast : ∀ b i j x, 2 ≤ b → LeastFrom (fun a => ∃ k, a = b ^ (k + j)) m x → 5 ^ 13 < x →
      b ^ (i + j) < 5 ^ 13 → 5 ^ 13 < b ^ (i + 1 + j) → x = b ^ (i + 1 + j) := by
    rintro b i j x hb ⟨⟨k, rfl⟩, -, hle⟩ hx hi hi'
    refine le_antisymm (hle _ ⟨i + 1, rfl⟩ (hm.trans hi'.le)) (Nat.pow_le_pow_right (by omega) ?_)
    have := (Nat.pow_lt_pow_iff_right (by omega)).mp (hi.trans hx)
    omega
  exact ⟨hleast 3 19 0 _ (by decide) h.three h3 (by norm_num) (by norm_num),
    hleast 7 9 1 _ (by decide) h.seven h7 (by norm_num) (by norm_num)⟩

/-- At the last power of five, the next counter is the wrapped one, and no group is passed over on
the way to it. -/
theorem listBackups_last (hs : g.sparseSuper = true) (hs2 : g.sparseSuper2 = false)
    {c : BackupCounters} {m : ℕ}
    (h : c.Upto m) (hm : m ≤ 5 ^ 13) (hlast : (listBackups g c).1 = 5 ^ 13) :
    (listBackups g (listBackups g c).2).1 = wrappedFive := by
  have hne : ∀ p k, p.Prime → p ≠ 5 → p ^ k ≠ 5 ^ 13 := fun p k hp hp5 heq =>
    pow_ne_pow Nat.prime_five hp hp5.symm heq.symm
  obtain ⟨k3, hk3⟩ := h.three.1
  obtain ⟨k7, hk7⟩ := h.seven.1
  have h3 : c.three ≠ 5 ^ 13 := hk3 ▸ hne 3 _ (by norm_num) (by decide)
  have h7 : c.seven ≠ 5 ^ 13 := hk7 ▸ hne 7 _ (by norm_num) (by decide)
  have hcall : c.five = 5 ^ 13 ∧ c.five < c.three ∧ ¬c.seven < c.five := by
    rw [listBackups, hs2, if_neg Bool.false_ne_true, hs, if_neg Bool.true_eq_false.mp] at hlast
    split at hlast
    · next hlt =>
      split at hlast
      · exact absurd hlast h7
      · next hge => exact ⟨hlast, hlt, hge⟩
    · split at hlast
      · exact absurd hlast h7
      · exact absurd hlast h3
  obtain ⟨h5, hlt, hge⟩ := hcall
  rw [h5] at hlt hge
  obtain ⟨he3, he7⟩ := h.last hm hlt (by omega)
  have hnext : listBackups g c = (5 ^ 13, ⟨3 ^ 20, wrappedFive, 7 ^ 11⟩) := by
    rw [listBackups, hs2, if_neg Bool.false_ne_true, hs, if_neg Bool.true_eq_false.mp, h5, he3, he7,
      if_pos (by norm_num), if_neg (by norm_num), wrappedFive_eq]
  rw [hnext, listBackups, hs2, if_neg Bool.false_ne_true, hs, if_neg Bool.true_eq_false.mp,
    if_pos (by norm_num [wrappedFive]), if_neg (by norm_num [wrappedFive])]

/-- The group behind the last power of five. -/
theorem leastFrom_after_five : LeastFrom BackupPower (5 ^ 13 + 1) (7 ^ 11) := by
  have hpow : ∀ b i k, 2 ≤ b → b ^ i < 5 ^ 13 → 7 ^ 11 ≤ b ^ (i + 1) → 5 ^ 13 + 1 ≤ b ^ k →
      7 ^ 11 ≤ b ^ k := by
    intro b i k hb hi hi' hk
    have hik : i < k := (Nat.pow_lt_pow_iff_right (show 1 < b by omega)).mp (by omega)
    exact hi'.trans (Nat.pow_le_pow_right (by omega) hik)
  refine ⟨Or.inr (Or.inr (Or.inr ⟨10, rfl⟩)), by norm_num, ?_⟩
  rintro y (rfl | ⟨k, rfl⟩ | ⟨k, rfl⟩ | ⟨k, rfl⟩) hy
  · omega
  · exact hpow 3 19 _ (by decide) (by norm_num) (by norm_num) hy
  · rcases Nat.lt_or_ge k 13 with hk | hk
    · have := Nat.pow_le_pow_right (by decide : 0 < 5) (show k + 1 ≤ 13 by omega)
      omega
    · exact (show 7 ^ 11 ≤ 5 ^ 14 by norm_num).trans (Nat.pow_le_pow_right (by decide) (by omega))
  · exact hpow 7 10 _ (by decide) (by norm_num) (by norm_num) hy

/-- **With `sparse_super`, the loop goes through the groups that the test finds**, up to the wrapped
counter. -/
theorem backupsFrom_sparse (hs : g.sparseSuper = true) (hs2 : g.sparseSuper2 = false)
    (hgdc : g.groupDescCount ≤ wrappedFive) {n m : ℕ} {c : BackupCounters} (hm : 1 ≤ m)
    (hm13 : m ≤ 5 ^ 13) (h : c.Upto m) (hn : g.groupDescCount < m + n) :
    backupsFrom g n c = (List.range' m (g.groupDescCount - m)).filter (bgHasSuper g) := by
  have hleast_of : ∀ {x y}, 1 ≤ x → LeastFrom BackupPower x y →
      LeastFrom (fun a => bgHasSuper g a = true) x y := by
    refine fun hx h => ⟨(bgHasSuper_sparse g hs hs2 (by have := h.2.1; omega)).mpr h.1, h.2.1, ?_⟩
    exact fun y hy hmy => h.2.2 y ((bgHasSuper_sparse g hs hs2 (by omega)).mp hy) hmy
  induction n generalizing m c with
  | zero => rw [Nat.sub_eq_zero_of_le (by omega), backupsFrom, List.range'_zero, List.filter_nil]
  | succ n ih =>
    obtain ⟨hleast, hnext⟩ := listBackups_sparse hs hs2 h
    have h13 : (listBackups g c).1 ≤ 5 ^ 13 :=
      hleast.2.2 _ (Or.inr (Or.inr (Or.inl ⟨12, rfl⟩))) hm13
    rw [backupsFrom, filter_range'_least (hleast_of hm hleast)]
    have hx := hleast.2.1
    by_cases hlt : (listBackups g c).1 < g.groupDescCount
    · rw [if_pos hlt, if_pos (by omega),
        show m + (g.groupDescCount - m) - ((listBackups g c).1 + 1) =
        g.groupDescCount - ((listBackups g c).1 + 1) by omega]
      refine congrArg _ ?_
      rcases h13.lt_or_eq with h13 | h13
      · exact ih (by omega) (by omega) (hnext h13) (by omega)
      · -- nothing is left, as the next call gives the wrapped counter
        obtain ⟨n, rfl⟩ : ∃ k, n = k + 1 := ⟨n - 1, by omega⟩
        rw [backupsFrom, listBackups_last hs hs2 h hm13 h13, if_neg (by omega), h13,
          filter_range'_least (hleast_of (by omega) leastFrom_after_five), if_neg ?_]
        have h7 : wrappedFive < 7 ^ 11 := by norm_num [wrappedFive]
        omega
    · rw [if_neg hlt, if_neg (by omega)]

/-- With `sparse_super2`, the loop goes through the one or two groups of the superblock. -/
theorem backupsFrom_sparse2_eq (hs2 : g.sparseSuper2 = true)
    (hasc : g.backupBgs.1 ≠ 0 → g.backupBgs.2 ≠ 0 → g.backupBgs.1 < g.backupBgs.2) (n : ℕ) :
    backupsFrom g (n + 3) firstCounters =
      [g.backupBgs.1, g.backupBgs.2].filter fun b =>
        decide (b ≠ 0) && decide (b < g.groupDescCount) := by
  by_cases h0 : g.backupBgs.1 = 0
  · by_cases h1 : g.backupBgs.2 = 0
    · simp [backupsFrom, listBackups, firstCounters, hs2, h0, h1]
    · by_cases h1' : g.backupBgs.2 < g.groupDescCount
      · simp [backupsFrom, listBackups, firstCounters, hs2, h0, h1, h1']
      · simp [backupsFrom, listBackups, firstCounters, hs2, h0, h1, h1']
  · by_cases h0' : g.backupBgs.1 < g.groupDescCount
    · by_cases h1 : g.backupBgs.2 = 0
      · simp [backupsFrom, listBackups, firstCounters, hs2, h0, h0', h1]
      · by_cases h1' : g.backupBgs.2 < g.groupDescCount
        · simp [backupsFrom, listBackups, firstCounters, hs2, h0, h0', h1, h1']
        · simp [backupsFrom, listBackups, firstCounters, hs2, h0, h0', h1, h1']
    · have h1' : g.backupBgs.2 = 0 ∨ ¬g.backupBgs.2 < g.groupDescCount := by
        by_cases h1 : g.backupBgs.2 = 0
        · exact Or.inl h1
        · have := hasc h0 h1
          exact Or.inr (by omega)
      rcases h1' with h1 | h1 <;> simp [backupsFrom, listBackups, firstCounters, hs2, h0, h0', h1]

theorem backupsFrom_sparse2 (hs2 : g.sparseSuper2 = true)
    (hasc : g.backupBgs.1 ≠ 0 → g.backupBgs.2 ≠ 0 → g.backupBgs.1 < g.backupBgs.2) (n : ℕ) :
    backupsFrom g (n + 3) firstCounters = (List.range' 1 (g.groupDescCount - 1)).filter
      (bgHasSuper g) := by
  rw [backupsFrom_sparse2_eq hs2 hasc]
  have hmem : ∀ x, x ∈ (List.range' 1 (g.groupDescCount - 1)).filter (bgHasSuper g) ↔
      (x = g.backupBgs.1 ∨ x = g.backupBgs.2) ∧ x ≠ 0 ∧ x < g.groupDescCount := by
    intro x
    rw [List.mem_filter, List.mem_range'_1, bgHasSuper]
    by_cases hx : x = 0
    · simp [hx]
    · rw [if_neg hx, hs2, if_pos rfl, decide_eq_true_eq]
      omega
  -- both lists ascend and have the same members
  have hasc1 : ([g.backupBgs.1, g.backupBgs.2].filter
      fun b => decide (b ≠ 0) && decide (b < g.groupDescCount)).Pairwise (· < ·) := by
    rw [List.pairwise_filter]
    refine List.pairwise_cons.mpr ⟨fun b hb h0 h1 => ?_, List.pairwise_singleton _ _⟩
    rw [List.mem_singleton] at hb
    rw [hb] at h1 ⊢
    simp only [Bool.and_eq_true, decide_eq_true_eq] at h0 h1
    exact hasc h0.1 h1.1
  have hasc2 : ((List.range' 1 (g.groupDescCount - 1)).filter (bgHasSuper g)).Pairwise (· < ·) :=
    List.Pairwise.filter _ List.pairwise_lt_range'
  refine hasc1.eq_of_mem_iff hasc2 fun x => ?_
  rw [hmem, List.mem_filter]
  simp only [List.mem_cons, List.not_mem_nil, or_false, Bool.and_eq_true, decide_eq_true_eq]

/-- **The groups with a backup**, in both ways. -/
theorem backupsFrom_eq_filter (h : g.sparseSuper = true ∨ g.sparseSuper2 = true)
    (hasc : g.sparseSuper2 = true → g.backupBgs.1 ≠ 0 → g.backupBgs.2 ≠ 0 →
      g.backupBgs.1 < g.backupBgs.2)
    (hgdc : g.groupDescCount * 7 < 2 ^ 32) :
    backupsFrom g (g.groupDescCount + 3) firstCounters =
      (List.range' 1 (g.groupDescCount - 1)).filter (bgHasSuper g) := by
  cases hs2 : g.sparseSuper2 with
  | true => exact backupsFrom_sparse2 hs2 (hasc hs2) _
  | false =>
    rw [hs2] at h
    refine backupsFrom_sparse (h.resolve_right Bool.false_ne_true) hs2 ?_ (le_refl 1)
      (by norm_num) firstCounters_upto
      (by omega)
    rw [wrappedFive]
    omega

end E2fsprogs
