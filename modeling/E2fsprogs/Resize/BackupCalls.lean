import E2fsprogs.Resize.Backups

/-!
# The calls of `list_backups`, one after the other

A caller goes on until a value is no group of the file system. What it has been given before is then
compared with the groups that `ext2fs_bg_has_super` finds, with every number of groups that has 32
bits.
-/

namespace E2fsprogs

variable (g : BackupGeometry)

/-- The counters before the call `n`. -/
def countersAt : ℕ → BackupCounters
  | 0 => firstCounters
  | n + 1 => (listBackups g (countersAt n)).2

/-- The value of the call `n`. -/
def backupAt (n : ℕ) : ℕ := (listBackups g (countersAt g n)).1

/-- The values before the first one that is no group of the file system are the groups with a
backup, in ascending order. -/
def ListsBackups : Prop :=
  ∃ n, g.groupDescCount ≤ backupAt g n ∧ (∀ i j, i < j → j < n → backupAt g i < backupAt g j) ∧
    ∀ x, (∃ i < n, backupAt g i = x) ↔ (1 ≤ x ∧ x < g.groupDescCount) ∧ bgHasSuper g x = true

variable {g}

/-! ### A loop over the calls -/

/-- A loop over `list_backups` collects the values of the calls. -/
theorem backupsFrom_eq_map (n i : ℕ) :
    ∃ k ≤ n, backupsFrom g n (countersAt g i) = (List.range k).map (fun j => backupAt g (i + j)) ∧
      (k < n → g.groupDescCount ≤ backupAt g (i + k)) := by
  induction n generalizing i with
  | zero => exact ⟨0, le_refl _, rfl, fun h => absurd h (Nat.not_lt_zero 0)⟩
  | succ n ih =>
    obtain ⟨k, hk, hlist, hend⟩ := ih (i + 1)
    rw [backupsFrom]
    by_cases hlt : (listBackups g (countersAt g i)).1 < g.groupDescCount
    · have hnext : backupsFrom g n (listBackups g (countersAt g i)).2 =
          (List.range k).map (fun j => backupAt g (i + 1 + j)) := hlist
      refine ⟨k + 1, by omega, ?_, fun h => ?_⟩
      · rw [if_pos hlt, hnext, List.range_succ_eq_map, List.map_cons, List.map_map]
        refine congrArg₂ _ rfl (List.map_congr_left fun j _ => ?_)
        rw [Function.comp_apply, Nat.add_right_comm, Nat.add_assoc]
      · rw [show i + (k + 1) = i + 1 + k by omega]
        exact hend (by omega)
    · exact ⟨0, Nat.zero_le _, by rw [if_neg hlt]; rfl, fun _ => not_lt.mp hlt⟩

/-- When a loop that is long enough collects the groups with a backup, so do the calls. -/
theorem ListsBackups.of_loop (h : backupsFrom g (g.groupDescCount + 3) firstCounters =
    (List.range' 1 (g.groupDescCount - 1)).filter (bgHasSuper g)) : ListsBackups g := by
  obtain ⟨k, hk, hlist, hend⟩ := backupsFrom_eq_map (g := g) (g.groupDescCount + 3) 0
  simp only [Nat.zero_add] at hlist hend
  have hmap : (List.range k).map (backupAt g) = (List.range' 1 (g.groupDescCount - 1)).filter
      (bgHasSuper g) :=
    hlist.symm.trans h
  have hlen : k ≤ g.groupDescCount - 1 := by
    have h1 := congrArg List.length hmap
    rw [List.length_map, List.length_range] at h1
    rw [h1]
    exact (List.length_filter_le _ _).trans List.length_range'.le
  refine ⟨k, hend (by omega), ?_, fun x => ?_⟩
  · have hasc : ((List.range k).map (backupAt g)).Pairwise (· < ·) := by
      rw [hmap]
      exact List.Pairwise.filter _ List.pairwise_lt_range'
    intro i j hij hj
    have hlt := List.pairwise_iff_getElem.mp hasc i j (by simp; omega) (by simpa using hj) hij
    simpa using hlt
  · have hmem : x ∈ (List.range k).map (backupAt g) ↔
        x ∈ (List.range' 1 (g.groupDescCount - 1)).filter (bgHasSuper g) := by rw [hmap]
    rw [List.mem_map, List.mem_filter, List.mem_range'_1] at hmem
    simp only [List.mem_range] at hmem
    rw [hmem]
    have hcount : 1 ≤ x → (x < 1 + (g.groupDescCount - 1) ↔ x < g.groupDescCount) := by
      clear hmem
      omega
    exact and_congr_left fun _ => and_congr_right hcount

/-- Without the sparse features, the loop goes through every group. -/
theorem backupsFrom_every (hs : g.sparseSuper = false) (hs2 : g.sparseSuper2 = false)
    (hgdc : g.groupDescCount < 2 ^ 32) {n m : ℕ} {c : BackupCounters} (hm : 1 ≤ m)
    (hc : c.three = m) (hn : g.groupDescCount < m + n) :
    backupsFrom g n c = (List.range' m (g.groupDescCount - m)).filter (bgHasSuper g) := by
  induction n generalizing m c with
  | zero => rw [Nat.sub_eq_zero_of_le (by omega), backupsFrom, List.range'_zero, List.filter_nil]
  | succ n ih =>
    have hcall : listBackups g c = (m, { c with three := (m + 1) % 2 ^ 32 }) := by
      rw [listBackups, hs2, if_neg Bool.false_ne_true, if_pos hs, hc]
    have hsuper : bgHasSuper g m = true := by
      rw [bgHasSuper, if_neg (by omega), hs2, if_neg Bool.false_ne_true, if_pos (Or.inr hs)]
    rw [backupsFrom, hcall]
    by_cases hlt : m < g.groupDescCount
    · rw [if_pos hlt, ih (by omega) (Nat.mod_eq_of_lt (by omega)) (by omega),
        show g.groupDescCount - m = g.groupDescCount - (m + 1) + 1 by omega, List.range'_succ,
        List.filter_cons_of_pos hsuper]
    · rw [if_neg hlt, Nat.sub_eq_zero_of_le (by omega), List.range'_zero, List.filter_nil]

/-! ### The wrapped counter -/

theorem not_backupPower_wrappedFive : ¬BackupPower wrappedFive := by
  -- a higher power is a multiple of the square
  have hno : ∀ b k, wrappedFive ≠ b → wrappedFive % (b * b) ≠ 0 → wrappedFive ≠ b ^ (k + 1) := by
    intro b k hb hmod heq
    cases k with
    | zero => exact hb (heq.trans (pow_one b))
    | succ k =>
      rw [heq, pow_succ, pow_succ, Nat.mul_assoc, Nat.mul_mod_left] at hmod
      exact hmod rfl
  rintro (h | ⟨k, h⟩ | ⟨k, h⟩ | ⟨k, h⟩)
  · cases h
  · exact hno 3 k (by decide) (by decide) h
  · exact hno 5 k (by decide) (by decide) h
  · exact hno 7 k (by decide) (by decide) h

/-- With `sparse_super`, the values do not depend on anything else. -/
theorem backupAt_sparse (hs : g.sparseSuper = true) (hs2 : g.sparseSuper2 = false) (n : ℕ) :
    backupAt g n = backupAt ⟨0, true, false, 0, 0⟩ n := by
  have hcall : ∀ c, listBackups g c = listBackups ⟨0, true, false, 0, 0⟩ c := fun c => by
    rw [listBackups, listBackups, hs, hs2]
    rfl
  have hcounters : countersAt g n = countersAt ⟨0, true, false, 0, 0⟩ n := by
    induction n with
    | zero => rfl
    | succ n ih => rw [countersAt, countersAt, hcall, ih]
  rw [backupAt, backupAt, hcall, hcounters]

/-- The call that gives the wrapped counter, and no call before it gives more. -/
theorem backupAt_wrapped (hs : g.sparseSuper = true) (hs2 : g.sparseSuper2 = false) :
    backupAt g 43 = wrappedFive ∧ ∀ n < 44, backupAt g n ≤ wrappedFive := by
  simp only [backupAt_sparse hs hs2]
  decide +kernel

/-- The wrapped counter is given as a group. -/
theorem not_listsBackups (hs : g.sparseSuper = true) (hs2 : g.sparseSuper2 = false)
    (hlt : wrappedFive < g.groupDescCount) : ¬ListsBackups g := by
  rintro ⟨n, hend, -, hmem⟩
  obtain ⟨h43, hle⟩ := backupAt_wrapped hs hs2
  rcases Nat.lt_or_ge 43 n with hn | hn
  · have hsuper := ((hmem wrappedFive).mp ⟨43, hn, h43⟩).2
    exact not_backupPower_wrappedFive ((bgHasSuper_sparse g hs hs2 (by decide)).mp hsuper)
  · exact absurd (hend.trans (hle n (by omega))) (not_le.mpr hlt)

/-- **The calls of `list_backups` give the groups that `ext2fs_bg_has_super` finds exactly if the
wrapped counter is no group of the file system**, or the backups are not at the powers. -/
theorem listsBackups_iff (hgdc : g.groupDescCount < 2 ^ 32)
    (hasc : g.sparseSuper2 = true → g.backupBgs.1 ≠ 0 → g.backupBgs.2 ≠ 0 →
      g.backupBgs.1 < g.backupBgs.2) :
    ListsBackups g ↔ g.sparseSuper2 = true ∨ g.sparseSuper = false ∨
    g.groupDescCount ≤ wrappedFive := by
  cases hs2 : g.sparseSuper2 with
  | true => exact iff_of_true (.of_loop (backupsFrom_sparse2 hs2 (hasc hs2) _)) (Or.inl rfl)
  | false =>
    cases hs : g.sparseSuper with
    | false =>
      exact iff_of_true (.of_loop (backupsFrom_every hs hs2 hgdc (le_refl 1) rfl (by omega)))
        (Or.inr (Or.inl rfl))
    | true =>
      constructor
      · exact fun h => Or.inr (Or.inr (not_lt.mp fun hlt => not_listsBackups hs hs2 hlt h))
      · rintro (h | h | hle)
        · cases h
        · cases h
        · exact .of_loop (backupsFrom_sparse hs hs2 hle (le_refl 1)
            (by norm_num) firstCounters_upto (by omega))

/-- One group more than the wrapped counter, with `sparse_super`. -/
theorem not_listsBackups_wrapped : ¬ListsBackups ⟨wrappedFive + 1, true, false, 0, 0⟩ :=
  not_listsBackups rfl rfl (Nat.lt_succ_self wrappedFive)

theorem listsBackups_iff_ten_groups : ListsBackups ⟨10, true, false, 0, 0⟩ :=
  (listsBackups_iff (by norm_num) (by decide)).mpr (Or.inr (Or.inr (by decide)))

end E2fsprogs
