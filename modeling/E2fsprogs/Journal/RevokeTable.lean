import E2fsprogs.Journal.Recovery

/-!
# Transaction ids and the revoke table

Transaction ids are compared modulo `2 ^ 32`. Within a stretch of fewer than
`2 ^ 31` consecutive ids the comparison is the order in which they come
(`E2fsprogs.tidGt_tidAt`, `E2fsprogs.tidGeq_tidAt`), so the ids of one log can be
replaced by their indices in it, and that is how the rest of the development
speaks of them: `E2fsprogs.tidAt t i` is the id of the transaction of index `i` in a
log whose first id is `t`.

The revoke table keeps one record per block, the latest. `E2fsprogs.TableOk` says
that in terms of the revocations it has been told of, and
`E2fsprogs.testRevoke_iff` reads the test back: a block of transaction `i` is
suppressed exactly when it was revoked in `i` or later.
-/

namespace E2fsprogs

/-- The id of the transaction of index `i` in a log that starts with id `t`. -/
def tidAt (t i : ℕ) : ℕ := (t + i) % 2 ^ 32

theorem tidAt_lt (t i : ℕ) : tidAt t i < 2 ^ 32 := Nat.mod_lt _ (by norm_num)

theorem tidAt_zero {t : ℕ} (h : t < 2 ^ 32) : tidAt t 0 = t := by
  rw [tidAt, Nat.add_zero, Nat.mod_eq_of_lt h]

theorem tidSucc_tidAt (t i : ℕ) : tidSucc (tidAt t i) = tidAt t (i + 1) := by
  rw [tidSucc, tidAt, tidAt, Nat.mod_add_mod, Nat.add_assoc]

variable {t a b : ℕ}

/-- **`tid_gt` is the order of the log.** -/
theorem tidGt_tidAt (ha : a < 2 ^ 31) (hb : b < 2 ^ 31) :
    tidGt (tidAt t a) (tidAt t b) = true ↔ b < a := by
  rw [tidGt, Bool.and_eq_true, decide_eq_true_iff, decide_eq_true_iff, tidDiff, tidAt, tidAt]
  omega

/-- **`tid_geq` is the order of the log.** -/
theorem tidGeq_tidAt (ha : a < 2 ^ 31) (hb : b < 2 ^ 31) :
    tidGeq (tidAt t a) (tidAt t b) = true ↔ b ≤ a := by
  rw [tidGeq, decide_eq_true_iff, tidDiff, tidAt, tidAt]
  omega

/-! ### What the table says -/

/-- The table holds, for every block, the id of the last of the revocations `rs`
of that block; `rs` lists blocks with the indices of the transactions that revoke
them. -/
def TableOk (t : ℕ) (tbl : List RevokeRecord) (rs : List (ℕ × ℕ)) : Prop :=
  ∀ blk, match findRevokeRecord tbl blk with
    | none => ∀ k, (blk, k) ∉ rs
    | some r => ∃ k, (blk, k) ∈ rs ∧ r.sequence = tidAt t k ∧ ∀ k', (blk, k') ∈ rs → k' ≤ k

theorem tableOk_nil : TableOk t [] [] := by
  intro blk
  simp [findRevokeRecord]

theorem TableOk.of_none {tbl : List RevokeRecord} {rs : List (ℕ × ℕ)} (h : TableOk t tbl rs)
    {blk : ℕ} (hf : findRevokeRecord tbl blk = none) (k : ℕ) : (blk, k) ∉ rs := by
  have := h blk
  rw [hf] at this
  exact this k

theorem TableOk.of_some {tbl : List RevokeRecord} {rs : List (ℕ × ℕ)} (h : TableOk t tbl rs)
    {blk : ℕ} {r : RevokeRecord} (hf : findRevokeRecord tbl blk = some r) :
    ∃ k, (blk, k) ∈ rs ∧ r.sequence = tidAt t k ∧ ∀ k', (blk, k') ∈ rs → k' ≤ k := by
  have := h blk
  rw [hf] at this
  exact this

theorem findRevokeRecord_cons_ne {tbl : List RevokeRecord} {blk blk' seq : ℕ} (h : blk' ≠ blk) :
    findRevokeRecord (⟨seq, blk'⟩ :: tbl) blk = findRevokeRecord tbl blk := by
  simp [findRevokeRecord, h]

/-- Changing ids in the table does not change which record is found. -/
theorem findRevokeRecord_map (tbl : List RevokeRecord) (blk seq blk' : ℕ) :
    findRevokeRecord (tbl.map fun q => if q.blocknr = blk then { q with sequence := seq } else q)
      blk' = (findRevokeRecord tbl blk').map
        fun q => if q.blocknr = blk then { q with sequence := seq } else q := by
  unfold findRevokeRecord
  rw [List.find?_map]
  congr 2
  funext q
  simp only [Function.comp_apply]
  split <;> rfl

theorem blocknr_of_find {tbl : List RevokeRecord} {blk : ℕ} {r : RevokeRecord}
    (h : findRevokeRecord tbl blk = some r) : r.blocknr = blk := by
  have := List.find?_some h
  simpa using this

/-- What the table says of one block after it has been told of a revocation depends
only on what it said of that block before. -/
theorem findRevokeRecord_setRevoke (tbl : List RevokeRecord) (blk seq c : ℕ) :
    findRevokeRecord (jbd2JournalSetRevoke tbl blk seq) c =
      if c = blk then
        some (match findRevokeRecord tbl blk with
          | some r => if tidGt seq r.sequence then { r with sequence := seq } else r
          | none => { sequence := seq, blocknr := blk })
      else findRevokeRecord tbl c := by
  unfold jbd2JournalSetRevoke
  cases hf : findRevokeRecord tbl blk with
  | none =>
    rcases eq_or_ne c blk with rfl | hne
    · simp [findRevokeRecord]
    · simpa [hne] using findRevokeRecord_cons_ne hne.symm
  | some r =>
    have hblk := blocknr_of_find hf
    by_cases hg : tidGt seq r.sequence = true
    · simp only [hg, if_true]
      rw [findRevokeRecord_map]
      rcases eq_or_ne c blk with rfl | hne
      · rw [hf, Option.map_some, if_pos hblk, if_pos rfl]
      · rw [if_neg hne]
        cases hc : findRevokeRecord tbl c with
        | none => rfl
        | some q => rw [Option.map_some, if_neg (by rw [blocknr_of_find hc]; exact hne)]
    · simp only [hg]
      rcases eq_or_ne c blk with rfl | hne
      · simp [hf]
      · simp [hne]

/-- **Telling the table of a revocation**, earlier or later than those it has heard
of. -/
theorem TableOk.setRevoke {tbl : List RevokeRecord} {rs : List (ℕ × ℕ)} (h : TableOk t tbl rs)
    {k : ℕ} (hk : k < 2 ^ 31) (hrs : ∀ x ∈ rs, x.2 < 2 ^ 31) (blk : ℕ) :
    TableOk t (jbd2JournalSetRevoke tbl blk (tidAt t k)) ((blk, k) :: rs) := by
  intro c
  rw [findRevokeRecord_setRevoke]
  rcases eq_or_ne c blk with rfl | hne
  · rw [if_pos rfl]
    cases hf : findRevokeRecord tbl c with
    | none =>
      refine ⟨k, by simp, rfl, fun k' hk' => ?_⟩
      rcases List.mem_cons.mp hk' with heq | hmem
      · rw [(Prod.mk.inj heq).2]
      · exact absurd hmem (h.of_none hf k')
    | some r =>
      obtain ⟨m, hm, hseq, hmax⟩ := h.of_some hf
      have hgt : tidGt (tidAt t k) r.sequence = true ↔ m < k := by
        rw [hseq]
        exact tidGt_tidAt hk (hrs _ hm)
      by_cases hg : tidGt (tidAt t k) r.sequence = true
      · simp only [hg, if_true]
        refine ⟨k, by simp, rfl, fun k' hk' => ?_⟩
        rcases List.mem_cons.mp hk' with heq | hmem
        · rw [(Prod.mk.inj heq).2]
        · exact (hmax k' hmem).trans (hgt.mp hg).le
      · -- an earlier one leaves the record as it is
        simp only [hg]
        refine ⟨m, by simp [hm], hseq, fun k' hk' => ?_⟩
        rcases List.mem_cons.mp hk' with heq | hmem
        · rw [(Prod.mk.inj heq).2]
          exact Nat.not_lt.mp fun hlt => hg (hgt.mpr hlt)
        · exact hmax k' hmem
  · rw [if_neg hne]
    have := h c
    simpa [hne] using this

/-- **A block of transaction `i` is suppressed exactly when it was revoked in `i` or
later.** -/
theorem testRevoke_iff {tbl : List RevokeRecord} {rs : List (ℕ × ℕ)} (h : TableOk t tbl rs)
    {i : ℕ} (hi : i < 2 ^ 31) (hrs : ∀ x ∈ rs, x.2 < 2 ^ 31) (blk : ℕ) :
    jbd2JournalTestRevoke tbl blk (tidAt t i) = true ↔ ∃ k, i ≤ k ∧ (blk, k) ∈ rs := by
  unfold jbd2JournalTestRevoke
  cases hf : findRevokeRecord tbl blk with
  | none =>
    simp only [Bool.false_eq_true, false_iff, not_exists, not_and]
    exact fun k _ => h.of_none hf k
  | some r =>
    obtain ⟨m, hm, hseq, hmax⟩ := h.of_some hf
    have hgt : tidGt (tidAt t i) r.sequence = true ↔ m < i := by
      rw [hseq]
      exact tidGt_tidAt hi (hrs _ hm)
    simp only [Bool.not_eq_true', ← Bool.not_eq_true, hgt]
    constructor
    · exact fun hle => ⟨m, by omega, hm⟩
    · rintro ⟨k, hik, hk⟩
      have := hmax k hk
      omega

end E2fsprogs
