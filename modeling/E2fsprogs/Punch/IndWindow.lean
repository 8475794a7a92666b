import E2fsprogs.Punch.Ind

/-!
# What punching a block-mapped file removes

`ind_punch` gives each indirect block below a pointer the range again, relative to the
block: the start less the offset of the block, and the *count* less the offset. So the end
of the range moves twice where the start moves too, and wraps around where the count is
smaller than the offset. The blocks that are really removed are described by
`E2fsprogs.EntryReached`, in the terms of the range alone.
-/

namespace E2fsprogs

/-! ### One array of pointers -/

/-- The blocks the recursion removes below an array of pointers of level `k`. -/
def PunchWindow (addrPerBlock : ℕ) : ℕ → ℕ → ℕ → ℕ → Prop
  | 0, start, count, l => l < (start + count) % 2 ^ 64 ∧ start < l + 1
  | k + 1, start, count, l =>
    let incr := addrPerBlock ^ (k + 1)
    let offset := l / incr * incr
    offset < (start + count) % 2 ^ 64 ∧ start < offset + incr ∧
      PunchWindow addrPerBlock k ((start - offset) % 2 ^ 32) (blkSub count offset) (l % incr)

section Entries

variable {α : Type} {incr start stop : ℕ} {isHole : α → Bool}
  {punchEntry : ℕ → α → PunchState → Option (α × Bool × PunchState)}

/-- The pointer at an offset is worked on. -/
def Visited (incr start stop : ℕ) (isHole : α → Bool) (p : α) (offset : ℕ) : Prop :=
  isHole p = false ∧ offset < stop ∧ start < offset + incr

/-- **The loop** works on each pointer by itself. -/
theorem punchEntries_spec (ps : List α) :
    ∀ {offset : ℕ} {st : PunchState} {r : List α × ℕ × PunchState},
    punchEntries incr start stop isHole punchEntry ps offset st = some r →
    r.1.length = ps.length ∧ ∀ i p, ps[i]? = some p →
      (¬Visited incr start stop isHole p (offset + i * incr) ∧ r.1[i]? = some p) ∨
      (Visited incr start stop isHole p (offset + i * incr) ∧
        ∃ q st', punchEntry (offset + i * incr) p st' = some q ∧ r.1[i]? = some q.1) := by
  induction ps with
  | nil =>
    intro offset st r h
    rw [punchEntries] at h
    cases h
    exact ⟨rfl, fun i p hp => by simp at hp⟩
  | cons p ps ih =>
    intro offset st r h
    rw [punchEntries] at h
    by_cases hstop : stop ≤ offset
    · rw [if_pos hstop] at h
      cases h
      refine ⟨rfl, fun i q hq => Or.inl ⟨?_, hq⟩⟩
      rintro ⟨-, hlt, -⟩
      have := Nat.zero_le (i * incr)
      omega
    · rw [if_neg hstop] at h
      -- the pointers after the first are those of the rest of the loop
      have hrest : ∀ (x : α) (rest : List α) (n : ℕ) (st' st'' : PunchState),
          punchEntries incr start stop isHole punchEntry ps (offset + incr) st' =
            some (rest, n, st'') →
          (x :: rest).length = (p :: ps).length ∧ ∀ i q, ps[i]? = some q →
            (¬Visited incr start stop isHole q (offset + (i + 1) * incr) ∧
              (x :: rest)[i + 1]? = some q) ∨
            (Visited incr start stop isHole q (offset + (i + 1) * incr) ∧
              ∃ q' st', punchEntry (offset + (i + 1) * incr) q st' = some q' ∧
                (x :: rest)[i + 1]? = some q'.1) := by
        intro x rest n st' st'' hr
        obtain ⟨hlen, hall⟩ := ih hr
        refine ⟨by rw [List.length_cons, List.length_cons, hlen], fun i q hq => ?_⟩
        have := hall i q hq
        rwa [Nat.add_assoc, Nat.add_comm incr, ← Nat.succ_mul] at this
      by_cases hskip : isHole p = true ∨ offset + incr ≤ start
      · rw [if_pos hskip] at h
        obtain ⟨⟨rest, n, st'⟩, hr, rfl⟩ := Option.map_eq_some_iff.mp h
        obtain ⟨hlen, hall⟩ := hrest p rest n st st' hr
        refine ⟨hlen, fun i q hq => ?_⟩
        rcases i with _ | i
        · rw [List.getElem?_cons_zero] at hq
          obtain rfl := Option.some.inj hq
          refine Or.inl ⟨?_, rfl⟩
          rintro ⟨hh, -, hlt⟩
          rcases hskip with hs | hs
          · rw [hh] at hs
            cases hs
          · omega
        · exact hall i q hq
      · rw [if_neg hskip] at h
        obtain ⟨q, hq, h⟩ := Option.bind_eq_some_iff.mp h
        obtain ⟨⟨rest, n, st'⟩, hr, rfl⟩ := Option.map_eq_some_iff.mp h
        obtain ⟨hlen, hall⟩ := hrest q.1 rest n q.2.2 st' hr
        refine ⟨hlen, fun i x hx => ?_⟩
        rcases i with _ | i
        · rw [List.getElem?_cons_zero] at hx
          obtain rfl := Option.some.inj hx
          rw [not_or, Bool.not_eq_true] at hskip
          refine Or.inr ⟨⟨hskip.1, by omega, by omega⟩, q, st, ?_, rfl⟩
          rw [Nat.zero_mul, Nat.add_zero]
          exact hq
        · exact hall i x hx

end Entries

section Lookup

variable {env : PunchEnv} {addrPerBlock : ℕ}

theorem lookup_of_isHole {k : ℕ} {p : IndPtr k} (h : p.isHole k = true) (l : ℕ) :
    p.lookup addrPerBlock k l = 0 := by
  cases k with
  | zero => exact Nat.eq_of_beq_eq_true h
  | succ k =>
    cases p with
    | none => rfl
    | some p => cases h

theorem lookupEntries_of_all {k : ℕ} {ps : List (IndPtr k)} (h : ps.all (IndPtr.isHole k) = true)
    (l : ℕ) : lookupEntries addrPerBlock k ps l = 0 := by
  rw [lookupEntries]
  rcases hp : ps[l / addrPerBlock ^ k]? with _ | p
  · rfl
  · exact lookup_of_isHole (List.all_eq_true.mp h p (List.mem_of_getElem? hp)) _

theorem lookup_some {k b : ℕ} {ps : List (IndPtr k)} (l : ℕ) :
    IndPtr.lookup addrPerBlock (k + 1) (some (b, ps)) l = lookupEntries addrPerBlock k ps l := rfl

open Classical in
/-- **What `ind_punch` leaves**: the blocks of the window are gone, the others are as they
were. -/
theorem lookupEntries_indPunch (k : ℕ) : ∀ {start count : ℕ}
    {ps ps' : List (IndPtr k)} {st st' : PunchState},
    indPunch env addrPerBlock k start count ps st = some (ps', st') →
    ps'.length = ps.length ∧ ∀ l, lookupEntries addrPerBlock k ps' l =
      if PunchWindow addrPerBlock k start count l then 0
        else lookupEntries addrPerBlock k ps l := by
  induction k with
  | zero =>
    intro start count ps ps' st st' h
    rw [indPunch] at h
    obtain ⟨r, hr, h⟩ := Option.bind_eq_some_iff.mp h
    obtain ⟨iblocks, -, h⟩ := Option.map_eq_some_iff.mp h
    obtain rfl : r.1 = ps' := congrArg Prod.fst h
    obtain ⟨hlen, hall⟩ := punchEntries_spec ps hr
    refine ⟨hlen, fun l => ?_⟩
    rw [lookupEntries, lookupEntries, pow_zero, Nat.div_one]
    rcases hp : ps[l]? with _ | p
    · rw [List.getElem?_eq_none (by rw [hlen]; exact List.getElem?_eq_none_iff.mp hp), ite_self]
    · rcases hall l p hp with ⟨hnot, hr⟩ | ⟨hvis, q, st₁, hq, hr⟩
      · rw [hr]
        split_ifs with hw
        · refine lookup_of_isHole (k := 0) ?_ _
          by_contra hhole
          exact hnot ⟨by simpa using hhole, by rw [Nat.mul_one, Nat.zero_add]; exact hw.1,
            by rw [Nat.mul_one, Nat.zero_add]; exact hw.2⟩
        · rfl
      · rw [hr, if_pos]
        · cases hq
          rfl
        · obtain ⟨-, h1, h2⟩ := hvis
          rw [Nat.mul_one, Nat.zero_add] at h1 h2
          exact ⟨h1, h2⟩
  | succ k ih =>
    intro start count ps ps' st st' h
    rw [indPunch] at h
    obtain ⟨r, hr, h⟩ := Option.bind_eq_some_iff.mp h
    obtain ⟨iblocks, -, h⟩ := Option.map_eq_some_iff.mp h
    obtain rfl : r.1 = ps' := congrArg Prod.fst h
    obtain ⟨hlen, hall⟩ := punchEntries_spec ps hr
    refine ⟨hlen, fun l => ?_⟩
    rw [lookupEntries, lookupEntries]
    generalize hi : l / addrPerBlock ^ (k + 1) = i
    rcases hp : ps[i]? with _ | p
    · rw [List.getElem?_eq_none (by rw [hlen]; exact List.getElem?_eq_none_iff.mp hp), ite_self]
    · have hall := hall i p hp
      rw [Nat.zero_add] at hall
      rcases hall with ⟨hnot, hr⟩ | ⟨hvis, q, st₁, hq, hr⟩
      · rw [hr]
        split_ifs with hw
        · refine lookup_of_isHole ?_ _
          by_contra hhole
          obtain ⟨h1, h2, -⟩ := hw
          rw [hi] at h1 h2
          exact hnot ⟨by simpa using hhole, h1, h2⟩
        · rfl
      · rw [hr]
        -- the pointer is that of an indirect block, which has been punched by itself
        rcases p with _ | ⟨b, qs⟩
        · cases hvis.1
        · obtain ⟨-, hlt, hgt⟩ := hvis
          have hwindow : PunchWindow addrPerBlock (k + 1) start count l ↔ PunchWindow addrPerBlock k
              ((start - i * addrPerBlock ^ (k + 1)) % 2 ^ 32)
                (blkSub count (i * addrPerBlock ^ (k + 1)))
              (l % addrPerBlock ^ (k + 1)) := by
            rw [PunchWindow, hi]
            exact ⟨fun h => h.2.2, fun h => ⟨hlt, hgt, h⟩⟩
          obtain ⟨hread, hq⟩ := Option.ite_none_right_eq_some.mp hq
          obtain ⟨⟨qs', st₂⟩, hrec, hq⟩ := Option.bind_eq_some_iff.mp hq
          obtain ⟨hwrite, hq⟩ := Option.ite_none_right_eq_some.mp hq
          have hchild := (ih hrec).2 (l % addrPerBlock ^ (k + 1))
          simp only [hwindow, lookup_some, ← hchild]
          dsimp only at hq
          split_ifs at hq with hzero
          · cases hq
            exact (lookupEntries_of_all hzero _).symm
          · cases hq
            rfl

end Lookup

/-! ### The window in the terms of the range -/

/-- The entry at `x` of the indirect block that begins at `T` is before the end the code computes
for that block, for a range of `c` blocks from `s` on. The end is `(s - T) + c`, where the
difference is zero for `s ≤ T`; when it is below `T` it has wrapped around, and every entry
is before it. -/
def EntryReached (s c T x : ℕ) : Prop := x < (s - T) + c ∨ (s - T) + c < T

theorem entryReached_iff {s c T offset : ℕ} (hs : s < 2 ^ 32) (hc : c < 2 ^ 32) (hT : T < 2 ^ 60)
    (hoff : offset < 2 ^ 60) :
    offset < ((s - T) + blkSub c T) % 2 ^ 64 ↔ EntryReached s c T (T + offset) := by
  rw [blkSub, EntryReached]
  split <;> omega

theorem blkSub_blkSub {c T offset : ℕ} (hc : c < 2 ^ 32) (hT : T < 2 ^ 60)
    (hoff : offset < 2 ^ 60) :
    blkSub (blkSub c T) offset = blkSub c (T + offset) := by
  rw [blkSub, blkSub, blkSub]
  split_ifs <;> omega

section Window

variable {addrPerBlock : ℕ}

/-- **The window** below an array of pointers that begins at `T`. -/
theorem punchWindow_iff (hpos : 0 < addrPerBlock) {s c : ℕ} (hs : s < 2 ^ 32) (hc : c < 2 ^ 32)
    (k : ℕ) : ∀ T r : ℕ, addrPerBlock ^ k ∣ T → T + r < 2 ^ 60 →
    (PunchWindow addrPerBlock k (s - T) (blkSub c T) r ↔ s ≤ T + r ∧
      EntryReached s c T (T + r / addrPerBlock ^ k * addrPerBlock ^ k) ∧
      ∀ j < k, EntryReached s c ((T + r) / addrPerBlock ^ (j + 1) * addrPerBlock ^ (j + 1))
        ((T + r) / addrPerBlock ^ j * addrPerBlock ^ j)) := by
  induction k with
  | zero =>
    intro T r _ hlt
    rw [PunchWindow, entryReached_iff hs hc (by omega) (by omega), pow_zero,
      Nat.div_one, Nat.mul_one]
    constructor
    · rintro ⟨h1, h2⟩
      exact ⟨by omega, h1, fun j hj => absurd hj (Nat.not_lt_zero j)⟩
    · rintro ⟨h1, h2, -⟩
      exact ⟨h2, by omega⟩
  | succ k ih =>
    intro T r hdvd hlt
    have hA : 0 < addrPerBlock ^ (k + 1) := Nat.pow_pos hpos
    generalize hdiv : r / addrPerBlock ^ (k + 1) = i
    generalize hmod : r % addrPerBlock ^ (k + 1) = r'
    have hr : i * addrPerBlock ^ (k + 1) + r' = r := by
      rw [← hdiv, ← hmod, Nat.mul_comm]
      exact Nat.div_add_mod _ _
    have hr' : r' < addrPerBlock ^ (k + 1) := hmod ▸ Nat.mod_lt _ hA
    have hdvd' : addrPerBlock ^ (k + 1) ∣ T + i * addrPerBlock ^ (k + 1) :=
      Dvd.dvd.add hdvd (Nat.dvd_mul_left _ _)
    -- where the block of the next level begins, and the entry of that block
    have hbase : (T + r) / addrPerBlock ^ (k + 1) * addrPerBlock ^ (k + 1) =
        T + i * addrPerBlock ^ (k + 1) := by
      obtain ⟨q, hq⟩ := hdvd'
      rw [← hr, ← Nat.add_assoc, hq, Nat.mul_add_div hA, Nat.div_eq_of_lt hr', Nat.add_zero,
        Nat.mul_comm]
    have hentry : (T + r) / addrPerBlock ^ k * addrPerBlock ^ k =
        T + i * addrPerBlock ^ (k + 1) + r' / addrPerBlock ^ k * addrPerBlock ^ k := by
      obtain ⟨q, hq⟩ := (pow_dvd_pow addrPerBlock (Nat.le_succ k)).trans hdvd'
      rw [← hr, ← Nat.add_assoc, hq, Nat.mul_add_div (Nat.pow_pos hpos), Nat.add_mul,
        Nat.mul_comm (addrPerBlock ^ k) q]
    generalize hoff : i * addrPerBlock ^ (k + 1) = offset at hr hbase hentry
    rw [PunchWindow, hdiv, hmod, hoff, entryReached_iff hs hc (by omega) (by omega),
      blkSub_blkSub hc (by omega) (by omega), Nat.mod_eq_of_lt (by omega), Nat.sub_sub,
      ih (T + offset) r' ((pow_dvd_pow addrPerBlock (Nat.le_succ k)).trans (hoff ▸ hdvd'))
        (by omega),
      show T + offset + r' = T + r by omega]
    constructor
    · rintro ⟨h1, -, h2, h3, h4⟩
      refine ⟨h2, h1, fun j hj => ?_⟩
      rcases Nat.lt_succ_iff_lt_or_eq.mp hj with hj | rfl
      · exact h4 j hj
      · rw [hbase, hentry]
        exact h3
    · rintro ⟨h2, h1, h4⟩
      refine ⟨h1, by omega, h2, ?_, fun j hj => h4 j (Nat.lt_succ_of_lt hj)⟩
      have := h4 k (Nat.lt_succ_self k)
      rwa [hbase, hentry] at this

/-- A range from the first block on is removed as it should be. -/
theorem punchWindow_zero_start (hpos : 0 < addrPerBlock) (k : ℕ) : ∀ {c l : ℕ}, c < 2 ^ 64 →
    (PunchWindow addrPerBlock k 0 c l ↔ l < c) := by
  induction k with
  | zero =>
    intro c l hc
    rw [PunchWindow, Nat.zero_add, Nat.mod_eq_of_lt hc]
    omega
  | succ k ih =>
    intro c l hc
    have hA : 0 < addrPerBlock ^ (k + 1) := Nat.pow_pos hpos
    have hl := Nat.div_add_mod l (addrPerBlock ^ (k + 1))
    rw [Nat.mul_comm] at hl
    rw [PunchWindow, Nat.zero_add, Nat.mod_eq_of_lt hc, Nat.zero_sub, Nat.zero_mod]
    generalize l / addrPerBlock ^ (k + 1) * addrPerBlock ^ (k + 1) = offset at hl ⊢
    generalize l % addrPerBlock ^ (k + 1) = r at hl ⊢
    constructor
    · rintro ⟨h1, -, h2⟩
      rw [blkSub, if_pos h1.le, ih (by omega)] at h2
      omega
    · intro h
      refine ⟨by omega, by omega, ?_⟩
      rw [blkSub, if_pos (by omega), ih (by omega)]
      omega

end Window

/-! ### The levels of a file -/

section Levels

variable (addrPerBlock : ℕ)

/-- How many blocks a level has: the direct blocks, or those below one indirect pointer. -/
def levelSize : ℕ → ℕ
  | 0 => ndirBlocks
  | k + 1 => addrPerBlock ^ (k + 1)

/-- Where a level begins. -/
def levelBase : ℕ → ℕ
  | 0 => 0
  | k + 1 => levelBase k + levelSize addrPerBlock k

/-- The pointers of a level of a file. -/
def BlockMapped.level (file : BlockMapped) : (k : ℕ) → List (IndPtr k)
  | 0 => file.direct
  | 1 => [file.ind]
  | 2 => [file.dind]
  | 3 => [file.tind]
  | _ => []

/-- The physical block of a logical block of a level, counted from where the level begins. -/
def BlockMapped.lookupAt (file : BlockMapped) (k l : ℕ) : ℕ :=
  lookupEntries addrPerBlock k (file.level k) l

/-- The blocks that the main loop, begun at level `k` with a `start` and a `count`, removes `d`
levels further on. -/
def ReachedFrom : ℕ → ℕ → ℕ → ℕ → ℕ → Prop
  | 0, k, start, count, l =>
    start < levelSize addrPerBlock k ∧ PunchWindow addrPerBlock k start count l
  | d + 1, k, start, count, l =>
    ∃ q ∈ afterLevel (levelSize addrPerBlock k) start count, ReachedFrom d (k + 1) q.1 q.2 l

end Levels

section Main

variable {env : PunchEnv} {addrPerBlock : ℕ}

/-- The file after the main loop, begun at level `k`. -/
def PunchedFrom (addrPerBlock k start count : ℕ) (file file' : BlockMapped) : Prop :=
  (∀ t < k, file'.level t = file.level t) ∧
  open Classical in ∀ d l, file'.lookupAt addrPerBlock (k + d) l =
    if ReachedFrom addrPerBlock d k start count l then 0 else file.lookupAt addrPerBlock (k + d) l

open Classical in
/-- One level punched. -/
theorem lookupEntries_punchLevel {k start count : ℕ} {ps ps' : List (IndPtr k)}
    {st st' : PunchState}
    (h : punchLevel env addrPerBlock k (levelSize addrPerBlock k) start count ps st =
      some (ps', st')) :
    ps'.length = ps.length ∧ ∀ l, lookupEntries addrPerBlock k ps' l =
      if ReachedFrom addrPerBlock 0 k start count l then 0
        else lookupEntries addrPerBlock k ps l := by
  rw [punchLevel] at h
  by_cases hlt : start < levelSize addrPerBlock k
  · rw [if_pos hlt] at h
    obtain ⟨hlen, hl⟩ := lookupEntries_indPunch k h
    refine ⟨hlen, fun l => (hl l).trans ?_⟩
    rw [ReachedFrom]
    simp only [hlt, true_and]
  · rw [if_neg hlt] at h
    cases h
    refine ⟨rfl, fun l => ?_⟩
    rw [if_neg fun hr => hlt hr.1]

/-- **One round of the main loop** and the rounds after it. -/
theorem PunchedFrom.step {k start count : ℕ} {file file' : BlockMapped} (file₁ : BlockMapped)
    {st st' : PunchState} {ps : List (IndPtr k)}
    (h : punchLevel env addrPerBlock k (levelSize addrPerBlock k) start count (file.level k) st =
      some (ps, st'))
    (hk : file₁.level k = ps) (hother : ∀ t ≠ k, file₁.level t = file.level t)
    (hstop : afterLevel (levelSize addrPerBlock k) start count = none → file' = file₁)
    (hgo : ∀ s c, afterLevel (levelSize addrPerBlock k) start count = some (s, c) →
      PunchedFrom addrPerBlock (k + 1) s c file₁ file') :
    PunchedFrom addrPerBlock k start count file file' := by
  obtain ⟨-, hlevel⟩ := lookupEntries_punchLevel h
  subst hk
  rcases hafter : afterLevel (levelSize addrPerBlock k) start count with _ | ⟨s, c⟩
  · obtain rfl := hstop hafter
    refine ⟨fun t ht => hother t ht.ne, fun d l => ?_⟩
    rcases d with _ | d
    · exact hlevel l
    · rw [if_neg, BlockMapped.lookupAt, BlockMapped.lookupAt, hother _ (by omega)]
      rintro ⟨q, hq, -⟩
      rw [hafter] at hq
      cases hq
  · obtain ⟨hsame, hrest⟩ := hgo s c hafter
    refine ⟨fun t ht => (hsame t (by omega)).trans (hother t ht.ne), fun d l => ?_⟩
    rcases d with _ | d
    · rw [BlockMapped.lookupAt, Nat.add_zero, hsame k (Nat.lt_succ_self k)]
      exact hlevel l
    · have hreach : ReachedFrom addrPerBlock (d + 1) k start count l ↔
          ReachedFrom addrPerBlock d (k + 1) s c l := by
        rw [ReachedFrom, hafter]
        simp
      have hl := hrest d l
      rw [show k + 1 + d = k + (d + 1) by omega] at hl
      have hold : file₁.lookupAt addrPerBlock (k + (d + 1)) l =
          file.lookupAt addrPerBlock (k + (d + 1)) l := by
        rw [BlockMapped.lookupAt, BlockMapped.lookupAt, hother (k + (d + 1)) (by omega)]
      rw [hl, hold]
      by_cases hr : ReachedFrom addrPerBlock d (k + 1) s c l
      · rw [if_pos hr, if_pos (hreach.mpr hr)]
      · rw [if_neg hr, if_neg fun h => hr (hreach.mp h)]

/-- The only pointer of a level of one pointer. -/
theorem head?_punchLevel {k max start count : ℕ} {p : IndPtr k} {ps : List (IndPtr k)}
    {st st' : PunchState} (hmax : levelSize addrPerBlock k = max)
    (h : punchLevel env addrPerBlock k max start count [p] st = some (ps, st')) :
    ∃ q, ps = [q] := by
  subst hmax
  obtain ⟨hlen, -⟩ := lookupEntries_punchLevel h
  exact List.length_eq_one_iff.mp hlen

theorem level_of_ge (file : BlockMapped) (k : ℕ) (h : 4 ≤ k) : file.level k = [] := by
  obtain ⟨n, rfl⟩ : ∃ n, k = n + 4 := ⟨k - 4, by omega⟩
  rfl

theorem punchTind_spec {start count : ℕ} {file file' : BlockMapped} {st st' : PunchState}
    (h : punchTind env addrPerBlock start count file st = some (file', st')) :
    PunchedFrom addrPerBlock 3 start count file file' := by
  rw [punchTind] at h
  obtain ⟨⟨ps, st₁⟩, hr, h⟩ := Option.bind_eq_some_iff.mp h
  obtain ⟨q, rfl⟩ := head?_punchLevel rfl hr
  cases h
  refine PunchedFrom.step { file with tind := q } hr rfl ?_ (fun _ => rfl) fun s c _ => ?_
  · rintro (_ | _ | _ | _ | t) ht <;> first | rfl | exact absurd rfl ht
  · refine ⟨fun t _ => rfl, fun d l => ?_⟩
    rw [BlockMapped.lookupAt, level_of_ge _ _ (by omega)]
    exact (ite_self _).symm

theorem punchDind_spec {start count : ℕ} {file file' : BlockMapped} {st st' : PunchState}
    (h : punchDind env addrPerBlock start count file st = some (file', st')) :
    PunchedFrom addrPerBlock 2 start count file file' := by
  rw [punchDind] at h
  obtain ⟨⟨ps, st₁⟩, hr, h⟩ := Option.bind_eq_some_iff.mp h
  obtain ⟨q, rfl⟩ := head?_punchLevel rfl hr
  refine PunchedFrom.step { file with dind := q } hr rfl ?_ (fun hafter => ?_) fun s c hafter => ?_
  · rintro (_ | _ | _ | _ | t) ht <;> first | rfl | exact absurd rfl ht
  · rw [levelSize] at hafter
    simp only [hafter] at h
    cases h
    rfl
  · rw [levelSize] at hafter
    simp only [hafter] at h
    exact punchTind_spec h

theorem punchInd_spec {start count : ℕ} {file file' : BlockMapped} {st st' : PunchState}
    (h : punchInd env addrPerBlock start count file st = some (file', st')) :
    PunchedFrom addrPerBlock 1 start count file file' := by
  have hsize : levelSize addrPerBlock 1 = addrPerBlock := pow_one _
  rw [punchInd] at h
  obtain ⟨⟨ps, st₁⟩, hr, h⟩ := Option.bind_eq_some_iff.mp h
  obtain ⟨q, rfl⟩ := head?_punchLevel hsize hr
  have hr' : punchLevel env addrPerBlock 1 (levelSize addrPerBlock 1) start count [file.ind] st =
      some ([q], st₁) := by
    rw [hsize]
    exact hr
  refine PunchedFrom.step { file with ind := q } hr' rfl ?_ (fun hafter => ?_) fun s c hafter => ?_
  · rintro (_ | _ | _ | _ | t) ht <;> first | rfl | exact absurd rfl ht
  · rw [hsize] at hafter
    simp only [hafter] at h
    cases h
    rfl
  · rw [hsize] at hafter
    simp only [hafter] at h
    exact punchDind_spec h

theorem punchDirect_spec {start count : ℕ} {file file' : BlockMapped} {st st' : PunchState}
    (h : punchDirect env addrPerBlock start count file st = some (file', st')) :
    PunchedFrom addrPerBlock 0 start count file file' := by
  rw [punchDirect] at h
  obtain ⟨⟨ps, st₁⟩, hr, h⟩ := Option.bind_eq_some_iff.mp h
  refine PunchedFrom.step { file with direct := ps } hr rfl ?_ (fun hafter => ?_) fun s c hafter =>
    ?_
  · rintro (_ | _ | _ | _ | t) ht <;> first | rfl | exact absurd rfl ht
  · rw [levelSize] at hafter
    simp only [hafter] at h
    cases h
    rfl
  · rw [levelSize] at hafter
    simp only [hafter] at h
    exact punchInd_spec h

end Main

/-! ### The blocks that are removed -/

/-- The blocks removed of the level in which the range begins. Blocks are counted from the
beginning of the level. -/
def LevelReached (addrPerBlock k s c l : ℕ) : Prop :=
  s ≤ l ∧ (k = 0 → l < s + c) ∧
    ∀ j < k, EntryReached s c (l / addrPerBlock ^ (j + 1) * addrPerBlock ^ (j + 1))
      (l / addrPerBlock ^ j * addrPerBlock ^ j)

/-- **The blocks that punching `count` blocks from `start` on removes**, in the terms of the
range. In the level of `start` they are those of `E2fsprogs.LevelReached`; the levels after it
are looked at only when `count` is more than the size of that level. -/
def PunchReaches (addrPerBlock start count l : ℕ) : Prop :=
  ∃ t < 4, levelBase addrPerBlock t ≤ l ∧ l < levelBase addrPerBlock (t + 1) ∧
    ((levelBase addrPerBlock t ≤ start ∧ start < levelBase addrPerBlock (t + 1) ∧
        LevelReached addrPerBlock t (start - levelBase addrPerBlock t) count
          (l - levelBase addrPerBlock t)) ∨
      ∃ m < t, levelBase addrPerBlock m ≤ start ∧ start < levelBase addrPerBlock (m + 1) ∧
        levelSize addrPerBlock m < count ∧ l < start + count)

section Reached

variable {addrPerBlock : ℕ}

theorem levelSize_pos (hpos : 0 < addrPerBlock) (k : ℕ) : 0 < levelSize addrPerBlock k := by
  cases k with
  | zero => exact Nat.succ_pos _
  | succ k => exact Nat.pow_pos hpos

theorem levelBase_mono {k m : ℕ} (h : k ≤ m) :
    levelBase addrPerBlock k ≤ levelBase addrPerBlock m := by
  induction h with
  | refl => exact le_rfl
  | step _ ih => exact ih.trans (Nat.le_add_right _ _)

/-- Beginning at the first block of a level, the main loop removes what it should. -/
theorem reachedFrom_zero_start (hpos : 0 < addrPerBlock) (d : ℕ) : ∀ {k c l : ℕ}, c < 2 ^ 64 →
    (ReachedFrom addrPerBlock d k 0 c l ↔
      l + levelBase addrPerBlock (k + d) < levelBase addrPerBlock k + c) := by
  induction d with
  | zero =>
    intro k c l hc
    rw [ReachedFrom, punchWindow_zero_start hpos k hc, Nat.add_zero]
    have := levelSize_pos hpos k
    omega
  | succ d ih =>
    intro k c l hc
    have hsize := levelSize_pos hpos k
    have hbase : levelBase addrPerBlock (k + 1) =
        levelBase addrPerBlock k + levelSize addrPerBlock k :=
      rfl
    have hmono : levelBase addrPerBlock (k + 1) ≤ levelBase addrPerBlock (k + (d + 1)) :=
      levelBase_mono (by omega)
    rw [ReachedFrom, afterLevel, if_pos hsize]
    by_cases hc' : levelSize addrPerBlock k < c
    · rw [if_pos hc']
      simp only [Option.mem_def, Option.some.injEq, exists_eq_left']
      rw [ih (by omega), show k + 1 + d = k + (d + 1) by omega]
      omega
    · rw [if_neg hc']
      simp only [Option.mem_def, reduceCtorEq, false_and, exists_false, false_iff]
      omega

/-- **The main loop**, begun at level `k` with a range that begins `s` blocks after it. -/
theorem reachedFrom_iff (hpos : 0 < addrPerBlock) (d : ℕ) :
    ∀ {k s c l : ℕ}, s < 2 ^ 32 → c < 2 ^ 32 →
    (ReachedFrom addrPerBlock d k s c l ↔
      (levelBase addrPerBlock (k + d) ≤ levelBase addrPerBlock k + s ∧
        levelBase addrPerBlock k + s < levelBase addrPerBlock (k + d + 1) ∧
        PunchWindow addrPerBlock (k + d)
          (levelBase addrPerBlock k + s - levelBase addrPerBlock (k + d)) c l) ∨
      ∃ m, k ≤ m ∧ m < k + d ∧ levelBase addrPerBlock m ≤ levelBase addrPerBlock k + s ∧
        levelBase addrPerBlock k + s < levelBase addrPerBlock (m + 1) ∧
        levelSize addrPerBlock m < c ∧
        l + levelBase addrPerBlock (k + d) < levelBase addrPerBlock k + s + c) := by
  induction d with
  | zero =>
    intro k s c l hs hc
    rw [ReachedFrom, Nat.add_zero, Nat.add_sub_cancel_left]
    have hbase : levelBase addrPerBlock (k + 1) =
        levelBase addrPerBlock k + levelSize addrPerBlock k :=
      rfl
    constructor
    · rintro ⟨h1, h2⟩
      exact Or.inl ⟨Nat.le_add_right _ _, by omega, h2⟩
    · rintro (⟨-, h1, h2⟩ | ⟨m, h1, h2, -⟩)
      · exact ⟨by omega, h2⟩
      · omega
  | succ d ih =>
    intro k s c l hs hc
    have hbase : levelBase addrPerBlock (k + 1) =
        levelBase addrPerBlock k + levelSize addrPerBlock k :=
      rfl
    have hmono : levelBase addrPerBlock (k + 1) ≤ levelBase addrPerBlock (k + (d + 1)) :=
      levelBase_mono (by omega)
    rw [ReachedFrom, afterLevel]
    by_cases hlt : s < levelSize addrPerBlock k
    · -- the range begins in this level
      rw [if_pos hlt]
      by_cases hc' : levelSize addrPerBlock k < c
      · rw [if_pos hc']
        simp only [Option.mem_def, Option.some.injEq, exists_eq_left']
        rw [reachedFrom_zero_start hpos d (by omega), show k + 1 + d = k + (d + 1) by omega]
        constructor
        · intro h
          exact Or.inr ⟨k, le_rfl, by omega, Nat.le_add_right _ _, by omega, hc', by omega⟩
        · rintro (⟨h, -⟩ | ⟨m, -, -, -, -, -, h⟩)
          · omega
          · omega
      · rw [if_neg hc']
        simp only [Option.mem_def, reduceCtorEq, false_and, exists_false, false_iff]
        rintro (⟨h, -⟩ | ⟨m, h1, -, h2, -, h3, -⟩)
        · omega
        · rcases Nat.eq_or_lt_of_le h1 with rfl | h1
          · exact hc' h3
          · have : levelBase addrPerBlock (k + 1) ≤ levelBase addrPerBlock m := levelBase_mono h1
            omega
    · rw [if_neg hlt]
      simp only [Option.mem_def, Option.some.injEq, exists_eq_left']
      rw [ih (by omega) hc, show k + 1 + d = k + (d + 1) by omega,
        show levelBase addrPerBlock (k + 1) + (s - levelSize addrPerBlock k) =
          levelBase addrPerBlock k + s by omega]
      refine or_congr Iff.rfl ⟨?_, ?_⟩
      · rintro ⟨m, h1, h2⟩
        exact ⟨m, by omega, h2⟩
      · rintro ⟨m, h1, h2, h3, h4, h5⟩
        refine ⟨m, ?_, h2, h3, h4, h5⟩
        rcases Nat.eq_or_lt_of_le h1 with rfl | h1
        · omega
        · exact h1

/-- The level of a logical block. -/
theorem exists_level {l : ℕ} (n : ℕ) (h : l < levelBase addrPerBlock n) :
    ∃ t < n, levelBase addrPerBlock t ≤ l ∧ l < levelBase addrPerBlock (t + 1) := by
  induction n with
  | zero => exact absurd h (Nat.not_lt_zero l)
  | succ n ih =>
    by_cases hn : l < levelBase addrPerBlock n
    · obtain ⟨t, ht, hl⟩ := ih hn
      exact ⟨t, ht.trans (Nat.lt_succ_self n), hl⟩
    · exact ⟨n, Nat.lt_succ_self n, Nat.le_of_not_lt hn, h⟩

/-- A logical block is in one level. -/
theorem level_unique {l t m : ℕ} (ht : levelBase addrPerBlock t ≤ l)
    (ht' : l < levelBase addrPerBlock (t + 1)) (hm : levelBase addrPerBlock m ≤ l)
    (hm' : l < levelBase addrPerBlock (m + 1)) : t = m := by
  rcases Nat.lt_trichotomy t m with h | h | h
  · have : levelBase addrPerBlock (t + 1) ≤ levelBase addrPerBlock m := levelBase_mono h
    omega
  · exact h
  · have : levelBase addrPerBlock (m + 1) ≤ levelBase addrPerBlock t := levelBase_mono h
    omega

theorem lookup_eq_lookupAt {file : BlockMapped} {t l : ℕ} (ht : t < 4)
    (hl : levelBase addrPerBlock t ≤ l) (hl' : l < levelBase addrPerBlock (t + 1)) :
    file.lookup addrPerBlock l = file.lookupAt addrPerBlock t (l - levelBase addrPerBlock t) := by
  have h1 : levelBase addrPerBlock 1 = ndirBlocks := Nat.zero_add _
  have h2 : levelBase addrPerBlock 2 = ndirBlocks + addrPerBlock := by
    rw [levelBase, h1, levelSize, zero_add, pow_one]
  have h3 : levelBase addrPerBlock 3 = ndirBlocks + addrPerBlock + addrPerBlock ^ 2 := by
    rw [levelBase, h2]
    rfl
  have h4 : levelBase addrPerBlock 4 =
      ndirBlocks + addrPerBlock + addrPerBlock ^ 2 + addrPerBlock ^ 3 := by
    rw [levelBase, h3]
    rfl
  rw [BlockMapped.lookup, BlockMapped.lookupAt, ← h4, ← h3, ← h2, ← h1]
  have h12 : levelBase addrPerBlock 1 ≤ levelBase addrPerBlock 2 := levelBase_mono (by omega)
  have h23 : levelBase addrPerBlock 2 ≤ levelBase addrPerBlock 3 := levelBase_mono (by omega)
  obtain rfl | rfl | rfl | rfl : t = 0 ∨ t = 1 ∨ t = 2 ∨ t = 3 := by omega
  · rw [if_pos hl']
    rfl
  · rw [if_neg (by omega), if_pos hl']
    rfl
  · rw [if_neg (by omega), if_neg (by omega), if_pos hl']
    rfl
  · rw [if_neg (by omega), if_neg (by omega), if_neg (by omega), if_pos hl']
    rfl

theorem lookup_of_ge {file : BlockMapped} {l : ℕ} (h : levelBase addrPerBlock 4 ≤ l) :
    file.lookup addrPerBlock l = 0 := by
  have h4 : levelBase addrPerBlock 4 =
      ndirBlocks + addrPerBlock + addrPerBlock ^ 2 + addrPerBlock ^ 3 := by
    simp [levelBase, levelSize]
  rw [h4] at h
  have := Nat.zero_le (addrPerBlock ^ 2)
  rw [BlockMapped.lookup, if_neg (by omega), if_neg (by omega), if_neg (by omega),
    if_neg (by omega)]

/-- A whole level is one array of pointers. -/
theorem punchWindow_level (hpos : 0 < addrPerBlock) {t s c l : ℕ} (hs : s < 2 ^ 32)
    (hc : c < 2 ^ 32)
    (hl : l < levelSize addrPerBlock t) (hbound : l < 2 ^ 60) (hs' : s < levelSize addrPerBlock t)
    (hc' : 0 < c) :
    PunchWindow addrPerBlock t s c l ↔ LevelReached addrPerBlock t s c l := by
  have hsub : blkSub c 0 = c := rfl
  have h := punchWindow_iff hpos hs hc t 0 l (dvd_zero _) (by omega)
  rw [Nat.sub_zero, hsub, Nat.zero_add] at h
  rw [h, LevelReached]
  rcases t with _ | t
  · rw [pow_zero, Nat.div_one, Nat.mul_one, EntryReached]
    constructor
    · rintro ⟨h1, h2, -⟩
      exact ⟨h1, fun _ => by omega, fun j hj => absurd hj (Nat.not_lt_zero j)⟩
    · rintro ⟨h1, h2, -⟩
      exact ⟨h1, Or.inl (by have := h2 rfl; omega), fun j hj => absurd hj (Nat.not_lt_zero j)⟩
  · have hl : l < addrPerBlock ^ (t + 1) := hl
    rw [Nat.div_eq_of_lt hl, Nat.zero_mul]
    constructor
    · rintro ⟨h1, -, h2⟩
      exact ⟨h1, fun ht => absurd ht (Nat.succ_ne_zero t), h2⟩
    · rintro ⟨h1, -, h2⟩
      exact ⟨h1, Or.inl (by omega), h2⟩

open Classical in
/-- **What `ext2fs_punch_ind`'s main loop leaves** of a file. -/
theorem lookup_punchDirect {env : PunchEnv} (hpos : 0 < addrPerBlock)
    (hbound : levelBase addrPerBlock 4 < 2 ^ 60) {start count : ℕ} (hs : start < 2 ^ 32)
    (hc : count < 2 ^ 32) (hc' : 0 < count) {file file' : BlockMapped} {st st' : PunchState}
    (h : punchDirect env addrPerBlock start count file st = some (file', st')) (l : ℕ) :
    file'.lookup addrPerBlock l =
      if PunchReaches addrPerBlock start count l then 0 else file.lookup addrPerBlock l := by
  by_cases hlast : l < levelBase addrPerBlock 4
  · obtain ⟨t, ht, hl, hl'⟩ := exists_level 4 hlast
    have hpunched := (punchDirect_spec h).2 t (l - levelBase addrPerBlock t)
    rw [Nat.zero_add] at hpunched
    rw [lookup_eq_lookupAt ht hl hl', lookup_eq_lookupAt ht hl hl', hpunched]
    have hbase : levelBase addrPerBlock (t + 1) =
        levelBase addrPerBlock t + levelSize addrPerBlock t :=
      rfl
    refine if_congr ?_ rfl rfl
    rw [reachedFrom_iff hpos t hs hc, Nat.zero_add, levelBase, Nat.zero_add]
    constructor
    · rintro (⟨h1, h2, h3⟩ | ⟨m, -, hm, h1, h2, h3, h4⟩)
      · exact ⟨t, ht, hl, hl', Or.inl ⟨h1, h2, (punchWindow_level hpos (by omega) hc (by omega)
          (by omega) (by omega) hc').mp h3⟩⟩
      · exact ⟨t, ht, hl, hl', Or.inr ⟨m, hm, h1, h2, h3, by omega⟩⟩
    · rintro ⟨t', -, h0, h0', h⟩
      obtain rfl := level_unique hl hl' h0 h0'
      rcases h with ⟨h1, h2, h3⟩ | ⟨m, hm, h1, h2, h3, h4⟩
      · exact Or.inl ⟨h1, h2, (punchWindow_level hpos (by omega) hc (by omega)
          (by omega) (by omega) hc').mpr h3⟩
      · exact Or.inr ⟨m, Nat.zero_le m, hm, h1, h2, h3, by omega⟩
  · rw [lookup_of_ge (Nat.le_of_not_lt hlast), lookup_of_ge (Nat.le_of_not_lt hlast), ite_self]

end Reached

/-! ### Whether the range is what is removed -/

/-- The blocks from `start` to `last` are gone, and the others are as they were. -/
def PunchesExactly (addrPerBlock start last : ℕ) (file file' : BlockMapped) : Prop :=
  ∀ l, file'.lookup addrPerBlock l =
    if start ≤ l ∧ l ≤ last then 0 else file.lookup addrPerBlock l

/-- The logical block is in the level: direct, or below the indirect pointer of depth `t`. -/
def InLevel (addrPerBlock t l : ℕ) : Prop :=
  t < 4 ∧ levelBase addrPerBlock t ≤ l ∧ l < levelBase addrPerBlock (t + 1)

/-- The range begins in a level before that of the block, and is not longer than that level: the
main loop stops there, wherever in the level the range begins. -/
def PassedOver (addrPerBlock start count l : ℕ) : Prop :=
  ∃ m t, m < t ∧ InLevel addrPerBlock m start ∧ InLevel addrPerBlock t l ∧
    count ≤ levelSize addrPerBlock m

/-- Every indirect block on the way to the block, in the level in which the range begins, has its
entry for the block before the end the code computes for it. -/
def PathReached (addrPerBlock start count l : ℕ) : Prop :=
  ∀ t, InLevel addrPerBlock t start → InLevel addrPerBlock t l → ∀ j < t,
    EntryReached (start - levelBase addrPerBlock t) count
      ((l - levelBase addrPerBlock t) / addrPerBlock ^ (j + 1) * addrPerBlock ^ (j + 1))
      ((l - levelBase addrPerBlock t) / addrPerBlock ^ j * addrPerBlock ^ j)

/-- The block is below the same indirect pointer as the beginning of the range. -/
def BesideStart (addrPerBlock start l : ℕ) : Prop :=
  ∃ t, 0 < t ∧ InLevel addrPerBlock t start ∧ InLevel addrPerBlock t l

section Exact

variable {addrPerBlock : ℕ}

/-- A block is removed as the range has it. -/
theorem punchReaches_iff {start count l : ℕ} (hc : 0 < count) (hl : l < levelBase addrPerBlock 4) :
    (PunchReaches addrPerBlock start count l ↔ start ≤ l ∧ l < start + count) ↔
      (start ≤ l → l < start + count → ¬PassedOver addrPerBlock start count l ∧
        PathReached addrPerBlock start count l) ∧
      (start + count ≤ l → BesideStart addrPerBlock start l →
        ¬PathReached addrPerBlock start count l) := by
  obtain ⟨t, ht, hl1, hl2⟩ := exists_level 4 hl
  have hin : InLevel addrPerBlock t l := ⟨ht, hl1, hl2⟩
  have hlevel : ∀ {m}, InLevel addrPerBlock m l → m = t := fun h =>
    level_unique h.2.1 h.2.2 hl1 hl2
  by_cases hstart : InLevel addrPerBlock t start
  · obtain ⟨-, hs1, hs2⟩ := hstart
    have hstart : InLevel addrPerBlock t start := ⟨ht, hs1, hs2⟩
    -- the range begins in the level of the block: only the ends of the indirect blocks matter
    have hreach : PunchReaches addrPerBlock start count l ↔
        start ≤ l ∧ (t = 0 → l < start + count) ∧ PathReached addrPerBlock start count l := by
      constructor
      · rintro ⟨t', -, h1, h2, h⟩
        obtain rfl := level_unique h1 h2 hl1 hl2
        rcases h with ⟨-, -, h3, h4, h5⟩ | ⟨m, hm, h3, h4, -⟩
        · refine ⟨by omega, fun ht => by have := h4 ht; omega, fun m hm hm' => ?_⟩
          obtain rfl := hlevel hm'
          exact h5
        · exact absurd (level_unique h3 h4 hs1 hs2) hm.ne
      · rintro ⟨h1, h2, h3⟩
        exact ⟨t, ht, hl1, hl2, Or.inl ⟨hs1, hs2, by omega, fun ht => by have := h2 ht; omega,
          h3 t hstart hin⟩⟩
    have hpass : ¬PassedOver addrPerBlock start count l := by
      rintro ⟨m, t', hm, h1, h2, -⟩
      obtain rfl := hlevel h2
      exact hm.ne (level_unique h1.2.1 h1.2.2 hs1 hs2)
    have hbeside : BesideStart addrPerBlock start l ↔ 0 < t := by
      constructor
      · rintro ⟨m, hm, -, h⟩
        rwa [← hlevel h]
      · exact fun h => ⟨t, h, hstart, hin⟩
    rw [hreach, hbeside]
    constructor
    · intro h
      refine ⟨fun h1 h2 => ⟨hpass, (h.mpr ⟨h1, h2⟩).2.2⟩, fun h1 h2 h3 => ?_⟩
      have := h.mp ⟨by omega, fun h0 => absurd h0 (by omega), h3⟩
      omega
    · rintro ⟨h1, h2⟩
      constructor
      · rintro ⟨h3, h4, h5⟩
        refine ⟨h3, ?_⟩
        by_contra hend
        rcases Nat.eq_zero_or_pos t with h0 | h0
        · exact hend (h4 h0)
        · exact h2 (by omega) h0 h5
      · rintro ⟨h3, h4⟩
        exact ⟨h3, fun _ => h4, (h1 h3 h4).2⟩
  · -- the range begins in another level: only the main loop matters
    have hpath : PathReached addrPerBlock start count l := by
      intro m hm hm'
      obtain rfl := hlevel hm'
      exact absurd hm hstart
    have hbeside : ¬BesideStart addrPerBlock start l := by
      rintro ⟨m, -, hm, hm'⟩
      obtain rfl := hlevel hm'
      exact hstart hm
    have hreach : PunchReaches addrPerBlock start count l ↔ start ≤ l ∧ l < start + count ∧
        ¬PassedOver addrPerBlock start count l := by
      constructor
      · rintro ⟨t', -, h1, h2, h⟩
        obtain rfl := level_unique h1 h2 hl1 hl2
        rcases h with ⟨h3, h4, -⟩ | ⟨m, hm, h3, h4, h5, h6⟩
        · exact absurd ⟨ht, h3, h4⟩ hstart
        · have : levelBase addrPerBlock (m + 1) ≤ levelBase addrPerBlock t' := levelBase_mono hm
          refine ⟨by omega, h6, ?_⟩
          rintro ⟨m', t'', -, h7, -, h8⟩
          obtain rfl := level_unique h7.2.1 h7.2.2 h3 h4
          omega
      · rintro ⟨h1, h2, h3⟩
        obtain ⟨m, hm, hm1, hm2⟩ := exists_level 4 (lt_of_le_of_lt h1 hl)
        have hmt : m < t := by
          rcases Nat.lt_trichotomy m t with h | h | h
          · exact h
          · exact absurd ⟨ht, h ▸ hm1, h ▸ hm2⟩ hstart
          · have : levelBase addrPerBlock (t + 1) ≤ levelBase addrPerBlock m := levelBase_mono h
            omega
        refine ⟨t, ht, hl1, hl2, Or.inr ⟨m, hmt, hm1, hm2, ?_, h2⟩⟩
        by_contra hle
        exact h3 ⟨m, t, hmt, ⟨hm, hm1, hm2⟩, hin, Nat.le_of_not_lt hle⟩
    rw [hreach]
    constructor
    · intro h
      exact ⟨fun h1 h2 => ⟨(h.mpr ⟨h1, h2⟩).2.2, hpath⟩, fun _ h2 => absurd h2 hbeside⟩
    · rintro ⟨h1, -⟩
      exact ⟨fun h => ⟨h.1, h.2.1⟩, fun h => ⟨h.1, h.2, (h1 h.1 h.2).1⟩⟩

/-- The range the code makes of `start` and `last`. -/
theorem ext2fsPunchInd_eq {env : PunchEnv} {blocksize start last : ℕ} (h1 : start ≤ last)
    (h2 : last < 2 ^ 32 - 1) (file : BlockMapped) (st : PunchState) :
    ext2fsPunchInd env blocksize start last file st =
      punchDirect env (blocksize / 4) start (last - start + 1) file st := by
  have hmax : blkTMax = 2 ^ 32 - 1 := rfl
  rw [ext2fsPunchInd, if_neg (by omega)]
  by_cases h : blkTMax ≤ last ∨ blkTMax ≤ last - start + 1
  · have : blkTMax - start = last - start + 1 := by omega
    simp only [if_pos h, this]
  · simp only [if_neg h]

theorem levelBase_four_lt {i : ℕ} (hi : i ≤ 6) : levelBase (1024 * 2 ^ i / 4) 4 < 2 ^ 60 := by
  have h : 2 ^ i ≤ 2 ^ 6 := Nat.pow_le_pow_right (by norm_num) hi
  have hA : 1024 * 2 ^ i / 4 ≤ 2 ^ 14 := by omega
  have h2 : (1024 * 2 ^ i / 4) ^ 2 ≤ (2 ^ 14) ^ 2 := Nat.pow_le_pow_left hA 2
  have h3 : (1024 * 2 ^ i / 4) ^ 3 ≤ (2 ^ 14) ^ 3 := Nat.pow_le_pow_left hA 3
  simp only [levelBase, levelSize, ndirBlocks, zero_add, pow_one, Nat.reduceAdd]
  omega

/-- **Punching a block-mapped file** removes exactly the blocks from `start` to `last` when no
mapped block of the range is passed over or cut off by the end of an indirect block, and none
after the range is before all such ends. -/
theorem ext2fsPunchInd_exactly_iff {env : PunchEnv} {i start last : ℕ} (hi : i ≤ 6)
    (h1 : start ≤ last) (h2 : last < 2 ^ 32 - 1) {file file' : BlockMapped} {st st' : PunchState}
    (h : ext2fsPunchInd env (1024 * 2 ^ i) start last file st = some (file', st')) :
    PunchesExactly (1024 * 2 ^ i / 4) start last file file' ↔
      ∀ l, file.lookup (1024 * 2 ^ i / 4) l ≠ 0 →
        (start ≤ l → l ≤ last → ¬PassedOver (1024 * 2 ^ i / 4) start (last - start + 1) l ∧
          PathReached (1024 * 2 ^ i / 4) start (last - start + 1) l) ∧
        (last < l → BesideStart (1024 * 2 ^ i / 4) start l →
          ¬PathReached (1024 * 2 ^ i / 4) start (last - start + 1) l) := by
  have hpos : 0 < 1024 * 2 ^ i / 4 := by
    have := Nat.one_le_two_pow (n := i)
    omega
  have hbound := levelBase_four_lt hi
  rw [ext2fsPunchInd_eq h1 h2] at h
  generalize 1024 * 2 ^ i / 4 = addrPerBlock at *
  have hlookup := lookup_punchDirect hpos hbound (by omega) (by omega) (Nat.succ_pos _) h
  -- block by block: a hole stays a hole, and a mapped block is removed as the range has it
  refine forall_congr' fun l => ?_
  rw [hlookup l]
  by_cases hhole : file.lookup addrPerBlock l = 0
  · simp [hhole]
  · have hlt : l < levelBase addrPerBlock 4 := by
      by_contra hge
      exact hhole (lookup_of_ge (Nat.le_of_not_lt hge))
    have hiff := @punchReaches_iff addrPerBlock start _ l (Nat.succ_pos (last - start)) hlt
    rw [Nat.succ_eq_add_one, show start + (last - start + 1) = last + 1 by omega, Nat.lt_succ_iff,
      Nat.succ_le_iff] at hiff
    rw [forall_prop_of_true hhole, ← hiff]
    by_cases hr : PunchReaches addrPerBlock start (last - start + 1) l
    · rw [if_pos hr, iff_true_left hr]
      split_ifs with hin
      · exact iff_of_true rfl hin
      · exact iff_of_false (Ne.symm hhole) hin
    · rw [if_neg hr, iff_false_left hr]
      split_ifs with hin
      · exact iff_of_false hhole (not_not_intro hin)
      · exact iff_of_true rfl hin

/-- An environment without errors, where every freed block takes two sectors off `i_blocks`. -/
def calmPunch : PunchEnv where
  readOk _ := true
  writeOk _ := true
  iblkSubBlocks iblocks freed := if 2 * freed ≤ iblocks then some (iblocks - 2 * freed) else none

/-- A file with its direct blocks and the blocks of its single indirect block. -/
def fullFile : BlockMapped where
  direct := List.range' 200 12
  ind := some (99, List.range' 300 256)
  dind := none
  tind := none

/-- The file without its blocks 20, 21 and 22, which are below the indirect block. -/
def holedFile : BlockMapped :=
  { fullFile with ind := some (99, List.range' 300 8 ++ [0, 0, 0] ++ List.range' 311 245) }

theorem ext2fsPunchInd_exactly_iff_fullFile : PunchesExactly 256 20 22 fullFile holedFile := by
  have h : ext2fsPunchInd calmPunch (1024 * 2 ^ 0) 20 22 fullFile ⟨[], 538⟩ =
      some (holedFile, ⟨[310, 309, 308], 532⟩) := rfl
  have hstart : InLevel (1024 * 2 ^ 0 / 4) 1 20 := ⟨by decide, by decide, by decide⟩
  have hlevel : ∀ {t}, InLevel (1024 * 2 ^ 0 / 4) t 20 → t = 1 := fun ht =>
    level_unique ht.2.1 ht.2.2 hstart.2.1 hstart.2.2
  have hbase : levelBase (1024 * 2 ^ 0 / 4) 1 = 12 := rfl
  have hnext : levelBase (1024 * 2 ^ 0 / 4) (1 + 1) = 268 := rfl
  refine (ext2fsPunchInd_exactly_iff (by decide) (by decide) (by decide) h).mpr fun l _ => ⟨?_, ?_⟩
  · intro hl hl'
    have hin : InLevel (1024 * 2 ^ 0 / 4) 1 l := ⟨by decide, by omega, by omega⟩
    constructor
    · rintro ⟨m, t, hm, hs, ht, -⟩
      obtain rfl := hlevel hs
      obtain rfl := level_unique ht.2.1 ht.2.2 hin.2.1 hin.2.2
      exact absurd hm (lt_irrefl 1)
    · rintro t hs - j hj
      obtain rfl := hlevel hs
      obtain rfl : j = 0 := by omega
      -- the end that the code computes for the indirect block is that of the range
      left
      norm_num
      omega
  · rintro hl ⟨t, -, hs, ht⟩ hpath
    obtain rfl := hlevel hs
    have hreach := hpath 1 hstart ht 0 (by decide)
    obtain ⟨-, h1, h2⟩ := ht
    rw [hbase] at h1
    rw [hnext] at h2
    rw [EntryReached] at hreach
    omega

/-- The ten blocks from 5 to 14 reach into the single indirect block, and are fewer than the
twelve direct blocks: blocks 12, 13 and 14 are passed over. -/
theorem fullFile_not_punchesExactly :
    ∃ file' st', ext2fsPunchInd calmPunch (1024 * 2 ^ 0) 5 14 fullFile ⟨[], 538⟩ =
      some (file', st') ∧
      file'.lookup 256 12 = 300 ∧ ¬PunchesExactly 256 5 14 fullFile file' := by
  refine ⟨{ fullFile with direct := List.range' 200 5 ++ List.replicate 7 (0 : ℕ) },
    ⟨[211, 210, 209, 208, 207, 206, 205], 524⟩, rfl, rfl, fun h => ?_⟩
  have h12 : (300 : ℕ) = 0 := h 12
  exact absurd h12 (by decide)

end Exact

end E2fsprogs
