import E2fsprogs.Lib.Except
import E2fsprogs.Icount.Map

/-!
# Runs of the inode-count store

From an icount that has just been created, a run of calls answers as a plain map does
(`E2fsprogs.AnswersAs`) as long as its list has fewer than `2 ^ 31` entries before each
call. With `2 ^ 31` entries the next one is written in front of the list
(`E2fsprogs.FilledTo.undefined`).
-/

namespace E2fsprogs

open SortedList

/-- A call and what it finds outside the icount. -/
structure IcCall where
  env : IcEnv
  op : IcOp

/-- The map after a call: a call that had no memory leaves it. -/
def mapAfter (m : ℕ → ℕ) (op : IcOp) (r : Except IcErr ℕ) : ℕ → ℕ :=
  if r = .error .noMemory then m else (mapStep m op).2

/-- The calls are on valid inodes, and every count stays at most 65500. -/
def CountsStay (icount : Icount) (m : ℕ → ℕ) : List IcCall → Prop
  | [] => True
  | c :: cs =>
    icount.Valid c.op.ino ∧ (mapStep m c.op).2 c.op.ino ≤ 65500 ∧
      CountsStay (icount.step c.env c.op).2 (mapAfter m c.op (icount.step c.env c.op).1) cs

/-- The list has fewer than `2 ^ 31` entries before each call. -/
def ListStays (icount : Icount) : List IcCall → Prop
  | [] => True
  | c :: cs => icount.list.length < 2 ^ 31 ∧ ListStays (icount.step c.env c.op).2 cs

/-- **The icount answers as the map does.** Each call returns what it returns on the map, or
`EXT2_ET_NO_MEMORY` where memory is refused, and leaves the list strictly sorted by inode
and valid. -/
def AnswersAs (icount : Icount) (m : ℕ → ℕ) : List IcCall → Prop
  | [] => True
  | c :: cs =>
    let r := icount.step c.env c.op
    (r.1 = (mapStep m c.op).1 ∨ r.1 = .error .noMemory ∧ c.env.Refuses) ∧
      r.2.list.Pairwise (fun a b => a.ino < b.ino) ∧ icountValidate r.2 = .ok () ∧
      AnswersAs r.2 (mapAfter m c.op r.1) cs

/-! ### Created and validated -/

theorem any_zip_tail (l : List IcountEl) :
    ((l.zip l.tail).any fun p => p.2.ino ≤ p.1.ino) = false ↔
      l.IsChain fun a b => a.ino < b.ino := by
  induction l with
  | nil => simp
  | cons a l ih =>
    cases l with
    | nil => simp
    | cons b l =>
      rw [List.isChain_cons_cons, ← ih]
      simp

theorem icountValidate_eq_ok {icount : Icount} :
    icountValidate icount = .ok () ↔ icount.ListOk := by
  have hsorted : ((icount.list.zip icount.list.tail).any fun p => p.2.ino ≤ p.1.ino) = false ↔
      Sorted IcountEl.ino icount.list := by
    have : IsTrans IcountEl fun a b => a.ino < b.ino := ⟨fun _ _ _ => lt_trans⟩
    rw [any_zip_tail, Sorted, List.isChain_iff_pairwise]
  rw [icountValidate]
  constructor
  · intro h
    by_cases hsize : icount.size < icount.list.length
    · rw [if_pos hsize] at h
      cases h
    · rw [if_neg hsize] at h
      refine ⟨hsorted.mp ?_, by omega⟩
      by_contra hne
      rw [if_pos (by simpa using hne)] at h
      cases h
  · intro h
    rw [if_neg (by have := h.room; omega), if_neg]
    rw [hsorted.mpr h.sorted]
    simp

theorem allocIcount_spec {fs : IcFs} {mem : IcAlloc} {flags : ℕ} {icount : Icount}
    (h : allocIcount fs mem flags = .ok icount) (hfull : icount.fullmap = none) :
    icount.list = [] ∧ (∀ ino, icount.single ino = false) ∧
      ∀ m ∈ icount.multiple, ∀ ino, m ino = false := by
  rw [allocIcount] at h
  dsimp only at h
  split at h
  · cases h
    cases hfull
  · split at h
    · cases h
    · split at h
      · split at h
        · cases h
        · cases h
          exact ⟨rfl, fun _ => rfl, fun m hm ino => by cases hm; rfl⟩
      · cases h
        exact ⟨rfl, fun _ => rfl, fun m hm => by cases hm⟩

/-- Entries that all have the count zero. -/
theorem countIn_hint (l : List IcountEl) (ino : ℕ) :
    countIn (l.map fun el => ⟨el.ino, 0⟩) ino = 0 := by
  rw [countIn, lookup, List.find?_map, Option.map_map]
  rcases List.find? _ l with _ | el
  · rfl
  · rfl

/-- **A new icount** holds the count zero for every inode. The list has the inodes of the
hint, each with the count zero. -/
theorem createIcount2_spec {fs : IcFs} {mem : IcAlloc} {flags size : ℕ} {hint : Option Icount}
    {icount : Icount} (hhint : ∀ h ∈ hint, icountValidate h = .ok ())
    (hcreate : createIcount2 fs mem flags size hint = .ok icount) (hlist : icount.fullmap = none) :
    icount.Ok ∧ icount.value = fun _ => 0 := by
  unfold createIcount2 at hcreate
  dsimp only at hcreate
  rcases halloc : allocIcount fs mem flags with e | new
  · rw [halloc] at hcreate
    cases hcreate
  · rw [halloc] at hcreate
    dsimp only at hcreate
    by_cases hfull : new.fullmap.isSome
    · rw [if_pos hfull] at hcreate
      cases hcreate
      rw [hlist] at hfull
      cases hfull
    · have hnone : new.fullmap = none := by simpa using hfull
      obtain ⟨hnil, hsingle, hmultiple⟩ := allocIcount_spec halloc hnone
      rw [if_neg hfull] at hcreate
      obtain ⟨-, hcreate⟩ := ite_error_eq_ok.mp hcreate
      cases hint with
      | none =>
        cases hcreate
        refine ⟨⟨⟨?_, ?_⟩, hnone⟩, funext fun ino => ?_⟩
        · rw [hnil]
          exact List.Pairwise.nil
        · rw [hnil]
          exact Nat.zero_le _
        · simp [Icount.value, hsingle, hnil, countIn, lookup]
      | some h =>
        have hvalid := icountValidate_eq_ok.mp (hhint h rfl)
        obtain ⟨hroom, hcreate⟩ := ite_error_eq_ok.mp hcreate
        cases hcreate
        refine ⟨⟨⟨List.pairwise_map.mpr hvalid.sorted, ?_⟩, hnone⟩, funext fun ino => ?_⟩
        · simpa using hroom
        · simp [Icount.value, hsingle, countIn_hint]

/-! ### Runs -/

theorem mapStep_ne_noMemory (m : ℕ → ℕ) (op : IcOp) : (mapStep m op).1 ≠ .error .noMemory := by
  cases op with
  | fetch ino => simp [mapStep]
  | increment ino => simp [mapStep]
  | decrement ino =>
    rw [mapStep]
    split
    · simp
    · simp
  | store ino count => simp [mapStep]

theorem answersAs_of_ok (cs : List IcCall) : ∀ {icount : Icount}, icount.Ok →
    CountsStay icount icount.value cs → ListStays icount cs → AnswersAs icount icount.value cs := by
  induction cs with
  | nil =>
    intro icount _ _ _
    trivial
  | cons c cs ih =>
    intro icount hok ⟨hvalid, hcount, hcounts⟩ ⟨hlen, hstays⟩
    have h := step_spec c.env c.op hok hlen hvalid hcount
    have hvalue : (icount.step c.env c.op).2.value =
        mapAfter icount.value c.op (icount.step c.env c.op).1 := by
      rw [mapAfter]
      rcases h.result with ⟨h1, -, h2⟩ | ⟨h1, h2⟩
      · rw [if_pos h1, h2]
      · rw [if_neg (h1 ▸ mapStep_ne_noMemory _ _), h2]
    rw [← hvalue] at hcounts
    refine ⟨?_, h.ok.sorted, icountValidate_eq_ok.mpr h.ok.toListOk, ?_⟩
    · rcases h.result with ⟨h1, h2, -⟩ | ⟨h1, -⟩
      · exact Or.inr ⟨h1, h2⟩
      · exact Or.inl h1
    · rw [← hvalue]
      exact ih h.ok hcounts hstays

/-- **The inode-count store is a map.** -/
theorem icount_answersAs {fs : IcFs} {mem : IcAlloc} {flags size : ℕ} {hint : Option Icount}
    {icount : Icount} {cs : List IcCall} (hhint : ∀ h ∈ hint, icountValidate h = .ok ())
    (hcreate : createIcount2 fs mem flags size hint = .ok icount) (hlist : icount.fullmap = none)
    (hcounts : CountsStay icount (fun _ => 0) cs) (hstays : ListStays icount cs) :
    AnswersAs icount (fun _ => 0) cs := by
  obtain ⟨hok, hvalue⟩ := createIcount2_spec hhint hcreate hlist
  rw [← hvalue] at hcounts ⊢
  exact answersAs_of_ok cs hok hcounts hstays

/-- Memory is never short. -/
def roomyEnv : IcEnv := ⟨fun _ => true, fun count numInodes last => count * numInodes / last⟩

/-- A short run. -/
def shortRun : List IcCall :=
  [.store 5 3, .increment 5, .fetch 5, .decrement 7, .store 2 1, .decrement 2].map (⟨roomyEnv, ·⟩)

/-- An icount for ten inodes, with the second bitmap and room for one entry. -/
def tenInodes : Icount := ⟨fun _ => false, some fun _ => false, 1, 10, 0, [], none, none⟩

theorem icount_answersAs_shortRun :
    createIcount2 ⟨10, 1⟩ ⟨true, true, true, true⟩ 1 1 none = .ok tenInodes ∧
    AnswersAs tenInodes (fun _ => 0) shortRun := by
  have hcreate : createIcount2 ⟨10, 1⟩ ⟨true, true, true, true⟩ 1 1 none = .ok tenInodes := rfl
  refine ⟨hcreate, icount_answersAs (fun h hh => by cases hh) hcreate rfl ?_ ?_⟩
  · exact ⟨by decide, by decide, by decide, by decide, by decide, by decide, by decide, by decide,
      by decide, by decide, by decide, by decide, trivial⟩
  · exact ⟨by decide, by decide, by decide, by decide, by decide, by decide, trivial⟩

/-! ### More entries than an `int` counts -/

/-- Counts of two for `n` inodes from `ino` on. -/
def storesFrom (ino n : ℕ) : List IcCall := (List.range' ino n).map fun i => ⟨roomyEnv, .store i 2⟩

/-- An icount with entries for the inodes up to `n`. -/
structure FilledTo (n : ℕ) (icount : Icount) : Prop extends icount.Ok where
  numInodes : icount.numInodes = 2 ^ 31 + 1
  length : icount.list.length = n
  le : ∀ el ∈ icount.list, el.ino ≤ n

section Filled

variable {n : ℕ} {icount : Icount}

theorem FilledTo.lookup (h : FilledTo n icount) :
    lookup IcountEl.ino icount.list (n + 1) = none := by
  rw [SortedList.lookup, List.find?_eq_none]
  intro el hel
  have := h.le el hel
  rw [decide_eq_true_eq]
  omega

theorem FilledTo.getIcountEl (h : FilledTo n icount) : getIcountEl roomyEnv icount (n + 1) true =
    insertIcountEl roomyEnv icount (n + 1) (toInt n) := by
  have hlast : ∀ last ∈ icount.list.getLast?, last.ino < n + 1 := by
    intro el hel
    have := h.le el (List.mem_of_getLast? hel)
    omega
  rw [E2fsprogs.getIcountEl, if_pos ⟨rfl, hlast⟩, h.length]

theorem FilledTo.step (h : FilledTo n icount) (hn : n < 2 ^ 31) :
    FilledTo (n + 1) (icount.step roomyEnv (.store (n + 1) 2)).2 := by
  have hlen : icount.list.length < 2 ^ 31 := by rw [h.length]; exact hn
  have hvalid : icount.Valid (n + 1) := by
    rw [Icount.Valid, h.numInodes]
    omega
  have hout :=
    step_spec roomyEnv (.store (n + 1) 2) h.toOk hlen hvalid (by simp [mapStep, IcOp.ino])
  rcases insertIcountEl_spec roomyEnv h.room hlen h.length.ge h.lookup with
    ⟨-, k, hmem⟩ | ⟨size, hroom, hins⟩
  · cases hmem
  · have hlist : (icount.step roomyEnv (.store (n + 1) 2)).2.list =
        (insertAt icount.list n ⟨n + 1, 0⟩).set n ⟨n + 1, 2⟩ := by
      rw [Icount.step, icountStore, if_neg (not_not.mpr hvalid), if_neg (by rw [h.fullmap]; simp),
        if_neg (by omega), if_neg (by omega), setInodeCount_of_list _ _ _ h.fullmap, setElCount,
        h.getIcountEl, toInt_of_lt hn, hins]
      show (insertAt icount.list n ⟨n + 1, 0⟩).modify n _ = _
      rw [List.modify_eq_set_getElem?, getElem?_insertAt h.length.ge]
      rfl
    refine ⟨hout.ok, hout.numInodes.trans h.numInodes, ?_, fun el hel => ?_⟩
    · rw [hlist, List.length_set, length_insertAt h.length.ge, h.length]
    · rw [hlist] at hel
      rcases List.mem_or_eq_of_mem_set hel with hel | rfl
      · rcases List.mem_append.mp hel with hel | hel
        · have := h.le el (List.mem_of_mem_take hel)
          omega
        · rcases List.mem_cons.mp hel with rfl | hel
          · exact le_rfl
          · have := h.le el (List.mem_of_mem_drop hel)
            omega
      · exact le_rfl

/-- The list has as many entries as there are non-negative values of `int`, and one more is to
be put at its end. -/
theorem FilledTo.undefined (h : FilledTo (2 ^ 31) icount) :
    (icount.step roomyEnv (.store (2 ^ 31 + 1) 2)).1 = .error .undefined := by
  have hvalid : icount.Valid (2 ^ 31 + 1) := by
    rw [Icount.Valid, h.numInodes]
    omega
  have hgrow : ∃ size, icount.grow roomyEnv = some { icount with size := size } := by
    rw [Icount.grow]
    split
    · exact ⟨_, rfl⟩
    · exact ⟨_, rfl⟩
  have hpos : toInt (2 ^ 31) = -2 ^ 31 := rfl
  have hins : (insertIcountEl roomyEnv icount (2 ^ 31 + 1) (-2 ^ 31)).1 = .undef := by
    obtain ⟨size, hg⟩ := hgrow
    rw [insertIcountEl, lastLookupIs_eq_none h.lookup, hg]
    dsimp only
    rw [h.length, hpos, if_neg (by norm_num), if_neg (by norm_num), if_pos (Or.inl (by norm_num))]
  rw [Icount.step, icountStore, if_neg (not_not.mpr hvalid), if_neg (by rw [h.fullmap]; simp),
    if_neg (by omega), if_neg (by omega), setInodeCount_of_list _ _ _ h.fullmap, setElCount,
    h.getIcountEl, hpos, ← Prod.mk.eta (p := insertIcountEl roomyEnv icount _ _), hins]

theorem not_answersAs_storesFrom (d : ℕ) : ∀ {n : ℕ} {icount : Icount} (m : ℕ → ℕ),
    n + d = 2 ^ 31 → FilledTo n icount → CountsStay icount m (storesFrom (n + 1) (d + 1)) ∧
      ¬AnswersAs icount m (storesFrom (n + 1) (d + 1)) := by
  have hvalid : ∀ {n : ℕ} {icount : Icount}, n ≤ 2 ^ 31 → FilledTo n icount →
      icount.Valid (n + 1) := by
    intro n icount hn h
    rw [Icount.Valid, h.numInodes]
    omega
  have htwo : ∀ (m : ℕ → ℕ) (n : ℕ), (mapStep m (.store (n + 1) 2)).2 (n + 1) ≤ 65500 := by
    intro m n
    simp [mapStep]
  induction d with
  | zero =>
    intro n icount m hn h
    obtain rfl : n = 2 ^ 31 := by omega
    refine ⟨⟨hvalid le_rfl h, htwo m _, trivial⟩, ?_⟩
    rintro ⟨hr, -⟩
    rw [h.undefined] at hr
    rcases hr with hr | ⟨hr, -⟩
    · cases hr
    · cases hr
  | succ d ih =>
    intro n icount m hn h
    obtain ⟨hcounts, hans⟩ := ih (mapAfter m (.store (n + 1) 2)
      (icount.step roomyEnv (.store (n + 1) 2)).1) (by omega) (h.step (by omega))
    refine ⟨⟨hvalid (by omega) h, htwo m n, hcounts⟩, ?_⟩
    rintro ⟨-, -, -, h⟩
    exact hans h

end Filled

/-- An icount for `2 ^ 31 + 1` inodes. -/
def manyInodes : Icount := ⟨fun _ => false, some fun _ => false, 100, 2 ^ 31 + 1, 0, [], none, none⟩

theorem manyInodes_not_answersAs :
    createIcount2 ⟨2 ^ 31 + 1, 1⟩ ⟨true, true, true, true⟩ 1 100 none = .ok manyInodes ∧
    CountsStay manyInodes (fun _ => 0) (storesFrom 1 (2 ^ 31 + 1)) ∧
    ¬AnswersAs manyInodes (fun _ => 0) (storesFrom 1 (2 ^ 31 + 1)) := by
  refine ⟨rfl, not_answersAs_storesFrom (2 ^ 31) (fun _ => 0) (n := 0) (Nat.zero_add _) ?_⟩
  exact ⟨⟨⟨List.Pairwise.nil, Nat.zero_le _⟩, rfl⟩, rfl, rfl, fun el hel => by cases hel⟩

end E2fsprogs
