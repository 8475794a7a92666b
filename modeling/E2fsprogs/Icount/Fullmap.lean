import E2fsprogs.Icount.Runs

/-!
# The full map

With `EXT2_ICOUNT_OPT_FULLMAP` the counts are in an array of 16-bit words, indexed by the
inode number itself. The array has `s_inodes_count` entries, so that there is none for the
last inode, and as its size is computed in an `unsigned` it has `2 ^ 31` entries fewer for a
file system of that many inodes.

A word of the array is a count cut off at 65500, where the list has the count itself and
cuts off what it hands out. The two answer alike until a count above 65500 is decremented.
-/

namespace E2fsprogs

/-- The number of entries of the full map for so many inodes. -/
def fullmapLen (numInodes : ℕ) : ℕ := 2 * numInodes % 2 ^ 32 / 2

/-- A call as the interface has it: on an inode of the file system, with a count of type
`__u16`. -/
def IcOp.Typed (numInodes : ℕ) (op : IcOp) : Prop :=
  1 ≤ op.ino ∧ op.ino ≤ numInodes ∧ ∀ ino count, op = .store ino count → count < 2 ^ 16

/-- The list representation is in a state to answer: an `int` counts its entries, and it has
memory for a new one where it needs it. -/
def Comparable (list : Icount) (c : IcCall) : Prop :=
  list.list.length < 2 ^ 31 ∧ (list.step c.env c.op).1 ≠ .error .noMemory

/-- **The full map is accessed in bounds and agrees with the list.** The runs are compared
for as long as the list representation is able to answer. -/
def Alike (full list : Icount) : List IcCall → Prop
  | [] => True
  | c :: cs =>
    (full.step c.env c.op).1 ≠ .error .undefined ∧
      (Comparable list c → (full.step c.env c.op).1 = (list.step c.env c.op).1 ∧
        Alike (full.step c.env c.op).2 (list.step c.env c.op).2 cs)

/-- A call that a count cut off at 65500 answers: a count above is not decremented, and one
that fills its 32 bits not incremented. -/
def NoLoss (m : ℕ → ℕ) : IcOp → Prop
  | .increment ino => m ino + 1 < 2 ^ 32
  | .decrement ino => m ino ≤ 65500
  | _ => True

/-- The calls are on inodes that have an entry, and none of them sees that counts are cut
off. -/
def Serves (len : ℕ) (list : Icount) (m : ℕ → ℕ) : List IcCall → Prop
  | [] => True
  | c :: cs =>
    c.op.ino < len ∧ (Comparable list c →
      NoLoss m c.op ∧ Serves len (list.step c.env c.op).2 (wordStep m c.op).2 cs)

/-! ### The full map as a map -/

theorem icount16Xlate_eq_min (x : ℕ) : icount16Xlate x = min x 65500 := by
  rw [icount16Xlate]
  split <;> omega

/-- The full map has the counts of `m`, cut off. -/
structure Icount.HasFullmap (icount : Icount) (len : ℕ) (m : ℕ → ℕ) : Prop where
  fullmap : icount.fullmap = some ((List.range len).map fun i => icount16Xlate (m i))

section Step

variable {icount : Icount} {len : ℕ} {m : ℕ → ℕ}

theorem getElem?_counts (i : ℕ) (h : i < len) :
    ((List.range len).map fun i => icount16Xlate (m i))[i]? = some (icount16Xlate (m i)) := by
  rw [List.getElem?_map, List.getElem?_range h]
  rfl

/-- Changing one entry. -/
theorem set_counts (ino n v : ℕ) (h : v = icount16Xlate n) :
    ((List.range len).map fun i => icount16Xlate (m i)).set ino v =
      (List.range len).map fun i => icount16Xlate (Function.update m ino n i) := by
  subst h
  refine List.ext_getElem? fun i => ?_
  rcases Nat.lt_or_ge i len with hi | hi
  · rcases eq_or_ne ino i with rfl | hne
    · rw [List.getElem?_set_self (by simpa using hi), getElem?_counts ino hi, Function.update_self]
    · rw [List.getElem?_set_ne hne, getElem?_counts i hi, getElem?_counts i hi,
        Function.update_of_ne hne.symm]
  · rw [List.getElem?_eq_none (by simpa using hi), List.getElem?_eq_none (by simpa using hi)]

/-- What a call on the full map returns. -/
def cutAnswer (m : ℕ → ℕ) : IcOp → Except IcErr ℕ
  | .fetch ino => .ok (icount16Xlate (m ino))
  | .increment ino => .ok (icount16Xlate (icount16Xlate (m ino) + 1))
  | .decrement ino =>
    if m ino = 0 then .error .invalidArgument
    else .ok (icount16Xlate (icount16Xlate (m ino) - 1))
  | .store _ _ => .ok 0

theorem icount16Xlate_idem (x : ℕ) : icount16Xlate (icount16Xlate x) = icount16Xlate x := by
  simp only [icount16Xlate_eq_min]
  omega

/-- **One call on the full map**, on an inode that has an entry. -/
theorem fullStep_spec (env : IcEnv) (op : IcOp) (h : icount.HasFullmap len m)
    (hvalid : icount.Valid op.ino) (hlt : op.ino < len) :
    (icount.step env op).1 = cutAnswer m op ∧
      (NoLoss m op → (icount.step env op).2.HasFullmap len (wordStep m op).2) ∧
      (icount.step env op).2.numInodes = icount.numInodes := by
  have hsome := h.fullmap
  cases op with
  | fetch ino =>
    have hv : ¬¬icount.Valid ino := not_not.mpr hvalid
    have hget := getElem?_counts (m := m) ino hlt
    have hstep : icountFetch env icount ino = (.ok (icount16Xlate (m ino)), icount) := by
      rw [icountFetch, if_neg hv, if_neg (by simp [hsome]),
        if_neg (by simp [hsome]), getInodeCount, hsome]
      simp only [hget, icount16Xlate_idem]
    rw [Icount.step, hstep]
    exact ⟨rfl, fun _ => h, rfl⟩
  | increment ino =>
    have hv : ¬¬icount.Valid ino := not_not.mpr hvalid
    have hget := getElem?_counts (m := m) ino hlt
    rw [Icount.step, icountIncrement, if_neg hv, hsome]
    simp only [hget, icount16Xlate_idem]
    -- the counter is cut at 65500 before and after, which is the cut of the exact count
    refine ⟨rfl, fun hloss => ⟨?_⟩, trivial⟩
    have hloss : m ino + 1 < 2 ^ 32 := hloss
    have hcut : icount16Xlate (icount16Xlate (m ino) + 1) = icount16Xlate (m ino + 1) := by
      simp only [icount16Xlate_eq_min]
      omega
    show some _ = some _
    rw [set_counts ino (m ino + 1) _ hcut, wordStep, Nat.mod_eq_of_lt hloss]
  | decrement ino =>
    have hv : ¬¬icount.Valid ino := not_not.mpr hvalid
    have hget := getElem?_counts (m := m) ino hlt
    rw [Icount.step, icountDecrement, if_neg hv, hsome]
    simp only [hget]
    -- a count of zero is refused, any other loses one
    rcases Nat.eq_zero_or_pos (m ino) with h0 | hpos
    · have hzero : icount16Xlate (m ino) = 0 := by rw [h0]; rfl
      simp only [hzero]
      rw [cutAnswer, wordStep, if_pos h0, if_pos h0]
      exact ⟨rfl, fun _ => h, trivial⟩
    · obtain ⟨k, hk⟩ : ∃ k, icount16Xlate (m ino) = k + 1 :=
        ⟨icount16Xlate (m ino) - 1, by rw [icount16Xlate_eq_min]; omega⟩
      simp only [hk, cutAnswer, hpos.ne', if_false, wordStep, Nat.add_sub_cancel]
      refine ⟨trivial, fun hloss => ⟨?_⟩, trivial⟩
      have hloss : m ino ≤ 65500 := hloss
      have hkm : k = icount16Xlate (m ino - 1) := by
        rw [icount16Xlate_eq_min] at hk ⊢
        omega
      show some _ = some _
      rw [set_counts ino (m ino - 1) _ hkm]
  | store ino count =>
    have hv : ¬¬icount.Valid ino := not_not.mpr hvalid
    have hstep : setInodeCount env icount ino count =
        (.ok (), { icount with
          fullmap := some (((List.range len).map fun i => icount16Xlate (m i)).set ino
            (icount16Xlate count)) }) := by
      have hlt : ino < len := hlt
      rw [setInodeCount, hsome]
      simp only [List.length_map, List.length_range]
      rw [if_pos hlt]
    rw [Icount.step, icountStore, if_neg hv, if_pos (by simp [hsome]), hstep]
    refine ⟨rfl, fun _ => ⟨?_⟩, rfl⟩
    show some _ = some _
    rw [set_counts ino count _ rfl, wordStep]

/-- An inode without an entry is looked for behind the array. -/
theorem fullStep_undefined (env : IcEnv) (op : IcOp) (h : icount.HasFullmap len m)
    (hvalid : icount.Valid op.ino) (hge : len ≤ op.ino) :
    (icount.step env op).1 = .error .undefined := by
  have hsome := h.fullmap
  have hget : ((List.range len).map fun i => icount16Xlate (m i))[op.ino]? = none :=
    List.getElem?_eq_none (by simpa using hge)
  cases op with
  | fetch ino =>
    have hv : ¬¬icount.Valid ino := not_not.mpr hvalid
    have hget : ((List.range len).map fun i => icount16Xlate (m i))[ino]? = none := hget
    rw [Icount.step, icountFetch, if_neg hv, if_neg (by simp [hsome]),
      if_neg (by simp [hsome]), getInodeCount, hsome]
    simp only [hget]
  | increment ino =>
    have hv : ¬¬icount.Valid ino := not_not.mpr hvalid
    have hget : ((List.range len).map fun i => icount16Xlate (m i))[ino]? = none := hget
    rw [Icount.step, icountIncrement, if_neg hv, hsome]
    simp only [hget]
  | decrement ino =>
    have hv : ¬¬icount.Valid ino := not_not.mpr hvalid
    have hget : ((List.range len).map fun i => icount16Xlate (m i))[ino]? = none := hget
    rw [Icount.step, icountDecrement, if_neg hv, hsome]
    simp only [hget]
  | store ino count =>
    have hv : ¬¬icount.Valid ino := not_not.mpr hvalid
    have hge : ¬ino < len := Nat.not_lt.mpr hge
    rw [Icount.step, icountStore, if_neg hv, if_pos (by simp [hsome]),
      setInodeCount, hsome]
    simp only [List.length_map, List.length_range]
    rw [if_neg hge]

/-- The answers are the same exactly where nothing of the count is lost. -/
theorem cutAnswer_eq_iff (hword : ∀ ino, m ino < 2 ^ 32) (op : IcOp) :
    cutAnswer m op = (wordStep m op).1 ↔ NoLoss m op := by
  cases op with
  | fetch ino => exact ⟨fun _ => trivial, fun _ => rfl⟩
  | increment ino =>
    have hm := hword ino
    simp only [cutAnswer, wordStep, Except.ok.injEq, NoLoss, icount16Xlate_eq_min]
    omega
  | decrement ino =>
    simp only [cutAnswer, wordStep, NoLoss]
    by_cases h0 : m ino = 0
    · rw [if_pos h0, if_pos h0]
      exact ⟨fun _ => by omega, fun _ => rfl⟩
    · rw [if_neg h0, if_neg h0]
      simp only [Except.ok.injEq, icount16Xlate_eq_min]
      omega
  | store ino count => exact ⟨fun _ => trivial, fun _ => rfl⟩

theorem wordStep_lt (hword : ∀ ino, m ino < 2 ^ 32) {n : ℕ} {op : IcOp} (htyped : op.Typed n) :
    ∀ ino, (wordStep m op).2 ino < 2 ^ 32 := by
  have hupdate : ∀ k v, v < 2 ^ 32 → ∀ ino, Function.update m k v ino < 2 ^ 32 := by
    intro k v hv ino
    rcases eq_or_ne ino k with rfl | hne
    · rwa [Function.update_self]
    · rw [Function.update_of_ne hne]
      exact hword ino
  cases op with
  | fetch ino => exact hword
  | increment ino => exact hupdate _ _ (Nat.mod_lt _ (by norm_num))
  | decrement ino =>
    rw [wordStep]
    split
    · exact hword
    · exact hupdate _ _ (by have := hword ino; omega)
  | store ino count => exact hupdate _ _ (by have := htyped.2.2 ino count rfl; omega)

end Step

/-! ### Runs -/

/-- The two representations of the same counts. -/
structure Both (n : ℕ) (full list : Icount) (m : ℕ → ℕ) : Prop where
  hasFullmap : full.HasFullmap (fullmapLen n) m
  listOk : list.Ok
  value : list.value = m
  fullInodes : full.numInodes = n
  listInodes : list.numInodes = n
  word : ∀ ino, m ino < 2 ^ 32

/-- A call that the list representation is able to answer. -/
theorem Both.step {n : ℕ} {full list : Icount} {m : ℕ → ℕ} (h : Both n full list m) {c : IcCall}
    (htyped : c.op.Typed n) (hlt : c.op.ino < fullmapLen n) (hcomp : Comparable list c) :
    ((full.step c.env c.op).1 = (list.step c.env c.op).1 ↔ NoLoss m c.op) ∧
      (NoLoss m c.op → Both n (full.step c.env c.op).2 (list.step c.env c.op).2
        (wordStep m c.op).2) := by
  have hvalid : ∀ icount : Icount, icount.numInodes = n → icount.Valid c.op.ino := by
    intro icount hn
    rw [Icount.Valid, hn]
    have := htyped.1
    have := htyped.2.1
    omega
  obtain ⟨hans, hfull, hnum⟩ := fullStep_spec c.env c.op h.hasFullmap (hvalid full h.fullInodes) hlt
  have hlist := step_wordSpec c.env c.op h.listOk hcomp.1 (hvalid list h.listInodes)
  rw [h.value] at hlist
  rcases hlist.result with ⟨hmem, -, -⟩ | ⟨hres, hval⟩
  · exact absurd hmem hcomp.2
  · rw [hans, hres]
    exact ⟨cutAnswer_eq_iff h.word c.op, fun hloss => ⟨hfull hloss, hlist.ok, hval,
      hnum.trans h.fullInodes, hlist.numInodes.trans h.listInodes, wordStep_lt h.word htyped⟩⟩

theorem Both.alike_runs_iff {n : ℕ} (cs : List IcCall) : ∀ {full list : Icount} {m : ℕ → ℕ},
    Both n full list m → (∀ c ∈ cs, c.op.Typed n) →
    (Alike full list cs ↔ Serves (fullmapLen n) list m cs) := by
  induction cs with
  | nil => exact fun _ _ => Iff.rfl
  | cons c cs ih =>
    intro full list m h htyped
    have hc := htyped c (by simp)
    have hrest : ∀ x ∈ cs, x.op.Typed n := fun x hx => htyped x (by simp [hx])
    have hvalid : full.Valid c.op.ino := by
      rw [Icount.Valid, h.fullInodes]
      have := hc.1
      have := hc.2.1
      omega
    rw [Alike, Serves]
    rcases Nat.lt_or_ge c.op.ino (fullmapLen n) with hlt | hge
    · have hdef : (full.step c.env c.op).1 ≠ .error .undefined := by
        rw [(fullStep_spec c.env c.op h.hasFullmap hvalid hlt).1]
        cases c.op with
        | decrement ino =>
          rw [cutAnswer]
          split
          · simp
          · simp
        | _ => simp [cutAnswer]
      simp only [hdef, hlt, ne_eq, not_false_eq_true, true_and]
      refine forall_congr' fun hcomp => ?_
      obtain ⟨heq, hnext⟩ := h.step hc hlt hcomp
      rw [heq]
      exact and_congr_right fun hloss => ih (hnext hloss) hrest
    · rw [fullStep_undefined c.env c.op h.hasFullmap hvalid hge]
      simp only [ne_eq, not_true_eq_false, false_and, false_iff, not_and]
      exact fun hlt => absurd hlt (Nat.not_lt.mpr hge)

/-- What is created has the inodes of the file system and, where it has a full map, zeroes
in it. -/
theorem allocIcount_fullmap {fs : IcFs} {mem : IcAlloc} {flags : ℕ} {icount : Icount}
    (h : allocIcount fs mem flags = .ok icount) : icount.numInodes = fs.sInodesCount ∧
      (icount.fullmap.isSome → icount.HasFullmap (fullmapLen fs.sInodesCount) fun _ => 0) := by
  rw [allocIcount] at h
  dsimp only at h
  split at h
  · cases h
    refine ⟨rfl, fun _ => ⟨?_⟩⟩
    show some _ = some _
    rw [List.map_const', List.length_range, fullmapLen]
    rfl
  · split at h
    · cases h
    · split at h
      · split at h
        · cases h
        · cases h
          exact ⟨rfl, fun hsome => by cases hsome⟩
      · cases h
        exact ⟨rfl, fun hsome => by cases hsome⟩

theorem createIcount2_fullmap {fs : IcFs} {mem : IcAlloc} {flags size : ℕ} {hint : Option Icount}
    {icount : Icount} (h : createIcount2 fs mem flags size hint = .ok icount) :
    icount.numInodes = fs.sInodesCount ∧
      (icount.fullmap.isSome → icount.HasFullmap (fullmapLen fs.sInodesCount) fun _ => 0) := by
  unfold createIcount2 at h
  dsimp only at h
  rcases halloc : allocIcount fs mem flags with e | new
  · rw [halloc] at h
    cases h
  · obtain ⟨hnum, hfull⟩ := allocIcount_fullmap halloc
    rw [halloc] at h
    dsimp only at h
    by_cases hnew : new.fullmap.isSome
    · rw [if_pos hnew] at h
      cases h
      exact ⟨hnum, hfull⟩
    · rw [if_neg hnew] at h
      obtain ⟨-, h⟩ := ite_error_eq_ok.mp h
      cases hint with
      | none =>
        cases h
        exact ⟨hnum, fun hsome => absurd hsome hnew⟩
      | some hint =>
        obtain ⟨-, h⟩ := ite_error_eq_ok.mp h
        cases h
        exact ⟨hnum, fun hsome => absurd hsome hnew⟩

/-- **The full map agrees with the list** exactly in the runs on inodes that have an entry
in which no count above 65500 is decremented. -/
theorem alike_iff {fs : IcFs} {mem mem' : IcAlloc} {flags flags' size size' : ℕ}
    {hint hint' : Option Icount} {full list : Icount} {cs : List IcCall}
    (hcreate : createIcount2 fs mem flags size hint = .ok full) (hfull : full.fullmap.isSome)
    (hhint : ∀ h ∈ hint', icountValidate h = .ok ())
    (hcreate' : createIcount2 fs mem' flags' size' hint' = .ok list) (hlist : list.fullmap = none)
    (htyped : ∀ c ∈ cs, c.op.Typed fs.sInodesCount) :
    Alike full list cs ↔ Serves (fullmapLen fs.sInodesCount) list (fun _ => 0) cs := by
  obtain ⟨hnum, hhas⟩ := createIcount2_fullmap hcreate
  obtain ⟨hnum', -⟩ := createIcount2_fullmap hcreate'
  obtain ⟨hok, hvalue⟩ := createIcount2_spec hhint hcreate' hlist
  exact Both.alike_runs_iff cs ⟨hhas hfull, hok, hvalue, hnum, hnum', fun _ => by norm_num⟩ htyped

/-- A full map for ten inodes. -/
def tenInodesFull : Icount :=
  ⟨fun _ => false, none, 0, 10, 0, [], none, some (List.replicate 10 0)⟩

/-- A run that the full map answers as the list does. -/
theorem alike_iff_shortRun :
    Alike tenInodesFull tenInodes shortRun ↔ Serves 10 tenInodes (fun _ => 0) shortRun :=
  @alike_iff ⟨10, 1⟩ ⟨true, true, true, true⟩ ⟨true, true, true, true⟩ 3 1 1 1 none none
    tenInodesFull tenInodes shortRun rfl rfl (fun h hh => by cases hh) rfl rfl (by
      intro c hc
      simp only [shortRun, List.map_cons, List.map_nil, List.mem_cons, List.not_mem_nil,
        or_false] at hc
      rcases hc with rfl | rfl | rfl | rfl | rfl | rfl <;>
        refine ⟨by decide, by decide, fun ino count h => ?_⟩ <;> cases h <;> norm_num)

/-- The count of the last inode is not in the array. -/
theorem not_alike_last_inode :
    createIcount2 ⟨10, 1⟩ ⟨true, true, true, true⟩ 3 1 none = .ok tenInodesFull ∧
    createIcount2 ⟨10, 1⟩ ⟨true, true, true, true⟩ 1 1 none = .ok tenInodes ∧
    (IcOp.increment 10).Typed 10 ∧
    ¬Alike tenInodesFull tenInodes [⟨roomyEnv, .increment 10⟩] := by
  refine ⟨rfl, rfl, ⟨by decide, by decide, fun ino count h => by cases h⟩, fun h => ?_⟩
  exact h.1 (by decide)

end E2fsprogs
