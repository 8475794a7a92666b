import E2fsprogs.Rehash.Index

/-!
# Rebuilding a directory keeps its entries

The two halves together: the leaf blocks hold the entries that were gathered, each once and in the
order of their hashes, and the index leads to each leaf block once. The entries are always kept; the
index is valid under the condition of `E2fsprogs.TreeOk`.
-/

namespace E2fsprogs

variable {fs : DirFs} {fd : FillDir} {slack p : ℕ} {g es : List HashEntry}
    {gs : List (List HashEntry)}

/-! ### The order of the entries -/

section Order

/-- The order of `hash_cmp`, as far as the hashes decide it. -/
def HashEntry.Le (a b : HashEntry) : Prop :=
  a.hash < b.hash ∨ a.hash = b.hash ∧ a.minorHash ≤ b.minorHash

theorem HashEntry.Le.hash_le {a b : HashEntry} (h : a.Le b) : a.hash ≤ b.hash := by
  rcases h with h | h <;> omega

theorem or_one_le (h : ℕ) : h ||| 1 ≤ h + 1 := by
  have h1 : (h ||| 1) / 2 = h / 2 := by
    rw [Nat.or_div_two]
    exact Nat.or_zero _
  omega

theorem or_one_mono {a b : ℕ} (h : a ≤ b) : a ||| 1 ≤ b ||| 1 := by
  rcases Nat.eq_or_lt_of_le h with rfl | hlt
  · exact le_rfl
  · exact ((or_one_le a).trans hlt).trans Nat.left_le_or

theorem leafKey_le (q : ℕ) (ent : HashEntry) : leafKey q ent ≤ ent.hash ||| 1 := by
  rw [leafKey]
  split
  · exact le_rfl
  · exact Nat.left_le_or

/-- The keys of later blocks are not below that of an entry. The induction is on the blocks; `q` is
the hash of the entry before them. -/
theorem or_one_le_leafKeys {h q : ℕ} (hq : h ≤ q) (hne : ∀ g ∈ gs, g ≠ [])
    (hle : ∀ ent ∈ gs.flatten, q ≤ ent.hash) (hsort : gs.flatten.Pairwise HashEntry.Le) :
    ∀ key ∈ leafKeys q gs, h ||| 1 ≤ key := by
  induction gs generalizing q with
  | nil => exact fun key hkey => absurd hkey (by simp [leafKeys])
  | cons g gs ih =>
    obtain ⟨ent, es, rfl⟩ := List.exists_cons_of_ne_nil (hne g List.mem_cons_self)
    rw [List.flatten_cons, List.pairwise_append] at hsort
    have hent : q ≤ ent.hash := hle ent (by simp)
    intro key hkey
    rw [leafKeys, List.mem_cons] at hkey
    rcases hkey with rfl | hkey
    · show h ||| 1 ≤ leafKey q ent
      rw [leafKey]
      split
      · exact or_one_mono (hq.trans hent)
      · exact (or_one_le h).trans (by omega)
    · obtain ⟨last, hlast⟩ : ∃ last, (ent :: es).getLast? = some last := ⟨_, List.getLast?_cons⟩
      have hmem := List.mem_of_getLast? hlast
      have hq' : lastHash q (ent :: es) = last.hash := by rw [lastHash, hlast]; rfl
      rw [hq'] at hkey
      refine ih (hq.trans (hle last (List.mem_flatten.mpr ⟨_, List.mem_cons_self, hmem⟩)))
        (fun g hg => hne g (List.mem_cons_of_mem _ hg)) ?_ hsort.2.1
        key hkey
      exact fun e he => (hsort.2.2 last hmem e he).hash_le

/-- **The keys ascend.** -/
theorem leafKeys_pairwise (hne : ∀ g ∈ gs, g ≠ [])
    (hsort : gs.flatten.Pairwise HashEntry.Le) (p : ℕ) :
    (leafKeys p gs).Pairwise (· ≤ ·) := by
  induction gs generalizing p with
  | nil => exact List.Pairwise.nil
  | cons g gs ih =>
    obtain ⟨ent, es, rfl⟩ := List.exists_cons_of_ne_nil (hne g List.mem_cons_self)
    rw [List.flatten_cons, List.pairwise_append] at hsort
    refine List.Pairwise.cons (fun key hkey => ?_)
      (ih (fun g hg => hne g (List.mem_cons_of_mem _ hg)) hsort.2.1 _)
    obtain ⟨last, hlast⟩ : ∃ last, (ent :: es).getLast? = some last := ⟨_, List.getLast?_cons⟩
    have hmem := List.mem_of_getLast? hlast
    have hq : lastHash p (ent :: es) = last.hash := by rw [lastHash, hlast]; rfl
    rw [hq] at hkey
    have hle : ent.hash ≤ last.hash := by
      rcases List.mem_cons.mp hmem with rfl | hmem
      · exact le_rfl
      · exact ((List.pairwise_cons.mp hsort.1).1 last hmem).hash_le
    exact (leafKey_le p ent).trans
      (or_one_le_leafKeys hle (fun g hg => hne g (List.mem_cons_of_mem _ hg))
      (fun e he => (hsort.2.2 last hmem e he).hash_le) hsort.2.1 key hkey)

end Order

/-! ### The entries of the blocks -/

section Packing

/-- The blocks hold the entries, in their order. -/
theorem packLeaves_flatten (fs : DirFs) (fd : FillDir) (slack : ℕ) (cur : List HashEntry) (off : ℕ)
    (es : List HashEntry) :
    (packLeaves fs fd slack cur off es).flatten = cur ++ es := by
  induction es generalizing cur off with
  | nil => simp [packLeaves]
  | cons ent es ih =>
    rw [packLeaves]
    split
    · rw [List.flatten_cons, ih]
      rfl
    · rw [ih, List.append_assoc]
      rfl

/-- No block is empty, unless there are no entries. -/
theorem packLeaves_ne_nil {cur : List HashEntry} {off : ℕ} (h : cur ≠ [] ∨ (es ≠ [] ∧ off = 0))
    (hfs : fs.Ok) :
    ∀ g ∈ packLeaves fs fd slack cur off es, g ≠ [] := by
  induction es generalizing cur off with
  | nil =>
    intro g hg
    rw [packLeaves, List.mem_singleton] at hg
    subst hg
    exact h.resolve_right fun h => h.1 rfl
  | cons ent es ih =>
    rw [packLeaves]
    split
    · next hroom =>
      intro g hg
      rcases List.mem_cons.mp hg with rfl | hg
      · refine h.resolve_right fun h => ?_
        have := dirRecLenExt_le ent.dirent.name.length fd.hashInEntry
        have := (leafStop_spec hfs).1
        omega
      · exact ih (Or.inl (by simp)) g hg
    · exact ih (Or.inl (by simp))

theorem packLeaves_length_pos (fs : DirFs) (fd : FillDir) (slack : ℕ)
    (cur : List HashEntry) (off : ℕ)
    (es : List HashEntry) : 0 < (packLeaves fs fd slack cur off es).length := by
  induction es generalizing cur off with
  | nil => exact Nat.one_pos
  | cons ent es ih =>
    rw [packLeaves]
    split
    · exact Nat.succ_pos _
    · exact ih _ _

theorem length_leafKeys (p : ℕ) (gs : List (List HashEntry)) :
    (leafKeys p gs).length = gs.length := by
  induction gs generalizing p with
  | nil => rfl
  | cons g gs ih => rw [leafKeys, List.length_cons, List.length_cons, ih]

end Packing

/-! ### The whole directory -/

section Whole

variable {info : RootInfo} {slackPercentage : ℕ} {gathered : List HashEntry}

/-- `copy_dir_entries` and, for an indexed directory, `calculate_tree`, as `e2fsck_rehash_dir` calls
them. -/
def rehash (fs : DirFs) (fd : FillDir) (slackPercentage : ℕ) (info : RootInfo) : Option OutDir :=
  (copyDirEntries fs fd slackPercentage).bind fun out =>
    if fd.compress then some out else calculateTree fs info out

/-- How the entries are divided among the leaf blocks. -/
def leafGroups (fs : DirFs) (fd : FillDir) (slackPercentage : ℕ) : List (List HashEntry) :=
  packLeaves fs fd (copySlack fs fd slackPercentage) [] 0 fd.harray

/-- The hash recorded for the leaf block `j`, if these are its and the other blocks' entries. -/
def groupKey (gs : List (List HashEntry)) (j : ℕ) : ℕ := (leafKeys 1 gs).getD j 0

/-- **A rebuilt directory.** The leaf blocks are valid and hold the entries that were gathered, in
the order of their hashes if the directory is indexed; then the index is valid too, and its keys
ascend. -/
def Rehashed (fs : DirFs) (fd : FillDir) (gathered : List HashEntry) (out : OutDir) : Prop :=
  ∃ gs : List (List HashEntry), gs.flatten.Perm gathered ∧
    (∀ i g, gs[i]? = some g →
      LeafOk fs (out.buf ((if fd.compress then 0 else 1) + i)) (g.map HashEntry.dirent)) ∧
    (fd.compress = true → out.num = gs.length) ∧
    (fd.compress = false → gs.flatten.Pairwise HashEntry.Le ∧
      IndexOk fs out.buf (groupKey gs) gs.length ∧
      ∀ i j, i < j → j < gs.length → groupKey gs i ≤ groupKey gs j)

/-- What `fill_dir_block` and the sort promise of the entries. -/
structure Gathered (fd : FillDir) (gathered : List HashEntry) : Prop where
  perm : fd.harray.Perm gathered
  ok : ∀ ent ∈ gathered, ent.Ok
  live : ∀ ent ∈ gathered, ent.dirent.inode ≠ 0
  sorted : fd.compress = false → fd.harray.Pairwise HashEntry.Le

theorem IndexOk.congr {buf : ℕ → Block} {keys keys' : ℕ → ℕ} {n : ℕ} (h : IndexOk fs buf keys n)
    (hkeys : ∀ j, 0 < j → j < n → keys j = keys' j) : IndexOk fs buf keys' n := by
  refine ⟨h.root, h.nodes, h.leaves.trans (List.map_congr_left fun j hj => ?_)⟩
  rw [leafRef, leafRef]
  split
  · rfl
  · next h0 => rw [hkeys j (Nat.pos_of_ne_zero h0) (List.mem_range.mp hj)]

/-- The condition depends on the hashes of the leaf blocks only. -/
theorem treeOk_congr {hs hs' : ℕ → ℕ} {m nb : ℕ}
    (h : ∀ j, 0 < j → j < nb - 1 → hs (1 + j) = hs' (1 + j))
    (hL : 0 < intLimit fs) : TreeOk fs hs m nb ↔ TreeOk fs hs' m nb := by
  refine or_congr_right (forall_congr' fun t => imp_congr_right fun ht => and_congr_right fun _ =>
    and_congr_right fun _ => imp_congr_right fun h0 => imp_congr_right fun _ => ?_)
  rw [h _ (Nat.mul_pos (Nat.mul_pos h0 hL) hL) ht]

/-- **When a directory is rebuilt correctly.** A directory without an index always is. -/
theorem rehash_iff (hfs : fs.Ok) (hg : Gathered fd gathered)
    (hle : fd.compress = false →
      (leafGroups fs fd slackPercentage).length ≤ rootLimit fs * intLimit fs * intLimit fs) :
    (∃ out, rehash fs fd slackPercentage info = some out ∧ Rehashed fs fd gathered out) ↔
      fd.compress = true ∨ TreeOk fs (fun k => groupKey (leafGroups fs fd slackPercentage) (k - 1))
        (fd.dirSize / fs.blocksize + 2) ((leafGroups fs fd slackPercentage).length + 1) := by
  have hlt := intLimit_spec hfs
  have hok : ∀ ent ∈ fd.harray, ent.Ok := fun ent hent => hg.ok ent (hg.perm.mem_iff.mp hent)
  obtain ⟨out, hcopy, hpacked⟩ := copyDirEntries_spec hfs hok slackPercentage
  have hlive : fd.harray.filter HashEntry.live = fd.harray := by
    refine List.filter_eq_self.mpr fun ent hent => ?_
    simp [HashEntry.live, hg.live ent (hg.perm.mem_iff.mp hent)]
  rw [hlive] at hpacked
  obtain ⟨gs, hgs⟩ : ∃ gs, leafGroups fs fd slackPercentage = gs := ⟨_, rfl⟩
  rw [hgs] at hle ⊢
  rw [leafGroups] at hgs
  rw [hgs] at hpacked
  have hflat : gs.flatten = fd.harray := by
    rw [← hgs, packLeaves_flatten]
    rfl
  have hpos : 0 < gs.length := by
    rw [← hgs]
    exact packLeaves_length_pos ..
  rw [rehash, hcopy, Option.bind_some]
  cases hcompress : fd.compress with
  | true =>
    refine iff_of_true ⟨out, if_pos rfl, gs, ?_, ?_, fun _ => ?_,
      fun h => absurd h (by rw [hcompress]; decide)⟩
      (Or.inl rfl)
    · rw [hflat]
      exact hg.perm
    · exact hpacked.leaf
    · rw [hpacked.num, hcompress, if_pos rfl, Nat.zero_add]
  | false =>
    have hnum : out.num = gs.length + 1 := by
      rw [hpacked.num, hcompress, if_neg (by decide), Nat.add_comm]
    -- the hashes are the keys of the blocks
    have hne : 1 < gs.length → ∀ g ∈ gs, g ≠ [] := by
      intro h1
      rw [← hgs] at h1 ⊢
      refine packLeaves_ne_nil (Or.inr ⟨?_, rfl⟩) hfs
      intro hnil
      rw [hnil, packLeaves, List.length_singleton] at h1
      omega
    have hkeys : ∀ j, 0 < j → j < gs.length → out.hashes (1 + j) = groupKey gs j := by
      intro j h0 hj
      obtain ⟨g, hg⟩ : ∃ g, gs[j]? = some g := ⟨gs[j], List.getElem?_eq_getElem hj⟩
      have hkey := hpacked.key j g hg (hne (by omega) g (List.mem_of_getElem? hg))
      rw [hcompress, if_neg (by decide)] at hkey
      rw [groupKey, List.getD_eq_getElem?_getD, hkey]
      rfl
    have hsorted : gs.flatten.Pairwise HashEntry.Le := by
      rw [hflat]
      exact hg.sorted hcompress
    obtain ⟨hmade, hback⟩ := @calculateTree_indexOk fs info out _ hfs (show 2 ≤ out.num by omega)
      (by rw [hnum]; exact hle hcompress) hpacked.max
      (fun k _ => hpacked.hash_lt (fun _ => Nat.two_pow_pos 32) k)
    have hcond := @treeOk_congr fs out.hashes (fun k => groupKey gs (k - 1))
      (fd.dirSize / fs.blocksize + 2) out.num
      (fun j h0 hj => by
        rw [hkeys j h0 (by omega), Nat.add_sub_cancel_left]) hlt.1
    rw [if_neg (by decide), ← hnum, ← hcond]
    constructor
    · rintro ⟨out', htree, gs', -, -, -, hindexed⟩
      exact Or.inr (hback out' _ _ htree (hindexed hcompress).2.1)
    · rintro (h | h)
      · exact absurd h (by decide)
      obtain ⟨out', htree, hindex, hsame⟩ := hmade h
      rw [show out.num - 1 = gs.length by omega] at hindex
      refine ⟨out', htree, gs, ?_, ?_, fun h => absurd h (by rw [hcompress]; decide), fun _ =>
        ⟨hsorted, hindex.congr hkeys, ?_⟩⟩
      · rw [hflat]
        exact hg.perm
      · intro i g hi
        have hi' : i < gs.length := List.getElem?_eq_some_iff.mp hi |>.1
        rw [hcompress, if_neg (by decide), hsame (1 + i) (by omega) (by omega)]
        have := hpacked.leaf i g hi
        rwa [hcompress, if_neg (by decide)] at this
      · intro i j hij hj
        have hasc := leafKeys_pairwise (hne (by omega)) hsorted 1
        rw [groupKey, groupKey, List.getD_eq_getElem _ _ (by rw [length_leafKeys]; omega),
          List.getD_eq_getElem _ _ (by rw [length_leafKeys]; omega)]
        exact List.pairwise_iff_getElem.mp hasc i j _ _ hij

/-- **Rebuilding a directory keeps its entries and makes a valid index**, under exactly this
condition. -/
theorem rehashed_iff_treeOk (fs : DirFs) (fd : FillDir) (info : RootInfo) (slackPercentage : ℕ)
    (gathered : List HashEntry) (hfs : fs.Ok) (hg : Gathered fd gathered)
    (hle : fd.compress = false →
      (leafGroups fs fd slackPercentage).length ≤ rootLimit fs * intLimit fs * intLimit fs) :
    (∃ out, rehash fs fd slackPercentage info = some out ∧ Rehashed fs fd gathered out) ↔
      fd.compress = true ∨ TreeOk fs (fun k => groupKey (leafGroups fs fd slackPercentage) (k - 1))
        (fd.dirSize / fs.blocksize + 2) ((leafGroups fs fd slackPercentage).length + 1) :=
  rehash_iff hfs hg hle

end Whole

/-! ### A directory with three nodes of the middle level -/

section Wide

variable {n : ℕ}

/-- A file system with blocks of 1024 bytes. -/
def wideFs : DirFs where
  blocksize := 1024
  metadataCsum := false
  filetype := true

/-- An entry whose hash is stored with it. -/
def wideEntry (i : ℕ) : HashEntry where
  hash := 2 * i
  minorHash := 0
  dirent := ⟨12, 1, [4096, 256, 16, 1].map fun d => UInt8.ofNat (97 + i / d % 16)⟩

/-- A directory with `n` such entries. -/
def wideDir (n : ℕ) : FillDir where
  harray := (List.range' 0 n).map wideEntry
  dirSize := n * 20
  compress := false
  hashInEntry := true
  parent := 2

theorem wideFs_ok : wideFs.Ok := ⟨by decide, by decide, by decide⟩

theorem wideLimits : intLimit wideFs = 127 ∧ rootLimit wideFs = 124 ∧ leafStop wideFs = 1024 := by
  decide

/-- With a slack of the whole block, each block holds one entry. -/
theorem packLeaves_wide (cur : List HashEntry) (es : List HashEntry) :
    packLeaves wideFs (wideDir n) 1024 cur 1024 es = cur :: es.map fun ent => [ent] := by
  induction es generalizing cur with
  | nil => rfl
  | cons ent es ih =>
    have hpos := dirRecLen_le_ext ent.dirent.name.length (wideDir n).hashInEntry
    have h8 := eight_le_dirRecLen ent.dirent.name.length
    have hstop := wideLimits.2.2
    have hoff : offsetAfter wideFs (wideDir n) 1024 0 ent = 1024 := by
      rw [offsetAfter, if_pos (by omega), hstop]
    rw [packLeaves, if_pos (by omega), hoff, ih]
    rfl

theorem leafGroups_wide :
    leafGroups wideFs (wideDir (n + 1)) 100 = (List.range' 0 (n + 1)).map fun i =>
    [wideEntry i] := by
  have hpos := dirRecLen_le_ext 4 true
  have hle := dirRecLenExt_le 4 true
  have h8 := eight_le_dirRecLen 4
  have hstop := wideLimits.2.2
  have hslack : copySlack wideFs (wideDir (n + 1)) 100 = 1024 := by
    rw [copySlack]
    rfl
  have hoff : offsetAfter wideFs (wideDir (n + 1)) 1024 0 (wideEntry 0) = 1024 := by
    have hlen : (wideEntry 0).dirent.name.length = 4 := rfl
    have hhash : (wideDir (n + 1)).hashInEntry = true := rfl
    rw [offsetAfter, hlen, hhash, if_pos (by omega), hstop]
  rw [leafGroups, hslack, show (wideDir (n + 1)).harray =
    wideEntry 0 :: (List.range' 1 n).map wideEntry from rfl, packLeaves,
    if_neg (by rw [hstop]; exact Nat.not_lt_of_le (hle.trans (by omega))), hoff, packLeaves_wide,
    List.range'_succ, List.map_cons, List.map_map]
  rfl

/-- The recorded hashes are those of the entries. -/
theorem leafKeys_wide (a p n : ℕ) (hp : p ≠ 2 * a) :
    leafKeys p ((List.range' a n).map fun i => [wideEntry i]) = (List.range' a n).map fun i =>
      2 * i := by
  induction n generalizing a p with
  | zero => rfl
  | succ n ih =>
    rw [List.range'_succ, List.map_cons, List.map_cons, leafKeys]
    refine congrArg₂ List.cons (if_neg fun h => hp h.symm) (ih (a + 1) _ ?_)
    show 2 * a ≠ _
    omega

theorem gathered_wide (hn : n ≤ 2 ^ 31) : Gathered (wideDir n) (wideDir n).harray := by
  refine ⟨List.Perm.refl _, fun ent hent => ?_, fun ent hent => ?_, fun _ => ?_⟩
  · obtain ⟨i, hi, rfl⟩ := List.mem_map.mp hent
    have := (List.mem_range'_1.mp hi).2
    exact ⟨show 12 < 2 ^ 32 by omega, show 1 < 256 by omega, show 4 ≤ 255 by omega,
      show 2 * i < 2 ^ 32 by omega⟩
  · obtain ⟨i, hi, rfl⟩ := List.mem_map.mp hent
    exact Nat.succ_ne_zero 11
  · refine List.pairwise_map.mpr ((List.pairwise_lt_range').imp fun {a b} hab => Or.inl ?_)
    show 2 * a < 2 * b
    omega

/-- A middle node that is full has the lower half of a hash as its limit. -/
theorem wide_not_rehashed (hn : 32258 ≤ n) (hle : n + 1 ≤ 124 * 127 * 127) (info : RootInfo) :
    ¬∃ out, rehash wideFs (wideDir (n + 1)) 100 info = some out ∧
      Rehashed wideFs (wideDir (n + 1)) (wideDir (n + 1)).harray out := by
  obtain ⟨hL, hR, -⟩ := wideLimits
  have hlen : (leafGroups wideFs (wideDir (n + 1)) 100).length = n + 1 := by
    rw [leafGroups_wide, List.length_map, List.length_range']
  rw [rehash_iff wideFs_ok (gathered_wide (by omega)) fun _ => by rw [hlen, hL, hR]; exact hle]
  rintro (h | h | h)
  · exact Bool.noConfusion h
  · rw [hlen, hL, hR] at h
    omega
  · rw [hlen, hL] at h
    have hkey := (h 1 (by omega)).2.2 (by omega) (by omega)
    dsimp only at hkey
    rw [leafGroups_wide, groupKey, leafKeys_wide 0 1 _ (by omega),
      List.getD_eq_getElem _ _ (by rw [List.length_map, List.length_range']; omega),
      List.getElem_map, List.getElem_range'] at hkey
    omega

end Wide

/-- **A directory of 32259 leaf blocks does not get a valid index.** -/
theorem wideDir_not_rehashed :
    wideFs.Ok ∧ Gathered (wideDir 32259) (wideDir 32259).harray ∧
      (leafGroups wideFs (wideDir 32259) 100).length ≤
        rootLimit wideFs * intLimit wideFs * intLimit wideFs ∧
      ¬∃ out, rehash wideFs (wideDir 32259) 100 ⟨12, 2, 1⟩ = some out ∧
        Rehashed wideFs (wideDir 32259) (wideDir 32259).harray out := by
  refine ⟨wideFs_ok, gathered_wide (by omega), ?_,
    wide_not_rehashed (n := 32258) (by omega) (by omega) _⟩
  rw [leafGroups_wide (n := 32258), List.length_map, List.length_range', wideLimits.1,
    wideLimits.2.1]
  omega

/-- Two entries, in two leaf blocks. -/
theorem rehashed_iff_treeOk_two :
    ∃ out, rehash wideFs (wideDir 2) 100 ⟨12, 2, 1⟩ = some out ∧
      Rehashed wideFs (wideDir 2) (wideDir 2).harray out := by
  have hlen : (leafGroups wideFs (wideDir 2) 100).length = 2 := by
    rw [leafGroups_wide (n := 1), List.length_map, List.length_range']
  refine (rehashed_iff_treeOk wideFs (wideDir 2) ⟨12, 2, 1⟩ 100 (wideDir 2).harray wideFs_ok
    (gathered_wide (by omega)) fun _ => ?_).mpr (Or.inr (Or.inl ?_))
  · rw [hlen, wideLimits.1, wideLimits.2.1]
    omega
  · rw [hlen, wideLimits.1, wideLimits.2.1]
    omega

end E2fsprogs
