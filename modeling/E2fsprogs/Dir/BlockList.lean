import E2fsprogs.Lib.Qsort

/-!
# The list of directory blocks

`lib/ext2fs/dblist.c`. Directory blocks are added to a list one by one, and `e2fsck` sorts the list
before it goes through it: by block number, inode and place in the directory (`dir_block_cmp2`), or
with the first blocks of all directories in front (`special_dir_block_cmp` of `e2fsck/pass2.c`).

Both functions return the difference of two numbers of 64 bits as an `int`. They follow the order as
long as the low 32 bits of the distance between two entries, read as a positive `int`, are not zero
(`E2fsprogs.sortsDirBlocks_iff`).
-/

namespace E2fsprogs

open Qsort

/-- `struct ext2_db_entry2`. -/
structure DbEntry2 where
  ino : ℕ
  blk : ℕ
  blockcnt : ℤ
  ino_lt : ino < 2 ^ 32
  blk_lt : blk < 2 ^ 64
  le_blockcnt : -2 ^ 63 ≤ blockcnt
  blockcnt_lt : blockcnt < 2 ^ 63

/-- `struct ext2_struct_dblist`; `count` is the length of the list. -/
structure Dblist where
  size : ℕ
  list : List DbEntry2
  sorted : Bool

/-! ### Adding blocks -/

/-- `ext2fs_init_dblist`, with the number of directories that is computed in 32 bits. -/
def ext2fsInitDblist (numDirs : ℕ) : Dblist := ⟨(numDirs * 2 + 12) % 2 ^ 32, [], true⟩

/-- `ext2fs_add_dir_block2`; `resized` is whether there is memory for a larger list. The first
component of the result says whether the block was added. -/
def ext2fsAddDirBlock2 (dblist : Dblist) (resized : Bool) (entry : DbEntry2) : Bool × Dblist :=
  if dblist.size ≤ dblist.list.length then
    if resized then
      (true, ⟨dblist.size + (if 200 < dblist.size then dblist.size / 2 else 100),
        dblist.list ++ [entry], false⟩)
    else (false, dblist)
  else (true, ⟨dblist.size, dblist.list ++ [entry], false⟩)

/-- Calls of `ext2fs_add_dir_block2`: the entries that were added, and the list. -/
def addDirBlocks : List (Bool × DbEntry2) → Dblist → List DbEntry2 × Dblist
  | [], dblist => ([], dblist)
  | (resized, entry) :: calls, dblist =>
    let added := ext2fsAddDirBlock2 dblist resized entry
    let rest := addDirBlocks calls added.2
    (if added.1 then entry :: rest.1 else rest.1, rest.2)

/-! ### Comparing them -/

/-- A difference that is returned as an `int`. -/
def truncInt (d : ℤ) : ℤ := Int.bmod d (2 ^ 32)

/-- The last comparison of both functions; the difference of two signed numbers may be undefined. -/
def blockcntCmp (a b : DbEntry2) : Option ℤ :=
  let d := a.blockcnt - b.blockcnt
  if -2 ^ 63 ≤ d ∧ d < 2 ^ 63 then some (truncInt d) else none

/-- `dir_block_cmp2`. -/
def dirBlockCmp2 (a b : DbEntry2) : Option ℤ :=
  if a.blk ≠ b.blk then some (truncInt (((a.blk : ℤ) - b.blk) % 2 ^ 64))
  else if a.ino ≠ b.ino then some (truncInt (((a.ino : ℤ) - b.ino) % 2 ^ 32))
  else blockcntCmp a b

/-- `special_dir_block_cmp`. -/
def specialDirBlockCmp (a b : DbEntry2) : Option ℤ :=
  if a.blockcnt ≠ 0 ∧ b.blockcnt = 0 then some 1
  else if a.blockcnt = 0 ∧ b.blockcnt ≠ 0 then some (-1)
  else if a.blk ≠ b.blk then some (truncInt (((a.blk : ℤ) - b.blk) % 2 ^ 64))
  else if a.ino ≠ b.ino then some (truncInt (((a.ino : ℤ) - b.ino) % 2 ^ 32))
  else blockcntCmp a b

/-- The functions that the list is sorted with. -/
inductive DirBlockSort where
  | dirBlockCmp2
  | specialDirBlockCmp
  deriving DecidableEq

namespace DirBlockSort

/-- The comparison. -/
def cmp : DirBlockSort → DbEntry2 → DbEntry2 → Option ℤ
  | .dirBlockCmp2 => E2fsprogs.dirBlockCmp2
  | .specialDirBlockCmp => E2fsprogs.specialDirBlockCmp

/-- What an entry is to be sorted by: block number, inode and place. The special function has the
first blocks of the directories in front. -/
def key : DirBlockSort → DbEntry2 → Bool ×ₗ ℕ ×ₗ ℕ ×ₗ ℤ
  | .dirBlockCmp2, e => toLex (false, toLex (e.blk, toLex (e.ino, e.blockcnt)))
  | .specialDirBlockCmp, e =>
    toLex (decide (e.blockcnt ≠ 0), toLex (e.blk, toLex (e.ino, e.blockcnt)))

end DirBlockSort

/-- `ext2fs_dblist_sort2`: the lists it may come to. -/
def Dblist.SortsTo (sortfunc : DirBlockSort) (dblist dblist' : Dblist) : Prop :=
  Sorts sortfunc.cmp dblist.list dblist'.list ∧ dblist'.sorted = true ∧ dblist'.size = dblist.size

/-- **The entries are sorted as they should be**: the function is antisymmetric and transitive on
them, it follows the order of the keys, and once they were added to a new list, sorting permutes
them so that they ascend. -/
structure SortsDirBlocks (sortfunc : DirBlockSort) (entries : List DbEntry2) : Prop where
  antisymm : ∀ a ∈ entries, ∀ b ∈ entries, InFront sortfunc.cmp a b ↔ Behind sortfunc.cmp b a
  trans : ∀ a ∈ entries, ∀ b ∈ entries, ∀ c ∈ entries,
    NotBehind sortfunc.cmp a b → NotBehind sortfunc.cmp b c → NotBehind sortfunc.cmp a c
  follows : Follows sortfunc.cmp sortfunc.key entries
  sorts : ∀ numDirs calls dblist dblist',
  addDirBlocks calls (ext2fsInitDblist numDirs) = (entries, dblist) →
    dblist.SortsTo sortfunc dblist' →
      dblist'.list.Perm entries ∧ dblist'.list.Pairwise fun a b => sortfunc.key a ≤ sortfunc.key b

/-! ### When the functions follow the order -/

/-- A distance that is positive as an `int`. -/
def FitsInt (d : ℕ) : Prop := 0 < d % 2 ^ 32 ∧ d % 2 ^ 32 < 2 ^ 31

instance (d : ℕ) : Decidable (FitsInt d) := inferInstanceAs (Decidable (_ ∧ _))

/-- The distance of two entries in the first field they differ in is positive as an `int`. -/
def DbEntry2.Apart (a b : DbEntry2) : Prop :=
  if a.blk ≠ b.blk then FitsInt ((a.blk : ℤ) - b.blk).natAbs
  else if a.ino ≠ b.ino then FitsInt ((a.ino : ℤ) - b.ino).natAbs
  else a.blockcnt ≠ b.blockcnt →
    (a.blockcnt - b.blockcnt).natAbs < 2 ^ 63 ∧ FitsInt (a.blockcnt - b.blockcnt).natAbs

instance (a b : DbEntry2) : Decidable (a.Apart b) := inferInstanceAs (Decidable (ite _ _ _))

/-- Two entries that the function looks at the fields of are far enough apart. -/
def DirBlockSort.Apart (sortfunc : DirBlockSort) (a b : DbEntry2) : Prop :=
  sortfunc = .specialDirBlockCmp ∧ (a.blockcnt = 0 ↔ b.blockcnt ≠ 0) ∨ a.Apart b

section Compare

variable {sortfunc : DirBlockSort} {a b : DbEntry2} {entries : List DbEntry2}

theorem fitsInt_iff {d : ℕ} : FitsInt d ↔ 0 < truncInt d ∧ truncInt (-d) < 0 := by
  rw [FitsInt, truncInt, truncInt, Int.bmod_def, Int.bmod_def]
  omega

theorem truncInt_wrap (d : ℤ) : truncInt (d % 2 ^ 64) = truncInt d := by
  rw [truncInt, truncInt, Int.bmod_def, Int.bmod_def]
  omega

theorem truncInt_wrap_ino (d : ℤ) : truncInt (d % 2 ^ 32) = truncInt d := by
  rw [truncInt, truncInt, Int.bmod_def, Int.bmod_def]
  omega

section Field

variable {cmp : DbEntry2 → DbEntry2 → Option ℤ} {κ : Type} [LinearOrder κ]
    {key : DbEntry2 → κ} {x y : ℤ}

/-- Two entries are compared both ways by a field in which the first is less. -/
theorem compares_iff_of_lt (hlt : x < y) (hab : cmp a b = some (truncInt (x - y)))
    (hba : cmp b a = some (truncInt (y - x))) (hkey : key a < key b) :
    Compares cmp key a b ∧ Compares cmp key b a ↔ FitsInt (x - y).natAbs := by
  have hd : y - x = (x - y).natAbs := by omega
  rw [fitsInt_iff, ← hd, neg_sub]
  constructor
  · rintro ⟨hfirst, hsecond⟩
    obtain ⟨r, hr, hneg⟩ := hfirst.before.mpr hkey
    obtain ⟨s, hs, hpos⟩ := hsecond.behind.mpr hkey
    rw [hab] at hr
    rw [hba] at hs
    exact ⟨Option.some.inj hs ▸ hpos, Option.some.inj hr ▸ hneg⟩
  · rintro ⟨hpos, hneg⟩
    exact ⟨compares_of_lt hab hneg hkey, compares_of_gt hba hpos hkey⟩

/-- Two entries are compared both ways by a field they differ in. -/
theorem compares_iff_of_ne (hne : x ≠ y) (hab : cmp a b = some (truncInt (x - y)))
    (hba : cmp b a = some (truncInt (y - x)))
    (hlt : x < y → key a < key b) (hgt : y < x → key b < key a) :
    Compares cmp key a b ∧ Compares cmp key b a ↔ FitsInt (x - y).natAbs := by
  rcases lt_or_gt_of_ne hne with h | h
  · exact compares_iff_of_lt h hab hba (hlt h)
  · rw [and_comm, ← Int.natAbs_neg, neg_sub]
    exact compares_iff_of_lt h hba hab (hgt h)

end Field

theorem blockcntCmp_self (h : a.blockcnt = b.blockcnt) : blockcntCmp a b = some 0 := by
  rw [blockcntCmp, h, sub_self]
  rfl

/-- The difference of the places is defined both ways. -/
theorem blockcntCmp_of_lt (h : (a.blockcnt - b.blockcnt).natAbs < 2 ^ 63) :
    blockcntCmp a b = some (truncInt (a.blockcnt - b.blockcnt)) := by
  rw [blockcntCmp]
  exact if_pos (by omega)

/-- **When `dir_block_cmp2` compares two entries by their fields.** -/
theorem compares_iff_apart {cmp : DbEntry2 → DbEntry2 → Option ℤ}
    {key : DbEntry2 → Bool ×ₗ ℕ ×ₗ ℕ ×ₗ ℤ} {t : Bool}
    (hab : cmp a b = dirBlockCmp2 a b) (hba : cmp b a = dirBlockCmp2 b a)
    (hka : key a = toLex (t, toLex (a.blk, toLex (a.ino, a.blockcnt))))
    (hkb : key b = toLex (t, toLex (b.blk, toLex (b.ino, b.blockcnt)))) :
    Compares cmp key a b ∧ Compares cmp key b a ↔ a.Apart b := by
  have hkey : key a < key b ↔ a.blk < b.blk ∨ a.blk = b.blk ∧
      (a.ino < b.ino ∨ a.ino = b.ino ∧ a.blockcnt < b.blockcnt) := by
    rw [hka, hkb]
    simp only [Prod.Lex.toLex_lt_toLex, lt_irrefl, false_or, true_and]
  have hkey' : key b < key a ↔ b.blk < a.blk ∨ b.blk = a.blk ∧
      (b.ino < a.ino ∨ b.ino = a.ino ∧ b.blockcnt < a.blockcnt) := by
    rw [hka, hkb]
    simp only [Prod.Lex.toLex_lt_toLex, lt_irrefl, false_or, true_and]
  rw [DbEntry2.Apart]
  by_cases hblk : a.blk = b.blk
  · rw [if_neg (not_not.mpr hblk)]
    by_cases hino : a.ino = b.ino
    · rw [if_neg (not_not.mpr hino)]
      rw [dirBlockCmp2, if_neg (not_not.mpr hblk), if_neg (not_not.mpr hino)] at hab
      rw [dirBlockCmp2, if_neg (not_not.mpr hblk.symm), if_neg (not_not.mpr hino.symm)] at hba
      by_cases hcnt : a.blockcnt = b.blockcnt
      · have heq : key a = key b := by rw [hka, hkb, hblk, hino, hcnt]
        rw [blockcntCmp_self hcnt] at hab
        rw [blockcntCmp_self hcnt.symm] at hba
        exact iff_of_true ⟨compares_of_eq hab heq, compares_of_eq hba heq.symm⟩ fun hne =>
          absurd hcnt hne
      · by_cases hsmall : (a.blockcnt - b.blockcnt).natAbs < 2 ^ 63
        · rw [blockcntCmp_of_lt hsmall] at hab
          rw [blockcntCmp_of_lt (by omega)] at hba
          rw [compares_iff_of_ne hcnt hab hba (fun h => hkey.mpr (Or.inr ⟨hblk, Or.inr ⟨hino, h⟩⟩))
            fun h => hkey'.mpr (Or.inr ⟨hblk.symm, Or.inr ⟨hino.symm, h⟩⟩)]
          exact ⟨fun h _ => ⟨hsmall, h⟩, fun h => (h hcnt).2⟩
        · refine iff_of_false (fun h => ?_) fun h => hsmall (h hcnt).1
          -- one of the two differences overflows, so that one of the results is not defined
          have hnone : cmp a b = none ∨ cmp b a = none := by
            rw [hab, hba, blockcntCmp, blockcntCmp]
            rcases lt_or_gt_of_ne hcnt with hlt | hgt
            · exact Or.inr (if_neg (by omega))
            · exact Or.inl (if_neg (by omega))
          have hsome : ∀ {c d : DbEntry2}, Compares cmp key c d → cmp c d ≠ none := by
            intro c d hcd hc
            rcases le_or_gt (key c) (key d) with hle | hgt
            · obtain ⟨r, hr, -⟩ := hcd.notBehind.mpr hle
              exact Option.some_ne_none r (hr.symm.trans hc)
            · obtain ⟨r, hr, -⟩ := hcd.behind.mpr hgt
              exact Option.some_ne_none r (hr.symm.trans hc)
          exact hnone.elim (hsome h.1) (hsome h.2)
    · rw [if_pos hino]
      rw [dirBlockCmp2, if_neg (not_not.mpr hblk), if_pos hino, truncInt_wrap_ino] at hab
      rw [dirBlockCmp2, if_neg (not_not.mpr hblk.symm), if_pos (Ne.symm hino), truncInt_wrap_ino]
        at hba
      exact compares_iff_of_ne (Int.ofNat_inj.not.mpr hino) hab hba
        (fun h => hkey.mpr (Or.inr ⟨hblk, Or.inl (Int.ofNat_lt.mp h)⟩))
        fun h => hkey'.mpr (Or.inr ⟨hblk.symm, Or.inl (Int.ofNat_lt.mp h)⟩)
  · rw [if_pos hblk]
    rw [dirBlockCmp2, if_pos hblk, truncInt_wrap] at hab
    rw [dirBlockCmp2, if_pos (Ne.symm hblk), truncInt_wrap] at hba
    exact compares_iff_of_ne (Int.ofNat_inj.not.mpr hblk) hab hba
      (fun h => hkey.mpr (Or.inl (Int.ofNat_lt.mp h)))
      fun h => hkey'.mpr (Or.inl (Int.ofNat_lt.mp h))

/-- **When a function compares two entries by their keys.** -/
theorem DirBlockSort.compares_iff :
    Compares sortfunc.cmp sortfunc.key a b ∧ Compares sortfunc.cmp sortfunc.key b a ↔
    sortfunc.Apart a b := by
  rw [DirBlockSort.Apart]
  cases sortfunc with
  | dirBlockCmp2 =>
    have hiff : Compares E2fsprogs.dirBlockCmp2 (DirBlockSort.key .dirBlockCmp2) a b ∧
        Compares E2fsprogs.dirBlockCmp2 (DirBlockSort.key .dirBlockCmp2) b a ↔ a.Apart b :=
      compares_iff_apart rfl rfl rfl rfl
    exact hiff.trans ⟨Or.inr, fun h => h.resolve_left fun hs => absurd hs.1 (by decide)⟩
  | specialDirBlockCmp =>
    have hcmp : ∀ {c d : DbEntry2}, (c.blockcnt = 0 ↔ d.blockcnt = 0) →
        E2fsprogs.specialDirBlockCmp c d = E2fsprogs.dirBlockCmp2 c d := by
      intro c d h
      rw [E2fsprogs.specialDirBlockCmp, if_neg fun hc => hc.1 (h.mpr hc.2),
        if_neg fun hc => hc.2 (h.mp hc.1), E2fsprogs.dirBlockCmp2]
    by_cases hzero : a.blockcnt = 0 ↔ b.blockcnt = 0
    · have hiff : Compares E2fsprogs.specialDirBlockCmp (DirBlockSort.key .specialDirBlockCmp) a b ∧
          Compares E2fsprogs.specialDirBlockCmp (DirBlockSort.key .specialDirBlockCmp) b a ↔
            a.Apart b := by
        refine compares_iff_apart (hcmp hzero) (hcmp hzero.symm) rfl ?_
        rw [decide_eq_decide.mpr hzero.not]
        rfl
      exact hiff.trans ⟨Or.inr, fun h => h.resolve_left fun hs => by tauto⟩
    · -- one of the two is the first block of its directory
      have hfirst : ∀ {c d : DbEntry2}, c.blockcnt = 0 → d.blockcnt ≠ 0 →
          Compares E2fsprogs.specialDirBlockCmp (DirBlockSort.key .specialDirBlockCmp) c d ∧
            Compares E2fsprogs.specialDirBlockCmp (DirBlockSort.key .specialDirBlockCmp) d c := by
        intro c d hc hd
        have hkey : DirBlockSort.key .specialDirBlockCmp c <
            DirBlockSort.key .specialDirBlockCmp d := by
          rw [DirBlockSort.key, DirBlockSort.key, Prod.Lex.toLex_lt_toLex]
          refine Or.inl ?_
          rw [decide_eq_false (not_not.mpr hc), decide_eq_true hd]
          exact Bool.false_lt_true
        constructor
        · refine compares_of_lt (r := -1) ?_ (by decide) hkey
          rw [E2fsprogs.specialDirBlockCmp, if_neg fun h => h.1 hc, if_pos ⟨hc, hd⟩]
        · refine compares_of_gt (r := 1) ?_ (by decide) hkey
          rw [E2fsprogs.specialDirBlockCmp, if_pos ⟨hd, hc⟩]
      refine iff_of_true ?_ (Or.inl ⟨rfl, by tauto⟩)
      by_cases ha : a.blockcnt = 0
      · exact hfirst ha fun hb => hzero (iff_of_true ha hb)
      · have hb : b.blockcnt = 0 := by tauto
        exact (hfirst hb ha).symm

/-! ### Sorting the list -/

/-- The list holds the entries that were added, in the order of the calls. -/
theorem addDirBlocks_list (calls : List (Bool × DbEntry2)) (dblist : Dblist) :
    (addDirBlocks calls dblist).2.list = dblist.list ++ (addDirBlocks calls dblist).1 := by
  induction calls generalizing dblist with
  | nil => exact (List.append_nil _).symm
  | cons call calls ih =>
    obtain ⟨resized, entry⟩ := call
    rw [addDirBlocks]
    dsimp only
    rw [ih]
    have hadd : (ext2fsAddDirBlock2 dblist resized entry).2.list =
        dblist.list ++ if (ext2fsAddDirBlock2 dblist resized entry).1 then [entry] else [] := by
      rw [ext2fsAddDirBlock2]
      split_ifs with h₁ h₂ h₃
      all_goals simp_all
    rw [hadd, List.append_assoc]
    split_ifs
    · rfl
    · rw [List.nil_append]

/-- **When the directory blocks are sorted as they should be.** -/
theorem sortsDirBlocks_iff (sortfunc : DirBlockSort) (entries : List DbEntry2) :
    SortsDirBlocks sortfunc entries ↔ ∀ a ∈ entries, ∀ b ∈ entries, sortfunc.Apart a b := by
  constructor
  · intro h a ha b hb
    exact DirBlockSort.compares_iff.mp ⟨h.follows a ha b hb, h.follows b hb a ha⟩
  · intro h
    have hfollows : Follows sortfunc.cmp sortfunc.key entries := fun a ha b hb =>
      (DirBlockSort.compares_iff.mpr (h a ha b hb)).1
    have hcons := hfollows.consistent
    refine ⟨hcons.anti, hcons.trans, hfollows, fun numDirs calls dblist dblist' hadd hsort => ?_⟩
    have hlist : dblist.list = entries := by
      have hl := addDirBlocks_list calls (ext2fsInitDblist numDirs)
      rw [hadd] at hl
      exact hl
    obtain ⟨hsorts, -, -⟩ := hsort
    rw [hlist] at hsorts
    exact hfollows.sorts hsorts

end Compare

/-! ### Two blocks -/

/-- A directory block of inode 12. -/
def dirBlockAt (blk : ℕ) (h : blk < 2 ^ 64) : DbEntry2 :=
  ⟨12, blk, 0, by decide, h, by decide, by decide⟩

/-- Blocks `2 ^ 32` and `0` compare as equal. -/
theorem not_sortsDirBlocks_far : ¬SortsDirBlocks .dirBlockCmp2
    [dirBlockAt (100 + 2 ^ 32) (by decide), dirBlockAt 100 (by decide)] := by
  intro h
  have hcmp := h.follows _ List.mem_cons_self _ (List.mem_cons_of_mem _ List.mem_cons_self)
  obtain ⟨r, hr, hpos⟩ := hcmp.behind.mpr (by decide)
  have hzero : DirBlockSort.cmp .dirBlockCmp2 (dirBlockAt (100 + 2 ^ 32) (by decide))
    (dirBlockAt 100 (by decide)) =
      some 0 := by decide
  exact hpos.ne' (Option.some.inj (hr.symm.trans hzero))

end E2fsprogs
