import E2fsprogs.EncryptedFiles.Policy
import E2fsprogs.Lib.SearchTree

/-!
# The table of encrypted files

`e2fsck/encrypted_files.c`. Each policy that has been seen has an id, in a tree that is searched
with the comparison of policies, and the inodes are kept as ranges of consecutive ones with the
same id, searched by bisection. Inodes without a policy are not in the table; those with a
policy that is not recognised are, all with one special id.

How the tree is balanced after an insertion is a parameter. There is always enough memory.
-/

namespace E2fsprogs

/-- `struct encrypted_file_range` -/
structure EncryptedFileRange where
  firstIno : ℕ
  lastIno : ℕ
  policyId : ℕ
  deriving DecidableEq, Repr

/-- `struct policy_map_entry` -/
structure PolicyMapEntry where
  policy : FscryptPolicy
  policyId : ℕ

/-- `struct encrypted_file_info`. The ranges are `file_ranges[0 .. file_ranges_count)`. -/
structure EncryptedFileInfo where
  fileRanges : List EncryptedFileRange
  fileRangesCapacity : ℕ
  policies : SearchTree PolicyMapEntry
  nextPolicyId : ℕ

/-- An inode of pass 1 with the encryption flag, its attribute, if that can be read, and the
answer to what is asked about it. -/
structure EncryptedFile where
  ino : ℕ
  xattr : Option (List UInt8)
  fix : Bool

section Operations

-- how the tree is balanced
variable (bal : SearchTree PolicyMapEntry → List PolicyMapEntry → SearchTree PolicyMapEntry)

/-- Where the entry of a policy is, seen from another one. -/
def cmpEntry (policy : FscryptPolicy) (entry : PolicyMapEntry) : Ordering :=
  let res := cmpFscryptPolicies policy entry.policy
  if res < 0 then .lt else if 0 < res then .gt else .eq

/-- The second half of `get_encryption_policy_id`: the id of a policy, a new one if need be. -/
def internPolicy (info : EncryptedFileInfo) (policy : FscryptPolicy) : ℕ × EncryptedFileInfo :=
  match (info.policies.find (cmpEntry policy) none).1 with
  | some entry => (entry.policyId, info)
  | none =>
    (info.nextPolicyId, { info with
      policies := bal info.policies
        (info.policies.link (cmpEntry policy) ⟨policy, info.nextPolicyId⟩).inorder
      nextPolicyId := (info.nextPolicyId + 1) % 2 ^ 32 })

/-- `get_encryption_policy_id` -/
def getEncryptionPolicyId (info : EncryptedFileInfo) (xattr : Option (List UInt8)) :
    ℕ × EncryptedFileInfo :=
  match xattr with
  | none => (noEncryptionPolicy, info)
  | some xattr =>
    match fscryptContextToPolicy xattr with
    | .error policyId => (policyId, info)
    | .ok policy => internPolicy bal info policy

/-- The capacity of the array of ranges, when one more is needed. -/
def growFileRanges (inodesCount capacity : ℕ) : ℕ :=
  let newCapacity := if capacity * 2 < 128 then 128 else capacity * 2
  let newCapacity := if inodesCount < newCapacity then inodesCount else newCapacity
  if newCapacity < capacity + 1 then capacity + 1 else newCapacity

/-- `append_ino_and_policy_id`. An inode that is not behind the others ends the program. -/
def appendInoAndPolicyId (inodesCount : ℕ) (info : EncryptedFileInfo) (ino policyId : ℕ) :
    Option EncryptedFileInfo :=
  let fresh : EncryptedFileInfo := { info with
    fileRanges := info.fileRanges ++ [⟨ino, ino, policyId⟩]
    fileRangesCapacity := if info.fileRanges.length = info.fileRangesCapacity then
      growFileRanges inodesCount info.fileRangesCapacity else info.fileRangesCapacity }
  match info.fileRanges.getLast? with
  | none => some fresh
  | some range =>
    if ino ≤ range.lastIno then none
    else if ino = (range.lastIno + 1) % 2 ^ 32 ∧ policyId = range.policyId then
      some { info with
        fileRanges := info.fileRanges.dropLast ++ [{ range with lastIno := range.lastIno + 1 }] }
    else some fresh

/-- `add_encrypted_file`: the return value, and the table. -/
def addEncryptedFile (inodesCount : ℕ) (ctx : Option EncryptedFileInfo) (file : EncryptedFile) :
    Option (ℤ × Option EncryptedFileInfo) :=
  let r := getEncryptionPolicyId bal (ctx.getD ⟨[], 0, .leaf, 0⟩) file.xattr
  if r.1 = noEncryptionPolicy then some (0, some r.2)
  else if r.1 = corruptEncryptionPolicy then some (if file.fix then -1 else 0, some r.2)
  else (appendInoAndPolicyId inodesCount r.2 file.ino r.1).map fun info => (0, some info)

/-- The calls of `add_encrypted_file` in pass 1. -/
def addEncryptedFiles (inodesCount : ℕ) (files : List EncryptedFile) :
    Option (Option EncryptedFileInfo) :=
  files.foldlM (fun ctx file => (addEncryptedFile bal inodesCount ctx file).map Prod.snd) none

end Operations

/-- The loop of `find_encryption_policy`. -/
def bisectRanges (ranges : List EncryptedFileRange) (ino l r : ℕ) : ℕ :=
  if l < r then
    let m := l + (r - l) / 2
    match ranges[m]? with
    | none => noEncryptionPolicy
    | some range =>
      if ino < range.firstIno then bisectRanges ranges ino l m
      else if range.lastIno < ino then bisectRanges ranges ino (m + 1) r
      else range.policyId
  else noEncryptionPolicy
termination_by r - l

/-- `find_encryption_policy` -/
def findEncryptionPolicy (ctx : Option EncryptedFileInfo) (ino : ℕ) : ℕ :=
  match ctx with
  | none => noEncryptionPolicy
  | some info => bisectRanges info.fileRanges ino 0 info.fileRanges.length

/-! ### The ranges -/

/-- The range holds the inode. -/
def EncryptedFileRange.Has (range : EncryptedFileRange) (ino : ℕ) : Prop :=
  range.firstIno ≤ ino ∧ ino ≤ range.lastIno

/-- The ranges lie behind each other. -/
def RangesApart (ranges : List EncryptedFileRange) : Prop :=
  (∀ range ∈ ranges, range.firstIno ≤ range.lastIno) ∧
    ranges.Pairwise fun a b => a.lastIno < b.firstIno

variable {ranges : List EncryptedFileRange} {ino l r : ℕ}

/-- What the bisection returns: the id of the range that holds the inode, if there is one. -/
def RangeIdOf (ranges : List EncryptedFileRange) (ino policyId : ℕ) : Prop :=
  (∃ range ∈ ranges, range.Has ino ∧ policyId = range.policyId) ∨
    (∀ range ∈ ranges, ¬range.Has ino) ∧ policyId = noEncryptionPolicy

/-- **The bisection is exact**: nothing in front of `l` or from `r` on holds the inode. -/
theorem bisectRanges_spec (h : RangesApart ranges) (hr : r ≤ ranges.length)
    (hl : ∀ range ∈ ranges.take l, range.lastIno < ino)
    (hbehind : ∀ range ∈ ranges.drop r, ino < range.firstIno) :
    RangeIdOf ranges ino (bisectRanges ranges ino l r) := by
  -- on the length of the gap; what was ruled out on each side is carried along
  induction hgap : r - l using Nat.strong_induction_on generalizing l r with
  | _ gap ih =>
    -- with the gap closed every range is on one of the two sides
    have hnone : r ≤ l → ∀ range ∈ ranges, ¬range.Has ino := by
      intro hle range hmem hhas
      rw [← List.take_append_drop l ranges, List.mem_append] at hmem
      rcases hmem with hmem | hmem
      · exact absurd (hl range hmem) (not_lt.mpr hhas.2)
      · exact absurd (hbehind range ((List.drop_sublist_drop_left ranges hle).subset hmem))
          (not_lt.mpr hhas.1)
    rw [bisectRanges]
    split_ifs with hlr
    · obtain ⟨m, hm⟩ : ∃ m, m = l + (r - l) / 2 := ⟨_, rfl⟩
      have hlm : l ≤ m ∧ m < r := by omega
      dsimp only
      rw [← hm]
      have hmlen : m < ranges.length := by omega
      rw [List.getElem?_eq_getElem hmlen]
      dsimp only
      obtain ⟨range, hrange⟩ : ∃ range, range = ranges[m] := ⟨_, rfl⟩
      rw [← hrange]
      have hpair := List.pairwise_iff_getElem.mp h.2
      split_ifs with hlt hgt
      · refine ih (m - l) (by omega) (by omega) hl (fun other hother => ?_) rfl
        obtain ⟨i, hi, rfl⟩ := List.mem_iff_getElem.mp hother
        rw [List.length_drop] at hi
        rw [List.getElem_drop]
        rcases Nat.eq_zero_or_pos i with rfl | hpos
        · exact hrange ▸ hlt
        · have hord := hpair m (m + i) hmlen (by omega) (by omega)
          have hself := h.1 _ (List.getElem_mem hmlen)
          rw [← hrange] at hord hself
          omega
      · refine ih (r - (m + 1)) (by omega) hr (fun other hother => ?_) hbehind rfl
        obtain ⟨i, hi, rfl⟩ := List.mem_iff_getElem.mp hother
        rw [List.length_take] at hi
        rw [List.getElem_take]
        rcases Nat.lt_or_ge i m with hlt' | hge
        · have hord := hpair i m (by omega) hmlen hlt'
          have hself := h.1 _ (List.getElem_mem hmlen)
          rw [← hrange] at hord hself
          omega
        · have him : i = m := by omega
          subst him
          exact hrange ▸ hgt
      · exact Or.inl ⟨range, hrange ▸ List.getElem_mem hmlen, ⟨not_lt.mp hlt, not_lt.mp hgt⟩, rfl⟩
    · exact Or.inr ⟨hnone (not_lt.mp hlr), rfl⟩

theorem RangesApart.find (h : RangesApart ranges) (ino : ℕ) :
    RangeIdOf ranges ino (bisectRanges ranges ino 0 ranges.length) :=
  bisectRanges_spec h le_rfl (fun _ hmem => absurd hmem (by simp))
    fun _ hmem => absurd hmem (by simp)

end E2fsprogs
