import E2fsprogs.Lib.Except
import E2fsprogs.Lib.Loop
import E2fsprogs.Xattr.Handle

/-!
# Access control lists and back

`convert_disk_buffer_to_posix_acl` goes through the entries of a value as it is on disk, of
four or eight bytes each, and writes entries of eight. It goes by the number of bytes that are
left, and does not look whether there are as many as an entry takes.

So it is safe for a value whose entries end where the value does, or in front of one with an
unknown tag (`E2fsprogs.EntriesEnd`). What `convert_posix_acl_to_disk_buffer` makes is such a
value, and comes back as it was, but for the ids that are not kept
(`E2fsprogs.shortIdsZero`), unless an `int` cannot count the entries.
-/

namespace E2fsprogs

/-- What keeps a value from being converted. -/
inductive AclErr
  | einval
  /-- Not an error code: the value is read behind its end, or the buffer is written there. -/
  | outside
  deriving DecidableEq, Repr

/-- The tags of entries without an id: `ACL_USER_OBJ`, `ACL_GROUP_OBJ`, `ACL_MASK` and
`ACL_OTHER`. -/
def shortTag (tag : ℕ) : Bool := tag = 0x01 ∨ tag = 0x04 ∨ tag = 0x10 ∨ tag = 0x20

/-- `ACL_USER` and `ACL_GROUP` -/
def longTag (tag : ℕ) : Bool := tag = 0x02 ∨ tag = 0x08

/-- The variables of the loop: what is in front of `cp`, the bytes left, and what has been
written, up to `entry`. -/
structure AclLoop where
  cp : ℕ
  size : ℕ
  out : List UInt8

/-- `size -= n` for a `size_t`. -/
def subSize (size n : ℕ) : ℕ := if n ≤ size then size - n else size + 2 ^ 64 - n

/-- The body of the loop of `convert_disk_buffer_to_posix_acl`. The buffer has `room` bytes. -/
def convertDiskStep (value : List UInt8) (room : ℕ) (s : AclLoop) :
    AclLoop ⊕ Except AclErr (List UInt8) :=
  if s.size = 0 then .inr (.ok s.out)
  else
    match value.drop s.cp with
    | t0 :: t1 :: p0 :: p1 :: rest =>
      let tag := t0.toNat + 2 ^ 8 * t1.toNat
      if room < s.out.length + 4 then .inr (.error .outside)
      else if shortTag tag then
        if room < s.out.length + 8 then .inr (.error .outside)
        else .inl ⟨s.cp + 4, subSize s.size 4, s.out ++ [t0, t1, p0, p1, 0, 0, 0, 0]⟩
      else if longTag tag then
        match rest with
        | i0 :: i1 :: i2 :: i3 :: _ =>
          if room < s.out.length + 8 then .inr (.error .outside)
          else .inl ⟨s.cp + 8, subSize s.size 8, s.out ++ [t0, t1, p0, p1, i0, i1, i2, i3]⟩
        | _ => .inr (.error .outside)
      else .inr (.error .einval)
    | _ => .inr (.error .outside)

/-- `convert_disk_buffer_to_posix_acl`. The buffer has twice the size of the value. -/
def convertDiskBufferToPosixAcl (value : List UInt8) : Option (Except AclErr (List UInt8)) :=
  if value.length < 4 ∨ value.take 4 ≠ [1, 0, 0, 0] then some (.error .einval)
  else Loop.run (convertDiskStep value (value.length * 2)) (value.length + 1)
    ⟨4, value.length - 4, [2, 0, 0, 0]⟩

/-! ### The entries -/

/-- The entries as they are written. -/
def diskEntriesToPosix : List UInt8 → Except AclErr (List UInt8)
  | [] => .ok []
  | t0 :: t1 :: p0 :: p1 :: rest =>
    let tag := t0.toNat + 2 ^ 8 * t1.toNat
    if shortTag tag then do
      let out ← diskEntriesToPosix rest
      .ok ([t0, t1, p0, p1, 0, 0, 0, 0] ++ out)
    else if longTag tag then
      match rest with
      | i0 :: i1 :: i2 :: i3 :: rest => do
        let out ← diskEntriesToPosix rest
        .ok ([t0, t1, p0, p1, i0, i1, i2, i3] ++ out)
      | _ => .error .outside
    else .error .einval
  | _ => .error .outside

/-- **The entries end** where the value does, or in front of one with an unknown tag. -/
def EntriesEnd : List UInt8 → Prop
  | [] => True
  | t0 :: t1 :: _ :: _ :: rest =>
    let tag := t0.toNat + 2 ^ 8 * t1.toNat
    if shortTag tag then EntriesEnd rest
    else if longTag tag then
      match rest with
      | _ :: _ :: _ :: _ :: rest => EntriesEnd rest
      | _ => False
    else True
  | _ => False

/-- The entries of a value with the ids that are not kept set to zero. -/
def shortIdsZero : List UInt8 → List UInt8
  | t0 :: t1 :: p0 :: p1 :: i0 :: i1 :: i2 :: i3 :: rest =>
    (if shortTag (t0.toNat + 2 ^ 8 * t1.toNat) then [t0, t1, p0, p1, 0, 0, 0, 0]
      else [t0, t1, p0, p1, i0, i1, i2, i3]) ++ shortIdsZero rest
  | l => l

section Entries

variable {rest : List UInt8}

theorem subSize_of_le {size n : ℕ} (h : n ≤ size) : subSize size n = size - n := if_pos h

theorem bind_ok_ne_outside {entry : List UInt8} {r : Except AclErr (List UInt8)} :
    (do let out ← r; .ok (entry ++ out)) ≠ .error AclErr.outside ↔ r ≠ .error .outside := by
  cases r with
  | ok out => simp [bind, Except.bind]
  | error err => simp [bind, Except.bind]

theorem bind_ok_append {out entry : List UInt8} {r : Except AclErr (List UInt8)} :
    (do let written ← (do let rest ← r; .ok (entry ++ rest)); .ok (out ++ written)) =
      (do let rest ← r; .ok ((out ++ entry) ++ rest) : Except AclErr (List UInt8)) := by
  cases r with
  | ok rest => simp [bind, Except.bind]
  | error err => simp [bind, Except.bind]

/-- **Reading outside** is what entries that do not end lead to. -/
theorem diskEntriesToPosix_ne_outside (rest : List UInt8) :
    diskEntriesToPosix rest ≠ .error .outside ↔ EntriesEnd rest := by
  induction rest using diskEntriesToPosix.induct with
  | case1 => simp [diskEntriesToPosix, EntriesEnd]
  | case2 t0 t1 p0 p1 rest tag hshort ih =>
    rw [diskEntriesToPosix.eq_def, EntriesEnd.eq_def]
    dsimp only
    rw [if_pos hshort, if_pos hshort, bind_ok_ne_outside, ih]
  | case3 t0 t1 p0 p1 tag hshort hlong i0 i1 i2 i3 rest ih =>
    rw [diskEntriesToPosix.eq_def, EntriesEnd.eq_def]
    dsimp only
    rw [if_neg hshort, if_neg hshort, if_pos hlong, if_pos hlong, bind_ok_ne_outside, ih]
  | case4 t0 t1 p0 p1 rest tag hshort hlong hno =>
    rw [diskEntriesToPosix, EntriesEnd, if_neg hshort, if_neg hshort, if_pos hlong, if_pos hlong]
    · simp
    · exact hno
    · exact hno
  | case5 t0 t1 p0 p1 rest tag hshort hlong =>
    rw [diskEntriesToPosix.eq_def, EntriesEnd.eq_def]
    dsimp only
    rw [if_neg hshort, if_neg hshort, if_neg hlong, if_neg hlong]
    simp
  | case6 l h1 h2 =>
    rw [diskEntriesToPosix, EntriesEnd]
    · simp
    · exact h1
    · exact h2
    · exact h1
    · exact h2

/-- **The loop**, from a place in the value on. Every entry takes at least four bytes, and the
buffer has eight for it. -/
theorem convertDisk_loop {value : List UInt8} {room : ℕ} (rest : List UInt8) :
    ∀ (cp fuel : ℕ) (out : List UInt8), value.drop cp = rest → out.length + 2 * rest.length ≤ room →
    rest.length < fuel →
    Loop.run (convertDiskStep value room) fuel ⟨cp, rest.length, out⟩ =
      some (do let written ← diskEntriesToPosix rest; .ok (out ++ written)) := by
  have hdrop : ∀ {cp : ℕ} {l l' : List UInt8}, value.drop cp = l ++ l' →
      value.drop (cp + l.length) = l' := by
    intro cp l l' h
    rw [← List.drop_drop, h, List.drop_left]
  -- over the entries as the abstract conversion takes them: short, long, cut off or unknown
  induction rest using diskEntriesToPosix.induct with
  | case1 =>
    intro cp fuel out hcp hroom hfuel
    obtain ⟨fuel, rfl⟩ := Nat.exists_eq_add_of_le' (Nat.one_le_of_lt hfuel)
    refine Loop.run_of_inr _ ?_
    simp [convertDiskStep, diskEntriesToPosix, bind, Except.bind]
  | case2 t0 t1 p0 p1 rest tag hshort ih =>
    intro cp fuel out hcp hroom hfuel
    obtain ⟨fuel, rfl⟩ := Nat.exists_eq_add_of_le' (Nat.one_le_of_lt hfuel)
    simp only [List.length_cons] at hroom hfuel
    have hround : Loop.Round (convertDiskStep value room)
        ⟨cp, (t0 :: t1 :: p0 :: p1 :: rest).length, out⟩
        ⟨cp + 4, rest.length, out ++ [t0, t1, p0, p1, 0, 0, 0, 0]⟩ := by
      rw [Loop.Round, convertDiskStep]
      dsimp only
      rw [hcp, if_neg (by simp)]
      dsimp only
      rw [if_neg (by omega), if_pos hshort, if_neg (by omega), subSize_of_le (by simp)]
      rfl
    refine Loop.run_of_round hround ?_
    rw [ih (cp + 4) fuel _ (hdrop (l := [t0, t1, p0, p1]) hcp) (by simp; omega) (by omega),
      diskEntriesToPosix.eq_def (_ :: _ :: _ :: _ :: _)]
    dsimp only
    rw [if_pos hshort, bind_ok_append]
  | case3 t0 t1 p0 p1 tag hshort hlong i0 i1 i2 i3 rest ih =>
    intro cp fuel out hcp hroom hfuel
    obtain ⟨fuel, rfl⟩ := Nat.exists_eq_add_of_le' (Nat.one_le_of_lt hfuel)
    simp only [List.length_cons] at hroom hfuel
    have hround : Loop.Round (convertDiskStep value room)
        ⟨cp, (t0 :: t1 :: p0 :: p1 :: i0 :: i1 :: i2 :: i3 :: rest).length, out⟩
        ⟨cp + 8, rest.length, out ++ [t0, t1, p0, p1, i0, i1, i2, i3]⟩ := by
      rw [Loop.Round, convertDiskStep]
      dsimp only
      rw [hcp, if_neg (by simp)]
      dsimp only
      rw [if_neg (by omega), if_neg hshort, if_pos hlong, if_neg (by omega),
        subSize_of_le (by simp)]
      rfl
    refine Loop.run_of_round hround ?_
    rw [ih (cp + 8) fuel _ (hdrop (l := [t0, t1, p0, p1, i0, i1, i2, i3]) hcp) (by simp; omega)
      (by omega), diskEntriesToPosix.eq_def (_ :: _ :: _ :: _ :: _)]
    dsimp only
    rw [if_neg hshort, if_pos hlong, bind_ok_append]
  | case4 t0 t1 p0 p1 rest tag hshort hlong hno =>
    intro cp fuel out hcp hroom hfuel
    obtain ⟨fuel, rfl⟩ := Nat.exists_eq_add_of_le' (Nat.one_le_of_lt hfuel)
    simp only [List.length_cons] at hroom
    refine Loop.run_of_inr _ ?_
    rw [convertDiskStep, diskEntriesToPosix, if_neg hshort, if_pos hlong]
    · dsimp only
      rw [hcp, if_neg (by simp)]
      dsimp only
      rw [if_neg (by omega), if_neg hshort, if_pos hlong]
      rcases rest with _ | ⟨i0, _ | ⟨i1, _ | ⟨i2, _ | ⟨i3, rest⟩⟩⟩⟩
      · rfl
      · rfl
      · rfl
      · rfl
      · exact absurd rfl (hno i0 i1 i2 i3 rest)
    · exact hno
  | case5 t0 t1 p0 p1 rest tag hshort hlong =>
    intro cp fuel out hcp hroom hfuel
    obtain ⟨fuel, rfl⟩ := Nat.exists_eq_add_of_le' (Nat.one_le_of_lt hfuel)
    simp only [List.length_cons] at hroom
    refine Loop.run_of_inr _ ?_
    rw [convertDiskStep, diskEntriesToPosix.eq_def]
    dsimp only
    rw [hcp, if_neg (by simp)]
    dsimp only
    rw [if_neg (by omega), if_neg hshort, if_neg hlong, if_neg hshort, if_neg hlong]
    rfl
  | case6 l h1 h2 =>
    intro cp fuel out hcp hroom hfuel
    obtain ⟨fuel, rfl⟩ := Nat.exists_eq_add_of_le' (Nat.one_le_of_lt hfuel)
    refine Loop.run_of_inr _ ?_
    have hne : l.length ≠ 0 := fun h => h1 (List.length_eq_zero_iff.mp h)
    rw [convertDiskStep, diskEntriesToPosix]
    · dsimp only
      rw [hcp, if_neg hne]
      rcases l with _ | ⟨t0, _ | ⟨t1, _ | ⟨p0, _ | ⟨p1, rest⟩⟩⟩⟩
      · exact absurd rfl h1
      · rfl
      · rfl
      · rfl
      · exact absurd rfl (h2 t0 t1 p0 p1 rest)
    · exact h1
    · exact h2

/-- **`convert_disk_buffer_to_posix_acl`**, of a value with the header. -/
theorem convertDiskBufferToPosixAcl_eq {value : List UInt8} (hlen : 4 ≤ value.length)
    (hhead : value.take 4 = [1, 0, 0, 0]) :
    convertDiskBufferToPosixAcl value =
      some (do let written ← diskEntriesToPosix (value.drop 4); .ok ([2, 0, 0, 0] ++ written)) := by
  rw [convertDiskBufferToPosixAcl, if_neg (by rw [not_or, not_not]; exact ⟨by omega, hhead⟩)]
  have hloop := @convertDisk_loop value (value.length * 2) (value.drop 4) 4 (value.length + 1)
    [2, 0, 0, 0] rfl (by simp; omega) (by simp)
  rwa [List.length_drop] at hloop

end Entries

/-! ### There and back -/

/-- The original value, with the ids that are not kept set to zero. -/
def withShortIdsZero (value : List UInt8) : List UInt8 :=
  value.take 4 ++ shortIdsZero (value.drop 4)

/-- The conversion back gives the value again, but for the ids that are not kept. -/
def ComesBack (value : List UInt8) : Prop :=
  ∀ disk, convertPosixAclToDiskBuffer value = .ok disk →
    convertDiskBufferToPosixAcl disk = some (.ok (withShortIdsZero value)) ∧
      (withShortIdsZero value).length ≤ disk.length * 2

/-- The conversion from disk ends, and keeps to the value and to the buffer. -/
def ConvertsSafely (value : List UInt8) : Prop :=
  ∃ r, convertDiskBufferToPosixAcl value = some r ∧ r ≠ .error .outside

section Back

variable {value disk l d : List UInt8}

theorem convertsSafely_iff (value : List UInt8) :
    ConvertsSafely value ↔
      (4 ≤ value.length → value.take 4 = [1, 0, 0, 0] → EntriesEnd (value.drop 4)) := by
  by_cases hhead : 4 ≤ value.length ∧ value.take 4 = [1, 0, 0, 0]
  · rw [ConvertsSafely, convertDiskBufferToPosixAcl_eq hhead.1 hhead.2]
    simp only [Option.some.injEq, exists_eq_left', bind_ok_ne_outside,
      diskEntriesToPosix_ne_outside]
    exact ⟨fun h _ _ => h, fun h => h hhead.1 hhead.2⟩
  · refine ⟨fun _ h1 h2 => absurd ⟨h1, h2⟩ hhead, fun _ => ⟨.error .einval, ?_, by decide⟩⟩
    rw [convertDiskBufferToPosixAcl, if_pos]
    by_contra hno
    rw [not_or, not_not] at hno
    exact hhead ⟨by omega, hno.2⟩

theorem shortTag_iff {tag : ℕ} :
    shortTag tag = true ↔ tag = 0x01 ∨ tag = 0x04 ∨ tag = 0x10 ∨ tag = 0x20 := decide_eq_true_iff

theorem longTag_iff {tag : ℕ} : longTag tag = true ↔ tag = 0x02 ∨ tag = 0x08 := decide_eq_true_iff

theorem length_shortIdsZero (l : List UInt8) : (shortIdsZero l).length = l.length := by
  induction l using shortIdsZero.induct with
  | case1 t0 t1 p0 p1 i0 i1 i2 i3 rest ih =>
    rw [shortIdsZero, List.length_append, ih]
    split <;> simp only [List.length_cons, List.length_nil] <;> omega
  | case2 l hl =>
    rw [shortIdsZero]
    exact hl

/-- The first entry. -/
theorem exists_entry {n : ℕ} (h : l.length = 8 * (n + 1)) : ∃ t0 t1 p0 p1 i0 i1 i2 i3 rest,
    l = t0 :: t1 :: p0 :: p1 :: i0 :: i1 :: i2 :: i3 :: rest ∧ rest.length = 8 * n := by
  rcases l with _ | ⟨t0, _ | ⟨t1, _ | ⟨p0, _ | ⟨p1, _ | ⟨i0, _ | ⟨i1, _ | ⟨i2, _ | ⟨i3, rest⟩⟩⟩⟩⟩⟩⟩⟩
  all_goals simp only [List.length_cons, List.length_nil] at h
  all_goals first | omega | exact ⟨_, _, _, _, _, _, _, _, _, rfl, by omega⟩

/-- **Entries there and back.** -/
theorem aclEntriesToDisk_back (n : ℕ) : ∀ {l d : List UInt8}, l.length = 8 * n →
    aclEntriesToDisk l = .ok d →
    diskEntriesToPosix d = .ok (shortIdsZero l) ∧ 4 * n ≤ d.length := by
  induction n with
  | zero =>
    intro l d hl hd
    obtain rfl := List.length_eq_zero_iff.mp hl
    obtain rfl : [] = d := by simpa [aclEntriesToDisk] using hd
    exact ⟨rfl, le_rfl⟩
  | succ n ih =>
    intro l d hl hd
    obtain ⟨t0, t1, p0, p1, i0, i1, i2, i3, rest, rfl, hrest⟩ := exists_entry hl
    rw [aclEntriesToDisk] at hd
    dsimp only at hd
    simp only [← shortTag_iff, ← longTag_iff, ok_bind] at hd
    rw [shortIdsZero]
    by_cases hshort : shortTag (t0.toNat + 2 ^ 8 * t1.toNat) = true
    · rw [if_pos hshort] at hd
      obtain ⟨entries, hentries, hd⟩ := bind_eq_ok.mp hd
      obtain rfl := Except.ok.inj hd
      obtain ⟨hback, hle⟩ := ih hrest hentries
      rw [if_pos hshort, diskEntriesToPosix.eq_def]
      dsimp only [List.cons_append, List.nil_append]
      rw [if_pos hshort, hback]
      refine ⟨rfl, ?_⟩
      simp only [List.length_cons]
      omega
    · rw [if_neg hshort] at hd
      by_cases hlong : longTag (t0.toNat + 2 ^ 8 * t1.toNat) = true
      · rw [if_pos hlong] at hd
        obtain ⟨entries, hentries, hd⟩ := bind_eq_ok.mp hd
        obtain rfl := Except.ok.inj hd
        obtain ⟨hback, hle⟩ := ih hrest hentries
        rw [if_neg hshort, diskEntriesToPosix.eq_def]
        dsimp only [List.cons_append, List.nil_append]
        rw [if_neg hshort, if_pos hlong, hback]
        refine ⟨rfl, ?_⟩
        simp only [List.length_cons]
        omega
      · rw [if_neg hlong] at hd
        cases hd

/-- What a value that is converted to disk is like: `n` of its `k` entries are converted. -/
structure ToDisk (value disk : List UInt8) (n k : ℕ) : Prop where
  length : value.length = 4 + 8 * k
  count : n < 2 ^ 31 ∧ k % 2 ^ 32 = n
  head : value.take 4 = [2, 0, 0, 0]
  entries : ∃ entries, aclEntriesToDisk ((value.drop 4).take (8 * n)) = .ok entries ∧
    disk = [1, 0, 0, 0] ++ entries

theorem bmod_of_pos {k m : ℕ} (hm : 0 < m) (h : 0 < Int.bmod k (2 * m)) :
    Int.bmod k (2 * m) = (k % (2 * m) : ℕ) ∧ k % (2 * m) < m := by
  have hmod : (k : ℤ) % ((2 * m : ℕ) : ℤ) = (k % (2 * m) : ℕ) := (Int.natCast_mod k (2 * m)).symm
  have hlt : k % (2 * m) < 2 * m := Nat.mod_lt _ (by omega)
  rw [Int.bmod_def, hmod] at h ⊢
  generalize k % (2 * m) = r at h hlt
  by_cases hr : (r : ℤ) < (((2 * m : ℕ) : ℤ) + 1) / 2
  · rw [if_pos hr] at h ⊢
    exact ⟨rfl, by omega⟩
  · rw [if_neg hr] at h
    omega

theorem toCInt_of_pos {k : ℕ} (h : 0 < toCInt k) :
    toCInt k = (k % 2 ^ 32 : ℕ) ∧ k % 2 ^ 32 < 2 ^ 31 := by
  have hpos := @bmod_of_pos k (2 ^ 31) (by norm_num)
  rw [show 2 * 2 ^ 31 = 2 ^ 32 from rfl] at hpos
  exact hpos h

theorem toDisk_of_eq_ok (h : convertPosixAclToDiskBuffer value = .ok disk) :
    ∃ n k, ToDisk value disk n k := by
  rw [convertPosixAclToDiskBuffer] at h
  obtain ⟨hlen, h⟩ := ite_error_eq_ok.mp h
  obtain ⟨hhead, h⟩ := ite_error_eq_ok.mp h
  obtain ⟨hcount, h⟩ := ite_error_eq_ok.mp h
  obtain ⟨entries, hentries, h⟩ := bind_eq_ok.mp h
  rw [posixAclXattrCount, if_neg hlen] at hcount hentries
  by_cases hmod : (value.length - 4) % 8 = 0
  · rw [if_neg (not_not.mpr hmod)] at hcount hentries
    obtain ⟨heq, hlt⟩ := toCInt_of_pos (not_le.mp hcount)
    rw [heq, Int.toNat_natCast] at hentries
    exact ⟨_, (value.length - 4) / 8, by omega, ⟨hlt, rfl⟩, not_not.mp hhead, entries, hentries,
      (Except.ok.inj h).symm⟩
  · rw [if_pos hmod] at hcount
    exact absurd (by decide) hcount

/-- **A value comes back** if and only if an `int` counts its entries. -/
theorem comesBack_iff (h : convertPosixAclToDiskBuffer value = .ok disk) :
    ComesBack value ↔ value.length < 4 + 8 * 2 ^ 32 := by
  obtain ⟨n, k, hto⟩ := toDisk_of_eq_ok h
  obtain ⟨entries, hentries, rfl⟩ := hto.entries
  obtain ⟨hlt, hmod⟩ := hto.count
  have hlength := hto.length
  have hnk : n ≤ k := hmod ▸ Nat.mod_le k _
  have hl : ((value.drop 4).take (8 * n)).length = 8 * n := by
    rw [List.length_take, List.length_drop]
    omega
  obtain ⟨hback, hle⟩ := aclEntriesToDisk_back n hl hentries
  have hconv : convertDiskBufferToPosixAcl ([1, 0, 0, 0] ++ entries) =
      some (.ok ([2, 0, 0, 0] ++ shortIdsZero ((value.drop 4).take (8 * n)))) := by
    rw [convertDiskBufferToPosixAcl_eq (by simp) rfl]
    show some (do let written ← diskEntriesToPosix entries; .ok ([2, 0, 0, 0] ++ written)) = _
    rw [hback]
    rfl
  constructor
  · intro hcomes
    obtain ⟨heq, -⟩ := hcomes _ h
    rw [hconv] at heq
    have hlen := congrArg List.length (Except.ok.inj (Option.some.inj heq))
    simp only [withShortIdsZero, List.length_append, length_shortIdsZero, hl, List.length_take,
      List.length_drop, List.length_cons, List.length_nil] at hlen
    omega
  · intro hshort disk' hdisk'
    rw [h] at hdisk'
    obtain rfl := Except.ok.inj hdisk'
    have hall : (value.drop 4).take (8 * n) = value.drop 4 := by
      refine List.take_of_length_le ?_
      rw [List.length_drop]
      omega
    rw [hconv, hall, withShortIdsZero, hto.head]
    refine ⟨rfl, ?_⟩
    simp only [List.length_append, length_shortIdsZero, List.length_drop, List.length_cons,
      List.length_nil]
    omega

end Back

/-- **Converting access control lists.** A value that is converted to disk comes back if and
only if it has fewer than `2 ^ 32` entries. A value from disk is converted safely if and only
if its entries end, behind the header. -/
theorem posixAcl_converts_iff (value : List UInt8) :
    (∀ disk, convertPosixAclToDiskBuffer value = .ok disk →
      (ComesBack value ↔ value.length < 4 + 8 * 2 ^ 32)) ∧
    (ConvertsSafely value ↔
      (4 ≤ value.length → value.take 4 = [1, 0, 0, 0] → EntriesEnd (value.drop 4))) :=
  ⟨fun _ => comesBack_iff, convertsSafely_iff value⟩

/-- The owner, whose id is not kept, and a user; and the value on disk that this is. -/
theorem posixAcl_converts_twoEntries :
    ComesBack [2, 0, 0, 0, 1, 0, 6, 0, 255, 255, 255, 255, 2, 0, 4, 0, 232, 3, 0, 0] ∧
      ConvertsSafely [1, 0, 0, 0, 1, 0, 6, 0, 2, 0, 4, 0, 232, 3, 0, 0] := by
  constructor
  · refine ((posixAcl_converts_iff _).1
      [1, 0, 0, 0, 1, 0, 6, 0, 2, 0, 4, 0, 232, 3, 0, 0] rfl).mpr ?_
    norm_num
  · exact (posixAcl_converts_iff _).2.mpr fun _ _ => trivial

/-- Behind the header there is one byte. -/
theorem not_convertsSafely_oneByte : ¬ConvertsSafely [1, 0, 0, 0, 1] := by
  rw [convertsSafely_iff]
  exact fun h => h (by decide) rfl

end E2fsprogs
