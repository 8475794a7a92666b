import E2fsprogs.Inode.Table

/-!
# Runs of reads and writes of inodes

The calls of `E2fsprogs.readInode2` and `E2fsprogs.writeInode2` one after another, beside a table
that holds for each inode what was last written to it. As long as no read spoils a slot, the calls
behave as that table does.
-/

namespace E2fsprogs

/-- A call, with the buffer of the caller, its size and the `NOCSUM` flag. -/
inductive InodeCall where
  | read (ino : ℕ) (inode : Block) (bufsize : ℕ) (nocsum : Bool)
  | write (ino : ℕ) (inode : Block) (bufsize : ℕ) (nocsum : Bool)

/-- The state, and for each inode the bytes last written to it. -/
abbrev InodeRun := InodeState × (ℕ → Block)

variable (g : InodeGeometry)

/-- What a call makes of the state and of the table. -/
def InodeRun.step (s : InodeRun) : InodeCall → InodeRun
  | .read ino inode bufsize nocsum => ((readInode2 g s.1 ino inode bufsize nocsum).2.2, s.2)
  | .write ino inode bufsize nocsum =>
    let r := writeInode2 g s.1 ino inode bufsize nocsum
    (r.2, if r.1 = none then
      Function.update s.2 ino (memcpy (s.2 ino) 0 inode (Nat.min bufsize g.inodeSize)) else s.2)

/-- A run of calls, from a device on which no inode has been read or written. -/
def inodeRun (disk : ℕ → Block) (calls : List InodeCall) : InodeRun :=
  calls.foldl (InodeRun.step g) ({ disk := disk, icache := none }, onDisk g disk)

/-- **The calls that do no harm.** -/
def Harmless (st : InodeState) : InodeCall → Prop
  | .read ino _ _ _ => ¬Spoils g st ino
  | .write ino _ bufsize _ => HarmlessWrite g st ino bufsize

/-- **A call behaves as the table does.** A read copies to the caller what was last written to the
inode, checksums aside, and leaves the device alone; a write changes only the bytes it is given and
the checksums. -/
def Behaves (s : InodeRun) : InodeCall → Prop
  | .read ino inode bufsize nocsum =>
    let r := readInode2 g s.1 ino inode bufsize nocsum
    (Copied r.1 ↔ g.Valid ino ∧ ∃ p, locateInode g ino = .ok p) ∧
      (Copied r.1 → ∀ k < Nat.min bufsize g.inodeSize, ¬CsumByte k → r.2.1 k = s.2 ino k) ∧
      r.2.2.disk = s.1.disk
  | .write ino inode bufsize nocsum =>
    let r := writeInode2 g s.1 ino inode bufsize nocsum
    (r.1 = none ↔ g.Valid ino ∧ (∃ p, locateInode g ino = .ok p) ∧ g.rw = true) ∧
      OnlyInode g ino bufsize s.1.disk r.2.disk ∧ (r.1 ≠ none → r.2.disk = s.1.disk)

variable {g}

/-- The invariant of a run: the cache agrees with the device, and the device with the table. -/
structure InodeRun.Ok (g : InodeGeometry) (s : InodeRun) : Prop where
  cache : CacheOk g s.1.disk s.1.cache
  table : ∀ ino, g.Valid ino → SameInode g (onDisk g s.1.disk ino) (s.2 ino)

theorem inodeRun_nil_ok (disk : ℕ → Block) : (inodeRun g disk []).Ok g where
  cache := cacheOk_create disk
  table := fun _ _ _ _ _ => rfl

/-- **A call keeps the invariant.** -/
theorem InodeRun.Ok.step (hg : g.Ok) {s : InodeRun} (h : s.Ok g) {c : InodeCall}
    (hc : Harmless g s.1 c) :
    (s.step g c).Ok g := by
  cases c with
  | read ino inode bufsize nocsum =>
    have hspec := @readInode2_spec g ino _ inode bufsize nocsum hg h.cache hc
    refine ⟨?_, fun ino' hv => ?_⟩
    · show CacheOk g (readInode2 g s.1 ino inode bufsize nocsum).2.2.disk _
      rw [hspec.disk]
      exact hspec.cache
    · show SameInode g (onDisk g (readInode2 g s.1 ino inode bufsize nocsum).2.2.disk ino') _
      rw [hspec.disk]
      exact h.table ino' hv
  | write ino inode bufsize nocsum =>
    have hspec := @writeInode2_spec g ino _ inode bufsize nocsum hg h.cache hc
    refine ⟨hspec.cache, fun ino' hv => ?_⟩
    rw [InodeRun.step]
    dsimp only
    by_cases hdone : (writeInode2 g s.1 ino inode bufsize nocsum).1 = none
    · rw [if_pos hdone]
      by_cases hino : ino' = ino
      · rw [hino, Function.update_self]
        intro k hk hcsum
        rw [hspec.bytes hdone k hk hcsum, memcpy, memcpy, h.table ino (hino ▸ hv) k hk hcsum]
      · rw [Function.update_of_ne hino]
        exact fun k hk hcsum =>
          (hspec.others ino' hv hino k hk hcsum).trans (h.table ino' hv k hk hcsum)
    · rw [if_neg hdone, hspec.failed hdone]
      exact h.table ino' hv

/-- **A run keeps the invariant.** -/
theorem inodeRun_ok (hg : g.Ok) (disk : ℕ → Block) {calls : List InodeCall}
    (h : ∀ pre c post, calls = pre ++ c :: post → Harmless g (inodeRun g disk pre).1 c) :
    (inodeRun g disk calls).Ok g := by
  induction calls using List.reverseRecOn with
  | nil => exact inodeRun_nil_ok disk
  | append_singleton calls c ih =>
    have hlast := h calls c [] rfl
    have hpre : (inodeRun g disk calls).Ok g := by
      refine ih fun pre c' post heq => h pre c' (post ++ [c]) ?_
      rw [heq, List.append_assoc]
      rfl
    rw [inodeRun, List.foldl_append]
    exact hpre.step hg hlast

/-- A call in a state of a run. -/
theorem InodeRun.Ok.behaves (hg : g.Ok) {s : InodeRun} (h : s.Ok g) {c : InodeCall}
    (hc : Harmless g s.1 c) :
    Behaves g s c := by
  cases c with
  | read ino inode bufsize nocsum =>
    have hspec := @readInode2_spec g ino _ inode bufsize nocsum hg h.cache hc
    refine ⟨hspec.located, fun hcopied k hk hcsum => ?_, hspec.disk⟩
    have hlen : Nat.min bufsize g.inodeSize ≤ g.inodeSize := Nat.min_le_right _ _
    rw [hspec.bytes hcopied k hk hcsum]
    exact h.table ino (hspec.located.mp hcopied).1 k (by omega) hcsum
  | write ino inode bufsize nocsum =>
    have hspec := @writeInode2_spec g ino _ inode bufsize nocsum hg h.cache hc
    exact ⟨hspec.done, hspec.only, hspec.failed⟩

/-- **In a run of calls that do no harm, every call behaves as the inode table does.** -/
theorem inodeCalls_behave (hg : g.Ok) (disk : ℕ → Block) {calls : List InodeCall}
    (h : ∀ pre c post, calls = pre ++ c :: post → Harmless g (inodeRun g disk pre).1 c) :
    ∀ pre c post, calls = pre ++ c :: post → Behaves g (inodeRun g disk pre) c := by
  intro pre c post heq
  have hpre : (inodeRun g disk pre).Ok g := by
    refine inodeRun_ok hg disk fun pre' c' post' heq' => h pre' c' (post' ++ c :: post) ?_
    rw [heq, heq', List.append_assoc]
    rfl
  exact hpre.behaves hg (h pre c post heq)

/-! ### A small file system -/

/-- Eight inodes of 128 bytes in the block 5, with checksums. -/
def eightInodes : InodeGeometry where
  blocksize := 1024
  inodeSize := 128
  inodesCount := 8
  inodesPerGroup := 8
  groupDescCount := 1
  inodeTableLoc := fun gr => if gr = 0 then 5 else 0
  inodeBlocksPerGroup := 1
  firstDataBlock := 1
  blocksCount := 64
  metadataCsum := true
  csumSeed := 0
  ignoreCsumErrors := false
  rw := true

theorem eightInodes_ok : eightInodes.Ok where
  blocks := ⟨10, le_refl _, rfl⟩
  size := ⟨7, le_refl _, rfl⟩
  le := by decide
  perGroup := by decide
  count := by decide
  tables := by decide
  apart := fun gr hgr gr' hgr' hne => by
    have h1 : gr < 1 := hgr
    have h2 : gr' < 1 := hgr'
    omega

/-- All inodes are zero, except that the inode 5 has a byte and no checksum. -/
def wrongChecksum : ℕ → Block := fun b p => if b = 5 ∧ p = 512 then 1 else 0

instance decidableLocated (ino : ℕ) : Decidable (∃ p, locateInode g ino = .ok p) :=
  match h : locateInode g ino with
  | .ok p => isTrue ⟨p, rfl⟩
  | .error e => isFalse fun ⟨p, hp⟩ => by cases hp

instance InodeGeometry.decidableValid (ino : ℕ) : Decidable (g.Valid ino) :=
  inferInstanceAs (Decidable (_ ∧ _))

instance decidableSpoils (st : InodeState) (ino : ℕ) : Decidable (Spoils g st ino) :=
  inferInstanceAs (Decidable (_ ∧ _ ∧ _ ∧ _ ∧ _))

instance decidableHarmlessWrite (st : InodeState) (ino bufsize : ℕ) :
    Decidable (HarmlessWrite g st ino bufsize) :=
  inferInstanceAs (Decidable (_ ∧ _))

instance decidableHarmless (st : InodeState) (c : InodeCall) : Decidable (Harmless g st c) :=
  match c with
  | .read ino _ _ _ => inferInstanceAs (Decidable ¬Spoils g st ino)
  | .write ino _ bufsize _ => inferInstanceAs (Decidable (HarmlessWrite g st ino bufsize))

/-- The four slots of the cache are filled; the inode 1 is read from the cache, and the inode 2
written in part there and in the table; the inode 6 takes the slot of the inode 1, which is read
again in place of the inode 2. -/
def slotCalls : List InodeCall :=
  [1, 2, 3, 4, 1].map (fun ino => .read ino (fun _ => 0) 128 false) ++
    [.write 2 (fun _ => 7) 64 false, .read 6 (fun _ => 0) 128 false,
      .read 1 (fun _ => 0) 128 false, .read 2 (fun _ => 0) 128 false]

theorem slotCalls_harmless (pre : List InodeCall) (c : InodeCall) (post : List InodeCall)
    (heq : slotCalls = pre ++ c :: post) :
    Harmless eightInodes (inodeRun eightInodes wrongChecksum pre).1 c := by
  have hall : ∀ n < 9, ∀ c ∈ slotCalls[n]?,
      Harmless eightInodes (inodeRun eightInodes wrongChecksum (slotCalls.take n)).1 c := by
    decide +kernel
  have hlen : pre.length < 9 := by
    have := congrArg List.length heq
    rw [List.length_append, List.length_cons] at this
    change 9 = _ at this
    omega
  have hget : c ∈ slotCalls[pre.length]? := by
    rw [heq, List.getElem?_append_right le_rfl, Nat.sub_self]
    rfl
  have hc := hall pre.length hlen c hget
  rwa [heq, List.take_left] at hc

theorem inodeCalls_behave_slots :
    Behaves eightInodes (inodeRun eightInodes wrongChecksum (slotCalls.take 4))
        (.read 1 (fun _ => 0) 128 false) ∧
      Behaves eightInodes (inodeRun eightInodes wrongChecksum (slotCalls.take 5))
        (.write 2 (fun _ => 7) 64 false) ∧
      Behaves eightInodes (inodeRun eightInodes wrongChecksum (slotCalls.take 6))
        (.read 6 (fun _ => 0) 128 false) ∧
      Behaves eightInodes (inodeRun eightInodes wrongChecksum (slotCalls.take 8))
        (.read 2 (fun _ => 0) 128 false) :=
  have h := inodeCalls_behave eightInodes_ok wrongChecksum slotCalls_harmless
  ⟨h (slotCalls.take 4) _ (slotCalls.drop 5) rfl, h (slotCalls.take 5) _ (slotCalls.drop 6) rfl,
    h (slotCalls.take 6) _ (slotCalls.drop 7) rfl, h (slotCalls.take 8) _ [] rfl⟩

/-- The reads of the inodes 1 to 5. -/
def fiveReads : List InodeCall :=
  [1, 2, 3, 4, 5].map fun ino => .read ino (fun _ => 0) 128 false

/-- **After the read of an inode whose checksum is wrong, another inode reads as that one.** -/
theorem fiveReads_not_behaves :
    ¬Behaves eightInodes (inodeRun eightInodes wrongChecksum fiveReads)
      (.read 1 (fun _ => 0) 128 false) := by
  intro h
  have hcopied : Copied (readInode2 eightInodes (inodeRun eightInodes wrongChecksum fiveReads).1 1
    (fun _ => 0) 128
      false).1 := Or.inl (by decide +kernel)
  have hbyte := h.2.1 hcopied 0 (by decide) (by unfold CsumByte; decide)
  exact absurd hbyte (by decide +kernel)

end E2fsprogs
