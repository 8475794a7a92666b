import Mathlib.Logic.Function.Basic
import Mathlib.Data.Fintype.Basic

/-!
# Multiple mount protection

`lib/ext2fs/mmp.c`. Several nodes share a device, and one of its blocks says whether one of them
uses the filesystem. A node that wants to use it reads the block, writes a number that it has drawn,
sleeps, and goes on if the block still has its number. A block with a number that nobody has taken
back may be left over, and a node that finds one sleeps first and goes on if it is still there.

In any run at most one node uses the filesystem, and the block is as this node has left it, so that
an update never finds it changed (`E2fsprogs.mmp_exclusive`). This needs that the numbers differ,
that a node writes its number sooner than the others have slept, and that no node starts from the
number of a node that is still starting; without the last of these two nodes may use the filesystem
at once (`E2fsprogs.mmp_race`).

Reads and writes that are in order are modelled, as are nodes that stop at any point. The checksum
of the block is left out. The clock counts seconds, and a sleep may last longer than it was asked
to.
-/

namespace E2fsprogs

/-- `EXT4_MMP_MAGIC`. -/
def mmpMagic : ℕ := 0x004D4D50

/-- `EXT4_MMP_SEQ_CLEAN`. -/
def mmpSeqClean : ℕ := 0xFF4D4D50

/-- `EXT4_MMP_SEQ_FSCK`. -/
def mmpSeqFsck : ℕ := 0xE24D4D50

/-- `EXT4_MMP_SEQ_MAX`. -/
def mmpSeqMax : ℕ := 0xE24D4D4F

/-- `struct mmp_struct`, without its checksum. -/
structure MmpStruct where
  magic : ℕ
  seq : ℕ
  time : ℕ
  nodename : List UInt8
  bdevname : List UInt8
  checkInterval : ℕ
  deriving DecidableEq

/-- What the functions return. -/
inductive MmpError
  | ok
  | fsckOn
  | unknownSeq
  | failed
  | changeAbort
  | magicInvalid
  | stopped
  deriving DecidableEq

/-- Where a node is in `ext2fs_mmp_start` and after it: asleep after the first read, about to write
its number, asleep after that, about to write that it uses the filesystem, or using it. -/
inductive MmpPc
  | idle
  | sleeping (seq interval wake : ℕ)
  | writing (interval readAt : ℕ)
  | waiting (seq wake : ℕ)
  | claiming (seq : ℕ)
  | inUse
  deriving DecidableEq

/-- A node: `mmp_buf`, `mmp_last_written`, and what was returned last. -/
structure MmpNode where
  pc : MmpPc
  buf : MmpStruct
  lastWritten : ℕ
  result : MmpError
  deriving DecidableEq

/-- What does not change: `s_mmp_update_interval`, whether a node has the filesystem open for
writing, and the names that it writes. -/
structure MmpFs (ν : Type) where
  updateInterval : ℕ
  rw : ν → Bool
  nodename : ν → List UInt8
  bdevname : ν → List UInt8

/-- The clock, the block, and the nodes. -/
structure MmpState (ν : Type) where
  now : ℕ
  disk : MmpStruct
  node : ν → MmpNode

/-- The interval from the superblock, which is at least `EXT4_MMP_MIN_CHECK_INTERVAL`. -/
def mmpCheckInterval (updateInterval : ℕ) : ℕ := if updateInterval < 5 then 5 else updateInterval

/-- How long `ext2fs_mmp_start` sleeps. -/
def mmpSleep (interval : ℕ) : ℕ := min (2 * interval + 1) (interval + 60)

section Steps

variable {ν : Type} [DecidableEq ν]

/-- What a node does. -/
inductive MmpAction (ν : Type)
  | tick
  | start (i : ν)
  | reread (i : ν)
  | writeSeq (i : ν) (seq : ℕ)
  | verify (i : ν)
  | claim (i : ν)
  | update (i : ν) (immediately : Bool)
  | stop (i : ν)
  | halt (i : ν)

/-- A node changes. -/
def MmpState.set (st : MmpState ν) (i : ν) (n : MmpNode) : MmpState ν :=
  { st with node := Function.update st.node i n }

/-- `ext2fs_mmp_write`, and what becomes of the node. -/
def MmpState.write (st : MmpState ν) (i : ν) (buf : MmpStruct) (pc : MmpPc) (result : MmpError) :
    MmpState ν :=
  { st with disk := { buf with time := st.now } }.set i ⟨pc, { buf with time := st.now },
    st.now, result⟩

/-- `ext2fs_mmp_start` up to the first sleep, or to where it goes on without one. -/
def mmpStart (fs : MmpFs ν) (st : MmpState ν) (i : ν) : MmpState ν :=
  let node := { st.node i with buf := st.disk }
  let interval := mmpCheckInterval fs.updateInterval
  if st.disk.magic ≠ mmpMagic then st.set i { node with result := .magicInvalid }
  else if st.disk.seq = mmpSeqClean then
    if fs.rw i = false then st.set i { node with result := .ok }
    else st.set i { node with pc := .writing interval st.now }
  else if st.disk.seq = mmpSeqFsck then st.set i { node with result := .fsckOn }
  else if mmpSeqFsck < st.disk.seq then st.set i { node with result := .unknownSeq }
  else
    let interval := if interval < st.disk.checkInterval then st.disk.checkInterval else interval
    st.set i { node with pc := .sleeping st.disk.seq interval (st.now + mmpSleep interval) }

/-- The read after the first sleep. -/
def mmpReread (fs : MmpFs ν) (st : MmpState ν) (i : ν) (seq interval : ℕ) : MmpState ν :=
  let node := { st.node i with buf := st.disk }
  if st.disk.magic ≠ mmpMagic then st.set i { node with pc := .idle, result := .magicInvalid }
  else if seq ≠ st.disk.seq then st.set i { node with pc := .idle, result := .failed }
  else if fs.rw i = false then st.set i { node with pc := .idle, result := .ok }
  else st.set i { node with pc := .writing interval st.now }

/-- The write of a new number. -/
def mmpWriteSeq (fs : MmpFs ν) (st : MmpState ν) (i : ν) (seq interval : ℕ) : MmpState ν :=
  st.write i
    { (st.node i).buf with seq := seq, nodename := fs.nodename i, bdevname := fs.bdevname i }
    (.waiting seq (st.now + mmpSleep interval)) (st.node i).result

/-- The read after the second sleep. -/
def mmpVerify (st : MmpState ν) (i : ν) (seq : ℕ) : MmpState ν :=
  let node := { st.node i with buf := st.disk }
  if st.disk.magic ≠ mmpMagic then st.set i { node with pc := .idle, result := .magicInvalid }
  else if seq ≠ st.disk.seq then st.set i { node with pc := .idle, result := .failed }
  else st.set i { node with pc := .claiming seq }

/-- `ext2fs_mmp_update2`, with `EXT2_MIN_MMP_UPDATE_INTERVAL`. A node that finds the block changed
gives up. -/
def mmpUpdate2 (st : MmpState ν) (i : ν) (immediately : Bool) : MmpState ν :=
  let node := st.node i
  if immediately = false ∧ st.now - node.lastWritten < 60 then st.set i { node with result := .ok }
  else if st.disk.magic ≠ mmpMagic then st.set i { node with result := .magicInvalid }
  else if node.buf ≠ st.disk then st.set i { node with pc := .idle, result := .changeAbort }
  else st.write i { node.buf with seq := mmpSeqFsck } .inUse .ok

/-- `ext2fs_mmp_stop`. The buffer that is compared has just been read. -/
def mmpStop (st : MmpState ν) (i : ν) : MmpState ν :=
  let node := { st.node i with buf := st.disk }
  if st.disk.magic ≠ mmpMagic then st.set i { node with pc := .idle, result := .magicInvalid }
  else if node.buf ≠ st.disk then st.set i { node with pc := .idle, result := .changeAbort }
  else st.write i { st.disk with seq := mmpSeqClean } .idle .ok

/-- A step, where the node is at the right place and has slept long enough. -/
def mmpStep (fs : MmpFs ν) (st : MmpState ν) : MmpAction ν → Option (MmpState ν)
  | .tick => some { st with now := st.now + 1 }
  | .start i => if (st.node i).pc = .idle then some (mmpStart fs st i) else none
  | .reread i =>
    match (st.node i).pc with
    | .sleeping seq interval wake =>
      if wake ≤ st.now then some (mmpReread fs st i seq interval) else none
    | _ => none
  | .writeSeq i seq =>
    match (st.node i).pc with
    | .writing interval _ =>
      if seq ≤ mmpSeqMax then some (mmpWriteSeq fs st i seq interval) else none
    | _ => none
  | .verify i =>
    match (st.node i).pc with
    | .waiting seq wake => if wake ≤ st.now then some (mmpVerify st i seq) else none
    | _ => none
  | .claim i =>
    match (st.node i).pc with
    | .claiming _ => some (st.write i { (st.node i).buf with seq := mmpSeqFsck } .inUse .ok)
    | _ => none
  | .update i immediately =>
    if (st.node i).pc = .inUse then some (mmpUpdate2 st i immediately) else none
  | .stop i => if (st.node i).pc = .inUse then some (mmpStop st i) else none
  | .halt i => some (st.set i { st.node i with pc := .idle, result := .stopped })

/-! ### What is assumed of a run -/

/-- The number that a node has found or drawn. -/
def MmpPc.seq : MmpPc → Option ℕ
  | .sleeping seq _ _ => some seq
  | .waiting seq _ => some seq
  | .claiming seq => some seq
  | _ => none

/-- The number that a node which is starting has written. -/
def MmpPc.written : MmpPc → Option ℕ
  | .waiting seq _ => some seq
  | .claiming seq => some seq
  | _ => none

/-- When a node that is about to write its number has read the block. -/
def MmpPc.readAt : MmpPc → Option ℕ
  | .writing _ readAt => some readAt
  | _ => none

/-- A step is one that the protocol is made for: a node writes its number at most `delay` seconds
after it has read the block, no other node has this number, and a node does not start from the
number of one that is starting. -/
def MmpState.Admits (delay : ℕ) (st : MmpState ν) : MmpAction ν → Prop
  | .tick => ∀ j, ∀ readAt ∈ (st.node j).pc.readAt, st.now < readAt + delay
  | .writeSeq _ seq => ∀ j, (st.node j).pc.seq ≠ some seq
  | .start _ => ∀ j, (st.node j).pc.written ≠ some st.disk.seq
  | _ => True

/-- Nodes that have not begun, and any block. -/
def MmpState.Fresh (st : MmpState ν) : Prop := ∀ i, (st.node i).pc = .idle

instance [Fintype ν] (delay : ℕ) (st : MmpState ν) :
    (action : MmpAction ν) → Decidable (st.Admits delay action)
  | .tick =>
    inferInstanceAs (Decidable (∀ j, ∀ readAt ∈ (st.node j).pc.readAt, st.now < readAt + delay))
  | .writeSeq _ seq => inferInstanceAs (Decidable (∀ j, (st.node j).pc.seq ≠ some seq))
  | .start _ => inferInstanceAs (Decidable (∀ j, (st.node j).pc.written ≠ some st.disk.seq))
  | .reread _ | .verify _ | .claim _ | .update _ _ | .stop _ | .halt _ => isTrue trivial

/-- Such steps one after the other. -/
def mmpRun [Fintype ν] (fs : MmpFs ν) (delay : ℕ) (st : MmpState ν) :
    List (MmpAction ν) → Option (MmpState ν)
  | [] => some st
  | action :: actions =>
    if st.Admits delay action then (mmpStep fs st action).bind fun st =>
      mmpRun fs delay st actions else none

end Steps

/-! ### The invariant -/

section Safety

variable {ν : Type}

/-- A node that neither is about to write nor uses the filesystem. -/
def MmpPc.Passive : MmpPc → Prop
  | .idle => True
  | .sleeping _ _ _ => True
  | .waiting _ _ => True
  | _ => False

/-- A node that has the block: it uses the filesystem, or has seen its number after the second
sleep. -/
def MmpPc.Holds : MmpPc → Prop
  | .claiming _ => True
  | .inUse => True
  | _ => False

/-- What holds of a node. -/
structure MmpNode.Ok (fs : MmpFs ν) (delay now : ℕ) (disk : MmpStruct) (n : MmpNode) : Prop where
  sleeping : ∀ seq interval wake, n.pc = .sleeping seq interval wake →
    mmpCheckInterval fs.updateInterval ≤ interval
  writing : ∀ interval readAt, n.pc = .writing interval readAt →
    mmpCheckInterval fs.updateInterval ≤ interval ∧ readAt ≤ now ∧ now ≤ readAt + delay
  small : ∀ seq ∈ n.pc.seq, seq ≤ mmpSeqMax
  claiming : ∀ seq, n.pc = .claiming seq → disk.seq = seq
  inUse : n.pc = .inUse → disk = n.buf ∧ disk.seq = mmpSeqFsck

/-- What holds of two nodes. They have different numbers once one has written its own; one that
waits with its number in the block has written it after the other has read the block, and wakes
later than the other writes; and where one has the block the other is not about to do anything. -/
structure MmpNode.Pair (fs : MmpFs ν) (disk : MmpStruct) (a b : MmpNode) : Prop where
  distinct : ∀ seq ∈ a.pc.written, b.pc.seq ≠ some seq
  before : ∀ readAt ∈ a.pc.readAt, ∀ seq wake, b.pc = .waiting seq wake → disk.seq = seq →
    readAt + mmpSleep (mmpCheckInterval fs.updateInterval) ≤ wake
  exclusive : a.pc.Holds → b.pc.Passive

/-- **What holds in a run.** -/
structure MmpSafe (fs : MmpFs ν) (delay : ℕ) (st : MmpState ν) : Prop where
  node : ∀ i, (st.node i).Ok fs delay st.now st.disk
  pair : ∀ i j, i ≠ j → (st.node i).Pair fs st.disk (st.node j)

variable {fs : MmpFs ν} {delay : ℕ} {st : MmpState ν}

theorem MmpPc.seq_of_written {pc : MmpPc} {seq : ℕ} (h : pc.written = some seq) :
    pc.seq = some seq := by
  cases pc <;> first | exact h | cases h

theorem MmpPc.passive_iff (pc : MmpPc) : pc.Passive ↔ ¬pc.Holds ∧ pc.readAt = none := by
  cases pc <;> simp [Passive, Holds, readAt]

/-- What a node that has the block makes of it. -/
theorem MmpNode.Ok.of_holds {now : ℕ} {disk : MmpStruct} {n : MmpNode} (h : n.Ok fs delay now disk)
    (hn : n.pc.Holds) :
    n.pc.written = some disk.seq ∨ disk.seq = mmpSeqFsck := by
  cases hpc : n.pc with
  | claiming seq => exact .inl (by rw [h.claiming seq hpc]; rfl)
  | inUse => exact .inr (h.inUse hpc).2
  | _ => rw [hpc] at hn; exact hn.elim

/-- A node that is about to write has read the block a short time ago. -/
theorem MmpNode.Ok.prompt {now : ℕ} {disk : MmpStruct} {n : MmpNode}
    (h : n.Ok fs delay now disk) {readAt : ℕ}
    (hread : readAt ∈ n.pc.readAt) : readAt ≤ now ∧ now ≤ readAt + delay := by
  cases hpc : n.pc with
  | writing interval readAt' =>
    rw [hpc] at hread
    cases hread
    exact (h.writing _ _ hpc).2
  | _ => rw [hpc] at hread; cases hread

theorem mmpSleep_mono {a b : ℕ} (h : a ≤ b) : mmpSleep a ≤ mmpSleep b := by
  rw [mmpSleep, mmpSleep]
  omega

theorem MmpState.Fresh.safe (h : st.Fresh) (fs : MmpFs ν) (delay : ℕ) : MmpSafe fs delay st := by
  refine ⟨fun i => ⟨?_, ?_, ?_, ?_, ?_⟩, fun i j _ => ⟨?_, ?_, ?_⟩⟩ <;>
    simp [h _, MmpPc.seq, MmpPc.written, MmpPc.readAt, MmpPc.Passive]

/-- A number that a node has written is nobody else's. -/
theorem MmpSafe.written_ne (h : MmpSafe fs delay st) {i j : ν} (hj : j ≠ i) {seq : ℕ}
    (hi : (st.node i).pc.seq = some seq) :
    (st.node j).pc.written ≠ some seq := fun hwritten =>
  (h.pair j i hj).distinct seq hwritten hi

/-- A clock that goes on while nobody is late. -/
theorem MmpSafe.tick (h : MmpSafe fs delay st)
    (htimely : ∀ j, ∀ readAt ∈ (st.node j).pc.readAt, st.now < readAt + delay) :
    MmpSafe fs delay { st with now := st.now + 1 } := by
  refine ⟨fun i => ⟨(h.node i).sleeping, fun interval readAt hpc => ?_, (h.node i).small,
    (h.node i).claiming, (h.node i).inUse⟩, h.pair⟩
  have hlate := htimely i readAt (by rw [hpc]; rfl)
  obtain ⟨hinterval, hread, -⟩ := (h.node i).writing _ _ hpc
  exact ⟨hinterval, Nat.le_succ_of_le hread, hlate⟩

/-! ### The steps -/

variable [DecidableEq ν]

section OneNode

variable (h : MmpSafe fs delay st) (i : ν)

include h

/-- A change of one node and of the block. -/
theorem MmpSafe.change (disk : MmpStruct) (n : MmpNode)
    (hn : n.Ok fs delay st.now disk) (hleft : ∀ j, j ≠ i → n.Pair fs disk (st.node j))
    (hright : ∀ j, j ≠ i → (st.node j).Pair fs disk n)
    (hold : disk ≠ st.disk → ∀ j, j ≠ i → ¬(st.node j).pc.Holds ∧ ∀ readAt ∈ (st.node j).pc.readAt,
      ∀ k, k ≠ i → ∀ wake, (st.node k).pc ≠ .waiting disk.seq wake) :
    MmpSafe fs delay (MmpState.set ⟨st.now, disk, st.node⟩ i n) := by
  have hself : (MmpState.set ⟨st.now, disk, st.node⟩ i n).node i = n := Function.update_self ..
  have hother : ∀ j, j ≠ i → (MmpState.set ⟨st.now, disk, st.node⟩ i n).node j = st.node j :=
    fun j hj =>
    Function.update_of_ne hj ..
  refine ⟨fun j => ?_, fun j k hjk => ?_⟩
  · by_cases hj : j = i
    · rw [hj, hself]
      exact hn
    · rw [hother j hj]
      by_cases hdisk : disk = st.disk
      · rw [MmpState.set, hdisk]
        exact h.node j
      · have hnot := (hold hdisk j hj).1
        refine ⟨(h.node j).sleeping, (h.node j).writing, (h.node j).small, fun seq hpc => ?_,
          fun hpc => ?_⟩
        · exact absurd (by rw [hpc]; trivial) hnot
        · exact absurd (by rw [hpc]; trivial) hnot
  · by_cases hj : j = i
    · subst hj
      rw [hself, hother k hjk.symm]
      exact hleft k hjk.symm
    · by_cases hk : k = i
      · subst hk
        rw [hself, hother j hjk]
        exact hright j hjk
      · rw [hother j hj, hother k hk]
        by_cases hdisk : disk = st.disk
        · rw [MmpState.set, hdisk]
          exact h.pair j k hjk
        · refine ⟨(h.pair j k hjk).distinct, fun readAt hread seq wake hpc hseq => ?_,
            (h.pair j k hjk).exclusive⟩
          exact absurd (hseq ▸ hpc) ((hold hdisk j hj).2 readAt hread k hk wake)

/-- A change of one node. -/
theorem MmpSafe.set (n : MmpNode) (hn : n.Ok fs delay st.now st.disk)
    (hleft : ∀ j, j ≠ i → n.Pair fs st.disk (st.node j))
    (hright : ∀ j, j ≠ i → (st.node j).Pair fs st.disk n) :
    MmpSafe fs delay (st.set i n) :=
  h.change i st.disk n hn hleft hright fun hne => absurd rfl hne

/-- **A node stops.** -/
theorem MmpSafe.setIdle {n : MmpNode} (hpc : n.pc = .idle) :
    MmpSafe fs delay (st.set i n) := by
  refine h.set i n ⟨?_, ?_, ?_, ?_, ?_⟩ (fun j _ => ⟨?_, ?_, ?_⟩) fun j _ => ⟨?_, ?_, ?_⟩ <;>
    simp [hpc, MmpPc.seq, MmpPc.written, MmpPc.readAt, MmpPc.Passive, MmpPc.Holds]

/-- A call that only returns something. -/
theorem MmpSafe.setResult {result : MmpError} :
    MmpSafe fs delay (st.set i { st.node i with result := result }) :=
  h.set i _ ⟨(h.node i).sleeping, (h.node i).writing, (h.node i).small, (h.node i).claiming,
    (h.node i).inUse⟩
    (fun j hj => ⟨(h.pair i j hj.symm).distinct, (h.pair i j hj.symm).before,
      (h.pair i j hj.symm).exclusive⟩)
    fun j hj => ⟨(h.pair j i hj).distinct, (h.pair j i hj).before, (h.pair j i hj).exclusive⟩

/-- **A node goes to sleep** on a number that nobody who is starting has written. -/
theorem MmpSafe.setSleeping {n : MmpNode} {interval wake : ℕ}
    (hpc : n.pc = .sleeping st.disk.seq interval wake)
    (hinterval : mmpCheckInterval fs.updateInterval ≤ interval)
    (hsmall : st.disk.seq ≤ mmpSeqMax) (hfree : ∀ j, (st.node j).pc.written ≠ some st.disk.seq) :
    MmpSafe fs delay (st.set i n) := by
  refine h.set i n ⟨?_, ?_, ?_, ?_, ?_⟩ (fun j _ => ⟨?_, ?_, ?_⟩) fun j _ =>
    ⟨fun seq hwritten heq => ?_, ?_, ?_⟩
  case refine_9 =>
    rw [hpc] at heq
    exact hfree j (Option.mem_def.mp hwritten |>.trans heq.symm)
  all_goals simp [hpc, MmpPc.seq, MmpPc.written, MmpPc.readAt, MmpPc.Passive, MmpPc.Holds,
    hinterval, hsmall]

/-- **A node is about to write.** Nobody waits with the number of the block or has the block. -/
theorem MmpSafe.setWriting {n : MmpNode} {interval : ℕ}
    (hpc : n.pc = .writing interval st.now)
    (hinterval : mmpCheckInterval fs.updateInterval ≤ interval) (hfsck : st.disk.seq ≠ mmpSeqFsck)
    (hfree : ∀ j, j ≠ i → (st.node j).pc.written ≠ some st.disk.seq) :
    MmpSafe fs delay (st.set i n) := by
  refine h.set i n ⟨?_, ?_, ?_, ?_,
    ?_⟩ (fun j hj => ⟨?_, fun readAt _ seq wake hwait hseq => ?_, ?_⟩)
    fun j hj => ⟨?_, ?_, fun hholds => ?_⟩
  case refine_7 => exact absurd (by rw [hwait, hseq]; rfl) (hfree j hj)
  case refine_11 => exact (((h.node j).of_holds hholds).elim (hfree j hj) hfsck).elim
  all_goals simp [hpc, MmpPc.seq, MmpPc.written, MmpPc.readAt, MmpPc.Holds, hinterval]

/-- **A node has seen its number** after it has slept. All others have seen the block before it was
written, and have written since. -/
theorem MmpSafe.setClaiming (hdelay : delay < mmpSleep (mmpCheckInterval fs.updateInterval))
    {n : MmpNode} {seq wake : ℕ} (hwait : (st.node i).pc = .waiting seq wake)
    (hwake : wake ≤ st.now) (hseq : st.disk.seq = seq) (hpc : n.pc = .claiming seq) :
    MmpSafe fs delay (st.set i n) := by
  have hi : (st.node i).pc.seq = some seq := by rw [hwait]; rfl
  have hsmall : seq ≤ mmpSeqMax := (h.node i).small seq hi
  have hfree : ∀ j, j ≠ i → (st.node j).pc.written ≠ some seq := fun j hj => h.written_ne hj hi
  have hnotHolds : ∀ j, j ≠ i → ¬(st.node j).pc.Holds := fun j hj hholds =>
    ((h.node j).of_holds hholds).elim (hseq ▸ hfree j hj) fun hfsck => by
      rw [hseq] at hfsck
      rw [hfsck] at hsmall
      exact absurd hsmall (by decide)
  have hpassive : ∀ j, j ≠ i → (st.node j).pc.Passive := by
    intro j hj
    refine (MmpPc.passive_iff _).mpr ⟨hnotHolds j hj, ?_⟩
    rw [Option.eq_none_iff_forall_ne_some]
    intro readAt hread
    have hbefore := (h.pair j i hj).before readAt hread seq wake hwait hseq
    have hprompt := ((h.node j).prompt hread).2
    omega
  refine h.set i n ⟨?_, ?_, ?_, ?_,
    ?_⟩ (fun j hj => ⟨fun seq' hs => ?_, ?_, fun _ => hpassive j hj⟩)
    fun j hj => ⟨fun seq' hs heq => ?_, ?_, fun hholds => absurd hholds (hnotHolds j hj)⟩
  case refine_6 =>
    rw [hpc] at hs
    exact (h.pair i j hj.symm).distinct seq' (by rw [hwait]; exact hs)
  case refine_8 =>
    rw [hpc] at heq
    exact hfree j hj (Option.mem_def.mp hs |>.trans heq.symm)
  all_goals simp [hpc, MmpPc.seq, MmpPc.readAt, hsmall, hseq]

/-- **A node that has the block writes it**, and uses the filesystem or stops. -/
theorem MmpSafe.writeHeld (hholds : (st.node i).pc.Holds) {buf : MmpStruct} {pc : MmpPc}
    {result : MmpError} (hpc : pc = .idle ∨ pc = .inUse ∧ buf.seq = mmpSeqFsck) :
    MmpSafe fs delay (st.write i buf pc result) := by
  have hpassive : ∀ j, j ≠ i → (st.node j).pc.Passive :=
    fun j hj => (h.pair i j hj.symm).exclusive hholds
  have hothers : ∀ j, j ≠ i → ¬(st.node j).pc.Holds ∧ (st.node j).pc.readAt = none := fun j hj =>
    (MmpPc.passive_iff _).mp (hpassive j hj)
  refine h.change i _ _ ?_ (fun j hj => ?_) (fun j hj => ?_) fun _ j hj =>
    ⟨(hothers j hj).1, fun readAt hread => ?_⟩
  · rcases hpc with rfl | ⟨rfl, hseq⟩
    · constructor <;> simp [MmpPc.seq]
    · constructor <;> simp [MmpPc.seq, hseq]
  · refine ⟨?_, ?_, fun _ => hpassive j hj⟩ <;> rcases hpc with rfl | ⟨rfl, -⟩ <;>
      simp [MmpPc.written, MmpPc.readAt]
  · refine ⟨?_, ?_, fun hj' => absurd hj' (hothers j hj).1⟩ <;> rcases hpc with rfl | ⟨rfl, -⟩ <;>
      simp [MmpPc.seq]
  · rw [(hothers j hj).2] at hread
    cases hread

/-- **A node writes its number.** -/
theorem MmpSafe.writeSeq {seq interval readAt : ℕ}
    (hwriting : (st.node i).pc = .writing interval readAt) (hsmall : seq ≤ mmpSeqMax)
    (hfresh : ∀ j, (st.node j).pc.seq ≠ some seq) :
    MmpSafe fs delay (mmpWriteSeq fs st i seq interval) := by
  have hinterval := ((h.node i).writing _ _ hwriting).1
  have hnotHolds : ∀ j, j ≠ i → ¬(st.node j).pc.Holds := by
    intro j hj hholds
    have := (h.pair j i hj).exclusive hholds
    rw [hwriting] at this
    exact this
  refine h.change i _ _ ?_ (fun j hj => ?_) (fun j hj => ?_) fun _ j hj =>
    ⟨hnotHolds j hj, fun _ _ k _ wake hk => ?_⟩
  · constructor <;> simp [MmpPc.seq, hsmall]
  · refine ⟨fun seq' hs => ?_, ?_, ?_⟩
    · cases hs
      exact hfresh j
    · simp [MmpPc.readAt]
    · simp [MmpPc.Holds]
  · refine ⟨fun seq' hs heq => ?_, fun readAt' hread seq' wake hwait _ => ?_,
      fun hholds => absurd hholds (hnotHolds j hj)⟩
    · cases heq
      exact hfresh j (MmpPc.seq_of_written hs)
    · cases hwait
      have hprompt := ((h.node j).prompt hread).1
      have hsleep := mmpSleep_mono hinterval
      omega
  · exact hfresh k (by rw [hk]; rfl)

theorem MmpSafe.start (hidle : (st.node i).pc = .idle)
    (hfree : ∀ j, (st.node j).pc.written ≠ some st.disk.seq) :
    MmpSafe fs delay (mmpStart fs st i) := by
  rw [mmpStart]
  dsimp only
  split_ifs with hmagic hclean hro hfsck hunknown hlong
  · exact h.setIdle i hidle
  · exact h.setIdle i hidle
  · exact h.setWriting i rfl le_rfl (by rw [hclean]; decide) (fun j _ => hfree j)
  · exact h.setIdle i hidle
  · exact h.setIdle i hidle
  all_goals
    have hsmall : st.disk.seq ≤ mmpSeqMax := by
      have := lt_of_le_of_ne (not_lt.mp hunknown) hfsck
      exact Nat.le_of_lt_succ this
  · exact h.setSleeping i rfl hlong.le hsmall hfree
  · exact h.setSleeping i rfl le_rfl hsmall hfree

theorem MmpSafe.reread {seq interval wake : ℕ}
    (hpc : (st.node i).pc = .sleeping seq interval wake) :
    MmpSafe fs delay (mmpReread fs st i seq interval) := by
  have hi : (st.node i).pc.seq = some seq := by rw [hpc]; rfl
  have hsmall := (h.node i).small seq hi
  rw [mmpReread]
  dsimp only
  split_ifs with hmagic hseq hro
  · exact h.setIdle i rfl
  · exact h.setIdle i rfl
  · exact h.setIdle i rfl
  · -- the number is still there, so nobody who is starting has written it
    have hseq := not_not.mp hseq
    refine h.setWriting i rfl ((h.node i).sleeping _ _ _ hpc) (fun hfsck => ?_) fun j hj => ?_
    · rw [hseq, hfsck] at hsmall
      exact absurd hsmall (by decide)
    · rw [← hseq]
      exact h.written_ne hj hi

theorem MmpSafe.verify (hdelay : delay < mmpSleep (mmpCheckInterval fs.updateInterval))
    {seq wake : ℕ} (hpc : (st.node i).pc = .waiting seq wake) (hwake : wake ≤ st.now) :
    MmpSafe fs delay (mmpVerify st i seq) := by
  rw [mmpVerify]
  dsimp only
  split_ifs with hmagic hseq
  · exact h.setIdle i rfl
  · exact h.setIdle i rfl
  · exact h.setClaiming i hdelay hpc hwake (not_not.mp hseq).symm rfl

/-- An update finds the block as the node has left it. -/
theorem MmpSafe.update2 (hpc : (st.node i).pc = .inUse) (immediately : Bool) :
    MmpSafe fs delay (mmpUpdate2 st i immediately) := by
  have hdisk := ((h.node i).inUse hpc).1
  rw [mmpUpdate2]
  dsimp only
  split_ifs with hrecent hmagic hchanged
  · exact h.setResult i
  · exact h.setResult i
  · exact absurd hdisk.symm hchanged
  · exact h.writeHeld i (by rw [hpc]; trivial) (.inr ⟨rfl, rfl⟩)

theorem MmpSafe.stop (hpc : (st.node i).pc = .inUse) :
    MmpSafe fs delay (mmpStop st i) := by
  rw [mmpStop]
  dsimp only
  split_ifs with hmagic hchanged
  · exact h.setIdle i rfl
  · exact absurd rfl hchanged
  · exact h.writeHeld i (by rw [hpc]; trivial) (.inl rfl)

end OneNode

/-- **One step.** -/
theorem MmpSafe.step (h : MmpSafe fs delay st)
    (hdelay : delay < mmpSleep (mmpCheckInterval fs.updateInterval))
    (action : MmpAction ν) (hadmits : st.Admits delay action) {st' : MmpState ν}
    (hstep : mmpStep fs st action = some st') :
    MmpSafe fs delay st' := by
  -- one case for each action, with the guard it runs under
  cases action with
  | tick =>
    cases hstep
    exact h.tick hadmits
  | start i =>
    obtain ⟨hpc, rfl⟩ := Option.ite_some_none_eq_some.mp hstep
    exact h.start i hpc hadmits
  | reread i =>
    rw [mmpStep] at hstep
    split at hstep
    · rename_i hpc
      split_ifs at hstep
      cases hstep
      exact h.reread i hpc
    · cases hstep
  | writeSeq i seq =>
    rw [mmpStep] at hstep
    split at hstep
    · rename_i hpc
      split_ifs at hstep with hsmall
      cases hstep
      exact h.writeSeq i hpc hsmall hadmits
    · cases hstep
  | verify i =>
    rw [mmpStep] at hstep
    split at hstep
    · rename_i hpc
      split_ifs at hstep with hwake
      cases hstep
      exact h.verify i hdelay hpc hwake
    · cases hstep
  | claim i =>
    rw [mmpStep] at hstep
    split at hstep
    · rename_i hpc
      cases hstep
      exact h.writeHeld i (by rw [hpc]; trivial) (.inr ⟨rfl, rfl⟩)
    · cases hstep
  | update i immediately =>
    obtain ⟨hpc, rfl⟩ := Option.ite_some_none_eq_some.mp hstep
    exact h.update2 i hpc immediately
  | stop i =>
    obtain ⟨hpc, rfl⟩ := Option.ite_some_none_eq_some.mp hstep
    exact h.stop i hpc
  | halt i =>
    cases hstep
    exact h.setIdle i rfl

theorem MmpSafe.run [Fintype ν] (hdelay : delay < mmpSleep (mmpCheckInterval fs.updateInterval))
    (actions : List (MmpAction ν)) {st st' : MmpState ν} (h : MmpSafe fs delay st)
    (hrun : mmpRun fs delay st actions = some st') : MmpSafe fs delay st' := by
  induction actions generalizing st with
  | nil =>
    cases hrun
    exact h
  | cons action actions ih =>
    rw [mmpRun] at hrun
    split_ifs at hrun with hadmits
    obtain ⟨st₁, hstep, hrest⟩ := Option.bind_eq_some_iff.mp hrun
    exact ih (h.step hdelay action hadmits hstep) hrest

/-- What is wanted of a state: at most one node uses the filesystem, the block is as it has left it,
and nobody has found it changed. -/
structure MmpState.Exclusive (st : MmpState ν) : Prop where
  one : ∀ i j, (st.node i).pc = .inUse → (st.node j).pc = .inUse → i = j
  kept : ∀ i, (st.node i).pc = .inUse → st.disk = (st.node i).buf ∧ st.disk.seq = mmpSeqFsck

/-- **At most one node uses the filesystem**, in any state that any run reaches. -/
theorem mmp_exclusive [Fintype ν] (fs : MmpFs ν) {delay : ℕ}
    (hdelay : delay < mmpSleep (mmpCheckInterval fs.updateInterval)) {st : MmpState ν}
    (hfresh : st.Fresh) (actions : List (MmpAction ν)) {st' : MmpState ν}
    (hrun : mmpRun fs delay st actions = some st') : st'.Exclusive := by
  have h := (hfresh.safe fs delay).run hdelay actions hrun
  refine ⟨fun i j hi hj => ?_, fun i hi => (h.node i).inUse hi⟩
  by_contra hne
  have hpassive := (h.pair i j hne).exclusive (by rw [hi]; trivial)
  rw [hj] at hpassive
  exact hpassive

/-- Two nodes that find the block clean. -/
def mmpTwo : MmpState Bool :=
  ⟨100, ⟨mmpMagic, mmpSeqClean, 7, [], [], 5⟩, fun _ => ⟨.idle, ⟨0, 0, 0, [], [], 0⟩, 0, .ok⟩⟩

/-- Both nodes write their numbers, and the one that was first gives up. -/
def mmpTwoActions : List (MmpAction Bool) :=
  [.start true, .start false, .writeSeq true 8, .tick,
    .writeSeq false 9] ++ List.replicate 11 .tick ++
    [.verify true, .verify false, .claim false]

theorem mmp_exclusive_two :
    ∃ st', mmpRun ⟨5, fun _ => true, fun _ => [], fun _ => []⟩ 3 mmpTwo mmpTwoActions = some st' ∧
    st'.Exclusive := by
  obtain ⟨st', hrun⟩ :=
    Option.isSome_iff_exists.mp (show (mmpRun ⟨5, fun _ => true, fun _ => [], fun _ => []⟩ 3 mmpTwo
    mmpTwoActions).isSome = true by decide +kernel)
  exact ⟨st', hrun, @mmp_exclusive Bool _ _ _ 3 (by decide) mmpTwo (fun _ => rfl) _ st' hrun⟩

/-- **Two nodes use the filesystem** where one starts from the number of the other. It sees this
number unchanged just before the other takes the block, and then writes over it. -/
theorem mmp_race : (List.foldlM (mmpStep ⟨5, fun _ => true, fun _ => [], fun _ => []⟩) mmpTwo
    ([.start true, .writeSeq true 8, .start false] ++ List.replicate 11 .tick ++ [.verify true,
      .reread false, .claim true,
      .writeSeq false 9] ++ List.replicate 11 .tick ++ [.verify false, .claim false])).map
        (fun st => ((st.node true).pc, (st.node false).pc)) = some (.inUse, .inUse) := by
  decide +kernel

end Safety

end E2fsprogs
