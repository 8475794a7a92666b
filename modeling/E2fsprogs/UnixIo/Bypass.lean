import E2fsprogs.UnixIo.Reported

/-!
# Calls that bypass the cache

`unix_zeroout` and `unix_discard` change the device and leave the entries of the blocks they
change; so do the writes between `cache=off`, which writes the entries back but keeps them in
use, and `cache=on`. The entries stay right exactly where they agree with what has been written
past them (`E2fsprogs.UnixChannel.AgreesWith`).
-/

namespace E2fsprogs

/-- A call on a channel, or one that bypasses its cache. -/
inductive BypassOp
  | plain (op : UnixOp)
  | zeroout (block count : ℕ)
  | discard (block count : ℕ)
  | setCache (on : Bool)

/-- The call, and whether it succeeds. -/
def BypassOp.call (env : UnixEnv) (ch : UnixChannel) : BypassOp → Except UnixErr Unit × UnixChannel
  | plain op => op.call env ch
  | zeroout block count => unixZeroout env ch block count
  | discard block count => unixDiscard env ch block count
  | setCache on => unixSetCache env ch on

/-- What the call, when it succeeds, does to a plain array of bytes. -/
def BypassOp.apply (ch : UnixChannel) (A : Block) : BypassOp → Block
  | plain op => op.apply ch A
  | zeroout block count | discard block count =>
    memcpy A (ch.location block) zeroBlock (count * ch.blockSize)
  | setCache _ => A

/-- The entries in use hold the bytes of the array. -/
def UnixChannel.Holds (ch : UnixChannel) (A : Block) : Prop :=
  ∀ i, (ch.cache i).inUse = true →
    ∀ k < ch.blockSize, (ch.cache i).buf k = A (ch.location (ch.cache i).block + k)

/-- What a call returns: a read returns the bytes of the array, and a flush brings it to the
device. -/
def BypassOp.Answers (env : UnixEnv) (ch : UnixChannel) (A : Block) : BypassOp → Prop
  | plain (.read block count buf) => ∀ buf', (unixReadBlk64 env ch block count buf).1 = .ok buf' →
      ∀ k < transferSize ch.blockSize count, buf' k = A (ch.location block + k)
  | plain .flush => (unixFlush env ch).2.dev = A
  | _ => True

/-- **The cache stays coherent** along a run of calls. -/
def StaysCoherent (env : UnixEnv) : List BypassOp → UnixChannel → Block → Prop
  | [], ch, A => ch.Holds A
  | op :: ops, ch, A => ch.Holds A ∧ op.Answers env ch A ∧
      StaysCoherent env ops (op.call env ch).2 (op.apply ch A)

/-- The calls of the run succeed. -/
def AllSucceed (env : UnixEnv) : List BypassOp → UnixChannel → Prop
  | [], _ => True
  | op :: ops, ch => (op.call env ch).1 = .ok () ∧ AllSucceed env ops (op.call env ch).2

/-- What a call has to find in the cache: the entries in use agree with what is written past
them, and a write-through write evicts no dirty entry of its own blocks. -/
def BypassOp.Safe (env : UnixEnv) (ch : UnixChannel) : BypassOp → Prop
  | plain (.write wt block count buf) => WriteSafe env wt ch block count buf
  | plain _ => True
  | zeroout block count | discard block count =>
    ch.AgreesWith (ch.location block) zeroBlock (count * ch.blockSize)
  | setCache _ => True

/-- Every call of the run finds what it has to find in the cache. -/
def RunSafe (env : UnixEnv) : List BypassOp → UnixChannel → Prop
  | [], _ => True
  | op :: ops, ch => op.Safe env ch ∧ RunSafe env ops (op.call env ch).2

section Bypass

variable {env : UnixEnv} {ch ch' : UnixChannel} {A : Block}

theorem Stands.holds (h : Stands ch A) : ch.Holds A := fun i hi => h.coherent.cached i hi (by omega)

theorem zeroRange_ok {block count : ℕ} {u : Unit}
    (h : zeroRange env ch block count = (.ok u, ch')) :
    SameCache ch ch' ∧ ch'.dev = memcpy ch.dev (ch.location block) zeroBlock
      (count * ch.blockSize) := by
  simp only [zeroRange] at h
  split_ifs at h
  · cases h
  · cases h
    exact ⟨⟨rfl, rfl, rfl, rfl, rfl⟩, rfl⟩

theorem zeroRange_stands (h : Stands ch A) {block count : ℕ} {u : Unit}
    (hagree : ch.AgreesWith (ch.location block) zeroBlock (count * ch.blockSize))
    (hzero : zeroRange env ch block count = (.ok u, ch')) :
    Stands ch' (memcpy A (ch.location block) zeroBlock (count * ch.blockSize)) := by
  obtain ⟨hs, hdev⟩ := zeroRange_ok hzero
  refine ⟨h.coherent.bypass hagree hs hdev, fun hn => ?_⟩
  rw [hs.cache]
  exact h.clean (hs.noCache ▸ hn)

theorem unixSetCache_ok (h : Stands ch A) {on : Bool} {u : Unit}
    (hset : unixSetCache env ch on = (.ok u, ch')) : Stands ch' A := by
  cases on with
  | true =>
    cases hset
    exact ⟨⟨h.coherent.distinct, h.coherent.cached, h.coherent.device⟩, Bool.noConfusion⟩
  | false =>
    simp only [unixSetCache, Bool.false_eq_true, if_false] at hset
    rcases hf : flushCachedBlocks env false ch with ⟨_ | _, ch₁⟩ <;> rw [hf] at hset
    · cases hset
    · cases hset
      obtain ⟨h₁, -, -, hclean, -⟩ := flushCachedBlocks_true h.coherent hf
      exact ⟨⟨h₁.distinct, h₁.cached, h₁.device⟩, fun _ => hclean⟩

/-- **One call that succeeds.** -/
theorem BypassOp.call_ok (henv : EvictsWell env) (h : Stands ch A) {op : BypassOp}
    (hsafe : op.Safe env ch) {u : Unit} (hcall : op.call env ch = (.ok u, ch')) :
    Stands ch' (op.apply ch A) := by
  cases op with
  | plain op =>
    cases op with
    | read block count buf =>
      obtain ⟨buf', hread⟩ := UnixOp.call_read hcall
      exact (unixReadBlk64_ok henv h hread).1
    | write wt block count buf => exact (unixWriteBlk64_ok henv h hsafe hcall).1
    | writeByte offset size buf => exact (unixWriteByte_ok h hcall).1
    | setBlksize blksize => exact (unixSetBlksize_ok h hcall).1
    | flush => exact (unixFlush_ok h hcall).1
  | zeroout block count =>
    have hzero : unixZeroout env ch block count = (.ok u, ch') := hcall
    rw [unixZeroout] at hzero
    split_ifs at hzero
    · cases hzero
    · exact zeroRange_stands h hsafe hzero
  | discard block count => exact zeroRange_stands h hsafe hcall
  | setCache on => exact unixSetCache_ok h hcall

theorem BypassOp.answers (henv : EvictsWell env) (h : Stands ch A) {op : BypassOp}
    (hok : (op.call env ch).1 = .ok ()) : op.Answers env ch A := by
  cases op with
  | plain op =>
    cases op with
    | read block count buf =>
      intro buf' hbuf k hk
      obtain ⟨-, -, hread⟩ := unixReadBlk64_ok henv h (Prod.ext hbuf rfl)
      rw [hread, memcpy_block _ _ _ _ hk]
      rfl
    | flush => exact (unixFlush_ok h (Prod.ext hok rfl)).2.2
    | write | writeByte | setBlksize => trivial
  | zeroout | discard | setCache => trivial

theorem staysCoherent (henv : EvictsWell env) (ops : List BypassOp) :
    ∀ {ch : UnixChannel} {A : Block}, Stands ch A → AllSucceed env ops ch → RunSafe env ops ch →
      StaysCoherent env ops ch A := by
  induction ops with
  | nil => exact fun h _ _ => h.holds
  | cons op ops ih =>
    rintro ch A h ⟨hok, hoks⟩ ⟨hsafe, hrest⟩
    exact ⟨h.holds, BypassOp.answers henv h hok,
      ih (BypassOp.call_ok henv h hsafe (Prod.ext hok rfl)) hoks hrest⟩

/-- **Calls that bypass the cache leave it coherent** as long as the entries in use agree with what
is written past them: then every entry holds the bytes of its block after every call, every read
returns them, and a flush writes nothing older over them. -/
theorem unixRun_staysCoherent (henv : EvictsWell env) (hopen : ∀ i, (ch.cache i).inUse = false)
    (ops : List BypassOp) (hok : AllSucceed env ops ch) (hsafe : RunSafe env ops ch) :
    StaysCoherent env ops ch ch.dev :=
  staysCoherent henv ops (stands_opened hopen) hok hsafe

/-- The channel with a cached block of zeroes. -/
def zeroedChannel : UnixChannel :=
  ((BypassOp.plain (.write false 3 1 zeroBlock)).call calmUnix openedChannel).2

/-- A block of zeroes is cached and then zeroed, and its first bytes are written as they are
with the cache switched off. -/
theorem unixRun_staysCoherent_opened :
    StaysCoherent calmUnix [.plain (.write false 3 1 zeroBlock), .zeroout 3 2, .setCache false,
      .plain (.write false 3 (-7) zeroBlock), .setCache true, .plain (.read 3 1 zeroBlock)]
      openedChannel openedChannel.dev := by
  have hcached : ∀ i k, (zeroedChannel.cache i).buf k = 0 := by
    intro i k
    fin_cases i
    · exact ite_self _
    all_goals rfl
  have hflushed : ∀ i k, (((BypassOp.setCache false).call calmUnix
      ((BypassOp.zeroout 3 2).call calmUnix zeroedChannel).2).2.cache i).buf k = 0 := by
    intro i k
    fin_cases i
    · exact ite_self _
    all_goals rfl
  exact unixRun_staysCoherent (fun _ => rfl) (fun _ => rfl) _
    ⟨rfl, rfl, rfl, rfl, rfl, rfl, trivial⟩
    ⟨⟨Bool.noConfusion, Bool.noConfusion⟩, fun i _ k _ _ _ => hcached i k, trivial,
      ⟨fun _ i _ k _ _ _ => hflushed i k, Bool.noConfusion⟩, trivial, trivial, trivial⟩

/-- A block is written and then zeroed: the read returns the block that was written. And a block
is written, and written again with the cache switched off: when it is on again, the read returns
the first block. -/
theorem cachedBlock_not_staysCoherent :
    (AllSucceed calmUnix [.plain (.write false 3 1 (filledBlock 1)), .zeroout 3 1,
        .plain (.read 3 1 zeroBlock)] openedChannel ∧
      ¬StaysCoherent calmUnix [.plain (.write false 3 1 (filledBlock 1)), .zeroout 3 1,
        .plain (.read 3 1 zeroBlock)] openedChannel openedChannel.dev) ∧
    AllSucceed calmUnix [.plain (.write false 3 1 (filledBlock 1)), .setCache false,
        .plain (.write false 3 1 (filledBlock 2)), .setCache true, .plain (.read 3 1 zeroBlock)]
        openedChannel ∧
      ¬StaysCoherent calmUnix [.plain (.write false 3 1 (filledBlock 1)), .setCache false,
        .plain (.write false 3 1 (filledBlock 2)), .setCache true, .plain (.read 3 1 zeroBlock)]
        openedChannel openedChannel.dev := by
  refine ⟨⟨⟨rfl, rfl, rfl, trivial⟩, ?_⟩, ⟨rfl, rfl, rfl, rfl, rfl, trivial⟩, ?_⟩
  · rintro ⟨-, -, -, -, -, h, -⟩
    exact absurd (h _ rfl 0 (by decide)) (by decide +kernel)
  · rintro ⟨-, -, -, -, -, -, -, -, -, h, -⟩
    exact absurd (h _ rfl 0 (by decide)) (by decide +kernel)

end Bypass

end E2fsprogs
