import E2fsprogs.Lib.Bytes

/-!
# Punching a block-mapped file

`ind_punch` and `ext2fs_punch_ind` of `lib/ext2fs/punch.c`. The blocks of a file are found
through twelve direct pointers and one single, one double and one triple indirect pointer.
A pointer of level `k + 1` is a hole or the number of an indirect block together with the
pointers of level `k` it holds: the indirect blocks of a file form a tree, read and written
through one buffer per level.

Numbers are natural numbers, and where the code subtracts 64-bit numbers it may wrap
around, so does the model (`E2fsprogs.blkSub`).
-/

namespace E2fsprogs

/-- A pointer of level `k`: a block number, zero for a hole, or an indirect block with its
number and its pointers. -/
def IndPtr : ℕ → Type
  | 0 => ℕ
  | k + 1 => Option (ℕ × List (IndPtr k))

/-- The pointer is zero. -/
def IndPtr.isHole : (k : ℕ) → IndPtr k → Bool
  | 0, b => Nat.beq b 0
  | _ + 1, p => p.isNone

/-- What punching finds outside the file. -/
structure PunchEnv where
  /-- Whether `ext2fs_read_ind_block` succeeds for a block. -/
  readOk : ℕ → Bool
  /-- Whether `ext2fs_write_ind_block` succeeds for a block. -/
  writeOk : ℕ → Bool
  /-- `ext2fs_iblk_sub_blocks`: the new `i_blocks` for a number of freed blocks. -/
  iblkSubBlocks : ℕ → ℕ → Option ℕ

/-- What punching changes besides the pointers: the blocks given back by
`ext2fs_block_alloc_stats` and `i_blocks`. -/
structure PunchState where
  freed : List ℕ
  iblocks : ℕ

/-- `ext2fs_block_alloc_stats (fs, b, -1)`. -/
def PunchState.free (st : PunchState) (b : ℕ) : PunchState := { st with freed := b :: st.freed }

/-- The difference of two block counts, 64-bit numbers. -/
def blkSub (a b : ℕ) : ℕ := if b ≤ a then a - b else 2 ^ 64 - (b - a)

section Walk

variable {α : Type}

/-- The loop of `ind_punch` over an array of pointers, with what it does to a pointer that is
neither a hole nor before the range. The result has the pointers and how many became zero. -/
def punchEntries (incr start stop : ℕ) (isHole : α → Bool)
    (punchEntry : ℕ → α → PunchState → Option (α × Bool × PunchState)) :
    List α → ℕ → PunchState → Option (List α × ℕ × PunchState)
  | [], _, st => some ([], 0, st)
  | p :: ps, offset, st =>
    if stop ≤ offset then some (p :: ps, 0, st)
    else if isHole p ∨ offset + incr ≤ start then
      (punchEntries incr start stop isHole punchEntry ps (offset + incr) st).map
        fun r => (p :: r.1, r.2.1, r.2.2)
    else
      (punchEntry offset p st).bind fun q =>
        (punchEntries incr start stop isHole punchEntry ps (offset + incr) q.2.2).map
          fun r => (q.1 :: r.1, r.2.1 + q.2.1.toNat, r.2.2)

end Walk

/-- `ind_punch`, on an array of pointers of level `k`. -/
def indPunch (env : PunchEnv) (addrPerBlock : ℕ) :
    (k : ℕ) → ℕ → ℕ → List (IndPtr k) → PunchState → Option (List (IndPtr k) × PunchState)
  | 0, start, count, ps, st =>
    (punchEntries 1 start ((start + count) % 2 ^ 64) (IndPtr.isHole 0)
      (fun _ b st => some ((0 : ℕ), true, st.free b)) ps 0 st).bind fun r =>
      (env.iblkSubBlocks r.2.2.iblocks r.2.1).map fun iblocks =>
        (r.1, { r.2.2 with iblocks := iblocks })
  | k + 1, start, count, ps, st =>
    (punchEntries (addrPerBlock ^ (k + 1)) start ((start + count) % 2 ^ 64) (IndPtr.isHole (k + 1))
      (fun offset (p : Option (ℕ × List (IndPtr k))) st =>
        match p with
        | none => some (none, false, st)
        | some (b, qs) =>
          if env.readOk b then
            (indPunch env addrPerBlock k ((start - offset) % 2 ^ 32)
              (blkSub count offset) qs st).bind
              fun r =>
                if env.writeOk b then
                  if r.1.all (IndPtr.isHole k) then some (none, true, r.2.free b)
                  else some (some (b, r.1), false, r.2)
                else none
          else none)
      ps 0 st).bind fun r =>
      (env.iblkSubBlocks r.2.2.iblocks r.2.1).map fun iblocks =>
        (r.1, { r.2.2 with iblocks := iblocks })

/-- The pointers of `i_block`. -/
structure BlockMapped where
  direct : List (IndPtr 0)
  ind : IndPtr 1
  dind : IndPtr 2
  tind : IndPtr 3

/-- The pointers of one level punched, when the range begins below the end of the level. -/
def punchLevel (env : PunchEnv) (addrPerBlock k max start count : ℕ) (ps : List (IndPtr k))
    (st : PunchState) : Option (List (IndPtr k) × PunchState) :=
  if start < max then indPunch env addrPerBlock k start count ps st else some (ps, st)

/-- How the main loop goes on after a level: with another `start` and `count`, or not. -/
def afterLevel (max start count : ℕ) : Option (ℕ × ℕ) :=
  if start < max then if max < count then some (0, count - (max - start)) else none
  else some (start - max, count)

/-- The main loop of `ext2fs_punch_ind`, for the triple indirect pointer. -/
def punchTind (env : PunchEnv) (addrPerBlock start count : ℕ) (file : BlockMapped)
    (st : PunchState) :
    Option (BlockMapped × PunchState) :=
  (punchLevel env addrPerBlock 3 (addrPerBlock ^ 3) start count [file.tind] st).bind fun r =>
    r.1.head?.map fun p => ({ file with tind := p }, r.2)

/-- The main loop, from the double indirect pointer on. -/
def punchDind (env : PunchEnv) (addrPerBlock start count : ℕ) (file : BlockMapped)
    (st : PunchState) :
    Option (BlockMapped × PunchState) :=
  (punchLevel env addrPerBlock 2 (addrPerBlock ^ 2) start count [file.dind] st).bind fun r =>
    r.1.head?.bind fun p =>
      match afterLevel (addrPerBlock ^ 2) start count with
      | none => some ({ file with dind := p }, r.2)
      | some (start, count) => punchTind env addrPerBlock start count { file with dind := p } r.2

/-- The main loop, from the single indirect pointer on. -/
def punchInd (env : PunchEnv) (addrPerBlock start count : ℕ) (file : BlockMapped)
    (st : PunchState) :
    Option (BlockMapped × PunchState) :=
  (punchLevel env addrPerBlock 1 addrPerBlock start count [file.ind] st).bind fun r =>
    r.1.head?.bind fun p =>
      match afterLevel addrPerBlock start count with
      | none => some ({ file with ind := p }, r.2)
      | some (start, count) => punchDind env addrPerBlock start count { file with ind := p } r.2

/-- `EXT2_NDIR_BLOCKS`. -/
def ndirBlocks : ℕ := 12

/-- The main loop of `ext2fs_punch_ind`. -/
def punchDirect (env : PunchEnv) (addrPerBlock start count : ℕ) (file : BlockMapped)
    (st : PunchState) : Option (BlockMapped × PunchState) :=
  (punchLevel env addrPerBlock 0 ndirBlocks start count file.direct st).bind fun r =>
    match afterLevel ndirBlocks start count with
    | none => some ({ file with direct := r.1 }, r.2)
    | some (start, count) => punchInd env addrPerBlock start count { file with direct := r.1 } r.2

/-- `BLK_T_MAX`. -/
def blkTMax : ℕ := 2 ^ 32 - 1

/-- `ext2fs_punch_ind`. -/
def ext2fsPunchInd (env : PunchEnv) (blocksize start last : ℕ) (file : BlockMapped)
    (st : PunchState) : Option (BlockMapped × PunchState) :=
  if blkTMax < start then some (file, st)
  else
    let count :=
      if blkTMax ≤ last ∨ blkTMax ≤ last - start + 1 then blkTMax - start else last - start + 1
    punchDirect env (blocksize / 4) start count file st

/-! ### The map of a file -/

/-- The physical block of a logical block below a pointer, zero for a hole. -/
def IndPtr.lookup (addrPerBlock : ℕ) : (k : ℕ) → IndPtr k → ℕ → ℕ
  | 0, b, _ => b
  | _ + 1, none, _ => 0
  | k + 1, some (_, ps), l =>
    match ps[l / addrPerBlock ^ k]? with
    | some p => IndPtr.lookup addrPerBlock k p (l % addrPerBlock ^ k)
    | none => 0

/-- The physical block of a logical block below an array of pointers. -/
def lookupEntries (addrPerBlock k : ℕ) (ps : List (IndPtr k)) (l : ℕ) : ℕ :=
  match ps[l / addrPerBlock ^ k]? with
  | some p => IndPtr.lookup addrPerBlock k p (l % addrPerBlock ^ k)
  | none => 0

/-- The physical block of a logical block of a file, zero for a hole. -/
def BlockMapped.lookup (addrPerBlock : ℕ) (file : BlockMapped) (l : ℕ) : ℕ :=
  if l < ndirBlocks then lookupEntries addrPerBlock 0 file.direct l
  else if l < ndirBlocks + addrPerBlock then
    lookupEntries addrPerBlock 1 [file.ind] (l - ndirBlocks)
  else if l < ndirBlocks + addrPerBlock + addrPerBlock ^ 2 then
    lookupEntries addrPerBlock 2 [file.dind] (l - (ndirBlocks + addrPerBlock))
  else if l < ndirBlocks + addrPerBlock + addrPerBlock ^ 2 + addrPerBlock ^ 3 then
    lookupEntries addrPerBlock 3 [file.tind] (l - (ndirBlocks + addrPerBlock + addrPerBlock ^ 2))
  else 0

end E2fsprogs
