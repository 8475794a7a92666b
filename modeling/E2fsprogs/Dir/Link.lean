import E2fsprogs.Dir.Block

/-!
# Linking and unlinking a name

The functions `ext2fs_link` and `ext2fs_unlink` call on the entries of a directory:
`link_proc` of `lib/ext2fs/link.c` and `unlink_proc` of `lib/ext2fs/unlink.c`.
-/

namespace E2fsprogs

/-- `struct link_struct` of `link.c`, as `link_proc` uses it. -/
structure LinkStruct where
  name : List UInt8
  inode : ℕ
  flags : ℕ
  done : Bool
  /-- `ext2fs_set_rec_len` has failed. -/
  err : Bool

/-- The block with the record after the one at `offset` absorbed into it, where that is unused;
`none` when the new record length is refused. -/
def absorbNext (fs : DirFs) (blocksize : ℕ) (b : Block) (offset : ℕ) : Bool × Option Block :=
  let next := offset + recLen fs b offset
  if next < blocksize - (8 + csumSize fs) ∧ dInode b next = 0 ∧
    next + dRecLen b next ≤ blocksize then
    (true, setRecLen fs (recLen fs b offset + dRecLen b next) b offset)
  else (false, some b)

/-- The record of a used entry cut to its length, with an unused entry made of the rest. -/
def splitRecord (fs : DirFs) (b : Block) (offset currRecLen minRecLen : ℕ) : Option Block :=
  (setRecLen fs minRecLen b offset).bind fun b =>
    let next := offset + dRecLen b offset
    let b := putLe b next 4 0
    let b := direntSetNameLen b next 0
    let b := direntSetFileType b next 0
    setRecLen fs (currRecLen - minRecLen) b next

/-- The new entry stored in the record at `offset`. -/
def fillEntry (fs : DirFs) (ls : LinkStruct) (b : Block) (offset : ℕ) : Block :=
  let b := putLe b offset 4 ls.inode
  let b := direntSetNameLen b offset ls.name.length
  let b := putBytes b (offset + 8) ls.name
  if fs.filetype then direntSetFileType b offset (ls.flags % 8) else b

/-- `link_proc`. -/
def linkProc (fs : DirFs) (blocksize : ℕ) : DirFunc LinkStruct := fun _ offset b ls =>
  if ls.done then (⟨false, true⟩, b, ls)
  else
    match absorbNext fs blocksize b offset with
    | (_, none) => (⟨false, true⟩, b, { ls with err := true })
    | (changed, some b') =>
      let currRecLen := if changed then recLen fs b offset + dRecLen b (offset + recLen fs b offset)
        else recLen fs b offset
      if dInode b' offset ≠ 0 then
        let minRecLen := dirRecLen (direntNameLen b' offset)
        if currRecLen < minRecLen + dirRecLen ls.name.length then (⟨changed, false⟩, b', ls)
        else
          match splitRecord fs b' offset currRecLen minRecLen with
          | none => (⟨false, true⟩, b', { ls with err := true })
          | some b'' => (⟨true, false⟩, b'', ls)
      else if currRecLen < dirRecLen ls.name.length then (⟨changed, false⟩, b', ls)
      else (⟨true, true⟩, fillEntry fs ls b' offset, { ls with done := true })

/-- `struct link_struct` of `unlink.c`. -/
structure UnlinkStruct where
  name : Option (List UInt8)
  inode : ℕ
  /-- `EXT2FS_UNLINK_FORCE` is among the flags. -/
  force : Bool
  prev : ℕ
  done : Bool

/-- The entry is one `unlink_proc` removes. -/
def UnlinkStruct.Matches (ls : UnlinkStruct) (b : Block) (d : ℕ) : Prop :=
  (∀ name ∈ ls.name, direntNameLen b d = name.length ∧ direntName b d = name) ∧
    if ls.force = false ∧ ls.inode ≠ 0 then dInode b d = ls.inode else dInode b d ≠ 0

instance (ls : UnlinkStruct) (b : Block) (d : ℕ) : Decidable (ls.Matches b d) :=
  inferInstanceAs (Decidable (_ ∧ _))

/-- `unlink_proc`. The record of a removed entry goes to the entry before it, in 16-bit
arithmetic; the first entry of a block stays and becomes unused. -/
def unlinkProc : DirFunc UnlinkStruct := fun _ offset b ls =>
  let prev := ls.prev
  let ls := { ls with prev := offset }
  if ls.Matches b offset then
    (⟨true, true⟩,
      if offset ≠ 0 then putLe b (prev + 4) 2 ((dRecLen b prev + dRecLen b offset) % 2 ^ 16)
      else putLe b offset 4 0,
      { ls with done := true })
  else (⟨false, false⟩, b, ls)

end E2fsprogs
