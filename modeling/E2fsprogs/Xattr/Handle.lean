import E2fsprogs.Xattr.Read

/-!
# Setting and removing extended attributes

The handle keeps all attributes of an inode in one array, those of the inode body in front
and those of the EA block behind. `ext2fs_xattr_set` finds the attribute of the name, or
none, looks where there is room, and changes the array: an attribute may be changed in place,
moved to the end of the body, moved into the block, or added to either.

What is done outside the array is a parameter (`E2fsprogs.XattrOps`): allocations, reading
the inode, the inodes of large values, and `ext2fs_xattrs_write`.

Names are strings of C: what comes behind a null byte does not count.
-/

namespace E2fsprogs

/-- `struct ext2_xattr_handle`. -/
structure XattrHandle where
  attrs : List Xattr
  capacity : ℕ
  ibodyCount : ℕ
  ino : ℕ
  /-- `XATTR_HANDLE_FLAG_RAW` -/
  raw : Bool
  deriving Repr

/-- What keeps an attribute from being set. -/
inductive XattrSetErr
  | noMemory
  | enomem
  | einval
  | eaNoSpace
  | filesystemCorrupted
  /-- An error of one of the operations outside. -/
  | failed (err : ℕ)
  deriving DecidableEq, Repr

/-- What changing attributes does outside the handle, to a state of type `W`. -/
structure XattrOps (W : Type) where
  /-- Whether an allocation of that many bytes succeeds. -/
  getMem : ℕ → W → Bool × W
  /-- `i_extra_isize` of the inode, from `ext2fs_read_inode_full`. -/
  readExtraIsize : ℕ → W → Except ℕ ℕ × W
  /-- `xattr_create_ea_inode` -/
  createEaInode : List UInt8 → W → Except ℕ ℕ × W
  /-- `xattr_inode_dec_ref` -/
  inodeDecRef : ℕ → W → Except ℕ Unit × W
  /-- `ext2fs_xattrs_write` -/
  xattrsWrite : XattrHandle → W → Except ℕ Unit × W
  inodeSize : ℕ
  /-- `s_want_extra_isize` -/
  wantExtraIsize : ℕ
  blocksize : ℕ
  /-- The `ea_inode` feature. -/
  eaInode : Bool

/-! ### Names -/

/-- The string at a place in memory. -/
def cstr (s : List UInt8) : List UInt8 := s.takeWhile (· ≠ 0)

/-- `memcmp`, of as many bytes as both have. -/
def memcmp : List UInt8 → List UInt8 → ℤ
  | a :: as, b :: bs => if a = b then memcmp as bs else (a.toNat : ℤ) - b.toNat
  | _, _ => 0

/-- `xattr_find_position` -/
def xattrFindPosition (shortname : List UInt8) (nameIdx : ℕ) : List Xattr → ℕ
  | [] => 0
  | x :: attrs =>
    if nameIdx < x.nameIndex then 0
    else if x.nameIndex < nameIdx then xattrFindPosition shortname nameIdx attrs + 1
    else if shortname.length < (cstr x.shortName).length then 0
    else if (cstr x.shortName).length < shortname.length then
      xattrFindPosition shortname nameIdx attrs + 1
    else if memcmp shortname (cstr x.shortName) ≤ 0 then 0
    else xattrFindPosition shortname nameIdx attrs + 1

/-! ### Access control lists -/

/-- The entries of an access control list as they are on disk: only those of a user and of
a group have an id. -/
def aclEntriesToDisk : List UInt8 → Except XattrSetErr (List UInt8)
  | t0 :: t1 :: p0 :: p1 :: i0 :: i1 :: i2 :: i3 :: rest => do
    let tag := t0.toNat + 2 ^ 8 * t1.toNat
    let entry ← if tag = 0x01 ∨ tag = 0x04 ∨ tag = 0x10 ∨ tag = 0x20 then .ok [t0, t1, p0, p1]
      else if tag = 0x02 ∨ tag = 0x08 then .ok [t0, t1, p0, p1, i0, i1, i2, i3]
      else .error .einval
    let entries ← aclEntriesToDisk rest
    .ok (entry ++ entries)
  | _ => .ok []

/-- An `int` that is given an unsigned value. -/
def toCInt (n : ℕ) : ℤ := Int.bmod n (2 ^ 32)

/-- `posix_acl_xattr_count`, which is an `int`. -/
def posixAclXattrCount (size : ℕ) : ℤ :=
  if size < 4 then -1
  else if (size - 4) % 8 ≠ 0 then -1
  else toCInt ((size - 4) / 8)

/-- `convert_posix_acl_to_disk_buffer` -/
def convertPosixAclToDiskBuffer (value : List UInt8) : Except XattrSetErr (List UInt8) :=
  let count := posixAclXattrCount value.length
  if value.length < 4 then .error .enomem
  else if value.take 4 ≠ [2, 0, 0, 0] then .error .einval
  else if count ≤ 0 then .error .einval
  else do
    let entries ← aclEntriesToDisk ((value.drop 4).take (8 * count.toNat))
    .ok ([1, 0, 0, 0] ++ entries)

/-! ### Changing the array -/

/-- A change of the handle and of the state outside, which may fail on the way. -/
abbrev XattrM (W : Type) := ExceptT XattrSetErr (StateM (XattrHandle × W))

/-- `space_used` -/
def spaceUsed (attrs : List Xattr) : ℕ :=
  (attrs.map fun x => eaLen (cstr x.shortName).length + if x.eaIno = 0 then eaSize x.valueLen
    else 0).sum

/-- The room an attribute gives back when it is changed: its name is as long as the new
one. -/
def spaceOf (nameLen : ℕ) (x : Xattr) : ℕ :=
  eaLen nameLen + if x.eaIno = 0 then eaSize x.valueLen else 0

/-- The room an attribute needs, with its value unless that goes to an inode. -/
def neededSize (nameLen valueLen : ℕ) (inInode : Bool) : ℤ :=
  toCInt (eaLen nameLen + if inInode then 0 else eaSize valueLen)

/-- `EXT4_XATTR_MIN_LARGE_EA_SIZE` -/
def minLargeEaSize (b : ℕ) : ℕ := b - eaLen 3 - 32 - 4

namespace XattrHandle

/-- A new attribute at the end of the body. -/
def addToBody (h : XattrHandle) (x : Xattr) : XattrHandle :=
  { h with attrs := h.attrs.insertIdx h.ibodyCount x, ibodyCount := h.ibodyCount + 1 }

/-- The place of a name among the attributes of the block. -/
def blockPosition (h : XattrHandle) (name : List UInt8) : ℕ :=
  xattrFindPosition (findEaIndex name).2 (findEaIndex name).1 (h.attrs.drop h.ibodyCount)

/-- A new attribute at its place in the block. -/
def addToBlock (h : XattrHandle) (name : List UInt8) (x : Xattr) : XattrHandle :=
  { h with attrs := h.attrs.insertIdx (h.blockPosition name + h.ibodyCount) x }

/-- An attribute is moved from the block to the end of the body. -/
def moveToBody (h : XattrHandle) (oldIdx : ℕ) (x : Xattr) : XattrHandle :=
  { h with
    attrs := (h.attrs.eraseIdx oldIdx).insertIdx h.ibodyCount x
    ibodyCount := h.ibodyCount + 1 }

/-- An attribute is moved from the body to its place in the block. -/
def moveToBlock (h : XattrHandle) (name : List UInt8) (oldIdx : ℕ) (x : Xattr) : XattrHandle :=
  { h with
    attrs := (h.attrs.eraseIdx oldIdx).insertIdx (h.blockPosition name + h.ibodyCount - 1) x
    ibodyCount := h.ibodyCount - 1 }

/-- An attribute is changed in place. -/
def replaceAt (h : XattrHandle) (oldIdx : ℕ) (x : Xattr) : XattrHandle :=
  { h with attrs := h.attrs.set oldIdx x }

/-- An attribute is removed. -/
def removeAt (h : XattrHandle) (i : ℕ) : XattrHandle :=
  { h with
    attrs := h.attrs.eraseIdx i
    ibodyCount := if i < h.ibodyCount then h.ibodyCount - 1 else h.ibodyCount }

end XattrHandle

section Ops

variable {W : Type} (ops : XattrOps W)

/-- An operation outside the handle. -/
def liftOp {α : Type} (f : W → Except ℕ α × W) : XattrM W α := fun s =>
  match f s.2 with
  | (.ok a, w) => (.ok a, s.1, w)
  | (.error err, w) => (.error (.failed err), s.1, w)

/-- A step that is only taken under a condition. -/
def onlyIf (p : Prop) [Decidable p] (f : XattrM W Unit) : XattrM W Unit := if p then f else pure ()

/-- `ext2fs_get_mem` -/
def getMem (n : ℕ) : XattrM W Unit := fun s =>
  match ops.getMem n s.2 with
  | (true, w) => (.ok (), s.1, w)
  | (false, w) => (.error .noMemory, s.1, w)

/-- A result. -/
def liftResult {α : Type} (r : Except XattrSetErr α) : XattrM W α := fun s => (r, s)

/-- The handle. -/
def getHandle : XattrM W XattrHandle := fun s => (.ok s.1, s)

/-- The handle is changed. -/
def setHandle (h : XattrHandle) : XattrM W Unit := fun s => (.ok (), h, s.2)

/-- `xattr_inode_dec_ref`, whatever it returns. -/
def tryDecRef (eaIno : ℕ) : XattrM W Unit := fun s => (.ok (), s.1, (ops.inodeDecRef eaIno s.2).2)

/-- The inode of the old value is given up, and with it that of the new one if this fails. -/
def dropEaInode (old new : ℕ) : XattrM W Unit :=
  if old = 0 then pure ()
  else
    try liftOp (ops.inodeDecRef old)
    catch err =>
      onlyIf (new ≠ 0) (tryDecRef ops new)
      throw err

/-- The inode of a large value. -/
def newEaInode (value : List UInt8) (inInode : Bool) : XattrM W ℕ :=
  if inInode then liftOp (ops.createEaInode value) else pure 0

/-- `xattr_update_entry`. A name that is there is kept, with its short name. -/
def xattrUpdateEntry (x : Option Xattr) (name value : List UInt8) (inInode : Bool) :
    XattrM W Xattr := do
  onlyIf (x = none) (getMem ops (name.length + 1))
  getMem ops value.length
  let eaIno ← newEaInode ops value inInode
  dropEaInode ops ((x.map Xattr.eaIno).getD 0) eaIno
  pure {
    nameIndex := (findEaIndex name).1
    name := (x.map Xattr.name).getD name
    shortName := (x.map Xattr.shortName).getD (findEaIndex name).2
    value := value
    valueLen := value.length % 2 ^ 32
    eaIno := eaIno }

/-- The entry is made, and put in its place. -/
def updateAt (x : Option Xattr) (name value : List UInt8) (inInode : Bool)
    (place : XattrHandle → Xattr → XattrHandle) : XattrM W Unit := do
  let x ← xattrUpdateEntry ops x name value inInode
  let h ← getHandle
  setHandle (place h x)

/-- `ext2fs_xattrs_expand` when the array is full. -/
def expandArray : XattrM W Unit := do
  let h ← getHandle
  onlyIf (h.attrs.length = h.capacity) do
    getMem ops ((h.capacity + 4) * 48)
    setHandle { h with capacity := h.capacity + 4 }

/-- The part of `xattr_array_update` at `add_new`. -/
def addNew (name value : List UInt8) (inInode : Bool) (place : XattrHandle → Xattr → XattrHandle) :
    XattrM W Unit := do
  expandArray ops
  updateAt ops none name value inInode place

/-- `xattr_array_update`, with the index of the attribute if there is one, and itself. -/
def xattrArrayUpdate (name value : List UInt8) (ibodyFree blockFree : ℤ) (old : Option (ℕ × Xattr))
    (inInode : Bool) : XattrM W Unit := do
  let h ← getHandle
  let nameLen := (findEaIndex name).2.length
  let needed := neededSize nameLen value.length inInode
  match old with
  | none =>
    if needed ≤ ibodyFree then addNew ops name value inInode XattrHandle.addToBody
    else if blockFree < needed then throw .eaNoSpace
    else addNew ops name value inInode fun h => h.addToBlock name
  | some (oldIdx, x) =>
    let ibodyFree := if oldIdx < h.ibodyCount then ibodyFree + spaceOf nameLen x else ibodyFree
    let blockFree := if h.ibodyCount ≤ oldIdx then blockFree + spaceOf nameLen x else blockFree
    if needed ≤ ibodyFree then
      updateAt ops (some x) name value inInode fun h x =>
        if h.ibodyCount ≤ oldIdx then h.moveToBody oldIdx x else h.replaceAt oldIdx x
    else if blockFree < needed then throw .eaNoSpace
    else
      updateAt ops (some x) name value inInode fun h x =>
        if oldIdx < h.ibodyCount then h.moveToBlock name oldIdx x else h.replaceAt oldIdx x

/-! ### The two calls -/

/-- The attribute of a name, with its index: the first one in the array. -/
def findAttr (attrs : List Xattr) (name : List UInt8) : Option (ℕ × Xattr) :=
  match attrs.findIdx? fun x => cstr x.name = name with
  | none => none
  | some i => attrs[i]?.map fun x => (i, x)

/-- The value is the one that the attribute has. -/
def SameValue (value : List UInt8) (x : Xattr) : Prop :=
  x.eaIno = 0 ∧ x.valueLen = value.length ∧ x.value.take value.length = value

instance (value : List UInt8) (x : Xattr) : Decidable (SameValue value x) :=
  inferInstanceAs (Decidable (_ ∧ _))

/-- The room in the inode body. -/
def ibodyRoom (h : XattrHandle) : XattrM W ℤ := do
  let extraIsize ← liftOp (ops.readExtraIsize h.ino)
  let extraIsize := if extraIsize ≠ 0 then extraIsize
    else if ops.wantExtraIsize ≠ 0 then ops.wantExtraIsize else 4
  pure (if 128 < ops.inodeSize then
    ops.inodeSize - 128 - extraIsize - 8 - spaceUsed (h.attrs.take h.ibodyCount) else 0)

/-- The value as it is stored: an access control list has another format on disk. -/
def valueToDisk (h : XattrHandle) (name value : List UInt8) : Except XattrSetErr (List UInt8) :=
  if h.raw = false ∧ (name = asciiBytes "system.posix_acl_default" ∨
      name = asciiBytes "system.posix_acl_access") then convertPosixAclToDiskBuffer value
  else .ok value

/-- The array is updated, at last with the value in an inode of its own. -/
def xattrUpdate (h : XattrHandle) (name value : List UInt8) (ibodyFree : ℤ)
    (old : Option (ℕ × Xattr)) : XattrM W Unit :=
  let blockFree : ℤ := ops.blocksize - 32 - 4 - spaceUsed (h.attrs.drop h.ibodyCount)
  let inInode := ops.eaInode && decide (minLargeEaSize ops.blocksize < value.length)
  tryCatch (xattrArrayUpdate ops name value ibodyFree blockFree old inInode) fun err =>
    if err = .eaNoSpace ∧ inInode = false ∧ ops.eaInode = true then
      xattrArrayUpdate ops name value ibodyFree blockFree old true
    else throw err

/-- Inline data can only go to the body. -/
def xattrUpdateData (h : XattrHandle) (name value : List UInt8) (ibodyFree : ℤ)
    (old : Option (ℕ × Xattr)) : XattrM W Unit := do
  onlyIf (∃ p ∈ old, h.ibodyCount ≤ p.1) (throw .filesystemCorrupted)
  xattrArrayUpdate ops name value ibodyFree 0 old false

/-- The second half of `ext2fs_xattr_set`, when the value is not the one that is there. -/
def xattrStore (h : XattrHandle) (name value : List UInt8) : XattrM W Unit := do
  getMem ops ops.inodeSize
  let ibodyFree ← ibodyRoom ops h
  let old := findAttr h.attrs name
  (if name = asciiBytes "system.data" then xattrUpdateData ops h name value ibodyFree old
    else xattrUpdate ops h name value ibodyFree old)
  let h ← getHandle
  liftOp (ops.xattrsWrite h)

/-- `ext2fs_xattr_set` -/
def xattrSet (name value : List UInt8) : XattrM W Unit := do
  let name := cstr name
  let h ← getHandle
  getMem ops value.length
  let value ← liftResult (valueToDisk h name value)
  if ∃ p ∈ findAttr h.attrs name, SameValue value p.2 then pure ()
  else xattrStore ops h name value

/-- `ext2fs_xattr_remove` -/
def xattrRemove (key : List UInt8) : XattrM W Unit := do
  let h ← getHandle
  match findAttr h.attrs (cstr key) with
  | none => pure ()
  | some (i, x) =>
    onlyIf (x.eaIno ≠ 0) (tryDecRef ops x.eaIno)
    setHandle (h.removeAt i)
    liftOp (ops.xattrsWrite (h.removeAt i))

end Ops

/-- A call that changes attributes. -/
inductive XattrCall
  | set (name value : List UInt8)
  | remove (key : List UInt8)

/-- The call. -/
def XattrCall.run {W : Type} (ops : XattrOps W) : XattrCall → XattrM W Unit
  | set name value => xattrSet ops name value
  | remove key => xattrRemove ops key

end E2fsprogs
