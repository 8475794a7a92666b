import E2fsprogs.Lib.Bytes

/-!
# Extended attributes on disk

Extended attributes are stored in an area of the inode or in a block of their own: entries
from the front, each a header of sixteen bytes and the padded name, up to an entry whose first
word is zero; values from the back, each padded to four bytes.

Offsets are counted from where the values' offsets are counted from, the start of the area in
an inode and the start of the block in a block, so that an area is a block of bytes, the offset
of its first entry and the size of its storage (`E2fsprogs.EaArea`). Fields are little-endian.
-/

namespace E2fsprogs

/-- The size of `struct ext2_ext_attr_entry`. -/
def eaEntrySize : ℕ := 16

/-- `EXT2_EXT_ATTR_SIZE`, for sizes of less than 32 bits. -/
def eaSize (n : ℕ) : ℕ := (n + 3) / 4 * 4

/-- `EXT2_EXT_ATTR_LEN`. -/
def eaLen (nameLen : ℕ) : ℕ := eaEntrySize + eaSize nameLen

theorem le_eaSize (n : ℕ) : n ≤ eaSize n := by
  rw [eaSize]
  omega

/-! ### Fields of an entry -/

section Fields

variable (b : Block) (e : ℕ)

def eNameLen : ℕ := getLe b e 1
def eNameIndex : ℕ := getLe b (e + 1) 1
def eValueOffs : ℕ := getLe b (e + 2) 2
def eValueInum : ℕ := getLe b (e + 4) 4
def eValueSize : ℕ := getLe b (e + 8) 4
def eHash : ℕ := getLe b (e + 12) 4

/-- `EXT2_EXT_IS_LAST_ENTRY`. -/
def eIsLast : Prop := getLe b e 4 = 0

instance : Decidable (eIsLast b e) := inferInstanceAs (Decidable (_ = _))

/-- `EXT2_EXT_ATTR_NEXT`. -/
def eNext : ℕ := e + eaLen (eNameLen b e)

/-- The name of an entry. -/
def eName : List UInt8 := bytesAt b (e + eaEntrySize) (eNameLen b e)

end Fields

/-- An area of extended attributes: its bytes, where its entries start and how many bytes of
storage there are from there on. It is part of an inode or of a block, so of 64 KiB at
most. -/
structure EaArea where
  buf : Block
  entries : ℕ
  storageSize : ℕ
  size_le : storageSize + entries ≤ 65536

/-- `values_size`: the end of the storage. -/
def EaArea.valuesSize (a : EaArea) : ℕ := a.storageSize + a.entries

/-! ### The hash of an entry -/

/-- A `char` as the 32-bit number it is converted to. -/
def signedChar (c : UInt8) : ℕ :=
  if c.toNat < 128 then c.toNat else c.toNat + (2 ^ 32 - 2 ^ 8)

/-- One round of a hash: rotate by `shift` bits and add a word. -/
def hashRound (shift hash word : ℕ) : ℕ :=
  ((hash * 2 ^ shift % 2 ^ 32) ^^^ (hash / 2 ^ (32 - shift))) ^^^ word

/-- The hash of a name. -/
def hashName (name : List UInt8) : ℕ :=
  name.foldl (fun hash c => hashRound 5 hash (signedChar c)) 0

/-- The hash of a value goes on over `n` words. -/
def hashWords (b : Block) : ℕ → ℕ → ℕ → ℕ
  | 0, _, hash => hash
  | n + 1, o, hash => hashWords b n (o + 4) (hashRound 16 hash (getLe b o 4))

/-- `ext2fs_ext_attr_hash_entry`, with the value at offset `data`. -/
def ext2fsExtAttrHashEntry (b : Block) (e data : ℕ) : ℕ :=
  let hash := hashName (eName b e)
  if eValueInum b e = 0 ∧ eValueSize b e ≠ 0 then
    hashWords b ((eValueSize b e + 3) % 2 ^ 32 / 4) data hash
  else hash

/-! ### Name prefixes -/

/-- The bytes of a string of ASCII characters. -/
def asciiBytes (s : String) : List UInt8 := s.toList.map fun c => UInt8.ofNat c.toNat

/-- `ea_names`. -/
def eaNames : List (ℕ × List UInt8) :=
  [(10, asciiBytes "gnu."), (3, asciiBytes "system.posix_acl_default"),
    (2, asciiBytes "system.posix_acl_access"), (8, asciiBytes "system.richacl"),
    (6, asciiBytes "security."), (4, asciiBytes "trusted."), (7, asciiBytes "system."),
    (1, asciiBytes "user.")]

/-- `find_ea_prefix`. -/
def findEaPrefix (index : ℕ) : Option (List UInt8) :=
  (eaNames.find? fun p => p.1 == index).map Prod.snd

/-- `find_ea_index`: the index of a name and its short name. A name without a known prefix
has index 0 and is its own short name. -/
def findEaIndex (name : List UInt8) : ℕ × List UInt8 :=
  match eaNames.find? fun p => p.2.isPrefixOf name with
  | some p => (p.1, name.drop p.2.length)
  | none => (0, name)

end E2fsprogs
