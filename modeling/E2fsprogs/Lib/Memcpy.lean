import E2fsprogs.Lib.Bytes

/-!
# Copying ranges of bytes

`memcpy` on arrays of bytes given as functions. A range is a position and a length; the bytes
of the source are counted from its beginning, so that copying from position `p` of a source
is copying `E2fsprogs.fromPos src p`.
-/

namespace E2fsprogs

/-- The bytes of an array from a position on. -/
def fromPos (src : Block) (p : ℕ) : Block := fun k => src (p + k)

/-- The first `len` bytes of `src` copied to position `pos` of `dst`. -/
def memcpy (dst : Block) (pos : ℕ) (src : Block) (len : ℕ) : Block := fun p =>
  if pos ≤ p ∧ p < pos + len then src (p - pos) else dst p

section Memcpy

variable {dst src : Block} {pos len p : ℕ}

theorem memcpy_of_inside (h : pos ≤ p) (h' : p < pos + len) :
    memcpy dst pos src len p = src (p - pos) := if_pos ⟨h, h'⟩

theorem memcpy_of_outside (h : p < pos ∨ pos + len ≤ p) : memcpy dst pos src len p = dst p :=
  if_neg fun h' => by omega

@[simp] theorem memcpy_zero : memcpy dst pos src 0 = dst := by
  funext p
  exact memcpy_of_outside (by omega)

theorem memcpy_add {k : ℕ} (h : k < len) : memcpy dst pos src len (pos + k) = src k := by
  rw [memcpy_of_inside (by omega) (by omega), Nat.add_sub_cancel_left]

/-- Two copies side by side are one. -/
theorem memcpy_append (len' : ℕ) :
    memcpy (memcpy dst pos src len) (pos + len) (fromPos src len) len' =
      memcpy dst pos src (len + len') := by
  funext p
  by_cases h1 : p < pos + len
  · rw [memcpy_of_outside (Or.inl h1)]
    by_cases h2 : pos ≤ p
    · rw [memcpy_of_inside h2 h1, memcpy_of_inside h2 (by omega)]
    · rw [memcpy_of_outside (by omega), memcpy_of_outside (by omega)]
  · by_cases h2 : p < pos + len + len'
    · rw [memcpy_of_inside (by omega) h2, memcpy_of_inside (by omega) (by omega), fromPos,
        show len + (p - (pos + len)) = p - pos by omega]
    · rw [memcpy_of_outside (by omega), memcpy_of_outside (by omega), memcpy_of_outside (by omega)]

theorem memcpy_congr {src' : Block} (h : ∀ k < len, src k = src' k) :
    memcpy dst pos src len = memcpy dst pos src' len := by
  funext p
  by_cases hp : pos ≤ p ∧ p < pos + len
  · rw [memcpy_of_inside hp.1 hp.2, memcpy_of_inside hp.1 hp.2, h _ (by omega)]
  · rw [memcpy_of_outside (by omega), memcpy_of_outside (by omega)]

theorem fromPos_fromPos (p q : ℕ) : fromPos (fromPos src p) q = fromPos src (p + q) := by
  funext k
  exact congrArg src (Nat.add_assoc p q k).symm

end Memcpy

end E2fsprogs
