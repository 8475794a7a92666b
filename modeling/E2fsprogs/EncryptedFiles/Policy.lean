import E2fsprogs.Xattr.Order

/-!
# Encryption policies

The encryption attribute of an inode holds its policy and a nonce, in one of two layouts, and
`e2fsck/encrypted_files.c` makes the policy of it. Policies are compared by version, and policies
of one version byte for byte, so the comparison is the one of their bytes
(`E2fsprogs.cmpFscryptPolicies_neg_iff`).
-/

namespace E2fsprogs

/-- `union fscrypt_policy`. -/
inductive FscryptPolicy
  | v1 (contentsEncryptionMode filenamesEncryptionMode flags : UInt8)
      (masterKeyDescriptor : List.Vector UInt8 8)
  | v2 (contentsEncryptionMode filenamesEncryptionMode flags : UInt8)
      (reserved : List.Vector UInt8 4) (masterKeyIdentifier : List.Vector UInt8 16)
  deriving DecidableEq

/-- `NO_ENCRYPTION_POLICY` -/
def noEncryptionPolicy : ℕ := 2 ^ 32 - 1

/-- `CORRUPT_ENCRYPTION_POLICY` -/
def corruptEncryptionPolicy : ℕ := 2 ^ 32 - 2

/-- `UNRECOGNIZED_ENCRYPTION_POLICY` -/
def unrecognizedEncryptionPolicy : ℕ := 2 ^ 32 - 3

namespace FscryptPolicy

/-- The version, in the first byte. -/
def version : FscryptPolicy → UInt8
  | v1 _ _ _ _ => 1
  | v2 _ _ _ _ _ => 2

/-- A policy in memory. -/
def bytes : FscryptPolicy → List UInt8
  | v1 contents filenames flags descriptor => [1, contents, filenames, flags] ++ descriptor.toList
  | v2 contents filenames flags reserved identifier =>
    [2, contents, filenames, flags] ++ reserved.toList ++ identifier.toList

end FscryptPolicy

/-- `cmp_fscrypt_policies` -/
def cmpFscryptPolicies (a b : FscryptPolicy) : ℤ :=
  if a.version ≠ b.version then (a.version.toNat : ℤ) - b.version.toNat
  else memcmp a.bytes b.bytes

/-- `n` bytes of a context, from `offset` on. -/
def contextField (xattr : List UInt8) (offset n : ℕ) (h : offset + n ≤ xattr.length) :
    List.Vector UInt8 n :=
  ⟨(xattr.drop offset).take n, by rw [List.length_take, List.length_drop]; omega⟩

/-- `fscrypt_context_to_policy`: the policy, or one of the special ids. The contexts have 28
and 40 bytes. -/
def fscryptContextToPolicy (xattr : List UInt8) : Except ℕ FscryptPolicy :=
  match xattr.head? with
  | none => .error corruptEncryptionPolicy
  | some version =>
    if version = 0 then .error corruptEncryptionPolicy
    else if version = 1 then
      if h : xattr.length = 28 then
        .ok (.v1 (xattr.getD 1 0) (xattr.getD 2 0) (xattr.getD 3 0)
          (contextField xattr 4 8 (by omega)))
      else .error corruptEncryptionPolicy
    else if version = 2 then
      if h : xattr.length = 40 then
        .ok (.v2 (xattr.getD 1 0) (xattr.getD 2 0) (xattr.getD 3 0)
          (contextField xattr 4 4 (by omega)) (contextField xattr 8 16 (by omega)))
      else .error corruptEncryptionPolicy
    else .error unrecognizedEncryptionPolicy

/-! ### Contexts -/

/-- The version of a context that has one. -/
def contextVersion (xattr : List UInt8) : UInt8 := xattr.headD 0

/-- A context of one of the two layouts. -/
def ContextValid (xattr : List UInt8) : Prop :=
  contextVersion xattr = 1 ∧ xattr.length = 28 ∨ contextVersion xattr = 2 ∧ xattr.length = 40

/-- A context of a version that is not known. -/
def ContextUnknown (xattr : List UInt8) : Prop :=
  contextVersion xattr ≠ 0 ∧ contextVersion xattr ≠ 1 ∧ contextVersion xattr ≠ 2

/-- The policy in a context: all but the nonce of 16 bytes at its end. -/
def contextPolicy (xattr : List UInt8) : List UInt8 := xattr.take (xattr.length - 16)

theorem take_four_add {xattr : List UInt8} {n : ℕ} (h : 4 ≤ xattr.length) :
    xattr.take (4 + n) = [contextVersion xattr, xattr.getD 1 0, xattr.getD 2 0, xattr.getD 3 0] ++
      (xattr.drop 4).take n := by
  obtain ⟨a, b, c, d, l, rfl⟩ : ∃ a b c d l, xattr = a :: b :: c :: d :: l := by
    rcases xattr with _ | ⟨a, _ | ⟨b, _ | ⟨c, _ | ⟨d, l⟩⟩⟩⟩
    · simp at h
    · simp at h
    · simp at h
    · simp at h
    · exact ⟨a, b, c, d, l, rfl⟩
  rw [Nat.add_comm]
  rfl

/-- **What the conversion makes of a context.** -/
theorem fscryptContextToPolicy_cases (xattr : List UInt8) :
    ContextValid xattr ∧ ¬ContextUnknown xattr ∧
      (∃ p, fscryptContextToPolicy xattr = .ok p ∧ p.bytes = contextPolicy xattr) ∨
    ¬ContextValid xattr ∧ ContextUnknown xattr ∧
      fscryptContextToPolicy xattr = .error unrecognizedEncryptionPolicy ∨
    ¬ContextValid xattr ∧ ¬ContextUnknown xattr ∧
      fscryptContextToPolicy xattr = .error corruptEncryptionPolicy := by
  rcases xattr with _ | ⟨version, l⟩
  · exact Or.inr (Or.inr ⟨by unfold ContextValid; decide, by unfold ContextUnknown; decide, rfl⟩)
  obtain ⟨xattr, hx⟩ : ∃ xattr, xattr = version :: l := ⟨_, rfl⟩
  have hhead : xattr.head? = some version := by rw [hx]; rfl
  have hversion : contextVersion xattr = version := by rw [hx]; rfl
  rw [← hx, fscryptContextToPolicy, hhead, ContextValid, ContextUnknown, hversion]
  dsimp only
  by_cases h0 : version = 0
  · rw [if_pos h0, h0]
    exact Or.inr (Or.inr ⟨by simp, by simp, rfl⟩)
  rw [if_neg h0]
  by_cases h1 : version = 1
  · rw [if_pos h1]
    by_cases hlen : xattr.length = 28
    · refine Or.inl ⟨Or.inl ⟨h1, hlen⟩, fun h => h.2.1 h1, _, dif_pos hlen, ?_⟩
      rw [contextPolicy, hlen, take_four_add (n := 8) (by omega), hversion, h1]
      rfl
    · refine Or.inr (Or.inr ⟨?_, fun h => h.2.1 h1, dif_neg hlen⟩)
      rw [h1]
      simp [hlen]
  rw [if_neg h1]
  by_cases h2 : version = 2
  · rw [if_pos h2]
    by_cases hlen : xattr.length = 40
    · refine Or.inl ⟨Or.inr ⟨h2, hlen⟩, fun h => h.2.2 h2, _, dif_pos hlen, ?_⟩
      have hsplit : (xattr.drop 4).take (4 + 16) =
          (xattr.drop 4).take 4 ++ (xattr.drop 8).take 16 := by
        rw [List.take_add, List.drop_drop]
      rw [contextPolicy, hlen, take_four_add (n := 20) (by omega), hsplit, hversion, h2]
      rfl
    · refine Or.inr (Or.inr ⟨?_, fun h => h.2.2 h2, dif_neg hlen⟩)
      rw [h2]
      simp [hlen]
  · rw [if_neg h2]
    exact Or.inr (Or.inl ⟨by simp [h1, h2], ⟨h0, h1, h2⟩, rfl⟩)

/-! ### The order of policies -/

/-- The bytes of a policy, as numbers. -/
def FscryptPolicy.key (p : FscryptPolicy) : List ℕ := p.bytes.map UInt8.toNat

variable {a b : FscryptPolicy}

theorem FscryptPolicy.bytes_injective : Function.Injective FscryptPolicy.bytes := by
  intro a b h
  cases a with
  | v1 c f g d =>
    cases b with
    | v1 c' f' g' d' =>
      simp only [bytes, List.cons_append, List.nil_append, List.cons.injEq, true_and] at h
      obtain ⟨rfl, rfl, rfl, hd⟩ := h
      rw [Subtype.ext hd]
    | v2 c' f' g' r' i' => exact absurd (List.cons.inj h).1 (by decide)
  | v2 c f g r i =>
    cases b with
    | v1 c' f' g' d' => exact absurd (List.cons.inj h).1 (by decide)
    | v2 c' f' g' r' i' =>
      simp only [bytes, List.cons_append, List.nil_append, List.cons.injEq, true_and] at h
      obtain ⟨rfl, rfl, rfl, hri⟩ := h
      obtain ⟨hr, hi⟩ := List.append_inj hri (by simp)
      rw [Subtype.ext hr, Subtype.ext hi]

theorem FscryptPolicy.key_injective : Function.Injective FscryptPolicy.key := fun _ _ h =>
  bytes_injective (List.map_injective_iff.mpr (fun _ _ hab => UInt8.toNat_inj.mp hab) h)

theorem FscryptPolicy.bytes_eq_cons (p : FscryptPolicy) : ∃ l, p.bytes = p.version :: l := by
  cases p with
  | v1 c f g d => exact ⟨_, rfl⟩
  | v2 c f g r i => exact ⟨_, rfl⟩

theorem FscryptPolicy.length_bytes (h : a.version = b.version) :
    a.bytes.length = b.bytes.length := by
  cases a with
  | v1 c f g d =>
    cases b with
    | v1 c' f' g' d' => simp [bytes]
    | v2 c' f' g' r' i' => exact absurd (show (1 : UInt8) = 2 from h) (by decide)
  | v2 c f g r i =>
    cases b with
    | v1 c' f' g' d' => exact absurd (show (2 : UInt8) = 1 from h) (by decide)
    | v2 c' f' g' r' i' => simp [bytes]

theorem memcmp_swap (s t : List UInt8) : memcmp t s = -memcmp s t := by
  induction s generalizing t with
  | nil =>
    cases t with
    | nil => rfl
    | cons b t => rfl
  | cons a s ih =>
    cases t with
    | nil => rfl
    | cons b t =>
      rw [memcmp, memcmp, ih]
      by_cases hab : a = b
      · rw [if_pos hab, if_pos hab.symm]
      · rw [if_neg hab, if_neg (Ne.symm hab)]
        omega

/-- **The comparison is the one of the bytes.** -/
theorem cmpFscryptPolicies_neg_iff : cmpFscryptPolicies a b < 0 ↔ a.key < b.key := by
  rw [cmpFscryptPolicies]
  by_cases hversion : a.version = b.version
  · have hle := memcmp_le_iff (FscryptPolicy.length_bytes hversion.symm)
    rw [memcmp_swap] at hle
    rw [if_neg (not_not.mpr hversion), FscryptPolicy.key, FscryptPolicy.key, ← not_le, ← not_le,
      ← hle]
    omega
  · obtain ⟨l, hl⟩ := a.bytes_eq_cons
    obtain ⟨l', hl'⟩ := b.bytes_eq_cons
    have hne : a.version.toNat ≠ b.version.toNat := fun h => hversion (UInt8.toNat_inj.mp h)
    rw [if_pos hversion, FscryptPolicy.key, FscryptPolicy.key, hl, hl', List.map_cons,
      List.map_cons, List.cons_lt_cons_iff]
    omega

theorem cmpFscryptPolicies_swap : cmpFscryptPolicies b a = -cmpFscryptPolicies a b := by
  rw [cmpFscryptPolicies, cmpFscryptPolicies, memcmp_swap]
  by_cases hversion : a.version = b.version
  · rw [if_neg (not_not.mpr hversion), if_neg (not_not.mpr hversion.symm)]
  · rw [if_pos hversion, if_pos (Ne.symm hversion)]
    omega

theorem cmpFscryptPolicies_pos_iff : 0 < cmpFscryptPolicies a b ↔ b.key < a.key := by
  rw [← cmpFscryptPolicies_neg_iff, cmpFscryptPolicies_swap]
  omega

theorem cmpFscryptPolicies_eq_zero_iff : cmpFscryptPolicies a b = 0 ↔ a = b := by
  have hlt := @cmpFscryptPolicies_neg_iff a b
  have hgt := @cmpFscryptPolicies_pos_iff a b
  constructor
  · intro h
    refine FscryptPolicy.key_injective (le_antisymm ?_ ?_)
    · exact not_lt.mp fun hc => (hgt.mpr hc).ne' h
    · exact not_lt.mp fun hc => (hlt.mpr hc).ne h
  · rintro rfl
    have h1 := mt hlt.mp (lt_irrefl _)
    have h2 := mt hgt.mp (lt_irrefl _)
    omega

end E2fsprogs
