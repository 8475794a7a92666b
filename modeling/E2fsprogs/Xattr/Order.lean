import E2fsprogs.Lib.SortedList
import E2fsprogs.Xattr.Steps

/-!
# The order of the attributes in the EA block

The kernel looks for an attribute in the EA block by its name index, then the length of its
short name, then the bytes (`E2fsprogs.xattrKey`), and stops where the order says that it
cannot come any more. `xattr_find_position` finds the place in this order
(`E2fsprogs.findPosition_spec`), and whatever the two calls do to the array keeps the part of
the block sorted, as long as the names fit (`E2fsprogs.XattrCall.Fits`): an attribute that is
changed gets the name index that `find_ea_index` finds for the full name, but keeps its short
name and its place, and a short name of more than 255 bytes has no length on disk.
-/

namespace E2fsprogs

open SortedList Fallible

/-- What the attributes in the block are sorted by. -/
def sortKey (index : ℕ) (shortName : List UInt8) : ℕ ×ₗ ℕ ×ₗ List ℕ :=
  toLex (index, toLex (shortName.length, shortName.map UInt8.toNat))

/-- The key of an attribute. -/
def xattrKey (x : Xattr) : ℕ ×ₗ ℕ ×ₗ List ℕ := sortKey x.nameIndex (cstr x.shortName)

/-- The name index and the name that `write_xattrs_to_buffer` writes: the index and the
length are bytes. -/
def writtenName (x : Xattr) : ℕ × List UInt8 :=
  (x.nameIndex % 2 ^ 8, (cstr x.shortName).take ((cstr x.shortName).length % 2 ^ 8))

/-- The attributes that are in the block. -/
def XattrHandle.block (h : XattrHandle) : List Xattr := h.attrs.drop h.ibodyCount

/-- The attributes of the block are sorted, and so are the entries written to it. -/
structure XattrHandle.BlockSorted (h : XattrHandle) : Prop where
  attrs : Sorted xattrKey h.block
  written : Sorted (fun e => sortKey e.1 e.2) (h.block.map writtenName)

/-! ### Calls -/

/-- The name of an attribute that is set fits: its short name has a length on disk, and the
attribute that has the name, if there is one, has it under the name index that
`find_ea_index` gives, and is the only one. -/
def XattrCall.Fits (h : XattrHandle) : XattrCall → Prop
  | set name _ =>
    (findEaIndex (cstr name)).2.length < 2 ^ 8 ∧
      ∀ i x, findAttr h.attrs (cstr name) = some (i, x) →
        x.nameIndex = (findEaIndex (cstr name)).1 ∧
        (i < h.ibodyCount → ∀ y ∈ h.block, cstr y.name ≠ cstr name)
  | remove _ => True

/-- Calls that succeed, one after the other. -/
inductive XattrRun {W : Type} (ops : XattrOps W) (fits : XattrHandle → XattrCall → Prop) :
    XattrHandle × W → XattrHandle × W → Prop
  | refl (s : XattrHandle × W) : XattrRun ops fits s s
  | step {s s' s'' : XattrHandle × W} (call : XattrCall) : XattrRun ops fits s s' →
    fits s'.1 call → call.run ops s' = (.ok (), s'') → XattrRun ops fits s s''

/-- The full name of an attribute is the prefix of its name index and its short name, as it
is read from a file system. -/
structure Xattr.Named (x : Xattr) : Prop where
  name : cstr x.name = (findEaPrefix x.nameIndex).getD [] ++ cstr x.shortName
  index : x.nameIndex < 2 ^ 8
  len : (cstr x.shortName).length < 2 ^ 8

/-- A handle as `ext2fs_xattrs_read` fills it. -/
structure XattrHandle.Loaded (h : XattrHandle) : Prop where
  ibody : h.ibodyCount ≤ h.attrs.length
  named : ∀ x ∈ h.attrs, x.Named

/-! ### Names -/

section Names

variable {x : Xattr} {s t name : List UInt8} {index : ℕ} {attrs l : List Xattr}

theorem cstr_of_not_mem (h : (0 : UInt8) ∉ s) : cstr s = s := by
  rw [cstr, List.takeWhile_eq_self_iff]
  intro c hc
  simpa using fun h0 : c = 0 => h (h0 ▸ hc)

theorem zero_not_mem_cstr (s : List UInt8) : (0 : UInt8) ∉ cstr s := by
  intro h
  simpa using List.mem_takeWhile_imp h

theorem findEaPrefix_of_mem {p : ℕ × List UInt8} (h : p ∈ eaNames) :
    findEaPrefix p.1 = some p.2 := by
  have : ∀ p ∈ eaNames, findEaPrefix p.1 = some p.2 := by decide
  exact this p h

/-- A name is the prefix of its index and its short name. -/
theorem findEaIndex_name (name : List UInt8) :
    name = (findEaPrefix (findEaIndex name).1).getD [] ++ (findEaIndex name).2 := by
  rw [findEaIndex]
  cases hf : eaNames.find? fun p => p.2.isPrefixOf name with
  | none =>
    have h0 : findEaPrefix 0 = none := by decide
    simp [h0]
  | some p =>
    have hp := List.find?_some hf
    obtain ⟨t, ht⟩ := List.isPrefixOf_iff_prefix.mp hp
    rw [findEaPrefix_of_mem (List.mem_of_find?_eq_some hf), ← ht]
    simp

theorem findEaIndex_lt (name : List UInt8) : (findEaIndex name).1 < 2 ^ 8 := by
  rw [findEaIndex]
  cases hf : eaNames.find? fun p => p.2.isPrefixOf name with
  | none => norm_num
  | some p =>
    have : ∀ p ∈ eaNames, p.1 < 2 ^ 8 := by decide
    exact this p (List.mem_of_find?_eq_some hf)

/-- A new attribute of a name is named. -/
theorem named_new {value : List UInt8} {valueLen eaIno : ℕ} (hname : cstr name = name)
    (hlen : (findEaIndex name).2.length < 2 ^ 8) :
    (⟨(findEaIndex name).1, name, (findEaIndex name).2, value, valueLen, eaIno⟩ : Xattr).Named := by
  have hshort : cstr (findEaIndex name).2 = (findEaIndex name).2 := by
    refine cstr_of_not_mem fun h0 => zero_not_mem_cstr name ?_
    rw [hname, findEaIndex_name name]
    exact List.mem_append_right _ h0
  refine ⟨?_, findEaIndex_lt name, by rwa [hshort]⟩
  show cstr name = _ ++ cstr (findEaIndex name).2
  rw [hname, hshort]
  exact findEaIndex_name name

/-- The short name of an attribute of a name, under the index that is found for the name. -/
theorem Xattr.Named.shortName_eq (h : x.Named) (hname : cstr x.name = name)
    (hindex : x.nameIndex = (findEaIndex name).1) : cstr x.shortName = (findEaIndex name).2 := by
  have h1 := h.name
  rw [hname, hindex] at h1
  exact List.append_cancel_left (h1.symm.trans (findEaIndex_name name))

/-- An attribute with the key of a name has the name. -/
theorem Xattr.Named.name_of_key (h : x.Named)
    (hkey : xattrKey x = sortKey (findEaIndex name).1 (findEaIndex name).2) :
    cstr x.name = name := by
  have h1 : x.nameIndex = (findEaIndex name).1 := congrArg (fun k => (ofLex k).1) hkey
  have h2 : (cstr x.shortName).map UInt8.toNat = (findEaIndex name).2.map UInt8.toNat :=
    congrArg (fun k => (ofLex (ofLex k).2).2) hkey
  have h3 := List.map_injective_iff.mpr (fun a b hab => UInt8.toNat_inj.mp hab) h2
  rw [h.name, h1, h3]
  exact (findEaIndex_name name).symm

/-! ### The place in the order -/

theorem memcmp_le_iff : ∀ {s t : List UInt8}, s.length = t.length →
    (memcmp s t ≤ 0 ↔ s.map UInt8.toNat ≤ t.map UInt8.toNat) := by
  intro s
  induction s with
  | nil =>
    intro t ht
    rw [List.length_eq_zero_iff.mp ht.symm]
    simp [memcmp]
  | cons a s ih =>
    intro t ht
    cases t with
    | nil => cases ht
    | cons b t =>
      have ht : s.length = t.length := Nat.succ.inj ht
      rw [memcmp, List.map_cons, List.map_cons,
        ← @not_lt _ _ (b.toNat :: List.map UInt8.toNat t), List.cons_lt_cons_iff]
      by_cases hab : a = b
      · rw [if_pos hab, hab, ih ht, ← not_lt]
        simp
      · have hne : b.toNat ≠ a.toNat := fun h => hab (UInt8.toNat_inj.mp h).symm
        rw [if_neg hab]
        omega

theorem sortKey_le_iff (index : ℕ) (s : List UInt8) (x : Xattr) : sortKey index s ≤ xattrKey x ↔
    index < x.nameIndex ∨ index = x.nameIndex ∧ (s.length < (cstr x.shortName).length ∨
      s.length = (cstr x.shortName).length ∧ memcmp s (cstr x.shortName) ≤ 0) := by
  rw [xattrKey, sortKey, sortKey, Prod.Lex.toLex_le_toLex, Prod.Lex.toLex_le_toLex]
  refine or_congr_right (and_congr_right fun _ => or_congr_right (and_congr_right fun h => ?_))
  exact (memcmp_le_iff h).symm

theorem xattrFindPosition_cons (s : List UInt8) (index : ℕ) (x : Xattr) (l : List Xattr) :
    xattrFindPosition s index (x :: l) =
      if sortKey index s ≤ xattrKey x then 0 else xattrFindPosition s index l + 1 := by
  rw [xattrFindPosition, if_congr (sortKey_le_iff index s x) rfl rfl]
  rcases lt_trichotomy index x.nameIndex with h | h | h
  · simp [h]
  · rcases lt_trichotomy s.length (cstr x.shortName).length with h' | h' | h'
    · simp [h, h']
    · simp [h, h']
    · simp [h, h'.not_gt, h', h'.ne']
  · simp [h, h.not_gt, h.ne']

/-- **The place of a key** in a sorted list that does not have it. -/
theorem findPosition_spec {s : List UInt8} : ∀ {l : List Xattr}, Sorted xattrKey l →
    (∀ x ∈ l, xattrKey x ≠ sortKey index s) →
    SortedList.Below xattrKey l (sortKey index s) (xattrFindPosition s index l) ∧
      SortedList.Above xattrKey l (sortKey index s) (xattrFindPosition s index l) := by
  intro l
  induction l with
  | nil => exact fun _ _ => ⟨fun a ha => absurd ha (by simp), fun a ha => absurd ha (by simp)⟩
  | cons x l ih =>
    intro hs hne
    obtain ⟨hx, hl⟩ := List.pairwise_cons.mp hs
    rw [xattrFindPosition_cons]
    by_cases hle : sortKey index s ≤ xattrKey x
    · rw [if_pos hle]
      have hlt := lt_of_le_of_ne hle (hne x (by simp)).symm
      refine ⟨below_zero, fun a ha => ?_⟩
      rcases List.mem_cons.mp ha with rfl | ha
      · exact hlt
      · exact hlt.trans (hx a ha)
    · rw [if_neg hle]
      obtain ⟨h1, h2⟩ := ih hl fun y hy => hne y (by simp [hy])
      refine ⟨fun a ha => ?_, h2⟩
      rcases List.mem_cons.mp ha with rfl | ha
      · exact lt_of_not_ge hle
      · exact h1 a ha

end Names

/-! ### What a call does to the handle -/

section Calls

variable {W : Type} {ops : XattrOps W} {s s' : XattrHandle × W} {α β : Type}

/-- The same attributes at the same places. -/
structure SameAttrs (h h' : XattrHandle) : Prop where
  attrs : h'.attrs = h.attrs
  ibodyCount : h'.ibodyCount = h.ibodyCount

theorem SameAttrs.refl (h : XattrHandle) : SameAttrs h h := ⟨rfl, rfl⟩

theorem SameAttrs.trans {h h' h'' : XattrHandle} (h1 : SameAttrs h h') (h2 : SameAttrs h' h'') :
    SameAttrs h h'' :=
  ⟨h2.attrs.trans h1.attrs, h2.ibodyCount.trans h1.ibodyCount⟩

/-- Whether it succeeds or not, the attributes stay. -/
def AttrsStay (s s' : XattrHandle × W) : Prop := SameAttrs s.1 s'.1

instance : Std.Refl (AttrsStay (W := W)) := ⟨fun s => .refl s.1⟩

instance : IsTrans (XattrHandle × W) AttrsStay := ⟨fun _ _ _ h1 h2 => SameAttrs.trans h1 h2⟩

theorem keeps_liftOp (f : W → Except ℕ α × W) : Keeps AttrsStay (liftOp f) := by
  intro s
  rw [liftOp]
  rcases f s.2 with ⟨err | a, w⟩ <;> exact SameAttrs.refl _

theorem keeps_getMem (n : ℕ) : Keeps AttrsStay (getMem ops n) := by
  intro s
  rw [getMem]
  rcases ops.getMem n s.2 with ⟨_ | _, w⟩ <;> exact SameAttrs.refl _

theorem keeps_liftResult (r : Except XattrSetErr α) :
    Keeps AttrsStay (liftResult r : XattrM W α) := fun _ => SameAttrs.refl _

theorem opsKeep_attrsStay (ops : XattrOps W) : OpsKeep AttrsStay ops :=
  ⟨keeps_getMem, fun _ => keeps_liftOp _, fun _ => keeps_liftOp _, fun _ _ => SameAttrs.refl _,
    fun _ => keeps_liftOp _⟩

theorem attrsStay_expandArray : Keeps AttrsStay (expandArray ops) := by
  intro s
  rw [expandArray, bind_of_ok (show getHandle s = (.ok s.1, s) from rfl), onlyIf]
  split
  · have h := @keeps_getMem W ops ((s.1.capacity + 4) * 48) s
    rcases hg : getMem ops ((s.1.capacity + 4) * 48) s with ⟨err | a, s₁⟩
    · rw [hg] at h
      rwa [bind_of_error hg]
    · rw [bind_of_ok hg]
      exact ⟨rfl, rfl⟩
  · exact SameAttrs.refl _

/-- The attribute that is made: a name that is there is kept. -/
structure MadeFor (name : List UInt8) (old : Option Xattr) (x : Xattr) : Prop where
  nameIndex : x.nameIndex = (findEaIndex name).1
  fullName : x.name = (old.map Xattr.name).getD name
  shortName : x.shortName = (old.map Xattr.shortName).getD (findEaIndex name).2

theorem xattrUpdateEntry_ok {x : Option Xattr} {name value : List UInt8}
    {inInode : Bool} {a : Xattr}
    (h : xattrUpdateEntry ops x name value inInode s = (.ok a, s')) : MadeFor name x a := by
  unfold xattrUpdateEntry at h
  obtain ⟨-, s₁, -, h⟩ := bind_ok.mp h
  obtain ⟨-, s₂, -, h⟩ := bind_ok.mp h
  obtain ⟨eaIno, s₃, -, h⟩ := bind_ok.mp h
  obtain ⟨-, s₄, -, h⟩ := bind_ok.mp h
  obtain ⟨rfl, -⟩ := pure_ok.mp h
  exact ⟨rfl, rfl, rfl⟩

/-- The outcome of a change of the array: an attribute in a place, or no change. -/
def Places (place : XattrHandle → Xattr → XattrHandle) (name : List UInt8) (old : Option Xattr)
    (h : XattrHandle) : Except XattrSetErr Unit → XattrHandle → Prop
  | .ok _, h' => ∃ h₁ x, SameAttrs h h₁ ∧ MadeFor name old x ∧ h' = place h₁ x
  | .error _, h' => SameAttrs h h'

theorem updateAt_places {x : Option Xattr} {name value : List UInt8} {inInode : Bool}
    {place : XattrHandle → Xattr → XattrHandle} : Places place name x s.1
      (updateAt ops x name value inInode place s).1
        (updateAt ops x name value inInode place s).2.1 := by
  have hkeep := keeps_xattrUpdateEntry (opsKeep_attrsStay ops) x name value inInode s
  rw [updateAt]
  rcases hu : xattrUpdateEntry ops x name value inInode s with ⟨err | a, s₁⟩
  · rw [hu] at hkeep
    rw [bind_of_error hu]
    exact hkeep
  · rw [hu] at hkeep
    rw [bind_of_ok hu, bind_of_ok (show getHandle s₁ = (.ok s₁.1, s₁) from rfl)]
    exact ⟨s₁.1, a, hkeep, xattrUpdateEntry_ok hu, rfl⟩

theorem Places.of_same {place : XattrHandle → Xattr → XattrHandle} {name : List UInt8}
    {old : Option Xattr} {h h₁ h' : XattrHandle} {r : Except XattrSetErr Unit} (hs : SameAttrs h h₁)
    (hp : Places place name old h₁ r h') : Places place name old h r h' := by
  cases r with
  | error err => exact hs.trans hp
  | ok a =>
    obtain ⟨h₂, x, h1, h2, h3⟩ := hp
    exact ⟨h₂, x, hs.trans h1, h2, h3⟩

theorem addNew_places {name value : List UInt8} {inInode : Bool}
    {place : XattrHandle → Xattr → XattrHandle} : Places place name none s.1
      (addNew ops name value inInode place s).1 (addNew ops name value inInode place s).2.1 := by
  have hkeep := @attrsStay_expandArray W ops s
  rw [addNew]
  rcases he : expandArray ops s with ⟨err | a, s₁⟩
  · rw [he] at hkeep
    rw [bind_of_error he]
    exact hkeep
  · rw [he] at hkeep
    rw [bind_of_ok he]
    exact updateAt_places.of_same hkeep

/-- The places of an attribute that is there already, or not. -/
inductive PlaceFor (name : List UInt8) :
    Option (ℕ × Xattr) → (XattrHandle → Xattr → XattrHandle) → Prop
  | addToBody : PlaceFor name none XattrHandle.addToBody
  | addToBlock : PlaceFor name none fun h => h.addToBlock name
  | toBody (i : ℕ) (x : Xattr) : PlaceFor name (some (i, x)) fun h x =>
      if h.ibodyCount ≤ i then h.moveToBody i x else h.replaceAt i x
  | toBlock (i : ℕ) (x : Xattr) : PlaceFor name (some (i, x)) fun h x =>
      if i < h.ibodyCount then h.moveToBlock name i x else h.replaceAt i x

/-- **`xattr_array_update`** puts an attribute made for the name in a place, or fails. -/
theorem xattrArrayUpdate_places (ops : XattrOps W) (s : XattrHandle × W) (name value : List UInt8)
    (ibodyFree blockFree : ℤ) (old : Option (ℕ × Xattr)) (inInode : Bool) :
    ∃ place, PlaceFor name old place ∧
      Places place name (old.map Prod.snd) s.1
        (xattrArrayUpdate ops name value ibodyFree blockFree old inInode s).1
        (xattrArrayUpdate ops name value ibodyFree blockFree old inInode s).2.1 := by
  rw [xattrArrayUpdate, bind_of_ok (show getHandle s = (.ok s.1, s) from rfl)]
  cases old with
  | none =>
    dsimp only
    split
    · exact ⟨_, .addToBody, addNew_places⟩
    · split
      · exact ⟨_, .addToBody, SameAttrs.refl _⟩
      · exact ⟨_, .addToBlock, addNew_places⟩
  | some p =>
    obtain ⟨i, x⟩ := p
    dsimp only
    generalize (if i < s.1.ibodyCount then ibodyFree + (spaceOf (findEaIndex name).2.length x : ℤ)
      else ibodyFree) = free
    generalize (if s.1.ibodyCount ≤ i then blockFree + (spaceOf (findEaIndex name).2.length x : ℤ)
      else blockFree) = free'
    split
    · exact ⟨_, .toBody i x, updateAt_places⟩
    · split
      · exact ⟨_, .toBody i x, SameAttrs.refl _⟩
      · exact ⟨_, .toBlock i x, updateAt_places⟩

end Calls

/-! ### The array stays in order -/

/-- The attributes are named, and those of the block sorted. -/
structure XattrHandle.Good (h : XattrHandle) : Prop extends h.Loaded where
  sorted : Sorted xattrKey h.block

section Order

variable {h h' : XattrHandle} {name : List UInt8} {x : Xattr} {i : ℕ} {y : Xattr}

/-- Named attributes are written in the order they are kept in. -/
theorem XattrHandle.Good.blockSorted (h : h'.Good) : h'.BlockSorted := by
  refine ⟨h.sorted, List.pairwise_map.mpr (h.sorted.imp_of_mem fun {a b} ha hb hab => ?_)⟩
  have hwritten : ∀ a ∈ h'.block, writtenName a = (a.nameIndex, cstr a.shortName) := by
    intro a ha
    have hn := h.named a (List.mem_of_mem_drop ha)
    rw [writtenName, Nat.mod_eq_of_lt hn.index, Nat.mod_eq_of_lt hn.len, List.take_length]
  rw [hwritten a ha, hwritten b hb]
  exact hab

theorem SameAttrs.good (hs : SameAttrs h h') (hg : h.Good) : h'.Good := by
  obtain ⟨ha, hi⟩ := hs
  refine ⟨⟨by rw [ha, hi]; exact hg.ibody, fun x hx => hg.named x (ha ▸ hx)⟩, ?_⟩
  rw [XattrHandle.block, ha, hi]
  exact hg.sorted

theorem findAttr_some {attrs : List Xattr} (hf : findAttr attrs name = some (i, y)) :
    attrs[i]? = some y ∧ cstr y.name = name := by
  rw [findAttr] at hf
  split at hf
  · cases hf
  · next j hj =>
    obtain ⟨z, hz, heq⟩ := Option.map_eq_some_iff.mp hf
    cases heq
    obtain ⟨hlt, hname, -⟩ := List.findIdx?_eq_some_iff_getElem.mp hj
    rw [List.getElem?_eq_getElem hlt] at hz
    cases hz
    exact ⟨List.getElem?_eq_getElem hlt, by simpa using hname⟩

theorem findAttr_none {attrs : List Xattr} (hf : findAttr attrs name = none) :
    ∀ y ∈ attrs, cstr y.name ≠ name := by
  rw [findAttr] at hf
  split at hf
  · next hj => simpa using List.findIdx?_eq_none_iff.mp hj
  · next j hj =>
    obtain ⟨hlt, -⟩ := List.findIdx?_eq_some_iff_getElem.mp hj
    rw [List.getElem?_eq_getElem hlt] at hf
    cases hf

/-- The name that is set fits in the handle. -/
structure NameFits (h : XattrHandle) (name : List UInt8) : Prop where
  string : cstr name = name
  len : (findEaIndex name).2.length < 2 ^ 8
  index : ∀ i y, findAttr h.attrs name = some (i, y) → y.nameIndex = (findEaIndex name).1
  alone : ∀ i y, findAttr h.attrs name = some (i, y) → i < h.ibodyCount →
    ∀ z ∈ h.block, cstr z.name ≠ name

/-- The attribute that is made is named, and has the key of the name. -/
theorem NameFits.made (hf : NameFits h name) (hg : h.Good)
    (hm : MadeFor name ((findAttr h.attrs name).map Prod.snd) x) :
    x.Named ∧ xattrKey x = sortKey (findEaIndex name).1 (findEaIndex name).2 := by
  obtain ⟨h1, h2, h3⟩ := hm
  rcases hfind : findAttr h.attrs name with _ | ⟨i, y⟩
  · rw [hfind] at h2 h3
    have hn := @named_new name x.value x.valueLen x.eaIno hf.string hf.len
    have hx : x = ⟨(findEaIndex name).1, name, (findEaIndex name).2, x.value, x.valueLen,
        x.eaIno⟩ := by
      cases x
      simp only [Option.map_none, Option.getD_none] at h1 h2 h3
      simp only [h1, h2, h3]
    rw [hx]
    refine ⟨hn, ?_⟩
    rw [xattrKey, hn.shortName_eq hf.string rfl]
  · rw [hfind] at h2 h3
    obtain ⟨hget, hname⟩ := findAttr_some hfind
    have hy := hg.named y (List.mem_of_getElem? hget)
    have hindex := hf.index i y hfind
    have h2 : x.name = y.name := h2
    have h3 : x.shortName = y.shortName := h3
    refine ⟨⟨?_, ?_, ?_⟩, ?_⟩
    · rw [h1, h2, h3, ← hindex]
      exact hy.name
    · rw [h1]
      exact findEaIndex_lt name
    · rw [h3]
      exact hy.len
    · rw [xattrKey, h1, h3, hy.shortName_eq hname hindex]

/-- No attribute of the block has the key of a name that comes into the block. -/
theorem XattrHandle.Good.absent (hg : h.Good) (hno : ∀ z ∈ h.block, cstr z.name ≠ name) :
    ∀ z ∈ h.block, xattrKey z ≠ sortKey (findEaIndex name).1 (findEaIndex name).2 :=
  fun z hz hkey => hno z hz ((hg.named z (List.mem_of_mem_drop hz)).name_of_key hkey)

theorem findPosition_le (s : List UInt8) (index : ℕ) (l : List Xattr) :
    xattrFindPosition s index l ≤ l.length := by
  induction l with
  | nil => exact le_rfl
  | cons x l ih =>
    rw [xattrFindPosition_cons, List.length_cons]
    split <;> omega

/-- The attributes of the block with one more at its place. -/
theorem sorted_insertAt (hg : h.Good)
    (hkey : xattrKey x = sortKey (findEaIndex name).1 (findEaIndex name).2)
    (hno : ∀ z ∈ h.block, cstr z.name ≠ name) :
    Sorted xattrKey (insertAt h.block (h.blockPosition name) x) := by
  obtain ⟨hb, ha⟩ := findPosition_spec hg.sorted (hg.absent hno)
  rw [← hkey] at hb ha
  exact hg.sorted.insertAt hb ha

/-- A handle whose attributes are those of another, and one more. -/
theorem XattrHandle.Good.of_mem (hg : h.Good) (hx : x.Named)
    (hibody : h'.ibodyCount ≤ h'.attrs.length)
    (hmem : ∀ z ∈ h'.attrs, z = x ∨ z ∈ h.attrs) (hs : Sorted xattrKey h'.block) : h'.Good := by
  refine ⟨⟨hibody, fun z hz => ?_⟩, hs⟩
  rcases hmem z hz with rfl | hz
  · exact hx
  · exact hg.named z hz

theorem good_addToBody (hg : h.Good) (hx : x.Named) : (h.addToBody x).Good := by
  have hibody := hg.ibody
  refine hg.of_mem hx ?_ (fun z hz => (List.eq_or_mem_of_mem_insertIdx hz)) ?_
  · show h.ibodyCount + 1 ≤ (h.attrs.insertIdx h.ibodyCount x).length
    rw [List.length_insertIdx_of_le_length hibody]
    omega
  · have hdrop := @drop_insertIdx _ x 0 h.ibodyCount h.attrs (by omega)
    rw [Nat.zero_add] at hdrop
    show Sorted xattrKey ((h.attrs.insertIdx h.ibodyCount x).drop (h.ibodyCount + 1))
    rw [← List.drop_drop, hdrop]
    exact hg.sorted

theorem good_addToBlock (hg : h.Good) (hx : x.Named)
    (hkey : xattrKey x = sortKey (findEaIndex name).1 (findEaIndex name).2)
    (hno : ∀ z ∈ h.block, cstr z.name ≠ name) : (h.addToBlock name x).Good := by
  have hibody := hg.ibody
  have hpos : h.blockPosition name ≤ h.block.length := findPosition_le _ _ _
  rw [XattrHandle.block, List.length_drop] at hpos
  refine hg.of_mem hx ?_ (fun z hz => (List.eq_or_mem_of_mem_insertIdx hz)) ?_
  · show h.ibodyCount ≤ (h.attrs.insertIdx (h.blockPosition name + h.ibodyCount) x).length
    exact hibody.trans List.length_le_length_insertIdx
  · show Sorted xattrKey ((h.attrs.insertIdx (h.blockPosition name + h.ibodyCount) x).drop
      h.ibodyCount)
    rw [drop_insertIdx (by omega)]
    exact sorted_insertAt hg hkey hno

theorem good_moveToBody (hg : h.Good) (hx : x.Named) (hi : i < h.attrs.length)
    (hle : h.ibodyCount ≤ i) : (h.moveToBody i x).Good := by
  have hlen : (h.attrs.eraseIdx i).length = h.attrs.length - 1 := List.length_eraseIdx_of_lt hi
  refine hg.of_mem hx ?_ (fun z hz => ?_) ?_
  · show h.ibodyCount + 1 ≤ ((h.attrs.eraseIdx i).insertIdx h.ibodyCount x).length
    rw [List.length_insertIdx_of_le_length (by omega)]
    omega
  · exact (List.eq_or_mem_of_mem_insertIdx hz).imp_right fun h => List.mem_of_mem_eraseIdx h
  · have hdrop := @drop_insertIdx _ x 0 h.ibodyCount (h.attrs.eraseIdx i) (by omega)
    rw [Nat.zero_add] at hdrop
    show Sorted xattrKey (((h.attrs.eraseIdx i).insertIdx h.ibodyCount x).drop (h.ibodyCount + 1))
    rw [← List.drop_drop, hdrop]
    exact hg.sorted.sublist ((List.eraseIdx_sublist h.attrs i).drop _)

theorem good_moveToBlock (hg : h.Good) (hx : x.Named) (hi : i < h.ibodyCount)
    (hkey : xattrKey x = sortKey (findEaIndex name).1 (findEaIndex name).2)
    (hno : ∀ z ∈ h.block, cstr z.name ≠ name) : (h.moveToBlock name i x).Good := by
  have hibody := hg.ibody
  have hlen : (h.attrs.eraseIdx i).length = h.attrs.length - 1 :=
    List.length_eraseIdx_of_lt (by omega)
  have hpos : h.blockPosition name ≤ h.block.length := findPosition_le _ _ _
  rw [XattrHandle.block, List.length_drop] at hpos
  have hplace : h.blockPosition name + h.ibodyCount - 1 =
      h.blockPosition name + (h.ibodyCount - 1) := by
    omega
  refine hg.of_mem hx ?_ (fun z hz => ?_) ?_
  · show h.ibodyCount - 1 ≤
      ((h.attrs.eraseIdx i).insertIdx (h.blockPosition name + h.ibodyCount - 1) x).length
    rw [List.length_insertIdx_of_le_length (by omega)]
    omega
  · exact (List.eq_or_mem_of_mem_insertIdx hz).imp_right fun h => List.mem_of_mem_eraseIdx h
  · show Sorted xattrKey
      (((h.attrs.eraseIdx i).insertIdx (h.blockPosition name + h.ibodyCount - 1) x).drop
        (h.ibodyCount - 1))
    rw [hplace, drop_insertIdx (by omega)]
    have hsorted := sorted_insertAt hg hkey hno
    rcases Nat.lt_or_ge (h.ibodyCount - 1) h.attrs.length with hlt | hge
    · rw [drop_eraseIdx (by omega) hlt, Nat.sub_add_cancel (by omega)]
      exact hsorted
    · omega

theorem good_replaceAt (hg : h.Good) (hx : x.Named) (hget : h.attrs[i]? = some y)
    (hkey : xattrKey x = xattrKey y) : (h.replaceAt i x).Good := by
  refine hg.of_mem hx ?_ (fun z hz => (List.mem_or_eq_of_mem_set hz).symm) ?_
  · show h.ibodyCount ≤ (h.attrs.set i x).length
    rw [List.length_set]
    exact hg.ibody
  · show Sorted xattrKey ((h.attrs.set i x).drop h.ibodyCount)
    rw [List.drop_set]
    split
    · exact hg.sorted
    · refine hg.sorted.set (b := y) ?_ hkey
      rw [XattrHandle.block, List.getElem?_drop, ← hget]
      congr 1
      omega

/-- **Every place** an attribute is put in keeps the order. -/
theorem PlaceFor.good {place : XattrHandle → Xattr → XattrHandle} (hg : h.Good)
    (hf : NameFits h name) (hp : PlaceFor name (findAttr h.attrs name) place)
    (hm : MadeFor name ((findAttr h.attrs name).map Prod.snd) x) : (place h x).Good := by
  obtain ⟨hnamed, hkey⟩ := hf.made hg hm
  generalize hold : findAttr h.attrs name = old at hp
  cases hp with
  | addToBody => exact good_addToBody hg hnamed
  | addToBlock =>
    exact good_addToBlock hg hnamed hkey fun z hz =>
      findAttr_none hold z (List.mem_of_mem_drop hz)
  | toBody i y =>
    obtain ⟨hget, hname⟩ := findAttr_some hold
    obtain ⟨hlt, -⟩ := List.getElem?_eq_some_iff.mp hget
    have hy := hg.named y (List.mem_of_getElem? hget)
    have hkeyy : xattrKey x = xattrKey y := by
      rw [hkey, xattrKey, ← hf.index i y hold, hy.shortName_eq hname (hf.index i y hold)]
    dsimp only
    split
    · next hle => exact good_moveToBody hg hnamed hlt hle
    · exact good_replaceAt hg hnamed hget hkeyy
  | toBlock i y =>
    obtain ⟨hget, hname⟩ := findAttr_some hold
    have hy := hg.named y (List.mem_of_getElem? hget)
    have hkeyy : xattrKey x = xattrKey y := by
      rw [hkey, xattrKey, ← hf.index i y hold, hy.shortName_eq hname (hf.index i y hold)]
    dsimp only
    split
    · next hlt => exact good_moveToBlock hg hnamed hlt hkey (hf.alone i y hold hlt)
    · exact good_replaceAt hg hnamed hget hkeyy

/-! ### Calls and runs -/

variable {W : Type} {ops : XattrOps W} {α β : Type}

/-- A property of the attributes and their places. -/
def OfAttrs (P : XattrHandle → Prop) : Prop := ∀ h h', SameAttrs h h' → P h → P h'

/-- A step of which only the handle matters. -/
def HandleLeads (P : XattrHandle → Prop) (f : XattrM W α) (Q : XattrHandle → Prop) : Prop :=
  Leads (fun s => P s.1) f fun s => Q s.1

theorem OfAttrs.leads {P : XattrHandle → Prop} {f : XattrM W α} (hP : OfAttrs P)
    (hf : Keeps AttrsStay f) : HandleLeads P f P := hf.leads fun _ _ h => hP _ _ h

theorem ofAttrs_good : OfAttrs XattrHandle.Good := fun _ _ hs hg => hs.good hg

/-- The name can be set in the handle, where it is `old`. -/
def ReadyFor (name : List UInt8) (old : Option (ℕ × Xattr)) (h : XattrHandle) : Prop :=
  h.Good ∧ NameFits h name ∧ findAttr h.attrs name = old

theorem ofAttrs_readyFor {old : Option (ℕ × Xattr)} : OfAttrs (ReadyFor name old) := by
  rintro h h' hs ⟨hg, hf, hold⟩
  refine ⟨hs.good hg, ⟨hf.string, hf.len, ?_, ?_⟩, by rw [hs.attrs]; exact hold⟩
  · rw [hs.attrs]
    exact hf.index
  · rw [XattrHandle.block, hs.attrs, hs.ibodyCount]
    exact hf.alone

/-- If it fails the name can still be set, and if not the order is kept. -/
def AfterUpdate (name : List UInt8) (old : Option (ℕ × Xattr)) :
    Except XattrSetErr Unit → XattrHandle → Prop
  | .ok _, h => h.Good
  | .error _, h => ReadyFor name old h

theorem xattrArrayUpdate_good {value : List UInt8} {ibodyFree blockFree : ℤ}
    {old : Option (ℕ × Xattr)} {inInode : Bool} {s s' : XattrHandle × W}
    {r : Except XattrSetErr Unit} (hs : ReadyFor name old s.1)
    (hr : xattrArrayUpdate ops name value ibodyFree blockFree old inInode s = (r, s')) :
    AfterUpdate name old r s'.1 := by
  obtain ⟨place, hfor, hp⟩ :=
    xattrArrayUpdate_places ops s name value ibodyFree blockFree old inInode
  rw [hr] at hp
  cases r with
  | error err => exact ofAttrs_readyFor _ _ hp hs
  | ok a =>
    obtain ⟨h₁, x, hsame, hm, hplace⟩ := hp
    obtain ⟨hg, hf, hold⟩ := ofAttrs_readyFor _ _ hsame hs
    rw [← hold] at hfor hm
    show s'.1.Good
    rw [hplace]
    exact hfor.good hg hf hm

theorem xattrArrayUpdate_leads {value : List UInt8} {ibodyFree blockFree : ℤ}
    {old : Option (ℕ × Xattr)} {inInode : Bool} : HandleLeads (ReadyFor name old)
      (xattrArrayUpdate ops name value ibodyFree blockFree old inInode) XattrHandle.Good := by
  intro s hs
  rcases hr : xattrArrayUpdate ops name value ibodyFree blockFree old inInode s with ⟨err | a, s₁⟩
  · exact And.left (xattrArrayUpdate_good hs hr)
  · exact xattrArrayUpdate_good hs hr

theorem xattrUpdate_leads {value : List UInt8} {ibodyFree : ℤ} {old : Option (ℕ × Xattr)} :
    HandleLeads (ReadyFor name old)
      (xattrUpdate ops h name value ibodyFree old) XattrHandle.Good := by
  intro s hs
  rw [xattrUpdate]
  generalize (ops.blocksize : ℤ) - 32 - 4 - (spaceUsed (h.attrs.drop h.ibodyCount) : ℤ) = blockFree
  generalize (ops.eaInode && decide (minLargeEaSize ops.blocksize < value.length)) = inInode
  rcases hr : xattrArrayUpdate ops name value ibodyFree blockFree old inInode s with ⟨err | a, s₁⟩
  · have hs₁ : ReadyFor name old s₁.1 := xattrArrayUpdate_good hs hr
    rw [catch_of_error hr]
    split
    · exact xattrArrayUpdate_leads s₁ hs₁
    · exact hs₁.1
  · rw [catch_of_ok hr]
    exact xattrArrayUpdate_good hs hr

theorem xattrUpdateData_leads {value : List UInt8} {ibodyFree : ℤ} {old : Option (ℕ × Xattr)} :
    HandleLeads (ReadyFor name old)
      (xattrUpdateData ops h name value ibodyFree old) XattrHandle.Good :=
  Leads.bind (ofAttrs_readyFor.leads (keeps_onlyIf (keeps_throw _)))
    (fun _ => xattrArrayUpdate_leads) fun _ hr => hr.1

theorem xattrStore_leads {value : List UInt8} :
    HandleLeads (ReadyFor name (findAttr h.attrs name))
      (xattrStore ops h name value) XattrHandle.Good := by
  unfold xattrStore
  refine Leads.bind (ofAttrs_readyFor.leads (keeps_getMem _)) (fun _ => ?_) fun _ hr => hr.1
  refine Leads.bind (ofAttrs_readyFor.leads (keeps_ibodyRoom (opsKeep_attrsStay ops) h))
    (fun ibodyFree => ?_) fun _ hr => hr.1
  refine Leads.bind (Q := fun s => s.1.Good) ?_ (fun _ => ?_) fun _ hg => hg
  · split
    · exact xattrUpdateData_leads
    · exact xattrUpdate_leads
  · exact Leads.bind (ofAttrs_good.leads fun _ => SameAttrs.refl _)
      (fun _ => ofAttrs_good.leads (keeps_liftOp _)) fun _ hg => hg

/-- **Setting an attribute** keeps the order. -/
theorem good_xattrSet {value : List UInt8} {s : XattrHandle × W} (hg : s.1.Good)
    (hf : NameFits s.1 (cstr name)) : (xattrSet ops name value s).2.1.Good := by
  have hready : ReadyFor (cstr name) (findAttr s.1.attrs (cstr name)) s.1 := ⟨hg, hf, rfl⟩
  unfold xattrSet
  rw [bind_of_ok (show getHandle s = (.ok s.1, s) from rfl)]
  refine Leads.bind (ofAttrs_readyFor.leads (keeps_getMem _)) (fun _ => ?_) (fun _ hr => hr.1) s
    hready
  refine Leads.bind (ofAttrs_readyFor.leads (keeps_liftResult _)) (fun value => ?_) fun _ hr => hr.1
  intro s' hs'
  split
  · exact hs'.1
  · exact xattrStore_leads s' hs'

theorem good_removeAt (hg : h.Good) (hget : h.attrs[i]? = some y) : (h.removeAt i).Good := by
  obtain ⟨hi, -⟩ := List.getElem?_eq_some_iff.mp hget
  have hibody := hg.ibody
  have hlen : (h.attrs.eraseIdx i).length = h.attrs.length - 1 := List.length_eraseIdx_of_lt hi
  refine ⟨⟨?_, fun z hz => hg.named z (List.mem_of_mem_eraseIdx hz)⟩, ?_⟩
  · show (if i < h.ibodyCount then h.ibodyCount - 1 else h.ibodyCount) ≤ (h.attrs.eraseIdx i).length
    split <;> omega
  · show Sorted xattrKey
      ((h.attrs.eraseIdx i).drop (if i < h.ibodyCount then h.ibodyCount - 1 else h.ibodyCount))
    split
    · next hlt =>
      rw [drop_eraseIdx (by omega) (by omega), Nat.sub_add_cancel (by omega)]
      exact hg.sorted
    · exact hg.sorted.sublist ((List.eraseIdx_sublist h.attrs i).drop _)

/-- **Removing an attribute** keeps the order. -/
theorem good_xattrRemove {key : List UInt8} {s : XattrHandle × W} (hg : s.1.Good) :
    (xattrRemove ops key s).2.1.Good := by
  unfold xattrRemove
  rw [bind_of_ok (show getHandle s = (.ok s.1, s) from rfl)]
  rcases hf : findAttr s.1.attrs (cstr key) with _ | ⟨i, x⟩
  · exact hg
  · have hgood := good_removeAt hg (findAttr_some hf).1
    have hset : HandleLeads XattrHandle.Good (setHandle (s.1.removeAt i) : XattrM W Unit)
        XattrHandle.Good := fun _ _ => hgood
    refine Leads.bind (ofAttrs_good.leads
      (keeps_onlyIf ((opsKeep_attrsStay ops).tryDecRef x.eaIno)))
      (fun _ => ?_) (fun _ hg => hg) s hg
    exact Leads.bind hset (fun _ => ofAttrs_good.leads (keeps_liftOp _)) fun _ hg => hg

/-- What fits keeps the order. -/
theorem XattrCall.good_run {call : XattrCall} {s : XattrHandle × W} (hg : s.1.Good)
    (hf : call.Fits s.1) : (call.run ops s).2.1.Good := by
  cases call with
  | remove key => exact good_xattrRemove hg
  | set name value =>
    obtain ⟨hlen, hall⟩ := hf
    exact good_xattrSet hg ⟨cstr_of_not_mem (zero_not_mem_cstr name), hlen,
      fun i y hy => (hall i y hy).1, fun i y hy => (hall i y hy).2⟩

/-- Successful calls leave the attributes of the block in order, if they find them so. -/
def KeepsBlockSorted (ops : XattrOps W) (fits : XattrHandle → XattrCall → Prop) : Prop :=
  ∀ s s' : XattrHandle × W, s.1.Loaded → Sorted xattrKey s.1.block → XattrRun ops fits s s' →
    s'.1.BlockSorted

/-- **Attributes in the EA block stay in order** in every run of calls whose names fit. -/
theorem keepsBlockSorted_fits (ops : XattrOps W) : KeepsBlockSorted ops XattrCall.Fits := by
  intro s s' hload hs hrun
  have hgood : s'.1.Good := by
    induction hrun with
    | refl => exact ⟨hload, hs⟩
    | step call _ hf hr ih =>
      have h := @XattrCall.good_run W ops _ _ ih hf
      rwa [hr] at h
  exact hgood.blockSorted

/-- Nothing fails, and the inode has no room for attributes. -/
def roomyOps : XattrOps Unit where
  getMem _ w := (true, w)
  readExtraIsize _ w := (.ok 0, w)
  createEaInode _ w := (.ok 12, w)
  inodeDecRef _ w := (.ok (), w)
  xattrsWrite _ w := (.ok (), w)
  inodeSize := 128
  wantExtraIsize := 0
  blocksize := 1024
  eaInode := false

/-- An attribute of a user, and the encryption context. -/
def encryptedHandle : XattrHandle :=
  ⟨[⟨1, asciiBytes "user.foo", asciiBytes "foo", [1], 1, 0⟩,
    ⟨9, asciiBytes "c", asciiBytes "c", [1], 1, 0⟩], 4, 0, 12, false⟩

theorem encryptedHandle_loaded : encryptedHandle.Loaded := by
  refine ⟨by decide, fun x hx => ?_⟩
  rcases List.mem_cons.mp hx with rfl | hx
  · exact ⟨by decide, by decide, by decide⟩
  · rw [List.mem_singleton.mp hx]
    exact ⟨by decide, by decide, by decide⟩

theorem encryptedHandle_sorted : Sorted xattrKey encryptedHandle.block :=
  List.pairwise_pair.mpr (by decide)

theorem encryptedHandle_no_bar :
    findAttr encryptedHandle.attrs (cstr (asciiBytes "user.bar")) = none := by decide

theorem keepsBlockSorted_fits_user :
    ((XattrCall.set (asciiBytes "user.bar") [2]).run roomyOps (encryptedHandle,
      ())).2.1.BlockSorted :=
  keepsBlockSorted_fits roomyOps (encryptedHandle,
    ()) _ encryptedHandle_loaded encryptedHandle_sorted
    (.step (.set (asciiBytes "user.bar") [2]) (.refl _)
      ⟨by decide, fun _ _ hf => absurd (encryptedHandle_no_bar.symm.trans hf) (by simp)⟩
      (Prod.ext (by decide) rfl))

/-- Setting the encryption context by its name gives it the name index 0, at the place of
its old name index. -/
theorem not_keepsBlockSorted_encrypted : ¬KeepsBlockSorted roomyOps fun _ _ => True := by
  intro h
  have hrun : XattrRun roomyOps (fun _ _ => True) (encryptedHandle, ())
      ((XattrCall.set (asciiBytes "c") [2]).run roomyOps (encryptedHandle, ())).2 :=
    .step _ (.refl _) trivial (Prod.ext (by decide) rfl)
  have hlt := List.pairwise_pair.mp (h _ _ encryptedHandle_loaded encryptedHandle_sorted hrun).attrs
  exact absurd hlt (by decide)

end Order

end E2fsprogs
