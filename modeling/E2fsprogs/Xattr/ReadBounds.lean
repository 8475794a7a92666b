import E2fsprogs.Xattr.Read

/-!
# Which bytes reading attributes looks at

The first loop of `read_xattrs_from_buffer` finds the entries of an area (`E2fsprogs.EntryChain`)
and stays inside it whatever the bytes are. The second loop does not: it takes values off the
bytes that remain, although values may overlap, so that the count may run out in front of an
entry – which is then left out – or wrap around below zero; and the hash of a value reads up to
three bytes behind it.

`E2fsprogs.ReadsSafe` says when none of this happens: **reading is in bounds and complete
exactly then**.
-/

namespace E2fsprogs

/-- The bytes `(o, n)` lie in the storage of an area. -/
def EaArea.Contains (a : EaArea) (r : ℕ × ℕ) : Prop :=
  r.2 = 0 ∨ a.entries ≤ r.1 ∧ r.1 + r.2 ≤ a.valuesSize

/-! ### The entries of an area -/

/-- The entries from offset `e` on, as the first loop goes through them: their offsets, and
the offset of the end. The end is a null entry, or there is no room for an entry left. -/
inductive EntryChain (a : EaArea) : ℕ → List ℕ → ℕ → Prop
  | last {e : ℕ} : a.entries ≤ e → e + 16 ≤ a.valuesSize → eIsLast a.buf e → EntryChain a e [] e
  | full {e : ℕ} : a.entries ≤ e → e ≤ a.valuesSize → a.valuesSize < e + 16 → EntryChain a e [] e
  | entry {e endOff : ℕ} {es : List ℕ} : a.entries ≤ e → ¬eIsLast a.buf e →
      eNext a.buf e ≤ a.valuesSize → EntryChain a (eNext a.buf e) es endOff →
      EntryChain a e (e :: es) endOff

section Chain

variable {a : EaArea}

theorem le_eNext (b : Block) (e : ℕ) : e + 16 ≤ eNext b e := by
  rw [eNext, eaLen, eaEntrySize]
  omega

theorem EntryChain.unique {e endOff endOff' : ℕ} {es es' : List ℕ} (h : EntryChain a e es endOff)
    (h' : EntryChain a e es' endOff') : es = es' ∧ endOff = endOff' := by
  induction h generalizing es' with
  | last h1 h2 h3 =>
    cases h' with
    | last _ _ _ => exact ⟨rfl, rfl⟩
    | full _ _ h => omega
    | entry _ hl _ _ => exact absurd h3 hl
  | @full e h1 h2 h3 =>
    have hnext := le_eNext a.buf e
    cases h' with
    | last _ h _ => omega
    | full _ _ _ => exact ⟨rfl, rfl⟩
    | entry _ _ h _ => omega
  | @entry e _ _ h1 h2 h3 _ ih =>
    have hnext := le_eNext a.buf e
    cases h' with
    | last _ _ h => exact absurd h h2
    | full _ _ h => omega
    | entry _ _ _ h =>
      obtain ⟨rfl, rfl⟩ := ih h
      exact ⟨rfl, rfl⟩

/-- **The first loop** finds the end of the chain of entries, or an error when there is none,
and reads bytes of the area only. -/
theorem findEnd_spec (fuel : ℕ) : ∀ (e remain : ℕ) {reads : List (ℕ × ℕ)}, a.entries ≤ e →
    e + remain = a.valuesSize → remain ≤ fuel → (∀ r ∈ reads, a.Contains r) →
    (∀ r ∈ (findEnd a fuel e remain reads).2, a.Contains r) ∧
    ((∃ es endOff, EntryChain a e es endOff ∧ (findEnd a fuel e remain reads).1 = .ok endOff) ∨
      ((findEnd a fuel e remain reads).1 = .error .eaBadNameLen ∧
        ¬∃ es endOff, EntryChain a e es endOff)) := by
  -- on the bytes that remain; every entry takes at least sixteen of them
  induction fuel with
  | zero =>
    intro e remain reads he hrem hfuel hreads
    exact ⟨hreads, Or.inl ⟨[], e, .full he (by omega) (by omega), rfl⟩⟩
  | succ fuel ih =>
    intro e remain reads he hrem hfuel hreads
    rw [findEnd]
    by_cases h16 : 16 ≤ remain
    · have hreads' : ∀ r ∈ (e, 4) :: reads, a.Contains r :=
        List.forall_mem_cons.mpr ⟨Or.inr ⟨he, by show e + 4 ≤ _; omega⟩, hreads⟩
      rw [if_pos h16]
      dsimp only
      by_cases hl : eIsLast a.buf e
      · rw [if_pos hl]
        exact ⟨hreads', Or.inl ⟨[], e, .last he (by omega) hl, rfl⟩⟩
      · rw [if_neg hl]
        have hreads'' : ∀ r ∈ (e, 1) :: (e, 4) :: reads, a.Contains r :=
          List.forall_mem_cons.mpr ⟨Or.inr ⟨he, by show e + 1 ≤ _; omega⟩, hreads'⟩
        have hnext : eNext a.buf e = e + 16 + eaSize (eNameLen a.buf e) := by
          rw [eNext, eaLen, eaEntrySize, Nat.add_assoc]
        by_cases hname : remain - 16 < eaSize (eNameLen a.buf e)
        · rw [if_pos hname]
          refine ⟨hreads'', Or.inr ⟨rfl, ?_⟩⟩
          rintro ⟨es, endOff, hc⟩
          cases hc with
          | last _ _ h => exact hl h
          | full _ _ h => omega
          | entry _ _ h _ => omega
        · rw [if_neg hname]
          obtain ⟨h1, h2⟩ := ih (eNext a.buf e)
            (remain - 16 - eaSize (eNameLen a.buf e)) (by omega) (by omega) (by omega) hreads''
          refine ⟨h1, h2.imp ?_ ?_⟩
          · rintro ⟨es, endOff, hc, hr⟩
            exact ⟨e :: es, endOff, .entry he hl (by omega) hc, hr⟩
          · rintro ⟨hr, hno⟩
            refine ⟨hr, ?_⟩
            rintro ⟨es, endOff, hc⟩
            cases hc with
            | last _ _ h => exact hl h
            | full _ _ h => omega
            | entry _ _ _ h => exact hno ⟨_, _, h⟩
    · rw [if_neg h16]
      exact ⟨hreads, Or.inl ⟨[], e, .full he (by omega) (by omega), rfl⟩⟩

end Chain

/-! ### Entries the second loop accepts -/

section Entry

variable (a : EaArea) (endOff remain e : ℕ)

/-- What remains after the header and the name of an entry. -/
def remainAfterName : ℕ := sub32 (sub32 remain 16) (eaSize (eNameLen a.buf e))

/-- The checks of a value fail, with `remain` bytes remaining. -/
def ValueRejected : Prop :=
  remain < eValueSize a.buf e ∨
    a.valuesSize < (eValueOffs a.buf e + eValueSize a.buf e) % 2 ^ 32 ∨
    (0 < eValueSize a.buf e ∧ eValueOffs a.buf e < endOff + 4)

/-- The hash of an entry is not given, or right. -/
def HashOk : Prop :=
  eHash a.buf e = 0 ∨ eHash a.buf e = ext2fsExtAttrHashEntry a.buf e (eValueOffs a.buf e)

/-- What is read of an accepted value lies in the area: the value, and the words that are
hashed. -/
def ValueInside : Prop :=
  a.Contains (eValueOffs a.buf e, eValueSize a.buf e) ∧
    (eHash a.buf e ≠ 0 → eValueSize a.buf e ≠ 0 →
      a.Contains (eValueOffs a.buf e, (eValueSize a.buf e + 3) % 2 ^ 32 / 4 * 4))

end Entry

/-- **Reading the entries `es` is safe** when `remain` bytes remain in front of the first of
them: no entry is left out because nothing remains, the values that are accepted lie in the
area with what is hashed of them, and the loop finds an end behind the last entry. -/
def ReadsSafe (a : EaArea) (endOff : ℕ) : ℕ → List ℕ → Prop
  | remain, [] => 16 ≤ remain → endOff + 4 ≤ a.valuesSize ∧ eIsLast a.buf endOff
  | remain, e :: es =>
      16 ≤ remain ∧
      (ValueRejected a endOff (remainAfterName a remain e) e ∨
        ValueInside a e ∧
        (HashOk a e →
          ReadsSafe a endOff (sub32 (remainAfterName a remain e) (eValueSize a.buf e)) es))

section Steps

variable {fs : EaFs} {a : EaArea} {endOff : ℕ} {s : XReader}

variable (fs) in
/-- A rejected value is not read. -/
theorem readValue_of_rejected (hinum : eValueInum a.buf s.entry = 0)
    (h : ValueRejected a endOff s.remain s.entry) :
    ∃ err, readValue fs a endOff s = (.error err, s) := by
  rw [readValue]
  dsimp only
  rw [if_neg (fun hn => hn.2 hinum), if_pos hinum]
  by_cases h1 : s.remain < eValueSize a.buf s.entry
  · exact ⟨_, if_pos h1⟩
  · rw [if_neg h1]
    by_cases h2 : a.valuesSize < (eValueOffs a.buf s.entry + eValueSize a.buf s.entry) % 2 ^ 32
    · exact ⟨_, if_pos h2⟩
    · rw [if_neg h2, if_pos ((h.resolve_left h1).resolve_left h2)]
      exact ⟨_, rfl⟩

/-- A value that is not rejected is read, if there is memory for it. -/
theorem readValue_of_not_rejected (hinum : eValueInum a.buf s.entry = 0)
    (h : ¬ValueRejected a endOff s.remain s.entry)
    (hmem : fs.malloc (eValueSize a.buf s.entry) = true) :
    readValue fs a endOff s =
      (.ok (bytesAt a.buf (eValueOffs a.buf s.entry) (eValueSize a.buf s.entry)),
        ⟨s.entry, sub32 s.remain (eValueSize a.buf s.entry), s.attrs,
          (eValueOffs a.buf s.entry, eValueSize a.buf s.entry) :: s.reads⟩) := by
  simp only [ValueRejected, not_or] at h
  rw [readValue]
  dsimp only
  rw [if_neg (fun hn => hn.2 hinum), if_pos hinum, if_neg h.1, if_neg h.2.1, if_neg h.2.2,
    if_neg (by simp [hmem])]
  rfl

theorem readValue_of_no_memory (hinum : eValueInum a.buf s.entry = 0)
    (h : ¬ValueRejected a endOff s.remain s.entry)
    (hmem : ¬fs.malloc (eValueSize a.buf s.entry) = true) :
    readValue fs a endOff s = (.error .noMemory,
      ⟨s.entry, sub32 s.remain (eValueSize a.buf s.entry), s.attrs, s.reads⟩) := by
  simp only [ValueRejected, not_or] at h
  rw [readValue]
  dsimp only
  rw [if_neg (fun hn => hn.2 hinum), if_pos hinum, if_neg h.1, if_neg h.2.1, if_neg h.2.2,
    if_pos (by simp [hmem])]

/-- The bytes that `checkHash` reads. -/
def hashReads (a : EaArea) (e : ℕ) : List (ℕ × ℕ) :=
  if eHash a.buf e = 0 then []
  else if eValueSize a.buf e ≠ 0 then
    [(eValueOffs a.buf e, (eValueSize a.buf e + 3) % 2 ^ 32 / 4 * 4),
      (e + eaEntrySize, eNameLen a.buf e)]
  else [(e + eaEntrySize, eNameLen a.buf e)]

variable (fs) in
theorem checkHash_spec (hinum : eValueInum a.buf s.entry = 0) :
    (checkHash fs a s).2 = { s with reads := hashReads a s.entry ++ s.reads } ∧
    ((checkHash fs a s).1 = none ↔ HashOk a s.entry) := by
  rw [checkHash, hashReads, HashOk]
  by_cases h0 : eHash a.buf s.entry = 0
  · rw [if_pos h0, if_pos h0]
    exact ⟨rfl, ⟨fun _ => Or.inl h0, fun _ => rfl⟩⟩
  · rw [if_neg h0, if_neg h0]
    obtain ⟨err, herr⟩ := fs.readInode_zero
    obtain ⟨s', hs', hentry, hh⟩ : ∃ s' : XReader, s' = { s with reads :=
        (if eValueSize a.buf s.entry ≠ 0 then
          [(eValueOffs a.buf s.entry, (eValueSize a.buf s.entry + 3) % 2 ^ 32 / 4 * 4),
            (s.entry + eaEntrySize, eNameLen a.buf s.entry)]
        else [(s.entry + eaEntrySize, eNameLen a.buf s.entry)]) ++ s.reads } ∧
        s'.entry = s.entry ∧ hashEntry2 fs a s =
          (.ok (ext2fsExtAttrHashEntry a.buf s.entry (eValueOffs a.buf s.entry)), s') := by
      refine ⟨_, rfl, rfl, ?_⟩
      rw [hashEntry2, if_pos hinum]
      by_cases hsize : eValueSize a.buf s.entry ≠ 0
      · rw [if_pos hsize, if_pos hsize]
        rfl
      · rw [if_neg hsize, if_neg hsize]
        rfl
    rw [hh]
    dsimp only
    rw [hentry, hinum, herr, ← hs']
    by_cases hash : eHash a.buf s.entry = ext2fsExtAttrHashEntry a.buf s.entry
      (eValueOffs a.buf s.entry)
    · rw [if_pos hash]
      exact ⟨rfl, ⟨fun _ => Or.inr hash, fun _ => rfl⟩⟩
    · rw [if_neg hash]
      refine ⟨rfl, ⟨fun h => ?_, fun h => absurd (h.resolve_left h0) hash⟩⟩
      cases h

/-- The bytes of the header and the name of an entry. -/
def nameReads (a : EaArea) (e : ℕ) : List (ℕ × ℕ) :=
  [(e + eaEntrySize, eNameLen a.buf e), (e, eaEntrySize)]

/-- The bytes of the value of an entry, and those that are hashed. -/
def valueReads (a : EaArea) (e : ℕ) : List (ℕ × ℕ) :=
  hashReads a e ++ [(eValueOffs a.buf e, eValueSize a.buf e)]

/-- The attribute made of an entry with its value in the area. -/
def xattrAt (a : EaArea) (e : ℕ) : Xattr :=
  xattrOf a.buf e (bytesAt a.buf (eValueOffs a.buf e) (eValueSize a.buf e))

/-- Nothing keeps the attributes from being stored. -/
def EaFs.HasMemory (fs : EaFs) : Prop := (∀ n, fs.malloc n = true) ∧ ∀ n, fs.expand n = true

variable (fs endOff) in
/-- **A round of the second loop** at an entry: it fails before the value is read, it fails at
the hash, or the attribute is taken over. -/
theorem readEntry_cases (hinum : eValueInum a.buf s.entry = 0) :
    (∃ err reads, readEntry fs a endOff s = .inr ⟨some err, s.attrs, reads⟩ ∧
      (∀ r ∈ reads, r ∈ nameReads a s.entry ++ s.reads) ∧ s.reads ⊆ reads ∧
      (fs.HasMemory → ValueRejected a endOff (remainAfterName a s.remain s.entry) s.entry)) ∨
    (¬ValueRejected a endOff (remainAfterName a s.remain s.entry) s.entry ∧ ¬HashOk a s.entry ∧
      ∃ err, readEntry fs a endOff s = .inr ⟨some err, s.attrs,
        valueReads a s.entry ++ (nameReads a s.entry ++ s.reads)⟩) ∨
    (¬ValueRejected a endOff (remainAfterName a s.remain s.entry) s.entry ∧ HashOk a s.entry ∧
      readEntry fs a endOff s = .inl
        { entry := eNext a.buf s.entry
          remain := sub32 (remainAfterName a s.remain s.entry) (eValueSize a.buf s.entry)
          attrs := s.attrs ++ [xattrAt a s.entry]
          reads := valueReads a s.entry ++ (nameReads a s.entry ++ s.reads) }) := by
  have hentry : (s.afterName a).entry = s.entry := rfl
  have hremain : (s.afterName a).remain = remainAfterName a s.remain s.entry := rfl
  have hreads : (s.afterName a).reads = nameReads a s.entry ++ s.reads := rfl
  rw [readEntry]
  -- memory for the array, for the name and for the value, in that order
  by_cases hexp : fs.expand s.attrs.length = true
  swap
  · rw [if_pos (by simp [hexp])]
    exact Or.inl ⟨_, _, rfl, fun r hr => List.mem_append_right _ hr, fun r hr => hr,
      fun hm => absurd (hm.2 _) hexp⟩
  rw [if_neg (by simp [hexp])]
  by_cases hname : fs.malloc (eNameLen a.buf s.entry +
      ((findEaPrefix (eNameIndex a.buf s.entry)).getD []).length + 1) = true
  swap
  · rw [if_pos (by simp [hname])]
    exact Or.inl ⟨_, _, rfl, fun r hr => List.mem_cons_of_mem _ hr,
      fun r hr => List.mem_cons_of_mem _ hr, fun hm => absurd (hm.1 _) hname⟩
  rw [if_neg (by simp [hname])]
  by_cases hrej : ValueRejected a endOff (remainAfterName a s.remain s.entry) s.entry
  · obtain ⟨err, herr⟩ := readValue_of_rejected fs (s := s.afterName a) hinum hrej
    rw [herr]
    exact Or.inl ⟨err, _, rfl, fun r hr => hr, fun r hr => hreads ▸ List.mem_append_right _ hr,
      fun _ => hrej⟩
  by_cases hmem : fs.malloc (eValueSize a.buf s.entry) = true
  swap
  · rw [readValue_of_no_memory (s := s.afterName a) hinum hrej hmem]
    exact Or.inl ⟨_, _, rfl, fun r hr => hr, fun r hr => hreads ▸ List.mem_append_right _ hr,
      fun hm => absurd (hm.1 _) hmem⟩
  rw [readValue_of_not_rejected (s := s.afterName a) hinum hrej hmem, hentry]
  dsimp only
  obtain ⟨s', hs'⟩ : ∃ s' : XReader, s' = ⟨s.entry,
      sub32 (s.afterName a).remain (eValueSize a.buf s.entry), (s.afterName a).attrs,
      (eValueOffs a.buf s.entry, eValueSize a.buf s.entry) :: (s.afterName a).reads⟩ := ⟨_, rfl⟩
  have hentry' : s'.entry = s.entry := by rw [hs']
  have hall : hashReads a s.entry ++ s'.reads =
      valueReads a s.entry ++ (nameReads a s.entry ++ s.reads) := by
    rw [hs', valueReads, List.append_assoc]
    rfl
  obtain ⟨h1, h2⟩ := checkHash_spec fs (a := a) (s := s') (by rw [hentry']; exact hinum)
  rw [hentry', hall] at h1
  rw [hentry'] at h2
  rw [← hs', ← Prod.mk.eta (p := checkHash fs a s'), h1]
  refine Or.inr ?_
  cases hc : (checkHash fs a s').1 with
  | some err =>
    have hno : ¬HashOk a s.entry := fun hok => by
      rw [h2.mpr hok] at hc
      cases hc
    refine Or.inl ⟨hrej, hno, err, ?_⟩
    rw [hs']
    rfl
  | none =>
    refine Or.inr ⟨hrej, h2.mp hc, ?_⟩
    rw [hs']
    rfl

theorem readValue_mono : (readValue fs a endOff s).2.entry = s.entry ∧
    s.reads ⊆ (readValue fs a endOff s).2.reads := by
  have hrefl : s.reads ⊆ s.reads := fun _ h => h
  rw [readValue]
  dsimp only
  split
  · exact ⟨rfl, hrefl⟩
  split
  · split
    · exact ⟨rfl, hrefl⟩
    split
    · exact ⟨rfl, hrefl⟩
    split
    · exact ⟨rfl, hrefl⟩
    split
    · exact ⟨rfl, hrefl⟩
    · exact ⟨rfl, List.subset_cons_self _ _⟩
  · split
    · exact ⟨rfl, hrefl⟩
    split
    · exact ⟨rfl, hrefl⟩
    split
    · exact ⟨rfl, hrefl⟩
    split
    · exact ⟨rfl, hrefl⟩
    · exact ⟨rfl, hrefl⟩

theorem hashEntry2_mono : s.reads ⊆ (hashEntry2 fs a s).2.reads := by
  rw [hashEntry2]
  split
  · dsimp only
    split
    · exact fun r hr => List.mem_cons_of_mem _ (List.mem_cons_of_mem _ hr)
    · exact List.subset_cons_self _ _
  · split
    · exact List.subset_cons_self _ _
    · exact List.subset_cons_self _ _

theorem checkHash_mono : s.reads ⊆ (checkHash fs a s).2.reads := by
  have h := @hashEntry2_mono fs a s
  rw [checkHash]
  split
  · exact fun _ hr => hr
  split
  · next hh =>
    rw [hh] at h
    exact h
  · next hh =>
    rw [hh] at h
    split
    · exact h
    split
    · exact h
    split
    · exact h
    · exact h

/-- What is left of a state once a round is over. -/
def roundReads : XReader ⊕ XEnd → List (ℕ × ℕ)
  | .inl s => s.reads
  | .inr r => r.reads

theorem readEntry_mono : s.reads ⊆ roundReads (readEntry fs a endOff s) := by
  have hname : s.reads ⊆ (s.afterName a).reads :=
    fun r hr => List.mem_cons_of_mem _ (List.mem_cons_of_mem _ hr)
  have hvalue := (@readValue_mono fs a endOff (s.afterName a)).2
  rw [readEntry]
  split
  · exact fun _ hr => hr
  split
  · exact List.subset_cons_self _ _
  split
  · next hv =>
    rw [hv] at hvalue
    exact fun r hr => hvalue (hname hr)
  · next s' hv =>
    rw [hv] at hvalue
    have hhash := @checkHash_mono fs a s'
    split
    · next hc =>
      rw [hc] at hhash
      exact fun r hr => hhash (hvalue (hname hr))
    · next hc =>
      rw [hc] at hhash
      exact fun r hr => hhash (hvalue (hname hr))

/-- Reads are not forgotten. -/
theorem reads_subset_of_leaves {r : XEnd} (h : Loop.Leaves (readStep fs a endOff) s r) :
    s.reads ⊆ r.reads := by
  have hstep : ∀ s, s.reads ⊆ roundReads (readStep fs a endOff s) := by
    intro s
    rw [readStep]
    split
    · dsimp only
      split
      · exact List.subset_cons_self _ _
      · exact fun r hr => readEntry_mono (List.mem_cons_of_mem _ hr)
    · exact fun _ hr => hr
  obtain ⟨n, hn⟩ := h
  induction n generalizing s with
  | zero => cases hn
  | succ n ih =>
    have hs := hstep s
    rw [Loop.run] at hn
    cases hr : readStep fs a endOff s with
    | inl s' =>
      rw [hr] at hn hs
      exact fun x hx => ih hn (hs hx)
    | inr r' =>
      rw [hr] at hn hs
      cases hn
      exact hs

/-- What a round has read is among what has been read in the end. -/
theorem roundReads_subset_of_leaves {r : XEnd} (h : Loop.Leaves (readStep fs a endOff) s r) :
    roundReads (readStep fs a endOff s) ⊆ r.reads := by
  cases hs : readStep fs a endOff s with
  | inl s' =>
    exact reads_subset_of_leaves (Loop.leaves_of_reach_start (Relation.ReflTransGen.single hs) h)
  | inr r' =>
    rw [Loop.leaves_unique h (Loop.leaves_of_inr hs)]
    exact fun _ hr => hr

/-- A round at an entry that is not null reads its header, if there is memory. -/
theorem header_mem_roundReads (hmem : fs.HasMemory) (h16 : 16 ≤ s.remain)
    (hl : ¬eIsLast a.buf s.entry) :
    (s.entry, eaEntrySize) ∈ roundReads (readStep fs a endOff s) := by
  have hname : (s.entry, eaEntrySize) ∈ ((s.read s.entry 4).afterName a).reads :=
    List.mem_cons_of_mem _ List.mem_cons_self
  have hvalue := (@readValue_mono fs a endOff ((s.read s.entry 4).afterName a)).2
  have hstep : readStep fs a endOff s = readEntry fs a endOff (s.read s.entry 4) := by
    rw [readStep, if_pos h16]
    exact if_neg hl
  rw [hstep, readEntry, if_neg (by simp [hmem.2]), if_neg (by simp [hmem.1])]
  split
  · next hv =>
    rw [hv] at hvalue
    exact hvalue hname
  · next s' hv =>
    rw [hv] at hvalue
    have hhash := @checkHash_mono fs a s'
    split
    · next hc =>
      rw [hc] at hhash
      exact hhash (hvalue hname)
    · next hc =>
      rw [hc] at hhash
      exact hhash (hvalue hname)

end Steps

/-! ### The second loop -/

section Run

variable {fs : EaFs} {a : EaArea} {endOff : ℕ}

theorem contains_nameReads {e : ℕ} (he : a.entries ≤ e) (hnext : eNext a.buf e ≤ a.valuesSize) :
    ∀ r ∈ nameReads a e, a.Contains r := by
  have hlen := le_eaSize (eNameLen a.buf e)
  rw [eNext, eaLen, eaEntrySize] at hnext
  simp only [nameReads, List.forall_mem_cons, eaEntrySize]
  refine ⟨Or.inr ⟨?_, ?_⟩, Or.inr ⟨?_, ?_⟩, fun r hr => absurd hr List.not_mem_nil⟩
  · show a.entries ≤ e + 16
    omega
  · show e + 16 + eNameLen a.buf e ≤ a.valuesSize
    omega
  · exact he
  · show e + 16 ≤ a.valuesSize
    omega

theorem contains_valueReads_iff {e : ℕ} (he : a.entries ≤ e)
    (hnext : eNext a.buf e ≤ a.valuesSize) :
    (∀ r ∈ valueReads a e, a.Contains r) ↔ ValueInside a e := by
  have hname : a.Contains (e + eaEntrySize, eNameLen a.buf e) :=
    contains_nameReads he hnext _ List.mem_cons_self
  rw [valueReads, hashReads, ValueInside, List.forall_mem_append,
    List.forall_mem_singleton, and_comm]
  refine and_congr_right fun _ => ?_
  by_cases h0 : eHash a.buf e = 0
  · rw [if_pos h0]
    exact ⟨fun _ h => absurd h0 h, fun _ r hr => absurd hr List.not_mem_nil⟩
  · rw [if_neg h0]
    by_cases hsize : eValueSize a.buf e ≠ 0
    · rw [if_pos hsize, List.forall_mem_cons, List.forall_mem_singleton]
      exact ⟨fun h _ _ => h.1, fun h => ⟨h h0 hsize, hname⟩⟩
    · rw [if_neg hsize, List.forall_mem_singleton]
      exact ⟨fun _ _ h => absurd h hsize, fun _ => hname⟩

variable (fs) in
/-- **When reading is safe**, the second loop comes to an end, has read bytes of the area only,
and has taken over all entries if it succeeds. -/
theorem leaves_of_readsSafe {es : List ℕ} : ∀ {s : XReader}, EntryChain a s.entry es endOff →
    (∀ e ∈ es, eValueInum a.buf e = 0) → ReadsSafe a endOff s.remain es →
    (∀ r ∈ s.reads, a.Contains r) →
    ∃ r, Loop.Leaves (readStep fs a endOff) s r ∧ (∀ rd ∈ r.reads, a.Contains rd) ∧
      (r.err = none → r.attrs = s.attrs ++ es.map (xattrAt a)) := by
  -- over the chain of entries
  induction es with
  | nil =>
    intro s hc _ hsafe hreads
    have hend : s.entry = endOff ∧ a.entries ≤ s.entry := by
      cases hc with
      | last h _ _ => exact ⟨rfl, h⟩
      | full h _ _ => exact ⟨rfl, h⟩
    by_cases h16 : 16 ≤ s.remain
    · obtain ⟨h4, hl⟩ := hsafe h16
      refine ⟨(s.read s.entry 4).finish none, Loop.leaves_of_inr ?_, ?_, fun _ => ?_⟩
      · rw [readStep, if_pos h16]
        exact if_pos (hend.1 ▸ hl)
      · refine List.forall_mem_cons.mpr ⟨Or.inr ⟨hend.2, ?_⟩, hreads⟩
        show s.entry + 4 ≤ a.valuesSize
        rw [hend.1]
        exact h4
      · rw [List.map_nil, List.append_nil]
        rfl
    · refine ⟨s.finish none, Loop.leaves_of_inr ?_, hreads, fun _ => ?_⟩
      · rw [readStep, if_neg h16]
      · rw [List.map_nil, List.append_nil]
        rfl
  | cons e es ih =>
    intro s hc hinum hsafe hreads
    obtain ⟨h16, hsafe⟩ := hsafe
    cases hc with
    | entry he hl hnext hc =>
    have hlt := le_eNext a.buf s.entry
    have hreads4 : ∀ r ∈ (s.read s.entry 4).reads, a.Contains r :=
      List.forall_mem_cons.mpr ⟨Or.inr ⟨he, by show s.entry + 4 ≤ _; omega⟩, hreads⟩
    have hstep : readStep fs a endOff s = readEntry fs a endOff (s.read s.entry 4) := by
      rw [readStep, if_pos h16]
      exact if_neg hl
    have hnames : ∀ r ∈ nameReads a s.entry ++ (s.read s.entry 4).reads, a.Contains r :=
      List.forall_mem_append.mpr ⟨contains_nameReads he hnext, hreads4⟩
    have hvalues : ¬ValueRejected a endOff (remainAfterName a s.remain s.entry) s.entry →
        ∀ r ∈ valueReads a s.entry ++ (nameReads a s.entry ++ (s.read s.entry 4).reads),
          a.Contains r := by
      intro hrej
      refine List.forall_mem_append.mpr ⟨?_, hnames⟩
      exact (contains_valueReads_iff he hnext).mpr (hsafe.resolve_left hrej).1
    rcases readEntry_cases fs endOff (s := s.read s.entry 4)
      (hinum s.entry List.mem_cons_self) with
      ⟨err, reads, h1, h2, -, -⟩ | ⟨hrej, -, err, h1⟩ | ⟨hrej, hok, h1⟩
    · exact ⟨_, Loop.leaves_of_inr (hstep.trans h1), fun r hr => hnames r (h2 r hr),
        fun h => by cases h⟩
    · exact ⟨_, Loop.leaves_of_inr (hstep.trans h1), hvalues hrej, fun h => by cases h⟩
    · obtain ⟨r, hr, hr1, hr2⟩ := ih (s := ⟨eNext a.buf s.entry,
          sub32 (remainAfterName a s.remain s.entry) (eValueSize a.buf s.entry),
          s.attrs ++ [xattrAt a s.entry],
          valueReads a s.entry ++ (nameReads a s.entry ++ (s.read s.entry 4).reads)⟩) hc
        (fun e he => hinum e (List.mem_cons_of_mem _ he))
        ((hsafe.resolve_left hrej).2 hok) (hvalues hrej)
      refine ⟨r, Loop.leaves_of_round (hstep.trans h1) hr, hr1, fun h => ?_⟩
      rw [hr2 h, List.map_cons, List.append_assoc]
      rfl

/-- **When reading is not safe**, and there is memory, the second loop reads a byte outside of
the area, leaves an entry out, or does not come to an end. -/
theorem not_leaves_of_not_readsSafe (hmem : fs.HasMemory) {es : List ℕ} : ∀ {s : XReader},
    EntryChain a s.entry es endOff → (∀ e ∈ es, eValueInum a.buf e = 0) →
    ¬ReadsSafe a endOff s.remain es →
    ¬∃ r, Loop.Leaves (readStep fs a endOff) s r ∧ (∀ rd ∈ r.reads, a.Contains rd) ∧
      (r.err = none → r.attrs = s.attrs ++ es.map (xattrAt a)) := by
  induction es with
  | nil =>
    rintro s hc - hsafe ⟨r, hr, hreads, -⟩
    rw [ReadsSafe, Classical.not_imp] at hsafe
    obtain ⟨h16, hbad⟩ := hsafe
    have hround := roundReads_subset_of_leaves hr
    -- the loop is at the end of the entries, and looks for a null entry there
    have hnull : a.Contains (s.entry, 4) := by
      refine hreads _ (hround ?_)
      rw [readStep, if_pos h16]
      dsimp only
      split
      · exact List.mem_cons_self
      · exact readEntry_mono List.mem_cons_self
    have h4 : s.entry + 4 ≤ a.valuesSize := (hnull.resolve_left (by simp)).2
    cases hc with
    | last _ _ hl => exact hbad ⟨h4, hl⟩
    | full _ _ hfull =>
      have hl : ¬eIsLast a.buf s.entry := fun hl => hbad ⟨h4, hl⟩
      have hhead := hreads _ (hround (header_mem_roundReads hmem h16 hl))
      have h' : s.entry + 16 ≤ a.valuesSize := (hhead.resolve_left (by simp [eaEntrySize])).2
      omega
  | cons e es ih =>
    rintro s hc hinum hsafe ⟨r, hr, hreads, hattrs⟩
    by_cases h16 : 16 ≤ s.remain
    · cases hc with
      | entry he hl hnext hc =>
      have hround := roundReads_subset_of_leaves hr
      have hstep : readStep fs a endOff s = readEntry fs a endOff (s.read s.entry 4) := by
        rw [readStep, if_pos h16]
        exact if_neg hl
      have hinside : ∀ reads, roundReads (readStep fs a endOff s) = valueReads a s.entry ++ reads →
          ValueInside a s.entry := by
        intro reads heq
        refine (contains_valueReads_iff he hnext).mp fun rd hrd => hreads rd (hround ?_)
        rw [heq]
        exact List.mem_append_left _ hrd
      rw [ReadsSafe] at hsafe
      rcases readEntry_cases fs endOff (s := s.read s.entry 4)
        (hinum s.entry List.mem_cons_self) with
        ⟨err, reads, -, -, -, h2⟩ | ⟨hrej, hno, err, h1⟩ | ⟨hrej, hok, h1⟩
      · exact hsafe ⟨h16, Or.inl (h2 hmem)⟩
      · have hin := hinside (nameReads a s.entry ++ (s.read s.entry 4).reads) (by
          rw [hstep, h1]
          rfl)
        exact hsafe ⟨h16, Or.inr ⟨hin, fun hok => absurd hok hno⟩⟩
      · have hin := hinside (nameReads a s.entry ++ (s.read s.entry 4).reads) (by
          rw [hstep, h1]
          rfl)
        refine ih (s := ⟨eNext a.buf s.entry,
          sub32 (remainAfterName a s.remain s.entry) (eValueSize a.buf s.entry),
          s.attrs ++ [xattrAt a s.entry],
          valueReads a s.entry ++ (nameReads a s.entry ++ (s.read s.entry 4).reads)⟩) hc
          (fun e he => hinum e (List.mem_cons_of_mem _ he)) (fun hs => ?_) ⟨r, ?_,
            hreads, fun h => ?_⟩
        · exact hsafe ⟨h16, Or.inr ⟨hin, fun _ => hs⟩⟩
        · exact Loop.leaves_of_reach_start (Relation.ReflTransGen.single (hstep.trans h1)) hr
        · rw [hattrs h, List.map_cons, List.append_assoc]
          rfl
    · -- nothing remains, and the entry is left out
      have hfin : readStep fs a endOff s = .inr (s.finish none) := by
        rw [readStep, if_neg h16]
      have heq := Loop.leaves_unique hr (Loop.leaves_of_inr hfin)
      have hlen := congrArg List.length (hattrs (by rw [heq]; rfl))
      rw [heq, List.length_append, List.length_map, List.length_cons] at hlen
      have : (s.finish none).attrs.length = s.attrs.length := rfl
      omega

end Run

/-! ### The whole function -/

/-- What reading an area is to do: it comes to an end, reads bytes of the area only, and has
taken over all its entries if it succeeds. -/
def ReadsWell (fs : EaFs) (a : EaArea) (attrs : List Xattr) : Prop :=
  ∃ fuel r, readXattrsFromBuffer fs a fuel attrs = some r ∧ (∀ rd ∈ r.reads, a.Contains rd) ∧
    (r.err = none → ∃ es endOff, EntryChain a a.entries es endOff ∧
      r.attrs = attrs ++ es.map (xattrAt a))

/-- A file system where there is memory for everything. -/
def roomyFs : EaFs where
  eaInode := false
  expand _ := true
  malloc _ := true
  readEaInode _ _ := .error 0
  readEaInodeHash _ := .error 0
  readInode _ := .error 0
  readInode_zero := ⟨0, rfl⟩
  ino := 12
  generation := 0

theorem roomyFs_hasMemory : roomyFs.HasMemory := ⟨fun _ => rfl, fun _ => rfl⟩

section Whole

variable {a : EaArea}

/-- The first loop of `read_xattrs_from_buffer`. -/
theorem findEnd_area (a : EaArea) : ∃ reads, (∀ r ∈ reads, a.Contains r) ∧
    ((∃ es endOff, EntryChain a a.entries es endOff ∧
      findEnd a a.storageSize a.entries a.storageSize [] = (.ok endOff, reads)) ∨
      (findEnd a a.storageSize a.entries a.storageSize [] = (.error .eaBadNameLen, reads) ∧
        ¬∃ es endOff, EntryChain a a.entries es endOff)) := by
  obtain ⟨hreads, hfind⟩ := findEnd_spec (a := a) a.storageSize a.entries a.storageSize le_rfl
    (Nat.add_comm _ _) le_rfl (fun r hr => absurd hr (List.not_mem_nil (a := r)))
  refine ⟨_, hreads, hfind.imp ?_ ?_⟩
  · rintro ⟨es, endOff, hc, hok⟩
    exact ⟨es, endOff, hc, Prod.ext hok rfl⟩
  · rintro ⟨herr, hno⟩
    exact ⟨Prod.ext herr rfl, hno⟩

theorem ReadsSafe.of_readsWell {es : List ℕ} {endOff : ℕ} (h : ReadsWell roomyFs a [])
    (hc : EntryChain a a.entries es endOff) (hinum : ∀ e ∈ es, eValueInum a.buf e = 0) :
    ReadsSafe a endOff a.storageSize es := by
  by_contra hsafe
  obtain ⟨reads, -, ⟨es', endOff', hc', hf⟩ | ⟨-, hno⟩⟩ := findEnd_area a
  · obtain ⟨rfl, rfl⟩ := hc.unique hc'
    obtain ⟨fuel, r, hr, hr1, hr2⟩ := h
    rw [readXattrsFromBuffer, hf] at hr
    refine not_leaves_of_not_readsSafe roomyFs_hasMemory
      (s := ⟨a.entries, a.storageSize, [], reads⟩) hc hinum hsafe ⟨r, ⟨fuel, hr⟩, hr1, fun h => ?_⟩
    obtain ⟨es', endOff', hc', hattrs⟩ := hr2 h
    rw [(hc.unique hc').1]
    exact hattrs
  · exact hno ⟨es, endOff, hc⟩

/-- **Reading is in bounds and complete exactly when it is safe.** -/
theorem readXattrsFromBuffer_reads_iff (a : EaArea)
    (hinum : ∀ es endOff, EntryChain a a.entries es endOff → ∀ e ∈ es, eValueInum a.buf e = 0) :
    (∀ fs attrs, ReadsWell fs a attrs) ↔
      ∀ es endOff, EntryChain a a.entries es endOff → ReadsSafe a endOff a.storageSize es := by
  constructor
  · intro hall es endOff hc
    exact ReadsSafe.of_readsWell (hall roomyFs []) hc (hinum _ _ hc)
  · intro hsafe fs attrs
    obtain ⟨reads, hreads, ⟨es, endOff, hc, hf⟩ | ⟨hf, -⟩⟩ := findEnd_area a
    · obtain ⟨r, ⟨fuel, hr⟩, hr1, hr2⟩ := leaves_of_readsSafe fs
        (s := ⟨a.entries, a.storageSize, attrs, reads⟩) hc (hinum _ _ hc) (hsafe _ _ hc) hreads
      refine ⟨fuel, r, ?_, hr1, fun h => ⟨es, endOff, hc, hr2 h⟩⟩
      rw [readXattrsFromBuffer, hf]
      exact hr
    · refine ⟨0, ⟨some .eaBadNameLen, attrs, reads⟩, ?_, hreads, fun h => by cases h⟩
      rw [readXattrsFromBuffer, hf]

end Whole

/-! ### A value at the end of its area -/

/-- An area of 32 bytes with one attribute, whose value is the last byte of the area. -/
def lastByteArea (hash : UInt8) : EaArea where
  buf i := [1, 1, 31, 0, 0, 0, 0, 0, 1, 0, 0, 0, hash, 0, 0, 0, 97].getD i 0
  entries := 0
  storageSize := 32
  size_le := by norm_num

theorem entryChain_lastByteArea (hash : UInt8) : EntryChain (lastByteArea hash) 0 [0] 20 := by
  have hlen : eNameLen (lastByteArea hash).buf 0 = 1 := by simp [eNameLen, getLe, lastByteArea]
  have hnext : eNext (lastByteArea hash).buf 0 = 20 := by
    rw [eNext, hlen]
    rfl
  have hlast : ¬eIsLast (lastByteArea hash).buf 0 := by simp [eIsLast, getLe, lastByteArea]
  have hvalues : (lastByteArea hash).valuesSize = 32 := rfl
  refine .entry le_rfl hlast (by rw [hnext, hvalues]; norm_num) ?_
  rw [hnext]
  exact .full (Nat.zero_le _) (by rw [hvalues]; norm_num) (by rw [hvalues]; norm_num)

/-- Without a hash the value in the last byte is read as it should be. -/
theorem reads_lastByteArea : ∃ a : EaArea, EntryChain a a.entries [0] 20 ∧
    ∀ fs attrs, ReadsWell fs a attrs := by
  have hc := entryChain_lastByteArea 0
  refine ⟨lastByteArea 0, hc, (readXattrsFromBuffer_reads_iff _ fun es endOff hc' => ?_).mpr ?_⟩
  · rw [← (hc.unique hc').1]
    simp only [List.mem_singleton, forall_eq]
    rfl
  · intro es endOff hc'
    obtain ⟨rfl, rfl⟩ := hc.unique hc'
    refine ⟨by decide, Or.inr ⟨⟨Or.inr ⟨by decide, by decide⟩, fun h => absurd rfl h⟩, fun _ => ?_⟩⟩
    intro h16
    exact absurd h16 (by decide)

/-- **A hash beyond the area.** With a hash the four bytes from the last one of the area on are
read. -/
theorem lastByteArea_not_reads : EntryChain (lastByteArea 1) 0 [0] 20 ∧
    (∀ e ∈ [0], eValueInum (lastByteArea 1).buf e = 0) ∧
    ¬ReadsWell roomyFs (lastByteArea 1) [] := by
  have hc := entryChain_lastByteArea 1
  have hinum : ∀ e ∈ [0], eValueInum (lastByteArea 1).buf e = 0 := by
    simp only [List.mem_singleton, forall_eq]
    rfl
  refine ⟨hc, hinum, fun h => ?_⟩
  obtain ⟨-, hrej | ⟨⟨-, hwords⟩, -⟩⟩ := ReadsSafe.of_readsWell h hc hinum
  · rcases hrej with hrej | hrej | hrej
    · exact absurd hrej (by decide)
    · exact absurd hrej (by decide)
    · exact absurd hrej (by decide)
  · rcases hwords (by decide) (by decide) with hz | ⟨-, hle⟩
    · exact absurd hz (by decide)
    · exact absurd hle (by decide)

end E2fsprogs
