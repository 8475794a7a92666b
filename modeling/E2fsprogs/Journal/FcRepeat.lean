import E2fsprogs.Journal.FcNames

/-!
# Replaying names again

A fast commit that holds `CREAT`, `LINK` and `UNLINK` tags is a log of what was done to
directories. A replay may begin where an earlier one was interrupted: some of the log is on
disk already. Linking a name again replaces it, but an `UNLINK` whose name is gone is an
error, the names of symbolic links are not linked at all, and in a directory whose index has a
hash version that is not known no name is linked (`E2fsprogs.Repeatable`).

A replay on names is a run of steps on a map (`E2fsprogs.replayStep`), as the log is
(`E2fsprogs.realStep`); the two are compared name by name.
-/

namespace E2fsprogs

/-! ### Tags for names -/

namespace FcTagAt

/-- The directory of a tag for names. -/
def parentIno (t : FcTagAt) : ℕ := t.word 0

/-- The inode of a tag for names. -/
def dentryIno (t : FcTagAt) : ℕ := t.word 4

/-- The name of a tag for names. -/
def dname (t : FcTagAt) : List UInt8 := bytesAt t.bh (t.val + 8) (sizeT ((t.len : ℤ) - 8))

/-- The tag is about that name. -/
def Names (t : FcTagAt) (p : ℕ) (n : List UInt8) : Prop := t.parentIno = p ∧ t.dname = n

end FcTagAt

/-- What a real operation does: a name is linked that is not there, or unlinked. -/
def realStep (m : NameMap) (t : FcTagAt) : Option NameMap :=
  if t.tag = .unlink then
    if m t.parentIno t.dname = some t.dentryIno then some (m.set t.parentIno t.dname none) else none
  else if m t.parentIno t.dname = none then
    some (m.set t.parentIno t.dname (some t.dentryIno))
  else none

/-- What the replay of a tag does: an error, or the names after it. -/
def replayStep (symlink refuses : ℕ → Bool) (m : NameMap) (t : FcTagAt) : Option NameMap :=
  if t.tag = .unlink then
    if m t.parentIno t.dname = some t.dentryIno then some (m.set t.parentIno t.dname none) else none
  else if symlink t.dentryIno then some m
  else if refuses t.parentIno then none
  else some (m.set t.parentIno t.dname (some t.dentryIno))

/-- The inode is a symbolic link. -/
def NameFs.symlink {I : Type} (st : NameFs I) (ino : ℕ) : Bool :=
  match st.modes ino with
  | .error _ => false
  | .ok mode =>
    match fcFiletype mode with
    | .symlink => true
    | _ => false

/-- A tag can be replayed after these. -/
structure Repeats (symlink refuses : ℕ → Bool) (m : NameMap) (before : List FcTagAt)
    (t : FcTagAt) : Prop where
  /-- Unlinking needs the name, which an earlier tag has seen to, or the state of the file
  system; and so does the name of a symbolic link, which is not linked. -/
  named : t.tag = .unlink ∨ symlink t.dentryIno = true →
    (t.tag = .unlink ∧ ∃ u ∈ before, u.Names t.parentIno t.dname) ∨
      ((∀ u ∈ before, ¬u.Names t.parentIno t.dname) ∧ m t.parentIno t.dname = some t.dentryIno)
  /-- A name is linked in a directory that does not refuse it. -/
  known : t.tag ≠ .unlink → symlink t.dentryIno = false → refuses t.parentIno = false

section Maps

variable {symlink refuses : ℕ → Bool} {m m' m₁ μ : NameMap} {t : FcTagAt}
    {ts l : List FcTagAt} {p : ℕ}
  {n : List UInt8}

theorem set_self (m : NameMap) (p : ℕ) (n : List UInt8) (v : Option ℕ) : m.set p n v p n = v := by
  rw [NameMap.set, Function.update_self, Function.update_self]

theorem set_other (m : NameMap) (v : Option ℕ) (hn : ¬t.Names p n) :
    m.set t.parentIno t.dname v p n = m p n := by
  rw [NameMap.set, Function.update_apply]
  split
  · next hp =>
    subst hp
    rw [Function.update_of_ne fun h => hn ⟨rfl, h.symm⟩]
  · rfl

/-- A real operation. -/
theorem realStep_eq (h : realStep m t = some m') :
    (t.tag = .unlink ∧ m t.parentIno t.dname = some t.dentryIno ∧
      m' = m.set t.parentIno t.dname none) ∨
    (t.tag ≠ .unlink ∧ m t.parentIno t.dname = none ∧
      m' = m.set t.parentIno t.dname (some t.dentryIno)) := by
  rw [realStep] at h
  split_ifs at h with h1 h2 h3
  · exact Or.inl ⟨h1, h2, (Option.some.inj h).symm⟩
  · exact Or.inr ⟨h1, h3, (Option.some.inj h).symm⟩

theorem realStep_other (h : realStep m t = some m') (hn : ¬t.Names p n) : m' p n = m p n := by
  rcases realStep_eq h with ⟨-, -, rfl⟩ | ⟨-, -, rfl⟩
  · exact set_other m _ hn
  · exact set_other m _ hn

theorem replayStep_other (h : replayStep symlink refuses m t = some m') (hn : ¬t.Names p n) :
    m' p n = m p n := by
  rw [replayStep] at h
  split_ifs at h with h1 h2 h3 h4
  · rw [← Option.some.inj h, set_other m _ hn]
  · rw [← Option.some.inj h]
  · rw [← Option.some.inj h, set_other m _ hn]

/-- What holds of the names, after some tags of the log: those that have been named are as
after the operations, the others as in the beginning. -/
structure Caught (m : NameMap) (l : List FcTagAt) (m' μ : NameMap) : Prop where
  named : ∀ p n, (∃ u ∈ l, u.Names p n) → m' p n = μ p n
  others : ∀ p n, (∀ u ∈ l, ¬u.Names p n) → m' p n = m p n

theorem Caught.next {m'' μ' : NameMap} (hc : Caught m l m' μ)
    (hm : ∀ p n, ¬t.Names p n → m'' p n = m' p n) (hμ : ∀ p n, ¬t.Names p n → μ' p n = μ p n)
    (heq : m'' t.parentIno t.dname = μ' t.parentIno t.dname) : Caught m (l ++ [t]) m'' μ' := by
  refine ⟨fun p n hex => ?_, fun p n hno => ?_⟩
  · by_cases hn : t.Names p n
    · obtain ⟨rfl, rfl⟩ := hn
      exact heq
    · rw [hm p n hn, hμ p n hn]
      obtain ⟨u, hu, hun⟩ := hex
      rcases List.mem_append.mp hu with hu | hu
      · exact hc.named p n ⟨u, hu, hun⟩
      · exact absurd (List.mem_singleton.mp hu ▸ hun) hn
  · rw [hm p n (hno t (by simp))]
    exact hc.others p n fun u hu => hno u (List.mem_append_left _ hu)

/-- **A tag that can be replayed.** -/
theorem Caught.step {μ' : NameMap} (hc : Caught m l m' μ) (hreal : realStep μ t = some μ')
    (hr : Repeats symlink refuses m l t) :
    ∃ m'', replayStep symlink refuses m' t = some m'' ∧ Caught m (l ++ [t]) m'' μ' := by
  have hμ : ∀ p n, ¬t.Names p n → μ' p n = μ p n := fun p n => realStep_other hreal
  suffices h : ∃ m'', replayStep symlink refuses m' t = some m'' ∧
      m'' t.parentIno t.dname = μ' t.parentIno t.dname by
    obtain ⟨m'', hstep, heq⟩ := h
    exact ⟨m'', hstep, hc.next (fun p n => replayStep_other hstep) hμ heq⟩
  rcases realStep_eq hreal with ⟨htag, hino, rfl⟩ | ⟨htag, -, rfl⟩
  · have hm : m' t.parentIno t.dname = some t.dentryIno := by
      rcases hr.named (Or.inl htag) with ⟨-, hex⟩ | ⟨hno, hm⟩
      · rw [hc.named _ _ hex, hino]
      · rw [hc.others _ _ hno, hm]
    refine ⟨m'.set t.parentIno t.dname none, ?_, by rw [set_self, set_self]⟩
    rw [replayStep, if_pos htag, if_pos hm]
  · by_cases hsym : symlink t.dentryIno = true
    · obtain ⟨hno, hm⟩ := (hr.named (Or.inr hsym)).resolve_left fun h => htag h.1
      refine ⟨m', ?_, by rw [set_self, hc.others _ _ hno, hm]⟩
      rw [replayStep, if_neg htag, if_pos hsym]
    · refine ⟨m'.set t.parentIno t.dname (some t.dentryIno), ?_, by rw [set_self, set_self]⟩
      have hknown := hr.known htag (by simpa using hsym)
      rw [replayStep, if_neg htag, if_neg hsym, if_neg (by simp [hknown])]

end Maps

/-! ### The handlers -/

section Handlers

variable {I : Type} {fs : DirFs} {ops : NameOps I} {t : FcTagAt} {ts : List FcTagAt}
  {st : NameFs I} {c : FcCtx (NameFs I)} {m m₁ : NameMap}

/-- The inode can be read, and has a type. -/
def NameFs.Typed (st : NameFs I) (ino : ℕ) : Prop :=
  ∃ mode, st.modes ino = .ok mode ∧ fcFiletype mode ≠ .invalid

theorem NameFs.Alike.symlink {st' : NameFs I} (h : st.Alike st') : st'.symlink = st.symlink := by
  funext ino
  rw [NameFs.symlink, NameFs.symlink, h.modes]

end Handlers

end E2fsprogs
