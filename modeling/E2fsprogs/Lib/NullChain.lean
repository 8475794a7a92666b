import Mathlib

/-!
# Lists through zero-terminated links

Numbers that are linked into a list by a function to the next one, with zero for the end
(`E2fsprogs.NullChain.Chain`), and also by one to the previous one
(`E2fsprogs.NullChain.DoubleChain`). A node is put in front of such a list, or taken out of it,
by changing the links of its neighbours only.
-/

namespace E2fsprogs

namespace NullChain

/-- From `hd` on, the links lead through these nodes. -/
def Chain (next : ℕ → ℕ) : ℕ → List ℕ → Prop
  | hd, [] => hd = 0
  | hd, b :: l => hd = b ∧ b ≠ 0 ∧ Chain next (next b) l

/-- From `hd` on, the links lead through these nodes, and back to `p`. -/
def DoubleChain (next prev : ℕ → ℕ) : ℕ → ℕ → List ℕ → Prop
  | _, hd, [] => hd = 0
  | p, hd, b :: l => hd = b ∧ b ≠ 0 ∧ prev b = p ∧ DoubleChain next prev b (next b) l

variable {next next' prev prev' : ℕ → ℕ} {hd p b c : ℕ} {l : List ℕ}

/-! ### Single links -/

/-- Links elsewhere do not matter. -/
theorem Chain.congr (h : Chain next hd l) (heq : ∀ b ∈ l, next' b = next b) :
    Chain next' hd l := by
  induction l generalizing hd with
  | nil => exact h
  | cons a l ih =>
    obtain ⟨hhd, ha, hl⟩ := h
    refine ⟨hhd, ha, ?_⟩
    rw [heq a List.mem_cons_self]
    exact ih hl fun b hb => heq b (List.mem_cons_of_mem a hb)

/-- A new node in front. -/
theorem Chain.push (h : Chain next hd l) (hb : b ≠ 0) (hnext : next' b = hd)
    (heq : ∀ c ∈ l, next' c = next c) : Chain next' b (b :: l) :=
  ⟨rfl, hb, hnext ▸ h.congr heq⟩

/-- The first node, where there is one. -/
theorem Chain.pop (h : Chain next hd l) (hhd : hd ≠ 0) :
    ∃ l', l = hd :: l' ∧ Chain next (next hd) l' := by
  cases l with
  | nil => exact absurd h hhd
  | cons a l =>
    obtain ⟨rfl, -, hl⟩ := h
    exact ⟨l, rfl, hl⟩

/-! ### Double links -/

theorem DoubleChain.ne_zero (h : DoubleChain next prev p hd l) (hb : b ∈ l) : b ≠ 0 := by
  induction l generalizing hd p with
  | nil => cases hb
  | cons a l ih =>
    rcases List.mem_cons.mp hb with rfl | hb
    · exact h.2.1
    · exact ih h.2.2.2 hb

theorem DoubleChain.congr (h : DoubleChain next prev p hd l) (hnext : ∀ b ∈ l, next' b = next b)
    (hprev : ∀ b ∈ l, prev' b = prev b) : DoubleChain next' prev' p hd l := by
  induction l generalizing hd p with
  | nil => exact h
  | cons a l ih =>
    obtain ⟨hhd, ha, hp, hl⟩ := h
    refine ⟨hhd, ha, ?_, ?_⟩
    · rw [hprev a List.mem_cons_self, hp]
    · rw [hnext a List.mem_cons_self]
      exact ih hl (fun b hb => hnext b (List.mem_cons_of_mem a hb))
        fun b hb => hprev b (List.mem_cons_of_mem a hb)

theorem DoubleChain.pop (h : DoubleChain next prev p hd l) (hhd : hd ≠ 0) :
    hd ∈ l ∧ prev hd = p := by
  cases l with
  | nil => exact absurd h hhd
  | cons a l =>
    obtain ⟨rfl, -, hp, -⟩ := h
    exact ⟨List.mem_cons_self, hp⟩

/-- What comes before a node is one of the list, or what the list leads back to. -/
theorem DoubleChain.prev_mem (h : DoubleChain next prev p hd l) (hb : b ∈ l) : prev b ∈ p :: l := by
  induction l generalizing hd p with
  | nil => cases hb
  | cons a l ih =>
    obtain ⟨-, -, hp, hl⟩ := h
    rcases List.mem_cons.mp hb with rfl | hb
    · exact hp ▸ List.mem_cons_self
    · exact List.mem_cons_of_mem p (ih hl hb)

/-- What comes behind a node is one of the list, or zero. -/
theorem DoubleChain.next_mem (h : DoubleChain next prev p hd l) (hb : b ∈ l) :
    next b = 0 ∨ next b ∈ l := by
  induction l generalizing hd p with
  | nil => cases hb
  | cons a l ih =>
    obtain ⟨-, -, -, hl⟩ := h
    rcases List.mem_cons.mp hb with rfl | hb
    · cases l with
      | nil => exact Or.inl hl
      | cons c l =>
        rw [hl.1]
        exact Or.inr (List.mem_cons_of_mem b List.mem_cons_self)
    · exact (ih hl hb).imp_right (List.mem_cons_of_mem a)

/-- A new node in front: the first one so far leads back to it. -/
theorem DoubleChain.push (h : DoubleChain next prev 0 hd l) (hnd : l.Nodup) (hb : b ≠ 0)
    (hnb : next' b = hd) (hpb : prev' b = 0) (hnext : ∀ c ∈ l, next' c = next c)
    (hprev : ∀ c ∈ l, prev' c = if c = hd then b else prev c) :
    DoubleChain next' prev' 0 b (b :: l) := by
  refine ⟨rfl, hb, hpb, ?_⟩
  rw [hnb]
  cases l with
  | nil => exact h
  | cons a l =>
    obtain ⟨rfl, ha, -, hl⟩ := h
    obtain ⟨hal, -⟩ := List.nodup_cons.mp hnd
    refine ⟨rfl, ha, ?_, ?_⟩
    · rw [hprev hd List.mem_cons_self, if_pos rfl]
    · rw [hnext hd List.mem_cons_self]
      refine hl.congr (fun c hc => hnext c (List.mem_cons_of_mem hd hc)) fun c hc => ?_
      rw [hprev c (List.mem_cons_of_mem hd hc), if_neg]
      rintro rfl
      exact hal hc

/-- **A node is taken out**: the one before it leads on to the one behind it, which leads back. -/
theorem DoubleChain.erase (h : DoubleChain next prev p hd l) (hnd : l.Nodup)
    (hp : p ∉ l) (hb : b ∈ l)
    (hnext : ∀ c ∈ l, c ≠ b → next' c = if c = prev b then next b else next c)
    (hprev : ∀ c ∈ l, c ≠ b → prev' c = if c = next b then prev b else prev c) :
    DoubleChain next' prev' p (if prev b = p then next b else hd) (l.erase b) := by
  induction l generalizing hd p with
  | nil => cases hb
  | cons a l ih =>
    obtain ⟨rfl, ha, hpa, hl⟩ := h
    obtain ⟨hal, hndl⟩ := List.nodup_cons.mp hnd
    rw [List.mem_cons, not_or] at hp
    rcases eq_or_ne b hd with rfl | hne
    · -- the first node: what comes behind it now leads back to `p`
      rw [List.erase_cons_head, if_pos hpa]
      cases l with
      | nil => exact hl
      | cons c l =>
        obtain ⟨hc, hc0, hpc, hl⟩ := hl
        obtain ⟨hcl, -⟩ := List.nodup_cons.mp hndl
        have hnb : ∀ e ∈ c :: l, e ≠ b := fun e he heq => hal (heq ▸ he)
        have hnp : ∀ e ∈ c :: l, e ≠ prev b := fun e he heq => hp.2 (hpa ▸ heq ▸ he)
        have hkeep : ∀ e ∈ c :: l, next' e = next e := fun e he => by
          rw [hnext e (List.mem_cons_of_mem b he) (hnb e he), if_neg (hnp e he)]
        refine ⟨hc, hc0, ?_, ?_⟩
        · rw [hprev c (List.mem_cons_of_mem b List.mem_cons_self) (hnb c List.mem_cons_self),
            if_pos hc.symm, hpa]
        · rw [hkeep c List.mem_cons_self]
          refine hl.congr (fun e he => hkeep e (List.mem_cons_of_mem c he)) fun e he => ?_
          rw [hprev e (List.mem_cons_of_mem b (List.mem_cons_of_mem c he))
            (hnb e (List.mem_cons_of_mem c he)), if_neg]
          rw [hc]
          exact fun heq => hcl (heq ▸ he)
    · have hbl : b ∈ l := (List.mem_cons.mp hb).resolve_left hne
      have hprevb : prev b ≠ p := by
        intro heq
        rcases List.mem_cons.mp (hl.prev_mem hbl) with hhd | hmem
        · exact hp.1 (heq ▸ hhd)
        · exact hp.2 (heq ▸ hmem)
      rw [List.erase_cons_tail (by simpa using hne.symm), if_neg hprevb]
      refine ⟨rfl, ha, ?_, ?_⟩
      · rw [hprev hd List.mem_cons_self hne.symm, if_neg, hpa]
        rintro rfl
        rcases hl.next_mem hbl with h0 | hmem
        · exact ha h0
        · exact hal hmem
      · have htail := ih hl hndl hal hbl (fun c hc => hnext c (List.mem_cons_of_mem hd hc))
          fun c hc => hprev c (List.mem_cons_of_mem hd hc)
        rw [hnext hd List.mem_cons_self hne.symm]
        rcases eq_or_ne hd (prev b) with heq | hne'
        · rw [if_pos heq]
          rwa [if_pos heq.symm] at htail
        · rw [if_neg hne']
          rwa [if_neg hne'.symm] at htail

end NullChain

end E2fsprogs
