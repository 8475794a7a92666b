import Mathlib

/-!
# Loops that may not end

A `while (1)` loop is a step function `σ → σ ⊕ ρ`: go round again in a new state,
or leave with a result. `E2fsprogs.Loop.run` goes round at most `n` times, and a loop
*ends* from a state when some number of rounds is enough
(`E2fsprogs.Loop.Ends`). Nothing is assumed about termination: a loop that
does not end has no result at any fuel, and that is a statement one can prove.

The file gives the three rules a loop argument is made of.

* **Invariants.** What every round preserves holds of the state in which the loop
  leaves (`E2fsprogs.Loop.invariant`).
* **Ending.** A loop whose states lie in a well-founded order that every round
  descends ends (`E2fsprogs.Loop.ends_of_wf`); an acyclic relation that only leads on
  from a finite set is such an order (`E2fsprogs.Loop.wf_of_acyclic`).
* **Not ending.** A set of states that every round stays inside is never left
  (`E2fsprogs.Loop.not_ends_of_closed`).
-/

namespace E2fsprogs

namespace Loop

variable {σ ρ : Type}

/-- Go round at most `n` times. -/
def run (step : σ → σ ⊕ ρ) : ℕ → σ → Option ρ
  | 0, _ => none
  | n + 1, s => match step s with
      | .inl s' => run step n s'
      | .inr r => some r

/-- The loop leaves with the result `r` when started in `s`. -/
def Leaves (step : σ → σ ⊕ ρ) (s : σ) (r : ρ) : Prop := ∃ n, run step n s = some r

/-- The loop ends when started in `s`. -/
def Ends (step : σ → σ ⊕ ρ) (s : σ) : Prop := ∃ r, Leaves step s r

/-- One round of the loop. -/
def Round (step : σ → σ ⊕ ρ) (s s' : σ) : Prop := step s = .inl s'

/-- The states a loop started in `s` goes through. -/
def Reach (step : σ → σ ⊕ ρ) : σ → σ → Prop := Relation.ReflTransGen (Round step)

variable {step : σ → σ ⊕ ρ} {s s' : σ} {r : ρ}

/-! ### Fuel -/

theorem run_of_inr (n : ℕ) (h : step s = .inr r) : run step (n + 1) s = some r := by rw [run, h]

theorem run_of_round {n : ℕ} (h : Round step s s') (hr : run step n s' = some r) :
    run step (n + 1) s = some r := by
  rw [run, h]
  exact hr

theorem leaves_of_inr (h : step s = .inr r) : Leaves step s r := ⟨1, run_of_inr 0 h⟩

theorem leaves_of_round (h : Round step s s') (hl : Leaves step s' r) : Leaves step s r := by
  obtain ⟨n, hn⟩ := hl
  exact ⟨n + 1, run_of_round h hn⟩

theorem leaves_of_reach (h : Reach step s s') (hl : Leaves step s' r) : Leaves step s r := by
  induction h using Relation.ReflTransGen.head_induction_on with
  | refl => exact hl
  | head hr _ ih => exact leaves_of_round hr ih

/-- More fuel than enough changes nothing. -/
theorem run_mono {n m : ℕ} (hnm : n ≤ m) (h : run step n s = some r) : run step m s = some r := by
  induction n generalizing s m with
  | zero => simp [run] at h
  | succ n ih =>
    obtain ⟨m, rfl⟩ : ∃ k, m = k + 1 := ⟨m - 1, by omega⟩
    rw [run] at h ⊢
    cases hs : step s with
    | inl t =>
      rw [hs] at h
      exact ih (by omega) h
    | inr q =>
      rw [hs] at h
      exact h

/-- **What a loop leaves with, it leaves with from the state of its last round.** -/
theorem exists_last_of_leaves (h : Leaves step s r) :
    ∃ s', Reach step s s' ∧ step s' = .inr r := by
  obtain ⟨n, hn⟩ := h
  induction n generalizing s with
  | zero => simp [run] at hn
  | succ n ih =>
    rw [run] at hn
    cases hs : step s with
    | inl t =>
      rw [hs] at hn
      obtain ⟨s', hr, he⟩ := ih hn
      exact ⟨s', Relation.ReflTransGen.head hs hr, he⟩
    | inr q =>
      rw [hs] at hn
      exact ⟨s, Relation.ReflTransGen.refl, by rw [hs]; simpa using hn⟩

/-- A loop is deterministic: two results of one start are the same. -/
theorem leaves_unique {r' : ρ} (h : Leaves step s r) (h' : Leaves step s r') : r = r' := by
  obtain ⟨n, hn⟩ := h
  obtain ⟨m, hm⟩ := h'
  have h1 := run_mono (le_max_left n m) hn
  have h2 := run_mono (le_max_right n m) hm
  exact Option.some.inj (h1.symm.trans h2)

/-- The result of a start is the result of every state it goes through. -/
theorem leaves_of_reach_start (h : Reach step s s') (hl : Leaves step s r) :
    Leaves step s' r := by
  induction h with
  | refl => exact hl
  | tail _ hr ih =>
    obtain ⟨n, hn⟩ := ih
    cases n with
    | zero => simp [run] at hn
    | succ n =>
      rw [run, hr] at hn
      exact ⟨n, hn⟩

/-- After its first round a loop goes through what it goes through from there. -/
theorem eq_or_reach_of_round {u : σ} (hr : Round step s s') (h : Reach step s u) :
    u = s ∨ Reach step s' u := by
  rcases Relation.ReflTransGen.cases_head h with rfl | ⟨v, hv, hvu⟩
  · exact Or.inl rfl
  · exact Or.inr (Sum.inl.inj (hv.symm.trans hr) ▸ hvu)

theorem eq_of_reach_of_inr {u : σ} (he : step s = .inr r) (h : Reach step s u) : u = s := by
  rcases Relation.ReflTransGen.cases_head h with rfl | ⟨v, hv, -⟩
  · rfl
  · cases he.symm.trans hv

/-- A loop that leaves never comes back to where it was. -/
theorem not_transGen_self (h : Leaves step s r) : ¬Relation.TransGen (Round step) s s := by
  obtain ⟨n, hn⟩ := h
  induction n generalizing s with
  | zero => simp [run] at hn
  | succ n ih =>
    intro hcycle
    obtain ⟨u, hu, hus⟩ := Relation.TransGen.head'_iff.mp hcycle
    rw [run, hu] at hn
    exact ih hn (Relation.TransGen.tail' hus hu)

/-! ### The three rules -/

/-- **The invariant rule**: what every round preserves holds all along. -/
theorem invariant {P : σ → Prop} (hstep : ∀ a b, P a → Round step a b → P b)
    (h : Reach step s s') (hs : P s) : P s' := by
  induction h with
  | refl => exact hs
  | tail _ hr ih => exact hstep _ _ ih hr

/-- **A descending loop ends.** -/
theorem ends_of_wf {α : Type} {lt : α → α → Prop} (hwf : WellFounded lt) (m : σ → α)
    {P : σ → Prop} (hstep : ∀ a b, P a → Round step a b → P b ∧ lt (m b) (m a))
    (hs : P s) : Ends step s := by
  induction hm : m s using hwf.induction generalizing s with
  | _ x ih =>
    cases he : step s with
    | inr r => exact ⟨r, leaves_of_inr he⟩
    | inl s' =>
      obtain ⟨hP, hlt⟩ := hstep s s' hs he
      obtain ⟨r, hr⟩ := ih (m s') (hm ▸ hlt) hP rfl
      exact ⟨r, leaves_of_round he hr⟩

/-- **A set of states that every round stays inside is never left.** -/
theorem not_ends_of_closed {P : σ → Prop} (hstep : ∀ a, P a → ∃ b, Round step a b ∧ P b)
    (hs : P s) : ¬Ends step s := by
  rintro ⟨r, n, hn⟩
  induction n generalizing s with
  | zero => simp [run] at hn
  | succ n ih =>
    obtain ⟨b, hb, hP⟩ := hstep s hs
    rw [run, hb] at hn
    exact ih hP hn

/-- **An acyclic relation that only leads on from a finite set is well-founded**, read
backwards: a walk along it cannot go on for ever. -/
theorem wf_of_acyclic {α : Type} {E : α → α → Prop} {S : Set α} (hS : S.Finite)
    (hout : ∀ a b, E a b → a ∈ S) (h : ∀ a, ¬Relation.TransGen E a a) :
    WellFounded fun b a => E a b := by
  have hirr : Std.Irrefl (Function.swap (Relation.TransGen E)) := ⟨fun a => h a⟩
  have htr : IsTrans α (Function.swap (Relation.TransGen E)) :=
    ⟨fun _ _ _ hab hbc => Relation.TransGen.trans hbc hab⟩
  have hstrict : IsStrictOrder α (Function.swap (Relation.TransGen E)) := { hirr, htr with }
  have hin : ∀ a ∈ S, Acc (fun b a => E a b) a := by
    intro a ha
    refine hS.wellFoundedOn.induction (r := Function.swap (Relation.TransGen E)) ha fun x hx ih =>
      ?_
    refine ⟨x, fun y hxy => ?_⟩
    by_cases hy : y ∈ S
    · exact ih y hy (Relation.TransGen.single hxy)
    · exact ⟨y, fun z hyz => absurd (hout y z hyz) hy⟩
  refine ⟨fun a => ⟨a, fun b hab => ?_⟩⟩
  by_cases hb : b ∈ S
  · exact hin b hb
  · exact ⟨b, fun c hbc => absurd (hout b c hbc) hb⟩

end Loop

end E2fsprogs
