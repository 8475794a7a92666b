import Mathlib

/-!
# Steps that change a state and may fail

A computation in `ExceptT ε (StateM σ)` leaves the state as it is when a step fails. To take
one apart that has succeeded, every step has succeeded (`E2fsprogs.Fallible.bind_ok`). What
is kept whatever the outcome is stated as a relation between the state before and after
(`E2fsprogs.Fallible.Keeps`), or as properties of the two (`E2fsprogs.Fallible.Leads`).
-/

namespace E2fsprogs

namespace Fallible

variable {ε σ α β : Type} {s s' : σ} {f : ExceptT ε (StateM σ) α} {g : α → ExceptT ε (StateM σ) β}
  {h : ε → ExceptT ε (StateM σ) α}

/-! ### One step after the other -/

theorem bind_of_ok {a : α} (hf : f s = (.ok a, s')) : (f >>= g) s = g a s' := by
  simp only [bind, ExceptT.bind, ExceptT.mk, StateT.bind, ExceptT.bindCont, hf]

theorem bind_of_error {err : ε} (hf : f s = (.error err, s')) : (f >>= g) s = (.error err, s') := by
  simp only [bind, ExceptT.bind, ExceptT.mk, StateT.bind, ExceptT.bindCont, hf, pure, StateT.pure]

/-- A sequence that succeeds has succeeded at every step. -/
theorem bind_ok {b : β} :
    (f >>= g) s = (.ok b, s') ↔ ∃ a s₁, f s = (.ok a, s₁) ∧ g a s₁ = (.ok b, s') := by
  constructor
  · intro h
    rcases hf : f s with ⟨err | a, s₁⟩
    · rw [bind_of_error hf] at h
      cases h
    · exact ⟨a, s₁, rfl, (bind_of_ok hf).symm.trans h⟩
  · rintro ⟨a, s₁, hf, hg⟩
    exact (bind_of_ok hf).trans hg

theorem pure_ok {a b : α} : (pure a : ExceptT ε (StateM σ) α) s = (.ok b, s') ↔ a = b ∧ s = s' := by
  constructor
  · intro h
    cases h
    exact ⟨rfl, rfl⟩
  · rintro ⟨rfl, rfl⟩
    rfl

theorem catch_of_ok {a : α} (hf : f s = (.ok a, s')) : (tryCatch f h) s = (.ok a, s') := by
  simp only [tryCatch, tryCatchThe, MonadExceptOf.tryCatch, ExceptT.tryCatch, ExceptT.mk, bind,
    StateT.bind, hf, pure, StateT.pure]

theorem catch_of_error {err : ε} (hf : f s = (.error err, s')) : (tryCatch f h) s = h err s' := by
  simp only [tryCatch, tryCatchThe, MonadExceptOf.tryCatch, ExceptT.tryCatch, ExceptT.mk, bind,
    StateT.bind, hf]

/-! ### Relations that are kept -/

/-- Whatever the outcome, the states before and after are related. -/
def Keeps (R : σ → σ → Prop) (f : ExceptT ε (StateM σ) α) : Prop := ∀ s, R s (f s).2

variable {R : σ → σ → Prop}

theorem keeps_pure [Std.Refl R] (a : α) : Keeps R (pure a : ExceptT ε (StateM σ) α) :=
  fun s => Std.Refl.refl s

theorem keeps_throw [Std.Refl R] (err : ε) : Keeps R (throw err : ExceptT ε (StateM σ) α) :=
  fun s => Std.Refl.refl s

theorem Keeps.bind [IsTrans σ R] (hf : Keeps R f) (hg : ∀ a, Keeps R (g a)) :
    Keeps R (f >>= g) := by
  intro s
  have h := hf s
  rcases hs : f s with ⟨err | a, s₁⟩
  · rw [hs] at h
    rwa [bind_of_error hs]
  · rw [hs] at h
    rw [bind_of_ok hs]
    exact IsTrans.trans _ _ _ h (hg a s₁)

theorem Keeps.catch [IsTrans σ R] (hf : Keeps R f) (hh : ∀ err, Keeps R (h err)) :
    Keeps R (tryCatch f h) := by
  intro s
  have hk := hf s
  rcases hs : f s with ⟨err | a, s₁⟩
  · rw [hs] at hk
    rw [catch_of_error hs]
    exact IsTrans.trans _ _ _ hk (hh err s₁)
  · rw [hs] at hk
    rwa [catch_of_ok hs]

theorem keeps_ite {p : Prop} [Decidable p] {f f' : ExceptT ε (StateM σ) α} (hf : Keeps R f)
    (hf' : Keeps R f') : Keeps R (if p then f else f') := by
  split
  · exact hf
  · exact hf'

/-! ### Properties before and after -/

/-- Whatever the outcome, `Q` holds after if `P` holds before. -/
def Leads (P : σ → Prop) (f : ExceptT ε (StateM σ) α) (Q : σ → Prop) : Prop := ∀ s, P s → Q (f s).2

theorem Leads.bind {P Q Q' : σ → Prop} (hf : Leads P f Q) (hg : ∀ a, Leads Q (g a) Q')
    (hQ : ∀ s, Q s → Q' s) : Leads P (f >>= g) Q' := by
  intro s hs
  have h := hf s hs
  rcases hr : f s with ⟨err | a, s₁⟩
  · rw [hr] at h
    rw [bind_of_error hr]
    exact hQ _ h
  · rw [hr] at h
    rw [bind_of_ok hr]
    exact hg a s₁ h

/-- A property that goes over to related states is kept. -/
theorem Keeps.leads {P : σ → Prop} (hf : Keeps R f) (hP : ∀ s s', R s s' → P s → P s') :
    Leads P f P := fun s hs => hP _ _ (hf s) hs

/-! ### When a step succeeds -/

/-- The states before and after are related whatever the outcome, and the step succeeds exactly if
`p`. -/
def SucceedsIff (R : σ → σ → Prop) (p : Prop) (f : ExceptT ε (StateM σ) Unit) (s : σ) : Prop :=
  R s (f s).2 ∧ ((f s).1 = .ok () ↔ p)

theorem SucceedsIff.bind [IsTrans σ R] {p q : Prop} {f g : ExceptT ε (StateM σ) Unit}
    (hf : SucceedsIff R p f s)
    (hg : SucceedsIff R q g (f s).2) : SucceedsIff R (p ∧ q) (f >>= fun _ => g) s := by
  obtain ⟨hR, hok⟩ := hf
  rcases hs : f s with ⟨err | ⟨⟩, s₁⟩
  · rw [hs] at hR hok
    have hbind : (f >>= fun _ => g) s = (.error err, s₁) := bind_of_error hs
    rw [SucceedsIff, hbind]
    exact ⟨hR, iff_of_false nofun fun h => absurd (hok.mpr h.1) nofun⟩
  · rw [hs] at hR hok hg
    have hbind : (f >>= fun _ => g) s = g s₁ := bind_of_ok hs
    rw [SucceedsIff, hbind]
    exact ⟨IsTrans.trans _ _ _ hR hg.1, hg.2.trans (and_iff_right (hok.mp rfl)).symm⟩

theorem succeedsIff_ite [Std.Refl R] {c p : Prop} [Decidable c] {f : ExceptT ε (StateM σ) Unit}
    (hf : c → SucceedsIff R p f s) : SucceedsIff R (c → p) (if c then f else pure ()) s := by
  split
  case isTrue h =>
    exact ⟨(hf h).1, (hf h).2.trans ⟨fun hp _ => hp, fun hp => hp h⟩⟩
  case isFalse h => exact ⟨Std.Refl.refl s, iff_of_true rfl fun h' => absurd h' h⟩

end Fallible

end E2fsprogs
