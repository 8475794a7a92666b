import Mathlib

/-!
# Workers that share a state

Every worker has a list of actions that it has still to do and a state of its own. A step is taken
by one of them, any one: it does its next action, on its own state and on the shared one. A worker
whose action fails stops and keeps the error; the others go on.

Where the effects of the actions commute, the order in which the workers step is not seen in the end
(`E2fsprogs.Workers.Acts.finishes`): the shared state is as if one worker had done all the actions
in a row (`E2fsprogs.Workers.Acts.serial`). That is said of a view of the shared state, so that it
need not be the same in every detail.
-/

namespace E2fsprogs

namespace Workers

variable {α β σ τ ε : Type}

structure Worker (α β ε : Type) where
  rest : List α
  own : β
  error : Option ε

/-- A step of one worker. -/
inductive Step (act : α → β → σ → Except ε (β × σ)) :
    List (Worker α β ε) × σ → List (Worker α β ε) × σ → Prop
  | acts {before after : List (Worker α β ε)} {a : α} {rest : List α} {own own' : β}
      {error : Option ε}
      {s s' : σ} (h : act a own s = .ok (own', s')) :
      Step act (before ++ ⟨a :: rest, own, error⟩ :: after,
        s) (before ++ ⟨rest, own', error⟩ :: after, s')
  | fails {before after : List (Worker α β ε)} {a : α} {rest : List α} {own : β}
      {error : Option ε} {e : ε}
      {s : σ} (h : act a own s = .error e) :
      Step act (before ++ ⟨a :: rest, own, error⟩ :: after,
        s) (before ++ ⟨[], own, some e⟩ :: after, s)

/-- Nothing is left to do. -/
def Finished (ws : List (Worker α β ε)) : Prop := ∀ w ∈ ws, w.rest = []

/-- What is left to do, one worker after the other. -/
def pending (ws : List (Worker α β ε)) : List α := ws.flatMap Worker.rest

/-- The actions in a row, up to the first that fails. -/
def serial (act : α → β → σ → Except ε (β × σ)) (as : List α) (own : β) (s : σ) :
    Except ε (β × σ) :=
  as.foldlM (fun r a => act a r.1 r.2) (own, s)

/-- What the actions do: a good one keeps the invariant and has an effect on what is seen of the
shared state, and one on the worker's own state; a bad one fails. -/
structure Acts (act : α → β → σ → Except ε (β × σ)) (Inv : σ → Prop) (view : σ → τ)
    (good bad : α → Prop) (effect : τ → α → τ) (note : β → α → β) : Prop where
  ok : ∀ {a} own {s}, good a → Inv s →
    ∃ s', act a own s = .ok (note own a, s') ∧ Inv s' ∧ view s' = effect (view s) a
  failing : ∀ {a} own {s}, bad a → Inv s → ∃ e, act a own s = .error e

/-- A worker that has done all it had to do. -/
def Worker.done (note : β → α → β) (w : Worker α β ε) : Worker α β ε :=
  ⟨[], w.rest.foldl note w.own, w.error⟩

/-- A worker has failed, or is going to. -/
def Troubled (bad : α → Prop) (w : Worker α β ε) : Prop := w.error ≠ none ∨ ∃ a ∈ w.rest, bad a

variable {act : α → β → σ → Except ε (β × σ)} {Inv : σ → Prop} {view : σ → τ} {good bad : α → Prop}
  {effect : τ → α → τ} {note : β → α → β} {c c' : List (Worker α β ε) × σ} {as : List α}
  {ws before after : List (Worker α β ε)} {w : Worker α β ε}

theorem pending_middle :
    pending (before ++ w :: after) = pending before ++ (w.rest ++ pending after) := by
  rw [pending, List.flatMap_append, List.flatMap_cons]
  rfl

theorem mem_pending {a : α} : a ∈ pending ws ↔ ∃ w ∈ ws, a ∈ w.rest := List.mem_flatMap

theorem exists_mem_middle {p : Worker α β ε → Prop} :
    (∃ x ∈ before ++ w :: after, p x) ↔ p w ∨ ∃ x ∈ before ++ after, p x := by
  simp only [List.mem_append, List.mem_cons, or_and_right, exists_or, exists_eq_left]
  exact or_left_comm

theorem done_of_finished (h : Finished ws) : ws.map (Worker.done note) = ws := by
  refine (List.map_congr_left fun w hw => ?_).trans (List.map_id ws)
  obtain ⟨rest, own, error⟩ := w
  have hrest : rest = [] := h _ hw
  subst hrest
  rfl

/-! ### Workers that do not fail -/

/-- **The workers have the effects of all their actions**, in the order of the workers. -/
theorem Acts.finishes (ha : Acts act Inv view good bad effect note)
    (hcomm : ∀ {a b}, good a → good b → ∀ t, effect (effect t a) b = effect (effect t b) a)
    (hrun : Relation.ReflTransGen (Step act) c c') (hfin : Finished c'.1) (hinv : Inv c.2)
    (hgood : ∀ a ∈ pending c.1, good a) :
    Inv c'.2 ∧ view c'.2 = (pending c.1).foldl effect (view c.2) ∧
    c'.1 = c.1.map (Worker.done note) := by
  -- on the run from its first step; the pending actions lose the one just done
  induction hrun using Relation.ReflTransGen.head_induction_on with
  | refl =>
    have hnil : pending c'.1 = [] := List.eq_nil_iff_forall_not_mem.mpr fun a hmem => by
      obtain ⟨w, hw, haw⟩ := mem_pending.mp hmem
      rw [hfin w hw] at haw
      cases haw
    rw [hnil, done_of_finished hfin]
    exact ⟨hinv, rfl, rfl⟩
  | head hstep _ ih =>
    cases hstep with
    | @acts before after a rest own own' error s s' h =>
      have hpend : ∀ x : Worker α β ε,
          pending (before ++ x :: after, s).1 = pending before ++ (x.rest ++ pending after) :=
            fun x =>
        pending_middle
      rw [hpend] at hgood
      obtain ⟨s₁, h₁, hinv₁, hview⟩ := ha.ok own (hgood a (by simp)) hinv
      obtain ⟨rfl, rfl⟩ := Prod.mk.inj (Except.ok.inj (h.symm.trans h₁))
      have hmid : (pending before ++ (a :: rest ++ pending after)).Perm
          (a :: (pending before ++ (rest ++ pending after))) := List.perm_middle
      have hsub : pending (before ++ ⟨rest, note own a, error⟩ :: after) =
          pending before ++ (rest ++ pending after) := pending_middle
      obtain ⟨hi, hv, hws⟩ := ih hinv₁ fun b hb => by
        rw [hsub] at hb
        exact hgood b (hmid.mem_iff.mpr (List.mem_cons_of_mem a hb))
      refine ⟨hi, ?_, ?_⟩
      -- the action done first is moved to the front, as the effects commute
      · calc view c'.2 = (pending before ++ (rest ++ pending after)).foldl effect (view s') := by
              rw [hv, hsub]
          _ = (a :: (pending before ++ (rest ++ pending after))).foldl effect (view s) := by
              rw [hview, List.foldl_cons]
          _ = (pending before ++ (a :: rest ++ pending after)).foldl effect (view s) :=
              (hmid.foldl_eq' (fun x hx y hy t => hcomm (hgood x hx) (hgood y hy) t) _).symm
          _ = _ := by rw [pending_middle]
      · rw [hws]
        simp only [List.map_append, List.map_cons]
        rfl
    -- a good action does not fail
    | @fails before after a rest own error e s h =>
      obtain ⟨s₁, h₁, -, -⟩ := ha.ok own (hgood a (mem_pending.mpr ⟨_, List.mem_append_right _
        (List.mem_cons_self ..), List.mem_cons_self ..⟩)) hinv
      rw [h] at h₁
      cases h₁

/-- In a row. -/
theorem Acts.serial (ha : Acts act Inv view good bad effect note) (own : β) {s : σ} (hinv : Inv s)
    (hgood : ∀ a ∈ as, good a) :
    ∃ s', serial act as own s = .ok (as.foldl note own, s') ∧ Inv s' ∧
    view s' = as.foldl effect (view s) := by
  induction as generalizing own s with
  | nil => exact ⟨s, rfl, hinv, rfl⟩
  | cons a as ih =>
    obtain ⟨s₁, h₁, hinv₁, hview₁⟩ := ha.ok own (hgood a (List.mem_cons_self ..)) hinv
    obtain ⟨s', hs', hinv', hview'⟩ := ih (note own a) hinv₁ fun b hb =>
      hgood b (List.mem_cons_of_mem a hb)
    refine ⟨s', ?_, hinv', ?_⟩
    · rw [Workers.serial, List.foldlM_cons, h₁]
      exact hs'
    · rw [hview', hview₁]
      rfl

/-! ### Workers that fail -/

/-- What a step leaves to do was there before. -/
theorem Step.pending_subset (hstep : Step act c c') : ∀ a ∈ pending c'.1, a ∈ pending c.1 := by
  cases hstep with
  | acts h =>
    intro b hb
    rw [show pending _ = _ from pending_middle] at hb ⊢
    simp only [List.mem_append, List.mem_cons] at hb ⊢
    tauto
  | fails h =>
    intro b hb
    rw [show pending _ = _ from pending_middle] at hb ⊢
    simp only [List.mem_append, List.mem_cons, List.not_mem_nil] at hb ⊢
    tauto

/-- A step keeps the invariant. -/
theorem Acts.step_inv (ha : Acts act Inv view good bad effect note) (hstep : Step act c c')
    (hinv : Inv c.2) (hall : ∀ a ∈ pending c.1, good a ∨ bad a) : Inv c'.2 := by
  cases hstep with
  | @acts before after a rest own own' error s s' h =>
    have hmem : a ∈ pending (before ++ (⟨a :: rest, own, error⟩ : Worker α β ε) :: after) :=
      mem_pending.mpr ⟨_, List.mem_append_right _ (List.mem_cons_self ..), List.mem_cons_self ..⟩
    have hgood : good a := (hall a hmem).resolve_right fun hba => by
      obtain ⟨e, he⟩ := ha.failing own hba hinv
      rw [h] at he
      cases he
    obtain ⟨s₁, h₁, hinv₁, -⟩ := ha.ok own hgood hinv
    obtain ⟨-, rfl⟩ := Prod.mk.inj (Except.ok.inj (h.symm.trans h₁))
    exact hinv₁
  | fails h => exact hinv

/-- And so does a run. -/
theorem Acts.run_inv (ha : Acts act Inv view good bad effect note)
    (hrun : Relation.ReflTransGen (Step act) c c')
    (hinv : Inv c.2) (hall : ∀ a ∈ pending c.1, good a ∨ bad a) : Inv c'.2 := by
  induction hrun using Relation.ReflTransGen.head_induction_on with
  | refl => exact hinv
  | head hstep _ ih =>
    exact ih (ha.step_inv hstep hinv hall) fun a hmem => hall a (hstep.pending_subset a hmem)

/-- A worker that has a bad action fails. -/
theorem Acts.troubled (ha : Acts act Inv view good bad effect note)
    (hrun : Relation.ReflTransGen (Step act) c c') (hfin : Finished c'.1) (hinv : Inv c.2)
    (hall : ∀ a ∈ pending c.1, good a ∨ bad a) (hbad : ∃ w ∈ c.1, Troubled bad w) :
    ∃ w ∈ c'.1, w.error ≠ none := by
  induction hrun using Relation.ReflTransGen.head_induction_on with
  | refl =>
    obtain ⟨w, hw, herr | ⟨a, haw, -⟩⟩ := hbad
    · exact ⟨w, hw, herr⟩
    · rw [hfin w hw] at haw
      cases haw
  | head hstep _ ih =>
    refine ih (ha.step_inv hstep hinv hall) (fun a hmem => hall a (hstep.pending_subset a hmem)) ?_
    cases hstep with
    | @acts before after a rest own own' error s s' h =>
      have hnot : ¬bad a := fun hba => by
        obtain ⟨e, he⟩ := ha.failing own hba hinv
        rw [h] at he
        cases he
      refine exists_mem_middle.mpr ((exists_mem_middle.mp hbad).imp_left ?_)
      rintro (herr | ⟨b, hb, hbb⟩)
      · exact Or.inl herr
      · rcases List.mem_cons.mp hb with rfl | hb
        · exact absurd hbb hnot
        · exact Or.inr ⟨b, hb, hbb⟩
    | fails h => exact exists_mem_middle.mpr (Or.inl (Or.inl (Option.some_ne_none _)))

/-- In a row, the first bad action ends it. -/
theorem Acts.serial_fails (ha : Acts act Inv view good bad effect note) (own : β) {s : σ}
    (hinv : Inv s) (hall : ∀ a ∈ as, good a ∨ bad a) (hbad : ∃ a ∈ as, bad a) :
    ∃ e, Workers.serial act as own s = .error e := by
  induction as generalizing own s with
  | nil =>
    obtain ⟨a, hmem, -⟩ := hbad
    cases hmem
  | cons a as ih =>
    rw [Workers.serial, List.foldlM_cons]
    by_cases hba : bad a
    · obtain ⟨e, he⟩ := ha.failing own hba hinv
      rw [he]
      exact ⟨e, rfl⟩
    · obtain ⟨s₁, h₁, hinv₁, -⟩ :=
        ha.ok own ((hall a (List.mem_cons_self ..)).resolve_right hba) hinv
      obtain ⟨b, hb, hbb⟩ := hbad
      rcases List.mem_cons.mp hb with rfl | hb
      · exact absurd hbb hba
      · rw [h₁]
        exact ih _ hinv₁ (fun x hx => hall x (List.mem_cons_of_mem a hx)) ⟨b, hb, hbb⟩

/-! ### The end -/

/-- **The workers can always go on to the end**, by induction on what is left to do. -/
theorem Acts.exists_finished (ha : Acts act Inv view good bad effect note) (hinv : Inv c.2)
    (hall : ∀ a ∈ pending c.1, good a ∨ bad a) :
    ∃ c', Relation.ReflTransGen (Step act) c c' ∧ Finished c'.1 := by
  induction hn : (pending c.1).length using Nat.strong_induction_on generalizing c with
  | _ n ih =>
    by_cases hfin : Finished c.1
    · exact ⟨c, .refl, hfin⟩
    obtain ⟨ws, s⟩ := c
    simp only [Finished, not_forall] at hfin
    obtain ⟨⟨rest, own, error⟩, hw, hrest⟩ := hfin
    obtain ⟨a, rest, rfl⟩ := List.exists_cons_of_ne_nil hrest
    obtain ⟨before, after, rfl⟩ := List.append_of_mem hw
    change (pending (before ++ _ :: after)).length = n at hn
    change ∀ b ∈ pending (before ++ _ :: after), _ at hall
    rw [pending_middle] at hn hall
    have hmem : a ∈ pending before ++ (a :: rest ++ pending after) := by simp
    by_cases hba : bad a
    · obtain ⟨e, he⟩ := ha.failing own hba hinv
      obtain ⟨c', hrun, hfin⟩ :=
        @ih (pending (before ++ (⟨[], own, some e⟩ : Worker α β ε) :: after)).length
        (by
          rw [← hn, pending_middle]
          simp only [List.length_append, List.length_cons, List.length_nil]
          omega) (before ++ ⟨[], own, some e⟩ :: after, s) hinv (fun b hb => hall b (by
          change b ∈ pending (before ++ _ :: after) at hb
          rw [pending_middle] at hb
          simp only [List.mem_append, List.mem_cons, List.not_mem_nil] at hb ⊢
          tauto)) rfl
      exact ⟨c', .head (.fails he) hrun, hfin⟩
    · obtain ⟨s₁, h₁, hinv₁, -⟩ := ha.ok own ((hall a hmem).resolve_right hba) hinv
      obtain ⟨c', hrun, hfin⟩ :=
        @ih (pending (before ++ (⟨rest, note own a, error⟩ : Worker α β ε) :: after)).length
        (by
          rw [← hn, pending_middle]
          simp only [List.length_append, List.length_cons]
          omega) (before ++ ⟨rest, note own a, error⟩ :: after, s₁) hinv₁ (fun b hb => hall b (by
          change b ∈ pending (before ++ _ :: after) at hb
          rw [pending_middle] at hb
          simp only [List.mem_append, List.mem_cons] at hb ⊢
          tauto)) rfl
      exact ⟨c', .head (.acts h₁) hrun, hfin⟩

end Workers

end E2fsprogs
