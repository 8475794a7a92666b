import E2fsprogs.Quota.Delete

/-!
# The recursion of a deletion

A level clears its reference where nothing is left below it, and gives its block back where that
was the only one. The root stays.
-/

namespace E2fsprogs

namespace Quota

variable {h h' : QuotaHandle} {L L' : Layout} {b d p s n : ℕ} {i : Fin 256} {r : ℕ × QuotaHandle}

/-- **One level**: what is left below is known. -/
theorem unlinkTree_spec {id : ℕ} (H : Holds h L) (hd : d ≤ 3) (hne : L.tree d p ≠ 0)
    (hchild : ∃ L₁, Removes h L id b s (d + 1) (p * 256 + (i : ℕ)) r L₁) :
    ∃ L', Removes h L id b s d p
      (unlinkTree i (L.tree d p) (h.readBlk (L.tree d p)) r.1 r.2) L' := by
  obtain ⟨L₁, hrem⟩ := hchild
  have hrole := H.shape.index_of_tree hd hne
  have htree : L₁.tree d p = L.tree d p := by rw [hrem.above d (Nat.lt_succ_self d)]
  have hkept := hrem.kept d (Nat.lt_succ_self d) _ p hrole
  have hrole₁ := hrem.holds.shape.index_of_tree hd (htree ▸ hne)
  rw [htree] at hrole₁
  have hblt : L.tree d p < 2 ^ 22 := H.lt (hrole ▸ Role.index_ne_out)
  -- blocks of other places are different ones
  have hother : ∀ c d' p', L.role c = .index d' p' → d' < d → c ≠ L.tree d p := by
    rintro c d' p' hc hd' rfl
    rw [hrole] at hc
    cases hc
    exact lt_irrefl _ hd'
  have hdata : ∀ c, L₁.role c = .data → c ≠ L.tree d p ∧ c < 2 ^ 22 := fun c hc => by
    refine ⟨?_, hrem.holds.lt (hc ▸ by decide)⟩
    rintro rfl
    rw [hrole₁] at hc
    cases hc
  by_cases hz : r.1 = 0
  · obtain ⟨h₁, hh₁⟩ : ∃ h₁, h₁ = r.2 := ⟨_, rfl⟩
    have H₁ := hrem.holds
    rw [← hh₁] at H₁ hkept
    have hstale := hrem.stale hz
    have hnone : L₁.tree (d + 1) (p * 256 + (i : ℕ)) = 0 := hrem.tree.trans hz
    by_cases hempty : (∀ j, Function.update (h.readBlk (L.tree d p)) i 0 j = 0) ∧
        L.tree d p ≠ qtTreeoff
    · -- the block is given back
      have hd0 : d ≠ 0 := by
        rintro rfl
        rcases eq_or_ne p 0 with rfl | hp
        · exact hempty.2 H.shape.root
        · exact hne (H.shape.root_only p hp)
      have hun : unlinkTree i (L.tree d p) (h.readBlk (L.tree d p)) r.1 r.2 =
          (0, putFreeDqblk h₁ (Function.update (h.readBlk (L.tree d p)) i 0) (L.tree d p)) := by
        rw [unlinkTree, if_pos hz, ← hh₁]
        exact if_pos hempty
      have H₂ := H₁.abandon hd hd0 (htree ▸ hne) hstale hnone (by rw [htree, hkept]; exact hempty.1)
      rw [htree] at H₂
      have H₃ := @putFreeDqblk_spec _ _ (Function.update (h.readBlk (L.tree d p)) i 0) _ H₂
        (Function.update_self ..)
      have hread : ∀ c < 2 ^ 22, c ≠ L.tree d p →
          (putFreeDqblk h₁ (Function.update (h.readBlk (L.tree d p)) i 0) (L.tree d p)).readBlk c =
            h₁.readBlk c := fun c hc hcb => by rw [readBlk_putFreeDqblk hblt hc, if_neg hcb]
      have hdepth : ∀ d' ≠ d, setTree L₁.tree d p 0 d' = L₁.tree d' := fun d' hd' =>
        setTree_of_depth_ne hd'
      rw [hun]
      refine ⟨_, H₃, hrem.pending, setTree_self, fun _ => rfl, fun hn => absurd rfl hn,
        (congrFun (hdepth 4 (by omega)) id).trans hrem.gone,
        fun q hq => (congrFun (hdepth 4 (by omega)) q).trans (hrem.leaf q hq),
        fun d' hd' => (hdepth d' (by omega)).trans (hrem.above d' (by omega)),
        fun d' hd' c p' hc => ?_, fun c hc => ?_, ?_, fun c => ?_⟩
      · have hcout : L.role c ≠ .out := hc ▸ Role.index_ne_out
        rw [hread c (H.lt hcout) (hother c d' p' hc hd'), hh₁, hrem.kept d' (by omega) c p' hc]
      · change Function.update (Function.update L₁.role _ .limbo) _ .free c = .data at hc
        have hcb : c ≠ L.tree d p := by
          rintro rfl
          rw [Function.update_self] at hc
          cases hc
        rw [Function.update_of_ne hcb, Function.update_of_ne hcb] at hc
        obtain ⟨hold, hent⟩ := hrem.data c hc
        refine ⟨hold, fun t ht => ?_⟩
        rw [hread c (hdata c hc).2 hcb, hh₁, hent t ht]
      · rw [putFreeDqblk_fmt, hh₁, hrem.fmt]
      · change Function.update (Function.update L₁.role _ .limbo) _ .free c = _ ↔ _
        rcases eq_or_ne c (L.tree d p) with rfl | hcb
        · rw [Function.update_self, hrole]
          exact iff_of_false (by decide) Role.index_ne_limbo
        · rw [Function.update_of_ne hcb, Function.update_of_ne hcb, hrem.limbo]
    · -- the reference is cleared
      have hun : unlinkTree i (L.tree d p) (h.readBlk (L.tree d p)) r.1 r.2 =
          (L.tree d p, h₁.writeBlk (L.tree d p)
            (Function.update (h.readBlk (L.tree d p)) i 0)) := by
        rw [unlinkTree, if_pos hz, ← hh₁]
        exact if_neg hempty
      have H₂ := H₁.writeRef hd (htree ▸ hne) hstale
      rw [htree, hnone, hkept] at H₂
      have hread : ∀ c < 2 ^ 22, c ≠ L.tree d p →
          (h₁.writeBlk (L.tree d p) (Function.update (h.readBlk (L.tree d p)) i 0)).readBlk c =
            h₁.readBlk c := fun c hc hcb => by rw [readBlk_write hblt hc, if_neg hcb]
      rw [hun]
      refine ⟨_, H₂, hrem.pending, htree, fun h0 => absurd h0 hne, fun _ => rfl,
        hrem.gone, hrem.leaf, fun d' hd' => hrem.above d' (by omega), fun d' hd' c p' hc => ?_,
        fun c hc => ?_, ?_, hrem.limbo⟩
      · have hcout : L.role c ≠ .out := hc ▸ Role.index_ne_out
        rw [hread c (H.lt hcout) (hother c d' p' hc hd'), hh₁, hrem.kept d' (by omega) c p' hc]
      · obtain ⟨hold, hent⟩ := hrem.data c hc
        obtain ⟨hcb, hclt⟩ := hdata c hc
        refine ⟨hold, fun t ht => ?_⟩
        rw [hread c hclt hcb, hh₁, hent t ht]
      · rw [writeBlk_fmt, hh₁, hrem.fmt]
  · have hun : unlinkTree i (L.tree d p) (h.readBlk (L.tree d p)) r.1 r.2 = (L.tree d p, r.2) := by
      rw [unlinkTree, if_neg hz]
    rw [hun]
    exact ⟨L₁, hrem.holds, hrem.pending, htree, fun h0 => absurd h0 hne, fun _ => hrem.done hz,
      hrem.gone, hrem.leaf, fun d' hd' => hrem.above d' (by omega),
      fun d' hd' c p' hc => hrem.kept d' (by omega) c p' hc, hrem.data, hrem.fmt, hrem.limbo⟩

/-- What leads to an id that is there is not empty. -/
theorem Holds.path_ne_zero {id : UInt32} (H : Holds h L) (hstale : L.stale = none)
    (hid : L.tree 4 id.toNat ≠ 0) (n : ℕ) {d : ℕ} (hdn : d + n = 3) :
    L.tree d (pathOf id (n + 1)) ≠ 0 := by
  induction n generalizing d with
  | zero =>
    obtain rfl : d = 3 := by omega
    intro hz
    have hchild := H.child_zero hstale le_rfl hz (getIndex id 0)
    rw [← pathOf_succ 0, pathOf_zero] at hchild
    exact hid hchild
  | succ n ih =>
    intro hz
    have hchild := H.child_zero hstale (by omega) hz (getIndex id (n + 1))
    rw [← pathOf_succ (n + 1)] at hchild
    exact ih (by omega) hchild

/-- **A removal**, from the level that has `n` levels below it on. -/
theorem removeTree_spec {id : UInt32} (n : ℕ) {d : ℕ} (hdn : d + n = 3) (H : Holds h L)
    (hpend : L.pending = none) (hstale : L.stale = none) (hb : L.tree 4 id.toNat = b) (hb0 : b ≠ 0)
    (hs : EntryOf h b s id.toNat) :
    ∃ L', Removes h L id.toNat b s d (pathOf id (n + 1))
      (removeTree id (entryOff h.fmt b s) n h (L.tree d (pathOf id (n + 1)))) L' := by
  have hne := H.path_ne_zero hstale (hb ▸ hb0) n hdn
  induction n generalizing d with
  | zero =>
    obtain rfl : d = 3 := by omega
    obtain ⟨p, hp⟩ : ∃ p, p = pathOf id (0 + 1) := ⟨_, rfl⟩
    have hpath : id.toNat = p * 256 + (getIndex id 0 : ℕ) := by
      rw [hp, ← pathOf_succ 0, pathOf_zero]
    rw [← hp] at hne ⊢
    have hchild := H.ref_eq hstale le_rfl hne (getIndex id 0)
    rw [← hpath, hb] at hchild
    have hfree := freeDqentry_spec H hpend hstale hb hb0 hs
    rw [removeTree, hchild]
    obtain ⟨h', hh'⟩ : ∃ h', h' = freeDqentry h (entryOff h.fmt b s) b := ⟨_, rfl⟩
    rw [← hh'] at hfree ⊢
    rw [hpath] at hfree ⊢
    exact unlinkTree_spec (r := (0, h')) H le_rfl hne hfree
  | succ n ih =>
    have hpath : pathOf id (n + 1) = pathOf id (n + 1 + 1) * 256 + (getIndex id (n + 1) : ℕ) :=
      pathOf_succ (n + 1)
    rw [removeTree]
    have hchild := H.ref_eq hstale (by omega) hne (getIndex id (n + 1))
    rw [← hpath] at hchild
    rw [hchild]
    refine unlinkTree_spec H (by omega) hne ?_
    rw [← hpath]
    exact ih (by omega) (H.path_ne_zero hstale (hb ▸ hb0) n (by omega))

end Quota

end E2fsprogs
