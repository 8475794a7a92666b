import E2fsprogs.EncryptedFiles.Table

/-!
# Runs of the table of encrypted files

After any calls of `add_encrypted_file` for inodes in ascending order, the ids that
`find_encryption_policy` returns tell the policies apart exactly
(`E2fsprogs.AnswersPolicies`). The tree holds each policy that was seen once, with ids counted up
from zero (`E2fsprogs.Interned`), and the ranges hold the inodes with the id of their policy
(`E2fsprogs.Ranged`).
-/

namespace E2fsprogs

/-- The policy of a file, when its attribute has one of the two layouts. -/
def EncryptedFile.policy (f : EncryptedFile) : Option FscryptPolicy :=
  f.xattr.bind fun xattr => (fscryptContextToPolicy xattr).toOption

/-- A file with a context of a version that is not known. -/
def EncryptedFile.Unknown (f : EncryptedFile) : Prop := ∃ x, f.xattr = some x ∧ ContextUnknown x

/-- A file with a context of one of the two layouts. -/
def EncryptedFile.Valid (f : EncryptedFile) : Prop := ∃ x, f.xattr = some x ∧ ContextValid x

/-- The different policies of some files. -/
def policiesOf (files : List EncryptedFile) : Finset FscryptPolicy :=
  (files.filterMap EncryptedFile.policy).toFinset

/-- **The table answers policy equality exactly**: no policy for the inodes that were never added
or whose attribute is absent or corrupt, the special id for those of an unknown version, and the
same id for two files with valid contexts if and only if these are the same up to the nonce. -/
structure AnswersPolicies (files : List EncryptedFile) (ctx : Option EncryptedFileInfo) : Prop where
  none_iff : ∀ i, findEncryptionPolicy ctx i = noEncryptionPolicy ↔
    ∀ f ∈ files, f.ino = i → ¬f.Valid ∧ ¬f.Unknown
  unrecognized_iff : ∀ i, findEncryptionPolicy ctx i = unrecognizedEncryptionPolicy ↔
    ∃ f ∈ files, f.ino = i ∧ f.Unknown
  same_iff : ∀ f ∈ files, ∀ g ∈ files, ∀ x y, f.xattr = some x → g.xattr = some y →
    ContextValid x → ContextValid y →
      (findEncryptionPolicy ctx f.ino = findEncryptionPolicy ctx g.ino ↔
        contextPolicy x = contextPolicy y)

/-- Calls for inodes in ascending order, with fewer policies than there are ids. -/
structure EncryptedFilesOk (files : List EncryptedFile) : Prop where
  ascending : files.Pairwise fun f g => f.ino < g.ino
  ino_lt : ∀ f ∈ files, f.ino < 2 ^ 32
  few : (policiesOf files).card < 2 ^ 32 - 3

section Runs

variable {bal : SearchTree PolicyMapEntry → List PolicyMapEntry → SearchTree PolicyMapEntry}
  {info info' : EncryptedFileInfo} {done : List EncryptedFile} {f : EncryptedFile}
  {p : FscryptPolicy} {e : PolicyMapEntry} {ino id : ℕ}

/-! ### Interning -/

/-- **The tree of policies.** -/
structure Interned (done : List EncryptedFile) (info : EncryptedFileInfo) : Prop where
  sorted : info.policies.inorder.Pairwise fun a b => a.policy.key < b.policy.key
  lt_next : ∀ e ∈ info.policies.inorder, e.policyId < info.nextPolicyId
  ids : (info.policies.inorder.map PolicyMapEntry.policyId).Nodup
  next : info.nextPolicyId = info.policies.inorder.length
  seen : ∀ p, (∃ e ∈ info.policies.inorder, e.policy = p) ↔ ∃ f ∈ done, f.policy = some p

theorem cmpEntry_lt_iff : cmpEntry p e = .lt ↔ p.key < e.policy.key := by
  rw [← cmpFscryptPolicies_neg_iff, cmpEntry]
  split_ifs with h1 h2
  · exact iff_of_true rfl h1
  · exact iff_of_false not_false h1
  · exact iff_of_false not_false h1

theorem cmpEntry_gt_iff : cmpEntry p e = .gt ↔ e.policy.key < p.key := by
  rw [← cmpFscryptPolicies_pos_iff, cmpEntry]
  split_ifs with h1 h2
  · exact iff_of_false not_false (by omega)
  · exact iff_of_true rfl h2
  · exact iff_of_false not_false h2

theorem cmpEntry_eq_iff : cmpEntry p e = .eq ↔ p = e.policy := by
  rw [← cmpFscryptPolicies_eq_zero_iff, cmpEntry]
  split_ifs with h1 h2
  · exact iff_of_false not_false h1.ne
  · exact iff_of_false not_false h2.ne'
  · exact iff_of_true rfl (by omega)

theorem Interned.searchable (h : Interned done info) (p : FscryptPolicy) :
    SearchTree.Sorted (cmpEntry p) info.policies.inorder := by
  refine h.sorted.imp fun {a b} hab => ?_
  rw [cmpEntry_lt_iff, cmpEntry_gt_iff]
  rcases lt_or_ge p.key b.policy.key with hlt | hge
  · exact Or.inl hlt
  · exact Or.inr (lt_of_lt_of_le hab hge)

/-- Two entries of the tree with the same id are the same. -/
theorem Interned.eq_of_id (h : Interned done info) {a b : PolicyMapEntry}
    (ha : a ∈ info.policies.inorder) (hb : b ∈ info.policies.inorder)
    (hid : a.policyId = b.policyId) : a = b := List.inj_on_of_nodup_map h.ids ha hb hid

/-- Two entries of the tree with the same policy are the same. -/
theorem Interned.eq_of_policy (h : Interned done info) {a b : PolicyMapEntry}
    (ha : a ∈ info.policies.inorder) (hb : b ∈ info.policies.inorder)
    (hpolicy : a.policy = b.policy) : a = b := by
  have hnodup : (info.policies.inorder.map fun e => e.policy.key).Nodup :=
    List.Pairwise.imp (fun hab => hab.ne) (List.pairwise_map.mpr h.sorted)
  exact List.inj_on_of_nodup_map hnodup ha hb (congrArg FscryptPolicy.key hpolicy)

/-- There are as many ids as different policies. -/
theorem Interned.next_eq (h : Interned done info) : info.nextPolicyId = (policiesOf done).card := by
  have hnodup : (info.policies.inorder.map PolicyMapEntry.policy).Nodup :=
    List.pairwise_map.mpr (h.sorted.imp fun hab heq => hab.ne (congrArg FscryptPolicy.key heq))
  have hset : (info.policies.inorder.map PolicyMapEntry.policy).toFinset = policiesOf done := by
    ext p
    rw [List.mem_toFinset, List.mem_map, h.seen, policiesOf, List.mem_toFinset, List.mem_filterMap]
  rw [h.next, ← hset, List.toFinset_card_of_nodup hnodup, List.length_map]

/-- What interning a policy does. -/
structure Interns (done : List EncryptedFile) (info : EncryptedFileInfo) (f : EncryptedFile)
    (p : FscryptPolicy) (r : ℕ × EncryptedFileInfo) : Prop where
  interned : Interned (done ++ [f]) r.2
  entry : ∃ e ∈ r.2.policies.inorder, e.policy = p ∧ e.policyId = r.1
  kept : ∀ e ∈ info.policies.inorder, e ∈ r.2.policies.inorder
  ranges : r.2.fileRanges = info.fileRanges

theorem seen_append (h : ∀ p, (∃ e ∈ info.policies.inorder, e.policy = p) ↔
    ∃ f ∈ done, f.policy = some p) (p : FscryptPolicy) :
    (∃ g ∈ done ++ [f], g.policy = some p) ↔
      (∃ e ∈ info.policies.inorder, e.policy = p) ∨ f.policy = some p := by
  rw [h]
  constructor
  · rintro ⟨g, hg, hp⟩
    rcases List.mem_append.mp hg with hg | hg
    · exact Or.inl ⟨g, hg, hp⟩
    · exact Or.inr (List.mem_singleton.mp hg ▸ hp)
  · rintro (⟨g, hg, hp⟩ | hp)
    · exact ⟨g, List.mem_append_left _ hg, hp⟩
    · exact ⟨f, List.mem_append_right _ (List.mem_singleton_self f), hp⟩

/-- A file without a policy leaves the tree as it is. -/
theorem Interned.skip (h : Interned done info) (hnone : f.policy = none) :
    Interned (done ++ [f]) info :=
  { h with
    seen := fun p => by
      rw [seen_append h.seen, hnone]
      exact (or_iff_left (Option.some_ne_none p).symm).symm }

/-- **Interning a policy** gives it the id of its entry, and adds an entry if there is none. -/
theorem internPolicy_spec (hbal : ∀ t l, (bal t l).inorder = l) (h : Interned done info)
    (hp : f.policy = some p) (hfew : info.nextPolicyId < 2 ^ 32 - 1) :
    Interns done info f p (internPolicy bal info p) := by
  have hsearch := h.searchable p
  rcases hfind : (info.policies.find (cmpEntry p) none).1 with _ | entry
  -- a new policy: it is linked in and takes the next id
  · have hnot : ∀ e ∈ info.policies.inorder, cmpEntry p e ≠ .eq := by
      intro e he heq
      rw [SearchTree.find_of_mem hsearch he heq] at hfind
      cases hfind
    have heq : internPolicy bal info p = (info.nextPolicyId, { info with
        policies := bal info.policies
          (info.policies.link (cmpEntry p) ⟨p, info.nextPolicyId⟩).inorder
        nextPolicyId := (info.nextPolicyId + 1) % 2 ^ 32 }) := by
      rw [internPolicy, hfind]
    obtain ⟨a, b, hin, hlink, ha, hb⟩ :=
      SearchTree.link_gap hsearch hnot (⟨p, info.nextPolicyId⟩ : PolicyMapEntry)
    rw [heq]
    have hmem : ∀ e, e ∈ a ++ ⟨p, info.nextPolicyId⟩ :: b ↔
        e = ⟨p, info.nextPolicyId⟩ ∨ e ∈ info.policies.inorder := by
      intro e
      rw [hin, List.mem_append, List.mem_append, List.mem_cons]
      tauto
    have hnext : (info.nextPolicyId + 1) % 2 ^ 32 = info.nextPolicyId + 1 :=
      Nat.mod_eq_of_lt (by omega)
    have hsorted := h.sorted
    have hids := h.ids
    have hnextlen := h.next
    rw [hin] at hsorted hids hnextlen
    refine ⟨⟨?_, ?_, ?_, ?_, fun q => ?_⟩, ?_, ?_, rfl⟩
    · dsimp only
      rw [hbal, hlink]
      rw [List.pairwise_append] at hsorted ⊢
      refine ⟨hsorted.1, List.pairwise_cons.mpr ⟨fun x hx => cmpEntry_lt_iff.mp (hb x hx),
        hsorted.2.1⟩, fun x hx y hy => ?_⟩
      rcases List.mem_cons.mp hy with rfl | hy
      · exact cmpEntry_gt_iff.mp (ha x hx)
      · exact hsorted.2.2 x hx y hy
    · dsimp only
      rw [hbal, hlink, hnext]
      intro e he
      rcases (hmem e).mp he with rfl | he
      · exact Nat.lt_succ_self _
      · exact (h.lt_next e he).trans (Nat.lt_succ_self _)
    · dsimp only
      rw [hbal, hlink]
      have hperm : (a ++ ⟨p, info.nextPolicyId⟩ :: b).Perm (⟨p, info.nextPolicyId⟩ :: (a ++ b)) :=
        List.perm_middle
      refine (hperm.map PolicyMapEntry.policyId).nodup_iff.mpr (List.nodup_cons.mpr ⟨?_, hids⟩)
      intro hold
      obtain ⟨e, he, hid⟩ := List.mem_map.mp hold
      exact (h.lt_next e (hin ▸ he)).ne hid
    · dsimp only
      rw [hbal, hlink, hnext, hnextlen, List.length_append, List.length_append, List.length_cons]
      omega
    · dsimp only
      rw [hbal, hlink, seen_append h.seen, hp, Option.some.injEq]
      constructor
      · rintro ⟨e, he, rfl⟩
        rcases (hmem e).mp he with rfl | he
        · exact Or.inr rfl
        · exact Or.inl ⟨e, he, rfl⟩
      · rintro (⟨e, he, hq⟩ | rfl)
        · exact ⟨e, (hmem e).mpr (Or.inr he), hq⟩
        · exact ⟨_, (hmem _).mpr (Or.inl rfl), rfl⟩
    · dsimp only
      rw [hbal, hlink]
      exact ⟨_, (hmem _).mpr (Or.inl rfl), rfl, rfl⟩
    · dsimp only
      rw [hbal, hlink]
      exact fun e he => (hmem e).mpr (Or.inr he)
  -- a policy seen before: the entry found is its own
  · obtain ⟨hmem, hcmp⟩ := SearchTree.find_found hfind
    have hpolicy : entry.policy = p := (cmpEntry_eq_iff.mp hcmp).symm
    have heq : internPolicy bal info p = (entry.policyId, info) := by rw [internPolicy, hfind]
    rw [heq]
    refine ⟨{ h with seen := fun q => ?_ }, ⟨entry, hmem, hpolicy, rfl⟩, fun _ he => he, rfl⟩
    dsimp only
    rw [seen_append h.seen, hp, Option.some.injEq]
    refine ⟨Or.inl, fun hor => hor.elim (fun h => h) ?_⟩
    rintro rfl
    exact ⟨entry, hmem, hpolicy⟩

/-! ### Appending -/

/-- Some range holds the inode, with this id. -/
def RangeGives (info : EncryptedFileInfo) (i id : ℕ) : Prop :=
  ∃ range ∈ info.fileRanges, range.Has i ∧ range.policyId = id

/-- **Appending an inode** behind the others. -/
theorem appendInoAndPolicyId_spec (inodesCount : ℕ) (hapart : RangesApart info.fileRanges)
    (hbehind : ∀ range ∈ info.fileRanges, range.lastIno < ino) (hino : ino < 2 ^ 32) (id : ℕ) :
    ∃ info', appendInoAndPolicyId inodesCount info ino id = some info' ∧
      info'.policies = info.policies ∧ info'.nextPolicyId = info.nextPolicyId ∧
      RangesApart info'.fileRanges ∧ (∀ range ∈ info'.fileRanges, range.lastIno ≤ ino) ∧
      ∀ i k, RangeGives info' i k ↔ RangeGives info i k ∨ i = ino ∧ id = k := by
  obtain ⟨fresh, hfresh⟩ : ∃ fresh, fresh = ({ info with
      fileRanges := info.fileRanges ++ [⟨ino, ino, id⟩]
      fileRangesCapacity := if info.fileRanges.length = info.fileRangesCapacity then
        growFileRanges inodesCount info.fileRangesCapacity else info.fileRangesCapacity } :
      EncryptedFileInfo) := ⟨_, rfl⟩
  have hranges : fresh.fileRanges = info.fileRanges ++ [⟨ino, ino, id⟩] := by rw [hfresh]
  -- a range of its own
  have hown : RangesApart fresh.fileRanges ∧ (∀ range ∈ fresh.fileRanges, range.lastIno ≤ ino) ∧
      ∀ i k, RangeGives fresh i k ↔ RangeGives info i k ∨ i = ino ∧ id = k := by
    rw [RangesApart, hranges]
    refine ⟨⟨fun range hrange => ?_, List.pairwise_append.mpr ⟨hapart.2, List.pairwise_singleton ..,
      fun a ha b hb => ?_⟩⟩, fun range hrange => ?_, fun i k => ?_⟩
    · rcases List.mem_append.mp hrange with hold | hnew
      · exact hapart.1 range hold
      · rw [List.mem_singleton.mp hnew]
    · rw [List.mem_singleton.mp hb]
      exact hbehind a ha
    · rcases List.mem_append.mp hrange with hold | hnew
      · exact (hbehind range hold).le
      · rw [List.mem_singleton.mp hnew]
    · rw [RangeGives, hranges]
      constructor
      · rintro ⟨range, hrange, hhas, hid⟩
        rcases List.mem_append.mp hrange with hold | hnew
        · exact Or.inl ⟨range, hold, hhas, hid⟩
        · obtain rfl := List.mem_singleton.mp hnew
          exact Or.inr ⟨le_antisymm hhas.2 hhas.1, hid⟩
      · rintro (⟨range, hrange, hhas⟩ | ⟨rfl, rfl⟩)
        · exact ⟨range, List.mem_append_left _ hrange, hhas⟩
        · exact ⟨_, List.mem_append_right _ (List.mem_singleton_self _), ⟨le_rfl, le_rfl⟩, rfl⟩
  rcases List.eq_nil_or_concat info.fileRanges with hnil | ⟨init, last, hlast⟩
  · refine ⟨fresh, ?_, by rw [hfresh], by rw [hfresh], hown⟩
    rw [appendInoAndPolicyId, ← hfresh, hnil]
    rfl
  · rw [List.concat_eq_append] at hlast
    have hget : info.fileRanges.getLast? = some last := by rw [hlast, List.getLast?_concat]
    have hmem : last ∈ info.fileRanges := List.mem_of_getLast? hget
    have hlt := hbehind last hmem
    have heq : appendInoAndPolicyId inodesCount info ino id =
        if ino = (last.lastIno + 1) % 2 ^ 32 ∧ id = last.policyId then
          some { info with
            fileRanges := info.fileRanges.dropLast ++ [{ last with lastIno := last.lastIno + 1 }] }
        else some fresh := by
      rw [appendInoAndPolicyId, ← hfresh, hget]
      dsimp only
      rw [if_neg (not_le.mpr hlt)]
    rw [heq]
    split_ifs with hmerge
    · obtain ⟨hnext, rfl⟩ := hmerge
      have hino' : last.lastIno + 1 = ino := by omega
      have hdrop : info.fileRanges.dropLast = init := by rw [hlast, List.dropLast_concat]
      refine ⟨_, rfl, rfl, rfl, ?_⟩
      dsimp only
      rw [RangesApart, hdrop, hino']
      rw [RangesApart, hlast, List.pairwise_append] at hapart
      obtain ⟨hself, hinit, -, hcross⟩ := hapart
      rw [hlast] at hbehind
      have hlastle := hself last (List.mem_append_right _ (List.mem_singleton_self _))
      refine ⟨⟨fun range hrange => ?_, List.pairwise_append.mpr ⟨hinit, List.pairwise_singleton ..,
        fun a ha b hb => ?_⟩⟩, fun range hrange => ?_, fun i k => ?_⟩
      · rcases List.mem_append.mp hrange with hold | hnew
        · exact hself range (List.mem_append_left _ hold)
        · rw [List.mem_singleton.mp hnew]
          exact hlastle.trans hlt.le
      · rw [List.mem_singleton.mp hb]
        exact hcross a ha last (List.mem_singleton_self _)
      · rcases List.mem_append.mp hrange with hold | hnew
        · exact (hbehind range (List.mem_append_left _ hold)).le
        · rw [List.mem_singleton.mp hnew]
      · rw [RangeGives, RangeGives, hlast]
        dsimp only
        constructor
        · rintro ⟨range, hrange, hhas, hid⟩
          rcases List.mem_append.mp hrange with hold | hnew
          · exact Or.inl ⟨range, List.mem_append_left _ hold, hhas, hid⟩
          · obtain rfl := List.mem_singleton.mp hnew
            rcases Nat.eq_or_lt_of_le hhas.2 with hi | hi
            · exact Or.inr ⟨hi, hid⟩
            · refine Or.inl ⟨last, List.mem_append_right _ (List.mem_singleton_self _),
                ⟨hhas.1, ?_⟩, hid⟩
              change i < ino at hi
              omega
        · rintro (⟨range, hrange, hhas, hid⟩ | ⟨rfl, rfl⟩)
          · rcases List.mem_append.mp hrange with hold | hnew
            · exact ⟨range, List.mem_append_left _ hold, hhas, hid⟩
            · obtain rfl := List.mem_singleton.mp hnew
              exact ⟨_, List.mem_append_right _ (List.mem_singleton_self _),
                ⟨hhas.1, hhas.2.trans hlt.le⟩, hid⟩
          · exact ⟨_, List.mem_append_right _ (List.mem_singleton_self _),
              ⟨hlastle.trans hlt.le, le_rfl⟩, rfl⟩
    · exact ⟨fresh, rfl, by rw [hfresh], by rw [hfresh], hown⟩

/-! ### The table -/

/-- The id a file gets. -/
def EncryptedFile.GetsId (f : EncryptedFile) (info : EncryptedFileInfo) (id : ℕ) : Prop :=
  f.Unknown ∧ id = unrecognizedEncryptionPolicy ∨
    ∃ e ∈ info.policies.inorder, f.policy = some e.policy ∧ e.policyId = id

/-- **The invariant**: the ranges hold the files that were added, with their ids. -/
structure Ranged (done : List EncryptedFile) (info : EncryptedFileInfo) : Prop where
  interned : Interned done info
  apart : RangesApart info.fileRanges
  last : ∀ range ∈ info.fileRanges, ∃ f ∈ done, range.lastIno ≤ f.ino
  gives : ∀ i k, RangeGives info i k ↔ ∃ f ∈ done, f.ino = i ∧ f.GetsId info k

theorem exists_mem_append_singleton {P : EncryptedFile → Prop} :
    (∃ g ∈ done ++ [f], P g) ↔ (∃ g ∈ done, P g) ∨ P f := by
  constructor
  · rintro ⟨g, hg, hP⟩
    rcases List.mem_append.mp hg with hg | hg
    · exact Or.inl ⟨g, hg, hP⟩
    · exact Or.inr (List.mem_singleton.mp hg ▸ hP)
  · rintro (⟨g, hg, hP⟩ | hP)
    · exact ⟨g, List.mem_append_left _ hg, hP⟩
    · exact ⟨f, List.mem_append_right _ (List.mem_singleton_self f), hP⟩

/-- A file that has no id leaves the table as it is. -/
theorem Ranged.skip (h : Ranged done info) (hpolicy : f.policy = none) (hknown : ¬f.Unknown) :
    Ranged (done ++ [f]) info where
  interned := h.interned.skip hpolicy
  apart := h.apart
  last range hrange := by
    obtain ⟨g, hg, hle⟩ := h.last range hrange
    exact ⟨g, List.mem_append_left _ hg, hle⟩
  gives i k := by
    rw [h.gives, exists_mem_append_singleton]
    refine (or_iff_left ?_).symm
    rintro ⟨-, ⟨hunknown, -⟩ | ⟨e, -, he, -⟩⟩
    · exact hknown hunknown
    · rw [hpolicy] at he
      cases he

/-- Interning a policy changes nothing for the files that were added before. -/
theorem Interns.getsId_iff {r : ℕ × EncryptedFileInfo} (hi : Interns done info f p r)
    (h : Interned done info) {g : EncryptedFile} (hg : g ∈ done) {k : ℕ} :
    g.GetsId r.2 k ↔ g.GetsId info k := by
  refine or_congr_right ⟨?_, fun ⟨e, he, hge⟩ => ⟨e, hi.kept e he, hge⟩⟩
  rintro ⟨e, he, hpolicy, hid⟩
  obtain ⟨e', he', heq⟩ := (h.seen e.policy).mpr ⟨g, hg, hpolicy⟩
  have hsame := hi.interned.eq_of_policy (hi.kept e' he') he heq
  exact ⟨e, hsame ▸ he', hpolicy, hid⟩

/-- **A file with an id** is appended. `info` is the table once the id has been got. -/
theorem Ranged.append (inodesCount : ℕ) (hgot : Interned (done ++ [f]) info)
    (hapart : RangesApart info.fileRanges)
    (hlast : ∀ range ∈ info.fileRanges, ∃ g ∈ done, range.lastIno ≤ g.ino)
    (hgives : ∀ i k, RangeGives info i k ↔ ∃ g ∈ done, g.ino = i ∧ g.GetsId info k)
    (hbehind : ∀ g ∈ done, g.ino < f.ino) (hino : f.ino < 2 ^ 32)
    (hid : ∀ k, f.GetsId info k ↔ id = k) :
    ∃ info', appendInoAndPolicyId inodesCount info f.ino id = some info' ∧
      Ranged (done ++ [f]) info' := by
  have hlt : ∀ range ∈ info.fileRanges, range.lastIno < f.ino := by
    intro range hrange
    obtain ⟨g, hg, hle⟩ := hlast range hrange
    exact hle.trans_lt (hbehind g hg)
  obtain ⟨info', happend, hpolicies, hnext, hapart', hlast', hgives'⟩ :=
    appendInoAndPolicyId_spec inodesCount hapart hlt hino id
  have hgets : ∀ (g : EncryptedFile) k, g.GetsId info' k ↔ g.GetsId info k := fun g k => by
    rw [EncryptedFile.GetsId, EncryptedFile.GetsId, hpolicies]
  refine ⟨info', happend, ⟨?_, ?_, ?_, ?_, ?_⟩, hapart', fun range hrange => ?_, fun i k => ?_⟩
  · rw [hpolicies]
    exact hgot.sorted
  · rw [hpolicies, hnext]
    exact hgot.lt_next
  · rw [hpolicies]
    exact hgot.ids
  · rw [hpolicies, hnext]
    exact hgot.next
  · rw [hpolicies]
    exact hgot.seen
  · exact ⟨f, List.mem_append_right _ (List.mem_singleton_self f), hlast' range hrange⟩
  · rw [hgives', hgives, exists_mem_append_singleton]
    simp only [hgets]
    rw [hid]
    exact or_congr_right (and_congr_left' eq_comm)

/-- The empty table. -/
theorem ranged_empty : Ranged [] ⟨[], 0, .leaf, 0⟩ where
  interned := ⟨List.Pairwise.nil, fun _ he => absurd he List.not_mem_nil, List.nodup_nil, rfl,
    fun _ => ⟨fun ⟨_, he, _⟩ => absurd he List.not_mem_nil,
      fun ⟨_, hf, _⟩ => absurd hf List.not_mem_nil⟩⟩
  apart := ⟨fun _ hr => absurd hr List.not_mem_nil, List.Pairwise.nil⟩
  last _ hr := absurd hr List.not_mem_nil
  gives _ _ := ⟨fun ⟨_, hr, _⟩ => absurd hr List.not_mem_nil,
    fun ⟨_, hf, _⟩ => absurd hf List.not_mem_nil⟩

/-- The table of a context that may have none yet. -/
def infoOf (ctx : Option EncryptedFileInfo) : EncryptedFileInfo := ctx.getD ⟨[], 0, .leaf, 0⟩

variable {ctx : Option EncryptedFileInfo} {files : List EncryptedFile}

/-- **The step lemma**: adding a file behind the others. -/
theorem Ranged.add (hbal : ∀ t l, (bal t l).inorder = l) (inodesCount : ℕ)
    (h : Ranged done (infoOf ctx)) (hbehind : ∀ g ∈ done, g.ino < f.ino) (hino : f.ino < 2 ^ 32)
    (hfew : (policiesOf (done ++ [f])).card < 2 ^ 32 - 3) :
    ∃ ret info, addEncryptedFile bal inodesCount ctx f = some (ret, some info) ∧
      Ranged (done ++ [f]) info := by
  have hadd : ∀ r, getEncryptionPolicyId bal (infoOf ctx) f.xattr = r →
      addEncryptedFile bal inodesCount ctx f =
        if r.1 = noEncryptionPolicy then some (0, some r.2)
        else if r.1 = corruptEncryptionPolicy then some (if f.fix then -1 else 0, some r.2)
        else (appendInoAndPolicyId inodesCount r.2 f.ino r.1).map fun info => (0, some info) := by
    rintro r rfl
    rfl
  cases hx : f.xattr with
  | none =>
    have hpolicy : f.policy = none := by rw [EncryptedFile.policy, hx]; rfl
    have hknown : ¬f.Unknown := by
      rintro ⟨x, hx', -⟩
      rw [hx] at hx'
      cases hx'
    refine ⟨0, infoOf ctx, ?_, h.skip hpolicy hknown⟩
    rw [hadd (noEncryptionPolicy, infoOf ctx) (by rw [hx]; rfl), if_pos rfl]
  | some x =>
    have hof : f.policy = (fscryptContextToPolicy x).toOption := by
      rw [EncryptedFile.policy, hx]
      rfl
    have hunknown : f.Unknown ↔ ContextUnknown x := by
      constructor
      · rintro ⟨x', hx', hu⟩
        rw [hx] at hx'
        exact Option.some.inj hx' ▸ hu
      · exact fun hu => ⟨x, hx, hu⟩
    rcases fscryptContextToPolicy_cases x with ⟨-, hknown, p, hp, -⟩ | ⟨-, hu, herr⟩ |
      ⟨-, hknown, herr⟩
    · -- a policy: it is interned, and its id is none of the special ones
      have hpolicy : f.policy = some p := by rw [hof, hp]; rfl
      have hsub : (policiesOf done).card ≤ (policiesOf (done ++ [f])).card := by
        refine Finset.card_le_card fun q hq => ?_
        rw [policiesOf, List.filterMap_append, List.toFinset_append]
        exact Finset.mem_union_left _ hq
      have hi := internPolicy_spec hbal h.interned hpolicy (by rw [h.interned.next_eq]; omega)
      obtain ⟨r, hr⟩ : ∃ r, r = internPolicy bal (infoOf ctx) p := ⟨_, rfl⟩
      rw [← hr] at hi
      obtain ⟨e, he, hep, heid⟩ := hi.entry
      have hlt : r.1 < 2 ^ 32 - 3 := by
        have h1 := hi.interned.lt_next e he
        rw [heid, hi.interned.next_eq] at h1
        omega
      have hid : ∀ k, f.GetsId r.2 k ↔ r.1 = k := by
        intro k
        constructor
        · rintro (⟨hu, -⟩ | ⟨e', he', hpe, rfl⟩)
          · exact absurd (hunknown.mp hu) hknown
          · rw [hpolicy] at hpe
            rw [hi.interned.eq_of_policy he' he ((Option.some.inj hpe).symm.trans hep.symm), heid]
        · rintro rfl
          exact Or.inr ⟨e, he, hep ▸ hpolicy, heid⟩
      have hgives : ∀ i k, RangeGives r.2 i k ↔ ∃ g ∈ done, g.ino = i ∧ g.GetsId r.2 k := by
        intro i k
        rw [RangeGives, hi.ranges]
        refine (h.gives i k).trans (exists_congr fun g => and_congr_right fun hg => ?_)
        rw [hi.getsId_iff h.interned hg]
      obtain ⟨info, happend, hranged⟩ := Ranged.append inodesCount hi.interned
        (hi.ranges.symm ▸ h.apart) (hi.ranges.symm ▸ h.last) hgives hbehind hino hid
      refine ⟨0, info, ?_, hranged⟩
      rw [hadd r (by rw [hx, getEncryptionPolicyId, hp, hr]), if_neg, if_neg, happend]
      · rfl
      · rw [corruptEncryptionPolicy]
        omega
      · rw [noEncryptionPolicy]
        omega
    · have hpolicy : f.policy = none := by rw [hof, herr]; rfl
      have hid : ∀ k, f.GetsId (infoOf ctx) k ↔ unrecognizedEncryptionPolicy = k := by
        intro k
        constructor
        · rintro (⟨-, rfl⟩ | ⟨e, -, hpe, -⟩)
          · rfl
          · rw [hpolicy] at hpe
            cases hpe
        · rintro rfl
          exact Or.inl ⟨hunknown.mpr hu, rfl⟩
      obtain ⟨info, happend, hranged⟩ := Ranged.append inodesCount
        (h.interned.skip hpolicy) h.apart h.last h.gives hbehind hino hid
      refine ⟨0, info, ?_, hranged⟩
      rw [hadd (unrecognizedEncryptionPolicy, infoOf ctx)
        (by rw [hx, getEncryptionPolicyId, herr]),
        if_neg (show unrecognizedEncryptionPolicy ≠ noEncryptionPolicy by decide),
        if_neg (show unrecognizedEncryptionPolicy ≠ corruptEncryptionPolicy by decide), happend]
      rfl
    · have hpolicy : f.policy = none := by rw [hof, herr]; rfl
      refine ⟨if f.fix = true then -1 else 0, infoOf ctx, ?_,
        h.skip hpolicy (mt hunknown.mp hknown)⟩
      rw [hadd (corruptEncryptionPolicy, infoOf ctx) (by rw [hx, getEncryptionPolicyId, herr]),
        if_neg (show corruptEncryptionPolicy ≠ noEncryptionPolicy by decide), if_pos rfl]

theorem EncryptedFilesOk.init (h : EncryptedFilesOk (done ++ [f])) : EncryptedFilesOk done where
  ascending := (List.pairwise_append.mp h.ascending).1
  ino_lt g hg := h.ino_lt g (List.mem_append_left _ hg)
  few := by
    refine (Finset.card_le_card fun q hq => ?_).trans_lt h.few
    rw [policiesOf, List.filterMap_append, List.toFinset_append]
    exact Finset.mem_union_left _ hq

/-- **The run lemma.** -/
theorem addEncryptedFiles_ranged (hbal : ∀ t l, (bal t l).inorder = l) (inodesCount : ℕ)
    (h : EncryptedFilesOk files) :
    ∃ ctx, addEncryptedFiles bal inodesCount files = some ctx ∧ Ranged files (infoOf ctx) := by
  induction files using List.reverseRecOn with
  | nil => exact ⟨none, rfl, ranged_empty⟩
  | append_singleton done f ih =>
    obtain ⟨ctx, hctx, hranged⟩ := ih h.init
    have hmem : f ∈ done ++ [f] := List.mem_append_right _ (List.mem_singleton_self f)
    obtain ⟨ret, info, hadd, hranged'⟩ := hranged.add hbal inodesCount
      (fun g hg => (List.pairwise_append.mp h.ascending).2.2 g hg f (List.mem_singleton_self f))
      (h.ino_lt f hmem) h.few
    refine ⟨some info, ?_, hranged'⟩
    rw [addEncryptedFiles, List.foldlM_append, ← addEncryptedFiles, hctx]
    dsimp only [Option.bind_eq_bind, Option.bind_some]
    rw [List.foldlM_cons, hadd]
    rfl

/-! ### The answers -/

theorem findEncryptionPolicy_eq (ctx : Option EncryptedFileInfo) (i : ℕ) :
    findEncryptionPolicy ctx i =
      bisectRanges (infoOf ctx).fileRanges i 0 (infoOf ctx).fileRanges.length := by
  cases ctx with
  | none =>
    rw [bisectRanges]
    rfl
  | some info => rfl

/-- What is found for an inode: the id of a file, or nothing when no file with it has one. -/
theorem Ranged.find (h : Ranged files (infoOf ctx)) (i : ℕ) :
    (∃ f ∈ files, f.ino = i ∧ f.GetsId (infoOf ctx) (findEncryptionPolicy ctx i)) ∨
      findEncryptionPolicy ctx i = noEncryptionPolicy ∧
        ∀ f ∈ files, f.ino = i → ∀ k, ¬f.GetsId (infoOf ctx) k := by
  rw [findEncryptionPolicy_eq]
  rcases h.apart.find i with ⟨range, hrange, hhas, hid⟩ | ⟨hnone, hid⟩
  · exact Or.inl ((h.gives i _).mp ⟨range, hrange, hhas, hid.symm⟩)
  · refine Or.inr ⟨hid, fun f hf hi k hk => ?_⟩
    obtain ⟨range, hrange, hhas, -⟩ := (h.gives i k).mpr ⟨f, hf, hi, hk⟩
    exact hnone range hrange hhas

theorem EncryptedFile.policy_eq_none (h : f.Unknown) : f.policy = none := by
  obtain ⟨x, hx, hu⟩ := h
  rw [EncryptedFile.policy, hx]
  rcases fscryptContextToPolicy_cases x with ⟨-, hknown, -⟩ | ⟨-, -, herr⟩ | ⟨-, hknown, -⟩
  · exact absurd hu hknown
  · change (fscryptContextToPolicy x).toOption = none
    rw [herr]
    rfl
  · exact absurd hu hknown

/-- The policy of a file with a valid context. -/
theorem EncryptedFile.policy_of_valid {x : List UInt8} (hx : f.xattr = some x)
    (hv : ContextValid x) : ∃ p, f.policy = some p ∧ p.bytes = contextPolicy x := by
  rcases fscryptContextToPolicy_cases x with ⟨-, -, p, hp, hbytes⟩ | ⟨hnot, -⟩ | ⟨hnot, -⟩
  · refine ⟨p, ?_, hbytes⟩
    rw [EncryptedFile.policy, hx]
    change (fscryptContextToPolicy x).toOption = some p
    rw [hp]
    rfl
  · exact absurd hv hnot
  · exact absurd hv hnot

theorem EncryptedFile.valid_of_policy (h : f.policy = some p) : f.Valid := by
  obtain ⟨x, hx, hp⟩ := Option.bind_eq_some_iff.mp h
  rcases fscryptContextToPolicy_cases x with ⟨hv, -⟩ | ⟨-, -, herr⟩ | ⟨-, -, herr⟩
  · exact ⟨x, hx, hv⟩
  · rw [herr] at hp
    cases hp
  · rw [herr] at hp
    cases hp

/-- A file has one id at most. -/
theorem Ranged.getsId_unique (h : Ranged files info) {k l : ℕ} (hk : f.GetsId info k)
    (hl : f.GetsId info l) : k = l := by
  rcases hk with ⟨hu, rfl⟩ | ⟨e, he, hpe, rfl⟩
  · rcases hl with ⟨-, rfl⟩ | ⟨e', -, hpe', -⟩
    · rfl
    · rw [EncryptedFile.policy_eq_none hu] at hpe'
      cases hpe'
  · rcases hl with ⟨hu, -⟩ | ⟨e', he', hpe', rfl⟩
    · rw [EncryptedFile.policy_eq_none hu] at hpe
      cases hpe
    · rw [hpe] at hpe'
      rw [h.interned.eq_of_policy he he' (Option.some.inj hpe')]

/-- The id that is found for a file that has one. -/
theorem Ranged.find_eq (h : Ranged files (infoOf ctx))
    (hasc : files.Pairwise fun f g => f.ino < g.ino) (hf : f ∈ files) {k : ℕ}
    (hk : f.GetsId (infoOf ctx) k) : findEncryptionPolicy ctx f.ino = k := by
  rcases h.find f.ino with ⟨g, hg, hi, hgk⟩ | ⟨-, hnone⟩
  · have hnodup : (files.map EncryptedFile.ino).Nodup :=
      List.Pairwise.imp (fun hab => hab.ne) (List.pairwise_map.mpr hasc)
    rw [List.inj_on_of_nodup_map hnodup hg hf hi] at hgk
    exact h.getsId_unique hgk hk
  · exact absurd hk (hnone f hf rfl k)

/-- **The table of encrypted files answers policy equality exactly.** -/
theorem encryptedFiles_answer (hbal : ∀ t l, (bal t l).inorder = l) (inodesCount : ℕ)
    (h : EncryptedFilesOk files) :
    ∃ ctx, addEncryptedFiles bal inodesCount files = some ctx ∧ AnswersPolicies files ctx := by
  obtain ⟨ctx, hctx, hranged⟩ := addEncryptedFiles_ranged hbal inodesCount h
  -- the ids of entries are none of the special ones
  have hsmall : ∀ e ∈ (infoOf ctx).policies.inorder, e.policyId < 2 ^ 32 - 3 := by
    intro e he
    have h1 := hranged.interned.lt_next e he
    have h2 := h.few
    rw [← hranged.interned.next_eq] at h2
    omega
  have hentry : ∀ f ∈ files, ∀ p, f.policy = some p → ∃ e ∈ (infoOf ctx).policies.inorder,
      e.policy = p ∧ findEncryptionPolicy ctx f.ino = e.policyId := by
    intro f hf p hp
    obtain ⟨e, he, hep⟩ := (hranged.interned.seen p).mpr ⟨f, hf, hp⟩
    exact ⟨e, he, hep, hranged.find_eq h.ascending hf (Or.inr ⟨e, he, hep ▸ hp, rfl⟩)⟩
  have hunknown : ∀ f ∈ files, f.Unknown →
      findEncryptionPolicy ctx f.ino = unrecognizedEncryptionPolicy :=
    fun f hf hu => hranged.find_eq h.ascending hf (Or.inl ⟨hu, rfl⟩)
  refine ⟨ctx, hctx, fun i => ⟨?_, fun hnone => ?_⟩, fun i => ⟨fun hi => ?_, ?_⟩, ?_⟩
  · rintro hi f hf rfl
    constructor
    · rintro ⟨x, hx, hv⟩
      obtain ⟨p, hp, -⟩ := EncryptedFile.policy_of_valid hx hv
      obtain ⟨e, he, -, hfind⟩ := hentry f hf p hp
      have := hsmall e he
      rw [hi, noEncryptionPolicy] at hfind
      omega
    · intro hu
      rw [hunknown f hf hu] at hi
      exact absurd hi (by decide)
  · rcases hranged.find i with ⟨f, hf, hino, hid⟩ | ⟨hno, -⟩
    · obtain ⟨hnv, hnu⟩ := hnone f hf hino
      rcases hid with ⟨hu, -⟩ | ⟨e, -, hpe, -⟩
      · exact absurd hu hnu
      · exact absurd (EncryptedFile.valid_of_policy hpe) hnv
    · exact hno
  · rcases hranged.find i with ⟨f, hf, hino, ⟨hu, -⟩ | ⟨e, he, -, hid⟩⟩ | ⟨hno, -⟩
    · exact ⟨f, hf, hino, hu⟩
    · have := hsmall e he
      rw [hid, hi, unrecognizedEncryptionPolicy] at this
      omega
    · rw [hno] at hi
      exact absurd hi (by decide)
  · rintro ⟨f, hf, rfl, hu⟩
    exact hunknown f hf hu
  · intro f hf g hg x y hx hy hvx hvy
    obtain ⟨p, hp, hpx⟩ := EncryptedFile.policy_of_valid hx hvx
    obtain ⟨q, hq, hqy⟩ := EncryptedFile.policy_of_valid hy hvy
    obtain ⟨e, he, hep, hfind⟩ := hentry f hf p hp
    obtain ⟨e', he', hep', hfind'⟩ := hentry g hg q hq
    rw [hfind, hfind', ← hpx, ← hqy]
    constructor
    · intro hid
      rw [← hep, ← hep', hranged.interned.eq_of_id he he' hid]
    · intro hbytes
      have hpq := FscryptPolicy.bytes_injective hbytes
      rw [hranged.interned.eq_of_policy he he' (hep.trans (hpq.trans hep'.symm))]

/-- Two neighbours with the same policy, one without an attribute and one whose attribute is cut
short, two of a policy of the other version, an inode of a later version, and the first policy
again under another nonce. -/
def mixedEncrypted : List EncryptedFile :=
  [⟨12, some (1 :: List.replicate 27 0), false⟩, ⟨13, some (1 :: List.replicate 27 0), false⟩,
    ⟨14, none, false⟩, ⟨15, some [1, 0, 0], true⟩, ⟨16, some (2 :: List.replicate 39 7), false⟩,
    ⟨18, some (2 :: List.replicate 39 7), false⟩, ⟨20, some [3], false⟩,
    ⟨21, some (1 :: (List.replicate 11 0 ++ List.replicate 16 5)), false⟩]

theorem encryptedFiles_answer_mixed :
    ∃ ctx, addEncryptedFiles (fun _ l => .ofList l) 32 mixedEncrypted = some ctx ∧
      AnswersPolicies mixedEncrypted ctx :=
  encryptedFiles_answer (fun _ l => SearchTree.inorder_ofList l) 32
    ⟨by decide, by decide, by decide⟩

end Runs

end E2fsprogs
