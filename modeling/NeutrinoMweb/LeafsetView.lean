import NeutrinoMweb.CommittedCoins

/-!
# The store refines its leafset

What the coin store is for: at every leaf its leafset sets below its leaf count, the output the
chain commits there, and no coin elsewhere. `leafsetCoins` is that view of a leafset and its
count. A completed sync to a clean leafset, against a header whose output root commits to the
ids `D`, takes a store that is its own leafset's view to the view of the new leafset: the loop
writes the committed output at every added leaf and nowhere the new leafset does not set, the
purge deletes every removed leaf, and every other leaf keeps its coin.
-/

namespace NeutrinoMweb

variable {δ : Type}

/-- The coins a leafset and its leaf count call for, over the output ids `D`: the committed
output at each leaf the leafset sets below the count, and nothing elsewhere. -/
def leafsetCoins (D : Nat → δ) (leafset : Leafset) (numLeaves : UInt64) (j : Nat) :
    Option (MwebNetUtxo δ) :=
  if j < numLeaves.toNat ∧ leafset.contains j then some ⟨j.toUInt64, D j⟩ else none

/-! ## Writes of committed outputs -/

section Writes

variable {D : Nat → δ} {c : CoinStore δ}

theorem eq_of_outputId_eq {u : MwebNetUtxo δ} (hu : u.outputId = D u.leafIndex.toNat) :
    u = ⟨u.leafIndex.toNat.toUInt64, D u.leafIndex.toNat⟩ := by
  obtain ⟨i, o⟩ := u
  simp only at hu
  rw [← hu, show i.toNat.toUInt64 = i from UInt64.toNat.inj (UInt64.toNat_ofNat_of_lt i.val.isLt)]

/-- After writing committed utxos, the coin at a leaf is its committed output where one was
written, and the old coin elsewhere. -/
theorem coins_putCoins {utxos : List (MwebNetUtxo δ)}
    (hu : ∀ u ∈ utxos, u.outputId = D u.leafIndex.toNat) (j : Nat) :
    (c.putCoins utxos).coins j = if ∃ u ∈ utxos, u.leafIndex.toNat = j
      then some ⟨j.toUInt64, D j⟩ else c.coins j := by
  induction utxos generalizing c with
  | nil => simp [CoinStore.putCoins]
  | cons u us ih =>
    rw [show c.putCoins (u :: us) = CoinStore.putCoins
      ⟨c.leafset, c.numLeaves, Function.update c.coins u.leafIndex.toNat (some u)⟩ us from rfl,
      ih fun v hv => hu v (List.mem_cons_of_mem _ hv)]
    by_cases hj : u.leafIndex.toNat = j
    · subst hj
      rw [if_pos (show ∃ v ∈ u :: us, v.leafIndex.toNat = u.leafIndex.toNat from
        ⟨u, List.mem_cons_self _ _, rfl⟩)]
      split_ifs
      · rfl
      · exact (Function.update_same _ _ _).trans
          (congrArg some (eq_of_outputId_eq (hu u (List.mem_cons_self _ _))))
    · simp only [List.mem_cons, exists_eq_or_imp, hj, false_or]
      exact if_congr Iff.rfl rfl (Function.update_noteq (Ne.symm hj) _ _)

theorem coins_foldl_putCoins {ws : List (List (MwebNetUtxo δ))}
    (hw : ∀ w ∈ ws, ∀ u ∈ w, u.outputId = D u.leafIndex.toNat) (j : Nat) :
    (ws.foldl CoinStore.putCoins c).coins j = if ∃ w ∈ ws, ∃ u ∈ w, u.leafIndex.toNat = j
      then some ⟨j.toUInt64, D j⟩ else c.coins j := by
  induction ws generalizing c with
  | nil => simp
  | cons w ws ih =>
    rw [List.foldl_cons, ih fun w' hw' => hw w' (List.mem_cons_of_mem _ hw'),
      coins_putCoins (hw w (List.mem_cons_self _ _))]
    simp only [List.mem_cons, exists_eq_or_imp]
    by_cases h₁ : ∃ u ∈ w, u.leafIndex.toNat = j <;> by_cases h₂ : ∃ w ∈ ws, ∃ u ∈ w,
      u.leafIndex.toNat = j <;> simp [h₁, h₂]

theorem coins_of_clean (hc : c.coins = leafsetCoins D c.leafset c.numLeaves)
    (hcl : c.leafset.Clean c.numLeaves.toNat) (j : Nat) :
    c.coins j = if c.leafset.contains j then some ⟨j.toUInt64, D j⟩ else none := by
  rw [hc, leafsetCoins]
  by_cases ho : c.leafset.contains j
  · rw [if_pos ⟨hcl.lt ho, ho⟩, if_pos ho]
  · rw [if_neg fun h => ho h.2, if_neg ho]

end Writes

/-! ## Completed syncs -/

/-- The stores that completed syncs reach from the empty store, each to a leafset that sets no
leaf at or beyond its leaf count and is shorter than `2^61` bytes, against a header below `2^63`
leaves whose output root commits to the ids `D`. -/
inductive CompletedAgainst [DecidableEq δ] (H : Hashing δ) (maxMwebUtxosPerQuery : UInt16)
    (mwebNetUtxoCompact : UInt8) (D : Nat → δ) : CoinStore δ → Prop
  | empty : CompletedAgainst H maxMwebUtxosPerQuery mwebNetUtxoCompact D .empty
  | completed {c c' : CoinStore δ} {mwebHeader : MwebHeader δ} {newLeafset : Leafset} :
    CompletedAgainst H maxMwebUtxosPerQuery mwebNetUtxoCompact D c →
    mwebHeader.outputMMRSize.toNat < 2 ^ 63 →
    mwebHeader.outputRoot = mmrRoot H D mwebHeader.outputMMRSize.toNat →
    newLeafset.Clean mwebHeader.outputMMRSize.toNat → newLeafset.length < 2 ^ 61 →
    SyncStep H maxMwebUtxosPerQuery mwebNetUtxoCompact c mwebHeader newLeafset c' .finished →
    CompletedAgainst H maxMwebUtxosPerQuery mwebNetUtxoCompact D c'

section Step

variable [DecidableEq δ] {H : Hashing δ} {D : Nat → δ} {maxMwebUtxosPerQuery : UInt16}
  {mwebNetUtxoCompact : UInt8} {c c' : CoinStore δ} {mwebHeader : MwebHeader δ}
  {newLeafset : Leafset}

/-- **A completed sync moves the store from its leafset's view to the new leafset's**: the loop
writes the committed output at every leaf the new leafset adds and at no leaf it does not set,
and the purge deletes every leaf it drops. -/
theorem SyncStep.leafsetCoins (hmax : 0 < maxMwebUtxosPerQuery.toNat) (hH : H.CollisionFree)
    (hN63 : mwebHeader.outputMMRSize.toNat < 2 ^ 63)
    (hroot : mwebHeader.outputRoot = mmrRoot H D mwebHeader.outputMMRSize.toNat)
    (hc : c.coins = leafsetCoins D c.leafset c.numLeaves) (hcl : c.leafset.Clean c.numLeaves.toNat)
    (hnew : newLeafset.Clean mwebHeader.outputMMRSize.toNat) (hlen : newLeafset.length < 2 ^ 61)
    (h : SyncStep H maxMwebUtxosPerQuery mwebNetUtxoCompact c mwebHeader newLeafset c' .finished) :
    c'.coins = leafsetCoins D newLeafset mwebHeader.outputMMRSize ∧ c'.leafset = newLeafset ∧
      c'.numLeaves = mwebHeader.outputMMRSize := by
  obtain ⟨blockHash, evs, hevs, hrun⟩ := h
  rcases hd : diffLeafsets maxMwebUtxosPerQuery c.leafset c.numLeaves newLeafset
    mwebHeader.outputMMRSize with ⟨addedLeaves, removedLeaves⟩
  rw [hd] at hevs
  have hplan := diffExact_of_diffLeafsets hd hmax (lt_of_le_of_lt (min_le_right _ _) hlen)
  obtain ⟨written, rfl, hw⟩ := getMwebUtxos_finished hd hrun
  -- what the loop wrote: committed outputs at set leaves, at every planned leaf
  obtain ⟨hset, hcover, hid⟩ : (∀ w ∈ written, ∀ u ∈ w, newLeafset.contains u.leafIndex.toNat ∧
        u.leafIndex.toNat < mwebHeader.outputMMRSize.toNat) ∧
      (∀ sp ∈ addedLeaves, ∀ j ∈ sp.leaves newLeafset, ∃ w ∈ written, ∃ u ∈ w,
        u.leafIndex.toNat = j) ∧ ∀ w ∈ written, ∀ u ∈ w, u.outputId = D u.leafIndex.toNat := by
    rcases hw with ⟨rfl, rfl⟩ | ⟨s, hr, rfl⟩
    · simp
    · obtain ⟨h₁, h₂⟩ := reassemble_finished_writes (m := ⟨mwebHeader, newLeafset⟩) hplan
        (max_lt c.numLeaves.val.isLt mwebHeader.outputMMRSize.val.isLt).le hevs hr
      exact ⟨h₁, h₂, fun w hw u hu => (reassemble_written_committed (m := ⟨mwebHeader, newLeafset⟩)
        hH hN63 hroot hevs hr w hw u hu).2⟩
  have hrem : ∀ j, j ∈ removedLeaves ↔
      j < max c.numLeaves.toNat mwebHeader.outputMMRSize.toNat ∧ c.leafset.contains j ∧
        ¬newLeafset.contains j := fun j => by
    rw [hplan.removed]
    simp
  refine ⟨funext fun j => ?_, rfl, rfl⟩
  show (if j ∈ removedLeaves then none else (written.foldl CoinStore.putCoins c).coins j) = _
  rw [coins_foldl_putCoins hid, coins_of_clean hc hcl, leafsetCoins]
  by_cases hn : newLeafset.contains j
  · rw [if_neg fun h => ((hrem j).1 h).2.2 hn, if_pos (show j < mwebHeader.outputMMRSize.toNat ∧
      newLeafset.contains j = true from ⟨hnew.lt hn, hn⟩)]
    by_cases ho : c.leafset.contains j
    · rw [if_pos ho]
      split_ifs <;> rfl
    · -- a leaf the new leafset adds was planned, so written
      have hj : j ∈ addedLeaves.flatMap (Span.leaves newLeafset) := by
        rw [hplan.covered]
        simp [hn, ho, lt_max_of_lt_right (hnew.lt hn)]
      obtain ⟨sp, hsp, hj⟩ := List.mem_flatMap.1 hj
      rw [if_pos (hcover sp hsp j hj)]
  · rw [if_neg (show ¬(j < mwebHeader.outputMMRSize.toNat ∧ newLeafset.contains j = true) from
      fun h => hn h.2)]
    split_ifs with hj hw ho
    · rfl
    · obtain ⟨w, hw, u, hu, rfl⟩ := hw
      exact absurd (hset w hw u hu).1 hn
    · exact absurd ((hrem j).2 ⟨lt_max_of_lt_left (hcl.lt ho), ho, hn⟩) hj
    · rfl

/-- Completed syncs keep the store its leafset's view, and its leafset clean. -/
theorem CompletedAgainst.coins_eq (hmax : 0 < maxMwebUtxosPerQuery.toNat)
    (hH : H.CollisionFree) (hc : CompletedAgainst H maxMwebUtxosPerQuery mwebNetUtxoCompact D c) :
    c.coins = leafsetCoins D c.leafset c.numLeaves ∧ c.leafset.Clean c.numLeaves.toNat := by
  induction hc with
  | empty =>
    exact ⟨funext fun j => by simp [CoinStore.empty, leafsetCoins],
      fun j hj => absurd hj (Nat.not_lt_zero j)⟩
  | completed _ hN63 hroot hnew hlen hstep ih =>
    obtain ⟨hv, hl, hn⟩ := hstep.leafsetCoins hmax hH hN63 hroot ih.1 ih.2 hnew hlen
    rw [hl, hn]
    exact ⟨hv, hnew⟩

/-- **After every completed sync the store is its leafset's view.** Along any history of
completed syncs from the empty store, each to a clean leafset against a header whose output root
commits to the ids `D`, with collision-free digests, the store holds at each leaf the committed
output if its leafset sets that leaf below its leaf count, and no coin otherwise. -/
theorem coinStore_eq_leafsetCoins (hmax : 0 < maxMwebUtxosPerQuery.toNat) (hH : H.CollisionFree)
    (hc : CompletedAgainst H maxMwebUtxosPerQuery mwebNetUtxoCompact D c) :
    c.coins = leafsetCoins D c.leafset c.numLeaves :=
  (hc.coins_eq hmax hH).1

end Step

/-! ## Notifications -/

/-- Modelled from the spec: `FetchLeaves(indices)`, the coins stored at the given leaves, in the
order asked. -/
def CoinStore.fetchLeaves (c : CoinStore δ) (indices : List Nat) : List (MwebNetUtxo δ) :=
  indices.filterMap c.coins

/-- `notifyAddedMwebUtxos(leafSet)` on the store `c`: the utxos it hands to the subscribers, those
stored at the leaves the persisted leafset adds to the snapshot `leafSet`. -/
def notifyAddedMwebUtxos (c : CoinStore δ) (leafSet : Leafset) : List (MwebNetUtxo δ) :=
  let (dbLeafset, newNumLeaves) := c.getLeafSet
  c.fetchLeaves (notifyAddedLeaves leafSet dbLeafset newNumLeaves)

section Notify

variable [DecidableEq δ] {H : Hashing δ} {D : Nat → δ} {maxMwebUtxosPerQuery : UInt16}
  {mwebNetUtxoCompact : UInt8} {c : CoinStore δ}

/-- **After every completed sync the subscribers are told exactly the outputs added since their
snapshot**: along any history of completed syncs as in `coinStore_eq_leafsetCoins`, the
notification for a snapshot `leafSet` hands over, in ascending leaf order, the committed output
of every leaf below the stored count that the stored leafset sets and the snapshot does not. -/
theorem notifyAddedMwebUtxos_eq (hmax : 0 < maxMwebUtxosPerQuery.toNat) (hH : H.CollisionFree)
    (hc : CompletedAgainst H maxMwebUtxosPerQuery mwebNetUtxoCompact D c) (leafSet : Leafset)
    (hlen : min leafSet.length c.leafset.length < 2 ^ 61) :
    notifyAddedMwebUtxos c leafSet =
      ((List.range c.numLeaves.toNat).filter fun j =>
        !leafSet.contains j && c.leafset.contains j).map fun j => ⟨j.toUInt64, D j⟩ := by
  obtain ⟨hv, -⟩ := hc.coins_eq hmax hH
  simp only [notifyAddedMwebUtxos, CoinStore.getLeafSet, CoinStore.fetchLeaves, notifyAddedLeaves]
  rw [filter_from_commonPrefix hlen _ fun j hj => by rw [hj]; cases c.leafset.contains j <;> rfl]
  refine List.filterMap_eq_map_iff_forall_eq_some.2 fun j hj => ?_
  simp only [List.mem_filter, List.mem_range, Bool.and_eq_true, Bool.not_eq_true'] at hj
  rw [hv, leafsetCoins, if_pos ⟨hj.1, hj.2.2⟩]

end Notify

theorem completedAgainst_syncedTwice : CompletedAgainst freeHashing 4096 0 freeIds syncedTwice :=
  .completed (.completed .empty (by decide) rfl (by decide) (by decide) syncStep_syncedOnce)
    (by decide) rfl (by decide) (by decide) syncStep_syncedTwice

theorem coinStore_eq_leafsetCoins_two_syncs :
    0 < (4096 : UInt16).toNat ∧ freeHashing.CollisionFree ∧
      CompletedAgainst freeHashing 4096 0 freeIds syncedTwice ∧
      syncedTwice.coins = leafsetCoins freeIds [0xD8] (5 : Nat).toUInt64 :=
  ⟨by decide, freeHashing_collisionFree, completedAgainst_syncedTwice,
    coinStore_eq_leafsetCoins (by decide) freeHashing_collisionFree completedAgainst_syncedTwice⟩

/-- After the two syncs of `syncedTwice`, a subscriber holding the first sync's leafset `[0xE0]`
is told the outputs of leaves `3` and `4`, and not of the spent leaf `2`. -/
theorem notifyAddedMwebUtxos_eq_two_syncs :
    0 < (4096 : UInt16).toNat ∧ freeHashing.CollisionFree ∧
      CompletedAgainst freeHashing 4096 0 freeIds syncedTwice ∧
      min ([0xE0] : Leafset).length [(0xD8 : UInt8)].length < 2 ^ 61 ∧
      notifyAddedMwebUtxos syncedTwice [0xE0] =
        ((List.range (5 : Nat).toUInt64.toNat).filter fun j =>
          !Leafset.contains [0xE0] j && Leafset.contains [0xD8] j).map
            fun j => ⟨j.toUInt64, freeIds j⟩ :=
  ⟨by decide, freeHashing_collisionFree, completedAgainst_syncedTwice, by decide,
    notifyAddedMwebUtxos_eq (by decide) freeHashing_collisionFree completedAgainst_syncedTwice
      [0xE0] (by decide)⟩

end NeutrinoMweb
