import NeutrinoMweb.CoinStore

/-!
# Only committed outputs reach the store

The reassembly loop stashes and writes only the responses it takes from `utxosChan`, and
`handleResponse` puts a response there only once `verifyMwebUtxos` has accepted it against the
header. With collision-free digests the verifier is sound, so each utxo the loop writes, to
`PutCoins` and to the subscribers alike, carries the output id the header's output MMR commits
at its leaf. Along any history of syncs against headers that commit to one assignment of output
ids, finished or stopped by an error or the shutdown, every coin in the store is then the
committed output at its leaf.
-/

namespace NeutrinoMweb

variable {δ : Type}

/-! ## What the loop holds -/

/-- Every response the loop holds, stashed or written, satisfies `P`. -/
def ReassemblyVars.HoldsOnly (P : MsgMwebUtxos δ → Prop) (s : ReassemblyVars δ) : Prop :=
  (∀ k r, s.queryResponses k = some r → P r) ∧ ∀ w ∈ s.written, ∃ r, P r ∧ w = r.utxos

section HoldsOnly

variable {P : MsgMwebUtxos δ → Prop} {addedLeaves : List Span}

theorem holdsOnly_start : (ReassemblyVars.start : ReassemblyVars δ).HoldsOnly P :=
  ⟨fun _ _ h => Option.noConfusion h, fun _ h => absurd h (List.not_mem_nil _)⟩

theorem holdsOnly_update {f : Nat → Option (MsgMwebUtxos δ)} {k : Nat}
    {o : Option (MsgMwebUtxos δ)} (hf : ∀ k r, f k = some r → P r) (ho : ∀ r, o = some r → P r) :
    ∀ k' r, Function.update f k o k' = some r → P r := by
  intro k' r h
  by_cases hk : k' = k
  · subst hk
    rw [Function.update_same] at h
    exact ho r h
  · rw [Function.update_noteq hk] at h
    exact hf k' r h

/-- The inner loop writes only what was stashed. -/
theorem writeStashed_holdsOnly : ∀ (l : List Span) {s : ReassemblyVars δ}, s.HoldsOnly P →
    (writeStashed l s).HoldsOnly P
  | [], _, hs => hs
  | sp :: rest, s, hs => by
    rw [writeStashed]
    rcases hq : s.queryResponses sp.start with _ | r
    · exact hs
    refine writeStashed_holdsOnly rest
      ⟨holdsOnly_update hs.1 fun _ h => Option.noConfusion h, fun w hw => ?_⟩
    rcases List.mem_append.1 hw with hw | hw
    · exact hs.2 w hw
    · exact ⟨r, hs.1 _ r hq, List.mem_singleton.1 hw⟩

/-- What one response can do to the loop's variables: nothing, or be stashed and start the
inner loop. -/
theorem receiveUtxos_ok {s s' : ReassemblyVars δ} {r : MsgMwebUtxos δ}
    (h : receiveUtxos addedLeaves s r = .ok s') :
    s' = s ∨ ∃ k, s' = writeStashed (addedLeaves.drop s.i)
      { s with queryResponses := Function.update s.queryResponses k (some r) } := by
  rcases hu : r.utxos.head? with _ | u
  · simp [receiveUtxos, goIndex, ← List.head?_eq_getElem?, hu, bind, Except.bind] at h
  rcases hv : r.utxos.getLast? with _ | v
  · simp [receiveUtxos, goIndex, ← List.head?_eq_getElem?, hu, goLast, hv, bind, Except.bind] at h
  by_cases hi : s.i < addedLeaves.length
  · rw [receiveUtxos_eq hu hv hi, Except.ok.injEq] at h
    split_ifs at h
    · exact .inl h.symm
    · exact .inr ⟨_, h.symm⟩
  · simp [receiveUtxos, goIndex, ← List.head?_eq_getElem?, hu, goLast, hv,
      List.getElem?_eq_none (Nat.not_lt.1 hi), bind, Except.bind] at h

theorem receiveUtxos_holdsOnly {s s' : ReassemblyVars δ} {r : MsgMwebUtxos δ}
    (hs : s.HoldsOnly P) (hr : P r) (h : receiveUtxos addedLeaves s r = .ok s') :
    s'.HoldsOnly P := by
  rcases receiveUtxos_ok h with rfl | ⟨k, rfl⟩
  · exact hs
  · exact writeStashed_holdsOnly _
      ⟨holdsOnly_update hs.1 fun _ h => (Option.some.inj h) ▸ hr, hs.2⟩

/-- **The loop holds only responses it took**, over any events and however it stops. -/
theorem reassemble_holdsOnly : ∀ (evs : List (SyncEvent δ)) {s s' : ReassemblyVars δ}
    {e : LoopEnd}, (∀ r, .utxos r ∈ evs → P r) → s.HoldsOnly P →
    reassemble addedLeaves s evs = .ok (s', e) → s'.HoldsOnly P
  | [], s, s', e, _, hs, h => by
    simp only [reassemble, pure, Except.pure, Except.ok.injEq, Prod.mk.injEq] at h
    exact h.1 ▸ hs
  | ev :: evs, s, s', e, hP, hs, h => by
    have hP' : ∀ r, .utxos r ∈ evs → P r := fun r hr => hP r (List.mem_cons_of_mem _ hr)
    by_cases hi : s.i < addedLeaves.length
    · rcases ev with r | _ | _ | _ <;> simp only [reassemble, if_pos hi] at h
      · rcases h₁ : receiveUtxos addedLeaves s r with _ | s₁ <;> rw [h₁] at h
        · cases h
        · exact reassemble_holdsOnly evs hP'
            (receiveUtxos_holdsOnly hs (hP r (List.mem_cons_self _ _)) h₁) h
      · exact reassemble_holdsOnly evs hP' hs h
      all_goals
        simp only [pure, Except.pure, Except.ok.injEq, Prod.mk.injEq] at h
        exact h.1 ▸ hs
    · simp only [reassemble, if_neg hi, pure, Except.pure, Except.ok.injEq, Prod.mk.injEq] at h
      exact h.1 ▸ hs

end HoldsOnly

/-! ## What the loop writes -/

section Written

variable [DecidableEq δ] {H : Hashing δ} {D : Nat → δ} {m : MwebUtxosQuery δ}

/-- A response `handleResponse` sent carries, with collision-free digests, the output ids the
header's output MMR commits at its leaves. -/
theorem MwebUtxosQuery.Delivers.committed (hH : H.CollisionFree)
    (hN63 : m.mwebHeader.outputMMRSize.toNat < 2 ^ 63)
    (hroot : m.mwebHeader.outputRoot = mmrRoot H D m.mwebHeader.outputMMRSize.toNat)
    {q : MsgGetMwebUtxos δ} {r : MsgMwebUtxos δ} (hd : m.Delivers H q r) :
    ∀ u ∈ r.utxos, u.leafIndex.toNat < m.mwebHeader.outputMMRSize.toNat ∧
      u.outputId = D u.leafIndex.toNat := by
  obtain ⟨_, _, _, _, h, hsent⟩ := hd
  obtain ⟨-, -, -, -, -, -, hacc, -⟩ := handleResponse_sent h hsent
  intro u hu
  exact verifyMwebUtxos_sound H hH D m.mwebHeader m.leafset r
    (outputMMRSize_pos_of_accepted (List.ne_nil_of_mem hu) hacc) hN63 hroot hacc u hu

/-- **The loop writes only committed outputs**: on responses `handleResponse` sent, against a
header whose output root commits to the ids `D`, every utxo the loop writes, to `PutCoins` and
to the subscribers, names a leaf below the header's leaf count and carries the id `D` assigns
there, however the loop stops. -/
theorem reassemble_written_committed (hH : H.CollisionFree)
    (hN63 : m.mwebHeader.outputMMRSize.toNat < 2 ^ 63)
    (hroot : m.mwebHeader.outputRoot = mmrRoot H D m.mwebHeader.outputMMRSize.toNat)
    {blockHash : δ} {mwebNetUtxoCompact : UInt8} {addedLeaves : List Span}
    {evs : List (SyncEvent δ)}
    (hevs : ∀ ev ∈ evs, ev.Delivered m H blockHash mwebNetUtxoCompact addedLeaves)
    {s : ReassemblyVars δ} {e : LoopEnd} (h : reassemble addedLeaves .start evs = .ok (s, e)) :
    ∀ w ∈ s.written, ∀ u ∈ w, u.leafIndex.toNat < m.mwebHeader.outputMMRSize.toNat ∧
      u.outputId = D u.leafIndex.toNat := by
  have hP : ∀ r, SyncEvent.utxos r ∈ evs → ∀ u ∈ r.utxos,
      u.leafIndex.toNat < m.mwebHeader.outputMMRSize.toNat ∧ u.outputId = D u.leafIndex.toNat :=
    fun r hr => by
      obtain ⟨sp, -, hd⟩ := hevs _ hr
      exact hd.committed hH hN63 hroot
  intro w hw
  obtain ⟨r, hr, rfl⟩ := (reassemble_holdsOnly evs hP holdsOnly_start h).2 w hw
  exact hr

end Written

/-! ## The store -/

/-- Every coin of the store sits at its own leaf and carries the output id that `D` assigns
there. -/
def CoinStore.Committed (D : Nat → δ) (c : CoinStore δ) : Prop :=
  ∀ j u, c.coins j = some u → u.leafIndex.toNat = j ∧ u.outputId = D j

section Store

variable {D : Nat → δ} {c : CoinStore δ}

theorem putCoins_committed {utxos : List (MwebNetUtxo δ)} (hc : c.Committed D)
    (hu : ∀ u ∈ utxos, u.outputId = D u.leafIndex.toNat) : (c.putCoins utxos).Committed D := by
  induction utxos generalizing c with
  | nil => exact hc
  | cons u us ih =>
    show (CoinStore.putCoins ⟨c.leafset, c.numLeaves,
      Function.update c.coins u.leafIndex.toNat (some u)⟩ us).Committed D
    refine ih (fun j v hv => ?_) fun v hv => hu v (List.mem_cons_of_mem _ hv)
    by_cases hj : j = u.leafIndex.toNat
    · subst hj
      obtain rfl := Option.some.inj ((Function.update_same _ _ c.coins).symm.trans hv)
      exact ⟨rfl, hu _ (List.mem_cons_self _ _)⟩
    · exact hc j v ((Function.update_noteq hj _ c.coins).symm.trans hv)

theorem foldl_putCoins_committed {ws : List (List (MwebNetUtxo δ))} (hc : c.Committed D)
    (hw : ∀ w ∈ ws, ∀ u ∈ w, u.outputId = D u.leafIndex.toNat) :
    (ws.foldl CoinStore.putCoins c).Committed D := by
  induction ws generalizing c with
  | nil => exact hc
  | cons w ws ih =>
    exact ih (putCoins_committed hc (hw w (List.mem_cons_self _ _)))
      fun w' hw' => hw w' (List.mem_cons_of_mem _ hw')

theorem purgeSpentMwebTxos_committed {newLeafset : Leafset} {newNumLeaves : UInt64}
    {removedLeaves : List Nat} (hc : c.Committed D) :
    (purgeSpentMwebTxos c newLeafset newNumLeaves removedLeaves).Committed D := fun j u h => by
  rw [coins_purgeSpentMwebTxos] at h
  split_ifs at h
  exact hc j u h

end Store

/-! ## Syncs -/

/-- The stores that syncs reach from the empty store, each against a header whose output root
commits to the ids `D` below its leaf count, itself below `2^63`, and each ending in any way. -/
inductive SyncedAgainst [DecidableEq δ] (H : Hashing δ) (maxMwebUtxosPerQuery : UInt16)
    (mwebNetUtxoCompact : UInt8) (D : Nat → δ) : CoinStore δ → Prop
  | empty : SyncedAgainst H maxMwebUtxosPerQuery mwebNetUtxoCompact D .empty
  | synced {c c' : CoinStore δ} {mwebHeader : MwebHeader δ} {newLeafset : Leafset}
      {e : LoopEnd} :
    SyncedAgainst H maxMwebUtxosPerQuery mwebNetUtxoCompact D c →
    mwebHeader.outputMMRSize.toNat < 2 ^ 63 →
    mwebHeader.outputRoot = mmrRoot H D mwebHeader.outputMMRSize.toNat →
    SyncStep H maxMwebUtxosPerQuery mwebNetUtxoCompact c mwebHeader newLeafset c' e →
    SyncedAgainst H maxMwebUtxosPerQuery mwebNetUtxoCompact D c'

section Sync

variable [DecidableEq δ] {H : Hashing δ} {D : Nat → δ} {maxMwebUtxosPerQuery : UInt16}
  {mwebNetUtxoCompact : UInt8} {c c' : CoinStore δ} {mwebHeader : MwebHeader δ}
  {newLeafset : Leafset} {e : LoopEnd}

/-- **A sync keeps every coin committed**, however it ends: it adds only the utxos the loop
wrote, and the purge only deletes. -/
theorem SyncStep.committed (hH : H.CollisionFree) (hN63 : mwebHeader.outputMMRSize.toNat < 2 ^ 63)
    (hroot : mwebHeader.outputRoot = mmrRoot H D mwebHeader.outputMMRSize.toNat)
    (h : SyncStep H maxMwebUtxosPerQuery mwebNetUtxoCompact c mwebHeader newLeafset c' e)
    (hc : c.Committed D) : c'.Committed D := by
  obtain ⟨blockHash, evs, hevs, hrun⟩ := h
  rcases hd : diffLeafsets maxMwebUtxosPerQuery c.leafset c.numLeaves newLeafset
    mwebHeader.outputMMRSize with ⟨addedLeaves, removedLeaves⟩
  rw [hd] at hevs
  rw [getMwebUtxos_eq mwebHeader hd] at hrun
  split_ifs at hrun
  · obtain ⟨rfl, -⟩ := Prod.mk.inj (Except.ok.inj hrun)
    exact purgeSpentMwebTxos_committed hc
  rcases hr : reassemble addedLeaves .start evs with _ | ⟨s, e'⟩ <;>
    simp only [hr, Except.map, Except.ok.injEq, reduceCtorEq] at hrun
  have hw : (s.written.foldl CoinStore.putCoins c).Committed D := foldl_putCoins_committed hc
    fun w hw u hu =>
    (reassemble_written_committed (m := ⟨mwebHeader, newLeafset⟩) hH hN63 hroot hevs hr w hw u
      hu).2
  split_ifs at hrun <;> obtain ⟨rfl, -⟩ := Prod.mk.inj hrun
  · exact purgeSpentMwebTxos_committed hw
  · exact hw

/-- **Every coin in the store is the committed output at its leaf.** Along any history of syncs
from the empty store against headers whose output roots commit to the ids `D`, each sync
finished or ended by the dispatcher's error or the shutdown after some commits, and with
collision-free digests, the coin at each leaf index is a utxo of that leaf carrying the id `D`
assigns there. -/
theorem coinStore_committed (hH : H.CollisionFree)
    (hc : SyncedAgainst H maxMwebUtxosPerQuery mwebNetUtxoCompact D c) : c.Committed D := by
  induction hc with
  | empty => exact fun _ _ h => Option.noConfusion h
  | synced _ hN63 hroot hstep ih => exact hstep.committed hH hN63 hroot ih

end Sync

/-- The store after three syncs over `freeIds`: a completed one to the leaves `0`, `2` of
`[0xA0]`; one to `[0xD8]` over five, planned as the spans of leaf `1` and of leaves `3`, `4`,
abandoned on the shutdown after leaf `1` is written; and a completed one to the leaves `0`, `3`,
`4` of `[0x98]`, which purges leaf `2` and leaves the stale coin of leaf `1`. -/
def resyncedStore : CoinStore FreeDigest :=
  purgeSpentMwebTxos
    (((purgeSpentMwebTxos (CoinStore.empty.putCoins (honestUtxos freeIds [0xA0] 0 2)) [0xA0]
      (3 : Nat).toUInt64 []).putCoins (honestUtxos freeIds [0xD8] 1 1)).putCoins
        (honestUtxos freeIds [0x98] 3 4)) [0x98] (5 : Nat).toUInt64 [2]

theorem coinStore_committed_three_syncs :
    freeHashing.CollisionFree ∧ SyncedAgainst freeHashing 4096 0 freeIds resyncedStore ∧
      resyncedStore.Committed freeIds :=
  have hc : SyncedAgainst freeHashing 4096 0 freeIds resyncedStore :=
    .synced (.synced (.synced .empty (by decide) (by rfl)
        (syncStep_of_singleton ⟨0, 2⟩ 2 (.outputId 0) (by decide) (by decide) (by decide)
          (by decide) (by decide) (by decide) (by decide)))
      (by decide) (by rfl)
        (syncStep_of_quit (N := 5) ⟨1, 1⟩ ⟨3, 2⟩ [] 1 (.outputId 0)
          (by decide : _ = (_, [2])) (by decide) le_rfl (by decide) (by decide) (by decide)
          (by decide)))
      (by decide) (by rfl)
        (syncStep_of_singleton ⟨3, 2⟩ 4 (.outputId 0) (by decide) (by decide) (by decide)
          (by decide) (by decide) (by decide) (by decide))
  ⟨freeHashing_collisionFree, hc, coinStore_committed freeHashing_collisionFree hc⟩

end NeutrinoMweb
