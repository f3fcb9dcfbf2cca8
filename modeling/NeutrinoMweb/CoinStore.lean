import Mathlib.Data.List.Iterate
import NeutrinoMweb.Sync

/-!
# The coin store across syncs

`getMwebUtxos` read as a transition of the persisted coin store: it reads the stored leafset
with `GetLeafSet`, plans the spans against it, commits the utxos of each span with `PutCoins` in
the order the reassembly loop writes them, and, once every span is written, installs the new
leafset with `purgeSpentMwebTxos`. A sync that the dispatcher's error or the shutdown ends
keeps the commits it made and leaves the stored leafset as it was.

The store is outside the repository: `CoinStore` and its three calls are modelled from the spec.
Nothing reads the store while the loop runs, so the model makes the loop's `PutCoins` calls, in
their order, once the loop stops.
-/

namespace NeutrinoMweb

variable {δ : Type}

/-! ## The store -/

/-- Modelled from the spec: the persisted coin store, holding the most recently committed
leafset, its leaf count, and the coins keyed by leaf index. -/
structure CoinStore (δ : Type) where
  leafset : Leafset
  numLeaves : UInt64
  coins : Nat → Option (MwebNetUtxo δ)

/-- Modelled from the spec: the store before any sync. -/
def CoinStore.empty : CoinStore δ := ⟨[], 0, fun _ => none⟩

/-- Modelled from the spec: `GetLeafSet()`. -/
def CoinStore.getLeafSet (c : CoinStore δ) : Leafset × UInt64 := (c.leafset, c.numLeaves)

/-- Modelled from the spec: `PutCoins(utxos)` stores each utxo under its leaf index. -/
def CoinStore.putCoins (c : CoinStore δ) (utxos : List (MwebNetUtxo δ)) : CoinStore δ :=
  { c with
    coins := utxos.foldl (fun coins u => Function.update coins u.leafIndex.toNat (some u)) c.coins }

/-- Modelled from the spec: `PutLeafSetAndPurge(newLeafset, newNumLeaves, removedLeaves)`
installs the leafset and its leaf count and deletes the coins of the removed leaves. -/
def CoinStore.putLeafSetAndPurge (c : CoinStore δ) (newLeafset : Leafset) (newNumLeaves : UInt64)
    (removedLeaves : List Nat) : CoinStore δ :=
  ⟨newLeafset, newNumLeaves, fun j => if j ∈ removedLeaves then none else c.coins j⟩

/-- The store mirrors its leafset: its coins are keyed by exactly the leaves below its leaf
count that its leafset sets. -/
def CoinStore.Mirrors (c : CoinStore δ) : Prop :=
  ∀ j, (c.coins j).isSome ↔ j < c.numLeaves.toNat ∧ c.leafset.contains j

/-- No bit of the leafset is set at or beyond the leaf count. -/
def Leafset.Clean (l : Leafset) (numLeaves : Nat) : Prop :=
  ∀ j < 8 * l.length, l.contains j → j < numLeaves

instance (l : Leafset) (numLeaves : Nat) : Decidable (l.Clean numLeaves) :=
  inferInstanceAs (Decidable (∀ j < 8 * l.length, l.contains j → j < numLeaves))

theorem Leafset.Clean.lt {l : Leafset} {numLeaves j : Nat} (h : l.Clean numLeaves)
    (hj : l.contains j) : j < numLeaves :=
  h j (by have := Leafset.lt_length_of_contains hj; omega) hj

theorem isSome_putCoins (c : CoinStore δ) (utxos : List (MwebNetUtxo δ)) (j : Nat) :
    ((c.putCoins utxos).coins j).isSome ↔
      (c.coins j).isSome ∨ ∃ u ∈ utxos, u.leafIndex.toNat = j := by
  induction utxos generalizing c with
  | nil => simp [CoinStore.putCoins]
  | cons u us ih =>
    rw [show c.putCoins (u :: us) = CoinStore.putCoins
      ⟨c.leafset, c.numLeaves, Function.update c.coins u.leafIndex.toNat (some u)⟩ us from rfl, ih]
    by_cases hj : j = u.leafIndex.toNat
    · subst hj
      simp
    · simp [Function.update_noteq hj, Ne.symm hj]

theorem isSome_foldl_putCoins (ws : List (List (MwebNetUtxo δ))) (c : CoinStore δ) (j : Nat) :
    ((ws.foldl CoinStore.putCoins c).coins j).isSome ↔
      (c.coins j).isSome ∨ ∃ w ∈ ws, ∃ u ∈ w, u.leafIndex.toNat = j := by
  induction ws generalizing c with
  | nil => simp
  | cons w ws ih =>
    rw [List.foldl_cons, ih, isSome_putCoins]
    simp only [List.mem_cons, exists_eq_or_imp, or_assoc]

/-! ## A sync -/

/-- `purgeSpentMwebTxos`: the new leafset and its leaf count go to the store, which deletes the
coins of the removed leaves. -/
def purgeSpentMwebTxos (c : CoinStore δ) (newLeafset : Leafset) (newNumLeaves : UInt64)
    (removedLeaves : List Nat) : CoinStore δ :=
  c.putLeafSetAndPurge newLeafset newNumLeaves removedLeaves

/-- `getMwebUtxos(mwebHeader, newLeafset, ...)` on the store `c`, its loop taking the events
`evs`: the store after the sync, and how the loop ended. -/
def getMwebUtxos (maxMwebUtxosPerQuery : UInt16) (c : CoinStore δ) (mwebHeader : MwebHeader δ)
    (newLeafset : Leafset) (evs : List (SyncEvent δ)) :
    Except GoPanic (CoinStore δ × LoopEnd) := do
  let newNumLeaves := mwebHeader.outputMMRSize
  let (oldLeafset, oldNumLeaves) := c.getLeafSet
  let (addedLeaves, removedLeaves) :=
    diffLeafsets maxMwebUtxosPerQuery oldLeafset oldNumLeaves newLeafset newNumLeaves
  if addedLeaves.length = 0 then
    return (purgeSpentMwebTxos c newLeafset newNumLeaves removedLeaves, .finished)
  let (s, e) ← reassemble addedLeaves .start evs
  let c := s.written.foldl CoinStore.putCoins c
  if e = .finished then
    return (purgeSpentMwebTxos c newLeafset newNumLeaves removedLeaves, .finished)
  else
    return (c, e)

/-- The responses among the loop's events are ones `handleResponse` sent for requests of the
plan. -/
def SyncEvent.Delivered [DecidableEq δ] (m : MwebUtxosQuery δ) (H : Hashing δ) (blockHash : δ)
    (mwebNetUtxoCompact : UInt8) (addedLeaves : List Span) : SyncEvent δ → Prop
  | .utxos r => ∃ sp ∈ addedLeaves, m.Delivers H (sp.request blockHash mwebNetUtxoCompact) r
  | _ => True

/-- One sync of the store `c` to the header `mwebHeader` and the leafset `newLeafset`, that ends
`e`: a run of `getMwebUtxos` whose loop takes responses that `handleResponse` sent for the
planned requests. -/
def SyncStep [DecidableEq δ] (H : Hashing δ) (maxMwebUtxosPerQuery : UInt16)
    (mwebNetUtxoCompact : UInt8) (c : CoinStore δ) (mwebHeader : MwebHeader δ)
    (newLeafset : Leafset) (c' : CoinStore δ) (e : LoopEnd) : Prop :=
  ∃ blockHash evs, (∀ ev ∈ evs, SyncEvent.Delivered ⟨mwebHeader, newLeafset⟩ H blockHash
      mwebNetUtxoCompact
      (diffLeafsets maxMwebUtxosPerQuery c.leafset c.numLeaves newLeafset
        mwebHeader.outputMMRSize).1 ev) ∧
    getMwebUtxos maxMwebUtxosPerQuery c mwebHeader newLeafset evs = .ok (c', e)

/-- The stores that completed syncs reach from the empty store, each sync to a leafset that sets
no leaf at or beyond its leaf count and is shorter than `2^61` bytes. -/
inductive CleanSynced [DecidableEq δ] (H : Hashing δ) (maxMwebUtxosPerQuery : UInt16)
    (mwebNetUtxoCompact : UInt8) : CoinStore δ → Prop
  | empty : CleanSynced H maxMwebUtxosPerQuery mwebNetUtxoCompact .empty
  | completed {c c' : CoinStore δ} {mwebHeader : MwebHeader δ} {newLeafset : Leafset} :
    CleanSynced H maxMwebUtxosPerQuery mwebNetUtxoCompact c →
    newLeafset.Clean mwebHeader.outputMMRSize.toNat → newLeafset.length < 2 ^ 61 →
    SyncStep H maxMwebUtxosPerQuery mwebNetUtxoCompact c mwebHeader newLeafset c' .finished →
    CleanSynced H maxMwebUtxosPerQuery mwebNetUtxoCompact c'

section Sync

variable {maxMwebUtxosPerQuery : UInt16} {c c' : CoinStore δ} {mwebHeader : MwebHeader δ}
  {newLeafset : Leafset} {evs : List (SyncEvent δ)} {addedLeaves : List Span}
  {removedLeaves : List Nat}

theorem getMwebUtxos_eq (mwebHeader : MwebHeader δ)
    (hd : diffLeafsets maxMwebUtxosPerQuery c.leafset c.numLeaves newLeafset
      mwebHeader.outputMMRSize = (addedLeaves, removedLeaves)) :
    getMwebUtxos maxMwebUtxosPerQuery c mwebHeader newLeafset evs =
      if addedLeaves = [] then
        .ok (purgeSpentMwebTxos c newLeafset mwebHeader.outputMMRSize removedLeaves, .finished)
      else (reassemble addedLeaves .start evs).map fun r =>
        if r.2 = .finished then
          (purgeSpentMwebTxos (r.1.written.foldl CoinStore.putCoins c) newLeafset
            mwebHeader.outputMMRSize removedLeaves, .finished)
        else (r.1.written.foldl CoinStore.putCoins c, r.2) := by
  unfold getMwebUtxos
  simp only [CoinStore.getLeafSet, hd, List.length_eq_zero]
  split_ifs
  · rfl
  · rcases reassemble addedLeaves .start evs with _ | ⟨s, _ | _ | _⟩ <;> rfl

/-- **What a completed sync does to the store**: it commits what the loop wrote, nothing when
the plan is empty, then installs the new leafset and deletes the removed leaves' coins. -/
theorem getMwebUtxos_finished
    (hd : diffLeafsets maxMwebUtxosPerQuery c.leafset c.numLeaves newLeafset
      mwebHeader.outputMMRSize = (addedLeaves, removedLeaves))
    (h : getMwebUtxos maxMwebUtxosPerQuery c mwebHeader newLeafset evs = .ok (c', .finished)) :
    ∃ written, c' = purgeSpentMwebTxos (written.foldl CoinStore.putCoins c) newLeafset
        mwebHeader.outputMMRSize removedLeaves ∧
      (addedLeaves = [] ∧ written = [] ∨
        ∃ s, reassemble addedLeaves .start evs = .ok (s, .finished) ∧ written = s.written) := by
  rw [getMwebUtxos_eq mwebHeader hd] at h
  split_ifs at h with h0
  · cases h
    exact ⟨[], rfl, .inl ⟨h0, rfl⟩⟩
  rcases hr : reassemble addedLeaves .start evs with _ | ⟨s, e⟩ <;>
    simp only [hr, Except.map, Except.ok.injEq, reduceCtorEq] at h
  split_ifs at h with he
  · cases h
    obtain rfl : e = .finished := he
    exact ⟨s.written, rfl, .inr ⟨s, rfl, rfl⟩⟩
  · simp only [Prod.mk.injEq] at h
    exact absurd h.2 he

end Sync

/-! ## The loop over any events -/

theorem exists_mem_of_forall₂ {α β : Type} {R : α → β → Prop} {l₁ : List α} {l₂ : List β}
    (h : List.Forall₂ R l₁ l₂) : ∀ b ∈ l₂, ∃ a ∈ l₁, R a b := by
  induction h with
  | nil => simp
  | cons hab _ ih =>
    intro b hb
    rcases List.mem_cons.1 hb with rfl | hb
    · exact ⟨_, List.mem_cons_self _ _, hab⟩
    · obtain ⟨a, ha, hr⟩ := ih b hb
      exact ⟨a, List.mem_cons_of_mem _ ha, hr⟩

theorem exists_mem_of_forall₂_left {α β : Type} {R : α → β → Prop} {l₁ : List α} {l₂ : List β}
    (h : List.Forall₂ R l₁ l₂) : ∀ a ∈ l₁, ∃ b ∈ l₂, R a b :=
  fun a ha => exists_mem_of_forall₂ (List.Forall₂.flip (R := flip R) h) a ha

section Loop

variable {addedLeaves : List Span} (hasc : (addedLeaves.map Span.start).Pairwise (· < ·))

include hasc in
/-- **A run over any events** keeps the loop's invariant, over the responses among them that it
took; it finishes only with every span written. -/
theorem reassemble_events_spec : ∀ (evs : List (SyncEvent δ)) {s s' : ReassemblyVars δ}
    {seen : List (MsgMwebUtxos δ)} {e : LoopEnd}, (∀ r, .utxos r ∈ evs → Fits r) →
    Stashed addedLeaves seen s → Drained addedLeaves s →
    reassemble addedLeaves s evs = .ok (s', e) →
    ∃ seen', Stashed addedLeaves seen' s' ∧ (∀ r ∈ seen', r ∈ seen ∨ .utxos r ∈ evs) ∧
      (e = .finished → s'.i = addedLeaves.length)
  | [], s, s', seen, e, _, hS, _, h => by
    simp only [reassemble, pure, Except.pure, Except.ok.injEq, Prod.mk.injEq] at h
    obtain ⟨rfl, rfl⟩ := h
    refine ⟨seen, hS, fun r hr => .inl hr, fun he => ?_⟩
    split_ifs at he with hi
    exact le_antisymm hS.i_le (Nat.not_lt.1 hi)
  | ev :: evs, s, s', seen, e, hf, hS, hD, h => by
    have hf' : ∀ r, .utxos r ∈ evs → Fits r := fun r hr => hf r (List.mem_cons_of_mem _ hr)
    by_cases hi : s.i < addedLeaves.length
    · rcases ev with r | _ | _ | _ <;> simp only [reassemble, if_pos hi] at h
      · obtain ⟨s₁, h₁, hS₁, hD₁⟩ :=
          receiveUtxos_spec hasc hS hD hi (hf r (List.mem_cons_self _ _))
        rw [h₁] at h
        obtain ⟨seen', hS', hsub, hfin⟩ := reassemble_events_spec evs hf' hS₁ hD₁ h
        refine ⟨seen', hS', fun r' hr' => ?_, hfin⟩
        rcases hsub r' hr' with h' | h'
        · exact (List.mem_append.1 h').imp_right fun h' => by
            rw [List.mem_singleton.1 h']
            exact List.mem_cons_self _ _
        · exact .inr (List.mem_cons_of_mem _ h')
      · obtain ⟨seen', hS', hsub, hfin⟩ := reassemble_events_spec evs hf' hS hD h
        exact ⟨seen', hS', fun r hr => (hsub r hr).imp_right (List.mem_cons_of_mem _), hfin⟩
      all_goals
        simp only [pure, Except.pure, Except.ok.injEq, Prod.mk.injEq] at h
        obtain ⟨rfl, rfl⟩ := h
        exact ⟨seen, hS, fun r hr => .inl hr, fun he => nomatch he⟩
    · simp only [reassemble, if_neg hi, pure, Except.pure, Except.ok.injEq, Prod.mk.injEq] at h
      obtain ⟨rfl, rfl⟩ := h
      exact ⟨seen, hS, fun r hr => .inl hr, fun _ => le_antisymm hS.i_le (Nat.not_lt.1 hi)⟩

end Loop

/-- **What a finished loop wrote**, on responses `handleResponse` sent for an exact plan: the
written utxos cover every leaf of every span, and each sits at a leaf the new leafset sets,
below the header's leaf count. -/
theorem reassemble_finished_writes [DecidableEq δ] {m : MwebUtxosQuery δ} {H : Hashing δ}
    {blockHash : δ} {mwebNetUtxoCompact : UInt8} {maxMwebUtxosPerQuery : UInt16}
    {oldLeafset : Leafset} {numLeaves : Nat} {addedLeaves : List Span} {removedLeaves : List Nat}
    (hplan : DiffExact maxMwebUtxosPerQuery oldLeafset m.leafset numLeaves addedLeaves
      removedLeaves)
    (hnum : numLeaves ≤ 2 ^ 64) {evs : List (SyncEvent δ)}
    (hevs : ∀ ev ∈ evs, ev.Delivered m H blockHash mwebNetUtxoCompact addedLeaves)
    {s : ReassemblyVars δ} (hr : reassemble addedLeaves .start evs = .ok (s, .finished)) :
    (∀ w ∈ s.written, ∀ u ∈ w, m.leafset.contains u.leafIndex.toNat ∧
      u.leafIndex.toNat < m.mwebHeader.outputMMRSize.toNat) ∧
    ∀ sp ∈ addedLeaves, ∀ j ∈ sp.leaves m.leafset, ∃ w ∈ s.written, ∃ u ∈ w,
      u.leafIndex.toNat = j := by
  obtain ⟨hasc, hlt⟩ := hplan.starts
  have hstart : ∀ sp ∈ addedLeaves, sp.start < 2 ^ 64 := fun sp hsp => by
    have := hlt sp hsp
    omega
  have hdel : ∀ r, .utxos r ∈ evs →
      ∃ sp ∈ addedLeaves, m.Delivers H (sp.request blockHash mwebNetUtxoCompact) r :=
    fun r hr => hevs _ hr
  have hfits : ∀ r, .utxos r ∈ evs → Fits r := fun r hr => by
    obtain ⟨sp, hsp, hd⟩ := hdel r hr
    exact hd.fits (hplan.count_pos sp hsp) (hstart sp hsp)
  obtain ⟨seen, hS, hsub, hfin⟩ :=
    reassemble_events_spec hasc evs hfits (stashed_start _) (drained_start _) hr
  have hW := hS.written
  rw [hfin rfl, List.take_length] at hW
  have hseen : ∀ r ∈ seen, ∃ sp ∈ addedLeaves,
      m.Delivers H (sp.request blockHash mwebNetUtxoCompact) r :=
    fun r hr => (hsub r hr).elim (fun h => absurd h (List.not_mem_nil _)) (hdel r)
  refine ⟨fun w hw u hu => ?_, fun sp hsp j hj => ?_⟩
  · obtain ⟨sp, -, r, hr, -, rfl⟩ := exists_mem_of_forall₂ hW w hw
    obtain ⟨sp', -, hd⟩ := hseen r hr
    exact hd.mem_leafset u hu
  · obtain ⟨w, hw, r, hr, hk, rfl⟩ := exists_mem_of_forall₂_left hW sp hsp
    obtain ⟨sp', hsp', hd⟩ := hseen r hr
    obtain rfl : sp = sp' := (List.inj_on_of_nodup_map (hasc.imp Nat.ne_of_lt) hsp' hsp
      ((hd.leaves (hplan.count_pos sp' hsp') (hstart sp' hsp')).1.symm.trans hk)).symm
    obtain ⟨-, hlen, hl, -⟩ := hd.leaves (hplan.count_pos sp hsp) (hstart sp hsp)
    have hle : sp.count.toNat ≤ r.utxos.length := hlen ▸ Nat.mod_le _ _
    have hj' : j ∈ r.utxos.map fun u => u.leafIndex.toNat := by
      rw [hl, ← Nat.add_sub_cancel' hle, List.iterate_add]
      exact List.mem_append_left _ hj
    obtain ⟨u, hu, rfl⟩ := List.mem_map.1 hj'
    exact ⟨r.utxos, hw, u, hu, rfl⟩

/-! ## Completed syncs keep the store in step -/

section Step

variable [DecidableEq δ] {H : Hashing δ} {maxMwebUtxosPerQuery : UInt16}
  {mwebNetUtxoCompact : UInt8} {c c' : CoinStore δ} {mwebHeader : MwebHeader δ}
  {newLeafset : Leafset}

/-- **A completed sync to a clean leafset keeps the store in step**: from a store that mirrors
a clean leafset, the store after the sync mirrors the new one. The coins the sync writes are at
leaves the new leafset sets; every leaf it sets that the old one did not is written; and the
purge deletes exactly the leaves the old leafset set and the new one does not. -/
theorem SyncStep.mirrors (hmax : 0 < maxMwebUtxosPerQuery.toNat) (hc : c.Mirrors)
    (hcl : c.leafset.Clean c.numLeaves.toNat)
    (hnew : newLeafset.Clean mwebHeader.outputMMRSize.toNat) (hlen : newLeafset.length < 2 ^ 61)
    (h : SyncStep H maxMwebUtxosPerQuery mwebNetUtxoCompact c mwebHeader newLeafset c' .finished) :
    c'.Mirrors ∧ c'.leafset.Clean c'.numLeaves.toNat := by
  obtain ⟨blockHash, evs, hevs, hrun⟩ := h
  rcases hd : diffLeafsets maxMwebUtxosPerQuery c.leafset c.numLeaves newLeafset
    mwebHeader.outputMMRSize with ⟨addedLeaves, removedLeaves⟩
  rw [hd] at hevs
  have hplan := diffExact_of_diffLeafsets hd hmax (lt_of_le_of_lt (min_le_right _ _) hlen)
  obtain ⟨written, rfl, hw⟩ := getMwebUtxos_finished hd hrun
  obtain ⟨hset, hcover⟩ : (∀ w ∈ written, ∀ u ∈ w, newLeafset.contains u.leafIndex.toNat ∧
        u.leafIndex.toNat < mwebHeader.outputMMRSize.toNat) ∧
      ∀ sp ∈ addedLeaves, ∀ j ∈ sp.leaves newLeafset, ∃ w ∈ written, ∃ u ∈ w,
        u.leafIndex.toNat = j := by
    rcases hw with ⟨rfl, rfl⟩ | ⟨s, hr, rfl⟩
    · simp
    · exact reassemble_finished_writes (m := ⟨mwebHeader, newLeafset⟩) hplan
        (max_lt c.numLeaves.val.isLt mwebHeader.outputMMRSize.val.isLt).le hevs hr
  have hrem : ∀ j, j ∈ removedLeaves ↔
      j < max c.numLeaves.toNat mwebHeader.outputMMRSize.toNat ∧ c.leafset.contains j ∧
        ¬newLeafset.contains j := fun j => by
    rw [hplan.removed]
    simp
  refine ⟨fun j => ?_, hnew⟩
  simp only [purgeSpentMwebTxos, CoinStore.putLeafSetAndPurge]
  by_cases hn : newLeafset.contains j
  · rw [if_neg fun h => ((hrem j).1 h).2.2 hn, isSome_foldl_putCoins]
    refine iff_of_true ?_ ⟨hnew.lt hn, hn⟩
    by_cases ho : c.leafset.contains j
    · exact .inl ((hc j).2 ⟨hcl.lt ho, ho⟩)
    · have hj : j ∈ addedLeaves.flatMap (Span.leaves newLeafset) := by
        rw [hplan.covered]
        simp [hn, ho, lt_max_of_lt_right (hnew.lt hn)]
      obtain ⟨sp, hsp, hj⟩ := List.mem_flatMap.1 hj
      exact .inr (hcover sp hsp j hj)
  · refine iff_of_false ?_ fun h => hn h.2
    split_ifs with hj
    · simp
    · rw [isSome_foldl_putCoins]
      rintro (h | ⟨w, hw, u, hu, rfl⟩)
      · obtain ⟨hlt, ho⟩ := (hc _).1 h
        exact hj ((hrem _).2 ⟨lt_max_of_lt_left hlt, ho, hn⟩)
      · exact hn (hset w hw u hu).1

/-- **After every completed sync to a clean leafset the store mirrors its leafset**: along a
history of such syncs from the empty store, the coins are keyed by exactly the leaves below the
stored leaf count that the stored leafset sets. -/
theorem coinStore_mirrors_leafset (hmax : 0 < maxMwebUtxosPerQuery.toNat)
    (hc : CleanSynced H maxMwebUtxosPerQuery mwebNetUtxoCompact c) : c.Mirrors := by
  suffices c.Mirrors ∧ c.leafset.Clean c.numLeaves.toNat from this.1
  induction hc with
  | empty =>
    exact ⟨fun j => by simp [CoinStore.empty, Leafset.contains],
      fun j hj => absurd hj (Nat.not_lt_zero j)⟩
  | completed _ hnew hlen hstep ih => exact hstep.mirrors hmax ih.1 ih.2 hnew hlen

end Step

/-! ## Syncs on honest responses -/

section Honest

section HonestUtxos

variable {D : Nat → δ} {L : Leafset} {first last : Nat}

theorem head?_honestUtxos (hfl : first ≤ last) (hs : L.contains first) :
    (honestUtxos D L first last).head? = some ⟨first.toUInt64, D first⟩ := by
  rw [honestUtxos, between, show last + 1 - first = last - first + 1 by omega, List.range'_succ,
    List.filter_cons_of_pos hs]
  rfl

theorem getLast?_honestUtxos (hfl : first ≤ last) (hl : L.contains last) :
    (honestUtxos D L first last).getLast? = some ⟨last.toUInt64, D last⟩ := by
  rw [honestUtxos, between_succ _ hfl, if_pos hl, List.map_append, List.getLast?_append,
    List.map_singleton, List.getLast?_singleton]
  rfl

end HonestUtxos

variable [DecidableEq δ] {H : Hashing δ} {D : Nat → δ} {maxMwebUtxosPerQuery : UInt16}
  {mwebNetUtxoCompact : UInt8} {c : CoinStore δ} {L : Leafset} {removedLeaves : List Nat}

theorem syncStep_of_nil {mwebHeader : MwebHeader δ}
    (hd : diffLeafsets maxMwebUtxosPerQuery c.leafset c.numLeaves L mwebHeader.outputMMRSize =
      ([], removedLeaves)) :
    SyncStep H maxMwebUtxosPerQuery mwebNetUtxoCompact c mwebHeader L
      (purgeSpentMwebTxos c L mwebHeader.outputMMRSize removedLeaves) .finished :=
  ⟨mwebHeader.outputRoot, [], fun _ h => absurd h (List.not_mem_nil _),
    by rw [getMwebUtxos_eq mwebHeader hd, if_pos rfl]⟩

/-- A sync whose plan is one span, of the set leaves from its start to `last`, completes on the
honest response for it. -/
theorem syncStep_of_singleton {N : Nat} (sp : Span) (last : Nat) (leafsetRoot : δ)
    (hd : diffLeafsets maxMwebUtxosPerQuery c.leafset c.numLeaves L N.toUInt64 =
      ([sp], removedLeaves))
    (hN63 : N < 2 ^ 63) (hfl : sp.start ≤ last) (hlN : last < N) (hs : L.contains sp.start)
    (hl : L.contains last) (hcount : sp.count = (honestUtxos D L sp.start last).length.toUInt16) :
    SyncStep H maxMwebUtxosPerQuery mwebNetUtxoCompact c ⟨mmrRoot H D N, N.toUInt64, leafsetRoot⟩ L
      (purgeSpentMwebTxos (c.putCoins (honestUtxos D L sp.start last)) L N.toUInt64
        removedLeaves) .finished := by
  let r : MsgMwebUtxos δ := ⟨leafsetRoot, sp.start.toUInt64, mwebNetUtxoCompact,
    honestUtxos D L sp.start last, walkProofs H D L sp.start last (LeafIdx.nodeIdx N) (mmrPeaks N)⟩
  obtain ⟨s, hr, hw⟩ := reassemble_singleton (r := r) (head?_honestUtxos hfl hs)
    (getLast?_honestUtxos hfl hl) (UInt64.toNat_ofNat_of_lt (show _ < 2 ^ 64 by omega))
    (by rw [UInt64.toNat_ofNat_of_lt (show _ < 2 ^ 64 by omega)]; exact hfl)
  refine ⟨leafsetRoot, [.utxos r], fun ev hev => ?_, ?_⟩
  · obtain rfl := List.mem_singleton.1 hev
    have hdel : (⟨⟨mmrRoot H D N, N.toUInt64, leafsetRoot⟩, L⟩ : MwebUtxosQuery δ).Delivers H
        (sp.request leafsetRoot mwebNetUtxoCompact) r :=
      honestResponse_delivered leafsetRoot leafsetRoot mwebNetUtxoCompact hN63 hfl hlN hs hl hcount
    show ∃ sp' ∈ (diffLeafsets maxMwebUtxosPerQuery c.leafset c.numLeaves L N.toUInt64).1, _
    rw [hd]
    exact ⟨sp, List.mem_singleton_self _, hdel⟩
  · rw [getMwebUtxos_eq ⟨mmrRoot H D N, N.toUInt64, leafsetRoot⟩ hd, if_neg (List.cons_ne_nil _ _),
      hr]
    simp only [Except.map, hw, if_pos rfl]
    rfl

/-- A sync whose plan has a second span, abandoned on the shutdown once the honest response for
the first span is in, returns with that span's utxos written and nothing purged. -/
theorem syncStep_of_quit {N : Nat} (sp sp' : Span) (rest : List Span) (last : Nat)
    (leafsetRoot : δ)
    (hd : diffLeafsets maxMwebUtxosPerQuery c.leafset c.numLeaves L N.toUInt64 =
      (sp :: sp' :: rest, removedLeaves))
    (hN63 : N < 2 ^ 63) (hfl : sp.start ≤ last) (hlN : last < N) (hs : L.contains sp.start)
    (hl : L.contains last) (hcount : sp.count = (honestUtxos D L sp.start last).length.toUInt16) :
    SyncStep H maxMwebUtxosPerQuery mwebNetUtxoCompact c ⟨mmrRoot H D N, N.toUInt64, leafsetRoot⟩ L
      (c.putCoins (honestUtxos D L sp.start last)) .returned := by
  let r : MsgMwebUtxos δ := ⟨leafsetRoot, sp.start.toUInt64, mwebNetUtxoCompact,
    honestUtxos D L sp.start last, walkProofs H D L sp.start last (LeafIdx.nodeIdx N) (mmrPeaks N)⟩
  have hu0 : (⟨sp.start.toUInt64, D sp.start⟩ : MwebNetUtxo δ).leafIndex.toNat = sp.start :=
    UInt64.toNat_ofNat_of_lt (show _ < 2 ^ 64 by omega)
  have hv0 : (⟨last.toUInt64, D last⟩ : MwebNetUtxo δ).leafIndex.toNat = last :=
    UInt64.toNat_ofNat_of_lt (show _ < 2 ^ 64 by omega)
  have hi : (ReassemblyVars.start : ReassemblyVars δ).i < (sp :: sp' :: rest).length :=
    Nat.succ_pos _
  have hi₁ : 0 + 1 < (sp :: sp' :: rest).length := by simp
  refine ⟨leafsetRoot, [.utxos r, .quit], fun ev hev => ?_, ?_⟩
  · show SyncEvent.Delivered _ _ _ _
      (diffLeafsets maxMwebUtxosPerQuery c.leafset c.numLeaves L N.toUInt64).1 ev
    rw [hd]
    rcases List.mem_cons.1 hev with rfl | hev
    · exact ⟨sp, List.mem_cons_self _ _, honestResponse_delivered leafsetRoot leafsetRoot
        mwebNetUtxoCompact hN63 hfl hlN hs hl hcount⟩
    · rw [List.mem_singleton.1 hev]
      trivial
  · -- the first span is written; the second is not stashed, so the shutdown ends the loop
    rw [getMwebUtxos_eq ⟨mmrRoot H D N, N.toUInt64, leafsetRoot⟩ hd, if_neg (List.cons_ne_nil _ _),
      reassemble, if_pos hi,
      receiveUtxos_eq (head?_honestUtxos hfl hs) (getLast?_honestUtxos hfl hl) hi, hu0, hv0]
    simp only [ReassemblyVars.start, List.getElem_cons_zero, if_neg (Nat.not_lt.2 hfl),
      List.drop_zero, writeStashed, Function.update_same, Function.update_idem,
      Function.update_eq_self, bind, Except.bind, reassemble, if_pos hi₁]
    rfl

end Honest

theorem coins_purgeSpentMwebTxos (c : CoinStore δ) (newLeafset : Leafset) (newNumLeaves : UInt64)
    (removedLeaves : List Nat) (j : Nat) :
    (purgeSpentMwebTxos c newLeafset newNumLeaves removedLeaves).coins j =
      if j ∈ removedLeaves then none else c.coins j := rfl

/-- The store after a completed sync from the empty store to the three leaves of `[0xE0]`, over
the ids `freeIds`. -/
def syncedOnce : CoinStore FreeDigest :=
  purgeSpentMwebTxos (CoinStore.empty.putCoins (honestUtxos freeIds [0xE0] 0 2)) [0xE0]
    (3 : Nat).toUInt64 []

/-- The store after a second completed sync, to the leaves `0`, `1`, `3`, `4` of `[0xD8]` over
five: it fetches leaves `3` and `4` and purges the spent leaf `2`. -/
def syncedTwice : CoinStore FreeDigest :=
  purgeSpentMwebTxos (syncedOnce.putCoins (honestUtxos freeIds [0xD8] 3 4)) [0xD8]
    (5 : Nat).toUInt64 [2]

theorem syncStep_syncedOnce : SyncStep freeHashing 4096 0 .empty
    ⟨mmrRoot freeHashing freeIds 3, (3 : Nat).toUInt64, .outputId 0⟩ [0xE0] syncedOnce .finished :=
  syncStep_of_singleton ⟨0, 3⟩ 2 (.outputId 0) (by decide) (by decide) (by decide) (by decide)
    (by decide) (by decide) (by decide)

theorem syncStep_syncedTwice : SyncStep freeHashing 4096 0 syncedOnce
    ⟨mmrRoot freeHashing freeIds 5, (5 : Nat).toUInt64, .outputId 0⟩ [0xD8] syncedTwice .finished :=
  syncStep_of_singleton ⟨3, 2⟩ 4 (.outputId 0) (by decide) (by decide) (by decide) (by decide)
    (by decide) (by decide) (by decide)

theorem coinStore_mirrors_leafset_two_syncs :
    0 < (4096 : UInt16).toNat ∧ CleanSynced freeHashing 4096 0 syncedTwice ∧ syncedTwice.Mirrors :=
  have hc : CleanSynced freeHashing 4096 0 syncedTwice :=
    .completed (.completed .empty (by decide) (by decide) syncStep_syncedOnce) (by decide)
      (by decide) syncStep_syncedTwice
  ⟨by decide, hc, coinStore_mirrors_leafset (by decide) hc⟩

/-! ## Two ways out of step -/

section OutOfStep

variable (maxMwebUtxosPerQuery : UInt16)

theorem diffLeafsets_nil_C0 : diffLeafsets maxMwebUtxosPerQuery [] 0 [0xC0] 1 = ([⟨0, 1⟩], []) := by
  have o0 : Leafset.contains [] 0 = false := rfl
  have n0 : Leafset.contains [0xC0] 0 = true := by decide
  by_cases h : (1 : UInt16) = maxMwebUtxosPerQuery
  · subst h
    decide
  · simp [diffLeafsets, diffStep, DiffVars.addLeafSpan, commonPrefix, wrap64, o0, n0, h]

theorem diffLeafsets_C0_C0 : diffLeafsets maxMwebUtxosPerQuery [0xC0] 1 [0xC0] 2 = ([], []) := rfl

theorem diffLeafsets_nil_40 : diffLeafsets maxMwebUtxosPerQuery [] 0 [0x40] 2 = ([⟨1, 1⟩], []) := by
  have o0 : Leafset.contains [] 0 = false := rfl
  have o1 : Leafset.contains [] 1 = false := rfl
  have n0 : Leafset.contains [0x40] 0 = false := by decide
  have n1 : Leafset.contains [0x40] 1 = true := by decide
  by_cases h : (1 : UInt16) = maxMwebUtxosPerQuery
  · subst h
    decide
  · simp [diffLeafsets, diffStep, DiffVars.addLeafSpan, commonPrefix, wrap64, List.range', o0, o1,
      n0, n1, h]

theorem diffLeafsets_40_A0 :
    diffLeafsets maxMwebUtxosPerQuery [0x40] 2 [0xA0] 3 = ([⟨0, 1⟩, ⟨2, 1⟩], [1]) := by
  have o0 : Leafset.contains [0x40] 0 = false := by decide
  have o1 : Leafset.contains [0x40] 1 = true := by decide
  have o2 : Leafset.contains [0x40] 2 = false := by decide
  have n0 : Leafset.contains [0xA0] 0 = true := by decide
  have n1 : Leafset.contains [0xA0] 1 = false := by decide
  have n2 : Leafset.contains [0xA0] 2 = true := by decide
  by_cases h : (1 : UInt16) = maxMwebUtxosPerQuery
  · subst h
    decide
  · simp [diffLeafsets, diffStep, DiffVars.addLeafSpan, commonPrefix, wrap64, List.range', o0, o1,
      o2, n0, n1, n2, h]

theorem diffLeafsets_40_00 : diffLeafsets maxMwebUtxosPerQuery [0x40] 2 [0x00] 3 = ([], [1]) := by
  have o0 : Leafset.contains [0x40] 0 = false := by decide
  have o1 : Leafset.contains [0x40] 1 = true := by decide
  have o2 : Leafset.contains [0x40] 2 = false := by decide
  have n0 : Leafset.contains [0x00] 0 = false := by decide
  have n1 : Leafset.contains [0x00] 1 = false := by decide
  have n2 : Leafset.contains [0x00] 2 = false := by decide
  simp [diffLeafsets, diffStep, DiffVars.addLeafSpan, commonPrefix, wrap64, List.range', o0, o1,
    o2, n0, n1, n2]

end OutOfStep

/-- **Two histories after which the store is out of step with its leafset**, for every hashing,
every assignment of output ids and every cap on a span. First, two completed syncs to the
leafset `[0xC0]`, of one leaf and then of two: bit `1`, set past the first count, is never
fetched, so the store that mirrored its leafset after the first sync has no coin for leaf `1`
after the second. Second, with leafsets that set no bit past their count: a completed sync to
`[0x40]` (leaf `1`), a sync to `[0xA0]` (leaves `0` and `2`) abandoned on the shutdown after it
committed leaf `0`, and a completed sync to `[0x00]` planned against the old leafset `[0x40]`,
which keeps the coin of leaf `0`. -/
theorem coinStore_out_of_step [DecidableEq δ] (H : Hashing δ) (D : Nat → δ) (leafsetRoot : δ)
    (maxMwebUtxosPerQuery : UInt16) (mwebNetUtxoCompact : UInt8) :
    (∃ c₁ c₂, SyncStep H maxMwebUtxosPerQuery mwebNetUtxoCompact .empty
        ⟨mmrRoot H D 1, (1 : Nat).toUInt64, leafsetRoot⟩ [0xC0] c₁ .finished ∧ c₁.Mirrors ∧
      SyncStep H maxMwebUtxosPerQuery mwebNetUtxoCompact c₁
        ⟨mmrRoot H D 2, (2 : Nat).toUInt64, leafsetRoot⟩ [0xC0] c₂ .finished ∧ ¬c₂.Mirrors) ∧
    (∃ c₁ c₂ c₃, SyncStep H maxMwebUtxosPerQuery mwebNetUtxoCompact .empty
        ⟨mmrRoot H D 2, (2 : Nat).toUInt64, leafsetRoot⟩ [0x40] c₁ .finished ∧
      SyncStep H maxMwebUtxosPerQuery mwebNetUtxoCompact c₁
        ⟨mmrRoot H D 3, (3 : Nat).toUInt64, leafsetRoot⟩ [0xA0] c₂ .returned ∧
      SyncStep H maxMwebUtxosPerQuery mwebNetUtxoCompact c₂
        ⟨mmrRoot H D 3, (3 : Nat).toUInt64, leafsetRoot⟩ [0x00] c₃ .finished ∧
      Leafset.Clean [0x40] 2 ∧ Leafset.Clean [0xA0] 3 ∧ Leafset.Clean [0x00] 3 ∧ ¬c₃.Mirrors) := by
  have hC0 : honestUtxos D [0xC0] 0 0 = [⟨0, D 0⟩] := rfl
  have hA0 : honestUtxos D [0xA0] 0 0 = [⟨0, D 0⟩] := rfl
  refine ⟨⟨_, _, syncStep_of_singleton ⟨0, 1⟩ 0 leafsetRoot (diffLeafsets_nil_C0 _) (by decide)
      le_rfl (by decide) (by decide) (by decide) rfl, fun j => ?_,
    syncStep_of_nil (diffLeafsets_C0_C0 _), fun h => ?_⟩, ?_⟩
  · -- after the first sync to `[0xC0]` the one coin is leaf `0`'s
    rw [coins_purgeSpentMwebTxos, if_neg (List.not_mem_nil _), isSome_putCoins, hC0]
    simp only [CoinStore.empty, Option.isSome_none, Bool.false_eq_true, List.mem_singleton,
      exists_eq_left, false_or]
    constructor
    · rintro rfl
      exact ⟨Nat.zero_lt_one, show Leafset.contains [0xC0] 0 = true by decide⟩
    · rintro ⟨hj, -⟩
      have : j = 0 := by
        have : j < 1 := hj
        omega
      subst this
      rfl
  · -- the second leaves leaf `1`, set and below the new count, without a coin
    have h1 := (h 1).2 ⟨Nat.one_lt_two, show Leafset.contains [0xC0] 1 = true by decide⟩
    rw [coins_purgeSpentMwebTxos, if_neg (List.not_mem_nil _), coins_purgeSpentMwebTxos,
      if_neg (List.not_mem_nil _), isSome_putCoins, hC0] at h1
    simp [CoinStore.empty] at h1
  let c₁ : CoinStore δ := purgeSpentMwebTxos ((CoinStore.empty : CoinStore δ).putCoins
    (honestUtxos D [0x40] 1 1)) [0x40] (2 : Nat).toUInt64 []
  refine ⟨c₁, c₁.putCoins (honestUtxos D [0xA0] 0 0), _,
    syncStep_of_singleton ⟨1, 1⟩ 1 leafsetRoot (diffLeafsets_nil_40 _) (by decide) le_rfl
      (by decide) (by decide) (by decide) rfl,
    syncStep_of_quit ⟨0, 1⟩ ⟨2, 1⟩ [] 0 leafsetRoot (diffLeafsets_40_A0 _) (by decide) le_rfl
      (by decide) (by decide) (by decide) rfl,
    syncStep_of_nil (diffLeafsets_40_00 _), by decide, by decide, by decide, fun h => ?_⟩
  -- the last sync keeps the coin of leaf `0`, which its leafset does not set
  have hs : ((c₁.putCoins (honestUtxos D [0xA0] 0 0)).coins 0).isSome := by
    rw [isSome_putCoins, hA0]
    exact .inr ⟨_, List.mem_singleton_self _, rfl⟩
  exact absurd ((h 0).1 hs).2 (show ¬Leafset.contains [0x00] 0 = true by decide)

/-- The two histories over the free hashing, under the cap `4096`. -/
theorem coinStore_out_of_step_free :
    (∃ c₁ c₂, SyncStep freeHashing 4096 0 .empty
        ⟨mmrRoot freeHashing (fun _ => .outputId 5) 1, (1 : Nat).toUInt64, .outputId 0⟩ [0xC0] c₁
        .finished ∧ c₁.Mirrors ∧
      SyncStep freeHashing 4096 0 c₁
        ⟨mmrRoot freeHashing (fun _ => .outputId 5) 2, (2 : Nat).toUInt64, .outputId 0⟩ [0xC0] c₂
        .finished ∧ ¬c₂.Mirrors) ∧
    (∃ c₁ c₂ c₃, SyncStep freeHashing 4096 0 .empty
        ⟨mmrRoot freeHashing (fun _ => .outputId 5) 2, (2 : Nat).toUInt64, .outputId 0⟩ [0x40] c₁
        .finished ∧
      SyncStep freeHashing 4096 0 c₁
        ⟨mmrRoot freeHashing (fun _ => .outputId 5) 3, (3 : Nat).toUInt64, .outputId 0⟩ [0xA0] c₂
        .returned ∧
      SyncStep freeHashing 4096 0 c₂
        ⟨mmrRoot freeHashing (fun _ => .outputId 5) 3, (3 : Nat).toUInt64, .outputId 0⟩ [0x00] c₃
        .finished ∧
      Leafset.Clean [0x40] 2 ∧ Leafset.Clean [0xA0] 3 ∧ Leafset.Clean [0x00] 3 ∧ ¬c₃.Mirrors) :=
  coinStore_out_of_step freeHashing (fun _ => .outputId 5) (.outputId 0) 4096 0

end NeutrinoMweb
