import NeutrinoMweb.LeafsetView

/-!
# Syncs with honest peers

An honest peer answers the request of a span with the span's leaves, their committed output ids
and the proof hashes an honest batch supplies. For every plan the differ makes against a clean
new leafset, every such answer matches its request, passes the verifier, goes on `utxosChan` and
bans no one; and on those answers, in whatever order they arrive and however often each is
repeated, the reassembly loop finishes, so the sync completes.
-/

namespace NeutrinoMweb

variable {δ : Type}

/-! ## A span's leaves -/

/-- Steps of `nextUnspent` from a set index that land on set indices, ascending, are every set
index up to the last of them. -/
theorem iterate_nextUnspent_eq_between (l : Leafset) : ∀ (n : Nat) {s last : Nat},
    (∀ j ∈ List.iterate l.nextUnspent s (n + 1), l.contains j) →
    (List.iterate l.nextUnspent s (n + 1)).Pairwise (· < ·) →
    (List.iterate l.nextUnspent s (n + 1)).getLast? = some last → last < 2 ^ 64 →
    List.iterate l.nextUnspent s (n + 1) = between l.contains s (last + 1)
  | 0, s, last, hset, _, hlast, _ => by
    obtain rfl : s = last := Option.some.inj hlast
    rw [between_succ _ le_rfl, between_self, if_pos (hset s (List.mem_singleton_self s))]
    rfl
  | n + 1, s, last, hset, hasc, hlast, h64 => by
    have hR : List.iterate l.nextUnspent s (n + 2) =
        s :: List.iterate l.nextUnspent (l.nextUnspent s) (n + 1) := rfl
    rw [hR] at hset hasc hlast ⊢
    have hlast' : (List.iterate l.nextUnspent (l.nextUnspent s) (n + 1)).getLast? = some last := by
      rw [show List.iterate l.nextUnspent (l.nextUnspent s) (n + 1) = _ :: _ from rfl] at hlast ⊢
      rwa [List.getLast?_cons_cons] at hlast
    have ih := iterate_nextUnspent_eq_between l n (fun j hj => hset j (List.mem_cons_of_mem _ hj))
      (List.pairwise_cons.1 hasc).2 hlast' h64
    have hmem : l.nextUnspent s ∈ List.iterate l.nextUnspent (l.nextUnspent s) (n + 1) :=
      List.mem_cons_self _ _
    have hlt : s < l.nextUnspent s := (List.pairwise_cons.1 hasc).1 _ hmem
    have hle : l.nextUnspent s < last + 1 := (mem_between (ih ▸ hmem)).2.2
    -- nothing is set between `s` and the next step
    have hgap : between l.contains (s + 1) (l.nextUnspent s) = [] :=
      List.filter_eq_nil_iff.2 fun k hk => by
        rw [List.mem_range'_1] at hk
        exact Bool.eq_false_iff.1
          (Leafset.nextUnspent_gap (l := l) (i := s) (k := k) (by omega) (by omega) (by omega))
    rw [ih, ← between_append (Nat.le_succ s) (by omega : s + 1 ≤ last + 1),
      ← between_append (by omega : s + 1 ≤ l.nextUnspent s) hle.le, hgap, List.nil_append,
      between_succ _ le_rfl, between_self, if_pos (hset s (List.mem_cons_self _ _))]
    rfl

/-- **A planned span is a run of set leaves**: a peer reading the span's request from its start
by `nextUnspent` reads every leaf the new leafset sets from the start through the span's last
leaf, which lies below the plan's leaf count. -/
theorem DiffExact.leaves_eq_between {mx : UInt16} {oldLeafset newLeafset : Leafset}
    {numLeaves : Nat} {addedLeaves : List Span} {removedLeaves : List Nat}
    (hplan : DiffExact mx oldLeafset newLeafset numLeaves addedLeaves removedLeaves)
    (hnum : numLeaves ≤ 2 ^ 64) {sp : Span} (hsp : sp ∈ addedLeaves) :
    sp.start ≤ (sp.leaves newLeafset).getLastD sp.start ∧
      (sp.leaves newLeafset).getLastD sp.start < numLeaves ∧
      newLeafset.contains ((sp.leaves newLeafset).getLastD sp.start) ∧
      sp.leaves newLeafset =
        between newLeafset.contains sp.start ((sp.leaves newLeafset).getLastD sp.start + 1) := by
  have hin : ∀ j ∈ sp.leaves newLeafset, newLeafset.contains j ∧ j < numLeaves := fun j hj => by
    have := List.mem_flatMap.2 ⟨sp, hsp, hj⟩
    rw [hplan.covered, List.mem_filter, List.mem_range, Bool.and_eq_true] at this
    exact ⟨this.2.1, this.1⟩
  obtain ⟨n, hn⟩ : ∃ n, sp.count.toNat = n + 1 := ⟨_, (Nat.succ_pred_eq_of_pos
    (hplan.count_pos sp hsp)).symm⟩
  have hne : sp.leaves newLeafset ≠ [] := by rw [Span.leaves, hn]; exact List.cons_ne_nil _ _
  have hlast := List.getLast?_eq_getLast _ hne
  rw [List.getLastD_eq_getLast?, hlast, Option.getD_some]
  obtain ⟨hl, hlN⟩ := hin _ (List.getLast_mem hne)
  have heq : sp.leaves newLeafset = between newLeafset.contains sp.start
      ((sp.leaves newLeafset).getLast hne + 1) := by
    have h := iterate_nextUnspent_eq_between newLeafset n (s := sp.start)
      (by rw [← hn]; exact fun j hj => (hin j hj).1)
      (by rw [← hn]; exact (List.pairwise_flatMap.1 hplan.ascending).1 sp hsp)
      (by rw [← hn]; exact hlast) (by omega)
    rw [← hn] at h
    exact h
  have hstart : sp.start ∈ sp.leaves newLeafset := by
    rw [Span.leaves, hn]
    exact List.mem_cons_self _ _
  have hle := (mem_between (Eq.mp (congrArg (sp.start ∈ ·) heq) hstart)).2.2
  exact ⟨Nat.le_of_lt_succ hle, hlN, hl, heq⟩

/-! ## The loop once every answer is in -/

/-- **The loop cannot keep waiting once every span's answer has arrived**: on responses that fit,
in any order and with any repeats, among which one starts at each span of an ascending plan, the
loop finishes. -/
theorem reassemble_finished_of_arrived {addedLeaves : List Span}
    (hasc : (addedLeaves.map Span.start).Pairwise (· < ·)) {rs : List (MsgMwebUtxos δ)}
    (hf : ∀ r ∈ rs, Fits r) (hall : ∀ sp ∈ addedLeaves, ∃ r ∈ rs, r.startIndex.toNat = sp.start) :
    ∃ s, reassemble addedLeaves .start (rs.map .utxos) = .ok (s, .finished) := by
  obtain ⟨s, e, seen, hrun, hS, hD, -, hend⟩ :=
    reassemble_spec hasc rs hf (stashed_start _) (drained_start _)
  rcases hend with ⟨rfl, -⟩ | ⟨-, hseen, hi⟩
  · exact ⟨s, hrun⟩
  -- the span the loop waits for has its answer stashed, yet the inner loop left none there
  have hdrop := List.drop_eq_getElem_cons hi
  obtain ⟨r, hr, hk⟩ := hall _ (List.getElem_mem hi)
  exact absurd (hD _ (by rw [hdrop]; rfl))
    (hS.arrived _ (by rw [hdrop]; exact List.mem_cons_self _ _) r
      (by rw [hseen, List.nil_append]; exact hr) hk)

/-! ## Honest answers -/

variable (H : Hashing δ) (D : Nat → δ) in
/-- What an honest peer answers to the request of the span `sp`, for the leafset `L` and the MMR
of `N` leaves over the ids `D`: the leaves `L` sets from the span's start through its last leaf,
with their ids, and the proof hashes an honest batch supplies for them. -/
def honestResponse (L : Leafset) (N : Nat) (blockHash : δ) (outputFormat : UInt8) (sp : Span) :
    MsgMwebUtxos δ :=
  ⟨blockHash, sp.start.toUInt64, outputFormat,
    honestUtxos D L sp.start ((sp.leaves L).getLastD sp.start),
    walkProofs H D L sp.start ((sp.leaves L).getLastD sp.start) (LeafIdx.nodeIdx N) (mmrPeaks N)⟩

section Honest

variable [DecidableEq δ] {H : Hashing δ} {D : Nat → δ} {mx : UInt16} {oldLeafset L : Leafset}
  {numLeaves N : Nat} {addedLeaves : List Span} {removedLeaves : List Nat}

/-- **An honest answer to a planned span is accepted and bans no one**: against the header of
the committed root, it matches the span's request, passes the verifier, and goes on
`utxosChan` with progress reported, unless the shutdown wins. -/
theorem handleResponse_honestResponse
    (hplan : DiffExact mx oldLeafset L numLeaves addedLeaves removedLeaves)
    (hnum : numLeaves ≤ 2 ^ 64) (hN63 : N < 2 ^ 63) (hnew : L.Clean N) {sp : Span}
    (hsp : sp ∈ addedLeaves) (leafsetRoot blockHash : δ) (outputFormat : UInt8) (quit : Bool)
    (peerAddr : String) :
    (⟨⟨mmrRoot H D N, N.toUInt64, leafsetRoot⟩, L⟩ : MwebUtxosQuery δ).handleResponse H quit
        (sp.request blockHash outputFormat)
        (some (honestResponse H D L N blockHash outputFormat sp)) peerAddr =
      .ok (if quit then ⟨⟨false, false⟩, none, none⟩
        else ⟨⟨true, true⟩, none, some (honestResponse H D L N blockHash outputFormat sp)⟩) := by
  obtain ⟨hfl, -, hl, hleaves⟩ := hplan.leaves_eq_between hnum hsp
  have hcount : sp.count =
      (honestUtxos D L sp.start ((sp.leaves L).getLastD sp.start)).length.toUInt16 := by
    rw [honestUtxos, List.length_map, ← hleaves, Span.leaves, List.length_iterate]
    exact UInt16.toNat.inj (by simp [Nat.toUInt16, UInt16.ofNat, UInt16.toNat, Fin.ofNat])
  have hver := (verifyMwebUtxos_honestUtxos (H := H) (D := D) (mmrRoot H D N) leafsetRoot
    blockHash outputFormat hN63 hfl (hnew.lt hl) (hplan.start_set sp hsp) hl
      (walkProofs H D L sp.start ((sp.leaves L).getLastD sp.start) (LeafIdx.nodeIdx N)
        (mmrPeaks N))).2 ⟨rfl, rebuildRoot_walkProofs⟩
  unfold MwebUtxosQuery.handleResponse honestResponse
  dsimp only
  rw [if_neg (by simp only [Span.request, not_or, not_not, true_and]; exact hcount)]
  simp only [hver]
  cases quit <;> rfl

end Honest

/-- **With honest peers every sync completes, and moves the store to the new leafset's view.**
Against the header of the root of the MMR of `N < 2^63` leaves over the ids `D`, to a new
leafset that sets no leaf at or beyond `N` and is shorter than `2^61` bytes, from any store: the
honest answer to each planned span is accepted and bans no one; on the honest answers, in any
order and with any repeats, the sync completes; and with collision-free digests, from a store
that is the view of a clean leafset, the store it leaves is the new leafset's view. -/
theorem honest_sync_completes [DecidableEq δ] (H : Hashing δ) (D : Nat → δ)
    {maxMwebUtxosPerQuery : UInt16} (hmax : 0 < maxMwebUtxosPerQuery.toNat) (c : CoinStore δ)
    {N : Nat} (hN63 : N < 2 ^ 63) {L : Leafset} (hnew : L.Clean N) (hlen : L.length < 2 ^ 61)
    (leafsetRoot blockHash : δ) (mwebNetUtxoCompact : UInt8) (rs : List (MsgMwebUtxos δ))
    (hrs : ∀ r ∈ rs, ∃ sp ∈ (diffLeafsets maxMwebUtxosPerQuery c.leafset c.numLeaves L
      N.toUInt64).1, r = honestResponse H D L N blockHash mwebNetUtxoCompact sp)
    (hall : ∀ sp ∈ (diffLeafsets maxMwebUtxosPerQuery c.leafset c.numLeaves L N.toUInt64).1,
      honestResponse H D L N blockHash mwebNetUtxoCompact sp ∈ rs) :
    (∀ sp ∈ (diffLeafsets maxMwebUtxosPerQuery c.leafset c.numLeaves L N.toUInt64).1,
      ∀ quit peerAddr,
        (⟨⟨mmrRoot H D N, N.toUInt64, leafsetRoot⟩, L⟩ : MwebUtxosQuery δ).handleResponse H quit
          (sp.request blockHash mwebNetUtxoCompact)
          (some (honestResponse H D L N blockHash mwebNetUtxoCompact sp)) peerAddr =
        .ok (if quit then ⟨⟨false, false⟩, none, none⟩ else
          ⟨⟨true, true⟩, none, some (honestResponse H D L N blockHash mwebNetUtxoCompact sp)⟩)) ∧
    ∃ c', getMwebUtxos maxMwebUtxosPerQuery c ⟨mmrRoot H D N, N.toUInt64, leafsetRoot⟩ L
        (rs.map .utxos) = .ok (c', .finished) ∧
      SyncStep H maxMwebUtxosPerQuery mwebNetUtxoCompact c ⟨mmrRoot H D N, N.toUInt64, leafsetRoot⟩
        L c' .finished ∧
      (H.CollisionFree → c.coins = leafsetCoins D c.leafset c.numLeaves →
        c.leafset.Clean c.numLeaves.toNat → c'.coins = leafsetCoins D L N.toUInt64) := by
  rcases hd : diffLeafsets maxMwebUtxosPerQuery c.leafset c.numLeaves L N.toUInt64 with
    ⟨addedLeaves, removedLeaves⟩
  rw [hd] at hrs hall
  have hNt : N.toUInt64.toNat = N := UInt64.toNat_ofNat_of_lt (show _ < 2 ^ 64 by omega)
  have hplan := diffExact_of_diffLeafsets hd hmax (lt_of_le_of_lt (min_le_right _ _) hlen)
  have h64 : max c.numLeaves.toNat N.toUInt64.toNat < 2 ^ 64 :=
    max_lt c.numLeaves.val.isLt N.toUInt64.val.isLt
  have hacc := fun sp (hsp : sp ∈ addedLeaves) => handleResponse_honestResponse (H := H) (D := D)
    hplan h64.le hN63 hnew hsp leafsetRoot blockHash mwebNetUtxoCompact
  have hdel : ∀ r ∈ rs, ∃ sp ∈ addedLeaves, (⟨⟨mmrRoot H D N, N.toUInt64, leafsetRoot⟩, L⟩ :
      MwebUtxosQuery δ).Delivers H (sp.request blockHash mwebNetUtxoCompact) r := fun r hr => by
    obtain ⟨sp, hsp, rfl⟩ := hrs r hr
    exact ⟨sp, hsp, false, _, "", _, hacc sp hsp false "", rfl⟩
  -- the loop finishes: every span's answer arrives
  obtain ⟨hasc, hlt⟩ := hplan.starts
  have hfits : ∀ r ∈ rs, Fits r := fun r hr => by
    obtain ⟨sp, hsp, hd⟩ := hdel r hr
    exact hd.fits (hplan.count_pos sp hsp) (by have := hlt sp hsp; omega)
  obtain ⟨s, hr⟩ := reassemble_finished_of_arrived hasc hfits fun sp hsp =>
    ⟨_, hall sp hsp, UInt64.toNat_ofNat_of_lt (show _ < 2 ^ 64 by have := hlt sp hsp; omega)⟩
  obtain ⟨c', hrun⟩ : ∃ c', getMwebUtxos maxMwebUtxosPerQuery c
      ⟨mmrRoot H D N, N.toUInt64, leafsetRoot⟩ L (rs.map .utxos) = .ok (c', .finished) := by
    rw [getMwebUtxos_eq ⟨mmrRoot H D N, N.toUInt64, leafsetRoot⟩ hd]
    split_ifs
    · exact ⟨_, rfl⟩
    · rw [hr]
      exact ⟨_, rfl⟩
  have hstep : SyncStep H maxMwebUtxosPerQuery mwebNetUtxoCompact c
      ⟨mmrRoot H D N, N.toUInt64, leafsetRoot⟩ L c' .finished := by
    refine ⟨blockHash, rs.map .utxos, fun ev hev => ?_, hrun⟩
    obtain ⟨r, hr, rfl⟩ := List.mem_map.1 hev
    show ∃ sp ∈ (diffLeafsets maxMwebUtxosPerQuery c.leafset c.numLeaves L N.toUInt64).1, _
    rw [hd]
    exact hdel r hr
  refine ⟨hacc, c', hrun, hstep, fun hH hc hcl => ?_⟩
  exact (hstep.leafsetCoins hmax hH (by rw [hNt]; exact hN63) (by rw [hNt]) hc hcl
    (by rw [hNt]; exact hnew) hlen).1

/-- The two one-leaf spans of the leafset `[0xC0]` from the empty store, answered honestly in the
reverse order. -/
theorem honest_sync_completes_reversed :
    0 < (1 : UInt16).toNat ∧ 2 < 2 ^ 63 ∧ Leafset.Clean [0xC0] 2 ∧
      [(0xC0 : UInt8)].length < 2 ^ 61 ∧
      (∀ r ∈ [honestResponse freeHashing (fun _ => .outputId 5) [0xC0] 2 (.outputId 0) 0 ⟨1, 1⟩,
          honestResponse freeHashing (fun _ => .outputId 5) [0xC0] 2 (.outputId 0) 0 ⟨0, 1⟩],
        ∃ sp ∈ (diffLeafsets 1 (CoinStore.empty : CoinStore FreeDigest).leafset
          (CoinStore.empty : CoinStore FreeDigest).numLeaves [0xC0] (2 : Nat).toUInt64).1,
          r = honestResponse freeHashing (fun _ => .outputId 5) [0xC0] 2 (.outputId 0) 0 sp) ∧
      (∀ sp ∈ (diffLeafsets 1 (CoinStore.empty : CoinStore FreeDigest).leafset
          (CoinStore.empty : CoinStore FreeDigest).numLeaves [0xC0] (2 : Nat).toUInt64).1,
        honestResponse freeHashing (fun _ => .outputId 5) [0xC0] 2 (.outputId 0) 0 sp ∈
          [honestResponse freeHashing (fun _ => .outputId 5) [0xC0] 2 (.outputId 0) 0 ⟨1, 1⟩,
            honestResponse freeHashing (fun _ => .outputId 5) [0xC0] 2 (.outputId 0) 0 ⟨0, 1⟩]) ∧
      (∀ sp ∈ (diffLeafsets 1 (CoinStore.empty : CoinStore FreeDigest).leafset
          (CoinStore.empty : CoinStore FreeDigest).numLeaves [0xC0] (2 : Nat).toUInt64).1,
        ∀ quit peerAddr,
          (⟨⟨mmrRoot freeHashing (fun _ => .outputId 5) 2, (2 : Nat).toUInt64, .outputId 0⟩,
            [0xC0]⟩ : MwebUtxosQuery FreeDigest).handleResponse freeHashing quit
            (sp.request (.outputId 0) 0)
            (some (honestResponse freeHashing (fun _ => .outputId 5) [0xC0] 2 (.outputId 0) 0 sp))
            peerAddr =
          .ok (if quit then ⟨⟨false, false⟩, none, none⟩ else ⟨⟨true, true⟩, none, some
            (honestResponse freeHashing (fun _ => .outputId 5) [0xC0] 2 (.outputId 0) 0 sp)⟩)) ∧
      ∃ c', getMwebUtxos 1 (CoinStore.empty : CoinStore FreeDigest)
          ⟨mmrRoot freeHashing (fun _ => .outputId 5) 2, (2 : Nat).toUInt64, .outputId 0⟩ [0xC0]
          ([honestResponse freeHashing (fun _ => .outputId 5) [0xC0] 2 (.outputId 0) 0 ⟨1, 1⟩,
            honestResponse freeHashing (fun _ => .outputId 5) [0xC0] 2 (.outputId 0) 0
              ⟨0, 1⟩].map .utxos) = .ok (c', .finished) ∧
        SyncStep freeHashing 1 0 CoinStore.empty
          ⟨mmrRoot freeHashing (fun _ => .outputId 5) 2, (2 : Nat).toUInt64, .outputId 0⟩ [0xC0] c'
          .finished ∧
        (freeHashing.CollisionFree →
          (CoinStore.empty : CoinStore FreeDigest).coins = leafsetCoins (fun _ => .outputId 5)
            (CoinStore.empty : CoinStore FreeDigest).leafset
            (CoinStore.empty : CoinStore FreeDigest).numLeaves →
          (CoinStore.empty : CoinStore FreeDigest).leafset.Clean
            (CoinStore.empty : CoinStore FreeDigest).numLeaves.toNat →
          c'.coins = leafsetCoins (fun _ => .outputId 5) [0xC0] (2 : Nat).toUInt64) := by
  have hplan : diffLeafsets 1 (CoinStore.empty : CoinStore FreeDigest).leafset
      (CoinStore.empty : CoinStore FreeDigest).numLeaves [0xC0] (2 : Nat).toUInt64 =
        ([⟨0, 1⟩, ⟨1, 1⟩], []) := by decide
  have hrs : ∀ r ∈ [honestResponse freeHashing (fun _ => .outputId 5) [0xC0] 2 (.outputId 0) 0
        ⟨1, 1⟩, honestResponse freeHashing (fun _ => .outputId 5) [0xC0] 2 (.outputId 0) 0 ⟨0, 1⟩],
      ∃ sp ∈ (diffLeafsets 1 (CoinStore.empty : CoinStore FreeDigest).leafset
        (CoinStore.empty : CoinStore FreeDigest).numLeaves [0xC0] (2 : Nat).toUInt64).1,
        r = honestResponse freeHashing (fun _ => .outputId 5) [0xC0] 2 (.outputId 0) 0 sp := by
    rw [hplan]
    intro r hr
    simp only [List.mem_cons, List.mem_singleton, List.not_mem_nil, or_false] at hr
    rcases hr with rfl | rfl
    · exact ⟨_, List.mem_cons_of_mem _ (List.mem_singleton_self _), rfl⟩
    · exact ⟨_, List.mem_cons_self _ _, rfl⟩
  have hall : ∀ sp ∈ (diffLeafsets 1 (CoinStore.empty : CoinStore FreeDigest).leafset
      (CoinStore.empty : CoinStore FreeDigest).numLeaves [0xC0] (2 : Nat).toUInt64).1,
      honestResponse freeHashing (fun _ => .outputId 5) [0xC0] 2 (.outputId 0) 0 sp ∈
        [honestResponse freeHashing (fun _ => .outputId 5) [0xC0] 2 (.outputId 0) 0 ⟨1, 1⟩,
          honestResponse freeHashing (fun _ => .outputId 5) [0xC0] 2 (.outputId 0) 0 ⟨0, 1⟩] := by
    rw [hplan]
    intro sp hsp
    simp only [List.mem_cons, List.mem_singleton, List.not_mem_nil, or_false] at hsp
    rcases hsp with rfl | rfl
    · exact List.mem_cons_of_mem _ (List.mem_singleton_self _)
    · exact List.mem_cons_self _ _
  exact ⟨by decide, by decide, by decide, by decide, hrs, hall,
    honest_sync_completes freeHashing (fun _ => .outputId 5) (by decide) CoinStore.empty
      (by decide) (by decide) (by decide) (.outputId 0) (.outputId 0) 0 _ hrs hall⟩

end NeutrinoMweb
