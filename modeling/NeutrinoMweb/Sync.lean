import Mathlib.Data.List.Forall2
import Mathlib.Data.List.Nodup
import NeutrinoMweb.AcceptedBatch
import NeutrinoMweb.Differ
import NeutrinoMweb.HonestBatch

/-!
# Fetching the added leaves

The fetch half of `getMwebUtxos`. One `GetMwebUtxos` request is made per planned span;
`handleResponse` checks each response against its request and the new leafset, and sends the
verified ones on `utxosChan`; the coordinator's loop writes them in the order of the spans,
stashing a response that arrives early under its first leaf index.

Modelling choices. Every request of the query is a `MsgGetMwebUtxos`, so the second type
assertion of `handleResponse` always holds and is left out; a response that is not a
`MsgMwebUtxos` is `none`. The closing `select` of `handleResponse` is the flag `quit`, set when
it took `<-m.blockMgr.quit`. The outer loop is read as a fold over what its `select` receives
(`SyncEvent`). `PutCoins` and the subscriber callbacks run one after the other with the same
utxos; each such commit is one entry of `written`.
-/

namespace NeutrinoMweb

variable {δ : Type}

/-! ## Requests and responses -/

/-- `banman.Reason`, serialized as one byte. -/
structure Reason where
  code : UInt8
deriving DecidableEq, Repr

/-- `banman.InvalidMwebUtxos`. -/
def Reason.invalidMwebUtxos : Reason := ⟨21⟩

/-- `wire.MsgGetMwebUtxos`. -/
structure MsgGetMwebUtxos (δ : Type) where
  blockHash : δ
  startIndex : UInt64
  numRequested : UInt16
  outputFormat : UInt8

/-- The request for the span `addLeaf`: `wire.NewMsgGetMwebUtxos(blockHash, addLeaf.start,
addLeaf.count, wire.MwebNetUtxoCompact)`. The format constant belongs to the wire package and
is a parameter. -/
def Span.request (blockHash : δ) (mwebNetUtxoCompact : UInt8) (addLeaf : Span) :
    MsgGetMwebUtxos δ :=
  ⟨blockHash, addLeaf.start.toUInt64, addLeaf.count, mwebNetUtxoCompact⟩

/-- `query.Progress`. -/
structure Progress where
  finished : Bool
  progressed : Bool
deriving DecidableEq, Repr

/-- What a call of `handleResponse` does: the progress it returns, the `BanPeer` call it makes
(peer and reason), and the response it sends on `utxosChan`. -/
structure HandleResult (δ : Type) where
  progress : Progress
  banPeer : Option (String × Reason)
  sent : Option (MsgMwebUtxos δ)

/-- `mwebUtxosQuery`: the header and the new leafset the responses are checked against. -/
structure MwebUtxosQuery (δ : Type) where
  mwebHeader : MwebHeader δ
  leafset : Leafset

/-- `mwebUtxosQuery.handleResponse(req, resp, peerAddr)` on the request `q`. -/
def MwebUtxosQuery.handleResponse [DecidableEq δ] (m : MwebUtxosQuery δ) (H : Hashing δ)
    (quit : Bool) (q : MsgGetMwebUtxos δ) (resp : Option (MsgMwebUtxos δ)) (peerAddr : String) :
    Except GoPanic (HandleResult δ) :=
  match resp with
  | none => pure ⟨⟨false, false⟩, none, none⟩
  | some r =>
    if q.blockHash ≠ r.blockHash ∨ q.startIndex ≠ r.startIndex ∨
        q.outputFormat ≠ r.outputFormat ∨ q.numRequested ≠ r.utxos.length.toUInt16 then
      pure ⟨⟨false, false⟩, none, none⟩
    else do
      let ok ← verifyMwebUtxos H m.mwebHeader m.leafset r
      if !ok then pure ⟨⟨false, false⟩, some (peerAddr, .invalidMwebUtxos), none⟩
      else if quit then pure ⟨⟨false, false⟩, none, none⟩
      else pure ⟨⟨true, true⟩, none, some r⟩

/-- `r` is on `utxosChan` for the request `q`: a call of `handleResponse` on `q` sent it. -/
def MwebUtxosQuery.Delivers [DecidableEq δ] (m : MwebUtxosQuery δ) (H : Hashing δ)
    (q : MsgGetMwebUtxos δ) (r : MsgMwebUtxos δ) : Prop :=
  ∃ quit resp peerAddr res, m.handleResponse H quit q resp peerAddr = .ok res ∧ res.sent = some r

theorem eq_iterate_of_chain {α : Type} {f : α → α} : ∀ {xs : List α} {x : α},
    xs.head? = some x → xs.Chain' (fun i j => j = f i) → xs = List.iterate f x xs.length
  | [], _, h, _ => by simp at h
  | [y], x, h, _ => by simp_all [List.iterate]
  | y :: z :: zs, x, h, hc => by
    simp only [List.head?_cons, Option.some.injEq] at h
    subst h
    cases hc with
    | cons h1 h2 =>
      rw [List.length_cons, List.iterate, ← h1, ← @eq_iterate_of_chain _ f (z :: zs) z rfl h2]

section Handle

variable [DecidableEq δ] {m : MwebUtxosQuery δ} {H : Hashing δ}

/-- **What `handleResponse` sends**: a response goes on `utxosChan` only when it matches the
request in block hash, start index, output format and `uint16` length, the verifier accepts
it, and the shutdown did not win; the call then reports progress and bans no one. -/
theorem handleResponse_sent {quit : Bool} {q : MsgGetMwebUtxos δ}
    {resp : Option (MsgMwebUtxos δ)} {peerAddr : String} {res : HandleResult δ}
    {r : MsgMwebUtxos δ} (h : m.handleResponse H quit q resp peerAddr = .ok res)
    (hs : res.sent = some r) :
    resp = some r ∧ quit = false ∧ q.blockHash = r.blockHash ∧ q.startIndex = r.startIndex ∧
      q.outputFormat = r.outputFormat ∧ q.numRequested = r.utxos.length.toUInt16 ∧
      verifyMwebUtxos H m.mwebHeader m.leafset r = .ok true ∧ res.progress = ⟨true, true⟩ ∧
      res.banPeer = none := by
  rcases resp with _ | r'
  · simp only [MwebUtxosQuery.handleResponse, pure, Except.pure, Except.ok.injEq] at h
    simp [← h] at hs
  simp only [MwebUtxosQuery.handleResponse] at h
  by_cases hm : q.blockHash ≠ r'.blockHash ∨ q.startIndex ≠ r'.startIndex ∨
      q.outputFormat ≠ r'.outputFormat ∨ q.numRequested ≠ r'.utxos.length.toUInt16
  · simp only [if_pos hm, pure, Except.pure, Except.ok.injEq] at h
    simp [← h] at hs
  rw [if_neg hm] at h
  push_neg at hm
  rcases hv : verifyMwebUtxos H m.mwebHeader m.leafset r' with e | ok <;>
    simp only [hv, bind, Except.bind] at h
  · cases h
  rcases ok with _ | _ <;> rcases quit with _ | _ <;>
    simp only [Bool.not_false, Bool.not_true, if_true, if_false, pure, Except.pure,
      Except.ok.injEq, reduceCtorEq] at h <;> subst h <;>
    simp only [Option.some.injEq, reduceCtorEq] at hs
  subst hs
  exact ⟨rfl, rfl, hm.1, hm.2.1, hm.2.2.1, hm.2.2.2, hv, rfl, rfl⟩

/-- A response delivered for a span's request starts at the span's first leaf and reads the
leafset from there by `nextUnspent`, ascending, with as many utxos as the span's count modulo
`2^16`. -/
theorem MwebUtxosQuery.Delivers.leaves {blockHash : δ} {mwebNetUtxoCompact : UInt8} {sp : Span}
    {r : MsgMwebUtxos δ} (hd : m.Delivers H (sp.request blockHash mwebNetUtxoCompact) r)
    (hc : 1 ≤ sp.count.toNat) (hs : sp.start < 2 ^ 64) :
    r.startIndex.toNat = sp.start ∧ r.utxos.length % 2 ^ 16 = sp.count.toNat ∧
      r.utxos.map (fun u => u.leafIndex.toNat) =
        List.iterate m.leafset.nextUnspent sp.start r.utxos.length ∧
      (r.utxos.map fun u => u.leafIndex.toNat).Pairwise (· < ·) := by
  obtain ⟨_, _, _, _, h, hsent⟩ := hd
  obtain ⟨-, -, -, hst, -, hn, hacc, -⟩ := handleResponse_sent h hsent
  have hstart : r.startIndex.toNat = sp.start := by
    rw [← hst]
    simp [Span.request, Nat.toUInt64, UInt64.ofNat, UInt64.toNat, Fin.ofNat]
    omega
  have hlen : r.utxos.length % 2 ^ 16 = sp.count.toNat := by
    rw [show sp.count = _ from hn]
    simp [Nat.toUInt16, UInt16.ofNat, UInt16.toNat, Fin.ofNat]
  have hne : r.utxos ≠ [] := fun h0 => by simp [h0] at hlen; omega
  obtain ⟨⟨last, hW⟩, hsorted, -⟩ := accepted_leafIndices (outputMMRSize_pos_of_accepted hne hacc) hacc
  obtain ⟨hhead, hchain, -, -⟩ := leafWalk_some hW
  refine ⟨hstart, hlen, ?_, hsorted⟩
  rw [← List.length_map r.utxos fun u => u.leafIndex.toNat, ← hstart]
  exact eq_iterate_of_chain hhead hchain

/-- A delivered response's utxos sit at leaves the new leafset sets, below the header's leaf
count. -/
theorem MwebUtxosQuery.Delivers.mem_leafset {q : MsgGetMwebUtxos δ} {r : MsgMwebUtxos δ}
    (hd : m.Delivers H q r) :
    ∀ u ∈ r.utxos, m.leafset.contains u.leafIndex.toNat ∧
      u.leafIndex.toNat < m.mwebHeader.outputMMRSize.toNat := by
  obtain ⟨_, _, _, _, h, hsent⟩ := hd
  obtain ⟨-, -, -, -, -, -, hacc, -⟩ := handleResponse_sent h hsent
  intro u hu
  obtain ⟨⟨last, hW⟩, -, hlt⟩ :=
    accepted_leafIndices (outputMMRSize_pos_of_accepted (List.ne_nil_of_mem hu) hacc) hacc
  exact ⟨(leafWalk_some hW).2.2.1 u hu, hlt u hu⟩

end Handle

/-! ## The reassembly loop -/

/-- The variables of the reassembly loop: the index `i` of the next span to write, the stash
`queryResponses` keyed by the first leaf index of a response, and the utxos of each commit so
far, in order. -/
structure ReassemblyVars (δ : Type) where
  i : Nat
  queryResponses : Nat → Option (MsgMwebUtxos δ)
  written : List (List (MwebNetUtxo δ))

/-- The loop's variables before the first response. -/
def ReassemblyVars.start : ReassemblyVars δ := ⟨0, fun _ => none, []⟩

/-- The inner loop, over the spans from `i` on: while the response for the span at `i` is
stashed, delete it from the stash, commit its utxos and move to the next span. -/
def writeStashed : List Span → ReassemblyVars δ → ReassemblyVars δ
  | [], s => s
  | addLeaf :: rest, s =>
    match s.queryResponses addLeaf.start with
    | none => s
    | some r => writeStashed rest
        ⟨s.i + 1, Function.update s.queryResponses addLeaf.start none, s.written ++ [r.utxos]⟩

/-- The body of the outer loop on a response `r` from `utxosChan`: a response whose last leaf
lies before the span at `i` was written already and is dropped; any other is stashed under its
first leaf index, and the stashed run from `i` on is written. -/
def receiveUtxos (addedLeaves : List Span) (s : ReassemblyVars δ) (r : MsgMwebUtxos δ) :
    Except GoPanic (ReassemblyVars δ) := do
  let startIndex := (← goIndex r.utxos 0).leafIndex
  let lastIndex := (← goLast r.utxos).leafIndex
  let curIndex := (← goIndex addedLeaves s.i).start
  if lastIndex.toNat < curIndex then pure s
  else pure (writeStashed (addedLeaves.drop s.i)
    { s with queryResponses := Function.update s.queryResponses startIndex.toNat (some r) })

/-- What one `select` of the outer loop takes. -/
inductive SyncEvent (δ : Type) where
  /-- `r = <-utxosChan` -/
  | utxos (r : MsgMwebUtxos δ)
  /-- `err := <-errChan` with `err == nil`: the dispatcher has answered every query. -/
  | queryDone
  /-- `err := <-errChan` with an error, `query.ErrWorkManagerShuttingDown` or another. -/
  | queryError
  /-- `<-b.quit` -/
  | quit

/-- How the outer loop stopped: every span written, a `return` on an error or the shutdown, or
still waiting when the events ran out. -/
inductive LoopEnd where
  | finished
  | returned
  | waiting
deriving DecidableEq, Repr

/-- The outer loop `for i := 0; i < len(addedLeaves); { select ... }` over the events it
takes, in order. -/
def reassemble (addedLeaves : List Span) :
    ReassemblyVars δ → List (SyncEvent δ) → Except GoPanic (ReassemblyVars δ × LoopEnd)
  | s, [] => pure (s, if s.i < addedLeaves.length then .waiting else .finished)
  | s, ev :: evs =>
    if s.i < addedLeaves.length then
      match ev with
      | .utxos r => receiveUtxos addedLeaves s r >>= fun s => reassemble addedLeaves s evs
      | .queryDone => reassemble addedLeaves s evs
      | .queryError | .quit => pure (s, .returned)
    else pure (s, .finished)

/-! ## The loop's invariant -/

/-- What the loop reads of a response: a first utxo at `StartIndex`, and a last one no
earlier. -/
def Fits (r : MsgMwebUtxos δ) : Prop :=
  ∃ u v, r.utxos.head? = some u ∧ r.utxos.getLast? = some v ∧
    u.leafIndex.toNat = r.startIndex.toNat ∧ r.startIndex.toNat ≤ v.leafIndex.toNat

/-- A response whose leaf indices step from `StartIndex` and ascend is read by the loop as it
should be. -/
theorem fits_of_leaves {r : MsgMwebUtxos δ} {f : Nat → Nat}
    (hl : r.utxos.map (fun u => u.leafIndex.toNat) =
      List.iterate f r.startIndex.toNat r.utxos.length)
    (hasc : (r.utxos.map fun u => u.leafIndex.toNat).Pairwise (· < ·)) (hne : r.utxos ≠ []) :
    Fits r := by
  obtain ⟨u, rest, hu⟩ := List.exists_cons_of_ne_nil hne
  rw [hu] at hl hasc
  simp only [List.map_cons, List.length_cons, List.iterate, List.cons.injEq] at hl
  refine ⟨u, (u :: rest).getLast (List.cons_ne_nil _ _), by rw [hu]; rfl,
    by rw [hu, List.getLast?_eq_getLast], hl.1, ?_⟩
  rw [← hl.1]
  rcases List.mem_cons.1 (List.getLast_mem (List.cons_ne_nil u rest)) with h | h
  · rw [h]
  · exact le_of_lt (List.rel_of_pairwise_cons (List.pairwise_map.1 hasc) h)

theorem MwebUtxosQuery.Delivers.fits [DecidableEq δ] {m : MwebUtxosQuery δ} {H : Hashing δ}
    {blockHash : δ} {mwebNetUtxoCompact : UInt8} {sp : Span} {r : MsgMwebUtxos δ}
    (hd : m.Delivers H (sp.request blockHash mwebNetUtxoCompact) r) (hc : 1 ≤ sp.count.toNat)
    (hs : sp.start < 2 ^ 64) : Fits r := by
  obtain ⟨hst, hlen, hl, hsorted⟩ := hd.leaves hc hs
  refine fits_of_leaves (hst ▸ hl) hsorted fun h0 => ?_
  simp [h0] at hlen
  omega

/-- After the responses `seen`: the spans before `i` are committed in order, each with the
utxos of a response in `seen` that starts at it; a stashed response at a later span's start is
in `seen` and starts there; and every response in `seen` that starts at a later span is
stashed. -/
structure Stashed (addedLeaves : List Span) (seen : List (MsgMwebUtxos δ))
    (s : ReassemblyVars δ) : Prop where
  i_le : s.i ≤ addedLeaves.length
  written : List.Forall₂ (fun sp w => ∃ r ∈ seen, r.startIndex.toNat = sp.start ∧ w = r.utxos)
    (addedLeaves.take s.i) s.written
  stashed : ∀ sp ∈ addedLeaves.drop s.i, ∀ r, s.queryResponses sp.start = some r →
    r ∈ seen ∧ r.startIndex.toNat = sp.start
  arrived : ∀ sp ∈ addedLeaves.drop s.i, ∀ r ∈ seen, r.startIndex.toNat = sp.start →
    s.queryResponses sp.start ≠ none

/-- The span at `i`, if any, has no stashed response: the inner loop ran to its end. -/
def Drained (addedLeaves : List Span) (s : ReassemblyVars δ) : Prop :=
  ∀ sp ∈ (addedLeaves.drop s.i).head?, s.queryResponses sp.start = none

theorem stashed_start (addedLeaves : List Span) :
    Stashed addedLeaves [] (ReassemblyVars.start : ReassemblyVars δ) :=
  ⟨Nat.zero_le _, by simp [ReassemblyVars.start], by simp [ReassemblyVars.start],
    by simp [ReassemblyVars.start]⟩

theorem drained_start (addedLeaves : List Span) :
    Drained addedLeaves (ReassemblyVars.start : ReassemblyVars δ) := by
  simp [Drained, ReassemblyVars.start]

section Loop

variable {addedLeaves : List Span} (hasc : (addedLeaves.map Span.start).Pairwise (· < ·))
  {seen : List (MsgMwebUtxos δ)} {s : ReassemblyVars δ}

include hasc in
theorem start_lt_of_drop_eq {i : Nat} {sp : Span} {rest : List Span}
    (h : addedLeaves.drop i = sp :: rest) : ∀ sp' ∈ rest, sp.start < sp'.start := by
  have := hasc.sublist ((List.drop_sublist i addedLeaves).map Span.start)
  rw [h, List.map_cons, List.pairwise_cons] at this
  exact fun sp' hsp' => this.1 _ (List.mem_map_of_mem _ hsp')

/-- A response that starts at no span from `i` on changes nothing the invariant says. -/
theorem Stashed.append_of_not_arrived (hS : Stashed addedLeaves seen s) {r : MsgMwebUtxos δ}
    (hr : ∀ sp ∈ addedLeaves.drop s.i, r.startIndex.toNat ≠ sp.start) :
    Stashed addedLeaves (seen ++ [r]) s where
  i_le := hS.i_le
  written := hS.written.imp fun _ _ ⟨r', hr', h⟩ => ⟨r', List.mem_append_left _ hr', h⟩
  stashed sp hsp r' h := ⟨List.mem_append_left _ (hS.stashed sp hsp r' h).1,
    (hS.stashed sp hsp r' h).2⟩
  arrived sp hsp r' hr' h := by
    rcases List.mem_append.1 hr' with hr' | hr'
    · exact hS.arrived sp hsp r' hr' h
    · rw [List.mem_singleton.1 hr'] at h
      exact absurd h (hr sp hsp)

/-- Stashing a response under its start index. -/
theorem Stashed.stash (hS : Stashed addedLeaves seen s) (r : MsgMwebUtxos δ) :
    Stashed addedLeaves (seen ++ [r])
      { s with queryResponses := Function.update s.queryResponses r.startIndex.toNat (some r) } where
  i_le := hS.i_le
  written := hS.written.imp fun _ _ ⟨r', hr', h⟩ => ⟨r', List.mem_append_left _ hr', h⟩
  stashed sp hsp r' h := by
    dsimp only at h
    by_cases hk : sp.start = r.startIndex.toNat
    · rw [hk, Function.update_same, Option.some.injEq] at h
      subst h
      exact ⟨List.mem_append_right _ (List.mem_singleton_self _), hk.symm⟩
    · rw [Function.update_noteq hk] at h
      exact ⟨List.mem_append_left _ (hS.stashed sp hsp r' h).1, (hS.stashed sp hsp r' h).2⟩
  arrived sp hsp r' hr' h := by
    dsimp only
    by_cases hk : sp.start = r.startIndex.toNat
    · rw [hk, Function.update_same]
      exact Option.some_ne_none r
    · rw [Function.update_noteq hk]
      rcases List.mem_append.1 hr' with hr' | hr'
      · exact hS.arrived sp hsp r' hr' h
      · rw [List.mem_singleton.1 hr'] at h
        exact absurd h.symm hk

include hasc in
/-- Committing the stashed response of the span at `i`. -/
theorem Stashed.commit (hS : Stashed addedLeaves seen s) {sp : Span} {rest : List Span}
    (hl : addedLeaves.drop s.i = sp :: rest) {r : MsgMwebUtxos δ}
    (hq : s.queryResponses sp.start = some r) :
    Stashed addedLeaves seen
      ⟨s.i + 1, Function.update s.queryResponses sp.start none, s.written ++ [r.utxos]⟩ where
  i_le := by
    have := congrArg List.length hl
    rw [List.length_drop, List.length_cons] at this
    exact Nat.succ_le_of_lt (by omega)
  written := by
    have hsp : addedLeaves[s.i]? = some sp := by rw [← List.head?_drop, hl, List.head?_cons]
    rw [List.take_succ, hsp, Option.toList_some]
    exact List.rel_append hS.written
      (.cons ⟨r, hS.stashed sp (by rw [hl]; exact List.mem_cons_self _ _) r hq |>.1,
        (hS.stashed sp (by rw [hl]; exact List.mem_cons_self _ _) r hq).2, rfl⟩ .nil)
  stashed sp' hsp' r' h := by
    dsimp only at hsp' h
    rw [← List.tail_drop, hl, List.tail_cons] at hsp'
    rw [Function.update_noteq (Nat.ne_of_gt (start_lt_of_drop_eq hasc hl sp' hsp'))] at h
    exact hS.stashed sp' (by rw [hl]; exact List.mem_cons_of_mem _ hsp') r' h
  arrived sp' hsp' r' hr' h := by
    dsimp only at hsp' ⊢
    rw [← List.tail_drop, hl, List.tail_cons] at hsp'
    rw [Function.update_noteq (Nat.ne_of_gt (start_lt_of_drop_eq hasc hl sp' hsp'))]
    exact hS.arrived sp' (by rw [hl]; exact List.mem_cons_of_mem _ hsp') r' hr' h

include hasc in
/-- **The inner loop commits the stashed run** from the span at `i`, and stops at the first
span with no stashed response. -/
theorem writeStashed_spec : ∀ (l : List Span) {s : ReassemblyVars δ}, addedLeaves.drop s.i = l →
    Stashed addedLeaves seen s →
      Stashed addedLeaves seen (writeStashed l s) ∧ Drained addedLeaves (writeStashed l s)
  | [], s, hl, hS => ⟨hS, fun sp hsp => by simp [writeStashed, hl] at hsp⟩
  | sp :: rest, s, hl, hS => by
    rw [writeStashed]
    rcases hq : s.queryResponses sp.start with _ | r
    · refine ⟨hS, fun sp' hsp' => ?_⟩
      rw [hl, List.head?_cons] at hsp'
      obtain rfl := Option.mem_some_iff.1 hsp'
      exact hq
    · exact writeStashed_spec rest (by rw [← List.tail_drop, hl, List.tail_cons])
        (hS.commit hasc hl hq)

theorem receiveUtxos_eq {r : MsgMwebUtxos δ} {u v : MwebNetUtxo δ}
    (hu : r.utxos.head? = some u) (hv : r.utxos.getLast? = some v)
    (hi : s.i < addedLeaves.length) :
    receiveUtxos addedLeaves s r =
      .ok (if v.leafIndex.toNat < addedLeaves[s.i].start then s
        else writeStashed (addedLeaves.drop s.i)
          { s with queryResponses := Function.update s.queryResponses u.leafIndex.toNat (some r) }) := by
  rw [List.head?_eq_getElem?] at hu
  simp only [receiveUtxos, goIndex, hu, goLast, hv, List.getElem?_eq_getElem hi, bind,
    Except.bind, pure, Except.pure]
  split_ifs <;> rfl

include hasc in
/-- **One response**: the loop's invariant holds again with the response added to those seen. -/
theorem receiveUtxos_spec (hS : Stashed addedLeaves seen s) (hD : Drained addedLeaves s)
    (hi : s.i < addedLeaves.length) {r : MsgMwebUtxos δ} (hf : Fits r) :
    ∃ s', receiveUtxos addedLeaves s r = .ok s' ∧ Stashed addedLeaves (seen ++ [r]) s' ∧
      Drained addedLeaves s' := by
  obtain ⟨u, v, hu, hv, hu0, hv0⟩ := hf
  rw [receiveUtxos_eq hu hv hi]
  split_ifs with hlt
  · refine ⟨s, rfl, hS.append_of_not_arrived fun sp hsp hk => ?_, hD⟩
    rw [List.drop_eq_getElem_cons hi] at hsp
    rcases List.mem_cons.1 hsp with rfl | hsp
    · omega
    · have := start_lt_of_drop_eq hasc (List.drop_eq_getElem_cons hi) sp hsp
      omega
  · rw [hu0]
    exact ⟨_, rfl, writeStashed_spec hasc _ rfl (hS.stash r)⟩

include hasc in
/-- **A run over responses** keeps the invariant. It ends having written every span, or, with
spans left to write, having taken every response. -/
theorem reassemble_spec : ∀ (rs : List (MsgMwebUtxos δ)) {s : ReassemblyVars δ}
    {seen : List (MsgMwebUtxos δ)}, (∀ r ∈ rs, Fits r) → Stashed addedLeaves seen s →
      Drained addedLeaves s →
      ∃ s' e seen', reassemble addedLeaves s (rs.map .utxos) = .ok (s', e) ∧
        Stashed addedLeaves seen' s' ∧ Drained addedLeaves s' ∧ seen' ⊆ seen ++ rs ∧
        (e = .finished ∧ s'.i = addedLeaves.length ∨
          e = .waiting ∧ seen' = seen ++ rs ∧ s'.i < addedLeaves.length)
  | [], s, seen, _, hS, hD => by
    refine ⟨s, _, seen, rfl, hS, hD, by simp, ?_⟩
    by_cases hi : s.i < addedLeaves.length
    · exact .inr ⟨if_pos hi, by simp, hi⟩
    · exact .inl ⟨if_neg hi, by have := hS.i_le; omega⟩
  | r :: rs, s, seen, hf, hS, hD => by
    simp only [List.map_cons, reassemble]
    split_ifs with hi
    · obtain ⟨s₁, h₁, hS₁, hD₁⟩ := receiveUtxos_spec hasc hS hD hi (hf r (List.mem_cons_self _ _))
      obtain ⟨s', e, seen', h, hS', hD', hsub, hend⟩ :=
        reassemble_spec rs (fun r' hr' => hf r' (List.mem_cons_of_mem _ hr')) hS₁ hD₁
      rw [List.append_assoc, List.singleton_append] at hsub hend
      exact ⟨s', e, seen', by rw [h₁]; exact h, hS', hD', hsub, hend⟩
    · exact ⟨s, .finished, seen, rfl, hS, hD, List.subset_append_left _ _,
        .inl ⟨rfl, by have := hS.i_le; omega⟩⟩

end Loop

/-! ## Honest responses -/

/-- A one-span plan is finished by a response that starts at the span: the loop writes it,
alone. -/
theorem reassemble_singleton {sp : Span} {r : MsgMwebUtxos δ} {u v : MwebNetUtxo δ}
    (hu : r.utxos.head? = some u) (hv : r.utxos.getLast? = some v)
    (hu0 : u.leafIndex.toNat = sp.start) (hv0 : sp.start ≤ v.leafIndex.toNat) :
    ∃ s, reassemble [sp] .start [.utxos r] = .ok (s, .finished) ∧ s.written = [r.utxos] := by
  have hi : (ReassemblyVars.start : ReassemblyVars δ).i < [sp].length := Nat.zero_lt_one
  exact ⟨_, by
    rw [reassemble, if_pos hi, receiveUtxos_eq hu hv hi, hu0]
    simp only [ReassemblyVars.start, List.getElem_cons_zero, if_neg (Nat.not_lt.2 hv0),
      List.drop_zero, writeStashed, Function.update_same]
    rfl, rfl⟩

/-- **The honest batch is delivered**: the batch of the leaves set in `L` from a span's start to
a set leaf `last < N`, carrying the ids `D`, with the honest proof hashes, passes
`handleResponse` on the span's request against the header of the committed root, when its
length cut to `uint16` is the span's count. -/
theorem honestResponse_delivered [DecidableEq δ] {H : Hashing δ} {D : Nat → δ} {L : Leafset}
    {N last : Nat} {sp : Span} (leafsetRoot blockHash : δ) (outputFormat : UInt8)
    (hN63 : N < 2 ^ 63) (hfl : sp.start ≤ last) (hlN : last < N) (hs : L.contains sp.start)
    (hl : L.contains last) (hcount : sp.count = (honestUtxos D L sp.start last).length.toUInt16) :
    (⟨⟨mmrRoot H D N, N.toUInt64, leafsetRoot⟩, L⟩ : MwebUtxosQuery δ).Delivers H
      (sp.request blockHash outputFormat) ⟨blockHash, sp.start.toUInt64, outputFormat,
        honestUtxos D L sp.start last,
        walkProofs H D L sp.start last (LeafIdx.nodeIdx N) (mmrPeaks N)⟩ := by
  have hver := (verifyMwebUtxos_honestUtxos (H := H) (D := D) (mmrRoot H D N) leafsetRoot
    blockHash outputFormat hN63 hfl hlN hs hl
      (walkProofs H D L sp.start last (LeafIdx.nodeIdx N) (mmrPeaks N))).2
        ⟨rfl, rebuildRoot_walkProofs⟩
  generalize hr : (⟨blockHash, sp.start.toUInt64, outputFormat, honestUtxos D L sp.start last,
    walkProofs H D L sp.start last (LeafIdx.nodeIdx N) (mmrPeaks N)⟩ : MsgMwebUtxos δ) = r at hver
  refine ⟨false, some r, "", ⟨⟨true, true⟩, none, some r⟩, ?_, rfl⟩
  unfold MwebUtxosQuery.handleResponse
  dsimp only
  rw [if_neg (by simp only [Span.request, not_or, not_not, ← hr, true_and]; exact hcount)]
  simp only [hver]
  rfl

/-! ## Commits in span order -/

/-- The plan's spans start where their leaves start: in ascending order, below the leaf
count. -/
theorem DiffExact.starts {mx : UInt16} {oldLeafset newLeafset : Leafset} {numLeaves : Nat}
    {addedLeaves : List Span} {removedLeaves : List Nat}
    (hplan : DiffExact mx oldLeafset newLeafset numLeaves addedLeaves removedLeaves) :
    (addedLeaves.map Span.start).Pairwise (· < ·) ∧ ∀ sp ∈ addedLeaves, sp.start < numLeaves := by
  have hmem : ∀ sp ∈ addedLeaves, sp.start ∈ sp.leaves newLeafset := fun sp hsp => by
    obtain ⟨c, hc⟩ : ∃ c, sp.count.toNat = c + 1 :=
      ⟨_, (Nat.succ_pred_eq_of_pos (hplan.count_pos sp hsp)).symm⟩
    rw [Span.leaves, hc, List.iterate]
    exact List.mem_cons_self _ _
  refine ⟨List.pairwise_map.2 ((List.pairwise_flatMap.1 hplan.ascending).2.imp_of_mem
    fun ha hb h => h _ (hmem _ ha) _ (hmem _ hb)), fun sp hsp => ?_⟩
  have := hplan.covered ▸ List.mem_flatMap.2 ⟨sp, hsp, hmem sp hsp⟩
  exact List.mem_range.1 (List.mem_filter.1 this).1

/-- What the loop has done with the responses `rs` when it stops in the state `s` with `e`.
The spans before `k`, the number of commits, are committed in order: span `j` with the utxos
of a response in `rs` delivered for it, which start at the span's first leaf and step through
the leafset by `nextUnspent`, as many as the span's count modulo `2^16`. No response in `rs` is
for span `k`. The loop finished exactly when every span got a response. -/
structure CommitsInOrder [DecidableEq δ] (m : MwebUtxosQuery δ) (H : Hashing δ)
    (blockHash : δ) (mwebNetUtxoCompact : UInt8) (addedLeaves : List Span)
    (rs : List (MsgMwebUtxos δ)) (s : ReassemblyVars δ) (e : LoopEnd) : Prop where
  written : List.Forall₂ (fun sp w => ∃ r ∈ rs,
      m.Delivers H (sp.request blockHash mwebNetUtxoCompact) r ∧ w = r.utxos ∧
      w.map (fun u => u.leafIndex.toNat) = List.iterate m.leafset.nextUnspent sp.start w.length ∧
      w.length % 2 ^ 16 = sp.count.toNat)
    (addedLeaves.take s.written.length) s.written
  next_missing : ∀ sp ∈ addedLeaves[s.written.length]?, ∀ r ∈ rs,
    ¬m.Delivers H (sp.request blockHash mwebNetUtxoCompact) r
  finished_iff : e = .finished ↔
    ∀ sp ∈ addedLeaves, ∃ r ∈ rs, m.Delivers H (sp.request blockHash mwebNetUtxoCompact) r

/-- **The loop commits the planned spans in order, each once**, whatever the order in which
the responses delivered for them arrive and however often each is repeated: it commits the
longest prefix of spans that all got a response, and no other commit. -/
theorem reassemble_commits_in_order [DecidableEq δ] (m : MwebUtxosQuery δ) (H : Hashing δ)
    (blockHash : δ) (mwebNetUtxoCompact : UInt8) {maxMwebUtxosPerQuery : UInt16}
    {oldLeafset : Leafset} {numLeaves : Nat} {addedLeaves : List Span} {removedLeaves : List Nat}
    (hplan : DiffExact maxMwebUtxosPerQuery oldLeafset m.leafset numLeaves addedLeaves
      removedLeaves)
    (hnum : numLeaves ≤ 2 ^ 64) (rs : List (MsgMwebUtxos δ))
    (hrs : ∀ r ∈ rs, ∃ sp ∈ addedLeaves, m.Delivers H (sp.request blockHash mwebNetUtxoCompact) r) :
    ∃ s e, reassemble addedLeaves .start (rs.map .utxos) = .ok (s, e) ∧
      CommitsInOrder m H blockHash mwebNetUtxoCompact addedLeaves rs s e := by
  obtain ⟨hasc, hlt⟩ := hplan.starts
  have hleaves : ∀ sp ∈ addedLeaves, ∀ r,
      m.Delivers H (sp.request blockHash mwebNetUtxoCompact) r → _ := fun sp hsp r hd =>
    hd.leaves (hplan.count_pos sp hsp) (by have := hlt sp hsp; omega)
  -- a response in `rs` that starts at a span was delivered for it
  have hkey : ∀ r ∈ rs, ∀ sp ∈ addedLeaves, r.startIndex.toNat = sp.start →
      m.Delivers H (sp.request blockHash mwebNetUtxoCompact) r := fun r hr sp hsp hk => by
    obtain ⟨sp', hsp', hd⟩ := hrs r hr
    obtain rfl : sp' = sp := List.inj_on_of_nodup_map (hasc.imp Nat.ne_of_lt) hsp' hsp
      ((hleaves sp' hsp' r hd).1.symm.trans hk)
    exact hd
  have hfits : ∀ r ∈ rs, Fits r := fun r hr => by
    obtain ⟨sp, hsp, hd⟩ := hrs r hr
    exact hd.fits (hplan.count_pos sp hsp) (by have := hlt sp hsp; omega)
  obtain ⟨s, e, seen, hrun, hS, hD, hsub, hend⟩ :=
    reassemble_spec hasc rs hfits (stashed_start _) (drained_start _)
  rw [List.nil_append] at hsub hend
  have hlen : s.written.length = s.i := by
    rw [← hS.written.length_eq, List.length_take, min_eq_left hS.i_le]
  have hnext : ∀ sp ∈ addedLeaves[s.i]?, ∀ r ∈ rs,
      ¬m.Delivers H (sp.request blockHash mwebNetUtxoCompact) r := fun sp hsp r hr hd => by
    rcases hend with ⟨-, hi⟩ | ⟨-, rfl, -⟩
    · rw [hi, List.getElem?_eq_none le_rfl] at hsp
      cases hsp
    rw [← List.head?_drop] at hsp
    have hsp' := List.mem_of_mem_head? hsp
    exact hS.arrived sp hsp' r hr
      (hleaves sp (List.mem_of_mem_drop hsp') r hd).1 (hD sp hsp)
  refine ⟨s, e, hrun, ⟨?_, hlen ▸ hnext, ⟨fun hfin => fun sp hsp => ?_, fun hall => ?_⟩⟩⟩
  · rw [hlen]
    refine ((List.forall₂_and_left _ _).2 ⟨fun sp hsp => List.mem_of_mem_take hsp, hS.written⟩).imp
      fun sp w ⟨hsp, r, hr, hk, hw⟩ => ?_
    have hd := hkey r (hsub hr) sp hsp hk
    obtain ⟨-, hlen, hl, -⟩ := hleaves sp hsp r hd
    exact ⟨r, hsub hr, hd, hw, hw ▸ hl, hw ▸ hlen⟩
  · have hi : s.i = addedLeaves.length := by
      rcases hend with ⟨-, hi⟩ | ⟨he, -⟩
      · exact hi
      · rw [hfin] at he
        cases he
    have hF := hS.written
    rw [hi, List.take_length] at hF
    obtain ⟨j, rfl⟩ := List.mem_iff_get.1 hsp
    obtain ⟨r, hr, hk, -⟩ := hF.get j.2 (hF.length_eq ▸ j.2)
    exact ⟨r, hsub hr, hkey r (hsub hr) _ hsp hk⟩
  · rcases hend with ⟨he, -⟩ | ⟨-, -, hi⟩
    · exact he
    obtain ⟨r, hr, hd⟩ := hall _ (List.getElem_mem hi)
    exact absurd hd (hnext _ (List.getElem?_eq_getElem hi) r hr)

/-- The query against the MMR of five leaves over `freeIds` and the leafset `[0xD8]`. -/
def fiveLeafQuery : MwebUtxosQuery FreeDigest :=
  ⟨⟨mmrRoot freeHashing freeIds 5, (5 : Nat).toUInt64, .outputId 0⟩, [0xD8]⟩

/-- The honest response over `fiveLeafQuery` for the set leaves from `first` to `last`. -/
def fiveLeafResponse (first last : Nat) : MsgMwebUtxos FreeDigest :=
  ⟨.outputId 0, first.toUInt64, 0, honestUtxos freeIds [0xD8] first last,
    walkProofs freeHashing freeIds [0xD8] first last (LeafIdx.nodeIdx 5) (mmrPeaks 5)⟩

/-- From `[0xA0]` to `[0xD8]` the plan is the spans of leaf `1` and of leaves `3`, `4`. The
second span's answer arrives first, and twice, then the first's: both spans are committed, in
order, once each. -/
theorem reassemble_commits_in_order_out_of_order :
    DiffExact 4096 [0xA0] [0xD8] 5 [⟨1, 1⟩, ⟨3, 2⟩] [2] ∧ 5 ≤ 2 ^ 64 ∧
      (∀ r ∈ [fiveLeafResponse 3 4, fiveLeafResponse 3 4, fiveLeafResponse 1 1],
        ∃ sp ∈ [(⟨1, 1⟩ : Span), ⟨3, 2⟩],
          fiveLeafQuery.Delivers freeHashing (sp.request (.outputId 0) 0) r) ∧
      ∃ s e, reassemble [⟨1, 1⟩, ⟨3, 2⟩] .start
          ([fiveLeafResponse 3 4, fiveLeafResponse 3 4, fiveLeafResponse 1 1].map .utxos) =
          .ok (s, e) ∧
        CommitsInOrder fiveLeafQuery freeHashing (.outputId 0) 0 [⟨1, 1⟩, ⟨3, 2⟩]
          [fiveLeafResponse 3 4, fiveLeafResponse 3 4, fiveLeafResponse 1 1] s e := by
  have hplan : DiffExact 4096 [0xA0] [0xD8] 5 [⟨1, 1⟩, ⟨3, 2⟩] [2] :=
    ⟨by decide, by decide, by decide, by decide, by decide, by decide, by decide⟩
  have h₁ : fiveLeafQuery.Delivers freeHashing ((⟨1, 1⟩ : Span).request (.outputId 0) 0)
      (fiveLeafResponse 1 1) :=
    honestResponse_delivered (FreeDigest.outputId 0) (.outputId 0) 0 (by decide) le_rfl (by decide)
      (by decide) (by decide) (by decide)
  have h₂ : fiveLeafQuery.Delivers freeHashing ((⟨3, 2⟩ : Span).request (.outputId 0) 0)
      (fiveLeafResponse 3 4) :=
    honestResponse_delivered (FreeDigest.outputId 0) (.outputId 0) 0 (by decide) (by decide)
      (by decide) (by decide) (by decide) (by decide)
  have hrs : ∀ r ∈ [fiveLeafResponse 3 4, fiveLeafResponse 3 4, fiveLeafResponse 1 1],
      ∃ sp ∈ [(⟨1, 1⟩ : Span), ⟨3, 2⟩],
        fiveLeafQuery.Delivers freeHashing (sp.request (.outputId 0) 0) r := fun r hr => by
    simp only [List.mem_cons, List.mem_singleton, List.not_mem_nil, or_false] at hr
    rcases hr with rfl | rfl | rfl
    exacts [⟨_, List.mem_cons_of_mem _ (List.mem_singleton_self _), h₂⟩,
      ⟨_, List.mem_cons_of_mem _ (List.mem_singleton_self _), h₂⟩, ⟨_, List.mem_cons_self _ _, h₁⟩]
  exact ⟨hplan, by decide, hrs, reassemble_commits_in_order _ freeHashing (.outputId 0) 0 hplan
    (by decide) _ hrs⟩

/-! ## A response of `2^16` utxos more than requested

`handleResponse` matches `NumRequested` against the response's length cut to `uint16`, so a
response with `2^16` utxos more than its request asked for passes the match. Below, the new
leafset adds leaf `0` in front of `2^16` leaves set already: every exact plan is the one span of
leaf `0`, and the batch of all `2^16 + 1` set leaves from `0`, with the honest proof hashes, is
delivered for that span's request and committed as the span's utxos. -/

/-- A plan whose leaves are one added leaf is the one-leaf span of that leaf. -/
theorem DiffExact.eq_singleton {mx : UInt16} {oldLeafset newLeafset : Leafset}
    {numLeaves a : Nat} {addedLeaves : List Span} {removedLeaves : List Nat}
    (hplan : DiffExact mx oldLeafset newLeafset numLeaves addedLeaves removedLeaves)
    (ha : ((List.range numLeaves).filter fun j => newLeafset.contains j && !oldLeafset.contains j) =
      [a]) :
    addedLeaves = [⟨a, 1⟩] := by
  have hc := hplan.covered.trans ha
  rcases addedLeaves with _ | ⟨⟨start, count⟩, rest⟩
  · cases hc
  obtain ⟨c, hcount⟩ : ∃ c, count.toNat = c + 1 :=
    ⟨_, (Nat.succ_pred_eq_of_pos (hplan.count_pos _ (List.mem_cons_self _ _))).symm⟩
  rw [List.flatMap_cons, Span.leaves, hcount, List.iterate, List.cons_append, List.cons.injEq,
    List.append_eq_nil] at hc
  obtain ⟨rfl, hit, hrest⟩ := hc
  have hc0 : c = 0 := by
    rcases c with _ | c
    · rfl
    · cases hit
  have hr : rest = [] := List.eq_nil_iff_forall_not_mem.2 fun sp hsp => by
    obtain ⟨k, hk⟩ : ∃ k, sp.count.toNat = k + 1 :=
      ⟨_, (Nat.succ_pred_eq_of_pos (hplan.count_pos sp (List.mem_cons_of_mem _ hsp))).symm⟩
    have := List.flatMap_eq_nil_iff.1 hrest sp hsp
    rw [Span.leaves, hk, List.iterate] at this
    cases this
  subst hr hc0
  rw [UInt16.toNat.inj (b := 1) hcount]

/-- Leaves `1` to `2^16` set. -/
def overlongOld : Leafset := 0x7F :: (List.replicate 8191 0xFF ++ [0x80])

/-- Leaves `0` to `2^16` set. -/
def overlongNew : Leafset := 0xFF :: (List.replicate 8191 0xFF ++ [0x80])

theorem Leafset.contains_cons_of_lt (b : UInt8) (l : Leafset) {i : Nat} (hi : i < 8) :
    Leafset.contains (b :: l) i = decide ((b &&& ((0x80 : UInt8) >>> i.toUInt8)) > 0) := by
  rw [Leafset.contains, Nat.div_eq_of_lt hi, Nat.mod_eq_of_lt hi, List.getElem?_cons_zero]

theorem Leafset.contains_cons_add (b : UInt8) (l : Leafset) (i : Nat) :
    Leafset.contains (b :: l) (i + 8) = l.contains i := by
  simp only [Leafset.contains, Nat.add_div_right i (by decide : 0 < 8), Nat.add_mod_right,
    List.getElem?_cons_succ]

/-- Full bytes and then `0x80` set every leaf up to the first one of the last byte. -/
theorem Leafset.contains_replicate_full {n i : Nat} (hi : i ≤ 8 * n) :
    Leafset.contains (List.replicate n 0xFF ++ [0x80]) i = true := by
  rcases Nat.lt_or_ge i (8 * n) with h | h
  · rw [Leafset.contains, List.getElem?_append_left (by rw [List.length_replicate]; omega),
      List.getElem?_replicate, if_pos (by omega)]
    have hk : i % 8 < 8 := Nat.mod_lt _ (by decide)
    generalize i % 8 = k at hk ⊢
    revert k
    decide
  · rw [show i = 8 * n by omega, Leafset.contains, Nat.mul_div_cancel_left n (by decide : 0 < 8),
      Nat.mul_mod_right, List.getElem?_append_right (List.length_replicate n _).le,
      List.length_replicate, Nat.sub_self]
    rfl

theorem overlongNew_contains {i : Nat} (hi : i ≤ 65536) : overlongNew.contains i = true := by
  rcases Nat.lt_or_ge i 8 with h | h
  · rw [overlongNew, Leafset.contains_cons_of_lt _ _ h]
    clear hi
    revert i
    decide
  · obtain ⟨j, rfl⟩ : ∃ j, i = j + 8 := ⟨i - 8, by omega⟩
    rw [overlongNew, Leafset.contains_cons_add]
    exact Leafset.contains_replicate_full (by omega)

theorem overlongOld_contains {i : Nat} (hi : i ≤ 65536) :
    overlongOld.contains i = decide (i ≠ 0) := by
  rcases Nat.lt_or_ge i 8 with h | h
  · rw [overlongOld, Leafset.contains_cons_of_lt _ _ h]
    clear hi
    revert i
    decide
  · obtain ⟨j, rfl⟩ : ∃ j, i = j + 8 := ⟨i - 8, by omega⟩
    rw [overlongOld, Leafset.contains_cons_add, Leafset.contains_replicate_full (by omega)]
    simp

/-- The new leafset adds leaf `0` and no other. -/
theorem overlong_added :
    ((List.range 65537).filter fun j => overlongNew.contains j && !overlongOld.contains j) = [0] := by
  rw [List.range_succ_eq_map, List.filter_cons_of_pos (by
      rw [overlongNew_contains (show 0 ≤ 65536 by decide),
        overlongOld_contains (show 0 ≤ 65536 by decide)]
      rfl),
    List.filter_eq_nil_iff.2]
  intro a ha
  obtain ⟨j, hj, rfl⟩ := List.mem_map.1 ha
  rw [overlongOld_contains (show j.succ ≤ 65536 by have := List.mem_range.1 hj; omega)]
  simp

theorem overlong_removed :
    ((List.range 65537).filter fun j => overlongOld.contains j && !overlongNew.contains j) = [] :=
  List.filter_eq_nil_iff.2 fun j hj => by
    rw [overlongNew_contains (show j ≤ 65536 by have := List.mem_range.1 hj; omega)]
    simp

/-- The one span of leaf `0` is an exact plan for the two leafsets, under any positive cap. -/
theorem overlong_plan {maxMwebUtxosPerQuery : UInt16} (hmax : 1 ≤ maxMwebUtxosPerQuery.toNat) :
    DiffExact maxMwebUtxosPerQuery overlongOld overlongNew 65537 [⟨0, 1⟩] [] := by
  have hleaves : (⟨0, 1⟩ : Span).leaves overlongNew = [0] := rfl
  refine ⟨?_, fun sp hsp => ?_, fun sp hsp => ?_, fun sp hsp => ?_, fun sp hsp j hj => ?_, ?_,
    overlong_removed.symm⟩
  · rw [List.flatMap_singleton, hleaves]
    exact List.pairwise_singleton _ _
  · obtain rfl := List.eq_of_mem_singleton hsp
    exact le_rfl
  · obtain rfl := List.eq_of_mem_singleton hsp
    exact hmax
  · obtain rfl := List.eq_of_mem_singleton hsp
    exact overlongNew_contains (by decide)
  · obtain rfl := List.eq_of_mem_singleton hsp
    rw [hleaves, List.mem_singleton] at hj
    subst hj
    rw [overlongOld_contains (by decide)]
    rfl
  · rw [List.flatMap_singleton, hleaves, overlong_added]

variable (H : Hashing δ) (D : Nat → δ) in
/-- The batch of the set leaves `0` to `2^16` of the new leafset, carrying the ids `D`, with
the honest proof hashes over `2^16 + 1` leaves. -/
def overlongResponse (blockHash : δ) (outputFormat : UInt8) : MsgMwebUtxos δ :=
  ⟨blockHash, (0 : Nat).toUInt64, outputFormat, honestUtxos D overlongNew 0 65536,
    walkProofs H D overlongNew 0 65536 (LeafIdx.nodeIdx 65537) (mmrPeaks 65537)⟩

section Overlong

variable {H : Hashing δ} {D : Nat → δ} {blockHash : δ} {outputFormat : UInt8}

theorem between_overlongNew : between overlongNew.contains 0 (65536 + 1) = List.range' 0 65537 :=
  List.filter_eq_self.2 fun j hj => overlongNew_contains (by have := List.mem_range'_1.1 hj; omega)

theorem overlongResponse_utxos :
    (overlongResponse H D blockHash outputFormat).utxos =
      (List.range' 0 65537).map fun i => ⟨i.toUInt64, D i⟩ := by
  rw [overlongResponse, honestUtxos, between_overlongNew]

theorem length_overlongResponse : (overlongResponse H D blockHash outputFormat).utxos.length = 65537 := by
  rw [overlongResponse_utxos, List.length_map, List.length_range']

/-- The loop commits the overlong response as the utxos of the plan's one span, and finishes. -/
theorem reassemble_overlongResponse :
    ∃ s, reassemble [⟨0, 1⟩] .start [.utxos (overlongResponse H D blockHash outputFormat)] =
        .ok (s, .finished) ∧ s.written = [(overlongResponse H D blockHash outputFormat).utxos] := by
  have hu : (overlongResponse H D blockHash outputFormat).utxos.head? =
      some ⟨(0 : Nat).toUInt64, D 0⟩ := by
    rw [overlongResponse_utxos]
    rfl
  have hv : (overlongResponse H D blockHash outputFormat).utxos.getLast? =
      some ⟨(65536 : Nat).toUInt64, D 65536⟩ := by
    rw [overlongResponse_utxos, List.range'_concat, List.map_append, List.getLast?_append,
      List.map_singleton, List.getLast?_singleton]
    rfl
  exact reassemble_singleton hu hv rfl (Nat.zero_le _)

/-- The overlong response passes every check of `handleResponse` on the request of the span of
leaf `0`, against the header of the `2^16 + 1` leaves' root. -/
theorem overlongResponse_delivered [DecidableEq δ] (leafsetRoot : δ) :
    (⟨⟨mmrRoot H D 65537, (65537 : Nat).toUInt64, leafsetRoot⟩, overlongNew⟩ :
      MwebUtxosQuery δ).Delivers H ((⟨0, 1⟩ : Span).request blockHash outputFormat)
        (overlongResponse H D blockHash outputFormat) :=
  honestResponse_delivered leafsetRoot blockHash outputFormat (by decide) (Nat.zero_le _)
    (by decide) (overlongNew_contains (by decide)) (overlongNew_contains le_rfl)
    (by
      show (1 : UInt16) = (honestUtxos D overlongNew 0 65536).length.toUInt16
      rw [honestUtxos, List.length_map, between_overlongNew, List.length_range']
      rfl)

end Overlong

/-- **A response of `2^16` utxos more than requested is committed as one span's.** The only
exact plan for the leafsets `overlongOld` and `overlongNew` of `2^16 + 1` leaves is the span of
leaf `0`, of count `1`. For any hashing and output ids, the batch of all `2^16 + 1` set leaves
from `0` with the honest proof hashes passes `handleResponse` on that span's request, since its
length cut to `uint16` is `1`, and the reassembly loop commits its `65537` utxos as the span's,
whose only added leaf is `0`. -/
theorem reassemble_commits_overlong_response [DecidableEq δ] (H : Hashing δ) (D : Nat → δ)
    (leafsetRoot blockHash : δ) (mwebNetUtxoCompact : UInt8) {maxMwebUtxosPerQuery : UInt16}
    (hmax : 1 ≤ maxMwebUtxosPerQuery.toNat) :
    DiffExact maxMwebUtxosPerQuery overlongOld overlongNew 65537 [⟨0, 1⟩] [] ∧
      (∀ addedLeaves removedLeaves, DiffExact maxMwebUtxosPerQuery overlongOld overlongNew 65537
        addedLeaves removedLeaves → addedLeaves = [⟨0, 1⟩]) ∧
      (⟨⟨mmrRoot H D 65537, (65537 : Nat).toUInt64, leafsetRoot⟩, overlongNew⟩ :
        MwebUtxosQuery δ).Delivers H ((⟨0, 1⟩ : Span).request blockHash mwebNetUtxoCompact)
          (overlongResponse H D blockHash mwebNetUtxoCompact) ∧
      ∃ s, reassemble [⟨0, 1⟩] .start
          [.utxos (overlongResponse H D blockHash mwebNetUtxoCompact)] = .ok (s, .finished) ∧
        s.written = [(overlongResponse H D blockHash mwebNetUtxoCompact).utxos] ∧
        (overlongResponse H D blockHash mwebNetUtxoCompact).utxos.length = 65537 ∧
        (⟨0, 1⟩ : Span).leaves overlongNew = [0] := by
  obtain ⟨s, hrun, hw⟩ : ∃ s, reassemble [⟨0, 1⟩] .start
      [.utxos (overlongResponse H D blockHash mwebNetUtxoCompact)] = .ok (s, .finished) ∧
      s.written = [(overlongResponse H D blockHash mwebNetUtxoCompact).utxos] :=
    reassemble_overlongResponse
  exact ⟨overlong_plan hmax, fun _ _ h => h.eq_singleton overlong_added,
    overlongResponse_delivered leafsetRoot, s, hrun, hw, length_overlongResponse, rfl⟩

/-- The overlong response under the cap `4096`, over the free hashing. -/
theorem reassemble_commits_overlong_response_free :
    1 ≤ (4096 : UInt16).toNat ∧
      DiffExact 4096 overlongOld overlongNew 65537 [⟨0, 1⟩] [] ∧
      (∀ addedLeaves removedLeaves, DiffExact 4096 overlongOld overlongNew 65537
        addedLeaves removedLeaves → addedLeaves = [⟨0, 1⟩]) ∧
      (⟨⟨mmrRoot freeHashing (fun _ => .outputId 5) 65537, (65537 : Nat).toUInt64, .outputId 0⟩,
        overlongNew⟩ : MwebUtxosQuery FreeDigest).Delivers freeHashing
          ((⟨0, 1⟩ : Span).request (.outputId 0) 0)
          (overlongResponse freeHashing (fun _ => .outputId 5) (.outputId 0) 0) ∧
      ∃ s, reassemble [⟨0, 1⟩] .start
          [.utxos (overlongResponse freeHashing (fun _ => .outputId 5) (.outputId 0) 0)] =
          .ok (s, .finished) ∧
        s.written = [(overlongResponse freeHashing (fun _ => .outputId 5) (.outputId 0) 0).utxos] ∧
        (overlongResponse freeHashing (fun _ => .outputId 5) (.outputId 0) 0).utxos.length =
          65537 ∧
        (⟨0, 1⟩ : Span).leaves overlongNew = [0] :=
  ⟨by decide, reassemble_commits_overlong_response freeHashing (fun _ => .outputId 5) (.outputId 0)
    (.outputId 0) 0 (by decide)⟩

end NeutrinoMweb
