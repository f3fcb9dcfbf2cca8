import NeutrinoMweb.Wire

/-!
# The leafset differ

`getMwebUtxos` and `notifyAddedMwebUtxos` compare an old and a new leafset. Both skip the
bytes the two share at the front, then walk the indices from there. `notifyAddedMwebUtxos`
lists the indices set in the new leafset only (`notifyAddedLeaves`). `getMwebUtxos` groups
those into spans of at most `MaxMwebUtxosPerQuery` leaves, closing a span at every index set in
the old leafset, and lists the indices set in the old leafset only (`diffLeafsets`).

Both results are exact (`notifyAddedLeaves_eq`, `diffLeafsets_exact`). The skipped bytes hold
no index where the two differ (`filter_from_commonPrefix`), and a span read as a peer serves
it (`Span.leaves`: its start, then `nextUnspent` steps in the new leafset) covers exactly the
added indices it was built from (`Span.leaves_eq_between`).
-/

namespace NeutrinoMweb

/-! ## The common prefix -/

/-- The number of leading bytes two leafsets share: where the loop `Skip over common prefix`
stops its `index`. -/
def commonPrefix : Leafset → Leafset → Nat
  | x :: xs, y :: ys => if x = y then commonPrefix xs ys + 1 else 0
  | _, _ => 0

theorem commonPrefix_le_length : ∀ (l₁ l₂ : Leafset),
    commonPrefix l₁ l₂ ≤ min l₁.length l₂.length
  | x :: xs, y :: ys => by
    have := commonPrefix_le_length xs ys
    simp only [commonPrefix, List.length_cons]
    split_ifs <;> omega
  | [], _ => by simp [commonPrefix]
  | _ :: _, [] => by simp [commonPrefix]

theorem getElem?_eq_of_lt_commonPrefix : ∀ {l₁ l₂ : Leafset} {k : Nat},
    k < commonPrefix l₁ l₂ → l₁[k]? = l₂[k]?
  | x :: xs, y :: ys, k, hk => by
    simp only [commonPrefix] at hk
    split_ifs at hk with hxy
    · cases k with
      | zero => simp [hxy]
      | succ k => simpa using getElem?_eq_of_lt_commonPrefix (by omega : k < commonPrefix xs ys)
    · omega
  | [], _, k, hk => by simp [commonPrefix] at hk
  | _ :: _, [], k, hk => by simp [commonPrefix] at hk

theorem contains_eq_of_lt_commonPrefix {l₁ l₂ : Leafset} {j : Nat}
    (h : j < 8 * commonPrefix l₁ l₂) : l₁.contains j = l₂.contains j :=
  Leafset.contains_eq_of_getElem?_eq (getElem?_eq_of_lt_commonPrefix (by omega))

/-- **Skipping the common prefix drops nothing** that a filter keeps only where the two
leafsets differ. The skip starts at `8 * index` in `uint64`, which does not wrap when a
leafset is shorter than `2^61` bytes; Go allocates no longer byte slice. -/
theorem filter_from_commonPrefix {l₁ l₂ : Leafset} (hlen : min l₁.length l₂.length < 2 ^ 61)
    (p : Nat → Bool) (hp : ∀ j, l₁.contains j = l₂.contains j → p j = false) (n : Nat) :
    (List.range' (wrap64 (8 * commonPrefix l₁ l₂))
      (n - wrap64 (8 * commonPrefix l₁ l₂))).filter p = (List.range n).filter p := by
  have hcp := commonPrefix_le_length l₁ l₂
  have hw : wrap64 (8 * commonPrefix l₁ l₂) = 8 * commonPrefix l₁ l₂ :=
    Nat.mod_eq_of_lt (by omega)
  have hskip : ∀ k, k ≤ 8 * commonPrefix l₁ l₂ → (List.range' 0 k).filter p = [] :=
    fun k hk => List.filter_eq_nil_iff.2 fun j hj => by
      rw [List.mem_range'_1] at hj
      rw [hp j (contains_eq_of_lt_commonPrefix (by omega))]
      exact Bool.false_ne_true
  rw [hw, List.range_eq_range']
  rcases Nat.le_total (8 * commonPrefix l₁ l₂) n with hle | hle
  · conv_rhs => rw [← Nat.sub_add_cancel hle, ← List.range'_append, Nat.zero_add, Nat.one_mul]
    rw [List.filter_append, hskip _ le_rfl, List.nil_append]
  · rw [Nat.sub_eq_zero_of_le hle, List.range'_zero, List.filter_nil, hskip n hle]

/-! ## `notifyAddedMwebUtxos` -/

/-- The `addedLeaves` of `notifyAddedMwebUtxos(leafSet)` against the persisted leafset
`dbLeafset` of `newNumLeaves` leaves: after the common prefix, the indices below
`newNumLeaves` set in `dbLeafset` and not in `leafSet`. -/
def notifyAddedLeaves (leafSet dbLeafset : Leafset) (newNumLeaves : UInt64) : List Nat :=
  let index := wrap64 (8 * commonPrefix leafSet dbLeafset)
  (List.range' index (newNumLeaves.toNat - index)).filter fun i =>
    !leafSet.contains i && dbLeafset.contains i

/-- **The notification path reports exactly the added leaves**: the indices below
`newNumLeaves` set in the persisted leafset and not in the snapshot, in ascending order. -/
theorem notifyAddedLeaves_eq (leafSet dbLeafset : Leafset) (newNumLeaves : UInt64)
    (hlen : min leafSet.length dbLeafset.length < 2 ^ 61) :
    notifyAddedLeaves leafSet dbLeafset newNumLeaves =
      (List.range newNumLeaves.toNat).filter fun j =>
        dbLeafset.contains j && !leafSet.contains j := by
  rw [notifyAddedLeaves, filter_from_commonPrefix hlen _ fun j hj => by
    rw [hj]; cases dbLeafset.contains j <;> rfl]
  exact List.filter_congr fun j _ => Bool.and_comm _ _

/-- A snapshot with leaf 0 against a persisted leafset with leaves 0 and 1. -/
theorem notifyAddedLeaves_eq_one_added :
    min [(0x80 : UInt8)].length [(0xC0 : UInt8)].length < 2 ^ 61 ∧
      notifyAddedLeaves [0x80] [0xC0] 2 =
        (List.range (2 : UInt64).toNat).filter fun j =>
          Leafset.contains [0xC0] j && !Leafset.contains [0x80] j :=
  ⟨by decide, notifyAddedLeaves_eq [0x80] [0xC0] 2 (by decide)⟩

/-! ## The differ of `getMwebUtxos` -/

/-- `span`: `count` added leaves to request from `start`. -/
structure Span where
  start : Nat
  count : UInt16
deriving DecidableEq, Repr

/-- The leaves a peer serves for `GetMwebUtxos(start, count)` over the leafset `l`, those the
verifier's leaf walk accepts: `start`, then `count - 1` steps of `nextUnspent`. -/
def Span.leaves (l : Leafset) (sp : Span) : List Nat :=
  List.iterate l.nextUnspent sp.start sp.count.toNat

/-- The differ's variables: the open span `addLeaf`, the spans `addedLeaves` closed so far,
and `removedLeaves`. -/
structure DiffVars where
  addLeaf : Span
  addedLeaves : List Span
  removedLeaves : List Nat

/-- `addLeafSpan`: the open span is closed when it holds a leaf. -/
def DiffVars.addLeafSpan (s : DiffVars) : DiffVars :=
  if 0 < s.addLeaf.count then
    { s with addedLeaves := s.addedLeaves ++ [s.addLeaf], addLeaf := ⟨0, 0⟩ }
  else s

/-- One round of the differ's loop, at `index`. -/
def diffStep (maxMwebUtxosPerQuery : UInt16) (oldLeafset newLeafset : Leafset) (s : DiffVars)
    (index : Nat) : DiffVars :=
  if oldLeafset.contains index then
    let s := s.addLeafSpan
    if !newLeafset.contains index then { s with removedLeaves := s.removedLeaves ++ [index] }
    else s
  else if newLeafset.contains index then
    let s := if s.addLeaf.count = 0 then { s with addLeaf := { s.addLeaf with start := index } }
      else s
    let s := { s with addLeaf := { s.addLeaf with count := s.addLeaf.count + 1 } }
    if s.addLeaf.count = maxMwebUtxosPerQuery then s.addLeafSpan else s
  else s

/-- The leafset differ of `getMwebUtxos`, from the old leafset of `oldNumLeaves` leaves to the
new one of `newNumLeaves`: the spans to request, and the removed leaves. -/
def diffLeafsets (maxMwebUtxosPerQuery : UInt16) (oldLeafset : Leafset) (oldNumLeaves : UInt64)
    (newLeafset : Leafset) (newNumLeaves : UInt64) : List Span × List Nat :=
  let index := wrap64 (8 * commonPrefix oldLeafset newLeafset)
  let s := (List.range' index (max oldNumLeaves.toNat newNumLeaves.toNat - index)).foldl
    (diffStep maxMwebUtxosPerQuery oldLeafset newLeafset) ⟨⟨0, 0⟩, [], []⟩
  let s := s.addLeafSpan
  (s.addedLeaves, s.removedLeaves)

/-! ## Runs of indices -/

/-- The indices from `a` below `b` that `p` keeps, in ascending order. -/
def between (p : Nat → Bool) (a b : Nat) : List Nat :=
  (List.range' a (b - a)).filter p

theorem between_self (p : Nat → Bool) (a : Nat) : between p a a = [] := by
  simp [between]

theorem between_succ (p : Nat → Bool) {a b : Nat} (h : a ≤ b) :
    between p a (b + 1) = between p a b ++ if p b then [b] else [] := by
  rw [between, between, show b + 1 - a = b - a + 1 by omega, List.range'_concat,
    List.filter_append, Nat.one_mul, Nat.add_sub_cancel' h]
  by_cases hb : p b <;> simp [List.filter_cons, hb]

theorem between_congr {p q : Nat → Bool} {a b : Nat} (h : ∀ j, a ≤ j → j < b → p j = q j) :
    between p a b = between q a b :=
  List.filter_congr fun j hj => by
    rw [List.mem_range'_1] at hj
    exact h j hj.1 (by omega)

/-- From an index `p` with nothing set up to `s`, `nextUnspent` steps through the set indices
from `s` on, one at a time. -/
theorem iterate_nextUnspent (l : Leafset) : ∀ (n p s : Nat), p < s →
    (∀ k, p < k → k < s → l.contains k = false) → s + n ≤ 2 ^ 64 →
    List.iterate l.nextUnspent (l.nextUnspent p) ((List.range' s n).filter l.contains).length =
      (List.range' s n).filter l.contains
  | 0, _, _, _, _, _ => rfl
  | n + 1, p, s, hps, hgap, hn => by
    rw [List.range'_succ, List.filter_cons]
    by_cases hs : l.contains s
    · rw [if_pos hs, List.length_cons, List.iterate,
        Leafset.nextUnspent_eq hps (by omega) hs hgap]
      exact congrArg (s :: ·) (iterate_nextUnspent l n s (s + 1) (by omega)
        (fun k hk hk' => by omega) (by omega))
    · rw [if_neg hs]
      exact iterate_nextUnspent l n p (s + 1) (by omega)
        (fun k hk hk' => if hks : k = s then hks ▸ Bool.eq_false_iff.2 hs
          else hgap k hk (by omega)) (by omega)

theorem between_eq_iterate (l : Leafset) {s t : Nat} (hs : l.contains s) (hst : s < t)
    (ht : t ≤ 2 ^ 64) :
    between l.contains s t = List.iterate l.nextUnspent s (between l.contains s t).length := by
  rw [between, show t - s = t - s - 1 + 1 by omega, List.range'_succ, List.filter_cons, if_pos hs,
    List.length_cons, List.iterate]
  exact congrArg (s :: ·) (iterate_nextUnspent l _ s (s + 1) (by omega)
    (fun k hk hk' => by omega) (by omega)).symm

section Spans

variable {oldL newL : Leafset}

/-- An index set in the new leafset and not in the old one. -/
def isAdded (oldL newL : Leafset) (j : Nat) : Bool := newL.contains j && !oldL.contains j

/-- **A span reads as the run it was built from**: from a start set in the new leafset, over
indices none of which is set in the old one, the leaves a peer serves are the added indices of
the run, when the span counts them. -/
theorem Span.leaves_eq_between {sp : Span} {t : Nat} (hs : newL.contains sp.start)
    (hst : sp.start < t) (ht : t ≤ 2 ^ 64)
    (hfresh : ∀ k, sp.start ≤ k → k < t → oldL.contains k = false)
    (hc : sp.count.toNat = (between (isAdded oldL newL) sp.start t).length) :
    sp.leaves newL = between (isAdded oldL newL) sp.start t := by
  have hnew : between (isAdded oldL newL) sp.start t = between newL.contains sp.start t :=
    between_congr fun j h1 h2 => by simp [isAdded, hfresh j h1 h2]
  rw [hnew] at hc ⊢
  rw [Span.leaves, hc]
  exact (between_eq_iterate newL hs hst ht).symm

/-- An index set in the old leafset and not in the new one. -/
def isRemoved (oldL newL : Leafset) (j : Nat) : Bool := oldL.contains j && !newL.contains j

end Spans

/-! ## The loop -/

section Loop

variable {mx : UInt16} {oldL newL : Leafset} {s₀ i : Nat} {s : DiffVars}

theorem count_add_one_toNat {c mx : UInt16} (h : c.toNat < mx.toNat) :
    (c + 1).toNat = c.toNat + 1 := by
  have := mx.toNat_lt_size
  rw [show (c + 1).toNat = (c.toNat + 1) % 2 ^ 16 from BitVec.toNat_add _ _]
  exact Nat.mod_eq_of_lt (by simp only [UInt16.size] at this; omega)

theorem count_pos_iff (c : UInt16) : 0 < c ↔ 0 < c.toNat := by
  rw [UInt16.lt_def, BitVec.lt_def]
  rfl

theorem count_eq_iff (c m : UInt16) : c = m ↔ c.toNat = m.toNat :=
  ⟨congrArg UInt16.toNat, UInt16.toNat.inj⟩

/-- The added indices the open span holds when the loop is at `i`. -/
def DiffVars.openLeaves (oldL newL : Leafset) (i : Nat) (s : DiffVars) : List Nat :=
  if s.addLeaf.count.toNat = 0 then [] else between (isAdded oldL newL) s.addLeaf.start i

/-- The differ's variables after the indices from `s₀` below `i`: the removed indices so far;
closed spans of one to `mx` leaves which, followed by the open span, hold the added indices so
far; and an open span of at most `mx` leaves that counts the added indices from its start,
none of them set in the old leafset. -/
structure DiffInv (mx : UInt16) (oldL newL : Leafset) (s₀ i : Nat) (s : DiffVars) : Prop where
  mx_pos : 0 < mx.toNat
  removed : s.removedLeaves = between (isRemoved oldL newL) s₀ i
  closed : ∀ sp ∈ s.addedLeaves, 0 < sp.count.toNat ∧ sp.count.toNat ≤ mx.toNat
  covered : s.addedLeaves.flatMap (Span.leaves newL) ++ s.openLeaves oldL newL i =
    between (isAdded oldL newL) s₀ i
  open_le : s.addLeaf.count.toNat ≤ mx.toNat
  open_run : 0 < s.addLeaf.count.toNat → s₀ ≤ s.addLeaf.start ∧ s.addLeaf.start < i ∧
    newL.contains s.addLeaf.start ∧
    (∀ k, s.addLeaf.start ≤ k → k < i → oldL.contains k = false) ∧
    s.addLeaf.count.toNat = (between (isAdded oldL newL) s.addLeaf.start i).length

variable (oldL newL) in
theorem diffInv_start (hmx : 0 < mx.toNat) (s₀ : Nat) :
    DiffInv mx oldL newL s₀ s₀ ⟨⟨0, 0⟩, [], []⟩ where
  mx_pos := hmx
  removed := (between_self _ _).symm
  closed := by simp
  covered := by simp [DiffVars.openLeaves, between_self]
  open_le := Nat.zero_le _
  open_run := by simp

/-- **Closing the open span keeps the invariant**: its leaves, read as a peer serves them, are
the run it counted. -/
theorem DiffInv.addLeafSpan (hI : DiffInv mx oldL newL s₀ i s) (hi : i ≤ 2 ^ 64) :
    DiffInv mx oldL newL s₀ i s.addLeafSpan ∧ s.addLeafSpan.addLeaf.count.toNat = 0 := by
  unfold DiffVars.addLeafSpan
  split_ifs with hc
  · rw [count_pos_iff] at hc
    obtain ⟨-, h2, h3, h4, h5⟩ := hI.open_run hc
    have hl := Span.leaves_eq_between h3 h2 hi h4 h5
    refine ⟨⟨hI.mx_pos, hI.removed, fun sp hsp => ?_, ?_, Nat.zero_le _, by simp⟩, rfl⟩
    · rcases List.mem_append.1 hsp with hsp | hsp
      · exact hI.closed sp hsp
      · rw [List.mem_singleton.1 hsp]
        exact ⟨hc, hI.open_le⟩
    · have := hI.covered
      simp only [DiffVars.openLeaves, Nat.pos_iff_ne_zero.1 hc, if_false] at this
      simp [DiffVars.openLeaves, List.flatMap_append, hl, this]
  · rw [count_pos_iff, Nat.not_lt, Nat.le_zero] at hc
    exact ⟨hI, hc⟩

/-- An index that is not added extends the run of the open span, and is listed when it is
removed. -/
theorem DiffInv.succ_of_not_added (hI : DiffInv mx oldL newL s₀ i s) (hi : s₀ ≤ i)
    (hA : isAdded oldL newL i = false)
    (hfresh : 0 < s.addLeaf.count.toNat → oldL.contains i = false) :
    DiffInv mx oldL newL s₀ (i + 1)
      { s with removedLeaves := s.removedLeaves ++ if isRemoved oldL newL i then [i] else [] } where
  mx_pos := hI.mx_pos
  removed := by rw [hI.removed, between_succ _ hi]
  closed := hI.closed
  covered := by
    show s.addedLeaves.flatMap (Span.leaves newL) ++ s.openLeaves oldL newL (i + 1) = _
    rw [between_succ _ hi, hA, if_neg Bool.false_ne_true, List.append_nil, ← hI.covered]
    unfold DiffVars.openLeaves
    split_ifs with hc
    · rfl
    · rw [between_succ _ (Nat.le_of_lt (hI.open_run (Nat.pos_of_ne_zero hc)).2.1), hA,
        if_neg Bool.false_ne_true, List.append_nil]
  open_le := hI.open_le
  open_run hc := by
    obtain ⟨h1, h2, h3, h4, h5⟩ := hI.open_run hc
    refine ⟨h1, Nat.lt_succ_of_lt h2, h3, fun k hk hk' => ?_, ?_⟩
    · rcases Nat.lt_or_ge k i with hki | hki
      · exact h4 k hk hki
      · rw [show k = i by omega]
        exact hfresh hc
    · show s.addLeaf.count.toNat = (between _ s.addLeaf.start (i + 1)).length
      rw [between_succ _ (Nat.le_of_lt h2), hA, if_neg Bool.false_ne_true, List.append_nil]
      exact h5

/-- An added index joins the open span, which then starts at `st`: the index itself when the
span was empty. -/
theorem DiffInv.extend (hI : DiffInv mx oldL newL s₀ i s) (hi : s₀ ≤ i)
    (hlt : s.addLeaf.count.toNat < mx.toNat) (hA : isAdded oldL newL i = true) (st : Nat)
    (hst : s₀ ≤ st ∧ st ≤ i ∧ newL.contains st ∧
      (∀ k, st ≤ k → k < i → oldL.contains k = false) ∧
      s.openLeaves oldL newL i = between (isAdded oldL newL) st i ∧
      s.addLeaf.count.toNat = (between (isAdded oldL newL) st i).length) :
    DiffInv mx oldL newL s₀ (i + 1) { s with addLeaf := ⟨st, s.addLeaf.count + 1⟩ } := by
  obtain ⟨h1, h2, h3, h4, h5, h6⟩ := hst
  have hc := count_add_one_toNat hlt
  have hold : oldL.contains i = false := by
    simp only [isAdded, Bool.and_eq_true, Bool.not_eq_true'] at hA
    exact hA.2
  refine ⟨hI.mx_pos, ?_, hI.closed, ?_, by simp only [hc]; omega, fun _ => ?_⟩
  · rw [hI.removed, between_succ _ hi]
    simp [isRemoved, hold]
  · simp only [DiffVars.openLeaves, hc, Nat.add_one_ne_zero, if_false]
    rw [between_succ _ h2, between_succ _ hi, hA, if_pos rfl, ← hI.covered, h5,
      List.append_assoc]
  · refine ⟨h1, Nat.lt_succ_of_le h2, h3, fun k hk hk' => ?_, ?_⟩
    · rcases Nat.lt_or_ge k i with hki | hki
      · exact h4 k hk hki
      · rw [show k = i by omega]
        exact hold
    · simp only [hc]
      rw [between_succ _ h2, hA, if_pos rfl, List.length_append, h6, List.length_singleton]

theorem DiffInv.cap {s' : DiffVars} (h : DiffInv mx oldL newL s₀ (i + 1) s') (hi64 : i < 2 ^ 64) :
    DiffInv mx oldL newL s₀ (i + 1) (if s'.addLeaf.count = mx then s'.addLeafSpan else s') ∧
      (if s'.addLeaf.count = mx then s'.addLeafSpan else s').addLeaf.count.toNat < mx.toNat := by
  split_ifs with hcap
  · obtain ⟨h', h0⟩ := h.addLeafSpan (by omega)
    exact ⟨h', by rw [h0]; exact h.mx_pos⟩
  · rw [count_eq_iff] at hcap
    exact ⟨h, Nat.lt_of_le_of_ne h.open_le hcap⟩

/-- **One round keeps the invariant**, and the open span below the cap. -/
theorem DiffInv.step (hI : DiffInv mx oldL newL s₀ i s)
    (hlt : s.addLeaf.count.toNat < mx.toNat) (hi : s₀ ≤ i) (hi64 : i < 2 ^ 64) :
    DiffInv mx oldL newL s₀ (i + 1) (diffStep mx oldL newL s i) ∧
      (diffStep mx oldL newL s i).addLeaf.count.toNat < mx.toNat := by
  unfold diffStep
  by_cases ho : oldL.contains i
  · -- an index of the old leafset closes the open span
    obtain ⟨hC, hc0⟩ := hI.addLeafSpan (by omega)
    have hA : isAdded oldL newL i = false := by simp [isAdded, ho]
    have hR : isRemoved oldL newL i = !newL.contains i := by simp [isRemoved, ho]
    have h := hC.succ_of_not_added hi hA (fun h => by omega)
    rw [if_pos ho, ← hR]
    split_ifs with hr <;> simp only [hr, if_true, if_false, Bool.false_eq_true, List.append_nil]
      at h <;> exact ⟨h, by simp only [hc0]; exact hI.mx_pos⟩
  rw [if_neg ho]
  by_cases hn : newL.contains i
  · -- an added index joins the open span, which closes at the cap
    rw [if_pos hn]
    have hA : isAdded oldL newL i = true := by simp [isAdded, ho, hn]
    by_cases h0 : s.addLeaf.count = 0
    · rw [if_pos h0]
      rw [count_eq_iff, UInt16.toNat_zero] at h0
      refine (hI.extend hi hlt hA i ⟨hi, le_rfl, hn, fun k hk hk' => by omega, ?_, ?_⟩).cap hi64
        <;> simp [DiffVars.openLeaves, h0, between_self]
    · rw [if_neg h0]
      rw [count_eq_iff, UInt16.toNat_zero] at h0
      obtain ⟨h1, h2, h3, h4, h5⟩ := hI.open_run (Nat.pos_of_ne_zero h0)
      exact (hI.extend hi hlt hA s.addLeaf.start
        ⟨h1, Nat.le_of_lt h2, h3, h4, if_neg h0, h5⟩).cap hi64
  · -- an index in neither leafset changes nothing
    rw [if_neg hn]
    have hA : isAdded oldL newL i = false := by simp [isAdded, hn]
    have hR : isRemoved oldL newL i = false := by simp [isRemoved, ho]
    have h := hI.succ_of_not_added hi hA (fun _ => by simpa using ho)
    simp only [hR, if_false, Bool.false_eq_true, List.append_nil] at h
    exact ⟨h, hlt⟩

/-- **The loop keeps the invariant** over a run of indices. -/
theorem DiffInv.foldl : ∀ (n : Nat) {i : Nat} {s : DiffVars}, DiffInv mx oldL newL s₀ i s →
    s.addLeaf.count.toNat < mx.toNat → s₀ ≤ i → i + n ≤ 2 ^ 64 →
    DiffInv mx oldL newL s₀ (i + n) ((List.range' i n).foldl (diffStep mx oldL newL) s) ∧
      ((List.range' i n).foldl (diffStep mx oldL newL) s).addLeaf.count.toNat < mx.toNat
  | 0, _, _, hI, hlt, _, _ => ⟨hI, hlt⟩
  | n + 1, i, s, hI, hlt, hi, hn => by
    obtain ⟨h, hlt'⟩ := hI.step hlt hi (by omega)
    rw [List.range'_succ, List.foldl_cons, show i + (n + 1) = i + 1 + n by omega]
    exact DiffInv.foldl n h hlt' (by omega) (by omega)

end Loop

/-! ## What the differ guarantees -/

/-- The spans and removed leaves of a differ over the indices below `numLeaves` are exact: the
spans, read as a peer serves them, hold each index set in the new leafset only, once and in
ascending order; each holds one to `MaxMwebUtxosPerQuery` leaves, starts at a set index and
holds none of the old leafset; the removed leaves are the indices set in the old leafset only,
in ascending order. -/
structure DiffExact (maxMwebUtxosPerQuery : UInt16) (oldLeafset newLeafset : Leafset)
    (numLeaves : Nat) (addedLeaves : List Span) (removedLeaves : List Nat) : Prop where
  ascending : (addedLeaves.flatMap (Span.leaves newLeafset)).Pairwise (· < ·)
  count_pos : ∀ sp ∈ addedLeaves, 1 ≤ sp.count.toNat
  count_le : ∀ sp ∈ addedLeaves, sp.count.toNat ≤ maxMwebUtxosPerQuery.toNat
  start_set : ∀ sp ∈ addedLeaves, newLeafset.contains sp.start
  fresh : ∀ sp ∈ addedLeaves, ∀ j ∈ sp.leaves newLeafset, oldLeafset.contains j = false
  covered : addedLeaves.flatMap (Span.leaves newLeafset) =
    (List.range numLeaves).filter fun j => newLeafset.contains j && !oldLeafset.contains j
  removed : removedLeaves =
    (List.range numLeaves).filter fun j => oldLeafset.contains j && !newLeafset.contains j

/-- The spans and the removed leaves the differ returns are exact below the larger of the two
leaf counts, for any positive cap on a span. -/
theorem diffExact_of_diffLeafsets {maxMwebUtxosPerQuery : UInt16} {oldLeafset : Leafset}
    {oldNumLeaves : UInt64} {newLeafset : Leafset} {newNumLeaves : UInt64}
    {addedLeaves : List Span} {removedLeaves : List Nat}
    (h : diffLeafsets maxMwebUtxosPerQuery oldLeafset oldNumLeaves newLeafset newNumLeaves =
      (addedLeaves, removedLeaves))
    (hmax : 0 < maxMwebUtxosPerQuery.toNat)
    (hlen : min oldLeafset.length newLeafset.length < 2 ^ 61) :
    DiffExact maxMwebUtxosPerQuery oldLeafset newLeafset
      (max oldNumLeaves.toNat newNumLeaves.toNat) addedLeaves removedLeaves := by
  suffices DiffExact maxMwebUtxosPerQuery oldLeafset newLeafset
      (max oldNumLeaves.toNat newNumLeaves.toNat)
      (diffLeafsets maxMwebUtxosPerQuery oldLeafset oldNumLeaves newLeafset newNumLeaves).1
      (diffLeafsets maxMwebUtxosPerQuery oldLeafset oldNumLeaves newLeafset newNumLeaves).2 by
    rwa [h] at this
  have hs₀ : wrap64 (8 * commonPrefix oldLeafset newLeafset) < 2 ^ 64 :=
    Nat.mod_lt _ (Nat.two_pow_pos 64)
  have hm : max oldNumLeaves.toNat newNumLeaves.toNat < 2 ^ 64 :=
    max_lt oldNumLeaves.val.isLt newNumLeaves.val.isLt
  obtain ⟨hF, -⟩ := DiffInv.foldl
    (max oldNumLeaves.toNat newNumLeaves.toNat - wrap64 (8 * commonPrefix oldLeafset newLeafset))
    (diffInv_start oldLeafset newLeafset hmax (wrap64 (8 * commonPrefix oldLeafset newLeafset)))
    (by simpa using hmax) le_rfl (by omega)
  obtain ⟨hC, hc0⟩ := hF.addLeafSpan (by omega)
  have hcov := hC.covered
  have hrem := hC.removed
  simp only [DiffVars.openLeaves, hc0, if_true, List.append_nil, between,
    Nat.add_sub_cancel_left] at hcov hrem
  rw [filter_from_commonPrefix hlen _ (fun j hj => by simp [isAdded, hj])] at hcov
  rw [filter_from_commonPrefix hlen _ (fun j hj => by simp [isRemoved, hj])] at hrem
  have hmem : ∀ sp ∈ (diffLeafsets maxMwebUtxosPerQuery oldLeafset oldNumLeaves newLeafset
      newNumLeaves).1, ∀ j ∈ sp.leaves newLeafset,
      newLeafset.contains j = true ∧ oldLeafset.contains j = false := fun sp hsp j hj => by
    have hj' : j ∈ (List.range (max oldNumLeaves.toNat newNumLeaves.toNat)).filter
        (isAdded oldLeafset newLeafset) := hcov ▸ List.mem_flatMap.2 ⟨sp, hsp, hj⟩
    simpa [isAdded] using (List.mem_filter.1 hj').2
  refine ⟨?_, fun sp hsp => (hC.closed sp hsp).1, fun sp hsp => (hC.closed sp hsp).2,
    fun sp hsp => ?_, fun sp hsp j hj => (hmem sp hsp j hj).2, hcov, hrem⟩
  · exact hcov ▸ (List.pairwise_lt_range _).filter _
  · obtain ⟨c, hc⟩ : ∃ c, sp.count.toNat = c + 1 :=
      ⟨sp.count.toNat - 1, by have := (hC.closed sp hsp).1; omega⟩
    exact (hmem sp hsp sp.start (by rw [Span.leaves, hc]; exact List.mem_cons_self _ _)).1

/-- **The leafset differ of `getMwebUtxos` is exact** below the larger of the two leaf counts,
for any positive cap on a span. -/
theorem diffLeafsets_exact (maxMwebUtxosPerQuery : UInt16) (oldLeafset : Leafset)
    (oldNumLeaves : UInt64) (newLeafset : Leafset) (newNumLeaves : UInt64)
    (hmax : 0 < maxMwebUtxosPerQuery.toNat)
    (hlen : min oldLeafset.length newLeafset.length < 2 ^ 61) :
    DiffExact maxMwebUtxosPerQuery oldLeafset newLeafset
      (max oldNumLeaves.toNat newNumLeaves.toNat)
      (diffLeafsets maxMwebUtxosPerQuery oldLeafset oldNumLeaves newLeafset newNumLeaves).1
      (diffLeafsets maxMwebUtxosPerQuery oldLeafset oldNumLeaves newLeafset newNumLeaves).2 :=
  diffExact_of_diffLeafsets rfl hmax hlen

/-- Spans of at most two leaves from an empty leafset to one with leaves 0, 1 and 2. -/
theorem diffLeafsets_exact_three_added :
    0 < (2 : UInt16).toNat ∧ min [(0x00 : UInt8)].length [(0xE0 : UInt8)].length < 2 ^ 61 ∧
      DiffExact 2 [0x00] [0xE0] (max (0 : UInt64).toNat (3 : UInt64).toNat)
        (diffLeafsets 2 [0x00] 0 [0xE0] 3).1 (diffLeafsets 2 [0x00] 0 [0xE0] 3).2 :=
  ⟨by decide, by decide, diffLeafsets_exact 2 [0x00] 0 [0xE0] 3 (by decide) (by decide)⟩

end NeutrinoMweb
