import NeutrinoMweb.Soundness
import NeutrinoMweb.Differ

/-!
# The honest batch

Completeness of the utxo check: for every range of set leaves there is a list of proof hashes
with which the batch of those leaves is accepted, and with collision-free digests it is the
only one.

The first pass comes back without a digest exactly at the `hollow` nodes: those right of the
first leaf with no set leaf it reaches and no right child cut off by the last leaf. It pays
one proof hash for each node it does not descend into, so on every honest batch it uses as
many proof hashes as the second pass, which pulls the digests `proofHashesAt` lists: a hollow
node's or a node's left of the first leaf, the right child's where the last leaf cuts it off,
and the bag of the peaks after the last leaf's.
-/

namespace NeutrinoMweb

variable {δ : Type}

open VerifyMwebUtxosVars

/-! ## Hollow nodes and honest proof hashes -/

/-- The first pass's descent at `⟨a, h⟩` comes back without a digest on an honest batch: the
node is not left of the first leaf, no set leaf under it is reached, and the last leaf cuts
off none of its right children. -/
def hollow (L : Leafset) (first last : Nat) : Nat → Nat → Bool
  | 0, a => !decide (MmrNode.pos ⟨a, 0⟩ < LeafIdx.nodeIdx first) && !L.contains a
  | h + 1, a => !decide (MmrNode.pos ⟨a, h + 1⟩ < LeafIdx.nodeIdx first) &&
      hollow L first last h a && !decide (LeafIdx.nodeIdx last ≤ MmrNode.pos ⟨a, h⟩) &&
      hollow L first last h (a + 2 ^ h)

variable (H : Hashing δ) (D : Nat → δ) in
/-- The proof hashes an honest batch supplies for the subtree at `⟨a, h⟩`, in the order the
second pass pulls them: the subtree's digest where it does not descend, the children's
otherwise, with the right child's digest when the last leaf cuts it off. -/
def proofHashesAt (L : Leafset) (first last : Nat) : Nat → Nat → List δ
  | 0, a => if MmrNode.pos ⟨a, 0⟩ < LeafIdx.nodeIdx first ∨ hollow L first last 0 a
      then [treeDigest H D 0 a] else []
  | h + 1, a =>
    if MmrNode.pos ⟨a, h + 1⟩ < LeafIdx.nodeIdx first ∨ hollow L first last (h + 1) a
    then [treeDigest H D (h + 1) a]
    else proofHashesAt L first last h a ++
      if LeafIdx.nodeIdx last ≤ MmrNode.pos ⟨a, h⟩ then [treeDigest H D h (a + 2 ^ h)]
      else proofHashesAt L first last h (a + 2 ^ h)

variable (H : Hashing δ) (D : Nat → δ) in
/-- The digest the second pass rebuilds at `⟨a, h⟩` from the proof hashes `Q` it pulls there,
in the order `proofHashesAt` lists them (of which only the length is read), over utxos carrying
the ids `D`. -/
def rebuildAt (L : Leafset) (first last : Nat) : Nat → Nat → List δ → δ
  | 0, a, Q => if MmrNode.pos ⟨a, 0⟩ < LeafIdx.nodeIdx first ∨ hollow L first last 0 a
      then Q.headD H.zero else treeDigest H D 0 a
  | h + 1, a, Q =>
    if MmrNode.pos ⟨a, h + 1⟩ < LeafIdx.nodeIdx first ∨ hollow L first last (h + 1) a
    then Q.headD H.zero
    else
      let n := (proofHashesAt H D L first last h a).length
      H.parentHash (MmrNode.pos ⟨a, h + 1⟩) (rebuildAt L first last h a (Q.take n))
        (if LeafIdx.nodeIdx last ≤ MmrNode.pos ⟨a, h⟩ then (Q.drop n).headD H.zero
          else rebuildAt L first last h (a + 2 ^ h) (Q.drop n))

section Honest

variable {H : Hashing δ} {D : Nat → δ} {L : Leafset} {first last : Nat}

theorem proofHashesAt_of_pulled {h a : Nat}
    (hc : MmrNode.pos ⟨a, h⟩ < LeafIdx.nodeIdx first ∨ hollow L first last h a) :
    proofHashesAt H D L first last h a = [treeDigest H D h a] := by
  cases h <;> simp only [proofHashesAt, if_pos hc]

theorem proofHashesAt_succ {h a : Nat}
    (hc : ¬(MmrNode.pos ⟨a, h + 1⟩ < LeafIdx.nodeIdx first ∨ hollow L first last (h + 1) a)) :
    proofHashesAt H D L first last (h + 1) a = proofHashesAt H D L first last h a ++
      if LeafIdx.nodeIdx last ≤ MmrNode.pos ⟨a, h⟩ then [treeDigest H D h (a + 2 ^ h)]
      else proofHashesAt H D L first last h (a + 2 ^ h) := by
  simp only [proofHashesAt, if_neg hc]

theorem hollow_succ {h a : Nat} : hollow L first last (h + 1) a = true ↔
    ¬MmrNode.pos ⟨a, h + 1⟩ < LeafIdx.nodeIdx first ∧ hollow L first last h a = true ∧
      ¬LeafIdx.nodeIdx last ≤ MmrNode.pos ⟨a, h⟩ ∧ hollow L first last h (a + 2 ^ h) = true := by
  simp [hollow, and_assoc]

theorem rebuildAt_of_pulled {h a : Nat} {Q : List δ}
    (hc : MmrNode.pos ⟨a, h⟩ < LeafIdx.nodeIdx first ∨ hollow L first last h a) :
    rebuildAt H D L first last h a Q = Q.headD H.zero := by
  cases h <;> simp only [rebuildAt, if_pos hc]

theorem rebuildAt_succ {h a : Nat} {Q : List δ}
    (hc : ¬(MmrNode.pos ⟨a, h + 1⟩ < LeafIdx.nodeIdx first ∨ hollow L first last (h + 1) a)) :
    rebuildAt H D L first last (h + 1) a Q = H.parentHash (MmrNode.pos ⟨a, h + 1⟩)
      (rebuildAt H D L first last h a (Q.take (proofHashesAt H D L first last h a).length))
      (if LeafIdx.nodeIdx last ≤ MmrNode.pos ⟨a, h⟩ then
        (Q.drop (proofHashesAt H D L first last h a).length).headD H.zero
      else rebuildAt H D L first last h (a + 2 ^ h)
        (Q.drop (proofHashesAt H D L first last h a).length)) := by
  simp only [rebuildAt, if_neg hc]

/-- The honest proof hashes rebuild the committed digest. -/
theorem rebuildAt_proofHashesAt {h a : Nat} :
    rebuildAt H D L first last h a (proofHashesAt H D L first last h a) = treeDigest H D h a := by
  induction h generalizing a with
  | zero =>
    by_cases hc : MmrNode.pos ⟨a, 0⟩ < LeafIdx.nodeIdx first ∨ hollow L first last 0 a
    · rw [rebuildAt_of_pulled hc, proofHashesAt_of_pulled hc]; rfl
    · simp only [rebuildAt, proofHashesAt, if_neg hc]
  | succ h ih =>
    by_cases hc : MmrNode.pos ⟨a, h + 1⟩ < LeafIdx.nodeIdx first ∨ hollow L first last (h + 1) a
    · rw [rebuildAt_of_pulled hc, proofHashesAt_of_pulled hc]; rfl
    rw [rebuildAt_succ hc, proofHashesAt_succ hc, List.take_left' rfl, List.drop_left' rfl, ih]
    split_ifs
    · rfl
    · rw [ih]; rfl

theorem eq_singleton_of_headD {Q : List δ} {d z : δ} (hQ : Q.length = 1) (h : Q.headD z = d) :
    Q = [d] := by
  obtain ⟨q, rfl⟩ := List.length_eq_one.1 hQ
  rw [← h]; rfl

/-- **With collision-free digests only the honest proof hashes rebuild the committed digest**,
among the lists of their length. -/
theorem eq_proofHashesAt_of_rebuildAt (hH : H.CollisionFree) {h a : Nat} {Q : List δ}
    (hQ : Q.length = (proofHashesAt H D L first last h a).length)
    (hr : rebuildAt H D L first last h a Q = treeDigest H D h a) :
    Q = proofHashesAt H D L first last h a := by
  induction h generalizing a Q with
  | zero =>
    by_cases hc : MmrNode.pos ⟨a, 0⟩ < LeafIdx.nodeIdx first ∨ hollow L first last 0 a
    · rw [proofHashesAt_of_pulled hc] at hQ ⊢
      rw [rebuildAt_of_pulled hc] at hr
      exact eq_singleton_of_headD hQ hr
    · simp only [proofHashesAt, if_neg hc, List.length_nil, List.length_eq_zero] at hQ ⊢
      exact hQ
  | succ h ih =>
    by_cases hc : MmrNode.pos ⟨a, h + 1⟩ < LeafIdx.nodeIdx first ∨ hollow L first last (h + 1) a
    · rw [proofHashesAt_of_pulled hc] at hQ ⊢
      rw [rebuildAt_of_pulled hc] at hr
      exact eq_singleton_of_headD hQ hr
    rw [rebuildAt_succ hc] at hr
    rw [proofHashesAt_succ hc] at hQ ⊢
    rw [List.length_append] at hQ
    obtain ⟨-, hl, hr⟩ := hH.parentHash_inj hr
    rw [← List.take_append_drop (proofHashesAt H D L first last h a).length Q,
      ih (by rw [List.length_take]; omega) hl]
    congr 1
    split_ifs at hr hQ ⊢
    · exact eq_singleton_of_headD (by rw [List.length_drop]; simp at hQ; omega) hr
    · exact ih (by rw [List.length_drop]; omega) hr

theorem attempts_eq_nil_of_hollow : ∀ {h a : Nat}, hollow L first last h a = true →
    attempts [] L first last h a = []
  | 0, a, hh => by
    simp only [hollow, Bool.and_eq_true, Bool.not_eq_true', decide_eq_false_iff_not] at hh
    simp [attempts, hh.1, hh.2]
  | h + 1, a, hh => by
    obtain ⟨hb, hl, hcut, hr⟩ := hollow_succ.1 hh
    simp [attempts, hb, hcut, attempts_eq_nil_of_hollow hl, attempts_eq_nil_of_hollow hr]

end Honest

/-! ## The first pass -/

section FirstPass

variable {H : Hashing δ} {D : Nat → δ}

/-- A pulled node costs one proof hash, as the honest batch supplies it. -/
theorem cost_pulled_first_pass {h a : Nat} {v : VerifyMwebUtxosVars δ}
    (hb : MmrNode.pos ⟨a, h⟩ < LeafIdx.nodeIdx v.firstLeafIdx)
    (hs : Supplied (visit H [] h a v)) :
    cost v (visit H [] h a v) =
        (proofHashesAt H D v.leafset v.firstLeafIdx v.lastLeafIdx h a).length ∧
      ((visit H [] h a v).2.isSome ↔ hollow v.leafset v.firstLeafIdx v.lastLeafIdx h a = false) := by
  rw [visit_pulled (.inl hb)] at hs ⊢
  rw [nextHash_cost, proofHashesAt_of_pulled (.inl hb)]
  refine ⟨rfl, iff_of_true (nextHash_isSome_of_supplied _ _ hs) ?_⟩
  cases h <;> simp [hollow, hb]

/-- At a leaf it does not pull, the first pass costs what the honest batch supplies there, and
comes back without a digest exactly when the leaf is hollow. -/
theorem visit_first_pass_leaf {a : Nat} {v : VerifyMwebUtxosVars δ}
    (hb : ¬MmrNode.pos ⟨a, 0⟩ < LeafIdx.nodeIdx v.firstLeafIdx)
    (hm : Matches v (attempts [] v.leafset v.firstLeafIdx v.lastLeafIdx 0 a)) :
    cost v (visit H [] 0 a v) =
        (proofHashesAt H D v.leafset v.firstLeafIdx v.lastLeafIdx 0 a).length ∧
      ((visit H [] 0 a v).2.isSome ↔ hollow v.leafset v.firstLeafIdx v.lastLeafIdx 0 a = false) := by
  have hc : ¬(MmrNode.pos ⟨a, 0⟩ < LeafIdx.nodeIdx v.firstLeafIdx ∨
      MmrNode.pos ⟨a, 0⟩ ∈ ([] : List Nat)) := by simp [hb]
  obtain ⟨hu, -, hsome⟩ := visit_zero_spec (H := H) hc
  simp only [attempts, if_neg hc] at hm
  by_cases hl : v.leafset.contains a
  · rw [if_pos hl] at hm
    have hd : (visit H [] 0 a v).2.isSome = true := hsome.2 ⟨hl, hm⟩
    simp [cost, hu, hd, proofHashesAt, hollow, hb, hl]
  · have hd : (visit H [] 0 a v).2.isSome = false := by simpa [hl] using hsome
    simp [cost, hu, hd, proofHashesAt, hollow, hb, hl]

/-- **The first pass on an honest batch.** A supplied descent of the first pass at a node of
the MMR, with the utxos from its cursor on carrying the leaves it attempts, costs as many proof
hashes as the honest batch supplies there, and comes back without a digest exactly at a
hollow node. -/
theorem visit_first_pass {h a : Nat} (hn : (⟨a, h⟩ : MmrNode).InMmr (2 ^ 64))
    {v : VerifyMwebUtxosVars δ}
    (hm : Matches v (attempts [] v.leafset v.firstLeafIdx v.lastLeafIdx h a))
    (hs : Supplied (visit H [] h a v)) :
    cost v (visit H [] h a v) =
        (proofHashesAt H D v.leafset v.firstLeafIdx v.lastLeafIdx h a).length ∧
      ((visit H [] h a v).2.isSome ↔ hollow v.leafset v.firstLeafIdx v.lastLeafIdx h a = false) := by
  induction h generalizing a v with
  | zero =>
    by_cases hb : MmrNode.pos ⟨a, 0⟩ < LeafIdx.nodeIdx v.firstLeafIdx
    · exact cost_pulled_first_pass hb hs
    · exact visit_first_pass_leaf hb hm
  | succ h ih =>
    by_cases hb : MmrNode.pos ⟨a, h + 1⟩ < LeafIdx.nodeIdx v.firstLeafIdx
    · exact cost_pulled_first_pass hb hs
    have hc : ¬(MmrNode.pos ⟨a, h + 1⟩ < LeafIdx.nodeIdx v.firstLeafIdx ∨
        MmrNode.pos ⟨a, h + 1⟩ ∈ ([] : List Nat)) := by simp [hb]
    obtain ⟨hsL, hsR⟩ := visit_supplied_children hn hc hs
    have hcost := visit_succ_cost (H := H) hn hc
    have hL := (visit_marks (H := H) [] hn.leftChild v).1
    simp only [attempts, if_neg hc] at hm
    rw [matches_append hL.mwebUtxos_eq (visit_leavesUsed (H := H) [] hn.leftChild v)] at hm
    obtain ⟨hcl, hsl⟩ := ih hn.leftChild hm.1 hsL
    -- the right child: pulled when the last leaf cuts it off, a descent otherwise
    obtain ⟨hcr, hsr⟩ : cost (visit H [] h a v).1
          (rightChild (visit H [] h) h a (visit H [] h a v).1) =
        (if LeafIdx.nodeIdx v.lastLeafIdx ≤ MmrNode.pos ⟨a, h⟩ then 1
          else (proofHashesAt H D v.leafset v.firstLeafIdx v.lastLeafIdx h (a + 2 ^ h)).length) ∧
        ((rightChild (visit H [] h) h a (visit H [] h a v).1).2.isSome ↔
          ¬LeafIdx.nodeIdx v.lastLeafIdx ≤ MmrNode.pos ⟨a, h⟩ →
            hollow v.leafset v.firstLeafIdx v.lastLeafIdx h (a + 2 ^ h) = false) := by
      unfold rightChild at hsR ⊢
      rw [hL.lastLeafIdx_eq] at hsR ⊢
      split_ifs at hsR ⊢ with hcut
      · exact ⟨nextHash_cost _ _, iff_of_true (nextHash_isSome_of_supplied _ _ hsR)
          fun h => absurd hcut h⟩
      · rw [if_neg hcut] at hm
        have hm₂ := hm.2
        rw [← hL.leafset_eq, ← hL.firstLeafIdx_eq, ← hL.lastLeafIdx_eq] at hm₂
        have := ih hn.rightChild hm₂ hsR
        rw [hL.leafset_eq, hL.firstLeafIdx_eq, hL.lastLeafIdx_eq] at this
        exact ⟨this.1, by rw [this.2]; exact ⟨fun h _ => h, fun h => h hcut⟩⟩
    have hhol : hollow v.leafset v.firstLeafIdx v.lastLeafIdx (h + 1) a = true ↔
        (visit H [] h a v).2 = none ∧
          (rightChild (visit H [] h) h a (visit H [] h a v).1).2 = none := by
      rw [hollow_succ, ← Option.not_isSome_iff_eq_none, ← Option.not_isSome_iff_eq_none, hsl,
        hsr]
      simp [hb]
    by_cases hh : hollow v.leafset v.firstLeafIdx v.lastLeafIdx (h + 1) a = true
    · obtain ⟨hl0, hr0⟩ := hhol.1 hh
      have hr1 := (hollow_succ.1 hh).2.2
      rw [hcl, hcr, if_neg hr1.1, proofHashesAt_of_pulled (.inr (hollow_succ.1 hh).2.1),
        proofHashesAt_of_pulled (.inr hr1.2), hl0, hr0] at hcost
      simp only [Option.isNone_none, and_self, if_true, List.length_singleton] at hcost
      refine ⟨by rw [proofHashesAt_of_pulled (.inr hh)]; simp only [List.length_singleton]; omega,
        ?_⟩
      rw [visit_succ hc, hl0, hr0]
      simp [joinChildren, hh]
    · have hd : (visit H [] (h + 1) a v).2.isSome := by
        rcases hr : (visit H [] (h + 1) a v).2 with _ | d
        · rw [visit_succ hc] at hs hr
          exact absurd (hhol.2 (joinChildren_none hs hr)) hh
        · rfl
      have hnb : ¬((visit H [] h a v).2.isNone ∧
          (rightChild (visit H [] h) h a (visit H [] h a v).1).2.isNone) := by
        rw [Option.isNone_iff_eq_none, Option.isNone_iff_eq_none]
        exact fun h' => hh (hhol.2 h')
      rw [if_neg hnb, hcl, hcr] at hcost
      rw [proofHashesAt_succ (by simp [hb, hh]), List.length_append]
      refine ⟨?_, iff_of_true hd (by simpa using hh)⟩
      split_ifs at hcost ⊢ <;> simp only [List.length_singleton, Nat.add_zero] at hcost ⊢ <;> omega

theorem supplied_iff_cost_le {v : VerifyMwebUtxosVars δ} {r : VerifyMwebUtxosVars δ × Option δ}
    (hl : Later v r.1) :
    Supplied r ↔ v.hashesUsed + cost v r ≤ v.mwebUtxos.proofHashes.length := by
  have h1 := hl.hashesUsed
  have h2 := r.1.hashesUsed_le
  rw [hl.mwebUtxos_eq] at h2
  unfold Supplied cost
  rw [hl.mwebUtxos_eq]
  cases r.2.isSome <;> simp <;> omega

/-- Whatever proof hashes are left, a descent of the first pass with the utxos from its cursor
on carrying the leaves it attempts costs at most what the honest batch supplies at the node,
and comes back without a digest at a hollow node. -/
theorem visit_first_pass_cost_le {h a : Nat} (hn : (⟨a, h⟩ : MmrNode).InMmr (2 ^ 64))
    {v : VerifyMwebUtxosVars δ}
    (hm : Matches v (attempts [] v.leafset v.firstLeafIdx v.lastLeafIdx h a)) :
    cost v (visit H [] h a v) ≤
        (proofHashesAt H D v.leafset v.firstLeafIdx v.lastLeafIdx h a).length ∧
      (hollow v.leafset v.firstLeafIdx v.lastLeafIdx h a = true → (visit H [] h a v).2 = none) := by
  induction h generalizing a v with
  | zero =>
    by_cases hb : MmrNode.pos ⟨a, 0⟩ < LeafIdx.nodeIdx v.firstLeafIdx
    · rw [visit_pulled (.inl hb), nextHash_cost, proofHashesAt_of_pulled (.inl hb)]
      exact ⟨le_rfl, by simp [hollow, hb]⟩
    obtain ⟨hcl, hsl⟩ := visit_first_pass_leaf (H := H) (D := D) hb hm
    exact ⟨Nat.le_of_eq hcl, fun hh => Option.not_isSome_iff_eq_none.1 (by simp [hsl, hh])⟩
  | succ h ih =>
    by_cases hb : MmrNode.pos ⟨a, h + 1⟩ < LeafIdx.nodeIdx v.firstLeafIdx
    · rw [visit_pulled (.inl hb), nextHash_cost, proofHashesAt_of_pulled (.inl hb)]
      exact ⟨le_rfl, by simp [hollow, hb]⟩
    have hc : ¬(MmrNode.pos ⟨a, h + 1⟩ < LeafIdx.nodeIdx v.firstLeafIdx ∨
        MmrNode.pos ⟨a, h + 1⟩ ∈ ([] : List Nat)) := by simp [hb]
    have hcost := visit_succ_cost (H := H) hn hc
    have hL := (visit_marks (H := H) [] hn.leftChild v).1
    simp only [attempts, if_neg hc] at hm
    rw [matches_append hL.mwebUtxos_eq (visit_leavesUsed (H := H) [] hn.leftChild v)] at hm
    obtain ⟨hcl, hnl⟩ := ih hn.leftChild hm.1
    obtain ⟨hcr, hnr⟩ : cost (visit H [] h a v).1
          (rightChild (visit H [] h) h a (visit H [] h a v).1) ≤
        (if LeafIdx.nodeIdx v.lastLeafIdx ≤ MmrNode.pos ⟨a, h⟩ then 1
          else (proofHashesAt H D v.leafset v.firstLeafIdx v.lastLeafIdx h (a + 2 ^ h)).length) ∧
        (¬LeafIdx.nodeIdx v.lastLeafIdx ≤ MmrNode.pos ⟨a, h⟩ →
          hollow v.leafset v.firstLeafIdx v.lastLeafIdx h (a + 2 ^ h) = true →
          (rightChild (visit H [] h) h a (visit H [] h a v).1).2 = none) := by
      unfold rightChild
      rw [hL.lastLeafIdx_eq]
      split_ifs with hcut
      · exact ⟨Nat.le_of_eq (nextHash_cost _ _), fun h => absurd hcut h⟩
      · rw [if_neg hcut] at hm
        have hm₂ := hm.2
        rw [← hL.leafset_eq, ← hL.firstLeafIdx_eq, ← hL.lastLeafIdx_eq] at hm₂
        have := ih hn.rightChild hm₂
        rw [hL.leafset_eq, hL.firstLeafIdx_eq, hL.lastLeafIdx_eq] at this
        exact ⟨this.1, fun _ => this.2⟩
    by_cases hh : hollow v.leafset v.firstLeafIdx v.lastLeafIdx (h + 1) a = true
    · obtain ⟨-, hl1, hcut, hr1⟩ := hollow_succ.1 hh
      have hl0 := hnl hl1
      have hr0 := hnr hcut hr1
      rw [proofHashesAt_of_pulled (.inr hl1), if_neg hcut, proofHashesAt_of_pulled (.inr hr1)] at *
      rw [hl0, hr0] at hcost
      simp only [Option.isNone_none, and_self, if_true, List.length_singleton] at hcost hcl hcr
      refine ⟨by rw [proofHashesAt_of_pulled (.inr hh)]; simp only [List.length_singleton]; omega,
        fun _ => ?_⟩
      rw [visit_succ hc, hl0, hr0]
      rfl
    · rw [proofHashesAt_succ (by simp [hb, hh]), List.length_append]
      refine ⟨?_, fun h' => absurd h' hh⟩
      have hle := hcost ▸ Nat.le_add_right (cost v (visit H [] (h + 1) a v)) _
      split_ifs at hcr ⊢ <;> simp only [List.length_singleton] at * <;> omega

/-- **A first pass with enough proof hashes is supplied**: one whose proof hashes left cover
those the honest batch supplies at the node. -/
theorem visit_first_pass_supplied {h a : Nat} (hn : (⟨a, h⟩ : MmrNode).InMmr (2 ^ 64))
    {v : VerifyMwebUtxosVars δ}
    (hm : Matches v (attempts [] v.leafset v.firstLeafIdx v.lastLeafIdx h a))
    (hsup : v.hashesUsed + (proofHashesAt H D v.leafset v.firstLeafIdx v.lastLeafIdx h a).length ≤
      v.mwebUtxos.proofHashes.length) :
    Supplied (visit H [] h a v) :=
  (supplied_iff_cost_le (visit_marks [] hn v).1).2
    (le_trans (Nat.add_le_add_left (visit_first_pass_cost_le (D := D) hn hm).1 _) hsup)

end FirstPass

/-! ## Cursors -/

section Cursors

variable {v w : VerifyMwebUtxosVars δ}

theorem Matches.length_le {ls : List Nat} (hm : Matches v ls) :
    v.leavesUsed + ls.length ≤ v.mwebUtxos.utxos.length := by
  have hl := congrArg List.length hm
  have := v.leavesUsed_le
  simp only [List.length_take, List.length_map, List.length_drop] at hl
  omega

theorem Matches.split {s t : List Nat} (hm : Matches v (s ++ t)) (hu : w.mwebUtxos = v.mwebUtxos)
    (hw : w.leavesUsed = v.leavesUsed + s.length) : Matches v s ∧ Matches w t :=
  (matches_append hu (by have := hm.length_le; rw [List.length_append] at this; omega)).1 hm

theorem Matches.left {s t : List Nat} (hm : Matches v (s ++ t)) : Matches v s := by
  unfold Matches at hm ⊢
  have := congrArg (List.take s.length) hm
  rwa [List.take_take, List.length_append, min_eq_left (Nat.le_add_right _ _),
    List.take_left' rfl] at this

theorem CarriesIds.left {D : Nat → δ} {m n : Nat} (hc : CarriesIds D v (m + n)) :
    CarriesIds D v m := fun u hu => hc u (by rw [List.take_add]; exact List.mem_append_left _ hu)

theorem CarriesIds.split {D : Nat → δ} {m n : Nat} (hc : CarriesIds D v (m + n))
    (hu : w.mwebUtxos = v.mwebUtxos) (hw : w.leavesUsed = v.leavesUsed + m)
    (hle : v.leavesUsed + m ≤ v.mwebUtxos.utxos.length) : CarriesIds D v m ∧ CarriesIds D w n :=
  (carriesIds_append hu (by omega)).1 hc

/-- `nextHash` answers with the first of the proof hashes left. -/
theorem nextHash_of_prefix {q : Nat} {d : δ} {ds : List δ}
    (h : d :: ds <+: v.mwebUtxos.proofHashes.drop v.hashesUsed) :
    (v.nextHash q).2 = some d ∧ (v.nextHash q).1.hashesUsed = v.hashesUsed + 1 := by
  have hd : v.mwebUtxos.proofHashes[v.hashesUsed]? = some d := by
    obtain ⟨t, ht⟩ := h
    rw [← List.head?_drop, ← ht]
    rfl
  have hlt : v.hashesUsed < v.mwebUtxos.proofHashes.length := by
    by_contra hge
    rw [List.getElem?_eq_none (by omega)] at hd
    cases hd
  exact ⟨by rw [nextHash_snd, hd], by rw [nextHash_hashesUsed]; omega⟩

theorem nextHash_of_singleton {q : Nat} {R : List δ} {z : δ} (hR : R.length = 1)
    (h : R <+: v.mwebUtxos.proofHashes.drop v.hashesUsed) :
    (v.nextHash q).2 = some (R.headD z) ∧ (v.nextHash q).1.hashesUsed = v.hashesUsed + 1 := by
  obtain ⟨d, rfl⟩ := List.length_eq_one.1 hR
  exact nextHash_of_prefix h

theorem prefix_drop_of_append {xs ys X : List δ} {k : Nat} (h : xs ++ ys <+: X.drop k) :
    xs <+: X.drop k ∧ ys <+: X.drop (k + xs.length) := by
  refine ⟨(List.prefix_append xs ys).trans h, ?_⟩
  obtain ⟨t, ht⟩ := h
  rw [← List.drop_drop, ← ht, List.append_assoc, List.drop_left' rfl]
  exact List.prefix_append ys t

end Cursors

/-! ## The second pass -/

section SecondPass

variable {H : Hashing δ} {D : Nat → δ} {K : List Nat} {h a : Nat} {v₁ v₂ : VerifyMwebUtxosVars δ}

/-- Where the second pass pulls on an honest batch, the node is left of the first leaf or
hollow. -/
theorem SecondPassAt.pulled_hollow (hp : SecondPassAt H K h a v₁ v₂)
    (hn : (⟨a, h⟩ : MmrNode).InMmr (2 ^ 64))
    (hm₁ : Matches v₁ (attempts [] v₁.leafset v₁.firstLeafIdx v₁.lastLeafIdx h a))
    (hs₁ : Supplied (visit H [] h a v₁))
    (hc₂ : MmrNode.pos ⟨a, h⟩ < LeafIdx.nodeIdx v₂.firstLeafIdx ∨ MmrNode.pos ⟨a, h⟩ ∈ K) :
    MmrNode.pos ⟨a, h⟩ < LeafIdx.nodeIdx v₁.firstLeafIdx ∨
      hollow v₁.leafset v₁.firstLeafIdx v₁.lastLeafIdx h a = true := by
  by_cases hb : MmrNode.pos ⟨a, h⟩ < LeafIdx.nodeIdx v₁.firstLeafIdx
  · exact .inl hb
  refine .inr ?_
  rcases hc₂ with hlt | hK
  · exact absurd (hp.firstLeafIdx_eq ▸ hlt) hb
  have hc₁ : ¬(MmrNode.pos ⟨a, h⟩ < LeafIdx.nodeIdx v₁.firstLeafIdx ∨
      MmrNode.pos ⟨a, h⟩ ∈ ([] : List Nat)) := by simp [hb]
  rcases (hp.marks _ (mmrSize_le_pos a h) le_rfl).1 hK with hm | ⟨-, hr⟩
  · obtain ⟨A, hA, hq⟩ := visit_marks_lt (H := H) (v := v₁) hn hc₁
    rw [hA, List.mem_append] at hm
    rcases hm with hm | hm
    · exact absurd (hq _ hm) (lt_irrefl _)
    · exact absurd hm (hp.fresh _ (mmrSize_le_pos a h) le_rfl)
  · -- the digests do not matter here, only whether the first pass found one
    have := (visit_first_pass (D := fun _ => H.zero) hn hm₁ hs₁).2
    rw [hr] at this
    simpa using this

/-- The second pass where it pulls. -/
theorem visit_second_pass_pulled (hn : (⟨a, h⟩ : MmrNode).InMmr (2 ^ 64))
    (hp : SecondPassAt H K h a v₁ v₂)
    (hm₁ : Matches v₁ (attempts [] v₁.leafset v₁.firstLeafIdx v₁.lastLeafIdx h a))
    (hs₁ : Supplied (visit H [] h a v₁)) {Q : List δ}
    (hQ : Q.length = (proofHashesAt H D v₁.leafset v₁.firstLeafIdx v₁.lastLeafIdx h a).length)
    (hpf : Q <+: v₂.mwebUtxos.proofHashes.drop v₂.hashesUsed)
    (hc₂ : MmrNode.pos ⟨a, h⟩ < LeafIdx.nodeIdx v₂.firstLeafIdx ∨ MmrNode.pos ⟨a, h⟩ ∈ K) :
    (visit H K h a v₂).2 = some (rebuildAt H D v₁.leafset v₁.firstLeafIdx v₁.lastLeafIdx h a Q) ∧
      (visit H K h a v₂).1.hashesUsed = v₂.hashesUsed + Q.length ∧
      (visit H K h a v₂).1.leavesUsed =
        v₂.leavesUsed + (attempts [] v₁.leafset v₁.firstLeafIdx v₁.lastLeafIdx h a).length := by
  have hbh := hp.pulled_hollow hn hm₁ hs₁ hc₂
  rw [proofHashesAt_of_pulled hbh, List.length_singleton] at hQ
  obtain ⟨q, rfl⟩ := List.length_eq_one.1 hQ
  have hA : attempts [] v₁.leafset v₁.firstLeafIdx v₁.lastLeafIdx h a = [] :=
    hbh.elim (fun hb => attempts_pulled (.inl hb)) attempts_eq_nil_of_hollow
  rw [rebuildAt_of_pulled hbh, visit_pulled hc₂, hA]
  obtain ⟨h1, h2⟩ := nextHash_of_prefix (q := MmrNode.pos ⟨a, h⟩) hpf
  exact ⟨h1, h2, by simp⟩

/-- **The second pass rebuilds its digest from the proof hashes it is given.** At a node of the
MMR, against the marks the first pass left, with the utxos from its cursor on carrying the
committed ids of the leaves the first pass attempts, the second pass's descent takes as many
proof hashes `Q` as the honest batch supplies there, and returns the digest `rebuildAt` makes of
them. -/
theorem visit_second_pass_rebuildAt (hn : (⟨a, h⟩ : MmrNode).InMmr (2 ^ 64))
    (hp : SecondPassAt H K h a v₁ v₂)
    (hm₁ : Matches v₁ (attempts [] v₁.leafset v₁.firstLeafIdx v₁.lastLeafIdx h a))
    (hs₁ : Supplied (visit H [] h a v₁))
    (hm₂ : Matches v₂ (attempts [] v₁.leafset v₁.firstLeafIdx v₁.lastLeafIdx h a))
    (hc₂ : CarriesIds D v₂ (attempts [] v₁.leafset v₁.firstLeafIdx v₁.lastLeafIdx h a).length)
    {Q : List δ}
    (hQ : Q.length = (proofHashesAt H D v₁.leafset v₁.firstLeafIdx v₁.lastLeafIdx h a).length)
    (hpf : Q <+: v₂.mwebUtxos.proofHashes.drop v₂.hashesUsed) :
    (visit H K h a v₂).2 = some (rebuildAt H D v₁.leafset v₁.firstLeafIdx v₁.lastLeafIdx h a Q) ∧
      (visit H K h a v₂).1.hashesUsed = v₂.hashesUsed + Q.length ∧
      (visit H K h a v₂).1.leavesUsed =
        v₂.leavesUsed + (attempts [] v₁.leafset v₁.firstLeafIdx v₁.lastLeafIdx h a).length := by
  induction h generalizing a v₁ v₂ Q with
  | zero =>
    by_cases hc : MmrNode.pos ⟨a, 0⟩ < LeafIdx.nodeIdx v₂.firstLeafIdx ∨ MmrNode.pos ⟨a, 0⟩ ∈ K
    · exact visit_second_pass_pulled hn hp hm₁ hs₁ hQ hpf hc
    obtain ⟨hr₁, hc₁⟩ := hp.first_of_not_pulled hc
    have hb : ¬MmrNode.pos ⟨a, 0⟩ < LeafIdx.nodeIdx v₁.firstLeafIdx := fun h => hc₁ (.inl h)
    have hnh := (visit_first_pass (D := D) hn hm₁ hs₁).2.1 hr₁
    have hl : v₁.leafset.contains a := by simpa [hollow, hb] using hnh
    have hA : attempts [] v₁.leafset v₁.firstLeafIdx v₁.lastLeafIdx 0 a = [a] := by
      simp [attempts, hb, hl]
    rw [hA] at hm₂ hc₂ ⊢
    obtain rfl : Q = [] := List.length_eq_zero.1 (by simpa [proofHashesAt, hb, hnh] using hQ)
    rw [show rebuildAt H D v₁.leafset v₁.firstLeafIdx v₁.lastLeafIdx 0 a [] = treeDigest H D 0 a
      by simp [rebuildAt, hb, hnh]]
    obtain ⟨u, hu, hua⟩ := (matches_singleton v₂ a).1 hm₂
    have hid := (carriesIds_one v₂).1 hc₂ u hu
    have hlt : v₂.leavesUsed < v₂.mwebUtxos.utxos.length := by
      by_contra hge
      rw [List.getElem?_eq_none (by omega)] at hu
      cases hu
    rw [visit_zero hc, if_pos (hp.leafset_eq ▸ hl), hu]
    simp only [hua, if_true, nextLeaf_hashesUsed, nextLeaf_leavesUsed, List.length_nil,
      List.length_singleton, Nat.add_zero, true_and]
    exact ⟨by rw [hid, hua]; rfl, by omega⟩
  | succ h ih =>
    by_cases hc : MmrNode.pos ⟨a, h + 1⟩ < LeafIdx.nodeIdx v₂.firstLeafIdx ∨
        MmrNode.pos ⟨a, h + 1⟩ ∈ K
    · exact visit_second_pass_pulled hn hp hm₁ hs₁ hQ hpf hc
    obtain ⟨hr₁, hc₁⟩ := hp.first_of_not_pulled hc
    have hb : ¬MmrNode.pos ⟨a, h + 1⟩ < LeafIdx.nodeIdx v₁.firstLeafIdx := fun h => hc₁ (.inl h)
    have hnh := (visit_first_pass (D := D) hn hm₁ hs₁).2.1 hr₁
    have hcP : ¬(MmrNode.pos ⟨a, h + 1⟩ < LeafIdx.nodeIdx v₁.firstLeafIdx ∨
        hollow v₁.leafset v₁.firstLeafIdx v₁.lastLeafIdx (h + 1) a) := by simp [hb, hnh]
    obtain ⟨hsL, hsR⟩ := visit_supplied_children hn hc₁ hs₁
    have hL₁ := (visit_marks (H := H) [] hn.leftChild v₁).1
    have hL₂ := (visit_marks (H := H) K hn.leftChild v₂).1
    have hlast : v₂.lastLeafIdx = v₁.lastLeafIdx := hp.lastLeafIdx_eq
    simp only [attempts, if_neg hc₁] at hm₁ hm₂ hc₂ ⊢
    rw [proofHashesAt_succ hcP, List.length_append] at hQ
    rw [rebuildAt_succ hcP]
    -- the proof hashes of the left child, then those of the right
    rw [← List.take_append_drop (proofHashesAt H D v₁.leafset v₁.firstLeafIdx v₁.lastLeafIdx h
      a).length Q] at hpf
    have hpl := prefix_drop_of_append hpf
    obtain ⟨hm₁l, hm₁r⟩ := hm₁.split hL₁.mwebUtxos_eq (by
      rw [visit_leavesUsed [] hn.leftChild v₁]
      have := hm₁.length_le
      rw [List.length_append] at this
      omega)
    rw [List.length_append] at hc₂
    obtain ⟨hdl, hhl, hll⟩ := ih hn.leftChild (hp.left hn hc₁ hr₁) hm₁l hsL hm₂.left hc₂.left
      (by rw [List.length_take]; omega) hpl.1
    have hle₂ := hm₂.length_le
    rw [List.length_append] at hle₂
    obtain ⟨-, hm₂r⟩ := hm₂.split hL₂.mwebUtxos_eq hll
    obtain ⟨-, hc₂r⟩ := hc₂.split hL₂.mwebUtxos_eq hll (by omega)
    rw [← hhl, ← hL₂.mwebUtxos_eq] at hpl
    rw [visit_succ hc, hdl]
    unfold rightChild at hsR ⊢
    rw [hL₁.lastLeafIdx_eq] at hsR
    rw [hL₂.lastLeafIdx_eq, hlast]
    have hlen : (Q.take (proofHashesAt H D v₁.leafset v₁.firstLeafIdx v₁.lastLeafIdx h
        a).length).length + (Q.drop (proofHashesAt H D v₁.leafset v₁.firstLeafIdx v₁.lastLeafIdx h
        a).length).length = Q.length := by simp only [List.length_take, List.length_drop]; omega
    by_cases hcut : LeafIdx.nodeIdx v₁.lastLeafIdx ≤ MmrNode.pos ⟨a, h⟩
    · simp only [if_pos hcut, List.length_singleton] at hpl hQ ⊢
      have hR : (Q.drop (proofHashesAt H D v₁.leafset v₁.firstLeafIdx v₁.lastLeafIdx h
          a).length).length = 1 := by rw [List.length_drop]; omega
      obtain ⟨hdr, hhr⟩ := nextHash_of_singleton (q := MmrNode.pos ⟨a + 2 ^ h, h⟩) (z := H.zero)
        hR hpl.2
      rw [hdr]
      simp only [joinChildren, nextHash_leavesUsed, List.append_nil]
      exact ⟨trivial, by omega, hll⟩
    · simp only [if_neg hcut] at hsR hpl hm₁r hm₂r hc₂r hQ ⊢
      rw [← hL₁.leafset_eq, ← hL₁.firstLeafIdx_eq, ← hL₁.lastLeafIdx_eq] at hm₁r hm₂r hc₂r
      obtain ⟨hdr, hhr, hlr⟩ := ih hn.rightChild (hp.right hn hc₁ hr₁ hcut) hm₁r hsR hm₂r hc₂r
        (by rw [List.length_drop, hL₁.leafset_eq, hL₁.firstLeafIdx_eq, hL₁.lastLeafIdx_eq]; omega)
        hpl.2
      rw [hL₁.leafset_eq, hL₁.firstLeafIdx_eq, hL₁.lastLeafIdx_eq] at hlr hdr
      rw [hdr]
      simp only [joinChildren, List.length_append]
      exact ⟨trivial, by omega, by omega⟩

end SecondPass

/-! ## The walk -/

variable (H : Hashing δ) (D : Nat → δ) in
/-- The proof hashes an honest batch supplies for the walk over the peaks `rest`: each visited
peak's, then the bag of the peaks after the last leaf's. -/
def walkProofs (L : Leafset) (first last nn : Nat) : List MmrNode → List δ
  | [] => []
  | P :: rest => proofHashesAt H D L first last P.height P.leaf ++
      if LeafIdx.nodeIdx last ≤ P.pos then
        match peakDigests H D rest with
        | [] => []
        | d :: ds => [mmrBag H nn d ds]
      else walkProofs L first last nn rest

variable (H : Hashing δ) (D : Nat → δ) in
/-- The digests the second pass's walk over the peaks `rest` collects from the proof hashes `Q`,
taken in the order `walkProofs` lists them. -/
def walkRebuild (L : Leafset) (first last : Nat) : List MmrNode → List δ → List δ
  | [], _ => []
  | P :: rest, Q =>
    let n := (proofHashesAt H D L first last P.height P.leaf).length
    rebuildAt H D L first last P.height P.leaf (Q.take n) ::
      if LeafIdx.nodeIdx last ≤ P.pos then (if rest = [] then [] else [(Q.drop n).headD H.zero])
      else walkRebuild L first last rest (Q.drop n)

section Walk

variable {H : Hashing δ} {D : Nat → δ} {L : Leafset} {first last nn : Nat}

theorem length_bagProof (rest : List MmrNode) :
    (match peakDigests H D rest with
      | [] => []
      | d :: ds => [mmrBag H nn d ds]).length = if rest = [] then 0 else 1 := by
  cases rest <;> simp [peakDigests]

/-- The honest proof hashes rebuild the honest walk's digests. -/
theorem walkRebuild_walkProofs : ∀ rest : List MmrNode,
    walkRebuild H D L first last rest (walkProofs H D L first last nn rest) =
      walkDigests H D nn last rest
  | [] => rfl
  | P :: rest => by
    simp only [walkRebuild, walkProofs, walkDigests, List.take_left, List.drop_left,
      rebuildAt_proofHashesAt, List.cons.injEq, true_and]
    by_cases hcut : LeafIdx.nodeIdx last ≤ P.pos
    · simp only [if_pos hcut]
      cases rest <;> simp [peakDigests]
    · simp only [if_neg hcut, walkRebuild_walkProofs rest]

theorem length_walkRebuild : ∀ (rest : List MmrNode) (Q : List δ),
    (walkRebuild H D L first last rest Q).length = (walkDigests H D nn last rest).length
  | [], _ => rfl
  | P :: rest, Q => by
    simp only [walkRebuild, walkDigests, List.length_cons, Nat.add_right_cancel_iff]
    by_cases hcut : LeafIdx.nodeIdx last ≤ P.pos
    · simp only [if_pos hcut]
      cases rest <;> simp [peakDigests]
    · simp only [if_neg hcut, length_walkRebuild rest]

/-- **With collision-free digests only the honest proof hashes rebuild the honest walk's
digests**, among the lists of their length. -/
theorem eq_walkProofs_of_walkRebuild (hH : H.CollisionFree) : ∀ {rest : List MmrNode}
    {Q : List δ}, Q.length = (walkProofs H D L first last nn rest).length →
    walkRebuild H D L first last rest Q = walkDigests H D nn last rest →
    Q = walkProofs H D L first last nn rest
  | [], Q, hQ, _ => List.length_eq_zero.1 hQ
  | P :: rest, Q, hQ, hr => by
    simp only [walkRebuild, walkDigests, walkProofs, List.cons.injEq] at hQ hr ⊢
    rw [List.length_append] at hQ
    obtain ⟨hd, hr⟩ := hr
    rw [← List.take_append_drop (proofHashesAt H D L first last P.height P.leaf).length Q,
      eq_proofHashesAt_of_rebuildAt hH (by rw [List.length_take]; omega) hd]
    congr 1
    split_ifs at hr hQ ⊢ with hcut hrest
    · subst hrest
      exact List.length_eq_zero.1 (by simp [peakDigests] at hQ; rw [List.length_drop]; omega)
    · obtain ⟨R, rs, rfl⟩ := List.exists_cons_of_ne_nil hrest
      simp only [peakDigests, List.map_cons, List.cons.injEq, and_true,
        List.length_singleton] at hr hQ ⊢
      exact eq_singleton_of_headD (by rw [List.length_drop]; omega) hr
    · exact eq_walkProofs_of_walkRebuild hH (by rw [List.length_drop]; omega) hr

end Walk

/-! ## The passes over the walk -/

section WalkPasses

variable {H : Hashing δ} {D : Nat → δ} {nn : Nat}

/-- A peak whose descent was never short of a proof hash gets a digest. -/
theorem peakDigest_isSome {M : List Nat} {P : MmrNode} {v : VerifyMwebUtxosVars δ}
    (hs : Supplied (visit H M P.height P.leaf v)) : ∃ x d, peakDigest H M P v = (x, some d) := by
  rcases hV : visit H M P.height P.leaf v with ⟨x, _ | e⟩ <;> rw [hV] at hs
  · obtain ⟨y, b, hN⟩ : ∃ y b, x.nextHash P.pos = (y, some b) := by
      rcases hN : x.nextHash P.pos with ⟨y, _ | b⟩
      · have := (nextHash_isSome x P.pos).2 (by simpa [Supplied] using hs)
        rw [hN] at this
        cases this
      · exact ⟨y, b, rfl⟩
    exact ⟨y, b, by simp only [peakDigest, hV, hN]⟩
  · exact ⟨x, e, by simp only [peakDigest, hV]⟩

/-- A peak's digest leaves the walk's inputs alone, and moves the leaf cursor past the leaves
the descent attempts when the utxos carry them. -/
theorem peakDigest_later {M : List Nat} {P : MmrNode} (hP : P.InMmr (2 ^ 64))
    {v x : VerifyMwebUtxosVars δ} {d : δ} (hD : peakDigest H M P v = (x, some d)) {t : List Nat}
    (hm : Matches v (attempts M v.leafset v.firstLeafIdx v.lastLeafIdx P.height P.leaf ++ t)) :
    Later v x ∧ x.leavesUsed =
      v.leavesUsed + (attempts M v.leafset v.firstLeafIdx v.lastLeafIdx P.height P.leaf).length := by
  obtain ⟨-, -, hlu, hl, -⟩ := peakDigest_some hP hD
  refine ⟨(visit_marks (H := H) M hP v).1.trans hl, ?_⟩
  have := hm.length_le
  rw [List.length_append] at this
  rw [hlu, visit_leavesUsed M hP v]
  omega

/-- **The first pass's walk over an honest batch uses the honest number of proof hashes.** -/
theorem walkPeaks_first_pass {rest : List MmrNode} (hw : PeaksWF rest)
    {v w : VerifyMwebUtxosVars δ} {ds es : List δ}
    (hm : Matches v (walkAttempts [] v.leafset v.firstLeafIdx v.lastLeafIdx rest))
    (h : walkPeaks H [] nn rest v ds = some (w, es)) :
    w.hashesUsed =
      v.hashesUsed + (walkProofs H D v.leafset v.firstLeafIdx v.lastLeafIdx nn rest).length := by
  induction rest generalizing v ds with
  | nil =>
    obtain ⟨rfl, -⟩ := Prod.mk.inj (Option.some.inj h)
    rfl
  | cons P rest ih =>
    have hP := hw.inMmr P (List.mem_cons_self _ _)
    simp only [walkPeaks] at h
    rcases hD : peakDigest H [] P v with ⟨x, _ | d⟩ <;> rw [hD] at h
    · simp at h
    obtain ⟨hs, hu, -, -, -⟩ := peakDigest_some hP hD
    simp only [walkAttempts] at hm
    obtain ⟨hx, hxlu⟩ := peakDigest_later hP hD hm
    obtain ⟨hmP, hmr⟩ := hm.split hx.mwebUtxos_eq hxlu
    have hcost := (visit_first_pass (D := D) hP hmP hs).1
    simp only at h
    rw [hx.lastLeafIdx_eq] at h
    simp only [walkProofs, List.length_append]
    split_ifs at h hmr ⊢ with hcut
    · rw [(breakTree_some h).2.2.1, length_bagProof, hu, hcost]
      simp only [List.length_eq_zero]
      split_ifs <;> omega
    · rw [← hx.leafset_eq, ← hx.firstLeafIdx_eq, ← hx.lastLeafIdx_eq] at hmr
      rw [ih (hw.suffix (List.suffix_cons P rest)) hmr h, hx.leafset_eq, hx.firstLeafIdx_eq,
        hx.lastLeafIdx_eq, hu, hcost]
      omega

/-- **A first pass with the honest number of proof hashes left gets through the walk.** -/
theorem walkPeaks_first_pass_some {rest : List MmrNode} (hw : PeaksWF rest)
    {v : VerifyMwebUtxosVars δ} {ds : List δ}
    (hm : Matches v (walkAttempts [] v.leafset v.firstLeafIdx v.lastLeafIdx rest))
    (hsup : v.hashesUsed + (walkProofs H D v.leafset v.firstLeafIdx v.lastLeafIdx nn rest).length ≤
      v.mwebUtxos.proofHashes.length) :
    ∃ w es, walkPeaks H [] nn rest v ds = some (w, es) := by
  induction rest generalizing v ds with
  | nil => exact ⟨v, ds, rfl⟩
  | cons P rest ih =>
    have hP := hw.inMmr P (List.mem_cons_self _ _)
    simp only [walkAttempts] at hm
    simp only [walkProofs, List.length_append] at hsup
    obtain ⟨x, d, hD⟩ := peakDigest_isSome (visit_first_pass_supplied (H := H) (D := D) hP hm.left
      (by omega))
    obtain ⟨hs, hu, -, -, -⟩ := peakDigest_some hP hD
    obtain ⟨hx, hxlu⟩ := peakDigest_later hP hD hm
    obtain ⟨hmP, hmr⟩ := hm.split hx.mwebUtxos_eq hxlu
    have hcost := (visit_first_pass (D := D) hP hmP hs).1
    have hlen := hx.mwebUtxos_eq
    simp only [walkPeaks, hD]
    rw [hx.lastLeafIdx_eq]
    split_ifs at hmr hsup ⊢ with hcut
    · unfold breakTree
      split_ifs with hr
      · exact ⟨_, _, rfl⟩
      obtain ⟨y, b, hN⟩ : ∃ y b, x.nextHash nn = (y, some b) := by
        rcases hN : x.nextHash nn with ⟨y, _ | b⟩
        · have := (nextHash_isSome x nn).2 (by
            rw [length_bagProof, if_neg hr] at hsup
            rw [hu, hcost, hlen]
            omega)
          rw [hN] at this
          cases this
        · exact ⟨y, b, rfl⟩
      exact ⟨y, ds ++ [d] ++ [b], by simp only [hN]⟩
    · rw [← hx.leafset_eq, ← hx.firstLeafIdx_eq, ← hx.lastLeafIdx_eq] at hmr
      exact ih (hw.suffix (List.suffix_cons P rest)) hmr (by
        rw [hx.leafset_eq, hx.firstLeafIdx_eq, hx.lastLeafIdx_eq, hu, hcost, hlen]
        omega)

/-- **The second pass's walk rebuilds its digests from the proof hashes it is given.** Against
the marks the first pass's walk left, with the utxos from its cursor on carrying the committed
ids of the leaves the first pass attempts, the second pass's walk takes as many proof hashes `Q`
as the honest batch supplies, and collects the digests `walkRebuild` makes of them. -/
theorem walkPeaks_second_pass_rebuild {K : List Nat} {rest : List MmrNode}
    (hw : PeaksWF rest) (hnn : ∀ P ∈ rest, P.pos < nn)
    {v₁ v₂ w₁ : VerifyMwebUtxosVars δ} {ds₁ es₁ ds₂ Q : List δ}
    (hin : v₂.inputs = v₁.inputs) (hv₁ : ∀ q ∈ v₁.isProofHash, ∀ P ∈ rest, q < mmrSize P.leaf)
    (hK : ∀ P ∈ rest, ∀ q, mmrSize P.leaf ≤ q → q ≤ P.pos → (q ∈ K ↔ q ∈ w₁.isProofHash))
    (h₁ : walkPeaks H [] nn rest v₁ ds₁ = some (w₁, es₁))
    (hm₁ : Matches v₁ (walkAttempts [] v₁.leafset v₁.firstLeafIdx v₁.lastLeafIdx rest))
    (hm₂ : Matches v₂ (walkAttempts [] v₁.leafset v₁.firstLeafIdx v₁.lastLeafIdx rest))
    (hc₂ : CarriesIds D v₂ (walkAttempts [] v₁.leafset v₁.firstLeafIdx v₁.lastLeafIdx rest).length)
    (hQ : Q.length = (walkProofs H D v₁.leafset v₁.firstLeafIdx v₁.lastLeafIdx nn rest).length)
    (hpf : Q <+: v₂.mwebUtxos.proofHashes.drop v₂.hashesUsed) :
    ∃ w₂, walkPeaks H K nn rest v₂ ds₂ =
        some (w₂, ds₂ ++ walkRebuild H D v₁.leafset v₁.firstLeafIdx v₁.lastLeafIdx rest Q) ∧
      w₂.hashesUsed = v₂.hashesUsed + Q.length ∧
      w₂.leavesUsed =
        v₂.leavesUsed + (walkAttempts [] v₁.leafset v₁.firstLeafIdx v₁.lastLeafIdx rest).length := by
  induction rest generalizing v₁ v₂ ds₁ ds₂ Q with
  | nil =>
    simp only [walkProofs, List.length_nil, List.length_eq_zero] at hQ
    exact ⟨v₂, by simp [walkPeaks, walkRebuild], by simp [hQ], by simp [walkAttempts]⟩
  | cons P rest ih =>
    have hP := hw.inMmr P (List.mem_cons_self _ _)
    simp only [walkPeaks] at h₁
    rcases hD₁ : peakDigest H [] P v₁ with ⟨x₁, _ | d₁⟩ <;> rw [hD₁] at h₁
    · simp at h₁
    simp only at h₁
    obtain ⟨hs₁, -, -, -, -⟩ := peakDigest_some hP hD₁
    simp only [walkAttempts] at hm₁ hm₂ hc₂ ⊢
    obtain ⟨hx₁, hxlu₁⟩ := peakDigest_later hP hD₁ hm₁
    rw [hx₁.lastLeafIdx_eq] at h₁
    obtain ⟨hpa, hv₁'⟩ := secondPassAt_peak hw hnn hin hv₁ (hK P (List.mem_cons_self _ _)) hD₁ h₁
    obtain ⟨hm₁P, hm₁r⟩ := hm₁.split hx₁.mwebUtxos_eq hxlu₁
    simp only [walkProofs, List.length_append] at hQ
    rw [List.length_append] at hc₂
    -- the peak's proof hashes, then the rest
    rw [← List.take_append_drop (proofHashesAt H D v₁.leafset v₁.firstLeafIdx v₁.lastLeafIdx
      P.height P.leaf).length Q] at hpf
    have hpl := prefix_drop_of_append hpf
    obtain ⟨hd, hh, hl⟩ := visit_second_pass_rebuildAt hP hpa hm₁P hs₁ hm₂.left hc₂.left
      (by rw [List.length_take]; omega) hpl.1
    obtain ⟨y₂, hV⟩ : ∃ y₂, visit H K P.height P.leaf v₂ = (y₂, some (rebuildAt H D v₁.leafset
        v₁.firstLeafIdx v₁.lastLeafIdx P.height P.leaf (Q.take (proofHashesAt H D v₁.leafset
        v₁.firstLeafIdx v₁.lastLeafIdx P.height P.leaf).length))) := ⟨_, Prod.ext rfl hd⟩
    have hy₂ := (visit_marks (H := H) K hP v₂).1
    rw [hV] at hh hl hy₂
    dsimp only at hh hl hy₂
    rw [← hh, ← hy₂.mwebUtxos_eq] at hpl
    have hlast : y₂.lastLeafIdx = v₁.lastLeafIdx := hy₂.lastLeafIdx_eq.trans hpa.lastLeafIdx_eq
    have hlen := congrArg List.length (List.take_append_drop
      (proofHashesAt H D v₁.leafset v₁.firstLeafIdx v₁.lastLeafIdx P.height P.leaf).length Q)
    rw [List.length_append] at hlen
    simp only [walkPeaks, peakDigest, hV, walkRebuild]
    rw [hlast]
    by_cases hcut : LeafIdx.nodeIdx v₁.lastLeafIdx ≤ P.pos
    · simp only [if_pos hcut, List.append_nil] at hQ ⊢
      rw [length_bagProof] at hQ
      unfold breakTree
      by_cases hr : rest = []
      · simp only [if_pos hr] at hQ ⊢
        exact ⟨y₂, by simp, by rw [List.length_take] at hh; omega, hl⟩
      simp only [if_neg hr] at hQ ⊢
      have hR : (Q.drop (proofHashesAt H D v₁.leafset v₁.firstLeafIdx v₁.lastLeafIdx P.height
          P.leaf).length).length = 1 := by rw [List.length_drop]; omega
      obtain ⟨hdr, hhr⟩ := nextHash_of_singleton (q := nn) (z := H.zero) hR hpl.2
      rcases hN : y₂.nextHash nn with ⟨z, e⟩
      rw [hN] at hdr hhr
      dsimp only at hhr
      subst hdr
      refine ⟨z, by simp, by omega, ?_⟩
      rw [← hl, ← nextHash_leavesUsed y₂ nn, hN]
    · simp only [if_neg hcut] at hQ hm₁r hm₂ hc₂ h₁ ⊢
      rw [← hx₁.leafset_eq, ← hx₁.firstLeafIdx_eq, ← hx₁.lastLeafIdx_eq] at hm₁r
      have hle₂ := hm₂.length_le
      rw [List.length_append] at hle₂
      obtain ⟨-, hm₂r⟩ := hm₂.split hy₂.mwebUtxos_eq hl
      obtain ⟨-, hc₂r⟩ := hc₂.split hy₂.mwebUtxos_eq hl (by omega)
      rw [← hx₁.leafset_eq, ← hx₁.firstLeafIdx_eq, ← hx₁.lastLeafIdx_eq] at hm₂r hc₂r
      obtain ⟨w₂, hW, hwh, hwl⟩ := ih (hw.suffix (List.suffix_cons P rest))
        (fun Q hQ => hnn Q (List.mem_cons_of_mem P hQ))
        (hy₂.inputs.trans (hin.trans hx₁.inputs.symm)) hv₁'
        (fun Q hQ => hK Q (List.mem_cons_of_mem P hQ)) h₁ hm₁r hm₂r hc₂r
        (by rw [List.length_drop, hx₁.leafset_eq, hx₁.firstLeafIdx_eq, hx₁.lastLeafIdx_eq]; omega)
        hpl.2
      rw [hx₁.leafset_eq, hx₁.firstLeafIdx_eq, hx₁.lastLeafIdx_eq] at hW hwl
      exact ⟨w₂, by rw [hW]; simp, by omega, by rw [List.length_append]; omega⟩

end WalkPasses

/-! ## The leaves of an honest batch -/

theorem between_eq_nil {p : Nat → Bool} {a b : Nat} (h : b ≤ a) : between p a b = [] := by
  simp [between, Nat.sub_eq_zero_of_le h]

theorem between_append {p : Nat → Bool} {a b c : Nat} (hab : a ≤ b) (hbc : b ≤ c) :
    between p a b ++ between p b c = between p a c := by
  unfold between
  rw [← List.filter_append, show c - a = (c - b) + (b - a) by omega, ← List.range'_append_1,
    Nat.add_sub_cancel' hab]

theorem pos_lt_nodeIdx_iff {n : MmrNode} (hn : n.InMmr (2 ^ 64)) {s : Nat} (hs : s ≤ 2 ^ 63) :
    n.pos < LeafIdx.nodeIdx s ↔ n.leaf + 2 ^ n.height ≤ s := by
  rw [nodeIdx_eq_of_le hs]
  exact pos_lt_mmrSize_iff hn.1 (by omega) hn.2

section HonestLeaves

variable {L : Leafset} {first last : Nat} (hfirst : first ≤ 2 ^ 63) (hlast : last < 2 ^ 63)
include hfirst hlast

/-- **Under a node it reaches, the first pass attempts the set leaves from the first leaf to the
last.** -/
theorem attempts_eq_between {h a : Nat} (hn : (⟨a, h⟩ : MmrNode).InMmr (2 ^ 64)) (ha : a ≤ last) :
    attempts [] L first last h a =
      between L.contains (max a first) (min (a + 2 ^ h) (last + 1)) := by
  induction h generalizing a with
  | zero =>
    by_cases hb : a + 2 ^ 0 ≤ first
    · rw [attempts_pulled (.inl ((pos_lt_nodeIdx_iff hn hfirst).2 hb)), between_eq_nil (by omega)]
    have hc : ¬(MmrNode.pos ⟨a, 0⟩ < LeafIdx.nodeIdx first ∨
        MmrNode.pos ⟨a, 0⟩ ∈ ([] : List Nat)) := by
      simpa [pos_lt_nodeIdx_iff hn hfirst] using hb
    rw [show max a first = a by omega, show min (a + 2 ^ 0) (last + 1) = a + 1 by simp; omega]
    simp only [attempts, if_neg hc, between, Nat.add_sub_cancel_left, List.range'_one]
    by_cases hl : L.contains a <;> simp [hl]
  | succ h ih =>
    by_cases hb : a + 2 ^ (h + 1) ≤ first
    · rw [attempts_pulled (.inl ((pos_lt_nodeIdx_iff hn hfirst).2 hb)), between_eq_nil (by omega)]
    have hc : ¬(MmrNode.pos ⟨a, h + 1⟩ < LeafIdx.nodeIdx first ∨
        MmrNode.pos ⟨a, h + 1⟩ ∈ ([] : List Nat)) := by
      simpa [pos_lt_nodeIdx_iff hn hfirst] using hb
    have hpow : 2 ^ (h + 1) = 2 ^ h + 2 ^ h := by rw [Nat.pow_succ]; omega
    have := Nat.two_pow_pos h
    have hcut : LeafIdx.nodeIdx last ≤ MmrNode.pos ⟨a, h⟩ ↔ last < a + 2 ^ h := by
      rw [← not_lt, pos_lt_nodeIdx_iff hn.leftChild (by omega), not_le]
    simp only [attempts, if_neg hc, ih hn.leftChild ha]
    by_cases hl : last < a + 2 ^ h
    · rw [if_pos (hcut.2 hl), List.append_nil]
      congr 1
      omega
    rw [if_neg (mt hcut.1 hl), ih hn.rightChild (by omega),
      show min (a + 2 ^ h + 2 ^ h) (last + 1) = min (a + 2 ^ (h + 1)) (last + 1) by omega]
    rcases le_or_lt first (a + 2 ^ h) with hf | hf
    · rw [show max (a + 2 ^ h) first = a + 2 ^ h by omega,
        show min (a + 2 ^ h) (last + 1) = a + 2 ^ h by omega]
      exact between_append (by omega) (by omega)
    · rw [between_eq_nil (show min (a + 2 ^ h) (last + 1) ≤ max a first by omega), List.nil_append,
        show max (a + 2 ^ h) first = max a first by omega]

/-- Over the peaks of the bits below `k` from `a`, the first pass's walk attempts the set leaves
from the first leaf to the last. -/
theorem walkAttempts_peaksFrom {k N a : Nat} (ha : a % 2 ^ k = 0) (h64 : a + N % 2 ^ k ≤ 2 ^ 64)
    (hal : a ≤ last) :
    walkAttempts [] L first last (peaksFrom k N a) =
      between L.contains (max a first) (min (a + N % 2 ^ k) (last + 1)) := by
  induction k generalizing a with
  | zero =>
    simp only [peaksFrom, walkAttempts, Nat.pow_zero, Nat.mod_one, Nat.add_zero]
    exact (between_eq_nil (by omega)).symm
  | succ k ih =>
    have hm := mod_two_pow_succ N k
    by_cases hbit : N.testBit k
    · simp only [peaksFrom, hbit, if_true, walkAttempts] at hm ⊢
      have := Nat.two_pow_pos k
      have hn : (⟨a, k⟩ : MmrNode).InMmr (2 ^ 64) :=
        ⟨mod_two_pow_of_mod_succ ha, show a + 2 ^ k ≤ 2 ^ 64 by omega⟩
      have hcut : LeafIdx.nodeIdx last ≤ MmrNode.pos ⟨a, k⟩ ↔ last < a + 2 ^ k := by
        rw [← not_lt, pos_lt_nodeIdx_iff hn (by omega), not_le]
      rw [attempts_eq_between hfirst hlast hn hal]
      by_cases hl : last < a + 2 ^ k
      · rw [if_pos (hcut.2 hl), List.append_nil]
        congr 1
        omega
      rw [if_neg (mt hcut.1 hl), ih (add_two_pow_mod ha) (by omega) (by omega),
        show a + 2 ^ k + N % 2 ^ k = a + N % 2 ^ (k + 1) by omega]
      rcases le_or_lt first (a + 2 ^ k) with hf | hf
      · rw [show max (a + 2 ^ k) first = a + 2 ^ k by omega,
          show min (a + 2 ^ k) (last + 1) = a + 2 ^ k by omega]
        exact between_append (by omega) (by omega)
      · rw [between_eq_nil (show min (a + 2 ^ k) (last + 1) ≤ max a first by omega),
          List.nil_append, show max (a + 2 ^ k) first = max a first by omega]
    · simp only [peaksFrom, hbit, if_false, Bool.false_eq_true, Nat.add_zero] at hm ⊢
      rw [hm]
      exact ih (mod_two_pow_of_mod_succ ha) (by omega) hal

/-- **The first pass over an MMR attempts exactly the set leaves from the first leaf to the
last.** -/
theorem walkAttempts_mmrPeaks {N : Nat} (hlN : last < N) (hN : N < 2 ^ 64) :
    walkAttempts [] L first last (mmrPeaks N) = between L.contains first (last + 1) := by
  rw [mmrPeaks, walkAttempts_peaksFrom hfirst hlast (Nat.zero_mod _) (by omega) (Nat.zero_le _),
    Nat.mod_eq_of_lt hN]
  congr 1 <;> omega

end HonestLeaves

/-! ## Both passes -/

section Passes

variable {H : Hashing δ} {D : Nat → δ} {nn : Nat}

theorem treePass_of_walkPeaks {peaks : List MmrNode} {v w : VerifyMwebUtxosVars δ} {ds : List δ}
    (h : walkPeaks H v.isProofHash nn peaks v.resetCursors [] = some (w, ds))
    (hl : w.leavesUsed = w.mwebUtxos.utxos.length)
    (hh : w.hashesUsed = w.mwebUtxos.proofHashes.length) :
    treePass H nn peaks v = some (w, ds) := by
  simp [treePass, h, hl, hh]

/-- **The two passes on a batch of the leaves the first pass attempts, carrying the committed
ids.** They go through only when the batch has as many proof hashes as the honest one, and then
the second pass collects the digests it rebuilds from them. -/
theorem treePasses_rebuild {peaks : List MmrNode} (hw : PeaksWF peaks)
    (hnn : ∀ P ∈ peaks, P.pos < nn) {v : VerifyMwebUtxosVars δ} (hv : v.isProofHash = [])
    (hu : v.mwebUtxos.utxos.map (fun u => u.leafIndex.toNat) =
      walkAttempts [] v.leafset v.firstLeafIdx v.lastLeafIdx peaks)
    (hc : ∀ u ∈ v.mwebUtxos.utxos, u.outputId = D u.leafIndex.toNat) :
    (∀ r, treePasses H nn peaks v = some r → v.mwebUtxos.proofHashes.length =
        (walkProofs H D v.leafset v.firstLeafIdx v.lastLeafIdx nn peaks).length) ∧
      (v.mwebUtxos.proofHashes.length =
          (walkProofs H D v.leafset v.firstLeafIdx v.lastLeafIdx nn peaks).length →
        ∃ w, treePasses H nn peaks v = some (w, walkRebuild H D v.leafset v.firstLeafIdx
          v.lastLeafIdx peaks v.mwebUtxos.proofHashes)) := by
  -- both passes start from the first utxo and see the same utxos
  have hm : ∀ w : VerifyMwebUtxosVars δ, w.mwebUtxos = v.mwebUtxos → w.leavesUsed = 0 →
      Matches w (walkAttempts [] v.leafset v.firstLeafIdx v.lastLeafIdx peaks) := by
    intro w hwu hw0
    simp only [Matches, hwu, hw0, List.drop_zero, ← hu, List.take_length]
  have hcw : ∀ w : VerifyMwebUtxosVars δ, w.mwebUtxos = v.mwebUtxos → ∀ n, CarriesIds D w n :=
    fun w hwu n u hu' => hc u (by rw [← hwu]; exact List.mem_of_mem_drop (List.mem_of_mem_take hu'))
  have hm₁ := hm v.resetCursors rfl rfl
  constructor
  · rintro ⟨w₂, ds₂⟩ hT
    simp only [treePasses, Option.bind_eq_some] at hT
    obtain ⟨⟨w₁, ds₁⟩, h₁, -⟩ := hT
    obtain ⟨hW₁, -, hc₁⟩ := treePass_some h₁
    rw [hv] at hW₁
    have hh := walkPeaks_first_pass (D := D) hw hm₁ hW₁
    rw [(walkPeaks_later hw hW₁).1.mwebUtxos_eq] at hc₁
    simp only [resetCursors_hashesUsed, resetCursors_leafset, resetCursors_firstLeafIdx,
      resetCursors_lastLeafIdx, resetCursors_mwebUtxos, Nat.zero_add] at hh hc₁
    omega
  · intro hlen
    obtain ⟨w₁, es₁, hW₁⟩ : ∃ w es, walkPeaks H [] nn peaks v.resetCursors [] = some (w, es) :=
      walkPeaks_first_pass_some (D := D) hw hm₁ (by simp [hlen])
    have hL₁ := (walkPeaks_later hw hW₁).1
    have hh₁ := walkPeaks_first_pass (D := D) hw hm₁ hW₁
    have hl₁ := walkPeaks_leavesUsed hw hW₁
    have hu₁ : w₁.mwebUtxos = v.mwebUtxos := hL₁.mwebUtxos_eq
    have hlenu := congrArg List.length hu
    simp only [List.length_map] at hlenu
    simp only [resetCursors_hashesUsed, resetCursors_leafset, resetCursors_firstLeafIdx,
      resetCursors_lastLeafIdx, resetCursors_mwebUtxos, resetCursors_leavesUsed,
      Nat.zero_add] at hh₁ hl₁
    have hT₁ : treePass H nn peaks v = some (w₁, es₁) :=
      treePass_of_walkPeaks (hv ▸ hW₁) (by rw [hl₁, hu₁]; omega) (by rw [hh₁, hu₁]; exact hlen.symm)
    obtain ⟨w₂, hW₂, hh₂, hl₂⟩ : ∃ w₂, walkPeaks H w₁.isProofHash nn peaks w₁.resetCursors [] =
        some (w₂, [] ++ walkRebuild H D v.resetCursors.leafset v.resetCursors.firstLeafIdx
          v.resetCursors.lastLeafIdx peaks v.mwebUtxos.proofHashes) ∧
        w₂.hashesUsed = w₁.resetCursors.hashesUsed + v.mwebUtxos.proofHashes.length ∧
        w₂.leavesUsed = w₁.resetCursors.leavesUsed + (walkAttempts [] v.resetCursors.leafset
          v.resetCursors.firstLeafIdx v.resetCursors.lastLeafIdx peaks).length :=
      walkPeaks_second_pass_rebuild hw hnn (by simp [hL₁.inputs]) (by simp [hv])
        (fun _ _ _ _ _ => Iff.rfl) hW₁ hm₁ (hm w₁.resetCursors hu₁ rfl) (hcw w₁.resetCursors hu₁ _)
        (by simpa using hlen) (by simp [hu₁])
    have hu₂ : w₂.mwebUtxos = v.mwebUtxos := by
      rw [(walkPeaks_later hw hW₂).1.mwebUtxos_eq, resetCursors_mwebUtxos, hu₁]
    simp only [resetCursors_hashesUsed, resetCursors_leavesUsed, resetCursors_leafset,
      resetCursors_firstLeafIdx, resetCursors_lastLeafIdx, Nat.zero_add, List.nil_append] at hh₂ hl₂ hW₂
    refine ⟨w₂, ?_⟩
    rw [treePasses, hT₁, Option.some_bind, treePass_of_walkPeaks hW₂ (by rw [hl₂, hu₂]; exact hlenu.symm)
      (by rw [hh₂, hu₂])]

end Passes

/-! ## The honest batch -/

theorem mem_between {p : Nat → Bool} {a b j : Nat} (h : j ∈ between p a b) :
    p j ∧ a ≤ j ∧ j < b := by
  simp only [between, List.mem_filter, List.mem_range'_1] at h
  exact ⟨h.2, h.1.1, by omega⟩

theorem mem_between_self {p : Nat → Bool} {a b : Nat} (hp : p a) (hab : a < b) :
    a ∈ between p a b := by
  simp only [between, List.mem_filter, List.mem_range'_1, hp, and_true]
  omega

/-- The leaf walk takes a batch whose indices step by `nextUnspent` through set leaves to its
last index. -/
theorem leafWalk_iterate {l : Leafset} : ∀ {i : Nat} {utxos : List (MwebNetUtxo δ)},
    utxos ≠ [] → (∀ u ∈ utxos, l.contains u.leafIndex.toNat) →
    utxos.map (fun u => u.leafIndex.toNat) = List.iterate l.nextUnspent i utxos.length →
    leafWalk l i utxos = (utxos.map fun u => u.leafIndex.toNat).getLast?
  | _, [], h, _, _ => absurd rfl h
  | i, u :: rest, _, hc, hi => by
    simp only [List.map_cons, List.length_cons, List.iterate, List.cons.injEq] at hi
    obtain ⟨hu, hr⟩ := hi
    have hci : l.contains i := hu ▸ hc u (List.mem_cons_self _ _)
    rcases rest with _ | ⟨u', rest'⟩
    · simp [leafWalk, hci, hu]
    · rw [leafWalk, if_neg (by simp [hci]), if_neg (by simp [hu]), if_neg (by simp),
        leafWalk_iterate (List.cons_ne_nil _ _) (fun v hv => hc v (List.mem_cons_of_mem _ hv)) hr]
      simp

/-- The batch of the leaves set in `L` from `first` to `last`, ascending, each with its
committed output id. -/
def honestUtxos (D : Nat → δ) (L : Leafset) (first last : Nat) : List (MwebNetUtxo δ) :=
  (between L.contains first (last + 1)).map fun i => ⟨i.toUInt64, D i⟩

section HonestUtxos

variable {D : Nat → δ} {L : Leafset} {first last : Nat} (hlast : last < 2 ^ 64)
include hlast

theorem map_leafIndex_honestUtxos :
    (honestUtxos D L first last).map (fun u => u.leafIndex.toNat) =
      between L.contains first (last + 1) := by
  rw [honestUtxos, List.map_map]
  conv_rhs => rw [← List.map_id (between L.contains first (last + 1))]
  exact List.map_congr_left fun i hi =>
    UInt64.toNat_ofNat_of_lt (show _ < 2 ^ 64 by have := (mem_between hi).2.2; omega)

theorem honestUtxos_carriesIds :
    ∀ u ∈ honestUtxos D L first last, u.outputId = D u.leafIndex.toNat := by
  intro u hu
  obtain ⟨i, hi, rfl⟩ := List.mem_map.1 hu
  exact congrArg D
    (UInt64.toNat_ofNat_of_lt (show _ < 2 ^ 64 by have := (mem_between hi).2.2; omega)).symm

/-- The leaf walk takes the honest batch from its first leaf to its last. -/
theorem leafWalk_honestUtxos (hfl : first ≤ last) (hs : L.contains first)
    (hl : L.contains last) : leafWalk L first (honestUtxos D L first last) = some last := by
  have hmap : (honestUtxos D L first last).map (fun u => u.leafIndex.toNat) =
      between L.contains first (last + 1) := map_leafIndex_honestUtxos hlast
  have hit := between_eq_iterate L hs (Nat.lt_succ_of_le hfl) (by omega)
  have hmem := mem_between_self hs (Nat.lt_succ_of_le hfl)
  rw [← hmap, List.length_map] at hit
  rw [leafWalk_iterate (fun h => by rw [← hmap, h] at hmem; cases hmem)
    (fun u hu => (mem_between (hmap ▸ List.mem_map_of_mem _ hu)).1) hit, hmap,
    between_succ _ hfl, if_pos hl, List.getLast?_append, List.getLast?_singleton]
  rfl

end HonestUtxos

/-! ## Accepted proof hashes -/

variable (H : Hashing δ) (D : Nat → δ) in
/-- The root the second pass bags from the proof hashes `Q` over the peaks of `N` leaves, as
`mmrRoot` bags the committed digests. -/
def rebuildRoot (L : Leafset) (first last N : Nat) (Q : List δ) : δ :=
  match walkRebuild H D L first last (mmrPeaks N) Q with
  | [] => H.zero
  | d :: ds => mmrBag H (LeafIdx.nodeIdx N) d ds

section Root

variable {H : Hashing δ} {D : Nat → δ} {L : Leafset} {first last N : Nat}

/-- The honest proof hashes rebuild the committed root. -/
theorem rebuildRoot_walkProofs :
    rebuildRoot H D L first last N
      (walkProofs H D L first last (LeafIdx.nodeIdx N) (mmrPeaks N)) = mmrRoot H D N := by
  unfold rebuildRoot
  rw [walkRebuild_walkProofs]
  unfold mmrRoot
  rcases mmrPeaks N with _ | ⟨P, rest⟩
  · simp only [walkDigests, peakDigests, List.map_nil]
  have hd : walkDigests H D (LeafIdx.nodeIdx N) last (P :: rest) = treeDigest H D P.height P.leaf ::
      (walkDigests H D (LeafIdx.nodeIdx N) last (P :: rest)).tail := by
    rw [walkDigests]; rfl
  rw [hd, peakDigests, List.map_cons, ← peakDigests]
  exact mmrBag_walkDigests D _ last P rest

/-- **With collision-free digests only the honest proof hashes rebuild the committed root**,
among the lists of their length. -/
theorem eq_walkProofs_of_rebuildRoot (hH : H.CollisionFree) {Q : List δ}
    (hQ : Q.length = (walkProofs H D L first last (LeafIdx.nodeIdx N) (mmrPeaks N)).length)
    (hr : rebuildRoot H D L first last N Q = mmrRoot H D N) :
    Q = walkProofs H D L first last (LeafIdx.nodeIdx N) (mmrPeaks N) := by
  refine eq_walkProofs_of_walkRebuild hH hQ ?_
  have hlen : (walkRebuild H D L first last (mmrPeaks N) Q).length =
      (walkDigests H D (LeafIdx.nodeIdx N) last (mmrPeaks N)).length := length_walkRebuild _ _
  rcases hpk : mmrPeaks N with _ | ⟨P, rest⟩ <;> rw [hpk] at hlen
  · simp only [walkRebuild, walkDigests]
  rcases hW : walkRebuild H D L first last (P :: rest) Q with _ | ⟨r, rs⟩
  · rw [walkRebuild] at hW
    exact absurd hW (List.cons_ne_nil _ _)
  have hreb : rebuildRoot H D L first last N Q = mmrBag H (LeafIdx.nodeIdx N) r rs := by
    unfold rebuildRoot
    rw [hpk, hW]
  have hroot : mmrRoot H D N = mmrBag H (LeafIdx.nodeIdx N) (treeDigest H D P.height P.leaf)
      (walkDigests H D (LeafIdx.nodeIdx N) last (P :: rest)).tail := by
    rw [mmrBag_walkDigests]
    unfold mmrRoot
    rw [hpk, peakDigests, List.map_cons, ← peakDigests]
  have hd : walkDigests H D (LeafIdx.nodeIdx N) last (P :: rest) = treeDigest H D P.height P.leaf ::
      (walkDigests H D (LeafIdx.nodeIdx N) last (P :: rest)).tail := by
    rw [walkDigests]; rfl
  rw [hW, hd, List.length_cons, List.length_cons] at hlen
  obtain ⟨rfl, rfl⟩ := mmrBag_inj hH (Nat.succ.inj hlen) (hreb.symm.trans (hr.trans hroot))
  exact hd.symm

/-- **On an honest batch the utxo check is a check of its proof hashes.** Against a header of
`N < 2^63` leaves, the batch of the leaves set in `L` from a set leaf `first` to a set leaf
`last < N`, carrying the ids `D`, is accepted with exactly those proof hashes that are as many
as the honest batch supplies and rebuild the header's root. -/
theorem verifyMwebUtxos_honestUtxos [DecidableEq δ] (outputRoot leafsetRoot blockHash : δ)
    (outputFormat : UInt8) (hN63 : N < 2 ^ 63) (hfl : first ≤ last) (hlN : last < N)
    (hs : L.contains first) (hl : L.contains last) (proofHashes : List δ) :
    verifyMwebUtxos H ⟨outputRoot, N.toUInt64, leafsetRoot⟩ L
        ⟨blockHash, first.toUInt64, outputFormat, honestUtxos D L first last, proofHashes⟩ =
        .ok true ↔
      proofHashes.length = (walkProofs H D L first last (LeafIdx.nodeIdx N) (mmrPeaks N)).length ∧
        rebuildRoot H D L first last N proofHashes = outputRoot := by
  have hN64 : N < 2 ^ 64 := by omega
  have hsz := mmrSize_lt_of_le (N := N) (by omega)
  have hnn := nodeIdx_eq_of_le (N := N) (by omega)
  have hNt : N.toUInt64.toNat = N := UInt64.toNat_ofNat_of_lt hN64
  have hft : first.toUInt64.toNat = first := UInt64.toNat_ofNat_of_lt (show _ < 2 ^ 64 by omega)
  have hw := wellFormed_mmrPeaks hN64 hsz
  have hpos : ∀ P ∈ mmrPeaks N, P.pos < LeafIdx.nodeIdx N :=
    fun P hP => hnn ▸ pos_lt_mmrSize hN64 (mem_mmrPeaks hN64 hP).1
  have hmap : (honestUtxos D L first last).map (fun u => u.leafIndex.toNat) =
      between L.contains first (last + 1) := map_leafIndex_honestUtxos (by omega)
  have hatt := walkAttempts_mmrPeaks (L := L) (by omega : first ≤ 2 ^ 63) (by omega) hlN hN64
  have hmem := mem_between_self hs (Nat.lt_succ_of_le hfl)
  have hne : honestUtxos D L first last ≠ [] := fun h => by rw [← hmap, h] at hmem; cases hmem
  have hpk : mmrPeaks N ≠ [] := fun h => by rw [h, walkAttempts] at hatt; rw [← hatt] at hmem; cases hmem
  rw [verifyMwebUtxos_eq _ _ _ hN64 (by simp only [hNt, hnn, le_refl])
    (by simp only [hNt, hnn]; exact calcPeaks_mmrSize hsz hN64)]
  show Except.ok _ = Except.ok true ↔ _
  rw [Except.ok.injEq]
  unfold verifyTree
  dsimp only
  rw [hNt, hft, if_neg fun h => hne (List.length_eq_zero.1 h.2.1),
    if_neg (by rintro (h | h); exact hne (List.length_eq_zero.1 h); rw [h] at hNt; simp at hNt; omega),
    leafWalk_honestUtxos (by omega) hfl hs hl]
  dsimp only
  have hvF : (VerifyMwebUtxosVars.start ⟨blockHash, first.toUInt64, outputFormat,
      honestUtxos D L first last, proofHashes⟩ L last).firstLeafIdx = first := hft
  obtain ⟨hlen, hrun⟩ := treePasses_rebuild (H := H) (D := D) hw hpos (v := VerifyMwebUtxosVars.start
      ⟨blockHash, first.toUInt64, outputFormat, honestUtxos D L first last, proofHashes⟩ L last) rfl
    (by rw [hvF]; exact hmap.trans hatt.symm) (honestUtxos_carriesIds (by omega))
  rw [hvF] at hlen hrun
  by_cases hQ : proofHashes.length =
      (walkProofs H D L first last (LeafIdx.nodeIdx N) (mmrPeaks N)).length
  · obtain ⟨w, hT⟩ := hrun hQ
    rw [hT]
    obtain ⟨P, rest, hPr⟩ := List.exists_cons_of_ne_nil hpk
    rcases hW : walkRebuild H D L first last (mmrPeaks N) proofHashes with _ | ⟨d, ds⟩
    · rw [hPr, walkRebuild] at hW
      exact absurd hW (List.cons_ne_nil _ _)
    unfold rebuildRoot
    simp [hQ, hW, VerifyMwebUtxosVars.start]
  · rcases hT : treePasses H (LeafIdx.nodeIdx N) (mmrPeaks N) (VerifyMwebUtxosVars.start
      ⟨blockHash, first.toUInt64, outputFormat, honestUtxos D L first last, proofHashes⟩ L last)
      with _ | r
    · simp [hQ]
    · exact absurd (hlen r hT) hQ

end Root

/-- **Completeness and uniqueness of proofs.** Against the header of `N < 2^63` leaves whose root
is the MMR root over the output ids `D`, for every leafset and every set leaves `s ≤ e < N`,
some list of proof hashes makes the batch of the set leaves from `s` to `e`, carrying their ids,
accepted; with collision-free digests no other list does. -/
theorem verifyMwebUtxos_complete_unique [DecidableEq δ] (H : Hashing δ) (D : Nat → δ) {N : Nat}
    (hN63 : N < 2 ^ 63) (mwebLeafset : Leafset) (leafsetRoot blockHash : δ) (outputFormat : UInt8)
    {s e : Nat} (hse : s ≤ e) (heN : e < N) (hs : mwebLeafset.contains s)
    (he : mwebLeafset.contains e) :
    ∃ proofHashes, verifyMwebUtxos H ⟨mmrRoot H D N, N.toUInt64, leafsetRoot⟩ mwebLeafset
        ⟨blockHash, s.toUInt64, outputFormat, honestUtxos D mwebLeafset s e, proofHashes⟩ =
          .ok true ∧
      (H.CollisionFree → ∀ proofHashes', verifyMwebUtxos H ⟨mmrRoot H D N, N.toUInt64, leafsetRoot⟩
        mwebLeafset ⟨blockHash, s.toUInt64, outputFormat, honestUtxos D mwebLeafset s e,
          proofHashes'⟩ = .ok true → proofHashes' = proofHashes) :=
  ⟨_, (verifyMwebUtxos_honestUtxos _ _ _ _ hN63 hse heN hs he _).2 ⟨rfl, rebuildRoot_walkProofs⟩,
    fun hH _ h =>
      let ⟨hl, hr⟩ := (verifyMwebUtxos_honestUtxos _ _ _ _ hN63 hse heN hs he _).1 h
      eq_walkProofs_of_rebuildRoot hH hl hr⟩

theorem verifyMwebUtxos_complete_unique_five_leaves :
    (5 : Nat) < 2 ^ 63 ∧ (1 : Nat) ≤ 3 ∧ (3 : Nat) < 5 ∧ Leafset.contains [0xD8] 1 ∧
      Leafset.contains [0xD8] 3 ∧
      ∃ proofHashes, verifyMwebUtxos freeHashing
          ⟨mmrRoot freeHashing freeIds 5, (5 : Nat).toUInt64, .outputId 0⟩ [0xD8]
          ⟨.outputId 0, (1 : Nat).toUInt64, 0, honestUtxos freeIds [0xD8] 1 3, proofHashes⟩ =
            .ok true ∧
        (freeHashing.CollisionFree → ∀ proofHashes', verifyMwebUtxos freeHashing
          ⟨mmrRoot freeHashing freeIds 5, (5 : Nat).toUInt64, .outputId 0⟩ [0xD8]
          ⟨.outputId 0, (1 : Nat).toUInt64, 0, honestUtxos freeIds [0xD8] 1 3, proofHashes'⟩ =
            .ok true → proofHashes' = proofHashes) :=
  ⟨by decide, by decide, by decide, by decide, by decide,
    verifyMwebUtxos_complete_unique freeHashing freeIds (by decide) [0xD8] (.outputId 0)
      (.outputId 0) 0 (by decide) (by decide) (by decide) (by decide)⟩

end NeutrinoMweb
