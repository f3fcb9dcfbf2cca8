import NeutrinoMweb.Traversal

/-!
# What a descent consumes

Three quantities of a `visit`, read off the inputs or bounded by them:

* `attempts`: the leaves at which the descent asks `nextLeaf` for a utxo. They depend on the
  marks, the leafset and the two ends of the batch, not on the utxos, so a descent moves the
  leaf cursor by their number (`visit_leavesUsed`); a leaf it asks at gets a digest exactly
  when the utxo under the cursor carries that leaf (`Matches`).
* `cost`: the proof hashes a descent uses, plus one when it returns without a digest, which is
  what its caller pays for the node. It adds up over the children (`visit_succ_cost`).
* `Supplied`: the descent never found the proof hashes used up. Each call of an accepted pass
  is supplied, and a supplied descent that returns no digest has used no proof hash
  (`visit_none`).
-/

namespace NeutrinoMweb

variable {δ : Type}

open VerifyMwebUtxosVars

/-! ## Attempts, matches, cost -/

/-- The leaves at which `visit` asks for a utxo, from left to right. -/
def attempts (M : List Nat) (L : Leafset) (first last : Nat) : Nat → Nat → List Nat
  | 0, a =>
    if MmrNode.pos ⟨a, 0⟩ < LeafIdx.nodeIdx first ∨ MmrNode.pos ⟨a, 0⟩ ∈ M then []
    else if L.contains a then [a] else []
  | h + 1, a =>
    if MmrNode.pos ⟨a, h + 1⟩ < LeafIdx.nodeIdx first ∨ MmrNode.pos ⟨a, h + 1⟩ ∈ M then []
    else attempts M L first last h a ++
      if LeafIdx.nodeIdx last ≤ MmrNode.pos ⟨a, h⟩ then []
      else attempts M L first last h (a + 2 ^ h)

theorem attempts_pulled {M : List Nat} {L : Leafset} {first last h a : Nat}
    (hc : MmrNode.pos ⟨a, h⟩ < LeafIdx.nodeIdx first ∨ MmrNode.pos ⟨a, h⟩ ∈ M) :
    attempts M L first last h a = [] := by
  cases h <;> simp only [attempts, if_pos hc]

/-- The utxos from the cursor on carry the leaf indices `ls`, in order. -/
def Matches (v : VerifyMwebUtxosVars δ) (ls : List Nat) : Prop :=
  ((v.mwebUtxos.utxos.drop v.leavesUsed).map fun u => u.leafIndex.toNat).take ls.length = ls

instance (v : VerifyMwebUtxosVars δ) (ls : List Nat) : Decidable (Matches v ls) :=
  inferInstanceAs (Decidable (_ = _))

/-- A run was never short of a proof hash: it returned a digest, or proof hashes remain. -/
def Supplied (r : VerifyMwebUtxosVars δ × Option δ) : Prop :=
  r.2.isSome ∨ r.1.hashesUsed < r.1.mwebUtxos.proofHashes.length

/-- What a run from `v` costs the caller of a node: the proof hashes it used, and one more
when the node came back without a digest. -/
def cost (v : VerifyMwebUtxosVars δ) (r : VerifyMwebUtxosVars δ × Option δ) : Nat :=
  r.1.hashesUsed - v.hashesUsed + if r.2.isSome then 0 else 1

theorem matches_nil (v : VerifyMwebUtxosVars δ) : Matches v [] := by
  simp [Matches]

theorem matches_singleton (v : VerifyMwebUtxosVars δ) (a : Nat) :
    Matches v [a] ↔ ∃ u, v.mwebUtxos.utxos[v.leavesUsed]? = some u ∧ u.leafIndex.toNat = a := by
  rw [Matches, ← List.head?_drop]
  rcases v.mwebUtxos.utxos.drop v.leavesUsed with _ | ⟨u, us⟩ <;> simp

theorem drop_leavesUsed_eq {v w : VerifyMwebUtxosVars δ} (hu : w.mwebUtxos = v.mwebUtxos)
    {m : Nat} (hw : w.leavesUsed = min (v.leavesUsed + m) v.mwebUtxos.utxos.length) :
    w.mwebUtxos.utxos.drop w.leavesUsed = (v.mwebUtxos.utxos.drop v.leavesUsed).drop m := by
  rw [List.drop_drop, hu, hw]
  rcases Nat.le_total (v.leavesUsed + m) v.mwebUtxos.utxos.length with hle | hle
  · rw [Nat.min_eq_left hle, Nat.add_comm]
  · rw [Nat.min_eq_right hle, List.drop_eq_nil_of_le (by simp),
      List.drop_eq_nil_of_le (by simpa using hle)]

/-- Matching a concatenation is matching its parts, the second from the cursor moved past the
first. -/
theorem matches_append {v w : VerifyMwebUtxosVars δ} (hu : w.mwebUtxos = v.mwebUtxos)
    {s t : List Nat}
    (hw : w.leavesUsed = min (v.leavesUsed + s.length) v.mwebUtxos.utxos.length) :
    Matches v (s ++ t) ↔ Matches v s ∧ Matches w t := by
  unfold Matches
  rw [drop_leavesUsed_eq hu hw, List.map_drop (L := v.mwebUtxos.utxos.drop v.leavesUsed),
    List.length_append, List.take_add]
  generalize (v.mwebUtxos.utxos.drop v.leavesUsed).map (fun u => u.leafIndex.toNat) = X
  constructor
  · intro h
    have hlen : (X.take s.length).length = s.length := by
      have := congrArg List.length h
      simp only [List.length_append, List.length_take] at this ⊢
      omega
    exact List.append_inj h hlen
  · rintro ⟨h₁, h₂⟩
    rw [h₁, h₂]

/-! ## One proof hash -/

section NextHash

variable (v : VerifyMwebUtxosVars δ) (q : Nat)

theorem nextHash_isSome :
    (v.nextHash q).2.isSome ↔ v.hashesUsed < v.mwebUtxos.proofHashes.length := by
  rw [nextHash_snd]
  by_cases h : v.hashesUsed < v.mwebUtxos.proofHashes.length
  · simp [h]
  · simp [h]; omega

theorem nextHash_cost : cost v (v.nextHash q) = 1 := by
  have := v.hashesUsed_le
  unfold cost
  rw [nextHash_hashesUsed]
  split_ifs with h <;> rw [nextHash_isSome] at h <;> omega

theorem nextHash_isSome_of_supplied (hs : Supplied (v.nextHash q)) : (v.nextHash q).2.isSome := by
  rcases hs with hs | hs
  · exact hs
  · rw [nextHash_hashesUsed, nextHash_mwebUtxos] at hs
    exact (nextHash_isSome v q).2 (by omega)

end NextHash

/-! ## Joining two children -/

section Join

variable (H : Hashing δ) (v : VerifyMwebUtxosVars δ) (p pl pr : Nat) (l r : Option δ)

theorem joinChildren_leavesUsed :
    (joinChildren H v p pl pr l r).1.leavesUsed = v.leavesUsed := by
  rcases l with _ | l <;> rcases r with _ | r <;> simp only [joinChildren]
  · have h := nextHash_leavesUsed v pl
    rcases hN : v.nextHash pl with ⟨w, _ | d⟩ <;> rw [hN] at h <;> exact h
  · have h := nextHash_leavesUsed v pr
    rcases hN : v.nextHash pr with ⟨w, _ | d⟩ <;> rw [hN] at h <;> exact h

/-- A join pays one proof hash for a missing child, or returns no digest when both are
missing: either way it costs one for each missing child, less one when both are. -/
theorem joinChildren_cost :
    cost v (joinChildren H v p pl pr l r) + (if l.isNone ∧ r.isNone then 1 else 0) =
      (if l.isSome then 0 else 1) + (if r.isSome then 0 else 1) := by
  rcases l with _ | l <;> rcases r with _ | r
  · simp [joinChildren, cost]
  · have h := nextHash_cost v pl
    simp only [joinChildren]
    rcases hN : v.nextHash pl with ⟨w, _ | d⟩ <;> rw [hN] at h <;> simpa [cost] using h
  · have h := nextHash_cost v pr
    simp only [joinChildren]
    rcases hN : v.nextHash pr with ⟨w, _ | d⟩ <;> rw [hN] at h <;> simpa [cost] using h
  · simp [joinChildren, cost]

variable {H v p pl pr l r}

/-- A supplied join with a missing child found a proof hash left. -/
theorem hashesUsed_lt_of_joinChildren (hs : Supplied (joinChildren H v p pl pr l r))
    (hmiss : l = none ∨ r = none) : v.hashesUsed < v.mwebUtxos.proofHashes.length := by
  have key : ∀ q, Supplied (v.nextHash q) → v.hashesUsed < v.mwebUtxos.proofHashes.length :=
    fun q hq => (nextHash_isSome v q).1 (nextHash_isSome_of_supplied v q hq)
  rcases l with _ | l <;> rcases r with _ | r
  · simpa [Supplied, joinChildren] using hs
  · refine key pl ?_
    simp only [joinChildren] at hs
    rcases hN : v.nextHash pl with ⟨w, _ | d⟩
    · rw [hN] at hs; simpa [Supplied] using hs
    · simp [Supplied]
  · refine key pr ?_
    simp only [joinChildren] at hs
    rcases hN : v.nextHash pr with ⟨w, _ | d⟩
    · rw [hN] at hs; simpa [Supplied] using hs
    · simp [Supplied]
  · simp at hmiss

/-- A supplied join without a digest had neither child. -/
theorem joinChildren_none (hs : Supplied (joinChildren H v p pl pr l r))
    (hr : (joinChildren H v p pl pr l r).2 = none) : l = none ∧ r = none := by
  rcases l with _ | l <;> rcases r with _ | r
  · exact ⟨rfl, rfl⟩
  · have h := (nextHash_isSome v pl).2 (hashesUsed_lt_of_joinChildren hs (.inl rfl))
    simp only [joinChildren] at hr
    rcases hN : v.nextHash pl with ⟨w, _ | d⟩ <;> rw [hN] at h hr <;> simp at h hr
  · have h := (nextHash_isSome v pr).2 (hashesUsed_lt_of_joinChildren hs (.inr rfl))
    simp only [joinChildren] at hr
    rcases hN : v.nextHash pr with ⟨w, _ | d⟩ <;> rw [hN] at h hr <;> simp at h hr
  · simp [joinChildren] at hr

/-- A join that returns a digest has marked exactly its missing child. -/
theorem joinChildren_isProofHash (hr : (joinChildren H v p pl pr l r).2.isSome) :
    (joinChildren H v p pl pr l r).1.isProofHash =
      (if l.isNone then [pl] else []) ++ (if r.isNone then [pr] else []) ++ v.isProofHash := by
  rcases l with _ | l <;> rcases r with _ | r
  · simp [joinChildren] at hr
  · have h := nextHash_isProofHash v pl
    have hs := nextHash_isSome v pl
    simp only [joinChildren] at hr ⊢
    rcases hN : v.nextHash pl with ⟨w, _ | d⟩ <;> rw [hN] at h hs hr
    · simp at hr
    · simp_all
  · have h := nextHash_isProofHash v pr
    have hs := nextHash_isSome v pr
    simp only [joinChildren] at hr ⊢
    rcases hN : v.nextHash pr with ⟨w, _ | d⟩ <;> rw [hN] at h hs hr
    · simp at hr
    · simp_all
  · simp [joinChildren]

end Join

/-! ## One descent -/

section Visit

variable {H : Hashing δ} {M : List Nat} {a : Nat} {v : VerifyMwebUtxosVars δ}

theorem visit_pulled {h : Nat}
    (hc : MmrNode.pos ⟨a, h⟩ < LeafIdx.nodeIdx v.firstLeafIdx ∨ MmrNode.pos ⟨a, h⟩ ∈ M) :
    visit H M h a v = v.nextHash (MmrNode.pos ⟨a, h⟩) := by
  cases h <;> simp only [visit, if_pos hc]

/-- A leaf that is not pulled: the utxo under the cursor is taken when the leaf is set, and
gives the digest when it carries this leaf. -/
theorem visit_zero
    (hc : ¬(MmrNode.pos ⟨a, 0⟩ < LeafIdx.nodeIdx v.firstLeafIdx ∨ MmrNode.pos ⟨a, 0⟩ ∈ M)) :
    visit H M 0 a v =
      if v.leafset.contains a then
        (v.nextLeaf.1, match v.mwebUtxos.utxos[v.leavesUsed]? with
          | some u => if a = u.leafIndex.toNat then some (H.hash (MmrNode.pos ⟨a, 0⟩) u.outputId)
            else none
          | none => none)
      else (v, none) := by
  have hs := nextLeaf_snd v
  simp only [visit, if_neg hc]
  by_cases hl : v.leafset.contains a
  · simp only [hl, Bool.not_true, Bool.false_eq_true, if_false, if_true]
    rcases hN : v.nextLeaf with ⟨w, i, o⟩
    rw [hN] at hs
    rcases hu : v.mwebUtxos.utxos[v.leavesUsed]? with _ | u <;> rw [hu] at hs <;>
      simp only [Prod.mk.injEq] at hs <;> obtain ⟨rfl, rfl⟩ := hs
    · rfl
    · simp only
      split_ifs <;> rfl
  · simp [hl]

theorem visit_succ {h : Nat}
    (hc : ¬(MmrNode.pos ⟨a, h + 1⟩ < LeafIdx.nodeIdx v.firstLeafIdx ∨
      MmrNode.pos ⟨a, h + 1⟩ ∈ M)) :
    visit H M (h + 1) a v =
      joinChildren H (rightChild (visit H M h) h a (visit H M h a v).1).1
        (MmrNode.pos ⟨a, h + 1⟩) (MmrNode.pos ⟨a, h⟩) (MmrNode.pos ⟨a + 2 ^ h, h⟩)
        (visit H M h a v).2 (rightChild (visit H M h) h a (visit H M h a v).1).2 := by
  rw [visit, if_neg hc]

/-- A leaf that is not pulled uses no proof hash and marks nothing; it gets its digest
exactly when it is set and the utxo under the cursor carries it. -/
theorem visit_zero_spec
    (hc : ¬(MmrNode.pos ⟨a, 0⟩ < LeafIdx.nodeIdx v.firstLeafIdx ∨ MmrNode.pos ⟨a, 0⟩ ∈ M)) :
    (visit H M 0 a v).1.hashesUsed = v.hashesUsed ∧
      (visit H M 0 a v).1.isProofHash = v.isProofHash ∧
      ((visit H M 0 a v).2.isSome ↔ v.leafset.contains a ∧ Matches v [a]) := by
  rw [visit_zero hc, matches_singleton]
  split_ifs with hl
  · refine ⟨by simp, by simp, ?_⟩
    rcases v.mwebUtxos.utxos[v.leavesUsed]? with _ | u
    · simp
    · by_cases h : a = u.leafIndex.toNat
      · subst h; simp [hl]
      · simp [hl, h, Ne.symm h]
  · simp [hl]

/-- The right child as `visit` gets it moves the state forward and marks only its subtree. -/
theorem rightChild_marks {h : Nat} (hn : (⟨a, h + 1⟩ : MmrNode).InMmr (2 ^ 64))
    (w : VerifyMwebUtxosVars δ) :
    Later w (rightChild (visit H M h) h a w).1 ∧
      ∃ A, (rightChild (visit H M h) h a w).1.isProofHash = A ++ w.isProofHash ∧
        ∀ q ∈ A, mmrSize (a + 2 ^ h) ≤ q ∧ q ≤ MmrNode.pos ⟨a + 2 ^ h, h⟩ := by
  unfold rightChild
  split
  · obtain ⟨A, hA, hq⟩ := nextHash_marks w (MmrNode.pos ⟨a + 2 ^ h, h⟩)
    exact ⟨nextHash_later w _, A, hA, fun q hqA => by
      rw [hq q hqA]; exact ⟨mmrSize_le_pos _ _, le_rfl⟩⟩
  · exact visit_marks M hn.rightChild w

/-- A descent that is not pulled marks only nodes strictly below its own. -/
theorem visit_marks_lt {h : Nat} (hn : (⟨a, h⟩ : MmrNode).InMmr (2 ^ 64))
    (hc : ¬(MmrNode.pos ⟨a, h⟩ < LeafIdx.nodeIdx v.firstLeafIdx ∨ MmrNode.pos ⟨a, h⟩ ∈ M)) :
    ∃ A, (visit H M h a v).1.isProofHash = A ++ v.isProofHash ∧
      ∀ q ∈ A, q < MmrNode.pos ⟨a, h⟩ := by
  cases h with
  | zero => exact ⟨[], (visit_zero_spec hc).2.1, by simp⟩
  | succ h =>
    obtain ⟨hI1, hI2⟩ := child_intervals hn
    have hlt := pos_left_lt a h
    rw [visit_succ hc]
    obtain ⟨-, A1, hA1, hq1⟩ := visit_marks M hn.leftChild v
    obtain ⟨-, A2, hA2, hq2⟩ := rightChild_marks (H := H) (M := M) hn (visit H M h a v).1
    obtain ⟨-, A3, hA3, hq3⟩ := joinChildren_marks H
      (rightChild (visit H M h) h a (visit H M h a v).1).1 (MmrNode.pos ⟨a, h + 1⟩)
      (MmrNode.pos ⟨a, h⟩) (MmrNode.pos ⟨a + 2 ^ h, h⟩) (visit H M h a v).2
      (rightChild (visit H M h) h a (visit H M h a v).1).2
    refine ⟨A3 ++ A2 ++ A1, by rw [hA3, hA2, hA1, List.append_assoc, List.append_assoc],
      fun q hq => ?_⟩
    simp only [List.mem_append] at hq
    rcases hq with (hq | hq) | hq
    · rcases hq3 q hq with rfl | rfl <;> omega
    · have := hq2 q hq; omega
    · have := hq1 q hq; omega

variable (M) in
/-- **A descent moves the leaf cursor past its attempts**, as far as the utxos go. -/
theorem visit_leavesUsed {h : Nat} (hn : (⟨a, h⟩ : MmrNode).InMmr (2 ^ 64))
    (v : VerifyMwebUtxosVars δ) :
    (visit H M h a v).1.leavesUsed =
      min (v.leavesUsed + (attempts M v.leafset v.firstLeafIdx v.lastLeafIdx h a).length)
        v.mwebUtxos.utxos.length := by
  have hle := v.leavesUsed_le
  induction h generalizing a v with
  | zero =>
    simp only [attempts]
    split_ifs with hc hl
    · rw [visit_pulled hc, nextHash_leavesUsed]; simp; omega
    · rw [visit_zero hc, if_pos hl, nextLeaf_leavesUsed]; rfl
    · rw [visit_zero hc, if_neg hl]; simp; omega
  | succ h ih =>
    by_cases hc : MmrNode.pos ⟨a, h + 1⟩ < LeafIdx.nodeIdx v.firstLeafIdx ∨
      MmrNode.pos ⟨a, h + 1⟩ ∈ M
    · rw [visit_pulled hc, nextHash_leavesUsed, attempts, if_pos hc]; simp; omega
    rw [visit_succ hc, joinChildren_leavesUsed, attempts, if_neg hc]
    have hL := ih hn.leftChild v hle
    have hl := (visit_marks (H := H) M hn.leftChild v).1
    generalize visit H M h a v = L at hL hl ⊢
    simp only [rightChild, hl.lastLeafIdx_eq]
    split_ifs
    · simp [hL]
    · rw [ih hn.rightChild L.1 L.1.leavesUsed_le, hL, hl.leafset_eq, hl.firstLeafIdx_eq,
        hl.lastLeafIdx_eq, hl.mwebUtxos_eq, List.length_append]
      omega

variable (M) in
/-- **A supplied descent that returns no digest has used no proof hash** and marked
nothing. -/
theorem visit_none {h : Nat} (hn : (⟨a, h⟩ : MmrNode).InMmr (2 ^ 64))
    (v : VerifyMwebUtxosVars δ) (hs : Supplied (visit H M h a v))
    (hr : (visit H M h a v).2 = none) :
    (visit H M h a v).1.hashesUsed = v.hashesUsed ∧
      (visit H M h a v).1.isProofHash = v.isProofHash := by
  have pulled : ∀ {h a : Nat} {v : VerifyMwebUtxosVars δ}, MmrNode.pos ⟨a, h⟩ <
      LeafIdx.nodeIdx v.firstLeafIdx ∨ MmrNode.pos ⟨a, h⟩ ∈ M → Supplied (visit H M h a v) →
      (visit H M h a v).2 ≠ none := fun hc hs hr => by
    rw [visit_pulled hc] at hs hr
    have := nextHash_isSome_of_supplied _ _ hs
    rw [hr] at this
    exact Bool.false_ne_true this
  induction h generalizing a v with
  | zero =>
    by_cases hc : MmrNode.pos ⟨a, 0⟩ < LeafIdx.nodeIdx v.firstLeafIdx ∨ MmrNode.pos ⟨a, 0⟩ ∈ M
    · exact absurd hr (pulled hc hs)
    · exact ⟨(visit_zero_spec hc).1, (visit_zero_spec hc).2.1⟩
  | succ h ih =>
    by_cases hc : MmrNode.pos ⟨a, h + 1⟩ < LeafIdx.nodeIdx v.firstLeafIdx ∨
      MmrNode.pos ⟨a, h + 1⟩ ∈ M
    · exact absurd hr (pulled hc hs)
    rw [visit_succ hc] at hs hr ⊢
    obtain ⟨hl, hrr⟩ := joinChildren_none hs hr
    have hlt := hashesUsed_lt_of_joinChildren hs (.inl hl)
    rw [hl, hrr]
    simp only [joinChildren]
    have hR := (rightChild_marks (H := H) (M := M) hn (visit H M h a v).1).1
    unfold rightChild at hrr hlt hR ⊢
    split_ifs at hrr hlt hR ⊢ with hcut
    · rw [nextHash_hashesUsed, nextHash_mwebUtxos] at hlt
      have := (nextHash_isSome (visit H M h a v).1 (MmrNode.pos ⟨a + 2 ^ h, h⟩)).2 (by omega)
      rw [nextHash_snd] at hrr
      simp [hrr] at this
    · obtain ⟨h1, h2⟩ := ih hn.rightChild _ (Or.inr hlt) hrr
      have hsl : Supplied (visit H M h a v) := Or.inr (by
        have := hR.hashesUsed
        rw [hR.mwebUtxos_eq] at hlt
        omega)
      obtain ⟨h3, h4⟩ := ih hn.leftChild v hsl hl
      exact ⟨h1.trans h3, h2.trans h4⟩

/-- The children of a supplied descent were supplied. -/
theorem visit_supplied_children {h : Nat} (hn : (⟨a, h + 1⟩ : MmrNode).InMmr (2 ^ 64))
    (hc : ¬(MmrNode.pos ⟨a, h + 1⟩ < LeafIdx.nodeIdx v.firstLeafIdx ∨
      MmrNode.pos ⟨a, h + 1⟩ ∈ M))
    (hs : Supplied (visit H M (h + 1) a v)) :
    Supplied (visit H M h a v) ∧ Supplied (rightChild (visit H M h) h a (visit H M h a v).1) := by
  rw [visit_succ hc] at hs
  have hR := (rightChild_marks (H := H) (M := M) hn (visit H M h a v).1).1
  constructor
  · rcases hl : (visit H M h a v).2 with _ | d
    · have hlt := hashesUsed_lt_of_joinChildren hs (.inl hl)
      have := hR.hashesUsed
      rw [hR.mwebUtxos_eq] at hlt
      exact Or.inr (by omega)
    · exact Or.inl (by rw [hl]; rfl)
  · rcases hr : (rightChild (visit H M h) h a (visit H M h a v).1).2 with _ | d
    · exact Or.inr (hashesUsed_lt_of_joinChildren hs (.inr hr))
    · exact Or.inl (by rw [hr]; rfl)

/-- **An inner node costs what its children cost**, less one when both are missing. -/
theorem visit_succ_cost {h : Nat} (hn : (⟨a, h + 1⟩ : MmrNode).InMmr (2 ^ 64))
    (hc : ¬(MmrNode.pos ⟨a, h + 1⟩ < LeafIdx.nodeIdx v.firstLeafIdx ∨
      MmrNode.pos ⟨a, h + 1⟩ ∈ M)) :
    cost v (visit H M (h + 1) a v) + (if (visit H M h a v).2.isNone ∧
        (rightChild (visit H M h) h a (visit H M h a v).1).2.isNone then 1 else 0) =
      cost v (visit H M h a v) +
        cost (visit H M h a v).1 (rightChild (visit H M h) h a (visit H M h a v).1) := by
  rw [visit_succ hc]
  have hL := (visit_marks (H := H) M hn.leftChild v).1
  generalize visit H M h a v = L at hL ⊢
  have hR := (rightChild_marks (H := H) (M := M) hn L.1).1
  generalize rightChild (visit H M h) h a L.1 = R at hR ⊢
  have hJ := (joinChildren_marks H R.1 (MmrNode.pos ⟨a, h + 1⟩) (MmrNode.pos ⟨a, h⟩)
    (MmrNode.pos ⟨a + 2 ^ h, h⟩) L.2 R.2).1
  have hj := joinChildren_cost H R.1 (MmrNode.pos ⟨a, h + 1⟩) (MmrNode.pos ⟨a, h⟩)
    (MmrNode.pos ⟨a + 2 ^ h, h⟩) L.2 R.2
  have := hL.hashesUsed
  have := hR.hashesUsed
  have := hJ.hashesUsed
  unfold cost at hj ⊢
  omega

/-- Below an inner node whose descent returned a digest, the marks in the left child's
interval are the left descent's, and the left child itself when it had no digest. -/
theorem visit_succ_marks_left {h : Nat} (hn : (⟨a, h + 1⟩ : MmrNode).InMmr (2 ^ 64))
    (hc : ¬(MmrNode.pos ⟨a, h + 1⟩ < LeafIdx.nodeIdx v.firstLeafIdx ∨
      MmrNode.pos ⟨a, h + 1⟩ ∈ M))
    (hr : (visit H M (h + 1) a v).2.isSome) {q : Nat} (h2 : q ≤ MmrNode.pos ⟨a, h⟩) :
    q ∈ (visit H M (h + 1) a v).1.isProofHash ↔
      q ∈ (visit H M h a v).1.isProofHash ∨
        (q = MmrNode.pos ⟨a, h⟩ ∧ (visit H M h a v).2 = none) := by
  rw [visit_succ hc] at hr ⊢
  rw [joinChildren_isProofHash hr]
  obtain ⟨hI1, -⟩ := child_intervals hn
  obtain ⟨-, A, hA, hq⟩ := rightChild_marks (H := H) (M := M) hn (visit H M h a v).1
  have hpr : q ≠ MmrNode.pos ⟨a + 2 ^ h, h⟩ := by
    have := mmrSize_le_pos (a + 2 ^ h) h; omega
  have hqA : q ∉ A := fun hqA => by have := hq q hqA; omega
  rw [hA]
  rcases (visit H M h a v).2 with _ | d <;>
    rcases (rightChild (visit H M h) h a (visit H M h a v).1).2 with _ | e <;>
    simp [hpr, hqA, or_comm]

/-- Below an inner node whose descent returned a digest, the marks in the right child's
interval are the right child's, and the right child itself when it had no digest. -/
theorem visit_succ_marks_right {h : Nat} (hn : (⟨a, h + 1⟩ : MmrNode).InMmr (2 ^ 64))
    (hc : ¬(MmrNode.pos ⟨a, h + 1⟩ < LeafIdx.nodeIdx v.firstLeafIdx ∨
      MmrNode.pos ⟨a, h + 1⟩ ∈ M))
    (hr : (visit H M (h + 1) a v).2.isSome) {q : Nat} (h1 : mmrSize (a + 2 ^ h) ≤ q) :
    q ∈ (visit H M (h + 1) a v).1.isProofHash ↔
      q ∈ (rightChild (visit H M h) h a (visit H M h a v).1).1.isProofHash ∨
        (q = MmrNode.pos ⟨a + 2 ^ h, h⟩ ∧
          (rightChild (visit H M h) h a (visit H M h a v).1).2 = none) := by
  rw [visit_succ hc] at hr ⊢
  rw [joinChildren_isProofHash hr]
  obtain ⟨hI1, -⟩ := child_intervals hn
  have hpl : q ≠ MmrNode.pos ⟨a, h⟩ := fun hq => by rw [hq] at h1; omega
  rcases (visit H M h a v).2 with _ | d <;>
    rcases (rightChild (visit H M h) h a (visit H M h a v).1).2 with _ | e <;>
    simp [hpl, or_comm]

end Visit

end NeutrinoMweb
