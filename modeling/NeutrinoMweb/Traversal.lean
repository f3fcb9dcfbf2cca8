import NeutrinoMweb.VerifyUtxos

/-!
# The verifier on the tree

`calcNodeHash` finds a node's children by index arithmetic and reads the marks of
`isProofHash` as they grow. On the nodes of an MMR the arithmetic is the tree's (`left_pos`,
`right_pos`), and a call reads only the marks inside its own subtree, where no earlier call
of the same pass writes. So a call is a descent through the tree against the marks held when
it starts: `visit` below, a pure function with the children given by their leaves and
heights.

The subtree of `⟨a, h⟩` occupies the positions from `mmrSize a` to its own position; the
congruence and locality lemmas are stated over that interval.
-/

namespace NeutrinoMweb

variable {δ : Type} (H : Hashing δ)

open VerifyMwebUtxosVars

/-! ## The descent -/

/-- The right child of `⟨a, h + 1⟩`, as `calcNodeHash` gets it: pulled from the proof hashes
when the last leaf is not to its right, computed by `visitChild` otherwise. -/
def rightChild (visitChild : Nat → VerifyMwebUtxosVars δ → VerifyMwebUtxosVars δ × Option δ)
    (h : Nat) (a : Nat) (v : VerifyMwebUtxosVars δ) : VerifyMwebUtxosVars δ × Option δ :=
  if LeafIdx.nodeIdx v.lastLeafIdx ≤ MmrNode.pos ⟨a, h⟩ then
    v.nextHash (MmrNode.pos ⟨a + 2 ^ h, h⟩)
  else visitChild (a + 2 ^ h) v

/-- `calcNodeHash` at the node `⟨a, h⟩` of the MMR, with the children found in the tree and
the marks read from `M`. -/
def visit (M : List Nat) :
    Nat → Nat → VerifyMwebUtxosVars δ → VerifyMwebUtxosVars δ × Option δ
  | 0, a, v =>
    if MmrNode.pos ⟨a, 0⟩ < LeafIdx.nodeIdx v.firstLeafIdx ∨ MmrNode.pos ⟨a, 0⟩ ∈ M then
      v.nextHash (MmrNode.pos ⟨a, 0⟩)
    else if !v.leafset.contains a then (v, none)
    else
      match v.nextLeaf with
      | (v, i, some o) => if a = i then (v, some (H.hash (MmrNode.pos ⟨a, 0⟩) o)) else (v, none)
      | (v, _, none) => (v, none)
  | h + 1, a, v =>
    if MmrNode.pos ⟨a, h + 1⟩ < LeafIdx.nodeIdx v.firstLeafIdx ∨ MmrNode.pos ⟨a, h + 1⟩ ∈ M then
      v.nextHash (MmrNode.pos ⟨a, h + 1⟩)
    else
      let (v, l) := visit M h a v
      let (v, r) := rightChild (visit M h) h a v
      joinChildren H v (MmrNode.pos ⟨a, h + 1⟩) (MmrNode.pos ⟨a, h⟩)
        (MmrNode.pos ⟨a + 2 ^ h, h⟩) l r

/-! ## Later states -/

/-- `w` is a later state of the same run as `v`: the inputs are the same, the cursors have
only moved forward, and marks have only been added. -/
structure Later (v w : VerifyMwebUtxosVars δ) : Prop where
  inputs : w.inputs = v.inputs
  leavesUsed : v.leavesUsed ≤ w.leavesUsed
  hashesUsed : v.hashesUsed ≤ w.hashesUsed
  marks : ∃ A, w.isProofHash = A ++ v.isProofHash

theorem Later.refl (v : VerifyMwebUtxosVars δ) : Later v v :=
  ⟨rfl, le_rfl, le_rfl, ⟨[], rfl⟩⟩

theorem Later.trans {u v w : VerifyMwebUtxosVars δ} (h₁ : Later u v) (h₂ : Later v w) :
    Later u w := by
  obtain ⟨A, hA⟩ := h₁.marks
  obtain ⟨B, hB⟩ := h₂.marks
  exact ⟨h₂.inputs.trans h₁.inputs, Nat.le_trans h₁.leavesUsed h₂.leavesUsed,
    Nat.le_trans h₁.hashesUsed h₂.hashesUsed, ⟨B ++ A, by rw [hB, hA, List.append_assoc]⟩⟩

section Inputs

variable {v w : VerifyMwebUtxosVars δ} (hl : Later v w)
include hl

theorem Later.mwebUtxos_eq : w.mwebUtxos = v.mwebUtxos := congrArg Prod.fst hl.inputs

theorem Later.leafset_eq : w.leafset = v.leafset := congrArg (fun x => x.2.1) hl.inputs

theorem Later.firstLeafIdx_eq : w.firstLeafIdx = v.firstLeafIdx :=
  congrArg (fun x => x.2.2.1) hl.inputs

theorem Later.lastLeafIdx_eq : w.lastLeafIdx = v.lastLeafIdx :=
  congrArg (fun x => x.2.2.2) hl.inputs

end Inputs

section Steps

variable (v : VerifyMwebUtxosVars δ) (p pl pr : Nat) (l r : Option δ)

theorem nextLeaf_later : Later v v.nextLeaf.1 :=
  ⟨by simp, by have := v.leavesUsed_le; simp only [nextLeaf_leavesUsed]; omega, by simp,
    ⟨[], by simp⟩⟩

theorem nextHash_marks (q : Nat) :
    ∃ A, (v.nextHash q).1.isProofHash = A ++ v.isProofHash ∧ ∀ x ∈ A, x = q := by
  rw [nextHash_isProofHash]
  split
  · exact ⟨[q], rfl, by simp⟩
  · exact ⟨[], rfl, by simp⟩

theorem nextHash_later (q : Nat) : Later v (v.nextHash q).1 := by
  obtain ⟨A, hA, -⟩ := nextHash_marks v q
  exact ⟨by simp, by simp,
    by have := v.hashesUsed_le; simp only [nextHash_hashesUsed]; omega, ⟨A, hA⟩⟩

/-- The marks `joinChildren` adds are the children it pulls. -/
theorem joinChildren_marks :
    Later v (joinChildren H v p pl pr l r).1 ∧
      ∃ A, (joinChildren H v p pl pr l r).1.isProofHash = A ++ v.isProofHash ∧
        ∀ x ∈ A, x = pl ∨ x = pr := by
  unfold joinChildren
  split
  · exact ⟨Later.refl v, [], rfl, by simp⟩
  · obtain ⟨A, hA, hq⟩ := nextHash_marks v pl
    have hv := nextHash_later v pl
    split <;> rename_i h <;> rw [h] at hA hv <;>
      exact ⟨hv, A, hA, fun x hx => .inl (hq x hx)⟩
  · obtain ⟨A, hA, hq⟩ := nextHash_marks v pr
    have hv := nextHash_later v pr
    split <;> rename_i h <;> rw [h] at hA hv <;>
      exact ⟨hv, A, hA, fun x hx => .inr (hq x hx)⟩
  · exact ⟨Later.refl v, [], rfl, by simp⟩

end Steps

variable {H}

/-- **A descent only moves the cursors, and marks only nodes of its subtree.** -/
theorem visit_marks (M : List Nat) {h : Nat} {a : Nat}
    (hn : (⟨a, h⟩ : MmrNode).InMmr (2 ^ 64)) (v : VerifyMwebUtxosVars δ) :
    Later v (visit H M h a v).1 ∧ ∃ A, (visit H M h a v).1.isProofHash = A ++ v.isProofHash ∧
      ∀ q ∈ A, mmrSize a ≤ q ∧ q ≤ MmrNode.pos ⟨a, h⟩ := by
  have hself := mmrSize_le_pos a h
  induction h generalizing a v with
  | zero =>
    simp only [visit]
    split
    · obtain ⟨A, hA, hq⟩ := nextHash_marks v (MmrNode.pos ⟨a, 0⟩)
      exact ⟨nextHash_later v _, A, hA, fun q hqA => by rw [hq q hqA]; exact ⟨hself, le_rfl⟩⟩
    split
    · exact ⟨Later.refl v, [], rfl, by simp⟩
    have hl := nextLeaf_later v
    have hm := nextLeaf_isProofHash v
    rcases hv : v.nextLeaf with ⟨v', i, _ | o⟩ <;> rw [hv] at hl hm
    · exact ⟨hl, [], hm, by simp⟩
    · simp only
      split <;> exact ⟨hl, [], hm, by simp⟩
  | succ h ih =>
    simp only [visit]
    split
    · obtain ⟨A, hA, hq⟩ := nextHash_marks v (MmrNode.pos ⟨a, h + 1⟩)
      exact ⟨nextHash_later v _, A, hA, fun q hqA => by rw [hq q hqA]; exact ⟨hself, le_rfl⟩⟩
    obtain ⟨hI1, hI2⟩ := child_intervals hn
    have hlt := pos_left_lt a h
    have hsz := mmrSize_le_pos (a + 2 ^ h) h
    have hsl := mmrSize_le_pos a h
    generalize hL : visit H M h a v = L
    obtain ⟨hv1, A1, hA1, hq1⟩ := hL ▸ ih hn.leftChild v (mmrSize_le_pos a h)
    generalize hR : rightChild (visit H M h) h a L.1 = R
    obtain ⟨hv2, A2, hA2, hq2⟩ : Later L.1 R.1 ∧ ∃ A, R.1.isProofHash = A ++ L.1.isProofHash ∧
        ∀ q ∈ A, mmrSize (a + 2 ^ h) ≤ q ∧ q ≤ MmrNode.pos ⟨a + 2 ^ h, h⟩ := by
      rw [← hR, rightChild]
      split
      · obtain ⟨A, hA, hq⟩ := nextHash_marks L.1 (MmrNode.pos ⟨a + 2 ^ h, h⟩)
        exact ⟨nextHash_later L.1 _, A, hA, fun q hqA => by rw [hq q hqA]; exact ⟨hsz, le_rfl⟩⟩
      · exact ih hn.rightChild L.1 hsz
    obtain ⟨hv3, A3, hA3, hq3⟩ := joinChildren_marks H R.1 (MmrNode.pos ⟨a, h + 1⟩)
      (MmrNode.pos ⟨a, h⟩) (MmrNode.pos ⟨a + 2 ^ h, h⟩) L.2 R.2
    refine ⟨hv1.trans (hv2.trans hv3), A3 ++ A2 ++ A1, by
      rw [hA3, hA2, hA1, List.append_assoc, List.append_assoc], fun q hq => ?_⟩
    rcases List.mem_append.1 hq with hq | hq
    · rcases List.mem_append.1 hq with hq | hq
      · rcases hq3 q hq with hq | hq <;> rw [hq] <;> omega
      · have := hq2 q hq; omega
    · have := hq1 q hq; omega

/-- **A descent reads only the marks of its subtree.** -/
theorem visit_congr {M M' : List Nat} {h : Nat} {a : Nat} (hn : (⟨a, h⟩ : MmrNode).InMmr (2 ^ 64))
    (hM : ∀ q : Nat, mmrSize a ≤ q → q ≤ MmrNode.pos ⟨a, h⟩ → (q ∈ M ↔ q ∈ M'))
    (v : VerifyMwebUtxosVars δ) : visit H M h a v = visit H M' h a v := by
  have hp := hM _ (mmrSize_le_pos a h) le_rfl
  induction h generalizing a v with
  | zero => simp only [visit, hp]
  | succ h ih =>
    obtain ⟨hI1, hI2⟩ := child_intervals hn
    have hlt := pos_left_lt a h
    have hsl := mmrSize_le_pos a h
    have hsr := mmrSize_le_pos (a + 2 ^ h) h
    have hl : ∀ w, visit H M h a w = visit H M' h a w := fun w =>
      ih hn.leftChild (fun q h1 h2 => hM q h1 (by omega)) w (hM _ hsl (by omega))
    have hr : ∀ w, rightChild (visit H M h) h a w = rightChild (visit H M' h) h a w := fun w => by
      simp only [rightChild, ih hn.rightChild (fun q h1 h2 => hM q (by omega) (by omega)) _
        (hM _ (by omega) (by omega))]
    simp only [visit, hp, hl, hr]

/-! ## The code computes the descent -/

/-- **On a node of the MMR below the last position, `calcNodeHash` is the descent against
the marks it starts with.** -/
theorem calcNodeHash_pos {h : Nat} {a : Nat} (hn : (⟨a, h⟩ : MmrNode).InMmr (2 ^ 64))
    (hp : MmrNode.pos ⟨a, h⟩ < 2 ^ 64 - 1) (v : VerifyMwebUtxosVars δ) :
    calcNodeHash H h v (MmrNode.pos ⟨a, h⟩) = pure (visit H v.isProofHash h a v) := by
  induction h generalizing a v with
  | zero =>
    have hleaf : NodeIdx.leafIdx (MmrNode.pos ⟨a, 0⟩) = a :=
      leafIdx_mmrSize (a := a) hp (by have : a + 1 ≤ 2 ^ 64 := hn.2; omega)
    simp only [calcNodeHash, visit, hleaf]
    split
    · rfl
    split
    · rfl
    rcases v.nextLeaf with ⟨v', i, _ | o⟩
    · simp
    · by_cases hi : a = i
      · subst hi; simp [goDeref]; rfl
      · simp [hi]
  | succ h ih =>
    have hp' : MmrNode.pos ⟨a, h + 1⟩ < 2 ^ 64 := by omega
    obtain ⟨hI1, hI2⟩ := child_intervals hn
    have hlt := pos_left_lt a h
    simp only [calcNodeHash, visit, left_pos hp', right_pos hn.1 hn.2 hp']
    split
    · rfl
    rw [ih hn.leftChild (by omega), pure_bind]
    rcases hL : visit H v.isProofHash h a v with ⟨v1, l⟩
    obtain ⟨-, A, hA, hq⟩ := visit_marks v.isProofHash hn.leftChild v
    rw [hL] at hA
    simp only at hA
    simp only [rightChild]
    split
    · rw [pure_bind, switchChildren_eq, left_pos hp', right_pos hn.1 hn.2 hp']
    · have hM : ∀ q : Nat, mmrSize (a + 2 ^ h) ≤ q → q ≤ MmrNode.pos ⟨a + 2 ^ h, h⟩ →
          (q ∈ v1.isProofHash ↔ q ∈ v.isProofHash) := by
        intro q h1 _
        simp only [hA, List.mem_append, or_iff_right_iff_imp]
        intro hqA
        have := hq q hqA
        omega
      rw [ih hn.rightChild (by omega), pure_bind, switchChildren_eq, left_pos hp',
        right_pos hn.1 hn.2 hp', visit_congr hn.rightChild hM]

end NeutrinoMweb
