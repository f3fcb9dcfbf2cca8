import NeutrinoMweb.Index

/-!
# The post-order layout of a Merkle Mountain Range

The abstract model that the index arithmetic of `Index.lean` computes. An MMR over `N`
leaves is a forest of perfect binary trees, one per set bit of `N` from the highest down;
each tree is laid out in post-order and the trees left to right. A node is named by the
first leaf under it and its height, so the nodes of an MMR are exactly the *aligned* pairs
`⟨a, h⟩` (`2^h ∣ a`) whose leaves `a, …, a + 2^h - 1` are all present.

Nothing here mentions the code. The bridge to it is `mmrSize_eq` (the layout of `N` leaves
has `2N - popcount N` nodes, the formula of `leafIdx.nodeIdx`) and `getElem?_mmrLayout`
(every node sits at `MmrNode.pos`, whatever the leaf count).
-/

namespace NeutrinoMweb

/-- A node of an MMR: the root of the perfect tree of height `height` over the leaves
`leaf, …, leaf + 2^height - 1`. -/
structure MmrNode where
  leaf : Nat
  height : Nat
deriving DecidableEq, Repr

/-- Post-order nodes of the perfect tree of height `h` over the leaves from `a`. -/
def perfectTree : Nat → Nat → List MmrNode
  | a, 0 => [⟨a, 0⟩]
  | a, h + 1 => perfectTree a h ++ perfectTree (a + 2 ^ h) h ++ [⟨a, h + 1⟩]

/-- The peaks for the set bits of `N` below bit `k`, highest first; the first one covers the
leaves from `a`. -/
def peaksFrom : Nat → Nat → Nat → List MmrNode
  | 0, _, _ => []
  | k + 1, N, a => if N.testBit k then ⟨a, k⟩ :: peaksFrom k N (a + 2 ^ k) else peaksFrom k N a

/-- The peaks of an MMR over `N` leaves, `N` a `uint64`. -/
def mmrPeaks (N : Nat) : List MmrNode := peaksFrom 64 N 0

/-- The nodes of a forest of peaks, each tree in post-order, the trees left to right. -/
def forest (peaks : List MmrNode) : List MmrNode :=
  peaks.flatMap fun n => perfectTree n.leaf n.height

/-- All nodes of an MMR over `N` leaves in post-order. -/
def mmrLayout (N : Nat) : List MmrNode := forest (mmrPeaks N)

/-- Number of nodes of an MMR over `N` leaves. -/
def mmrSize (N : Nat) : Nat := (mmrLayout N).length

namespace MmrNode

/-- The leaves under a node start at a multiple of its width. -/
def Aligned (n : MmrNode) : Prop := n.leaf % 2 ^ n.height = 0

instance (n : MmrNode) : Decidable n.Aligned := inferInstanceAs (Decidable (_ = _))

/-- Position of a node in the layout of every MMR that contains it: the nodes over the
leaves before its own, then its subtree, whose post-order ends at the node. -/
def pos (n : MmrNode) : Nat := mmrSize n.leaf + 2 ^ (n.height + 1) - 2

/-- First position of the node's subtree. -/
def start (n : MmrNode) : Nat := mmrSize n.leaf

/-- The node lies in the MMR over `N` leaves. -/
def InMmr (n : MmrNode) (N : Nat) : Prop := n.Aligned ∧ n.leaf + 2 ^ n.height ≤ N

end MmrNode

/-! ## Sizes -/

@[simp] theorem forest_nil : forest [] = [] := rfl

@[simp] theorem forest_cons (n : MmrNode) (ns : List MmrNode) :
    forest (n :: ns) = perfectTree n.leaf n.height ++ forest ns := by
  simp [forest]

@[simp] theorem length_perfectTree (a h : Nat) : (perfectTree a h).length = 2 ^ (h + 1) - 1 := by
  induction h generalizing a with
  | zero => rfl
  | succ h ih =>
    have := Nat.one_le_two_pow (n := h + 1)
    simp only [perfectTree, List.length_append, ih, List.length_singleton, Nat.pow_succ 2 (h + 1)]
    omega

theorem length_forest_peaksFrom (k N a : Nat) :
    (forest (peaksFrom k N a)).length = 2 * (N % 2 ^ k) - onesCount k N := by
  induction k generalizing a with
  | zero => simp [peaksFrom, Nat.mod_one, onesCount]
  | succ k ih =>
    have hm := mod_two_pow_succ N k
    have hc := onesCount_le_mod k N
    have h1 := Nat.one_le_two_pow (n := k)
    by_cases hb : N.testBit k
    · simp only [peaksFrom, onesCount, hb, if_true, forest_cons, List.length_append,
        length_perfectTree, ih, Nat.pow_succ] at hm ⊢
      omega
    · simp only [peaksFrom, onesCount, hb, if_false, Bool.false_eq_true, ih] at hm ⊢
      omega

/-- **The layout of `N` leaves has `2N - popcount N` nodes**, the formula of
`leafIdx.nodeIdx`. -/
theorem mmrSize_eq {N : Nat} (hN : N < 2 ^ 64) : mmrSize N = 2 * N - onesCount64 N := by
  rw [mmrSize, mmrLayout, mmrPeaks, length_forest_peaksFrom, Nat.mod_eq_of_lt hN]; rfl

theorem mmrSize_le {N : Nat} (hN : N < 2 ^ 64) : mmrSize N ≤ 2 * N := by
  rw [mmrSize_eq hN]; omega

theorem le_mmrSize {N : Nat} (hN : N < 2 ^ 64) : N ≤ mmrSize N := by
  have := onesCount64_le N
  rw [mmrSize_eq hN]; omega

theorem nodeIdx_eq_mmrSize {i : Nat} (hi : mmrSize i < 2 ^ 64) (hi' : i < 2 ^ 64) :
    LeafIdx.nodeIdx i = mmrSize i := by
  rw [LeafIdx.nodeIdx, ← mmrSize_eq hi', wrap64, Nat.mod_eq_of_lt hi]

theorem mmrSize_add {a j g : Nat} (ha : a % 2 ^ g = 0) (hj : j < 2 ^ g) (h64 : a + j < 2 ^ 64) :
    mmrSize (a + j) = mmrSize a + mmrSize j := by
  have hc := onesCount_add_of_mod_eq_zero ha hj 64
  have h1 := onesCount64_le a
  have h2 := onesCount64_le j
  rw [mmrSize_eq h64, mmrSize_eq (by omega), mmrSize_eq (by omega)]
  simp only [onesCount64] at h1 h2 ⊢
  omega

theorem mmrSize_two_pow {g : Nat} (hg : g < 64) : mmrSize (2 ^ g) = 2 ^ (g + 1) - 1 := by
  have h := Nat.pow_lt_pow_right (a := 2) (by decide) hg
  rw [mmrSize_eq h, onesCount64, onesCount_two_pow hg, Nat.pow_succ]
  have := Nat.one_le_two_pow (n := g)
  omega

/-! ## Positions -/

theorem add_two_pow_le_of_aligned {j g h : Nat} (hj : j % 2 ^ g = 0) (hg : g ≤ h)
    (hjh : j < 2 ^ h) : j + 2 ^ g ≤ 2 ^ h := by
  have hd : 2 ^ g ∣ 2 ^ h - j :=
    Nat.dvd_sub' (Nat.pow_dvd_pow 2 hg) (Nat.dvd_of_mod_eq_zero hj)
  have := Nat.le_of_dvd (by omega) hd
  omega

theorem getElem?_append_of_eq_some {α : Type} {l₁ l₂ : List α} {i : Nat} {x : α}
    (h : l₁[i]? = some x) : (l₁ ++ l₂)[i]? = some x := by
  rw [List.getElem?_append_left (List.getElem?_eq_some_iff.1 h).1, h]

/-- Inside one perfect tree a node sits at its position relative to the tree's first leaf. -/
theorem getElem?_perfectTree {h g j : Nat} (a : Nat) (h64 : h ≤ 64) (hj : j % 2 ^ g = 0)
    (hjg : j + 2 ^ g ≤ 2 ^ h) :
    (perfectTree a h)[mmrSize j + 2 ^ (g + 1) - 2]? = some ⟨a + j, g⟩ := by
  induction h generalizing a j with
  | zero =>
    have : 1 ≤ 2 ^ g := Nat.one_le_two_pow
    have hg : g = 0 := by
      by_contra hg
      have := Nat.pow_le_pow_right (n := 2) (by decide) (Nat.one_le_iff_ne_zero.mpr hg)
      simp at hjg this; omega
    subst hg
    have hj0 : j = 0 := by simp at hjg; omega
    subst hj0
    rfl
  | succ h ih =>
    have hpow : 2 ^ (h + 1) = 2 * 2 ^ h := by rw [Nat.pow_succ]; omega
    have h1 := Nat.one_le_two_pow (n := h)
    have hgh : g ≤ h + 1 := by
      by_contra hg
      have := Nat.pow_le_pow_right (n := 2) (by decide) (Nat.not_le.mp hg)
      rw [Nat.pow_succ 2 (h + 1)] at this; omega
    rw [perfectTree]
    rcases Nat.lt_or_ge j (2 ^ h) with hlt | hge
    · rcases Nat.lt_or_ge h g with hhg | hhg
      · -- the root itself
        have hg : g = h + 1 := by omega
        subst hg
        have hj0 : j = 0 := by omega
        subst hj0
        have h0 : mmrSize 0 = 0 := rfl
        rw [List.getElem?_append_right (by simp; rw [Nat.pow_succ 2 (h + 1)]; omega)]
        simp only [length_perfectTree, List.length_append, h0, Nat.add_zero]
        rw [show 0 + 2 ^ (h + 1 + 1) - 2 - (2 ^ (h + 1) - 1 + (2 ^ (h + 1) - 1)) = 0 by
          rw [Nat.pow_succ 2 (h + 1)]; omega]
        rfl
      · -- the left subtree
        exact getElem?_append_of_eq_some (getElem?_append_of_eq_some
          (ih a (by omega) hj (add_two_pow_le_of_aligned hj hhg hlt)))
    · -- the right subtree
      obtain ⟨j', rfl⟩ : ∃ j', j = 2 ^ h + j' := ⟨j - 2 ^ h, by omega⟩
      have hh64 : h < 64 := by
        rcases Nat.lt_or_ge h 64 with hh | hh
        · exact hh
        · have : 2 ^ 64 ≤ 2 ^ h := Nat.pow_le_pow_right (by decide) hh
          omega
      have hj' : j' % 2 ^ g = 0 := by
        have hd : 2 ^ g ∣ 2 ^ h + j' := Nat.dvd_of_mod_eq_zero hj
        have hdh : 2 ^ g ∣ 2 ^ h := Nat.pow_dvd_pow 2 (by
          by_contra hg
          have : 2 ^ (h + 1) ≤ 2 ^ g := Nat.pow_le_pow_right (by decide) (by omega)
          have := Nat.one_le_two_pow (n := g)
          omega)
        exact Nat.mod_eq_zero_of_dvd ((Nat.dvd_add_right hdh).1 hd)
      have hsize : mmrSize (2 ^ h + j') = 2 ^ (h + 1) - 1 + mmrSize j' := by
        rw [mmrSize_add (g := h) (Nat.mod_self _) (by omega) (by
          have := Nat.pow_le_pow_right (n := 2) (by decide) (show h + 1 ≤ 64 by omega)
          omega), mmrSize_two_pow hh64]
      have hr := ih (a + 2 ^ h) (by omega) hj' (by omega)
      rw [hsize, List.getElem?_append_left (by
          have := (List.getElem?_eq_some_iff.1 hr).1
          simp only [List.length_append, length_perfectTree] at this ⊢; omega),
        List.getElem?_append_right (by simp; omega)]
      simp only [length_perfectTree]
      rw [show 2 ^ (h + 1) - 1 + mmrSize j' + 2 ^ (g + 1) - 2 - (2 ^ (h + 1) - 1) =
        mmrSize j' + 2 ^ (g + 1) - 2 by omega, hr, Nat.add_assoc]

/-- In the forest of the bits of `N` below `k`, a node sits at its position relative to the
forest's first leaf. -/
theorem getElem?_forest_peaksFrom {k N g j : Nat} (a : Nat) (hk : k ≤ 64) (hj : j % 2 ^ g = 0)
    (hjN : j + 2 ^ g ≤ N % 2 ^ k) :
    (forest (peaksFrom k N a))[mmrSize j + 2 ^ (g + 1) - 2]? = some ⟨a + j, g⟩ := by
  induction k generalizing a j with
  | zero => simp [Nat.mod_one] at hjN
  | succ k ih =>
    have hm := mod_two_pow_succ N k
    have hNk := Nat.mod_lt N (Nat.two_pow_pos k)
    by_cases hb : N.testBit k
    · simp only [hb, if_true] at hm
      simp only [peaksFrom, hb, if_true, forest_cons]
      have hgk : g ≤ k := by
        by_contra hg
        have := (Nat.pow_le_pow_iff_right Nat.one_lt_two).2 (show k + 1 ≤ g by omega)
        rw [Nat.pow_succ] at this; omega
      rcases Nat.lt_or_ge j (2 ^ k) with hlt | hge
      · exact getElem?_append_of_eq_some (getElem?_perfectTree a (by omega) hj
          (add_two_pow_le_of_aligned hj hgk hlt))
      · obtain ⟨j', rfl⟩ : ∃ j', j = 2 ^ k + j' := ⟨j - 2 ^ k, by omega⟩
        have hk64 : k < 64 := by omega
        have hj' : j' % 2 ^ g = 0 := Nat.mod_eq_zero_of_dvd ((Nat.dvd_add_right
          (Nat.pow_dvd_pow 2 hgk)).1 (Nat.dvd_of_mod_eq_zero hj))
        have h64 := Nat.pow_le_pow_right (n := 2) (by decide) (show k + 1 ≤ 64 by omega)
        have hsize : mmrSize (2 ^ k + j') = 2 ^ (k + 1) - 1 + mmrSize j' := by
          rw [mmrSize_add (g := k) (Nat.mod_self _) (by omega) (by rw [Nat.pow_succ] at h64; omega),
            mmrSize_two_pow hk64]
        rw [hsize, List.getElem?_append_right (by simp; omega), length_perfectTree,
          show 2 ^ (k + 1) - 1 + mmrSize j' + 2 ^ (g + 1) - 2 - (2 ^ (k + 1) - 1) =
            mmrSize j' + 2 ^ (g + 1) - 2 by omega,
          ih (a + 2 ^ k) (by omega) hj' (by omega), Nat.add_assoc]
    · simp only [hb, if_false, Bool.false_eq_true, Nat.add_zero] at hm
      simp only [peaksFrom, hb, if_false, Bool.false_eq_true]
      exact ih a (by omega) hj (by omega)

/-- **Every node of an MMR sits at `MmrNode.pos` in its post-order layout.** -/
theorem getElem?_mmrLayout {N : Nat} {n : MmrNode} (hN : N < 2 ^ 64) (hn : n.InMmr N) :
    (mmrLayout N)[n.pos]? = some n := by
  have := getElem?_forest_peaksFrom (N := N) 0 (le_refl 64) hn.1
    (by rw [Nat.mod_eq_of_lt hN]; exact hn.2)
  simpa [mmrLayout, mmrPeaks, MmrNode.pos] using this

theorem pos_lt_mmrSize {N : Nat} {n : MmrNode} (hN : N < 2 ^ 64) (hn : n.InMmr N) :
    n.pos < mmrSize N :=
  (List.getElem?_eq_some_iff.1 (getElem?_mmrLayout hN hn)).1

theorem mmrSize_lt_succ {x : Nat} (hx : x + 1 < 2 ^ 64) : mmrSize x < mmrSize (x + 1) := by
  have := pos_lt_mmrSize (n := ⟨x, 0⟩) hx ⟨Nat.mod_one x, by simp⟩
  simpa [MmrNode.pos] using this

theorem mmrSize_strictMono {x y : Nat} (hxy : x < y) (hy : y < 2 ^ 64) :
    mmrSize x < mmrSize y := by
  induction y with
  | zero => omega
  | succ y ih =>
    rcases Nat.lt_or_ge x y with h | h
    · exact lt_trans (ih h (by omega)) (mmrSize_lt_succ hy)
    · obtain rfl : x = y := by omega
      exact mmrSize_lt_succ hy

theorem mmrSize_mono {x y : Nat} (hxy : x ≤ y) (hy : y < 2 ^ 64) : mmrSize x ≤ mmrSize y := by
  rcases Nat.lt_or_ge x y with h | h
  · exact le_of_lt (mmrSize_strictMono h hy)
  · rw [show x = y by omega]

/-- **A node lies before the first node of leaf `s` exactly when all its leaves do.** -/
theorem pos_lt_mmrSize_iff {n : MmrNode} {s : Nat} (hn : n.Aligned) (hs : s < 2 ^ 64)
    (h64 : n.leaf + 2 ^ n.height ≤ 2 ^ 64) :
    n.pos < mmrSize s ↔ n.leaf + 2 ^ n.height ≤ s := by
  constructor
  · intro hlt
    by_contra hge
    have h1 := Nat.one_le_two_pow (n := n.height)
    have hle := mmrSize_mono (show s ≤ n.leaf + (2 ^ n.height - 1) by omega) (by omega)
    rw [mmrSize_add hn (by omega) (by omega)] at hle
    have := mmrSize_le (N := 2 ^ n.height - 1) (by omega)
    unfold MmrNode.pos at hlt
    rw [Nat.pow_succ] at hlt
    omega
  · intro hle
    exact lt_of_lt_of_le (pos_lt_mmrSize (N := n.leaf + 2 ^ n.height) (by omega) ⟨hn, le_refl _⟩)
      (mmrSize_mono hle hs)

end NeutrinoMweb
