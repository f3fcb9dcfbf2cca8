import NeutrinoMweb.Layout

/-!
# The code's index arithmetic computes the layout

`Index.lean` transcribes the loops of `mweb.go`; `Layout.lean` says what they are meant to
compute. Here the two meet. Each loop is first read inside one perfect tree of height `m`,
whose subtrees have the sizes `2^m - 1, …, 1` the loop walks: the left subtree needs no
subtraction, the right one is the left one shifted by a subtracted size, and the root is
what remains. The code's bound `64 - bits.LeadingZeros64(p)` always names a perfect tree
that holds `p`.
-/

namespace NeutrinoMweb

open MmrNode

/-- The remainder computed by `nodeIdx.height`'s loop over the sizes below `2^m`. -/
def heightLoop (m x : Nat) : Nat := (peakSizesLoop (fun _ u => u) m (x, ())).1

/-- The accumulator computed by `nodeIdx.leafIdx`'s loop over the sizes below `2^m`. -/
def leafLoop (m x acc : Nat) : Nat :=
  (peakSizesLoop (fun peakSize leafIndex => leafIndex + wrap64 (peakSize + 1) / 2) m (x, acc)).2

theorem pos_mk (a h : Nat) : (⟨a, h⟩ : MmrNode).pos = mmrSize a + 2 ^ (h + 1) - 2 := rfl

theorem pos_shift {m a h : Nat} (hm : m < 64) (ha : a < 2 ^ m) :
    (⟨2 ^ m + a, h⟩ : MmrNode).pos = 2 ^ (m + 1) - 1 + (⟨a, h⟩ : MmrNode).pos := by
  have h64 := Nat.pow_le_pow_right (n := 2) (by decide) (show m + 1 ≤ 64 by omega)
  have h1 := Nat.one_le_two_pow (n := h + 1)
  rw [pos_mk, pos_mk, mmrSize_add (g := m) (Nat.mod_self _) ha (by rw [Nat.pow_succ] at h64; omega),
    mmrSize_two_pow hm]
  omega

/-- Past the root of a perfect tree of height `m + 1` the height loop counts up by one per
remaining unit. -/
theorem heightLoop_root (m c : Nat) : heightLoop m (2 ^ (m + 1) - 1 + c) = m + 1 + c := by
  induction m generalizing c with
  | zero => rfl
  | succ m ih =>
    have h1 := Nat.one_le_two_pow (n := m + 1)
    have hp : 2 ^ (m + 1 + 1) = 2 * 2 ^ (m + 1) := by rw [Nat.pow_succ]; omega
    unfold heightLoop at ih ⊢
    rw [peakSizesLoop_take _ _ _ _ (by omega),
      show 2 ^ (m + 1 + 1) - 1 + c - (2 ^ (m + 1) - 1) = 2 ^ (m + 1) - 1 + (c + 1) by omega, ih]
    omega

/-- Where a node of a perfect tree of height `m` can sit: in the left half, in the right half,
or at the root. -/
theorem aligned_cases {m a h : Nat} (ha : a % 2 ^ h = 0) (hin : a + 2 ^ h ≤ 2 ^ (m + 1)) :
    a + 2 ^ h ≤ 2 ^ m ∨ (2 ^ m ≤ a ∧ h ≤ m) ∨ (a = 0 ∧ h = m + 1) := by
  have hp : 2 ^ (m + 1) = 2 * 2 ^ m := by rw [Nat.pow_succ]; omega
  rcases Nat.lt_or_ge m h with hmh | hmh
  · right; right
    have hh : h = m + 1 := by
      by_contra hne
      have := Nat.pow_le_pow_right (n := 2) (by decide) (show m + 2 ≤ h by omega)
      rw [Nat.pow_succ, hp] at this; omega
    subst hh; omega
  · rcases Nat.lt_or_ge a (2 ^ m) with hlt | hge
    · left; exact add_two_pow_le_of_aligned ha hmh hlt
    · right; left; exact ⟨hge, hmh⟩

/-- **Inside a perfect tree of height `m`, the height loop returns a node's height.** -/
theorem heightLoop_pos {m : Nat} (hm : m ≤ 64) {n : MmrNode} (hn : n.Aligned)
    (hin : n.leaf + 2 ^ n.height ≤ 2 ^ m) : heightLoop m n.pos = n.height := by
  obtain ⟨a, h⟩ := n
  simp only [MmrNode.Aligned] at hn hin ⊢
  induction m generalizing a h with
  | zero =>
    have := Nat.one_le_two_pow (n := h)
    have hh : h = 0 := by
      by_contra hh
      have := Nat.pow_le_pow_right (n := 2) (by decide) (Nat.one_le_iff_ne_zero.mpr hh)
      simp at hin this; omega
    subst hh
    obtain rfl : a = 0 := by simp at hin; omega
    rfl
  | succ m ih =>
    have hS := mmrSize_two_pow (g := m) (by omega)
    have h64 := Nat.pow_le_pow_right (n := 2) (by decide) (show m ≤ 63 by omega)
    unfold heightLoop at ih ⊢
    rcases aligned_cases hn hin with hl | ⟨hr, hhm⟩ | ⟨rfl, rfl⟩
    · -- left half: the first size does not fit
      have hlt := (pos_lt_mmrSize_iff (n := ⟨a, h⟩) hn (by omega)
        (show a + 2 ^ h ≤ 2 ^ 64 by omega)).2 hl
      rw [hS] at hlt
      rw [peakSizesLoop_skip _ _ _ _ hlt]
      exact ih (by omega) a h hn hl
    · -- right half: the first size is subtracted
      obtain ⟨a', rfl⟩ : ∃ a', a = 2 ^ m + a' := ⟨a - 2 ^ m, by omega⟩
      have ha' : a' < 2 ^ m := by rw [Nat.pow_succ] at hin; omega
      have hal : a' % 2 ^ h = 0 := Nat.mod_eq_zero_of_dvd ((Nat.dvd_add_right
        (Nat.pow_dvd_pow 2 hhm)).1 (Nat.dvd_of_mod_eq_zero hn))
      rw [pos_shift (by omega) ha', peakSizesLoop_take _ _ _ _ (by omega), Nat.add_sub_cancel_left]
      exact ih (by omega) a' h hal (by rw [Nat.pow_succ] at hin; omega)
    · -- the root
      have h1 := Nat.one_le_two_pow (n := m + 1)
      rw [pos_mk, show mmrSize 0 = 0 from rfl, peakSizesLoop_take _ _ _ _ (by
          rw [Nat.pow_succ 2 (m + 1)]; omega),
        show 0 + 2 ^ (m + 1 + 1) - 2 - (2 ^ (m + 1) - 1) = 2 ^ (m + 1) - 1 + 0 by
          rw [Nat.pow_succ 2 (m + 1)]; omega]
      exact heightLoop_root m 0

/-- **Inside a perfect tree of height `m ≤ 63`, the leaf loop counts the leaves before a
leaf.** Below `2^64 - 1` the sum `peakSize + 1` does not wrap. -/
theorem leafLoop_mmrSize {m : Nat} (hm : m ≤ 63) {a : Nat} (ha : a + 1 ≤ 2 ^ m) (acc : Nat) :
    leafLoop m (mmrSize a) acc = acc + a := by
  induction m generalizing a acc with
  | zero => obtain rfl : a = 0 := by simp at ha; omega
            rfl
  | succ m ih =>
    have h63 := Nat.pow_le_pow_right (n := 2) (by decide) (show m + 1 ≤ 63 by omega)
    have hS := mmrSize_two_pow (g := m) (by omega)
    unfold leafLoop at ih ⊢
    rcases Nat.lt_or_ge a (2 ^ m) with hl | hr
    · have hlt := mmrSize_strictMono hl (by omega)
      rw [hS] at hlt
      rw [peakSizesLoop_skip _ _ _ _ hlt]
      exact ih (by omega) (by omega) acc
    · obtain ⟨a', rfl⟩ : ∃ a', a = 2 ^ m + a' := ⟨a - 2 ^ m, by omega⟩
      have ha' : a' < 2 ^ m := by rw [Nat.pow_succ] at ha; omega
      have hsz := pos_shift (h := 0) (by omega) ha'
      simp only [pos_mk, Nat.zero_add, pow_one, Nat.add_sub_cancel] at hsz
      have hw : wrap64 (2 ^ (m + 1) - 1 + 1) / 2 = 2 ^ m := by
        rw [wrap64, Nat.sub_add_cancel Nat.one_le_two_pow, Nat.mod_eq_of_lt (by omega), Nat.pow_succ]
        omega
      rw [hsz, peakSizesLoop_take _ _ _ _ (by omega), Nat.add_sub_cancel_left, hw,
        ih (by omega) (by omega)]
      omega

/-- The perfect tree named by the code's loop bound holds the node. -/
theorem inTree_loopBound {n : MmrNode} (hn : n.Aligned) (h64 : n.leaf + 2 ^ n.height ≤ 2 ^ 64)
    (hp : n.pos < 2 ^ 64) : n.leaf + 2 ^ n.height ≤ 2 ^ (64 - leadingZeros64 n.pos) := by
  obtain ⟨hH, hlt⟩ := lt_two_pow_loopBound hp
  rcases Nat.lt_or_ge (64 - leadingZeros64 n.pos) 64 with hH' | hH'
  · have hS := mmrSize_two_pow hH'
    have h1 := Nat.one_le_two_pow (n := 64 - leadingZeros64 n.pos)
    have hpow := Nat.pow_lt_pow_right (a := 2) (by decide) hH'
    refine (pos_lt_mmrSize_iff hn hpow h64).1 ?_
    rw [hS, Nat.pow_succ]; omega
  · rw [show 64 - leadingZeros64 n.pos = 64 by omega]; exact h64

/-- **`nodeIdx.height` returns the height of the node at a position.** -/
theorem height_pos {n : MmrNode} (hn : n.Aligned) (h64 : n.leaf + 2 ^ n.height ≤ 2 ^ 64)
    (hp : n.pos < 2 ^ 64) : NodeIdx.height n.pos = n.height :=
  heightLoop_pos (lt_two_pow_loopBound hp).1 hn (inTree_loopBound hn h64 hp)

/-- **`nodeIdx.leafIdx` inverts `leafIdx.nodeIdx` below the last position `2^64 - 1`.** -/
theorem leafIdx_mmrSize {a : Nat} (ha : mmrSize a < 2 ^ 64 - 1) (ha' : a < 2 ^ 64) :
    NodeIdx.leafIdx (mmrSize a) = a := by
  have hal : (⟨a, 0⟩ : MmrNode).Aligned := Nat.mod_one a
  have hp : (⟨a, 0⟩ : MmrNode).pos = mmrSize a := rfl
  have hin := inTree_loopBound hal (by simp only [pow_zero]; omega) (by omega)
  rw [hp] at hin
  simp only [pow_zero] at hin
  obtain ⟨hH, -⟩ := lt_two_pow_loopBound (show mmrSize a < 2 ^ 64 by omega)
  show leafLoop (64 - leadingZeros64 (mmrSize a)) (mmrSize a) 0 = a
  rcases Nat.lt_or_ge (64 - leadingZeros64 (mmrSize a)) 64 with hH' | hH'
  · rw [leafLoop_mmrSize (by omega) hin, Nat.zero_add]
  · rw [show 64 - leadingZeros64 (mmrSize a) = 63 + 1 by omega]
    unfold leafLoop
    rw [peakSizesLoop_skip _ _ _ _ (by omega)]
    have h63 : a + 1 ≤ 2 ^ 63 := by
      have hS := mmrSize_two_pow (g := 63) (by decide)
      exact (pos_lt_mmrSize_iff (n := ⟨a, 0⟩) hal (by decide) (by simp only [pow_zero]; omega)).1
        (by rw [hS]; exact ha)
    have := leafLoop_mmrSize (m := 63) le_rfl h63 0
    unfold leafLoop at this
    rw [this, Nat.zero_add]

theorem two_pow_lt_of_pos_lt {a h : Nat} (hp : (⟨a, h⟩ : MmrNode).pos < 2 ^ 64) :
    h < 64 := by
  by_contra hh
  have := Nat.pow_le_pow_right (n := 2) (by decide) (show 65 ≤ h + 1 by omega)
  rw [pos_mk] at hp
  rw [Nat.pow_succ 2 64] at this
  omega

theorem wrap64_sub {x d : Nat} (hx : x + d < 2 ^ 64) : wrap64 (x + d + 2 ^ 64 - d) = x := by
  rw [wrap64, show x + d + 2 ^ 64 - d = x + 2 ^ 64 by omega, Nat.add_mod_right,
    Nat.mod_eq_of_lt (by omega)]

/-- **`nodeIdx.left` is the left child.** -/
theorem left_pos {a h : Nat} (hp : (⟨a, h + 1⟩ : MmrNode).pos < 2 ^ 64) :
    NodeIdx.left (⟨a, h + 1⟩ : MmrNode).pos (h + 1) = (⟨a, h⟩ : MmrNode).pos := by
  have hh := two_pow_lt_of_pos_lt hp
  have hs : shl64 1 (h + 1) = 2 ^ (h + 1) := by
    rw [shl64, if_pos hh, Nat.one_mul, wrap64,
      Nat.mod_eq_of_lt (Nat.pow_lt_pow_right (by decide) hh)]
  have hP : (⟨a, h + 1⟩ : MmrNode).pos = (⟨a, h⟩ : MmrNode).pos + 2 ^ (h + 1) := by
    have h1 := Nat.one_le_two_pow (n := h + 1)
    rw [pos_mk, pos_mk, Nat.pow_succ 2 (h + 1)]; omega
  rw [NodeIdx.left, hs, hP]
  exact wrap64_sub (hP ▸ hp)

/-- The right half of an aligned block starts right after the left half's root. -/
theorem mmrSize_add_two_pow {a h : Nat} (ha : a % 2 ^ (h + 1) = 0)
    (h64 : a + 2 ^ (h + 1) ≤ 2 ^ 64) :
    mmrSize (a + 2 ^ h) = (⟨a, h⟩ : MmrNode).pos + 1 := by
  have h1 := Nat.one_le_two_pow (n := h)
  have hpow : 2 ^ (h + 1) = 2 * 2 ^ h := by rw [Nat.pow_succ]; omega
  have hh : h < 64 := by
    by_contra hh
    have := Nat.pow_le_pow_right (n := 2) (by decide) (show 64 ≤ h by omega)
    omega
  rw [mmrSize_add ha (by omega) (by omega), mmrSize_two_pow hh, pos_mk]
  omega

theorem pos_right_succ {a h : Nat} (ha : a % 2 ^ (h + 1) = 0) (h64 : a + 2 ^ (h + 1) ≤ 2 ^ 64) :
    (⟨a + 2 ^ h, h⟩ : MmrNode).pos + 1 = (⟨a, h + 1⟩ : MmrNode).pos := by
  have hsz := mmrSize_add_two_pow ha h64
  have h1 := Nat.one_le_two_pow (n := h + 1)
  rw [pos_mk] at hsz
  rw [pos_mk, pos_mk, hsz, Nat.pow_succ 2 (h + 1)]
  omega

/-- **`nodeIdx.right` is the right child.** -/
theorem right_pos {a h : Nat} (ha : a % 2 ^ (h + 1) = 0) (h64 : a + 2 ^ (h + 1) ≤ 2 ^ 64)
    (hp : (⟨a, h + 1⟩ : MmrNode).pos < 2 ^ 64) :
    NodeIdx.right (⟨a, h + 1⟩ : MmrNode).pos = (⟨a + 2 ^ h, h⟩ : MmrNode).pos := by
  have hP := pos_right_succ ha h64
  rw [NodeIdx.right, ← hP]
  exact wrap64_sub (hP ▸ hp)

/-! ## Peaks -/

/-- What `calcPeaks`' loop does when a peak size fits: record the peak's last node, add its
size to the nodes before. -/
def takePeak (peakSize : Nat) (acc : List Nat × Nat) : List Nat × Nat :=
  (acc.1 ++ [acc.2 + peakSize - 1], acc.2 + peakSize)

theorem calcPeaks_eq (nodes : Nat) :
    calcPeaks nodes = (peakSizesLoop takePeak (64 - leadingZeros64 nodes) (nodes, ([], 0))).2.1 :=
  rfl

theorem peaksFrom_congr {k N M : Nat} (h : ∀ i < k, N.testBit i = M.testBit i) (a : Nat) :
    peaksFrom k N a = peaksFrom k M a := by
  induction k generalizing a with
  | zero => rfl
  | succ k ih =>
    simp only [peaksFrom, h k (by omega), ih (fun i hi => h i (by omega))]

theorem peaksFrom_of_lt {k k' N : Nat} (hk : k ≤ k') (hN : N < 2 ^ k) (a : Nat) :
    peaksFrom k' N a = peaksFrom k N a := by
  obtain ⟨d, rfl⟩ : ∃ d, k' = k + d := ⟨k' - k, by omega⟩
  induction d with
  | zero => rfl
  | succ d ih =>
    rw [← Nat.add_assoc, peaksFrom, Nat.testBit_lt_two_pow (lt_of_lt_of_le hN
      (Nat.pow_le_pow_right (by decide) (by omega))), if_neg (by simp), ih (by omega)]

theorem peaksFrom_two_pow_add {m N' : Nat} (hN' : N' < 2 ^ m) (a : Nat) :
    peaksFrom (m + 1) (2 ^ m + N') a = ⟨a, m⟩ :: peaksFrom m N' (a + 2 ^ m) := by
  rw [peaksFrom, Nat.testBit_two_pow_add_eq, Nat.testBit_lt_two_pow hN']
  simp only [Bool.not_false, if_true]
  rw [peaksFrom_congr (fun i hi => Nat.testBit_two_pow_add_gt hi N')]

theorem mod_two_pow_of_mod_succ {a m : Nat} (ha : a % 2 ^ (m + 1) = 0) : a % 2 ^ m = 0 :=
  Nat.mod_eq_zero_of_dvd (Nat.dvd_trans (Nat.pow_dvd_pow 2 (by omega))
    (Nat.dvd_of_mod_eq_zero ha))

theorem add_two_pow_mod {a m : Nat} (ha : a % 2 ^ (m + 1) = 0) : (a + 2 ^ m) % 2 ^ m = 0 := by
  rw [Nat.add_mod, mod_two_pow_of_mod_succ ha, Nat.mod_self, Nat.zero_add, Nat.zero_mod]

/-- **`calcPeaks`' loop on any remainder** picks the peaks of some leaf count whose nodes
fit, and leaves the rest. -/
theorem peaksLoop_exists {m r a : Nat} (hm : m ≤ 64) (ha : a % 2 ^ m = 0)
    (h64 : a + 2 ^ m ≤ 2 ^ 64) (peaks : List Nat) :
    ∃ N < 2 ^ m, mmrSize N ≤ r ∧
      peakSizesLoop takePeak m (r, (peaks, mmrSize a)) =
        (r - mmrSize N, (peaks ++ (peaksFrom m N a).map MmrNode.pos, mmrSize (a + N))) := by
  induction m generalizing r a peaks with
  | zero => exact ⟨0, by decide, Nat.zero_le _, by simp [peaksFrom, show mmrSize 0 = 0 from rfl]⟩
  | succ m ih =>
    have hS := mmrSize_two_pow (g := m) (by omega)
    have hpow : 2 ^ (m + 1) = 2 * 2 ^ m := by rw [Nat.pow_succ]; omega
    have h1 := Nat.one_le_two_pow (n := m)
    by_cases hfit : 2 ^ (m + 1) - 1 ≤ r
    · have hsz : mmrSize a + (2 ^ (m + 1) - 1) = mmrSize (a + 2 ^ m) := by
        rw [mmrSize_add ha (by omega) (by omega), hS]
      obtain ⟨N, hN, hle, heq⟩ := ih (r := r - (2 ^ (m + 1) - 1)) (by omega)
        (add_two_pow_mod ha) (by omega) (peaks ++ [mmrSize (a + 2 ^ m) - 1])
      have hsN : mmrSize (2 ^ m + N) = 2 ^ (m + 1) - 1 + mmrSize N := by
        rw [mmrSize_add (g := m) (Nat.mod_self _) hN (by omega), hS]
      have hpos : (⟨a, m⟩ : MmrNode).pos = mmrSize (a + 2 ^ m) - 1 := by
        rw [pos_mk, ← hsz]; omega
      refine ⟨2 ^ m + N, by omega, by omega, ?_⟩
      rw [peakSizesLoop_take _ _ _ _ hfit]
      simp only [takePeak]
      rw [hsz, heq, peaksFrom_two_pow_add hN, hsN, List.map_cons, hpos]
      refine Prod.ext (by simp only; omega) (Prod.ext (by simp) (by simp [Nat.add_assoc]))
    · obtain ⟨N, hN, hle, heq⟩ := ih (r := r) (by omega) (mod_two_pow_of_mod_succ ha)
        (by omega) peaks
      refine ⟨N, by omega, hle, ?_⟩
      rw [peakSizesLoop_skip _ _ _ _ (by omega), heq, peaksFrom,
        Nat.testBit_lt_two_pow hN, if_neg (by simp)]

/-- **`calcPeaks` returns the peaks of an MMR** whose node count fits in its argument. -/
theorem calcPeaks_exists {x : Nat} (hx : x < 2 ^ 64) :
    ∃ N < 2 ^ 64, mmrSize N ≤ x ∧ calcPeaks x = (mmrPeaks N).map MmrNode.pos := by
  obtain ⟨hH, -⟩ := lt_two_pow_loopBound hx
  obtain ⟨N, hN, hle, heq⟩ := peaksLoop_exists (r := x) (a := 0) hH (Nat.zero_mod _)
    (by simpa using Nat.pow_le_pow_right (n := 2) (by decide) hH) []
  refine ⟨N, lt_of_lt_of_le hN (Nat.pow_le_pow_right (by decide) hH), hle, ?_⟩
  rw [calcPeaks_eq, show (0 : Nat) = mmrSize 0 from rfl, heq, mmrPeaks,
    peaksFrom_of_lt hH hN]
  simp

/-- **On a node count, `calcPeaks`' loop picks exactly the peaks of that MMR.** -/
theorem peaksLoop_mmrSize {m N a : Nat} (hm : m ≤ 64) (hN : N < 2 ^ m) (ha : a % 2 ^ m = 0)
    (h64 : a + 2 ^ m ≤ 2 ^ 64) (peaks : List Nat) :
    peakSizesLoop takePeak m (mmrSize N, (peaks, mmrSize a)) =
      (0, (peaks ++ (peaksFrom m N a).map MmrNode.pos, mmrSize (a + N))) := by
  induction m generalizing N a peaks with
  | zero =>
    obtain rfl : N = 0 := by simp at hN; omega
    simp [peaksFrom, show mmrSize 0 = 0 from rfl]
  | succ m ih =>
    have hS := mmrSize_two_pow (g := m) (by omega)
    have hpow : 2 ^ (m + 1) = 2 * 2 ^ m := by rw [Nat.pow_succ]; omega
    rcases Nat.lt_or_ge N (2 ^ m) with hlt | hge
    · have hsm := mmrSize_strictMono hlt (by omega)
      rw [peakSizesLoop_skip _ _ _ _ (by omega), ih (by omega) hlt (mod_two_pow_of_mod_succ ha)
        (by omega), peaksFrom, Nat.testBit_lt_two_pow hlt, if_neg (by simp)]
    · obtain ⟨N', rfl⟩ : ∃ N', N = 2 ^ m + N' := ⟨N - 2 ^ m, by omega⟩
      have hN' : N' < 2 ^ m := by omega
      have hsz : mmrSize a + (2 ^ (m + 1) - 1) = mmrSize (a + 2 ^ m) := by
        rw [mmrSize_add ha (by omega) (by omega), hS]
      have hsN : mmrSize (2 ^ m + N') = 2 ^ (m + 1) - 1 + mmrSize N' := by
        rw [mmrSize_add (g := m) (Nat.mod_self _) hN' (by omega), hS]
      have hpos : (⟨a, m⟩ : MmrNode).pos = mmrSize (a + 2 ^ m) - 1 := by
        rw [pos_mk, ← hsz]; omega
      rw [hsN, peakSizesLoop_take _ _ _ _ (by omega), Nat.add_sub_cancel_left]
      simp only [takePeak]
      rw [hsz, ih (by omega) hN' (add_two_pow_mod ha) (by omega), peaksFrom_two_pow_add hN',
        List.map_cons, hpos]
      simp [Nat.add_assoc]

/-- **`calcPeaks(nodeIdx(N))` lists the peaks of the MMR over `N` leaves.** -/
theorem calcPeaks_mmrSize {N : Nat} (hN : mmrSize N < 2 ^ 64) (hN' : N < 2 ^ 64) :
    calcPeaks (mmrSize N) = (mmrPeaks N).map MmrNode.pos := by
  obtain ⟨hH, hlt⟩ := lt_two_pow_loopBound hN
  have hNH : N < 2 ^ (64 - leadingZeros64 (mmrSize N)) :=
    lt_of_le_of_lt (le_mmrSize hN') hlt
  have := peaksLoop_mmrSize (a := 0) hH hNH (Nat.zero_mod _)
    (by simpa using Nat.pow_le_pow_right (n := 2) (by decide) hH) []
  rw [calcPeaks_eq, show (0 : Nat) = mmrSize 0 from rfl, this, mmrPeaks,
    peaksFrom_of_lt hH hNH]
  simp

/-- Where the peaks of the bits below `k` lie: after `a`, aligned, within the leaves. -/
theorem mem_peaksFrom {k N a : Nat} {n : MmrNode} (ha : a % 2 ^ k = 0)
    (hn : n ∈ peaksFrom k N a) :
    n.Aligned ∧ a ≤ n.leaf ∧ n.leaf + 2 ^ n.height ≤ a + N % 2 ^ k ∧ n.height < k := by
  induction k generalizing a with
  | zero => simp [peaksFrom] at hn
  | succ k ih =>
    have hm := mod_two_pow_succ N k
    by_cases hb : N.testBit k
    · simp only [peaksFrom, hb, if_true, List.mem_cons] at hn hm
      rcases hn with rfl | hn
      · exact ⟨mod_two_pow_of_mod_succ ha, le_rfl, by simp only; omega, by simp only; omega⟩
      · obtain ⟨h1, h2, h3, h4⟩ := ih (add_two_pow_mod ha) hn
        exact ⟨h1, by omega, by omega, by omega⟩
    · simp only [peaksFrom, hb, if_false, Bool.false_eq_true, Nat.add_zero] at hn hm
      obtain ⟨h1, h2, h3, h4⟩ := ih (mod_two_pow_of_mod_succ ha) hn
      exact ⟨h1, h2, by omega, by omega⟩

theorem mem_mmrPeaks {N : Nat} {n : MmrNode} (hN : N < 2 ^ 64) (hn : n ∈ mmrPeaks N) :
    n.InMmr N ∧ n.height < 64 := by
  obtain ⟨h1, -, h3, h4⟩ := mem_peaksFrom (Nat.zero_mod _) hn
  rw [Nat.mod_eq_of_lt hN, Nat.zero_add] at h3
  exact ⟨⟨h1, h3⟩, h4⟩

/-- The peaks come left to right: each starts at or after the end of the one before. -/
theorem pairwise_peaksFrom {k N a : Nat} (ha : a % 2 ^ k = 0) :
    (peaksFrom k N a).Pairwise fun P Q => P.leaf + 2 ^ P.height ≤ Q.leaf := by
  induction k generalizing a with
  | zero => exact List.Pairwise.nil
  | succ k ih =>
    by_cases hb : N.testBit k
    · simp only [peaksFrom, hb, if_true]
      exact List.Pairwise.cons (fun Q hQ => (mem_peaksFrom (add_two_pow_mod ha) hQ).2.1)
        (ih (add_two_pow_mod ha))
    · simp only [peaksFrom, hb, if_false, Bool.false_eq_true]
      exact ih (mod_two_pow_of_mod_succ ha)

theorem pairwise_mmrPeaks (N : Nat) :
    (mmrPeaks N).Pairwise fun P Q => P.leaf + 2 ^ P.height ≤ Q.leaf :=
  pairwise_peaksFrom (Nat.zero_mod _)

/-! ## Leaf and node indices -/

theorem mmrSize_lt_of_le {N : Nat} (hN : N ≤ 2 ^ 63) : mmrSize N < 2 ^ 64 := by
  rcases Nat.lt_or_ge N (2 ^ 63) with h | h
  · have := mmrSize_le (N := N) (by omega); omega
  · obtain rfl : N = 2 ^ 63 := by omega
    rw [mmrSize_two_pow (by decide)]; decide

theorem nodeIdx_eq_of_le {N : Nat} (hN : N ≤ 2 ^ 63) : LeafIdx.nodeIdx N = mmrSize N :=
  nodeIdx_eq_mmrSize (mmrSize_lt_of_le hN) (by omega)

/-- **`nodeIdx(N)` is the node count of the MMR over `N` leaves.** -/
theorem nodeIdx_eq_length_mmrLayout {N : Nat} (hN : N ≤ 2 ^ 63) :
    LeafIdx.nodeIdx N = (mmrLayout N).length :=
  nodeIdx_eq_of_le hN

/-- **Leaf `i` sits at `nodeIdx(i)` in every MMR that holds it.** -/
theorem getElem?_mmrLayout_nodeIdx {i N : Nat} (hi : i < 2 ^ 63) (hiN : i < N)
    (hN : N < 2 ^ 64) : (mmrLayout N)[LeafIdx.nodeIdx i]? = some ⟨i, 0⟩ := by
  rw [nodeIdx_eq_of_le (by omega)]
  exact getElem?_mmrLayout (n := ⟨i, 0⟩) hN ⟨Nat.mod_one i, by show i + 2 ^ 0 ≤ N; simp; omega⟩

theorem height_nodeIdx {i : Nat} (hi : i < 2 ^ 63) : NodeIdx.height (LeafIdx.nodeIdx i) = 0 := by
  rw [nodeIdx_eq_of_le (by omega)]
  exact height_pos (n := ⟨i, 0⟩) (Nat.mod_one i) (by show i + 2 ^ 0 ≤ 2 ^ 64; simp; omega)
    (mmrSize_lt_of_le (N := i) (by omega))

theorem leafIdx_nodeIdx {i : Nat} (hi : i < 2 ^ 63) : NodeIdx.leafIdx (LeafIdx.nodeIdx i) = i := by
  rw [nodeIdx_eq_of_le (by omega)]
  exact leafIdx_mmrSize (by have := mmrSize_le (N := i) (by omega); omega) (by omega)

theorem nodeIdx_strictMono {i j : Nat} (hij : i < j) (hj : j < 2 ^ 63) :
    LeafIdx.nodeIdx i < LeafIdx.nodeIdx j := by
  rw [nodeIdx_eq_of_le (by omega), nodeIdx_eq_of_le (by omega)]
  exact mmrSize_strictMono hij (by omega)

/-- Every position below `2^(m+1) - 1` is the position of a node of the perfect tree of
height `m`. -/
theorem exists_pos_eq {m q : Nat} (hm : m ≤ 64) (hq : q < 2 ^ (m + 1) - 1) :
    ∃ n : MmrNode, n.Aligned ∧ n.leaf + 2 ^ n.height ≤ 2 ^ m ∧ n.pos = q := by
  induction m generalizing q with
  | zero => exact ⟨⟨0, 0⟩, rfl, le_rfl, by simp at hq; simp [pos_mk, hq]; rfl⟩
  | succ m ih =>
    have hpow : 2 ^ (m + 1 + 1) = 2 * 2 ^ (m + 1) := by rw [Nat.pow_succ]; omega
    have hpow' : 2 ^ (m + 1) = 2 * 2 ^ m := by rw [Nat.pow_succ]; omega
    have h1 := Nat.one_le_two_pow (n := m)
    rcases Nat.lt_or_ge q (2 ^ (m + 1) - 1) with hl | hr
    · obtain ⟨n, hal, hin, hpos⟩ := ih (by omega) hl
      exact ⟨n, hal, by omega, hpos⟩
    · rcases Nat.lt_or_ge q (2 ^ (m + 1 + 1) - 2) with hr' | hroot
      · obtain ⟨⟨a', h⟩, hal, hin, hpos⟩ := ih (q := q - (2 ^ (m + 1) - 1)) (by omega) (by omega)
        simp only at hal hin hpos
        have := Nat.one_le_two_pow (n := h)
        have hhm : h ≤ m := (Nat.pow_le_pow_iff_right Nat.one_lt_two).1 (by omega)
        refine ⟨⟨2 ^ m + a', h⟩, ?_, by simp only; omega, ?_⟩
        · exact Nat.mod_eq_zero_of_dvd (Nat.dvd_add (Nat.pow_dvd_pow 2 hhm)
            (Nat.dvd_of_mod_eq_zero hal))
        · rw [pos_shift (by omega) (by omega), hpos]; omega
      · exact ⟨⟨0, m + 1⟩, Nat.zero_mod _, by simp, by
          rw [pos_mk, show mmrSize 0 = 0 from rfl]; omega⟩

/-- **A position of height 0 below `2^64 - 1` is the position of the leaf `leafIdx`
names.** -/
theorem nodeIdx_leafIdx {p : Nat} (hp : p < 2 ^ 64 - 1) (h0 : NodeIdx.height p = 0) :
    LeafIdx.nodeIdx (NodeIdx.leafIdx p) = p := by
  obtain ⟨⟨a, h⟩, hal, hin, rfl⟩ := exists_pos_eq (m := 63) (by decide) hp
  have h64 : (2 : Nat) ^ 63 ≤ 2 ^ 64 := Nat.pow_le_pow_right (by decide) (by decide)
  rw [height_pos hal (by simp only at hin ⊢; omega) (by omega)] at h0
  simp only at h0
  subst h0
  simp only [pos_mk, Nat.zero_add, pow_one, Nat.add_sub_cancel] at hp ⊢
  simp only [pow_zero] at hin
  rw [leafIdx_mmrSize hp (by omega), nodeIdx_eq_of_le (by omega)]

theorem nodeIdx_two_pow_sixtyThree : LeafIdx.nodeIdx (2 ^ 63) = 2 ^ 64 - 1 := by
  rw [nodeIdx_eq_of_le le_rfl, mmrSize_two_pow (by decide)]

/-- **Leaf and node indices agree with the layout.** Over the leaf indices below `2^63` and
the positions of the MMR they span (those below `nodeIdx(2^63)`), `leafIdx.nodeIdx` is
`2i - popcount(i)` without wrapping and places leaf `i` in the layout, `nodeIdx.leafIdx`
inverts it on the positions of height 0, it is strictly increasing, and at a leaf count it
is the node count. -/
theorem nodeIdx_layout_correspondence :
    (∀ i N, i < 2 ^ 63 → i < N → N < 2 ^ 64 → LeafIdx.nodeIdx i = 2 * i - onesCount64 i ∧
      (mmrLayout N)[LeafIdx.nodeIdx i]? = some ⟨i, 0⟩) ∧
    (∀ i, i < 2 ^ 63 →
      NodeIdx.leafIdx (LeafIdx.nodeIdx i) = i ∧ NodeIdx.height (LeafIdx.nodeIdx i) = 0) ∧
    (∀ i j, i < j → j < 2 ^ 63 → LeafIdx.nodeIdx i < LeafIdx.nodeIdx j) ∧
    (∀ p, p < LeafIdx.nodeIdx (2 ^ 63) → NodeIdx.height p = 0 →
      LeafIdx.nodeIdx (NodeIdx.leafIdx p) = p) ∧
    (∀ N, N ≤ 2 ^ 63 → LeafIdx.nodeIdx N = (mmrLayout N).length) := by
  refine ⟨fun i N hi hiN hN => ⟨?_, getElem?_mmrLayout_nodeIdx hi hiN hN⟩,
    fun i hi => ⟨leafIdx_nodeIdx hi, height_nodeIdx hi⟩,
    fun i j hij hj => nodeIdx_strictMono hij hj,
    fun p hp h0 => nodeIdx_leafIdx (nodeIdx_two_pow_sixtyThree ▸ hp) h0,
    fun N hN => nodeIdx_eq_length_mmrLayout hN⟩
  rw [nodeIdx_eq_of_le (by omega), mmrSize_eq (by omega)]

theorem nodeIdx_layout_correspondence_three :
    (2 < 2 ^ 63 ∧ 2 < 3 ∧ 3 < 2 ^ 64) ∧ (LeafIdx.nodeIdx 2 = 2 * 2 - onesCount64 2 ∧
      (mmrLayout 3)[LeafIdx.nodeIdx 2]? = some ⟨2, 0⟩) ∧
    (3 < LeafIdx.nodeIdx (2 ^ 63) ∧ NodeIdx.height 3 = 0) ∧
      LeafIdx.nodeIdx (NodeIdx.leafIdx 3) = 3 :=
  ⟨by decide, nodeIdx_layout_correspondence.1 2 3 (by decide) (by decide) (by decide),
    ⟨by decide, by decide⟩, nodeIdx_layout_correspondence.2.2.2.1 3 (by decide) (by decide)⟩

end NeutrinoMweb
