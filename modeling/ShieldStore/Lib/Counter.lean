import ShieldStore.Lib.Bytes
import Mathlib.Data.Set.Lattice
import Mathlib.Order.CompletePartialOrder
import Mathlib.Data.Nat.ModEq

/-!
# Counter blocks of counter mode

Counter mode encrypts one counter block for every 16 bytes of text, or part of
16 bytes, and steps the counter after each.  The step may be confined to the low
`w` bits of the block, the rest staying as it is: the counter then lives on a
cycle of `2 ^ w` blocks, and a text that is encrypted from the block where the
last one stopped uses the next arc of that cycle.

## Main definitions

* `ctrAdd w n c` — the counter block `n` steps after `c`.
* `numBlocks len` — how many counter blocks a text of `len` bytes uses.
* `usedBlocks w c b` — the `b` counter blocks from `c` on.
* `arcs w c bs` — texts of `bs` blocks, each encrypted from where the last one
  stopped.

## Main results

* `pairwise_disjoint_arcs_iff` — when such texts share no counter block.
-/

namespace Counter

open Bytes

/-- The counter block `n` steps after `c` when only the low `w` bits count. -/
def ctrAdd (w n : ℕ) (c : Block) : Block :=
  BitVec.ofNat 128 (c.toNat / 2 ^ w * 2 ^ w + (c.toNat + n) % 2 ^ w)

/-- One counter block for every 16 bytes or part of them. -/
def numBlocks (len : ℕ) : ℕ := (len + 15) / 16

/-- The `b` counter blocks from `c` on. -/
def usedBlocks (w : ℕ) (c : Block) (b : ℕ) : Set Block := {x | ∃ i < b, x = ctrAdd w i c}

theorem numBlocks_pos {len : ℕ} (h : 0 < len) : 0 < numBlocks len := by
  unfold numBlocks; omega

/-- Texts of `bs` blocks each, encrypted one after the other from `c` on: where each
starts, and how many blocks it uses. -/
def arcs (w : ℕ) : Block → List ℕ → List (Block × ℕ)
  | _, [] => []
  | c, b :: bs => (c, b) :: arcs w (ctrAdd w b c) bs

/-! ### Counting on the cycle -/

section Cycle

variable {w : ℕ} (hw : w ≤ 128)

include hw

theorem toNat_ctrAdd (n : ℕ) (c : Block) :
    (ctrAdd w n c).toNat = c.toNat / 2 ^ w * 2 ^ w + (c.toNat + n) % 2 ^ w := by
  have hpos : 0 < 2 ^ w := Nat.two_pow_pos w
  have hsplit : 2 ^ 128 = 2 ^ (128 - w) * 2 ^ w := by rw [← Nat.pow_add, Nat.sub_add_cancel hw]
  have hdiv : c.toNat / 2 ^ w < 2 ^ (128 - w) := by
    rw [Nat.div_lt_iff_lt_mul hpos, ← hsplit]
    exact c.isLt
  have hmul : (c.toNat / 2 ^ w + 1) * 2 ^ w ≤ 2 ^ (128 - w) * 2 ^ w := Nat.mul_le_mul_right _ hdiv
  have hmod := Nat.mod_lt (c.toNat + n) hpos
  unfold ctrAdd
  rw [BitVec.toNat_ofNat, Nat.mod_eq_of_lt]
  rw [Nat.add_mul] at hmul
  omega

theorem ctrAdd_ctrAdd (m n : ℕ) (c : Block) : ctrAdd w m (ctrAdd w n c) = ctrAdd w (n + m) c := by
  have hpos : 0 < 2 ^ w := Nat.two_pow_pos w
  refine BitVec.eq_of_toNat_eq ?_
  have hmod := Nat.mod_lt (c.toNat + n) hpos
  rw [toNat_ctrAdd hw, toNat_ctrAdd hw, toNat_ctrAdd hw, Nat.mul_comm (c.toNat / 2 ^ w),
    Nat.mul_add_div hpos, Nat.div_eq_of_lt hmod, Nat.add_zero, Nat.add_assoc (2 ^ w * _),
    Nat.mul_add_mod, Nat.mod_add_mod, Nat.add_assoc, Nat.mul_comm]

/-- Two steps lead to one block if they differ by turns of the cycle. -/
theorem ctrAdd_eq_iff {i j : ℕ} (c : Block) :
    ctrAdd w i c = ctrAdd w j c ↔ i % 2 ^ w = j % 2 ^ w := by
  rw [← BitVec.toNat_inj, toNat_ctrAdd hw, toNat_ctrAdd hw, Nat.add_left_cancel_iff]
  exact ⟨fun h => Nat.ModEq.add_left_cancel' c.toNat h, fun h => Nat.ModEq.add_left c.toNat h⟩

/-- When two texts of a cycle share no counter block. -/
theorem disjoint_usedBlocks_iff (c : Block) (a m b n : ℕ) :
    Disjoint (usedBlocks w (ctrAdd w a c) m) (usedBlocks w (ctrAdd w b c) n) ↔
      ∀ i < m, ∀ j < n, (a + i) % 2 ^ w ≠ (b + j) % 2 ^ w := by
  simp only [usedBlocks, Set.disjoint_left, Set.mem_ofPred_eq, ctrAdd_ctrAdd hw]
  constructor
  · intro h i hi j hj heq
    exact h ⟨i, hi, rfl⟩ ⟨j, hj, (ctrAdd_eq_iff hw c).mpr heq⟩
  · rintro h x ⟨i, hi, rfl⟩ ⟨j, hj, heq⟩
    exact h i hi j hj ((ctrAdd_eq_iff hw c).mp heq)

theorem ctrAdd_zero (c : Block) : ctrAdd w 0 c = c := by
  refine BitVec.eq_of_toNat_eq ?_
  rw [toNat_ctrAdd hw, Nat.add_zero, Nat.mul_comm, Nat.div_add_mod]

/-- Where the later texts are. -/
theorem mem_arcs : ∀ {bs : List ℕ} {c : Block} {p : Block × ℕ}, p ∈ arcs w c bs →
    ∃ a, p.1 = ctrAdd w a c ∧ a + p.2 ≤ bs.sum := by
  intro bs
  induction bs with
  | nil => intro c p hp; cases hp
  | cons b bs ih =>
    intro c p hp
    rcases List.mem_cons.mp hp with rfl | hp
    · exact ⟨0, (ctrAdd_zero hw c).symm, by simp⟩
    · obtain ⟨a, ha, hle⟩ := ih hp
      refine ⟨b + a, by rw [ha, ctrAdd_ctrAdd hw], ?_⟩
      rw [List.sum_cons]
      omega

/-- Texts that leave the first block of the cycle alone do not go round it. -/
theorem add_sum_le_of_disjoint {n : ℕ} (hn : 0 < n) (c : Block) : ∀ (bs : List ℕ) (a : ℕ), a ≤ 2 ^ w →
    (∀ p ∈ arcs w (ctrAdd w a c) bs, Disjoint (usedBlocks w c n) (usedBlocks w p.1 p.2)) →
    a + bs.sum ≤ 2 ^ w := by
  intro bs
  induction bs with
  | nil => intro a ha _; simpa using ha
  | cons b bs ih =>
    intro a ha hdisj
    have hhead := hdisj _ List.mem_cons_self
    have hle : a + b ≤ 2 ^ w := by
      by_contra hlt
      have h := (disjoint_usedBlocks_iff hw c 0 n a b).mp (by rw [ctrAdd_zero hw]; exact hhead)
      -- the text runs over the block `2 ^ w` steps on, which is the first one
      refine h 0 hn (2 ^ w - a) (by omega) ?_
      rw [Nat.add_sub_cancel' ha, Nat.mod_self, Nat.add_zero, Nat.zero_mod]
    rw [List.sum_cons, ← Nat.add_assoc]
    refine ih (a + b) hle fun p hp => hdisj p (List.mem_cons_of_mem _ ?_)
    rwa [ctrAdd_ctrAdd hw]

/-- **When texts encrypted one after the other share no counter block**: there is at
most one of them, or together they do not go round the cycle. -/
theorem pairwise_disjoint_arcs_iff {bs : List ℕ} (hpos : ∀ b ∈ bs, 0 < b) (c : Block) :
    (arcs w c bs).Pairwise (fun p q => Disjoint (usedBlocks w p.1 p.2) (usedBlocks w q.1 q.2)) ↔
      bs.length ≤ 1 ∨ bs.sum ≤ 2 ^ w := by
  constructor
  · intro h
    match bs, hpos, h with
    | [], _, _ => exact Or.inl (by simp)
    | [_], _, _ => exact Or.inl (by simp)
    | b :: b' :: bs, hpos, h =>
      refine Or.inr ?_
      have hrest := (List.pairwise_cons.mp h).1
      have hb : b ≤ 2 ^ w := by
        by_contra hlt
        have hdisj := (disjoint_usedBlocks_iff hw c 0 b b b').mp
          (by rw [ctrAdd_zero hw]; exact hrest _ List.mem_cons_self)
        -- the first text alone goes round, and meets the second
        have hmod := Nat.mod_lt b (Nat.two_pow_pos w)
        refine hdisj (b % 2 ^ w) (by omega) 0 (hpos b' (by simp)) ?_
        rw [Nat.zero_add, Nat.mod_mod, Nat.add_zero]
      rw [List.sum_cons]
      exact add_sum_le_of_disjoint hw (hpos b (by simp)) c (b' :: bs) b hb hrest
  · rintro (hlen | hsum)
    · match bs, hlen with
      | [], _ => exact List.Pairwise.nil
      | [_], _ => exact List.pairwise_singleton _ _
    · clear hpos
      induction bs generalizing c with
      | nil => exact List.Pairwise.nil
      | cons b bs ih =>
        rw [List.sum_cons] at hsum
        refine List.pairwise_cons.mpr ⟨fun p hp => ?_, ih _ (by omega)⟩
        obtain ⟨a, ha, hle⟩ := mem_arcs hw hp
        have hdisj := (disjoint_usedBlocks_iff hw c 0 b (b + a) p.2).mpr fun i hi j hj heq => by
          rw [Nat.mod_eq_of_lt (by omega), Nat.mod_eq_of_lt (by omega)] at heq
          omega
        rwa [ctrAdd_zero hw, ← ctrAdd_ctrAdd hw, ← ha] at hdisj

end Cycle

end Counter
