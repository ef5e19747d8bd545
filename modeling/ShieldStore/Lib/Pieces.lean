import Mathlib.Data.Nat.GCD.Basic
import Mathlib.Data.List.Range
import Mathlib.Tactic.Ring

/-!
# A range cut into pieces

The indices below `n` are cut into pieces of `r` consecutive ones; the piece of an index
is its quotient by `r`.  When `r` is itself a truncated quotient `n / m`, the pieces are
`m` only if `m` divides `n`.

## Main definitions

* `piece` — the indices that share the piece of an index.
* `share` — a piece of a list.

## Main results

* `mem_piece_iff` — two indices share a piece when their quotients agree.
* `forall_div_lt_iff` — when a truncated quotient cuts into as many pieces as it should.
* `forall_div_eq_iff` — when one cut refines another.
* `share_concat` — a list that grows fills its pieces one after another.
* `flatMap_share` — the pieces put together.
-/

namespace Pieces

variable {n m r t a b i : ℕ}

/-- The indices in the piece of `a`. -/
def piece (r a : ℕ) : List ℕ := List.range' (a / r * r) r

theorem mem_piece_iff (hr : 0 < r) : i ∈ piece r a ↔ i / r = a / r := by
  unfold piece
  rw [List.mem_range'_1]
  constructor
  · rintro ⟨hle, hlt⟩
    exact Nat.div_eq_of_lt_le hle (by rw [Nat.add_mul, Nat.one_mul]; exact hlt)
  · intro h
    rw [← h]
    exact ⟨Nat.div_mul_le_self i r, Nat.lt_div_mul_add hr⟩

theorem self_mem_piece (hr : 0 < r) (a : ℕ) : a ∈ piece r a := (mem_piece_iff hr).mpr rfl

theorem piece_eq_iff (hr : 0 < r) : piece r a = piece r b ↔ a / r = b / r := by
  constructor
  · intro h
    rw [← mem_piece_iff hr, ← h]
    exact self_mem_piece hr a
  · intro h
    unfold piece
    rw [h]

/-- Pieces that share an index are the same. -/
theorem disjoint_piece (hr : 0 < r) (h : piece r a ≠ piece r b) :
    (piece r a).Disjoint (piece r b) := by
  intro i ha hb
  refine h ((piece_eq_iff hr).mpr ?_)
  rw [← (mem_piece_iff hr).mp ha, (mem_piece_iff hr).mp hb]

/-- The pieces of a range whose length is a multiple of theirs lie inside of it. -/
theorem lt_of_mem_piece (hr : 0 < r) (hdvd : r ∣ n) (ha : a < n) (hi : i ∈ piece r a) : i < n := by
  obtain ⟨m, rfl⟩ := hdvd
  rw [mem_piece_iff hr] at hi
  rw [Nat.mul_comm, ← Nat.div_lt_iff_lt_mul hr] at ha ⊢
  omega

/-- **A truncated quotient cuts into at most `m` pieces** only if nothing was truncated. -/
theorem forall_div_lt_iff (hm : 0 < m) (hle : m ≤ n) : (∀ a < n, a / (n / m) < m) ↔ m ∣ n := by
  have hr : 0 < n / m := Nat.div_pos hle hm
  constructor
  · intro h
    -- the last index decides
    have hlast := h (n - 1) (by omega)
    rw [Nat.div_lt_iff_lt_mul hr] at hlast
    have hmul := Nat.mul_div_le n m
    exact ⟨n / m, by omega⟩
  · intro hdvd a ha
    rw [Nat.div_lt_iff_lt_mul hr, Nat.mul_div_cancel' hdvd]
    exact ha

/-- Fewer pieces are longer ones. -/
theorem div_dvd_div_iff {k : ℕ} (hn : 0 < n) (hm : m ∣ n) (hk : k ∣ n) : n / m ∣ n / k ↔ k ∣ m := by
  constructor
  · rintro ⟨c, hc⟩
    have hpos : 0 < n / m := Nat.div_pos (Nat.le_of_dvd hn hm) (Nat.pos_of_dvd_of_pos hm hn)
    refine ⟨c, Nat.eq_of_mul_eq_mul_right hpos ?_⟩
    calc m * (n / m) = n := Nat.mul_div_cancel' hm
      _ = k * (n / k) := (Nat.mul_div_cancel' hk).symm
      _ = k * c * (n / m) := by rw [hc]; ring
  · exact Nat.div_dvd_div_left hm

/-- **One cut refines another** exactly when the longer pieces are multiples of the shorter
ones. -/
theorem forall_div_eq_iff (hr : 0 < r) (ht : 0 < t) (hrn : r ∣ n) (htn : t ∣ n) (hn : 0 < n) :
    (∀ a < n, ∀ b < n, a / r = b / r → a / t = b / t) ↔ r ∣ t := by
  constructor
  · intro h
    by_contra hndvd
    -- a piece of length `t` ends inside of a piece of length `r`
    have hlt : t < n := by
      refine lt_of_le_of_ne (Nat.le_of_dvd hn htn) ?_
      rintro rfl
      exact hndvd hrn
    have hsame : (t - 1) / r = t / r := by
      have hmod : t % r ≠ 0 := fun h0 => hndvd (Nat.dvd_of_mod_eq_zero h0)
      have hdiv := Nat.div_add_mod t r
      have hlt' := @Nat.lt_div_mul_add t r hr
      rw [Nat.mul_comm] at hdiv
      refine Nat.div_eq_of_lt_le (by omega) ?_
      rw [Nat.add_mul, Nat.one_mul]
      omega
    have hne := h (t - 1) (by omega) t hlt hsame
    rw [Nat.div_self ht, Nat.div_eq_of_lt (by omega)] at hne
    omega
  · rintro ⟨c, rfl⟩ a _ b _ h
    rw [← Nat.div_div_eq_div_mul, ← Nat.div_div_eq_div_mul, h]

/-! ### Cutting a list -/

section Cut

variable {α : Type*} (f : ℕ → ℕ) {a m : ℕ}

/-- A list that is cut at the sums of the sizes is put together again. -/
theorem flatMap_cut (l : List α) (a m : ℕ) :
    ((List.range' a m).flatMap fun i => (l.drop ((List.range' a (i - a)).map f).sum).take (f i)) =
      l.take ((List.range' a m).map f).sum := by
  induction m with
  | zero => simp
  | succ m ih =>
    rw [List.range'_concat, List.flatMap_append, ih, List.map_append, List.sum_append]
    simp [List.take_add]

/-- A piece ends where the pieces up to it end. -/
theorem sum_cut_le {i : ℕ} (hi : i ∈ List.range' a m) :
    ((List.range' a (i - a)).map f).sum + f i ≤ ((List.range' a m).map f).sum := by
  obtain ⟨hai, him⟩ := List.mem_range'_1.mp hi
  have hsplit : List.range' a (i - a) ++ i :: List.range' (i + 1) (a + m - i - 1) =
      List.range' a m := by
    have hcons : i :: List.range' (i + 1) (a + m - i - 1) = List.range' (a + (i - a)) (a + m - i) := by
      rw [show a + (i - a) = i by omega, show a + m - i = a + m - i - 1 + 1 by omega,
        List.range'_succ, Nat.add_sub_cancel]
    rw [hcons, List.range'_append_1]
    congr 1
    omega
  rw [← hsplit, List.map_append, List.map_cons, List.sum_append, List.sum_cons]
  omega

end Cut

/-! ### Equal shares -/

section Share

variable {α β : Type*} {q : ℕ}

/-- The piece `t` of a list that is cut into pieces of `q` elements. -/
def share (q : ℕ) (l : List α) (t : ℕ) : List α := (l.drop (t * q)).take q

theorem length_share (q : ℕ) (l : List α) (t : ℕ) :
    (share q l t).length = min q (l.length - t * q) := by
  rw [share, List.length_take, List.length_drop]

theorem share_nil (q t : ℕ) : share q ([] : List α) t = [] := by
  rw [share, List.drop_nil, List.take_nil]

theorem share_map (f : α → β) (q : ℕ) (l : List α) (t : ℕ) :
    share q (l.map f) t = (share q l t).map f := by
  rw [share, share, ← List.map_drop, ← List.map_take]

theorem share_sublist (q : ℕ) (l : List α) (t : ℕ) : (share q l t).Sublist l :=
  (List.take_sublist _ _).trans (List.drop_sublist _ _)

/-- The piece that is begun has what the full ones leave. -/
theorem length_share_div (hq : 0 < q) (l : List α) :
    (share q l (l.length / q)).length = l.length % q := by
  have hmod := Nat.mod_lt l.length hq
  have hdiv := Nat.div_add_mod' l.length q
  rw [length_share]
  omega

/-- A piece that ends inside of the list is full. -/
theorem length_share_of_lt {l : List α} {t : ℕ} (ht : (t + 1) * q ≤ l.length) :
    (share q l t).length = q := by
  rw [Nat.add_mul, Nat.one_mul] at ht
  rw [length_share]
  omega

/-- A new element goes to the piece that is begun. -/
theorem share_concat (hq : 0 < q) (l : List α) (a : α) (t : ℕ) :
    share q (l ++ [a]) t = if t = l.length / q then share q l t ++ [a] else share q l t := by
  have hmod := Nat.mod_lt l.length hq
  have hdiv := Nat.div_add_mod' l.length q
  rcases lt_trichotomy t (l.length / q) with hlt | rfl | hgt
  · -- the piece is full
    have hmul := Nat.mul_le_mul_right q (Nat.succ_le_of_lt hlt)
    rw [Nat.succ_mul] at hmul
    rw [if_neg hlt.ne, share, share, List.drop_append_of_le_length (by omega),
      List.take_append_of_le_length (by rw [List.length_drop]; omega)]
  · rw [if_pos rfl, share, share, List.drop_append_of_le_length (by omega),
      List.take_of_length_le (by simp; omega), List.take_of_length_le (by simp; omega)]
  · -- the piece is still empty
    have hmul := Nat.mul_le_mul_right q (Nat.succ_le_of_lt hgt)
    rw [Nat.succ_mul] at hmul
    rw [if_neg hgt.ne', share, share, List.drop_of_length_le (by simp; omega),
      List.drop_of_length_le (by omega)]

/-- The pieces one after another. -/
theorem flatMap_share (q m : ℕ) (l : List α) :
    (List.range m).flatMap (share q l) = l.take (m * q) := by
  induction m with
  | zero => simp
  | succ m ih => rw [List.range_succ, List.flatMap_append, ih, Nat.succ_mul, List.take_add]; simp [share]

end Share

end Pieces
