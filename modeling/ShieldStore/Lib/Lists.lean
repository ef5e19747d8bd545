import Mathlib.Algebra.BigOperators.Group.List.Basic
import Mathlib.Algebra.Ring.Int.Defs
import Mathlib.Data.List.Forall2
import Mathlib.Data.List.Range
import Mathlib.Logic.Function.Basic

/-!
# Lists as tables

A table is read and written at indices, and a loop over it that may fail is a `mapM` in the
option monad.

## Main results

* `mapM_getElem?`, `mapM_congr`, `forall₂_of_mapM` — what such a loop gives.
* `map_range_set` — writing to a table that is given by a function.
* `exists_perm_flatMap_update` — a list that is put together from parts.
* `exists_split_of_filter` — a list cut where a filter has an element.
-/

namespace Lists

variable {α β : Type*}

/-! ### Loops that may fail -/

/-- Reading at indices that are all in range. -/
theorem mapM_getElem? (l : List α) (d : α) : ∀ (is : List ℕ),
    (∀ i ∈ is, i < l.length) → is.mapM (fun i => l[i]?) = some (is.map fun i => l[i]?.getD d) := by
  intro is
  induction is with
  | nil => intro _; rfl
  | cons i is ih =>
    intro h
    have hi : l[i]? = some (l[i]?.getD d) := by
      rw [List.getElem?_eq_getElem (h i (by simp))]
      rfl
    rw [List.mapM_cons, ih fun j hj => h j (by simp [hj]), hi]
    rfl

/-- Loops with the same steps. -/
theorem mapM_congr {f g : α → Option β} : ∀ {l : List α}, (∀ x ∈ l, f x = g x) →
    l.mapM f = l.mapM g := by
  intro l
  induction l with
  | nil => intro _; rfl
  | cons x l ih =>
    intro h
    rw [List.mapM_cons, List.mapM_cons, h x List.mem_cons_self,
      ih fun y hy => h y (List.mem_cons_of_mem _ hy)]

/-- Every step of a loop with a result has one. -/
theorem forall₂_of_mapM {f : α → Option β} : ∀ {l : List α} {r : List β},
    l.mapM f = some r → List.Forall₂ (fun a b => f a = some b) l r := by
  intro l
  induction l with
  | nil =>
    intro r h
    rw [List.mapM_nil] at h
    rw [← Option.some.inj h]
    exact .nil
  | cons a l ih =>
    intro r h
    rw [List.mapM_cons, Option.bind_eq_bind, Option.bind_eq_some_iff] at h
    obtain ⟨b, hb, h⟩ := h
    rw [Option.bind_eq_bind, Option.bind_eq_some_iff] at h
    obtain ⟨bs, hbs, h⟩ := h
    rw [← Option.some.inj h]
    exact .cons hb (ih hbs)

/-- Parts of one length, put together. -/
theorem length_flatten_of_forall₂ {f : α → Option (List β)} {n : ℕ}
    (hf : ∀ {a bs}, f a = some bs → bs.length = n) {l : List α} {r : List (List β)}
    (h : List.Forall₂ (fun a bs => f a = some bs) l r) : r.flatten.length = l.length * n := by
  induction h with
  | nil => simp
  | cons hbs _ ih =>
    rw [List.flatten_cons, List.length_append, hf hbs, ih, List.length_cons, Nat.succ_mul,
      Nat.add_comm]

theorem sum_length_eq (f : α → List β) (l : List α) :
    (l.map fun a => ((f a).length : ℤ)).sum = ((l.flatMap f).length : ℤ) := by
  induction l with
  | nil => rfl
  | cons a l ih =>
    rw [List.map_cons, List.sum_cons, ih, List.flatMap_cons, List.length_append, Nat.cast_add]

/-! ### Writing at an index -/

/-- Writing what stands there already. -/
theorem set_eq_self {l : List α} {n : ℕ} {x : α} (h : n < l.length → l[n]? = some x) :
    l.set n x = l := by
  refine List.ext_getElem? fun j => ?_
  rw [List.getElem?_set]
  split
  · next hj =>
    subst hj
    split
    · next hlt => exact (h hlt).symm
    · next hge => rw [List.getElem?_eq_none (not_lt.mp hge)]
  · rfl

theorem getElem?_set_congr {l l' : List α} {i j : ℕ} (hj : l[j]? = l'[j]?)
    (hi : l[i]? = l'[i]?) (x : α) : (l.set j x)[i]? = (l'.set j x)[i]? := by
  rcases eq_or_ne j i with rfl | hne
  · rw [List.getElem?_set_self', List.getElem?_set_self', hj]
  · rw [List.getElem?_set_ne hne, List.getElem?_set_ne hne, hi]

theorem getElem?_set_eq_none {l : List α} {i : ℕ} (h : l[i]? = none) (j : ℕ) (a : α) :
    (l.set j a)[i]? = none := by
  rw [List.getElem?_eq_none_iff] at h ⊢
  rwa [List.length_set]

/-- An element is replaced at its position. -/
theorem set_of_split {l pre post : List α} {e : α} (h : l = pre ++ e :: post)
    (e' : α) : l.set pre.length e' = pre ++ e' :: post ∧ pre.length < l.length := by
  rw [h, List.set_append_right _ _ le_rfl, Nat.sub_self, List.set_cons_zero, List.length_append,
    List.length_cons]
  exact ⟨rfl, by omega⟩

theorem map_range_set (f : ℕ → α) (n i : ℕ) (a : α) :
    ((List.range n).map f).set i a = (List.range n).map (Function.update f i a) := by
  apply List.ext_getElem?
  intro j
  grind

/-! ### Parts -/

/-- One of the parts of a list is replaced. -/
theorem exists_perm_flatMap_update (f : ℕ → List α) {n i : ℕ} (hi : i < n) :
    ∃ rest, ((List.range n).flatMap f).Perm (f i ++ rest) ∧
      ∀ x, ((List.range n).flatMap (Function.update f i x)).Perm (x ++ rest) := by
  obtain ⟨l₁, l₂, hsplit⟩ := List.append_of_mem (List.mem_range.mpr hi)
  have hnodup : (l₁ ++ i :: l₂).Nodup := hsplit ▸ List.nodup_range
  rw [List.perm_middle.nodup_iff, List.nodup_cons] at hnodup
  have hother : ∀ x, ∀ j ∈ l₁ ++ l₂, Function.update f i x j = f j := by
    intro x j hj
    refine Function.update_of_ne ?_ _ _
    rintro rfl
    exact hnodup.1 hj
  refine ⟨l₁.flatMap f ++ l₂.flatMap f, ?_, ?_⟩
  · rw [hsplit, List.flatMap_append, List.flatMap_cons, ← List.append_assoc, ← List.append_assoc]
    exact List.perm_append_comm.append_right _
  · intro x
    have h₁ : l₁.flatMap (Function.update f i x) = l₁.flatMap f :=
      List.flatMap_congr fun j hj => hother x j (List.mem_append_left _ hj)
    have h₂ : l₂.flatMap (Function.update f i x) = l₂.flatMap f :=
      List.flatMap_congr fun j hj => hother x j (List.mem_append_right _ hj)
    rw [hsplit, List.flatMap_append, List.flatMap_cons, h₁, h₂, Function.update_self,
      ← List.append_assoc, ← List.append_assoc]
    exact List.perm_append_comm.append_right _

/-! ### Filters -/

/-- A list cut where a filter has an element. -/
theorem exists_split_of_filter {p : α → Bool} {l done rest : List α} {d : α}
    (h : l.filter p = done ++ d :: rest) :
    ∃ l₁ l₂, l = l₁ ++ d :: l₂ ∧ l₁.filter p = done ∧ p d = true ∧ l₂.filter p = rest := by
  obtain ⟨l₁, l', rfl, hdone, hrest⟩ := List.filter_eq_append_iff.mp h
  obtain ⟨l₂, l₃, rfl, hnot, hd, hrest⟩ := List.filter_eq_cons_iff.mp hrest
  refine ⟨l₁ ++ l₂, l₃, by simp, ?_, hd, hrest⟩
  rw [List.filter_append, hdone, List.filter_eq_nil_iff.mpr hnot, List.append_nil]

end Lists
