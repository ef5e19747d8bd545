import Mathlib.Data.List.Basic
import Mathlib.Data.Nat.Log
import Mathlib.Tactic.Ring
import Mathlib.Tactic.Linarith

/-!
# Byte strings and fixed-width words

Messages that are authenticated or sent are byte strings, and the words in them
are written out with a fixed number of bytes.  Two facts carry every argument
that reads a message back: a word is determined by its bytes, and a
concatenation of equally wide pieces is determined by its bytes.

## Main definitions

* `leBytes n x` — the `n` low bytes of `x`, least significant first.
* `Block`, `blockBytes` — a 16-byte array, and its bytes, most significant first.

## Main results

* `leBytes_inj` — a number below `256 ^ n` is determined by its `n` bytes.
* `flatMap_inj_of_width` — a concatenation of pieces of one positive width is
  determined by its bytes.
-/

namespace Bytes

/-! ### Words of a fixed width -/

/-- The `n` low bytes of `x`, least significant first. -/
def leBytes : ℕ → ℕ → List UInt8
  | 0, _ => []
  | n + 1, x => UInt8.ofNat x :: leBytes n (x / 256)

@[simp] theorem length_leBytes (n x : ℕ) : (leBytes n x).length = n := by
  induction n generalizing x with
  | zero => rfl
  | succ n ih => simp [leBytes, ih]

/-- A number below `256 ^ n` is determined by its `n` low bytes. -/
theorem leBytes_inj {n x y : ℕ} (hx : x < 256 ^ n) (hy : y < 256 ^ n)
    (h : leBytes n x = leBytes n y) : x = y := by
  induction n generalizing x y with
  | zero => simp at hx hy; omega
  | succ n ih =>
    simp only [leBytes, List.cons.injEq] at h
    have hlow : x % 256 = y % 256 := by
      have := congrArg UInt8.toNat h.1
      simpa using this
    have hhigh : x / 256 = y / 256 := by
      refine ih ?_ ?_ h.2
      · rw [Nat.div_lt_iff_lt_mul (by decide)]; rwa [pow_succ] at hx
      · rw [Nat.div_lt_iff_lt_mul (by decide)]; rwa [pow_succ] at hy
    omega

/-- A 16-byte array, read as a number whose first byte is the most significant
one: the way a block cipher in counter mode reads its counter block. -/
abbrev Block := BitVec 128

/-- The bytes of a block in array order. -/
def blockBytes (b : Block) : List UInt8 := (leBytes 16 b.toNat).reverse

@[simp] theorem length_blockBytes (b : Block) : (blockBytes b).length = 16 := by
  simp [blockBytes]

theorem blockBytes_injective : Function.Injective blockBytes := by
  intro a b h
  have hrev : leBytes 16 a.toNat = leBytes 16 b.toNat := List.reverse_injective h
  exact BitVec.eq_of_toNat_eq (leBytes_inj a.isLt b.isLt hrev)

/-- The block whose array holds the given bytes. -/
def blockOfBytes (bs : List UInt8) : Block :=
  BitVec.ofNat 128 (bs.foldl (fun acc b => 256 * acc + b.toNat) 0)

/-! ### Concatenations of pieces of one width -/

section Width

variable {α β : Type*} {f : α → List β} {w : ℕ}

theorem length_flatMap_of_width (hlen : ∀ a, (f a).length = w) (l : List α) :
    (l.flatMap f).length = w * l.length := by
  induction l with
  | nil => simp
  | cons a l ih => rw [List.flatMap_cons, List.length_append, ih, hlen, List.length_cons]; ring

theorem take_flatMap_of_width (hlen : ∀ a, (f a).length = w) (l : List α) (n : ℕ) :
    (l.flatMap f).take (w * n) = (l.take n).flatMap f := by
  induction l generalizing n with
  | nil => simp
  | cons a l ih =>
    cases n with
    | zero => simp
    | succ n =>
      rw [List.flatMap_cons, List.take_append, List.take_of_length_le (by rw [hlen, Nat.mul_succ]; omega),
        hlen, Nat.mul_succ, Nat.add_sub_cancel, ih, List.take_succ_cons, List.flatMap_cons]

theorem drop_flatMap_of_width (hlen : ∀ a, (f a).length = w) (l : List α) (n : ℕ) :
    (l.flatMap f).drop (w * n) = (l.drop n).flatMap f := by
  have hsplit : (l.take n).flatMap f ++ (l.drop n).flatMap f = l.flatMap f := by
    rw [← List.flatMap_append, List.take_append_drop]
  have happ := List.take_append_drop (w * n) (l.flatMap f)
  rw [take_flatMap_of_width hlen, ← hsplit] at happ
  rw [← hsplit]
  exact List.append_cancel_left happ

/-- A concatenation of pieces of one positive width is determined by its bytes. -/
theorem flatMap_inj_of_width (hw : 0 < w) (hlen : ∀ a, (f a).length = w)
    (hf : Function.Injective f) : ∀ {l₁ l₂ : List α}, l₁.flatMap f = l₂.flatMap f → l₁ = l₂ := by
  intro l₁
  induction l₁ with
  | nil =>
    intro l₂ h
    have hl := congrArg List.length h
    rw [length_flatMap_of_width hlen] at hl
    cases l₂ with
    | nil => rfl
    | cons b l₂ => simp [hlen] at hl; omega
  | cons a l₁ ih =>
    intro l₂ h
    cases l₂ with
    | nil =>
      have hl := congrArg List.length h
      simp [hlen] at hl
      omega
    | cons b l₂ =>
      rw [List.flatMap_cons, List.flatMap_cons] at h
      -- the two heads have the same width, so the split is the same on both sides
      obtain ⟨hab, hrest⟩ := List.append_inj h (by rw [hlen, hlen])
      rw [hf hab, ih hrest]

end Width

theorem flatMap_blockBytes_inj {l₁ l₂ : List Block}
    (h : l₁.flatMap blockBytes = l₂.flatMap blockBytes) : l₁ = l₂ :=
  flatMap_inj_of_width (by decide) length_blockBytes blockBytes_injective h

end Bytes
