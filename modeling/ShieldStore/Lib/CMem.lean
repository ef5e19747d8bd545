import Mathlib.Algebra.Order.BigOperators.Group.List
import Mathlib.Data.List.TakeWhile
import ShieldStore.Lib.Bytes

/-!
# Bounds-checked C memory and C strings

A pointer into a C object is modelled by the list of the cells from it to the
end of the object, so that what may be read or written through it is visible.
Every operation that would leave the object, or follow a null pointer, yields
`none`: the program has no defined behaviour from there on.

## Main definitions

* `malloc`, `memcpy`, `load`, `memcmp`, `sizeT` — memory, in cells of any type.
* `intT`, `natDiv`, `natMod`, `intSum` — signed arithmetic.
* `strlen`, `strncpy`, `strncmp`, `strtokR` — the string functions; `SaveAtEnd` is what
  the library's `strtok_r` stores in its save pointer at the end of the text.
* `Cut` — a text that the tokeniser has been at.
* `fgets` — reading a stream line by line.

## Main results

* `memcpy_append` — copying to the end of what is already written.
* `memcpy_flatMap` — copying in cells and copying in their bytes.
* `strtokR_word` — the token of a text that starts with a word and a delimiter.
-/

namespace CMem

open Bytes

/-! ### Memory -/

section Memory

variable {α : Type*}

/-- A fresh object of `n` cells.  What fresh memory holds is not specified; every
caller fills it before it reads it. -/
def malloc [Inhabited α] (n : ℕ) : List α := List.replicate n default

@[simp] theorem length_malloc [Inhabited α] (n : ℕ) : (malloc n : List α).length = n := by
  simp [malloc]

/-- `memcpy(dst + off, src, n)`, in cells. -/
def memcpy (dst : List α) (off : ℕ) (src : List α) (n : ℕ) : Option (List α) :=
  if off + n ≤ dst.length ∧ n ≤ src.length then
    some (dst.take off ++ src.take n ++ dst.drop (off + n))
  else none

theorem memcpy_eq_some_iff {dst src r : List α} {off n : ℕ} :
    memcpy dst off src n = some r ↔ (off + n ≤ dst.length ∧ n ≤ src.length) ∧
      dst.take off ++ src.take n ++ dst.drop (off + n) = r := by
  unfold memcpy
  split <;> simp_all

theorem length_memcpy {dst src r : List α} {off n : ℕ} (h : memcpy dst off src n = some r) :
    r.length = dst.length := by
  obtain ⟨⟨h1, h2⟩, rfl⟩ := memcpy_eq_some_iff.mp h
  simp only [List.length_append, List.length_take, List.length_drop]
  omega

/-- A copy reads no further than its length. -/
theorem memcpy_take_append {src : List α} {n : ℕ} (hsrc : n ≤ src.length) (rest dst : List α) (off : ℕ) :
    memcpy dst off (src.take n ++ rest) n = memcpy dst off src n := by
  have hlen : (src.take n).length = n := List.length_take_of_le hsrc
  have hle : n ≤ (src.take n ++ rest).length := by
    rw [List.length_append, hlen]
    omega
  unfold memcpy
  rw [List.take_left' hlen]
  simp only [hsrc, hle]

/-- A copy between objects that are long enough. -/
theorem exists_memcpy {dst src : List α} {off n : ℕ} (hdst : off + n ≤ dst.length)
    (hsrc : n ≤ src.length) : ∃ r, memcpy dst off src n = some r ∧ r.length = dst.length := by
  have h : memcpy dst off src n = some (dst.take off ++ src.take n ++ dst.drop (off + n)) :=
    if_pos ⟨hdst, hsrc⟩
  exact ⟨_, h, length_memcpy h⟩

/-- Copying to the end of what is already written: `pre` stays, the copied cells
follow it, and the rest of the object after them. -/
theorem memcpy_append {pre rest src : List α} {off n : ℕ} (hoff : pre.length = off)
    (hrest : n ≤ rest.length) (hsrc : n ≤ src.length) :
    memcpy (pre ++ rest) off src n = some (pre ++ (src.take n ++ rest.drop n)) := by
  rw [memcpy_eq_some_iff]
  refine ⟨⟨by rw [List.length_append]; omega, hsrc⟩, ?_⟩
  rw [List.take_left' hoff, ← hoff, List.drop_append]
  simp [List.append_assoc]

@[simp] theorem malloc_zero [Inhabited α] : (malloc 0 : List α) = [] := rfl

/-- Filling a fresh object piece by piece: what is written grows at its end. -/
theorem memcpy_append_malloc [Inhabited α] {pre src : List α} {off m n : ℕ}
    (hoff : pre.length = off) (hm : n ≤ m) (hsrc : n ≤ src.length) :
    memcpy (pre ++ malloc m) off src n = some ((pre ++ src.take n) ++ malloc (m - n)) := by
  rw [memcpy_append hoff (by simpa using hm) hsrc, List.append_assoc]
  simp [malloc]

/-- Filling a fresh object from its start. -/
theorem memcpy_malloc [Inhabited α] {src : List α} {m n : ℕ} (hm : n ≤ m) (hsrc : n ≤ src.length) :
    memcpy (malloc m) 0 src n = some (src.take n ++ malloc (m - n)) := by
  have h : memcpy ([] ++ malloc m) 0 src n = some (([] ++ src.take n) ++ malloc (m - n)) :=
    memcpy_append_malloc rfl hm hsrc
  simpa using h

/-- Overwriting the start of an object. -/
theorem memcpy_start {dst rest src : List α} {n : ℕ} (hdst : dst.length = n)
    (hsrc : n ≤ src.length) : memcpy (dst ++ rest) 0 src n = some (src.take n ++ rest) := by
  rw [memcpy_eq_some_iff]
  refine ⟨⟨by rw [List.length_append]; omega, hsrc⟩, ?_⟩
  simp [← hdst]

/-- Overwriting a whole object. -/
theorem memcpy_full {dst src : List α} {n : ℕ} (hdst : dst.length = n) (hsrc : n ≤ src.length) :
    memcpy dst 0 src n = some (src.take n) := by
  have h : memcpy (dst ++ []) 0 src n = some (src.take n ++ []) := memcpy_start hdst hsrc
  simpa using h

/-- A copy of a whole object. -/
theorem memcpy_copy [Inhabited α] {src : List α} {n : ℕ} (hsrc : src.length = n) :
    memcpy (malloc n) 0 src n = some src := by
  rw [memcpy_full (length_malloc n) hsrc.ge, List.take_of_length_le hsrc.le]

/-- The first `n` cells a pointer points at, as a callee reads them. -/
def load (src : List α) (n : ℕ) : Option (List α) :=
  if n ≤ src.length then some (src.take n) else none

theorem load_eq_some_iff {src r : List α} {n : ℕ} :
    load src n = some r ↔ n ≤ src.length ∧ src.take n = r := by
  unfold load
  split <;> simp_all

/-- `memcmp(a, b, n) == 0`. -/
def memcmp [DecidableEq α] (a b : List α) (n : ℕ) : Option Bool :=
  if n ≤ a.length ∧ n ≤ b.length then some (decide (a.take n = b.take n)) else none

theorem memcmp_eq_some_iff [DecidableEq α] {a b : List α} {n : ℕ} {r : Bool} :
    memcmp a b n = some r ↔
      (n ≤ a.length ∧ n ≤ b.length) ∧ decide (a.take n = b.take n) = r := by
  unfold memcmp
  split <;> simp_all

/-- A signed length where a `size_t` is expected: a negative one turns into a
number that no object reaches. -/
def sizeT (z : ℤ) : Option ℕ := if 0 ≤ z then some z.toNat else none

@[simp] theorem sizeT_natCast (n : ℕ) : sizeT (n : ℤ) = some n := by simp [sizeT]

theorem sizeT_eq_some_iff {z : ℤ} {n : ℕ} : sizeT z = some n ↔ z = n := by
  unfold sizeT
  split
  · rw [Option.some.injEq]; omega
  · simp only [reduceCtorEq, false_iff]; omega

/-! ### Cells of several bytes -/

section Width

variable {β : Type*} {w : ℕ} {f : α → List β}

/-- Copying objects made of cells of one width, counted in the cells' parts. -/
theorem memcpy_flatMap (hw : 0 < w) (hlen : ∀ a, (f a).length = w) (dst src : List α) (off n : ℕ) :
    memcpy (dst.flatMap f) (w * off) (src.flatMap f) (w * n) =
      (memcpy dst off src n).map (List.flatMap f) := by
  unfold memcpy
  simp only [length_flatMap_of_width hlen, ← Nat.mul_add, Nat.mul_le_mul_left_iff hw,
    take_flatMap_of_width hlen, drop_flatMap_of_width hlen]
  split
  · simp
  · rfl

end Width

/-! ### Signed arithmetic -/

/-- The value of an `int` expression; on overflow it has none. -/
def intT (z : ℤ) : Option ℤ := if -0x80000000 ≤ z ∧ z ≤ 0x7fffffff then some z else none

theorem intT_eq_some_iff {z r : ℤ} : intT z = some r ↔ (-2 ^ 31 ≤ z ∧ z < 2 ^ 31) ∧ z = r := by
  unfold intT
  split
  · rw [Option.some.injEq]; omega
  · simp only [reduceCtorEq, false_iff]; omega

theorem intT_of_lt {z : ℤ} (h₀ : 0 ≤ z) (h₁ : z < 2 ^ 31) : intT z = some z :=
  intT_eq_some_iff.mpr ⟨⟨by omega, h₁⟩, rfl⟩

/-- `a / b` of numbers that are not negative; by zero it has no value. -/
def natDiv (a b : ℕ) : Option ℕ := if b = 0 then none else some (a / b)

/-- `a % b` of numbers that are not negative. -/
def natMod (a b : ℕ) : Option ℕ := if b = 0 then none else some (a % b)

theorem natDiv_of_pos {a b : ℕ} (hb : 0 < b) : natDiv a b = some (a / b) := if_neg hb.ne'

theorem natMod_of_pos {a b : ℕ} (hb : 0 < b) : natMod a b = some (a % b) := if_neg hb.ne'

/-- A loop that adds to an `int`. -/
def intSum (f : α → ℤ) (t : ℤ) (l : List α) : Option ℤ := l.foldlM (fun acc a => intT (acc + f a)) t

theorem intSum_cons (f : α → ℤ) (t : ℤ) (a : α) (l : List α) :
    intSum f t (a :: l) = (intT (t + f a)).bind fun t => intSum f t l := rfl

/-- What comes out of the loop is the sum. -/
theorem intSum_eq_some {f : α → ℤ} {l : List α} : ∀ {t z : ℤ}, intSum f t l = some z →
    z = t + (l.map f).sum := by
  induction l with
  | nil =>
    intro t z h
    obtain rfl := Option.some.inj h
    simp
  | cons a l ih =>
    intro t z h
    rw [intSum_cons, Option.bind_eq_some_iff] at h
    obtain ⟨t', ht', h⟩ := h
    obtain ⟨-, rfl⟩ := intT_eq_some_iff.mp ht'
    rw [ih h, List.map_cons, List.sum_cons, add_assoc]

/-- A loop over numbers that are not negative overflows only if the sum does. -/
theorem intSum_of_nonneg {f : α → ℤ} {l : List α} (hf : ∀ a ∈ l, 0 ≤ f a) : ∀ {t : ℤ}, 0 ≤ t →
    t + (l.map f).sum < 2 ^ 31 → intSum f t l = some (t + (l.map f).sum) := by
  induction l with
  | nil =>
    intro t _ _
    simp [intSum]
  | cons a l ih =>
    intro t h₀ h₁
    have ha := hf a (by simp)
    have hl : 0 ≤ (l.map f).sum := List.sum_nonneg (by simpa using fun b hb => hf b (by simp [hb]))
    rw [List.map_cons, List.sum_cons] at h₁
    rw [intSum_cons, intT_of_lt (by omega) (by omega), Option.bind_some,
      ih (fun b hb => hf b (by simp [hb])) (by omega) (by omega), List.map_cons, List.sum_cons,
      add_assoc]

end Memory

/-! ### Strings -/

/-- The length of the string a pointer points at: the cells before the first
terminator. -/
def strlen : List UInt8 → Option ℕ
  | [] => none
  | c :: s => if c = 0 then some 0 else (strlen s).map (· + 1)

theorem strlen_append_nul {s : List UInt8} (hs : (0 : UInt8) ∉ s) (t : List UInt8) :
    strlen (s ++ 0 :: t) = some s.length := by
  induction s with
  | nil => simp [strlen]
  | cons c s ih =>
    simp only [List.mem_cons, not_or] at hs
    simp [strlen, Ne.symm hs.1, ih hs.2]

/-- A string with a length splits at its terminator. -/
theorem exists_of_strlen_eq_some : ∀ {s : List UInt8} {n : ℕ}, strlen s = some n →
    ∃ u t, s = u ++ 0 :: t ∧ u.length = n ∧ (0 : UInt8) ∉ u := by
  intro s
  induction s with
  | nil => intro n h; simp [strlen] at h
  | cons c s ih =>
    intro n h
    unfold strlen at h
    split at h
    · next hc => exact ⟨[], s, by simp [hc], by simpa using h, by simp⟩
    · next hc =>
      obtain ⟨m, hm, rfl⟩ := Option.map_eq_some_iff.mp h
      obtain ⟨u, t, rfl, hlen, hu⟩ := ih hm
      exact ⟨c :: u, t, rfl, by simp [hlen], by simp [Ne.symm hc, hu]⟩

theorem strlen_eq_none_iff {s : List UInt8} : strlen s = none ↔ (0 : UInt8) ∉ s := by
  induction s with
  | nil => simp [strlen]
  | cons c s ih =>
    unfold strlen
    split
    · next hc => simp [hc]
    · next hc => simp [ih, Ne.symm hc]

/-- What `strncpy(dst, src, n)` leaves in the `n` cells of `dst`: the string, cut off after
`n` cells and filled up with zeros. -/
def strncpy : List UInt8 → ℕ → Option (List UInt8)
  | _, 0 => some []
  | [], _ + 1 => none
  | c :: s, n + 1 => if c = 0 then some (List.replicate (n + 1) 0) else (strncpy s n).map (c :: ·)

theorem strncpy_append_nul {s : List UInt8} (hs : (0 : UInt8) ∉ s) (t : List UInt8) :
    ∀ {n : ℕ}, s.length < n →
      strncpy (s ++ 0 :: t) n = some (s ++ List.replicate (n - s.length) 0) := by
  induction s with
  | nil =>
    intro n hn
    obtain ⟨n, rfl⟩ := Nat.exists_eq_add_of_lt hn
    simp [strncpy]
  | cons c s ih =>
    intro n hn
    obtain ⟨n, rfl⟩ : ∃ m, n = m + 1 := ⟨n - 1, by rw [List.length_cons] at hn; omega⟩
    simp only [List.mem_cons, not_or] at hs
    rw [List.length_cons, Nat.add_lt_add_iff_right] at hn
    rw [List.cons_append, strncpy, if_neg (Ne.symm hs.1), ih hs.2 hn, List.length_cons,
      Nat.add_sub_add_right]
    rfl

/-- `strncmp(s, t, n) == 0`: the strings are compared cell by cell, up to `n`
cells or the first terminator. -/
def strncmp : List UInt8 → List UInt8 → ℕ → Option Bool
  | _, _, 0 => some true
  | a :: s, b :: t, n + 1 =>
      if a ≠ b then some false else if a = 0 then some true else strncmp s t n
  | _, _, _ + 1 => none

/-- The first cells decide where they differ. -/
theorem strncmp_of_ne {a b : UInt8} (h : a ≠ b) (s t : List UInt8) (n : ℕ) :
    strncmp (a :: s) (b :: t) (n + 1) = some false := if_pos h

/-- Strings that differ in their first `n` cells differ in more. -/
theorem strncmp_of_le : ∀ {s t : List UInt8} {n m : ℕ}, n ≤ m → strncmp s t n = some false →
    strncmp s t m = some false := by
  intro s
  induction s with
  | nil =>
    intro t n m _ h
    cases n <;> simp [strncmp] at h
  | cons a s ih =>
    intro t n m hle h
    cases n with
    | zero => simp [strncmp] at h
    | succ n =>
      obtain ⟨m, rfl⟩ : ∃ k, m = k + 1 := ⟨m - 1, by omega⟩
      cases t with
      | nil => simp [strncmp] at h
      | cons b t =>
        simp only [strncmp] at h ⊢
        split
        · rfl
        · next hab =>
          rw [if_neg hab] at h
          split
          -- strings that end together do not differ
          · next ha => rw [if_pos ha] at h; cases h
          · next ha =>
            rw [if_neg ha] at h
            exact ih (by omega) h

/-- Cells that are there can be compared. -/
theorem exists_strncmp : ∀ {s t : List UInt8} {n : ℕ}, n ≤ s.length → n ≤ t.length →
    ∃ r, strncmp s t n = some r := by
  intro s
  induction s with
  | nil =>
    intro t n hs _
    obtain rfl : n = 0 := by simpa using hs
    exact ⟨true, rfl⟩
  | cons a s ih =>
    intro t n hs ht
    cases n with
    | zero => exact ⟨true, by simp [strncmp]⟩
    | succ n =>
      cases t with
      | nil => simp at ht
      | cons b t =>
        simp only [List.length_cons, Nat.add_le_add_iff_right] at hs ht
        simp only [strncmp]
        split
        · exact ⟨false, rfl⟩
        · split
          · exact ⟨true, rfl⟩
          · exact ih hs ht

/-- A string starts with the characters of a literal that `strncmp` finds in it. -/
theorem isPrefix_of_strncmp {t : List UInt8} (ht : (0 : UInt8) ∉ t) (u : List UInt8) :
    ∀ {s : List UInt8}, strncmp s (t ++ u) t.length = some true → t <+: s := by
  induction t with
  | nil => intro s _; exact List.nil_prefix
  | cons b t ih =>
    intro s h
    simp only [List.mem_cons, not_or] at ht
    cases s with
    | nil => simp [strncmp] at h
    | cons a s =>
      simp only [List.cons_append, List.length_cons, strncmp] at h
      split at h
      · simp at h
      · next hab =>
        obtain rfl : a = b := not_not.mp hab
        rw [if_neg (Ne.symm ht.1)] at h
        exact List.cons_prefix_cons.mpr ⟨rfl, ih ht.2 h⟩

/-- What `strtok_r` stores in its save pointer when the token it returns ends at
the terminator of the text; the standard leaves it open. -/
inductive SaveAtEnd
  /-- The save pointer points at the terminator. -/
  | terminator
  /-- The save pointer is null. -/
  | null
  deriving DecidableEq, Repr

/-- The save pointer at the end of the text; `t` is the text from its terminator on. -/
def SaveAtEnd.pointer (t : List UInt8) : SaveAtEnd → Option (List UInt8)
  | .terminator => some t
  | .null => none

/-- What `strtok_r` leaves behind. -/
structure Token where
  /-- The text from the pointer that was handed in. -/
  text : List UInt8
  /-- The text from the start of the token. -/
  tok : List UInt8
  /-- The save pointer: null, or the text from it on. -/
  save : Option (List UInt8)
  deriving DecidableEq

/-- `strtok_r(s, delim, &save)` with a single delimiter: delimiters are skipped,
the token runs to the next delimiter, which is overwritten with a terminator, or
to the end of the text.  `some none` is the null pointer, for a text without a
token. -/
def strtokR (atEnd : SaveAtEnd) (delim : UInt8) (s : List UInt8) : Option (Option Token) :=
  let lead := s.takeWhile (· == delim)
  let body := s.dropWhile (· == delim)
  let tok := body.takeWhile fun c => c != delim && c != 0
  match body with
  | [] => none
  | c :: _ =>
      if c = 0 then some none
      else
        match body.dropWhile fun c => c != delim && c != 0 with
        | [] => none
        | d :: rest =>
            if d = 0 then some (some ⟨s, body, atEnd.pointer (0 :: rest)⟩)
            else some (some ⟨lead ++ tok ++ 0 :: rest, tok ++ 0 :: rest, some rest⟩)

/-- A word: not empty, and with neither the delimiter nor a terminator in it. -/
structure IsWord (delim : UInt8) (w : List UInt8) : Prop where
  ne_nil : w ≠ []
  delim_notMem : delim ∉ w
  nul_notMem : (0 : UInt8) ∉ w

instance (delim : UInt8) (w : List UInt8) : Decidable (IsWord delim w) :=
  decidable_of_iff (w ≠ [] ∧ delim ∉ w ∧ (0 : UInt8) ∉ w)
    ⟨fun ⟨h₁, h₂, h₃⟩ => ⟨h₁, h₂, h₃⟩, fun h => ⟨h.ne_nil, h.delim_notMem, h.nul_notMem⟩⟩

section Words

variable {delim : UInt8} {w : List UInt8}

theorem IsWord.takeWhile_append (hw : IsWord delim w) {d : UInt8} (hd : d = delim ∨ d = 0)
    (t : List UInt8) : (w ++ d :: t).takeWhile (fun c => c != delim && c != 0) = w := by
  have hall : ∀ c ∈ w, (c != delim && c != 0) = true := by
    intro c hc
    simp only [bne_iff_ne, ne_eq, Bool.and_eq_true]
    exact ⟨fun h => hw.delim_notMem (h ▸ hc), fun h => hw.nul_notMem (h ▸ hc)⟩
  rw [List.takeWhile_append_of_pos hall]
  rcases hd with rfl | rfl <;> simp

theorem IsWord.dropWhile_append (hw : IsWord delim w) {d : UInt8} (hd : d = delim ∨ d = 0)
    (t : List UInt8) : (w ++ d :: t).dropWhile (fun c => c != delim && c != 0) = d :: t := by
  have hall : ∀ c ∈ w, (c != delim && c != 0) = true := by
    intro c hc
    simp only [bne_iff_ne, ne_eq, Bool.and_eq_true]
    exact ⟨fun h => hw.delim_notMem (h ▸ hc), fun h => hw.nul_notMem (h ▸ hc)⟩
  rw [List.dropWhile_append_of_pos hall]
  rcases hd with rfl | rfl <;> simp

/-- The token of a text that starts with a word and a delimiter. -/
theorem strtokR_word (hw : IsWord delim w) (hdelim : delim ≠ 0) (atEnd : SaveAtEnd)
    (t : List UInt8) :
    strtokR atEnd delim (w ++ delim :: t) = some (some ⟨w ++ 0 :: t, w ++ 0 :: t, some t⟩) := by
  obtain ⟨c, w', rfl⟩ := List.exists_cons_of_ne_nil hw.ne_nil
  have hc : (c == delim) = false := by
    simp only [beq_eq_false_iff_ne]
    exact fun h => hw.delim_notMem (by simp [h])
  have hc0 : c ≠ 0 := fun h => hw.nul_notMem (by simp [h])
  have htake := hw.takeWhile_append (Or.inl rfl) t
  have hdrop := hw.dropWhile_append (Or.inl rfl) t
  rw [List.cons_append] at htake hdrop ⊢
  unfold strtokR
  simp only [List.takeWhile_cons, List.dropWhile_cons, hc, Bool.false_eq_true, if_false]
  simp only [List.takeWhile_cons, List.dropWhile_cons] at htake hdrop
  simp only [hc0, if_false, htake, hdrop, hdelim]
  simp

/-- The token of a text that is one word. -/
theorem strtokR_word_nul (hw : IsWord delim w) (atEnd : SaveAtEnd) (t : List UInt8) :
    strtokR atEnd delim (w ++ 0 :: t) =
      some (some ⟨w ++ 0 :: t, w ++ 0 :: t, atEnd.pointer (0 :: t)⟩) := by
  obtain ⟨c, w', rfl⟩ := List.exists_cons_of_ne_nil hw.ne_nil
  have hc : (c == delim) = false := by
    simp only [beq_eq_false_iff_ne]
    exact fun h => hw.delim_notMem (by simp [h])
  have hc0 : c ≠ 0 := fun h => hw.nul_notMem (by simp [h])
  have hdrop := hw.dropWhile_append (Or.inr rfl) t
  rw [List.cons_append] at hdrop ⊢
  unfold strtokR
  simp only [List.dropWhile_cons, hc, Bool.false_eq_true, if_false]
  simp only [List.dropWhile_cons] at hdrop
  simp only [hc0, if_false, hdrop, if_true]

/-- Delimiters in front of the token are skipped. -/
theorem strtokR_lead {s : List UInt8} (hs : s.head? ≠ some delim) (atEnd : SaveAtEnd) (n : ℕ) :
    strtokR atEnd delim (List.replicate n delim ++ s) =
      (strtokR atEnd delim s).map
        (Option.map fun t => { t with text := List.replicate n delim ++ t.text }) := by
  have hall : ∀ c ∈ List.replicate n delim, (c == delim) = true := by simp
  have htake : s.takeWhile (· == delim) = [] := by
    cases s with
    | nil => rfl
    | cons c s => simp [show c ≠ delim by simpa using hs]
  have hdrop : s.dropWhile (· == delim) = s := by
    cases s with
    | nil => rfl
    | cons c s => simp [show c ≠ delim by simpa using hs]
  unfold strtokR
  simp only [List.takeWhile_append_of_pos hall, List.dropWhile_append_of_pos hall, htake, hdrop]
  split
  · rfl
  · split
    · rfl
    · split
      · rfl
      · split <;> simp

/-- A token is a word between delimiters, the text's start and its terminator. -/
theorem exists_of_strtokR_eq_some {atEnd : SaveAtEnd} {s : List UInt8} {t : Token}
    (h : strtokR atEnd delim s = some (some t)) :
    ∃ n w d rest, s = List.replicate n delim ++ (w ++ d :: rest) ∧ IsWord delim w ∧
      (d = delim ∨ d = 0) := by
  -- what is skipped is all delimiters
  have hlead : s.takeWhile (· == delim) =
      List.replicate (s.takeWhile (· == delim)).length delim :=
    List.eq_replicate_iff.mpr ⟨rfl, fun c hc => by simpa using List.mem_takeWhile_imp hc⟩
  have hsplit := List.takeWhile_append_dropWhile (p := (· == delim)) (l := s)
  unfold strtokR at h
  simp only at h
  split at h
  · cases h
  · next c body hbody =>
    split at h
    · cases h
    · next hc0 =>
      split at h
      · cases h
      · next d rest hrest =>
        -- the token starts with a character that is not one
        have hc : c ≠ delim := by
          have := List.head_dropWhile_not (· == delim) (l := s) (by simp [hbody])
          simpa [hbody] using this
        have hword := List.takeWhile_append_dropWhile
          (p := fun c => c != delim && c != 0) (l := s.dropWhile (· == delim))
        rw [hrest] at hword
        refine ⟨(s.takeWhile (· == delim)).length,
          (s.dropWhile (· == delim)).takeWhile fun c => c != delim && c != 0, d, rest, ?_,
          ⟨?_, ?_, ?_⟩, ?_⟩
        · rw [← hlead, hword, hsplit]
        · rw [hbody, List.takeWhile_cons_of_pos (by simp [hc, hc0])]
          simp
        · intro hmem
          simpa using List.mem_takeWhile_imp hmem
        · intro hmem
          simpa using List.mem_takeWhile_imp hmem
        · have := List.head_dropWhile_not (fun c => c != delim && c != 0)
            (l := s.dropWhile (· == delim)) (by simp [hrest])
          simp only [hrest, List.head_cons, Bool.and_eq_false_iff, bne_eq_false_iff_eq] at this
          exact this

end Words

/-! ### What the tokeniser does to its text -/

/-- Delimiters of a text are overwritten with terminators. -/
def Cut (delim : UInt8) (s t : List UInt8) : Prop :=
  List.Forall₂ (fun a b => b = a ∨ a = delim ∧ b = 0) s t

theorem Cut.refl (delim : UInt8) (s : List UInt8) : Cut delim s s :=
  List.forall₂_same.mpr fun _ _ => .inl rfl

/-- The tokeniser cuts its text. -/
theorem cut_of_strtokR {atEnd : SaveAtEnd} {delim : UInt8} {s : List UInt8} {t : Token}
    (h : strtokR atEnd delim s = some (some t)) : Cut delim s t.text := by
  have hsplit := List.takeWhile_append_dropWhile (p := (· == delim)) (l := s)
  have hword := List.takeWhile_append_dropWhile
    (p := fun c => c != delim && c != 0) (l := s.dropWhile (· == delim))
  unfold strtokR at h
  simp only at h
  split at h
  · cases h
  split at h
  · cases h
  split at h
  · cases h
  next d rest hrest =>
  split at h
  · cases h
    exact .refl delim s
  · next hd =>
    cases h
    -- the only cell that is written was a delimiter
    have hdelim : d = delim := by
      have hnot := List.head_dropWhile_not (fun c => c != delim && c != 0)
        (l := s.dropWhile (· == delim)) (by simp [hrest])
      simpa [hrest, hd] using hnot
    have hs : s = s.takeWhile (· == delim) ++
        ((s.dropWhile (· == delim)).takeWhile (fun c => c != delim && c != 0) ++ d :: rest) := by
      rw [← hrest, hword, hsplit]
    conv => enter [2]; rw [hs]
    rw [List.append_assoc]
    exact List.rel_append (Cut.refl delim _) (List.rel_append (Cut.refl delim _)
      (.cons (.inr ⟨hdelim, rfl⟩) (Cut.refl delim rest)))

/-- What is compared with a text that has no delimiter in it may be cut before. -/
theorem Cut.strncmp_eq {delim : UInt8} : ∀ {s t u : List UInt8} {n : ℕ} {r : Bool}, Cut delim s t →
    delim ∉ u.take n → (0 : UInt8) ∉ u.take n → strncmp s u n = some r → strncmp t u n = some r := by
  intro s t u n r h
  induction h generalizing u n with
  | nil => exact fun _ _ h => h
  | @cons a b s t hab _ ih =>
    intro hdelim hnul h
    cases n with
    | zero => simpa [strncmp] using h
    | succ n =>
      cases u with
      | nil => simp [strncmp] at h
      | cons c u =>
        simp only [List.take_succ_cons, List.mem_cons, not_or] at hdelim hnul
        simp only [strncmp] at h ⊢
        rcases hab with rfl | ⟨rfl, rfl⟩
        · split at h
          · next hne => rw [if_pos hne]; exact h
          · next heq =>
            rw [if_neg heq]
            split at h
            · next hz => rw [if_pos hz]; exact h
            · next hz =>
              rw [if_neg hz]
              exact ih hdelim.2 hnul.2 h
        · -- the delimiter and the terminator both differ from the text
          rw [if_pos hdelim.1] at h
          rw [if_pos hnul.1]
          exact h

/-! ### Streams -/

/-- The bytes up to a newline, `n` at most, and what is left of the stream. -/
def takeLine : ℕ → List UInt8 → List UInt8 × List UInt8
  | 0, file => ([], file)
  | _ + 1, [] => ([], [])
  | n + 1, c :: file =>
      if c = 0x0a then ([c], file) else ((c :: (takeLine n file).1), (takeLine n file).2)

/-- `fgets(buf, n, fp)`: the text that is put in front of a terminator, and what is left of
the stream; `none` is the null pointer, at the end of the stream. -/
def fgets (n : ℕ) (file : List UInt8) : Option (List UInt8 × List UInt8) :=
  if n = 0 ∨ (1 < n ∧ file = []) then none else some (takeLine (n - 1) file)

/-- A line that fits is read to its end. -/
theorem takeLine_line {line : List UInt8} (hline : (0x0a : UInt8) ∉ line) (rest : List UInt8) :
    ∀ {n : ℕ}, line.length < n → takeLine n (line ++ 0x0a :: rest) = (line ++ [0x0a], rest) := by
  induction line with
  | nil =>
    intro n hn
    obtain ⟨n, rfl⟩ := Nat.exists_eq_add_of_lt hn
    simp [takeLine]
  | cons c line ih =>
    intro n hn
    obtain ⟨n, rfl⟩ : ∃ m, n = m + 1 := ⟨n - 1, by rw [List.length_cons] at hn; omega⟩
    simp only [List.mem_cons, not_or] at hline
    rw [List.length_cons, Nat.add_lt_add_iff_right] at hn
    rw [List.cons_append, takeLine, if_neg (Ne.symm hline.1), ih hline.2 hn]
    rfl

theorem fgets_line {line : List UInt8} (hline : (0x0a : UInt8) ∉ line) (rest : List UInt8) {n : ℕ}
    (hn : line.length + 1 < n) : fgets n (line ++ 0x0a :: rest) = some (line ++ [0x0a], rest) := by
  unfold fgets
  rw [if_neg (by simp; omega), takeLine_line hline rest (by omega)]

end CMem
