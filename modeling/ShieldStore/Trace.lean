import ShieldStore.Client
import ShieldStore.Lib.Lists
import ShieldStore.Lib.Pieces

/-!
# How a client divides the trace

`file_to_memory` moves on to the next thread whenever `set_count` is a multiple of
`inst_size / num_threads`, and the workers send that many lines each.  The quotient is
truncated: a remainder belongs to no thread.

## Main definitions

* `Cursor`, `placeOf` — the indices that the loop computes, as if `count` had a cell for
  every thread index.
* `Trace` — a trace with as many lines as the client reads.
* `Loaded` — the lines read so far are where their indices say.
* `Trace.SentOnce` — what the workers have to send together.

## Main results

* `trace_partition_iff` — the lines are divided among the threads exactly when the number
  of threads divides theirs.
* `Trace.fileToMemory_eq_none` — the loop leaves its arrays at the first line of a remainder.
* `clientWorker_requests` — the writes of a worker whose lines are requests.
-/

namespace ShieldStore

open CMem Pieces Lists

/-! ### The indices -/

/-- The variables that the place of a line is computed from. -/
structure Cursor where
  setCount : ℕ
  threadId : ℕ
  count : ℕ → ℕ

/-- The thread and the slot of the next line. -/
def Cursor.place (arg : ClientArg) (c : Cursor) : Option (ℕ × ℕ) :=
  (nextThread arg c.setCount c.threadId).map fun t => (t, c.count t)

/-- A turn of the loop. -/
def Cursor.step (arg : ClientArg) (c : Cursor) : Option Cursor :=
  (nextThread arg c.setCount c.threadId).map fun t =>
    ⟨c.setCount + 1, t, Function.update c.count t (c.count t + 1)⟩

/-- The variables after `i` turns. -/
def cursorAt (arg : ClientArg) : ℕ → Option Cursor
  | 0 => some ⟨0, 0, fun _ => 0⟩
  | i + 1 => (cursorAt arg i).bind (Cursor.step arg)

/-- The thread and the slot of the line `i`. -/
def placeOf (arg : ClientArg) (i : ℕ) : Option (ℕ × ℕ) := (cursorAt arg i).bind (Cursor.place arg)

/-- The thread and the slot that the loop computes from its own arrays; there is no slot
outside of `count`. -/
def Loader.place (arg : ClientArg) (st : Loader) : Option (ℕ × ℕ) := do
  let t ← nextThread arg st.setCount st.threadId
  let slot ← st.count[t]?
  return (t, slot)

/-- A thread gets `q` lines, one at least. -/
structure PerThread (arg : ClientArg) (q : ℕ) : Prop where
  eq : arg.instSize / arg.numThreads = q
  pos : 0 < q

theorem PerThread.of_le {arg : ClientArg} (hpos : 1 ≤ arg.numThreads)
    (hle : arg.numThreads ≤ arg.instSize) : PerThread arg (arg.instSize / arg.numThreads) :=
  ⟨rfl, Nat.div_pos hle hpos⟩

section Indices

variable {arg : ClientArg} {q : ℕ} (hq : PerThread arg q)

include hq

theorem PerThread.numThreads_pos : 0 < arg.numThreads := by
  rcases Nat.eq_zero_or_pos arg.numThreads with h0 | hpos
  · have hdiv := hq.eq
    rw [h0, Nat.div_zero] at hdiv
    exact absurd hdiv hq.pos.ne
  · exact hpos

theorem PerThread.natDiv_eq : natDiv arg.instSize arg.numThreads = some q := by
  rw [natDiv_of_pos hq.numThreads_pos, hq.eq]

/-- The test at the head of the loop turns the thread of the line before into the thread of
this one. -/
theorem PerThread.nextThread_eq (i : ℕ) : nextThread arg i ((i - 1) / q) = some (i / q) := by
  unfold nextThread
  rw [hq.natDiv_eq]
  simp only [Option.bind_eq_bind, Option.bind_some, natMod_of_pos hq.pos]
  rcases i with - | i
  · simp
  · rw [Nat.add_sub_cancel, Nat.succ_div]
    by_cases hdvd : q ∣ i + 1
    · simp [hdvd, Nat.mod_eq_zero_of_dvd hdvd]
    · simp [hdvd, mt Nat.dvd_of_mod_eq_zero hdvd]

/-- The count of a thread is the length of its piece of the lines so far. -/
theorem PerThread.cursorAt_eq (i : ℕ) :
    cursorAt arg i = some ⟨i, (i - 1) / q, fun t => (share q (List.range i) t).length⟩ := by
  induction i with
  | zero => simp [cursorAt, share_nil]
  | succ i ih =>
    rw [cursorAt, ih, Option.bind_some, Cursor.step, hq.nextThread_eq, Option.map_some,
      Nat.add_sub_cancel]
    congr 2
    funext t
    rw [List.range_succ, share_concat hq.pos, List.length_range, Function.update_apply]
    by_cases ht : t = i / q
    · rw [if_pos ht, if_pos ht, List.length_append, ← ht]
      rfl
    · rw [if_neg ht, if_neg ht]

/-- **The place of a line.** -/
theorem PerThread.placeOf_eq (i : ℕ) : placeOf arg i = some (i / q, i % q) := by
  have hslot := length_share_div hq.pos (List.range i)
  rw [List.length_range] at hslot
  rw [placeOf, hq.cursorAt_eq, Option.bind_some, Cursor.place, hq.nextThread_eq, Option.map_some]
  exact congrArg (fun slot => some (i / q, slot)) hslot

/-- **The places are inside of the arrays** exactly when the threads divide the lines. -/
theorem PerThread.places_inside_iff (hle : arg.numThreads ≤ arg.instSize) :
    (∀ i < arg.instSize, ∀ p, placeOf arg i = some p → p.1 < arg.numThreads ∧ p.2 < q) ↔
      arg.numThreads ∣ arg.instSize := by
  rw [← forall_div_lt_iff hq.numThreads_pos hle, hq.eq]
  constructor
  · intro h i hi
    exact (h i hi _ (hq.placeOf_eq i)).1
  · intro h i hi p hp
    rw [hq.placeOf_eq, Option.some.injEq] at hp
    rw [← hp]
    exact ⟨h i hi, Nat.mod_lt i hq.pos⟩

end Indices

/-! ### A turn of the loop -/

/-- What the row of a thread holds. -/
def rowOf (arg : ClientArg) (q : ℕ) (ms : List (List UInt8)) (t : ℕ) : List (List UInt8) :=
  share q ms t ++ List.replicate (q - (share q ms t).length) (malloc arg.maxBufSize)

/-- The buffers `ms` have been read, and every one is at its place. -/
structure Loaded (arg : ClientArg) (q : ℕ) (ms : List (List UInt8)) (st : Loader) : Prop where
  setCount : st.setCount = ms.length
  threadId : st.threadId = (ms.length - 1) / q
  count : st.count = (List.range arg.numThreads).map fun t => (share q ms t).length
  inst : st.inst = (List.range arg.numThreads).map (rowOf arg q ms)

section Turn

variable {arg : ClientArg} {q : ℕ} (hq : PerThread arg q)

include hq

theorem PerThread.loaded_start (file : List UInt8) : Loaded arg q [] (Loader.start arg file) where
  setCount := rfl
  threadId := (Nat.zero_div q).symm
  count := by simp [Loader.start, share_nil]
  inst := by
    have hrow : rowOf arg q [] = fun _ => List.replicate q (malloc arg.maxBufSize) := by
      funext t
      simp [rowOf, share_nil]
    simp [Loader.start, hrow, hq.eq]

/-- The slot of the next buffer is the first free one. -/
theorem PerThread.getElem?_rowOf (ms : List (List UInt8)) :
    (rowOf arg q ms (ms.length / q))[ms.length % q]? = some (malloc arg.maxBufSize) := by
  have hlen := length_share_div hq.pos ms
  have hlt := Nat.mod_lt ms.length hq.pos
  rw [rowOf, List.getElem?_append_right hlen.le, hlen, Nat.sub_self, List.getElem?_replicate,
    if_pos (by omega)]

/-- Filling it is what one more buffer makes of the row. -/
theorem PerThread.set_rowOf (ms : List (List UInt8)) (m : List UInt8) :
    (rowOf arg q ms (ms.length / q)).set (ms.length % q) m =
      rowOf arg q (ms ++ [m]) (ms.length / q) := by
  have hlen := length_share_div hq.pos ms
  have hlt := Nat.mod_lt ms.length hq.pos
  obtain ⟨k, hk⟩ : ∃ k, q - ms.length % q = k + 1 := ⟨q - ms.length % q - 1, by omega⟩
  rw [rowOf, rowOf, share_concat hq.pos, if_pos rfl, List.set_append_right _ _ hlen.le,
    List.length_append, List.length_singleton, hlen, Nat.sub_self, Nat.sub_add_eq, hk,
    List.replicate_succ, List.set_cons_zero, Nat.add_sub_cancel, List.append_assoc]
  rfl

theorem PerThread.rowOf_concat (ms : List (List UInt8)) (m : List UInt8) :
    rowOf arg q (ms ++ [m]) = Function.update (rowOf arg q ms) (ms.length / q)
      (rowOf arg q (ms ++ [m]) (ms.length / q)) := by
  funext t
  rw [Function.update_apply]
  by_cases ht : t = ms.length / q
  · rw [if_pos ht, ht]
  · rw [if_neg ht, rowOf, rowOf, share_concat hq.pos, if_neg ht]

theorem PerThread.lengths_concat (ms : List (List UInt8)) (m : List UInt8) :
    (fun t => (share q (ms ++ [m]) t).length) =
      Function.update (fun t => (share q ms t).length) (ms.length / q) (ms.length % q + 1) := by
  funext t
  rw [Function.update_apply, share_concat hq.pos]
  by_cases ht : t = ms.length / q
  · rw [if_pos ht, if_pos ht, ht, List.length_append, length_share_div hq.pos]
    rfl
  · rw [if_neg ht, if_neg ht]

variable {ms : List (List UInt8)} {st : Loader} (h : Loaded arg q ms st)

include h

theorem Loaded.nextThread_eq : nextThread arg st.setCount st.threadId = some (ms.length / q) := by
  rw [h.setCount, h.threadId, hq.nextThread_eq]

theorem Loaded.getElem?_count (hlt : ms.length / q < arg.numThreads) :
    st.count[ms.length / q]? = some (ms.length % q) := by
  rw [h.count, List.getElem?_map, List.getElem?_range hlt, Option.map_some,
    length_share_div hq.pos]

/-- The loop computes the place of the line from its arrays. -/
theorem Loaded.place_eq (hlt : ms.length / q < arg.numThreads) :
    st.place arg = placeOf arg ms.length := by
  unfold Loader.place
  rw [h.nextThread_eq hq, hq.placeOf_eq]
  simp only [Option.bind_eq_bind, Option.bind_some, h.getElem?_count hq hlt]
  rfl

/-- A buffer whose thread exists is stored at its place. -/
theorem Loaded.put_eq (hlt : ms.length / q < arg.numThreads) {m : List UInt8}
    (hm : m.length = arg.maxBufSize) :
    { st with threadId := ms.length / q }.put arg m = some
      { st with
        threadId := ms.length / q
        count := (List.range arg.numThreads).map fun t => (share q (ms ++ [m]) t).length
        inst := (List.range arg.numThreads).map (rowOf arg q (ms ++ [m])) } := by
  have hrow : st.inst[ms.length / q]? = some (rowOf arg q ms (ms.length / q)) := by
    rw [h.inst, List.getElem?_map, List.getElem?_range hlt, Option.map_some]
  unfold Loader.put
  simp only [Option.bind_eq_bind, Option.bind_some, h.getElem?_count hq hlt, hrow,
    hq.getElem?_rowOf, memcpy_copy hm, hq.set_rowOf]
  rw [h.count, h.inst, map_range_set, map_range_set, ← hq.lengths_concat ms m,
    ← hq.rowOf_concat ms m]
  rfl

/-- **A turn of the loop** whose thread exists stores the line. -/
theorem Loaded.exists_loadStep (hlt : ms.length / q < arg.numThreads) {m rest : List UInt8}
    (hread : readLine arg st.file = some (some (m, rest))) (hm : m.length = arg.maxBufSize) :
    ∃ st', loadStep arg st = some (some st') ∧ st'.file = rest ∧ Loaded arg q (ms ++ [m]) st' := by
  have hstep : loadStep arg st = some (some
      { file := rest
        setCount := st.setCount + 1
        threadId := ms.length / q
        count := (List.range arg.numThreads).map fun t => (share q (ms ++ [m]) t).length
        inst := (List.range arg.numThreads).map (rowOf arg q (ms ++ [m])) }) := by
    unfold loadStep
    simp only [Option.bind_eq_bind, Option.bind_some, h.nextThread_eq hq, hread,
      h.put_eq hq hlt hm]
    rfl
  refine ⟨_, hstep, rfl, ?_, ?_, rfl, rfl⟩
  · rw [h.setCount, List.length_append, List.length_singleton]
  · rw [List.length_append, List.length_singleton, Nat.add_sub_cancel]

/-- A turn whose thread does not exist reads outside of `count`. -/
theorem Loaded.loadStep_eq_none (hle : arg.numThreads ≤ ms.length / q) {m rest : List UInt8}
    (hread : readLine arg st.file = some (some (m, rest))) : loadStep arg st = none := by
  have hcount : st.count[ms.length / q]? = none := by
    rw [h.count, List.getElem?_eq_none]
    rw [List.length_map, List.length_range]
    exact hle
  unfold loadStep Loader.put
  simp only [Option.bind_eq_bind, Option.bind_some, Option.bind_none, h.nextThread_eq hq, hread,
    hcount]

end Turn

/-! ### The lines of a trace -/

/-- A line that a client can read: it is text, and with its newline it is shorter than the
buffer. -/
structure IsLine (arg : ClientArg) (line : List UInt8) : Prop where
  newline_notMem : (0x0a : UInt8) ∉ line
  nul_notMem : (0 : UInt8) ∉ line
  fits : line.length + 1 < arg.maxBufSize

instance (arg : ClientArg) (line : List UInt8) : Decidable (IsLine arg line) :=
  decidable_of_iff ((0x0a : UInt8) ∉ line ∧ (0 : UInt8) ∉ line ∧ line.length + 1 < arg.maxBufSize)
    ⟨fun ⟨h₁, h₂, h₃⟩ => ⟨h₁, h₂, h₃⟩, fun h => ⟨h.newline_notMem, h.nul_notMem, h.fits⟩⟩

/-- The message of a line. -/
def lineBuf (arg : ClientArg) (line : List UInt8) : List UInt8 :=
  line ++ List.replicate (arg.maxBufSize - line.length) 0

/-- The text of lines. -/
def unlines (lines : List (List UInt8)) : List UInt8 := lines.flatMap (· ++ [0x0a])

section Line

variable {arg : ClientArg} {line : List UInt8} (hline : IsLine arg line)

include hline

theorem IsLine.length_lineBuf : (lineBuf arg line).length = arg.maxBufSize := by
  have := hline.fits
  rw [lineBuf, List.length_append, List.length_replicate]
  omega

/-- The newline of the line is overwritten. -/
theorem IsLine.readLine_eq (rest : List UInt8) :
    readLine arg (line ++ 0x0a :: rest) = some (some (lineBuf arg line, rest)) := by
  have hfits := hline.fits
  obtain ⟨k, hk⟩ : ∃ k, arg.maxBufSize = line.length + 1 + (k + 1) :=
    ⟨arg.maxBufSize - line.length - 2, by omega⟩
  have hbuf : memcpy (List.replicate arg.maxBufSize (0 : UInt8)) 0 (line ++ [0x0a] ++ [0])
      ((line ++ [0x0a]).length + 1) = some (line ++ [0x0a] ++ 0 :: List.replicate k 0) := by
    rw [memcpy_eq_some_iff]
    refine ⟨⟨?_, ?_⟩, ?_⟩
    · simp; omega
    · simp
    · rw [hk]
      simp [List.take_of_length_le]
      omega
  have hnul : (0 : UInt8) ∉ line ++ [0x0a] := by
    simp [hline.nul_notMem]
  unfold readLine
  rw [fgets_line hline.newline_notMem rest hfits]
  simp only [Option.bind_eq_bind, Option.bind_some, hbuf, strlen_append_nul hnul]
  rw [if_neg (by simp)]
  -- the last cell of the string is the newline's
  have hcut : (line ++ [0x0a] ++ 0 :: List.replicate k 0).set ((line ++ [0x0a]).length - 1) 0 =
      lineBuf arg line := by
    rw [lineBuf, hk, List.append_assoc, List.set_append_right _ _ (by simp)]
    simp [List.replicate_succ, show line.length + 1 + (k + 1) - line.length = k + 1 + 1 by omega]
  rw [hcut]

/-- The worker sends the message as it is stored. -/
theorem IsLine.strncpy_eq : strncpy (lineBuf arg line) arg.maxBufSize = some (lineBuf arg line) := by
  have hfits := hline.fits
  obtain ⟨k, hk⟩ : ∃ k, arg.maxBufSize - line.length = k + 1 :=
    ⟨arg.maxBufSize - line.length - 1, by omega⟩
  have h := strncpy_append_nul hline.nul_notMem (List.replicate k 0)
    (show line.length < arg.maxBufSize by omega)
  rw [← List.replicate_succ, ← hk] at h
  exact h

end Line

/-! ### The loop -/

/-- A trace with the lines that the client reads, and perhaps more. -/
structure Trace (arg : ClientArg) where
  lines : List (List UInt8)
  rest : List UInt8
  length_lines : lines.length = arg.instSize
  isLine : ∀ line ∈ lines, IsLine arg line

def Trace.file {arg : ClientArg} (tr : Trace arg) : List UInt8 := unlines tr.lines ++ tr.rest

theorem loadLoop_succ {arg : ClientArg} {st st' : Loader} (h : loadStep arg st = some (some st'))
    (n : ℕ) : loadLoop arg (n + 1) st = loadLoop arg n st' := by
  rw [loadLoop, h]
  rfl

theorem loadLoop_add {arg : ClientArg} (n : ℕ) {st' : Loader} : ∀ {m : ℕ} {st : Loader},
    loadLoop arg m st = some (some st') → loadLoop arg (m + n) st = loadLoop arg n st' := by
  intro m
  induction m with
  | zero =>
    intro st h
    rw [loadLoop, Option.some.injEq, Option.some.injEq] at h
    rw [Nat.zero_add, h]
  | succ m ih =>
    intro st h
    rw [loadLoop, Option.bind_eq_bind, Option.bind_eq_some_iff] at h
    obtain ⟨r, hstep, h⟩ := h
    rcases r with - | st₁
    · cases h
    · rw [Nat.add_right_comm, loadLoop_succ hstep, ih h]

section Loop

variable {arg : ClientArg} {q : ℕ} (hq : PerThread arg q)

include hq

/-- **Lines that all have a place** are read and stored one after another. -/
theorem Loaded.exists_loadLoop {rest : List UInt8} : ∀ {lines ms : List (List UInt8)} {st : Loader},
    Loaded arg q ms st → (∀ line ∈ lines, IsLine arg line) → st.file = unlines lines ++ rest →
    ms.length + lines.length ≤ arg.numThreads * q →
    ∃ st', loadLoop arg lines.length st = some (some st') ∧ st'.file = rest ∧
      Loaded arg q (ms ++ lines.map (lineBuf arg)) st' := by
  intro lines
  induction lines with
  | nil =>
    intro ms st h _ hfile _
    refine ⟨st, rfl, hfile, ?_⟩
    rw [List.map_nil, List.append_nil]
    exact h
  | cons line lines ih =>
    intro ms st h hlines hfile hroom
    obtain ⟨hline, hlines⟩ := List.forall_mem_cons.mp hlines
    rw [List.length_cons] at hroom
    -- there is a thread for the next line
    have hlt : ms.length / q < arg.numThreads := by
      rw [Nat.div_lt_iff_lt_mul hq.pos]
      omega
    have hread : readLine arg st.file =
        some (some (lineBuf arg line, unlines lines ++ rest)) := by
      rw [hfile, unlines, List.flatMap_cons, List.append_assoc, List.append_assoc]
      exact hline.readLine_eq _
    obtain ⟨st₁, hstep, hfile₁, h₁⟩ := h.exists_loadStep hq hlt hread hline.length_lineBuf
    obtain ⟨st', hloop, hfile', h'⟩ := ih h₁ hlines hfile₁
      (by rw [List.length_append, List.length_singleton]; omega)
    refine ⟨st', ?_, hfile', ?_⟩
    · rw [List.length_cons, loadLoop_succ hstep, hloop]
    · rw [List.append_assoc] at h'
      exact h'

/-- The first lines of a trace, as long as there are threads for them. -/
theorem Trace.exists_loaded (tr : Trace arg) {i : ℕ} (hi : i ≤ arg.instSize)
    (hroom : i ≤ arg.numThreads * q) :
    ∃ st, loadLoop arg i (Loader.start arg tr.file) = some (some st) ∧
      st.file = unlines (tr.lines.drop i) ++ tr.rest ∧
      Loaded arg q ((tr.lines.take i).map (lineBuf arg)) st := by
  have hlen : (tr.lines.take i).length = i := by
    rw [List.length_take, tr.length_lines]
    omega
  have hfile : (Loader.start arg tr.file).file =
      unlines (tr.lines.take i) ++ (unlines (tr.lines.drop i) ++ tr.rest) := by
    rw [← List.append_assoc, unlines, unlines, ← List.flatMap_append, List.take_append_drop]
    rfl
  have h := Loaded.exists_loadLoop hq (hq.loaded_start tr.file)
    (fun line hline => tr.isLine line (List.mem_of_mem_take hline)) hfile
    (by rw [hlen, List.length_nil, Nat.zero_add]; exact hroom)
  rw [hlen] at h
  exact h

/-- **A remainder** has no thread: the loop leaves its arrays at the first of these lines. -/
theorem Trace.fileToMemory_eq_none (tr : Trace arg) (hlt : arg.numThreads * q < arg.instSize) :
    fileToMemory arg tr.file = none := by
  obtain ⟨st, hloop, hfile, h⟩ := tr.exists_loaded hq hlt.le le_rfl
  obtain ⟨r, hr⟩ := Nat.exists_eq_add_of_lt hlt
  have hdrop : arg.numThreads * q < tr.lines.length := by
    rw [tr.length_lines]
    exact hlt
  have hread : readLine arg st.file = some (some (lineBuf arg tr.lines[arg.numThreads * q],
      unlines (tr.lines.drop (arg.numThreads * q + 1)) ++ tr.rest)) := by
    rw [hfile, List.drop_eq_getElem_cons hdrop, unlines, List.flatMap_cons, List.append_assoc,
      List.append_assoc]
    exact (tr.isLine _ (List.getElem_mem hdrop)).readLine_eq _
  -- the first line that is left over falls to a thread behind the last
  have hthread : ((tr.lines.take (arg.numThreads * q)).map (lineBuf arg)).length / q =
      arg.numThreads := by
    rw [List.length_map, List.length_take, Nat.min_eq_left hdrop.le, Nat.mul_div_cancel _ hq.pos]
  have hstep : loadStep arg st = none := h.loadStep_eq_none hq hthread.ge hread
  rw [fileToMemory, hr, Nat.add_assoc, loadLoop_add _ hloop, loadLoop, hstep]
  rfl

end Loop

/-! ### The workers -/

/-- The message of a line of the trace. -/
def Trace.message {arg : ClientArg} (tr : Trace arg) (i : ℕ) : List UInt8 :=
  lineBuf arg (tr.lines[i]?.getD [])

/-- Every line is sent once by one of the threads, and every thread keeps their order: the
threads send the lines at the given indices. -/
def Trace.SentOnce {arg : ClientArg} (tr : Trace arg) (sent : List (List (List UInt8))) : Prop :=
  ∃ idx : List (List ℕ), idx.flatten.Perm (List.range arg.instSize) ∧
    (∀ is ∈ idx, is.Pairwise (· < ·)) ∧ sent = idx.map (List.map tr.message)

theorem Trace.map_message {arg : ClientArg} (tr : Trace arg) :
    (List.range arg.instSize).map tr.message = tr.lines.map (lineBuf arg) := by
  apply List.ext_getElem?
  intro i
  rw [List.getElem?_map, List.getElem?_map]
  by_cases hi : i < arg.instSize
  · rw [List.getElem?_range hi, List.getElem?_eq_getElem (by rw [tr.length_lines]; exact hi),
      Option.map_some, Option.map_some, Trace.message,
      List.getElem?_eq_getElem (by rw [tr.length_lines]; exact hi), Option.getD_some]
  · rw [List.getElem?_eq_none (by rw [List.length_range]; omega),
      List.getElem?_eq_none (by rw [tr.length_lines]; omega)]
    rfl

theorem Trace.sentOnce_shares {arg : ClientArg} {q : ℕ} (tr : Trace arg)
    (hdvd : arg.numThreads * q = arg.instSize) :
    tr.SentOnce ((List.range arg.numThreads).map (share q (tr.lines.map (lineBuf arg)))) := by
  refine ⟨(List.range arg.numThreads).map (share q (List.range arg.instSize)), ?_, ?_, ?_⟩
  · rw [← List.flatMap_def, flatMap_share, hdvd, List.take_of_length_le (by simp)]
  · intro is his
    obtain ⟨t, -, rfl⟩ := List.mem_map.mp his
    exact List.pairwise_lt_range.sublist (share_sublist q _ t)
  · rw [List.map_map, ← tr.map_message]
    refine List.map_congr_left fun t _ => ?_
    exact share_map tr.message q _ t

section Workers

variable {arg : ClientArg} {q : ℕ} (hq : PerThread arg q)

include hq

theorem PerThread.length_clientLoop {inst : List (List (List UInt8))} {t : ℕ}
    {sent : List (List UInt8)} (h : clientLoop arg inst t = some sent) : sent.length = q := by
  rw [clientLoop, hq.natDiv_eq, Option.bind_eq_bind, Option.bind_some] at h
  rw [← (forall₂_of_mapM h).length_eq, List.length_range]

/-- **The workers cannot send a remainder**, whatever has been stored. -/
theorem Trace.SentOnce.dvd {tr : Trace arg} {inst sent : List (List (List UInt8))}
    (hsent : (List.range arg.numThreads).mapM (clientLoop arg inst) = some sent)
    (h : tr.SentOnce sent) : arg.numThreads ∣ arg.instSize := by
  obtain ⟨idx, hperm, -, rfl⟩ := h
  have hlen := length_flatten_of_forall₂ hq.length_clientLoop (forall₂_of_mapM hsent)
  rw [← List.map_flatten, List.length_map, hperm.length_eq, List.length_range,
    List.length_range] at hlen
  exact ⟨q, hlen⟩

/-- A worker sends its row. -/
theorem Loaded.clientLoop_eq {ms : List (List UInt8)} {st : Loader} (h : Loaded arg q ms st)
    (hfull : arg.numThreads * q ≤ ms.length)
    (hms : ∀ m ∈ ms, strncpy m arg.maxBufSize = some m) {t : ℕ} (ht : t < arg.numThreads) :
    clientLoop arg st.inst t = some (share q ms t) := by
  have hlen : (share q ms t).length = q :=
    length_share_of_lt ((Nat.mul_le_mul_right q ht).trans hfull)
  have hrow : st.inst[t]? = some (share q ms t) := by
    rw [h.inst, List.getElem?_map, List.getElem?_range ht, Option.map_some, rowOf, hlen,
      Nat.sub_self, List.replicate_zero, List.append_nil]
  -- every cell is a line, which the copy to the message does not change
  have hcell : ∀ i ∈ List.range q, (do
      let row ← st.inst[t]?
      let cell ← row[i]?
      strncpy cell arg.maxBufSize) = pure ((share q ms t)[i]?.getD []) := by
    intro i hi
    have hi' : i < (share q ms t).length := by
      rw [hlen]
      exact List.mem_range.mp hi
    simp only [Option.bind_eq_bind, Option.bind_some, hrow, List.getElem?_eq_getElem hi',
      Option.getD_some]
    exact hms _ ((share_sublist q ms t).subset (List.getElem_mem hi'))
  unfold clientLoop
  rw [hq.natDiv_eq, Option.bind_eq_bind, Option.bind_some, mapM_congr hcell, List.mapM_pure]
  congr 1
  apply List.ext_getElem?
  intro i
  grind

/-- Without a remainder, every thread sends its piece of the lines. -/
theorem Trace.exists_fileToMemory (tr : Trace arg) (hdvd : arg.numThreads * q = arg.instSize) :
    ∃ st, fileToMemory arg tr.file = some (some st) ∧ ∀ t < arg.numThreads,
      clientLoop arg st.inst t = some (share q (tr.lines.map (lineBuf arg)) t) := by
  obtain ⟨st, hloop, -, h⟩ := tr.exists_loaded hq le_rfl hdvd.ge
  rw [List.take_of_length_le tr.length_lines.le] at h
  refine ⟨st, hloop, fun t ht => h.clientLoop_eq hq ?_ ?_ ht⟩
  · rw [List.length_map, tr.length_lines, hdvd]
  · intro m hm
    obtain ⟨line, hline, rfl⟩ := List.mem_map.mp hm
    exact (tr.isLine line hline).strncpy_eq

/-- **The lines are all sent** exactly when the threads divide them. -/
theorem Trace.sent_iff (tr : Trace arg) :
    (∃ st sent, fileToMemory arg tr.file = some (some st) ∧
      (List.range arg.numThreads).mapM (clientLoop arg st.inst) = some sent ∧ tr.SentOnce sent) ↔
      arg.numThreads ∣ arg.instSize := by
  constructor
  -- the pieces are of one length, and together as many as the lines
  · rintro ⟨st, sent, -, hsent, honce⟩
    exact honce.dvd hq hsent
  · intro hdvd
    have hmul : arg.numThreads * q = arg.instSize := by rw [← hq.eq, Nat.mul_div_cancel' hdvd]
    obtain ⟨st, hfile, hloop⟩ := tr.exists_fileToMemory hq hmul
    refine ⟨st, _, hfile, ?_, tr.sentOnce_shares hmul⟩
    rw [mapM_congr fun t ht => hloop t (List.mem_range.mp ht)]
    exact List.mapM_pure

end Workers

/-! ### The division of the trace -/

/-- **Client trace partition.**  For the line `i`, `file_to_memory` computes the thread
`i / (N / T)` and the slot `i mod (N / T)`, and takes them as long as there is such a
thread; all the threads and slots exist, and the workers together send every line once and
in order, exactly when the number of threads divides the number of lines. -/
theorem trace_partition_iff {arg : ClientArg} (tr : Trace arg) (hpos : 1 ≤ arg.numThreads)
    (hle : arg.numThreads ≤ arg.instSize) :
    (∀ i < arg.instSize,
      placeOf arg i = some (i / (arg.instSize / arg.numThreads),
        i % (arg.instSize / arg.numThreads)) ∧
      (i / (arg.instSize / arg.numThreads) < arg.numThreads →
        ∃ st, loadLoop arg i (Loader.start arg tr.file) = some (some st) ∧
          st.place arg = placeOf arg i)) ∧
    (((∀ i < arg.instSize, ∀ p, placeOf arg i = some p →
        p.1 < arg.numThreads ∧ p.2 < arg.instSize / arg.numThreads) ∧
      ∃ st sent, fileToMemory arg tr.file = some (some st) ∧
        (List.range arg.numThreads).mapM (clientLoop arg st.inst) = some sent ∧
        tr.SentOnce sent) ↔
      arg.numThreads ∣ arg.instSize) := by
  have hq := PerThread.of_le hpos hle
  refine ⟨fun i hi => ⟨hq.placeOf_eq i, fun hlt => ?_⟩, ?_⟩
  · rw [Nat.div_lt_iff_lt_mul hq.pos] at hlt
    obtain ⟨st, hloop, -, h⟩ := tr.exists_loaded hq hi.le hlt.le
    have hlen : ((tr.lines.take i).map (lineBuf arg)).length = i := by
      rw [List.length_map, List.length_take, tr.length_lines]
      omega
    have hplace := h.place_eq hq
    rw [hlen, Nat.div_lt_iff_lt_mul hq.pos] at hplace
    exact ⟨st, hloop, hplace hlt⟩
  · rw [hq.places_inside_iff hle, tr.sent_iff hq, and_self_iff]

/-- Four lines for two threads. -/
theorem trace_partition_iff_four :
    ∃ tr : Trace ⟨2, 16, 4⟩, tr.lines = [[0x61], [], [0x62], [0x61]] ∧
      ∃ st sent, fileToMemory ⟨2, 16, 4⟩ tr.file = some (some st) ∧
        (List.range 2).mapM (clientLoop ⟨2, 16, 4⟩ st.inst) = some sent ∧ tr.SentOnce sent := by
  obtain ⟨tr, htr⟩ : ∃ tr : Trace ⟨2, 16, 4⟩, tr.lines = [[0x61], [], [0x62], [0x61]] :=
    ⟨⟨[[0x61], [], [0x62], [0x61]], [], rfl, by decide⟩, rfl⟩
  have hiff := (trace_partition_iff tr (by decide) (by decide)).2
  exact ⟨tr, htr, (hiff.mpr (by decide)).2⟩

/-! ### Requests -/

/-- **The requests of a trace.**  Each worker writes the messages of its piece of the
requests, one after another, and takes its leave. -/
theorem clientWorker_requests {arg : ClientArg} {q : ℕ} (hq : PerThread arg q) (tr : Trace arg)
    (hdvd : arg.numThreads * q = arg.instSize) {server : Arg}
    (hbuf : server.maxBufSize = arg.maxBufSize) {qs : List Req} (hqs : tr.lines = qs.map Req.text)
    (bye : Goodbye) :
    ∃ st, fileToMemory arg tr.file = some (some st) ∧ ∀ t < arg.numThreads,
      clientWorker arg bye st.inst t =
        some ((share q qs t).map (Req.buf server) ++ [bye.write]) := by
  obtain ⟨st, hfile, hloop⟩ := tr.exists_fileToMemory hq hdvd
  refine ⟨st, hfile, fun t ht => ?_⟩
  have hmap : tr.lines.map (lineBuf arg) = qs.map (Req.buf server) := by
    rw [hqs, List.map_map]
    refine List.map_congr_left fun q _ => ?_
    rw [Req.buf, hbuf]
    rfl
  rw [clientWorker, hloop t ht, hmap, share_map]
  rfl

end ShieldStore
