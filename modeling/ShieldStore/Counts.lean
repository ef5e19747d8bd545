import ShieldStore.Misses

/-!
# Counts from untrusted memory, in bytes

With MAC bucketing, the lists of MACs are allocated and copied by counts that stand in
untrusted memory: an `int` for every bucket, and the position in a chain.  The model of
the other modules copies whole MACs and counts without a limit.  Here the same code is
followed in bytes and in `int` arithmetic, where an overflow is undefined, a negative
length is a huge one, and every copy has to stay inside of the two objects.

The two agree as long as every size is a number of slots, the list takes fewer than
`2 ^ 31` bytes and the position lies inside of what is counted; nothing in the code
makes sure of any of the three.

## Main definitions

* `chainMacBytes` — what `get_chain_mac` collects.
* `rebuildBytes` — what `enclave_rebuild_tree_root` counts and collects.
* `CountsOk` — sizes and a position that do not lead out of the buffers.

## Main results

* `chainMacBytes_eq_some_iff`, `CountsOk.rebuildBytes_eq` — the bytes are those of the
  lists of MACs.
* `counts_inside_iff` — when the copies and the index stay inside.
-/

namespace ShieldStore

open Bytes CMem

/-! ### The code in bytes -/

/-- `MACbuf_enclave->entry[index].mac`: thirty MACs in a row. -/
def MacEntry.bytes (e : MacEntry) : List UInt8 := e.mac.toList.flatMap blockBytes

/-- A round of the loop that copies: `aggregate_mac` and `aggregate_mac_idx`. -/
def copyMacBytes (acc : List UInt8 × ℤ) (e : MacEntry) : Option (List UInt8 × ℤ) := do
  let len ← intT (macSize * e.size)
  let off ← sizeT acc.2
  let n ← sizeT len
  let aggregateMac ← memcpy acc.1 off e.bytes n
  let aggregateMacIdx ← intT (acc.2 + len)
  return (aggregateMac, aggregateMacIdx)

/-- `aggregate_mac`, allocated for `count` MACs and filled from the buffers. -/
def collectBytes (count : ℤ) (es : List MacEntry) : Option (List UInt8) := do
  let len ← intT (macSize * count)
  let n ← sizeT len
  let (aggregateMac, _) ← es.foldlM copyMacBytes (malloc n, 0)
  return aggregateMac

/-- The message of the CMAC in `get_chain_mac`. -/
def chainMacBytes (arg : Arg) (s : Store) (hashVal : ℕ) : Option (List UInt8) := do
  let es ← groupMacBufs arg s hashVal
  let count ← intSum MacEntry.size 0 es
  collectBytes count es

/-- A round of the loop that counts in `enclave_rebuild_tree_root`: `total_mac_count` and
`updated_idx`. -/
def countMacs (hashVal kvPos : ℕ) (isInsert : Bool) (acc : ℤ × ℤ) (p : ℕ × MacEntry) :
    Option (ℤ × ℤ) := do
  let updatedIdx ←
    if p.1 = hashVal then
      if isInsert then intT (acc.1 + kvPos)
      else do
        let d ← intT (p.2.size - kvPos)
        let d ← intT (d - 1)
        intT (acc.1 + d)
    else pure acc.2
  let totalMacCount ← intT (acc.1 + p.2.size)
  return (totalMacCount, updatedIdx)

/-- `prev_aggregate_mac`; null for the first entry of a group. -/
def prevAggregateBytes (aggregateMac : List UInt8) (totalMacCount updatedIdx : ℤ) (isInsert : Bool)
    (prevMac : Block) : Option (Option (List UInt8)) := do
  if isInsert then
    if totalMacCount > 1 then
      let count ← intT (totalMacCount - 1)
      let len ← intT (macSize * count)
      let n ← sizeT len
      let off ← intT (updatedIdx * macSize)
      let off ← sizeT off
      let prev ← memcpy (malloc n) 0 aggregateMac off
      let next ← intT (updatedIdx + 1)
      let src ← intT (next * macSize)
      let src ← sizeT src
      let count ← intT (totalMacCount - updatedIdx)
      let count ← intT (count - 1)
      let rest ← intT (count * macSize)
      let rest ← sizeT rest
      let prev ← memcpy prev off (aggregateMac.drop src) rest
      return some prev
    else
      return none
  else
    let len ← intT (macSize * totalMacCount)
    let n ← sizeT len
    let prev ← memcpy (malloc n) 0 aggregateMac n
    let off ← intT (updatedIdx * macSize)
    let off ← sizeT off
    let prev ← memcpy prev off (blockBytes prevMac) macSize
    return some prev

/-- What `enclave_rebuild_tree_root` has counted and collected before it computes the
CMACs. -/
structure Rebuilt where
  totalMacCount : ℤ
  updatedIdx : ℤ
  aggregateMac : List UInt8
  prevAggregateMac : Option (List UInt8)
  deriving DecidableEq

/-- The counts and copies of `enclave_rebuild_tree_root`. -/
def rebuildBytes (arg : Arg) (s : Store) (hashVal kvPos : ℕ) (isInsert : Bool) (prevMac : Block) :
    Option Rebuilt := do
  let es ← groupMacBufs arg s hashVal
  let (totalMacCount, updatedIdx) ←
    ((groupRange arg hashVal).zip es).foldlM (countMacs hashVal kvPos isInsert) (0, -1)
  let aggregateMac ← collectBytes totalMacCount es
  let prevAggregateMac ←
    prevAggregateBytes aggregateMac totalMacCount updatedIdx isInsert prevMac
  return ⟨totalMacCount, updatedIdx, aggregateMac, prevAggregateMac⟩

/-! ### Copies in bytes and in MACs -/

theorem natCast_macSize : ((macSize : ℕ) : ℤ) = 16 := rfl

theorem sizeT_mul_natCast (n : ℕ) : sizeT (16 * (n : ℤ)) = some (16 * n) :=
  sizeT_eq_some_iff.mpr (by push_cast; rfl)

/-- The bytes of a list of MACs. -/
def macsBytes (macs : List Block) : List UInt8 := macs.flatMap blockBytes

@[simp] theorem length_macsBytes (macs : List Block) : (macsBytes macs).length = 16 * macs.length :=
  length_flatMap_of_width length_blockBytes macs

theorem memcpy_macsBytes (dst src : List Block) (off n : ℕ) :
    memcpy (macsBytes dst) (16 * off) (macsBytes src) (16 * n) =
      (memcpy dst off src n).map macsBytes :=
  memcpy_flatMap (by decide) length_blockBytes dst src off n

theorem malloc_macsBytes (n : ℕ) : (malloc (16 * n) : List UInt8) = macsBytes (malloc n) := by
  have hblock : blockBytes (default : Block) = List.replicate 16 default := by decide
  unfold macsBytes malloc
  induction n with
  | zero => rfl
  | succ n ih =>
    rw [Nat.mul_succ, Nat.add_comm, List.replicate_add, ih, ← hblock]
    rfl

/-- The state of the loop that copies, in bytes. -/
def inBytes (acc : List Block × ℕ) : List UInt8 × ℤ := (macsBytes acc.1, 16 * acc.2)

/-- A round in bytes is a round in MACs, while the list is short enough for an `int`. -/
theorem copyMacBytes_inBytes {acc : List Block × ℕ} (h : 16 * acc.1.length < 2 ^ 31)
    (e : MacEntry) : copyMacBytes (inBytes acc) e = (copyMacs acc e).map inBytes := by
  obtain ⟨c, k⟩ := acc
  dsimp only at h
  unfold copyMacBytes copyMacs inBytes
  simp only [natCast_macSize, sizeT_mul_natCast, Option.bind_eq_bind, Option.bind_some, Option.pure_def]
  by_cases hneg : e.size < 0
  · -- a negative size is too long for either copy
    have hnone : sizeT e.size = none := if_neg (by omega)
    have hnone' : sizeT (16 * e.size) = none := if_neg (by omega)
    rw [hnone]
    cases hlen : intT (16 * e.size) with
    | none => rfl
    | some len =>
      obtain ⟨-, rfl⟩ := intT_eq_some_iff.mp hlen
      rw [Option.bind_some, hnone']
      rfl
  · obtain ⟨n, hn⟩ := Int.eq_ofNat_of_zero_le (not_lt.mp hneg)
    have hcopy : memcpy (macsBytes c) (16 * k) e.bytes (16 * n) =
        (memcpy c k e.mac.toList n).map macsBytes := memcpy_macsBytes c e.mac.toList k n
    rw [hn, sizeT_natCast, Option.bind_some]
    -- a copy that fits has lengths that an `int` holds; one that does not fails in both
    cases hmem : memcpy c k e.mac.toList n with
    | none =>
      rw [hmem, Option.map_none] at hcopy
      cases hlen : intT (16 * (n : ℤ)) with
      | none => rfl
      | some len =>
        obtain ⟨-, rfl⟩ := intT_eq_some_iff.mp hlen
        rw [Option.bind_some, sizeT_mul_natCast, Option.bind_some, hcopy]
        rfl
    | some c' =>
      have hle := (memcpy_eq_some_iff.mp hmem).1.1
      have hlen : intT (16 * (n : ℤ)) = some (16 * (n : ℤ)) := intT_of_lt (by omega) (by omega)
      have hidx : intT (16 * (k : ℤ) + 16 * (n : ℤ)) = some (16 * ((k + n : ℕ) : ℤ)) := by
        rw [intT_of_lt (by omega) (by omega)]
        exact congrArg some (by push_cast; ring)
      rw [hmem, Option.map_some] at hcopy
      rw [hlen, Option.bind_some, sizeT_mul_natCast, Option.bind_some, hcopy, Option.bind_some, hidx]
      rfl

/-- The loop in bytes is the loop in MACs. -/
theorem foldlM_copyMacBytes (es : List MacEntry) : ∀ {acc : List Block × ℕ},
    16 * acc.1.length < 2 ^ 31 →
      es.foldlM copyMacBytes (inBytes acc) = (es.foldlM copyMacs acc).map inBytes := by
  induction es with
  | nil => intro acc _; rfl
  | cons e es ih =>
    intro acc h
    rw [List.foldlM_cons, List.foldlM_cons, copyMacBytes_inBytes h]
    cases hcopy : copyMacs acc e with
    | none => rfl
    | some acc' =>
      -- the buffer that is copied into keeps its length
      have hlen : acc'.1.length = acc.1.length := by
        unfold copyMacs at hcopy
        simp only [Option.bind_eq_bind, Option.bind_eq_some_iff, Option.pure_def,
          Option.some.injEq] at hcopy
        obtain ⟨n, -, c, hc, rfl⟩ := hcopy
        exact length_memcpy hc
      exact ih (by rw [hlen]; exact h)

/-- The list in bytes is the list of MACs, if it takes fewer bytes than an `int` counts. -/
theorem collectBytes_eq {es : List MacEntry} (h : 16 * (es.map (·.size)).sum < 2 ^ 31) :
    collectBytes (es.map (·.size)).sum es = (aggregateMacBufs es).map macsBytes := by
  unfold collectBytes aggregateMacBufs
  simp only [natCast_macSize, Option.bind_eq_bind, Option.pure_def]
  generalize (es.map (·.size)).sum = count at h
  -- a negative count allocates nothing that there is
  by_cases hneg : count < 0
  · have hnone : sizeT count = none := if_neg (by omega)
    have hnone' : sizeT (16 * count) = none := if_neg (by omega)
    rw [hnone]
    cases hlen : intT (16 * count) with
    | none => rfl
    | some len =>
      obtain ⟨-, rfl⟩ := intT_eq_some_iff.mp hlen
      rw [Option.bind_some, hnone']
      rfl
  · obtain ⟨n, rfl⟩ := Int.eq_ofNat_of_zero_le (not_lt.mp hneg)
    rw [intT_of_lt (by omega) h, Option.bind_some, sizeT_mul_natCast, Option.bind_some, sizeT_natCast,
      Option.bind_some, malloc_macsBytes]
    have hfold := @foldlM_copyMacBytes es (malloc n, 0) (by rw [length_malloc]; omega)
    have hstart : (macsBytes (malloc n), (0 : ℤ)) = inBytes (malloc n, 0) := rfl
    rw [hstart, hfold]
    cases es.foldlM copyMacs (malloc n, 0) <;> rfl

theorem lt_of_collectBytes {count : ℤ} {es : List MacEntry} {bytes : List UInt8}
    (h : collectBytes count es = some bytes) : 16 * count < 2 ^ 31 := by
  unfold collectBytes at h
  obtain ⟨len, hlen, -⟩ := Option.bind_eq_some_iff.mp h
  exact (intT_eq_some_iff.mp hlen).1.2

/-! ### What `get_chain_mac` collects -/

section Group

variable {arg : Arg} {s : Store} {b : ℕ} (ha : arg.Valid) (hs : s.Shaped arg)
  (hb : b < arg.bucketSize) (hopt : arg.macOpt = true)

include ha hs hb hopt

omit ha hs hb in
theorem sum_size_group :
    (((groupRange arg b).map s.buf).map (·.size)).sum = totalMacCount arg s b := by
  unfold totalMacCount macCount
  simp only [hopt, if_true, List.map_map]
  rfl

theorem collectBytes_group_eq_some_iff {bytes : List UInt8} :
    collectBytes (totalMacCount arg s b) ((groupRange arg b).map s.buf) = some bytes ↔
      BufsInRange arg s b ∧ 16 * totalMacCount arg s b < 2 ^ 31 ∧
        bytes = macsBytes (groupMacs arg s b) := by
  have htotal := (sum_size_group (s := s) (b := b) hopt).symm
  have hagg : aggregateMac arg s b = aggregateMacBufs ((groupRange arg b).map s.buf) := by
    unfold aggregateMac
    rw [if_pos hopt, groupMacBufs_eq hs ha hb, Option.bind_some]
  constructor
  · intro h
    -- the allocation itself shows that the bytes can be counted
    have hlt := lt_of_collectBytes h
    rw [htotal] at h hlt
    rw [collectBytes_eq hlt, ← hagg, Option.map_eq_some_iff] at h
    obtain ⟨agg, hsome, rfl⟩ := h
    have hrange := bufsInRange_of_aggregateMac ha hs hb hsome
    rw [aggregateMac_eq ha hs hb hrange, Option.some.injEq] at hsome
    exact ⟨hrange, htotal ▸ hlt, by rw [hsome]⟩
  · rintro ⟨hrange, hlt, rfl⟩
    rw [htotal] at hlt ⊢
    rw [collectBytes_eq hlt, ← hagg, aggregateMac_eq ha hs hb hrange, Option.map_some]

/-- **`get_chain_mac` in bytes.**  It collects the MACs of the group if every size is a number
of slots and the list is short enough, and leaves its buffers otherwise. -/
theorem chainMacBytes_eq_some_iff {bytes : List UInt8} : chainMacBytes arg s b = some bytes ↔
    BufsInRange arg s b ∧ 16 * totalMacCount arg s b < 2 ^ 31 ∧
      bytes = macsBytes (groupMacs arg s b) := by
  have htotal := sum_size_group (s := s) (b := b) hopt
  unfold chainMacBytes
  rw [groupMacBufs_eq hs ha hb]
  simp only [Option.bind_eq_bind, Option.bind_some, Option.bind_eq_some_iff]
  rw [← collectBytes_group_eq_some_iff ha hs hb hopt]
  constructor
  · rintro ⟨count, hcount, h⟩
    -- a sum that does not overflow is the sum
    have heq := intSum_eq_some hcount
    rw [zero_add, htotal] at heq
    rwa [heq] at h
  · intro h
    obtain ⟨hrange, hlt, -⟩ := (collectBytes_group_eq_some_iff ha hs hb hopt).mp h
    refine ⟨_, intSum_of_nonneg ?_ le_rfl ?_, ?_⟩
    · intro e he
      obtain ⟨i, hi, rfl⟩ := List.mem_map.mp he
      exact (hrange hopt i hi).1
    · rw [zero_add, htotal]
      omega
    · rwa [zero_add, htotal]

/-! ### What `enclave_rebuild_tree_root` counts -/

omit ha hs hb hopt in
/-- Rounds at other buckets only count. -/
theorem foldlM_countMacs_of_notMem (s : Store) {kvPos : ℕ} {isInsert : Bool} {l : List ℕ} (hl : b ∉ l) :
    ∀ (total idx : ℤ), l.foldlM (fun acc i => countMacs b kvPos isInsert acc (i, s.buf i)) (total, idx) =
      (intSum (fun i => (s.buf i).size) total l).map fun total => (total, idx) := by
  induction l with
  | nil => intro total idx; rfl
  | cons i l ih =>
    intro total idx
    have hi : i ≠ b := fun h => hl (by simp [h])
    rw [List.foldlM_cons, intSum_cons]
    unfold countMacs
    simp only [hi, if_false, Option.bind_eq_bind, Option.pure_def, Option.bind_some]
    cases hint : intT (total + (s.buf i).size) with
    | none => rfl
    | some total' =>
      simp only [Option.bind_some]
      exact ih (fun h => hl (by simp [h])) total' idx

/-- The index of the written MAC, as it is counted. -/
def writtenIdx (arg : Arg) (s : Store) (b kvPos : ℕ) (isInsert : Bool) : ℤ :=
  prevMacCount arg s b + if isInsert then (kvPos : ℤ) else (s.buf b).size - kvPos - 1

omit ha hs hb hopt in
/-- The round at the bucket itself. -/
theorem countMacs_self {kvPos : ℕ} {isInsert : Bool} {total idx total' idx' : ℤ} {e : MacEntry}
    (h : countMacs b kvPos isInsert (total, idx) (b, e) = some (total', idx')) :
    total' = total + e.size ∧ idx' = total + if isInsert then (kvPos : ℤ) else e.size - kvPos - 1 := by
  unfold countMacs at h
  cases isInsert with
  | true =>
    simp only [if_true, Option.bind_eq_bind, Option.bind_eq_some_iff, Option.pure_def,
      Option.some.injEq, Prod.mk.injEq] at h
    obtain ⟨u, hu, t, ht, rfl, rfl⟩ := h
    exact ⟨(intT_eq_some_iff.mp ht).2.symm, (intT_eq_some_iff.mp hu).2.symm⟩
  | false =>
    simp only [Bool.false_eq_true, if_true, if_false, Option.bind_eq_bind, Option.bind_eq_some_iff,
      Option.pure_def, Option.some.injEq, Prod.mk.injEq] at h
    obtain ⟨d, hd, d', hd', u, hu, t, ht, rfl, rfl⟩ := h
    obtain ⟨-, rfl⟩ := intT_eq_some_iff.mp hd
    obtain ⟨-, rfl⟩ := intT_eq_some_iff.mp hd'
    exact ⟨(intT_eq_some_iff.mp ht).2.symm, (intT_eq_some_iff.mp hu).2.symm⟩

omit hs hb in
theorem totalMacCount_split : totalMacCount arg s b = prevMacCount arg s b + (s.buf b).size +
    ((List.range' (b + 1) (startIndex arg b + arg.ratio - b - 1)).map fun i => (s.buf i).size).sum := by
  unfold totalMacCount prevMacCount macCount
  simp only [hopt, if_true]
  rw [ha.groupRange_split b, List.map_append, List.map_cons, List.sum_append, List.sum_cons, add_assoc]

omit ha hs hb in
theorem prevMacCount_eq_sum : prevMacCount arg s b =
    ((List.range' (startIndex arg b) (b - startIndex arg b)).map fun i => (s.buf i).size).sum := by
  unfold prevMacCount macCount
  simp only [hopt, if_true]

omit hs hb hopt in
/-- The loop that counts, before, at and after the bucket. -/
theorem foldlM_countMacs_eq (kvPos : ℕ) (isInsert : Bool) :
    ((groupRange arg b).zip ((groupRange arg b).map s.buf)).foldlM (countMacs b kvPos isInsert)
        (0, -1) =
      (intSum (fun i => (s.buf i).size) 0
        (List.range' (startIndex arg b) (b - startIndex arg b))).bind fun prev =>
      (countMacs b kvPos isInsert (prev, -1) (b, s.buf b)).bind fun p =>
      (intSum (fun i => (s.buf i).size) p.1
        (List.range' (b + 1) (startIndex arg b + arg.ratio - b - 1))).map fun total =>
          (total, p.2) := by
  have hzip : (groupRange arg b).zip ((groupRange arg b).map s.buf) =
      (groupRange arg b).map fun i => (i, s.buf i) := by
    rw [← List.zip_map', List.map_id']
  have hbefore : b ∉ List.range' (startIndex arg b) (b - startIndex arg b) :=
    fun h => (mem_before ha h).2 rfl
  have hafter : b ∉ List.range' (b + 1) (startIndex arg b + arg.ratio - b - 1) :=
    fun h => (mem_after ha h).2 rfl
  -- only in the round of the bucket is the index set
  rw [hzip, List.foldlM_map, ha.groupRange_split b, List.foldlM_append,
    foldlM_countMacs_of_notMem s hbefore]
  cases intSum (fun i => (s.buf i).size) 0
      (List.range' (startIndex arg b) (b - startIndex arg b)) with
  | none => rfl
  | some prev =>
    simp only [Option.map_some, Option.bind_eq_bind, Option.bind_some, List.foldlM_cons]
    cases countMacs b kvPos isInsert (prev, -1) (b, s.buf b) with
    | none => rfl
    | some p => exact foldlM_countMacs_of_notMem s hafter p.1 p.2

omit hs hb in
/-- What the loop counts is the total of the group and the index of the written MAC. -/
theorem countMacs_eq_some {kvPos : ℕ} {isInsert : Bool} {total idx : ℤ}
    (h : ((groupRange arg b).zip ((groupRange arg b).map s.buf)).foldlM (countMacs b kvPos isInsert)
      (0, -1) = some (total, idx)) :
    total = totalMacCount arg s b ∧ idx = writtenIdx arg s b kvPos isInsert := by
  rw [foldlM_countMacs_eq ha] at h
  obtain ⟨prev, hprev, h⟩ := Option.bind_eq_some_iff.mp h
  obtain ⟨⟨mid, idx'⟩, hmid, h⟩ := Option.bind_eq_some_iff.mp h
  obtain ⟨total', htotal, heq⟩ := Option.map_eq_some_iff.mp h
  obtain ⟨rfl, rfl⟩ := Prod.mk.inj heq
  have hprev' := intSum_eq_some hprev
  obtain ⟨rfl, rfl⟩ := countMacs_self hmid
  rw [zero_add, ← prevMacCount_eq_sum hopt] at hprev'
  subst hprev'
  refine ⟨?_, rfl⟩
  rw [intSum_eq_some htotal, totalMacCount_split ha hopt]

end Group

/-! ### Counts that stay inside -/

/-- Every bucket of the group counts a number of its slots, the list takes fewer bytes than
an `int` counts, and the position is smaller than what is counted from the bucket on for
an insert, or up to it for an update. -/
structure CountsOk (arg : Arg) (s : Store) (b kvPos : ℕ) (isInsert : Bool) : Prop where
  sizes : ∀ i ∈ groupRange arg b, (s.buf i).InRange
  total : 16 * totalMacCount arg s b < 2 ^ 31
  pos : (kvPos : ℤ) < if isInsert then totalMacCount arg s b - prevMacCount arg s b
    else prevMacCount arg s b + (s.buf b).size

section Ok

variable {arg : Arg} {s : Store} {b kvPos : ℕ} {isInsert : Bool} (ha : arg.Valid)
  (hopt : arg.macOpt = true)

include ha hopt

theorem prevMacCount_nonneg (h : ∀ i ∈ groupRange arg b, (s.buf i).InRange) :
    0 ≤ prevMacCount arg s b := by
  rw [prevMacCount_eq_sum hopt]
  refine List.sum_nonneg fun z hz => ?_
  obtain ⟨i, hi, rfl⟩ := List.mem_map.mp hz
  exact (h i (mem_before ha hi).1).1

theorem prevMacCount_add_size_le (h : ∀ i ∈ groupRange arg b, (s.buf i).InRange) :
    prevMacCount arg s b + (s.buf b).size ≤ totalMacCount arg s b := by
  rw [totalMacCount_split ha hopt]
  refine le_add_of_nonneg_right (List.sum_nonneg fun z hz => ?_)
  obtain ⟨i, hi, rfl⟩ := List.mem_map.mp hz
  exact (h i (mem_after ha hi).1).1

/-- With sizes in range, the index lies in the list just when the position is small
enough. -/
theorem writtenIdx_inside_iff (h : ∀ i ∈ groupRange arg b, (s.buf i).InRange) :
    0 ≤ writtenIdx arg s b kvPos isInsert ∧
        writtenIdx arg s b kvPos isInsert < totalMacCount arg s b ↔
      (kvPos : ℤ) < if isInsert then totalMacCount arg s b - prevMacCount arg s b
        else prevMacCount arg s b + (s.buf b).size := by
  have h₀ := prevMacCount_nonneg ha hopt h
  have h₁ := prevMacCount_add_size_le ha hopt h
  unfold writtenIdx
  cases isInsert with
  | true =>
    simp only [if_true]
    omega
  | false =>
    simp only [Bool.false_eq_true, if_false]
    omega

variable (h : CountsOk arg s b kvPos isInsert)

include h

/-- The loop that counts does not overflow. -/
theorem CountsOk.countMacs_eq :
    ((groupRange arg b).zip ((groupRange arg b).map s.buf)).foldlM (countMacs b kvPos isInsert)
      (0, -1) = some (totalMacCount arg s b, writtenIdx arg s b kvPos isInsert) := by
  have h₀ := prevMacCount_nonneg ha hopt h.sizes
  have h₁ := prevMacCount_add_size_le ha hopt h.sizes
  have hsize := (h.sizes b (ha.mem_groupRange_iff.mpr rfl)).1
  have htotal := h.total
  have hpos := h.pos
  have hbefore : intSum (fun i => (s.buf i).size) 0
      (List.range' (startIndex arg b) (b - startIndex arg b)) = some (prevMacCount arg s b) := by
    have hsum := prevMacCount_eq_sum (s := s) (b := b) hopt
    rw [intSum_of_nonneg (fun i hi => (h.sizes i (mem_before ha hi).1).1) le_rfl (by omega), ← hsum,
      zero_add]
  -- an insert has its MAC at the position given, an update counts from the end
  have hself : countMacs b kvPos isInsert (prevMacCount arg s b, -1) (b, s.buf b) =
      some (prevMacCount arg s b + (s.buf b).size, writtenIdx arg s b kvPos isInsert) := by
    unfold countMacs writtenIdx
    cases isInsert with
    | true =>
      simp only [if_true, Option.bind_eq_bind, Option.pure_def] at hpos ⊢
      rw [intT_of_lt (by omega) (by omega), Option.bind_some, intT_of_lt (by omega) (by omega),
        Option.bind_some]
    | false =>
      simp only [Bool.false_eq_true, if_true, if_false, Option.bind_eq_bind,
        Option.pure_def] at hpos ⊢
      have hd : intT ((s.buf b).size - kvPos) = some ((s.buf b).size - kvPos) :=
        intT_eq_some_iff.mpr ⟨⟨by omega, by omega⟩, rfl⟩
      have hd' : intT ((s.buf b).size - kvPos - 1) = some ((s.buf b).size - kvPos - 1) :=
        intT_eq_some_iff.mpr ⟨⟨by omega, by omega⟩, rfl⟩
      rw [hd, Option.bind_some, hd', Option.bind_some, intT_of_lt (by omega) (by omega),
        Option.bind_some, intT_of_lt (by omega) (by omega), Option.bind_some]
  have hafter := totalMacCount_split (s := s) (b := b) ha hopt
  rw [foldlM_countMacs_eq ha, hbefore, Option.bind_some, hself, Option.bind_some,
    intSum_of_nonneg (fun i hi => (h.sizes i (mem_after ha hi).1).1) (by omega)
      (by omega), ← hafter, Option.map_some]

end Ok

theorem intT_natCast {n : ℕ} (h : n < 2 ^ 31) : intT (n : ℤ) = some (n : ℤ) :=
  intT_of_lt (by omega) (by omega)

theorem intT_macSize_mul {n : ℕ} (h : 16 * n < 2 ^ 31) :
    intT (macSize * (n : ℤ)) = some ((16 * n : ℕ) : ℤ) := by
  rw [natCast_macSize, ← intT_natCast h, Nat.cast_mul]
  rfl

theorem memcpy_malloc_macsBytes (m n : ℕ) (agg : List Block) :
    memcpy (malloc (16 * m)) 0 (macsBytes agg) (16 * n) =
      (memcpy (malloc m) 0 agg n).map macsBytes := by
  rw [malloc_macsBytes]
  exact memcpy_macsBytes (malloc m) agg 0 n

/-- `prev_aggregate_mac` in bytes for an insert, with an index inside of the list. -/
theorem prevAggregateBytes_insert {agg : List Block} {i : ℕ} (hi : i < agg.length)
    (hlen : 16 * agg.length < 2 ^ 31) (prevMac : Block) :
    prevAggregateBytes (macsBytes agg) agg.length i true prevMac =
      (prevAggregateMac agg i true prevMac).map (Option.map macsBytes) := by
  have hdrop : (macsBytes agg).drop (16 * (i + 1)) = macsBytes (agg.drop (i + 1)) :=
    drop_flatMap_of_width length_blockBytes agg (i + 1)
  have hleft : (agg.length : ℤ) - i - 1 = ((agg.length - i - 1 : ℕ) : ℤ) := by omega
  -- the products and differences that the source takes in `int`, in its order
  have h₁ : intT ((agg.length : ℤ) - 1) = some ((agg.length - 1 : ℕ) : ℤ) := by
    rw [← intT_natCast (by omega), Nat.cast_sub (by omega), Nat.cast_one]
  have h₂ := @intT_macSize_mul (agg.length - 1) (by omega)
  have h₃ : intT ((i : ℤ) * macSize) = some ((16 * i : ℕ) : ℤ) := by
    rw [mul_comm, intT_macSize_mul (by omega)]
  have h₄ : intT ((i : ℤ) + 1) = some ((i + 1 : ℕ) : ℤ) := by
    rw [← intT_natCast (by omega), Nat.cast_succ]
  have h₅ : intT (((i + 1 : ℕ) : ℤ) * macSize) = some ((16 * (i + 1) : ℕ) : ℤ) := by
    rw [mul_comm, intT_macSize_mul (by omega)]
  have h₆ : intT ((agg.length : ℤ) - i) = some ((agg.length : ℤ) - i) :=
    intT_of_lt (by omega) (by omega)
  have h₇ : intT ((agg.length : ℤ) - i - 1) = some ((agg.length - i - 1 : ℕ) : ℤ) := by
    rw [hleft, intT_natCast (by omega)]
  have h₈ : intT (((agg.length - i - 1 : ℕ) : ℤ) * macSize) =
      some ((16 * (agg.length - i - 1) : ℕ) : ℤ) := by
    rw [mul_comm, intT_macSize_mul (by omega)]
  unfold prevAggregateBytes prevAggregateMac
  rw [if_pos rfl, if_pos rfl]
  -- the only MAC is the new one, or there are others on either side
  by_cases hone : 1 < agg.length
  · rw [if_pos (by omega), if_pos hone, hleft]
    simp only [Option.bind_eq_bind, Option.pure_def]
    rw [h₁, Option.bind_some, h₂, Option.bind_some, sizeT_natCast, Option.bind_some, h₃,
      Option.bind_some, sizeT_natCast, Option.bind_some, memcpy_malloc_macsBytes, sizeT_natCast,
      Option.bind_some, sizeT_natCast, Option.bind_some]
    cases memcpy (malloc (agg.length - 1)) 0 agg i with
    | none => rfl
    | some prev =>
      rw [Option.map_some, Option.bind_some, Option.bind_some, h₄, Option.bind_some, h₅,
        Option.bind_some, sizeT_natCast, Option.bind_some, h₆, Option.bind_some, h₇,
        Option.bind_some, h₈, Option.bind_some, sizeT_natCast, Option.bind_some, hdrop,
        memcpy_macsBytes]
      cases memcpy prev i (agg.drop (i + 1)) (agg.length - i - 1) <;> rfl
  · rw [if_neg (by omega), if_neg hone]
    rfl

/-- `prev_aggregate_mac` in bytes for an update, with an index inside of the list. -/
theorem prevAggregateBytes_update {agg : List Block} {i : ℕ} (hi : i < agg.length)
    (hlen : 16 * agg.length < 2 ^ 31) (prevMac : Block) :
    prevAggregateBytes (macsBytes agg) agg.length i false prevMac =
      (prevAggregateMac agg i false prevMac).map (Option.map macsBytes) := by
  -- the old MAC is written as a list of one
  have hput : ∀ prev : List Block, memcpy (macsBytes prev) (16 * i) (blockBytes prevMac) macSize =
      (memcpy prev i [prevMac] 1).map macsBytes := by
    intro prev
    rw [← memcpy_macsBytes]
    simp [macsBytes, macSize]
  have h₁ := intT_macSize_mul hlen
  have h₂ : intT ((i : ℤ) * macSize) = some ((16 * i : ℕ) : ℤ) := by
    rw [mul_comm, intT_macSize_mul (by omega)]
  unfold prevAggregateBytes prevAggregateMac
  rw [if_neg Bool.false_ne_true, if_neg Bool.false_ne_true]
  simp only [Option.bind_eq_bind, Option.pure_def]
  rw [h₁, Option.bind_some, sizeT_natCast, Option.bind_some, memcpy_malloc_macsBytes, sizeT_natCast,
    Option.bind_some]
  cases memcpy (malloc agg.length) 0 agg agg.length with
  | none => rfl
  | some prev =>
    rw [Option.map_some, Option.bind_some, Option.bind_some, h₂, Option.bind_some, sizeT_natCast,
      Option.bind_some, hput]
    cases memcpy prev i [prevMac] 1 <;> rfl

theorem prevAggregateBytes_eq {agg : List Block} {i : ℕ} (hi : i < agg.length)
    (hlen : 16 * agg.length < 2 ^ 31) (isInsert : Bool) (prevMac : Block) :
    prevAggregateBytes (macsBytes agg) agg.length i isInsert prevMac =
      (prevAggregateMac agg i isInsert prevMac).map (Option.map macsBytes) := by
  cases isInsert with
  | true => exact prevAggregateBytes_insert hi hlen prevMac
  | false => exact prevAggregateBytes_update hi hlen prevMac

section Inside

variable {arg : Arg} {s : Store} {b kvPos : ℕ} {isInsert : Bool} (ha : arg.Valid)
  (hs : s.Shaped arg) (hb : b < arg.bucketSize) (hopt : arg.macOpt = true)

include ha hs hb hopt

/-- **`enclave_rebuild_tree_root` in bytes.**  With counts that are all right it works on the
bytes of the lists of MACs. -/
theorem CountsOk.rebuildBytes_eq (h : CountsOk arg s b kvPos isInsert) (prevMac : Block) :
    ∃ agg i prev, aggregateMac arg s b = some agg ∧ i < agg.length ∧
      updatedIdx arg s b kvPos isInsert = some (i : ℤ) ∧
      prevAggregateMac agg i isInsert prevMac = some prev ∧
      rebuildBytes arg s b kvPos isInsert prevMac =
        some ⟨agg.length, i, macsBytes agg, prev.map macsBytes⟩ := by
  have hrange : BufsInRange arg s b := fun _ => h.sizes
  have hlen := length_groupMacs_eq hrange
  have hbefore := length_beforeMacs_eq (s := s) ha fun _ i hi _ => h.sizes i hi
  have htotal := h.total
  -- the index lies in the list, so that it is a natural number
  obtain ⟨h₀, h₁⟩ := (writtenIdx_inside_iff ha hopt h.sizes).mpr h.pos
  obtain ⟨i, hi⟩ := Int.eq_ofNat_of_zero_le h₀
  have hlt : i < (groupMacs arg s b).length := by omega
  have hidx : updatedIdx arg s b kvPos isInsert = some (writtenIdx arg s b kvPos isInsert) := by
    rw [updatedIdx_buf ha hs hb hopt hrange, hbefore]
    rfl
  have hprev := prevAggregateMac_eq hlt isInsert prevMac
  refine ⟨_, i, _, aggregateMac_eq ha hs hb hrange, hlt, hi ▸ hidx, hprev, ?_⟩
  have hcollect := (collectBytes_group_eq_some_iff ha hs hb hopt).mpr ⟨hrange, h.total, rfl⟩
  unfold rebuildBytes
  simp only [groupMacBufs_eq hs ha hb, Option.bind_eq_bind, Option.bind_some,
    h.countMacs_eq ha hopt, hcollect]
  rw [hi, ← hlen, prevAggregateBytes_eq hlt (by omega), hprev]
  rfl

/-- What stays inside has counts that are all right. -/
theorem countsOk_of_inside {prevMac : Block} {r : Rebuilt}
    (h : rebuildBytes arg s b kvPos isInsert prevMac = some r) (h₀ : 0 ≤ r.updatedIdx)
    (h₁ : r.updatedIdx < r.totalMacCount) : CountsOk arg s b kvPos isInsert := by
  unfold rebuildBytes at h
  simp only [groupMacBufs_eq hs ha hb, Option.bind_eq_bind, Option.bind_some,
    Option.bind_eq_some_iff, Option.pure_def, Option.some.injEq] at h
  obtain ⟨⟨total, idx⟩, hcount, agg, hagg, prev, -, rfl⟩ := h
  obtain ⟨rfl, rfl⟩ := countMacs_eq_some ha hopt hcount
  obtain ⟨hrange, htotal, -⟩ := (collectBytes_group_eq_some_iff ha hs hb hopt).mp hagg
  exact ⟨hrange hopt, htotal, (writtenIdx_inside_iff ha hopt (hrange hopt)).mp ⟨h₀, h₁⟩⟩

theorem CountsOk.inside (h : CountsOk arg s b kvPos isInsert) (prevMac : Block) :
    (chainMacBytes arg s b).isSome = true ∧
      ∃ r, rebuildBytes arg s b kvPos isInsert prevMac = some r ∧
        0 ≤ r.updatedIdx ∧ r.updatedIdx < r.totalMacCount := by
  constructor
  · have hchain := (chainMacBytes_eq_some_iff ha hs hb hopt).mpr ⟨fun _ => h.sizes, h.total, rfl⟩
    rw [hchain]
    rfl
  · obtain ⟨agg, i, prev, -, hi, -, -, hr⟩ := h.rebuildBytes_eq ha hs hb hopt prevMac
    exact ⟨_, hr, Int.natCast_nonneg i, Int.ofNat_lt.mpr hi⟩

end Inside

/-- **Counts that stay inside.**  With MAC bucketing, whatever the sizes of the MAC buffers and
the position in the chain are: the copies of `get_chain_mac` and of
`enclave_rebuild_tree_root` stay inside of their buffers, and `updated_idx` is an index of
the list, just when the counts are all right. -/
theorem counts_inside_iff {arg : Arg} (hroot : 0 < arg.treeRootSize) (hbucket : 0 < arg.bucketSize)
    (hdvd : arg.treeRootSize ∣ arg.bucketSize) (hopt : arg.macOpt = true) {s : Store}
    (hs : s.Shaped arg) {b : ℕ} (hb : b < arg.bucketSize) (kvPos : ℕ) (isInsert : Bool)
    (prevMac : Block) :
    ((chainMacBytes arg s b).isSome = true ∧
        ∃ r, rebuildBytes arg s b kvPos isInsert prevMac = some r ∧
          0 ≤ r.updatedIdx ∧ r.updatedIdx < r.totalMacCount) ↔
      CountsOk arg s b kvPos isInsert := by
  have ha := Arg.Valid.of_dvd hroot hbucket hdvd
  have hs' : s.Shaped { arg with maxBufSize := 0 } := ⟨hs.table, hs.macbuf, hs.macTable⟩
  constructor
  · rintro ⟨-, r, hr, h₀, h₁⟩
    have h := countsOk_of_inside ha hs' hb hopt hr h₀ h₁
    exact ⟨h.sizes, h.total, h.pos⟩
  · intro h
    exact CountsOk.inside ha hs' hb hopt ⟨h.sizes, h.total, h.pos⟩ prevMac

/-- An update of the only entry of a group. -/
theorem counts_inside_iff_one :
    (chainMacBytes ⟨1, 32, 2, 1, true, true⟩ ⟨[[], []], [⟨1, Vector.replicate 30 0⟩, ⟨0, Vector.replicate 30 0⟩], [0]⟩ 0).isSome =
        true ∧
      ∃ r, rebuildBytes ⟨1, 32, 2, 1, true, true⟩
          ⟨[[], []], [⟨1, Vector.replicate 30 0⟩, ⟨0, Vector.replicate 30 0⟩], [0]⟩ 0 0 false 7 = some r ∧
        0 ≤ r.updatedIdx ∧ r.updatedIdx < r.totalMacCount := by
  refine (counts_inside_iff (by decide) (by decide) (by decide) rfl ⟨rfl, rfl, rfl⟩ (by decide) 0 false
    7).mpr ⟨?_, by decide, by decide⟩
  unfold MacEntry.InRange
  decide

/-- **Counts that lead outside.**  A size of 31 is copied from thirty slots; a negative size is
copied as a huge length; and a position behind what the buffer counts gives a negative
index. -/
theorem counts_outside :
    chainMacBytes ⟨1, 32, 2, 1, true, true⟩ ⟨[[], []], [⟨31, Vector.replicate 30 0⟩, ⟨0, Vector.replicate 30 0⟩], [0]⟩ 0 = none ∧
      chainMacBytes ⟨1, 32, 2, 1, true, true⟩
        ⟨[[], []], [⟨-1, Vector.replicate 30 0⟩, ⟨2, Vector.replicate 30 0⟩], [0]⟩ 0 = none ∧
      updatedIdx ⟨1, 32, 2, 1, true, true⟩
        ⟨[[], []], [⟨1, Vector.replicate 30 0⟩, ⟨0, Vector.replicate 30 0⟩], [0]⟩ 0 2 false = some (-2) ∧
      rebuildBytes ⟨1, 32, 2, 1, true, true⟩
        ⟨[[], []], [⟨1, Vector.replicate 30 0⟩, ⟨0, Vector.replicate 30 0⟩], [0]⟩ 0 2 false 7 = none := by
  refine ⟨by decide +kernel, by decide +kernel, by decide +kernel, by decide +kernel⟩

end ShieldStore
