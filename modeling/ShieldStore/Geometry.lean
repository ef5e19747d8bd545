import ShieldStore.Record
import ShieldStore.Lib.Lists
import ShieldStore.Lib.Pieces

/-!
# Groups of buckets and their roots

Every root stands for a group of `ratio_root_per_buckets` consecutive buckets and
authenticates the MACs of the group, bucket after bucket: the chain's MACs in
order or, with MAC bucketing, the MACs of the bucket's buffer.  This module says
what the functions that collect these lists compute, in terms of the list of
each bucket.

## Main definitions

* `Store.Shaped` — the tables have the sizes of the configuration.
* `Store.chain`, `Store.buf`, `Store.root` — a bucket's chain and MAC buffer, a
  group's root.
* `bucketMacs`, `groupMacs` — the MACs of a bucket and of a group.
* `rootTag` — the root that authenticates a list of MACs.

## Main results

* `aggregateMac_eq`, `updatedIdx_chain`, `updatedIdx_buf` — the collected list and
  the position of the written MAC in it.
* `enclaveRebuildTreeRoot_eq` — what rebuilding a root does, for the list before
  and the list after a write.
-/

namespace ShieldStore

open Bytes Counter CMem Lists

/-! ### The geometry of a valid configuration -/

namespace Arg.Valid

variable {arg : Arg} (ha : arg.Valid) {b : ℕ}

include ha

omit ha in
/-- For the groups alone the size of the messages plays no part. -/
theorem of_dvd (hroot : 0 < arg.treeRootSize) (hbucket : 0 < arg.bucketSize)
    (hdvd : arg.treeRootSize ∣ arg.bucketSize) : Arg.Valid { arg with maxBufSize := 0 } :=
  ⟨hroot, hbucket, hdvd, Nat.lt_of_sub_ne_zero nofun⟩

theorem ratio_mul : arg.treeRootSize * arg.ratio = arg.bucketSize :=
  Nat.mul_div_cancel' ha.root_dvd

theorem ratio_pos : 0 < arg.ratio := by
  have h := ha.ratio_mul
  have hb := ha.bucket_pos
  rcases Nat.eq_zero_or_pos arg.ratio with h0 | h0
  · rw [h0, Nat.mul_zero] at h; omega
  · exact h0

omit ha in
theorem startIndex_le (b : ℕ) : startIndex arg b ≤ b := Nat.div_mul_le_self b arg.ratio

theorem lt_startIndex_add (b : ℕ) : b < startIndex arg b + arg.ratio := by
  exact Nat.lt_div_mul_add ha.ratio_pos

theorem rootIndex_lt (hb : b < arg.bucketSize) : rootIndex arg b < arg.treeRootSize :=
  (Pieces.forall_div_lt_iff ha.root_pos (Nat.le_of_dvd ha.bucket_pos ha.root_dvd)).mpr ha.root_dvd b hb

theorem mem_groupRange_iff {i : ℕ} : i ∈ groupRange arg b ↔ rootIndex arg i = rootIndex arg b :=
  Pieces.mem_piece_iff ha.ratio_pos

/-- The buckets of a group lie inside the table. -/
theorem lt_of_mem_groupRange (hb : b < arg.bucketSize) {i : ℕ} (hi : i ∈ groupRange arg b) :
    i < arg.bucketSize :=
  Pieces.lt_of_mem_piece ha.ratio_pos ⟨arg.treeRootSize, by rw [Nat.mul_comm, ha.ratio_mul]⟩ hb hi

/-- The group before and after one of its buckets. -/
theorem groupRange_split (b : ℕ) :
    groupRange arg b = List.range' (startIndex arg b) (b - startIndex arg b) ++
      b :: List.range' (b + 1) (startIndex arg b + arg.ratio - b - 1) := by
  have h1 : startIndex arg b ≤ b := startIndex_le b
  have h2 := ha.lt_startIndex_add b
  have hcons : b :: List.range' (b + 1) (startIndex arg b + arg.ratio - b - 1)
      = List.range' b (startIndex arg b + arg.ratio - b) := by
    rw [← List.range'_succ]
    congr 1
    omega
  -- a range cut at the bucket
  have happ : List.range' (startIndex arg b) (b - startIndex arg b) ++
      List.range' (startIndex arg b + (b - startIndex arg b)) (startIndex arg b + arg.ratio - b) =
      List.range' (startIndex arg b)
        (b - startIndex arg b + (startIndex arg b + arg.ratio - b)) := List.range'_append_1
  rw [show startIndex arg b + (b - startIndex arg b) = b by omega,
    show b - startIndex arg b + (startIndex arg b + arg.ratio - b) = arg.ratio by omega] at happ
  rw [hcons, groupRange]
  exact happ.symm

omit ha in
theorem htHash_lt (hpos : 0 < arg.bucketSize) (key : List UInt8) : htHash arg key < arg.bucketSize :=
  Nat.mod_lt _ hpos

end Arg.Valid

/-! ### The parts of a store -/

/-- The tables have the sizes of the configuration. -/
structure Store.Shaped (arg : Arg) (s : Store) : Prop where
  table : s.table.length = arg.bucketSize
  macbuf : s.macbuf.length = arg.bucketSize
  macTable : s.macTable.length = arg.treeRootSize

/-- The chain of a bucket. -/
def Store.chain (s : Store) (b : ℕ) : List Entry := s.table[b]?.getD []

/-- The MAC buffer of a bucket. -/
def Store.buf (s : Store) (b : ℕ) : MacEntry := s.macbuf[b]?.getD ⟨0, Vector.replicate 30 0⟩

/-- The root of a group. -/
def Store.root (s : Store) (g : ℕ) : Block := s.macTable[g]?.getD 0

section Parts

variable {arg : Arg} {s : Store} (hs : s.Shaped arg) {b g : ℕ}

include hs

theorem Store.Shaped.table_getElem? (hb : b < arg.bucketSize) : s.table[b]? = some (s.chain b) := by
  unfold Store.chain
  rw [List.getElem?_eq_getElem (by rw [hs.table]; exact hb)]
  rfl

theorem Store.Shaped.macbuf_getElem? (hb : b < arg.bucketSize) : s.macbuf[b]? = some (s.buf b) := by
  unfold Store.buf
  rw [List.getElem?_eq_getElem (by rw [hs.macbuf]; exact hb)]
  rfl

theorem Store.Shaped.macTable_getElem? (hg : g < arg.treeRootSize) :
    s.macTable[g]? = some (s.root g) := by
  unfold Store.root
  rw [List.getElem?_eq_getElem (by rw [hs.macTable]; exact hg)]
  rfl

/-- The chains of a group, one bucket after the other. -/
theorem groupChains_eq (ha : arg.Valid) (hb : b < arg.bucketSize) :
    groupChains arg s b = some ((groupRange arg b).map s.chain) :=
  mapM_getElem? s.table [] _ fun i hi => by rw [hs.table]; exact ha.lt_of_mem_groupRange hb hi

/-- The MAC buffers of a group, one bucket after the other. -/
theorem groupMacBufs_eq (ha : arg.Valid) (hb : b < arg.bucketSize) :
    groupMacBufs arg s b = some ((groupRange arg b).map s.buf) :=
  mapM_getElem? s.macbuf _ _ fun i hi => by rw [hs.macbuf]; exact ha.lt_of_mem_groupRange hb hi

end Parts

/-! ### The MACs of a bucket and of a group -/

/-- The MACs a bucket's buffer holds. -/
def MacEntry.macs (e : MacEntry) : List Block := e.mac.toList.take e.size.toNat

/-- The size of a MAC buffer is a number of its slots. -/
def MacEntry.InRange (e : MacEntry) : Prop := 0 ≤ e.size ∧ e.size ≤ macSlots

theorem MacEntry.InRange.length_macs {e : MacEntry} (h : e.InRange) :
    (e.macs.length : ℤ) = e.size := by
  obtain ⟨h0, h1⟩ := h
  simp only [macSlots, Nat.cast_ofNat] at h1
  simp only [MacEntry.macs, List.length_take, Vector.length_toList]
  omega

/-- The MACs of a bucket with this chain and this buffer, in the order in which the
group's list takes them. -/
def macsOf (arg : Arg) (chain : List Entry) (e : MacEntry) : List Block :=
  if arg.macOpt then e.macs else chain.map (·.mac)

/-- The MACs of a bucket of the store. -/
def bucketMacs (arg : Arg) (s : Store) (b : ℕ) : List Block := macsOf arg (s.chain b) (s.buf b)

/-- The MACs of the group of a bucket. -/
def groupMacs (arg : Arg) (s : Store) (b : ℕ) : List Block :=
  (groupRange arg b).flatMap (bucketMacs arg s)

/-- The root that authenticates a list of MACs. -/
def rootTag (sdk : Sdk) (macs : List Block) : Block := sdk.tag (macs.flatMap blockBytes)

@[simp] theorem aggregateTag_eq (sdk : Sdk) (macs : List Block) :
    aggregateTag sdk macs = (.success, rootTag sdk macs) := rfl

/-- Copying the MACs of buckets whose sizes are in range. -/
theorem foldlM_copyMacs : ∀ (es : List MacEntry) (pre : List Block) (m : ℕ),
    (∀ e ∈ es, e.InRange) → (es.flatMap MacEntry.macs).length ≤ m →
    es.foldlM copyMacs (pre ++ malloc m, pre.length) =
      some (pre ++ es.flatMap MacEntry.macs ++ malloc (m - (es.flatMap MacEntry.macs).length),
        (pre ++ es.flatMap MacEntry.macs).length) := by
  intro es
  induction es with
  | nil => intro pre m _ _; simp
  | cons e es ih =>
    intro pre m hes hm
    have he : e.InRange := hes e (by simp)
    have hlen : (e.macs.length : ℤ) = e.size := he.length_macs
    rw [List.flatMap_cons, List.length_append] at hm
    have hmacs : e.mac.toList.take e.macs.length = e.macs := by
      rw [MacEntry.macs, List.length_take]
      simp
    -- one bucket, behind what is copied already
    have hcopy : copyMacs (pre ++ malloc m, pre.length) e =
        some ((pre ++ e.macs) ++ malloc (m - e.macs.length), (pre ++ e.macs).length) := by
      unfold copyMacs
      have hle : e.macs.length ≤ e.mac.toList.length := by
        simp only [MacEntry.macs, List.length_take]
        omega
      rw [← hlen, sizeT_natCast]
      simp only [Option.bind_eq_bind, Option.bind_some]
      rw [memcpy_append_malloc rfl (by omega) hle, hmacs]
      simp
    rw [List.foldlM_cons, hcopy]
    simp only [Option.bind_eq_bind, Option.bind_some]
    rw [ih (pre ++ e.macs) (m - e.macs.length) (fun e' he' => hes e' (by simp [he'])) (by omega)]
    simp only [List.flatMap_cons, List.length_append, List.append_assoc,
      Nat.sub_sub]

theorem sum_size_eq {es : List MacEntry} (h : ∀ e ∈ es, e.InRange) :
    (es.map (·.size)).sum = ((es.flatMap MacEntry.macs).length : ℤ) := by
  rw [← sum_length_eq, List.map_congr_left fun e he => (h e he).length_macs.symm]

theorem aggregateMacBufs_eq {es : List MacEntry} (h : ∀ e ∈ es, e.InRange) :
    aggregateMacBufs es = some (es.flatMap MacEntry.macs) := by
  unfold aggregateMacBufs
  rw [sum_size_eq h, sizeT_natCast]
  simp only [Option.bind_eq_bind, Option.bind_some]
  have hfold := foldlM_copyMacs es [] (es.flatMap MacEntry.macs).length h le_rfl
  simp only [List.nil_append, List.length_nil, Nat.sub_self, malloc_zero, List.append_nil] at hfold
  rw [hfold]
  rfl

/-- The MACs of the buckets of the group before a bucket. -/
def beforeMacs (arg : Arg) (s : Store) (b : ℕ) : List Block :=
  (List.range' (startIndex arg b) (b - startIndex arg b)).flatMap (bucketMacs arg s)

/-- The MACs of the buckets of the group after a bucket. -/
def afterMacs (arg : Arg) (s : Store) (b : ℕ) : List Block :=
  (List.range' (b + 1) (startIndex arg b + arg.ratio - b - 1)).flatMap (bucketMacs arg s)

/-- The MACs of the group if those of the bucket were `macs`. -/
def groupWith (arg : Arg) (s : Store) (b : ℕ) (macs : List Block) : List Block :=
  beforeMacs arg s b ++ (macs ++ afterMacs arg s b)

theorem groupMacs_eq_groupWith {arg : Arg} (ha : arg.Valid) (s : Store) (b : ℕ) :
    groupMacs arg s b = groupWith arg s b (bucketMacs arg s b) := by
  unfold groupMacs groupWith beforeMacs afterMacs
  rw [ha.groupRange_split b, List.flatMap_append, List.flatMap_cons]

section Aggregate

variable {arg : Arg} {s : Store} {b : ℕ}

/-- With MAC bucketing, every buffer of the group has a size in range. -/
def BufsInRange (arg : Arg) (s : Store) (b : ℕ) : Prop :=
  arg.macOpt = true → ∀ i ∈ groupRange arg b, (s.buf i).InRange

variable (ha : arg.Valid) (hs : s.Shaped arg) (hb : b < arg.bucketSize)

include ha hs hb

/-- The collected list is the MACs of the group. -/
theorem aggregateMac_eq (hr : BufsInRange arg s b) :
    aggregateMac arg s b = some (groupMacs arg s b) := by
  unfold aggregateMac groupMacs bucketMacs macsOf
  cases hopt : arg.macOpt with
  | false =>
    simp only [Bool.false_eq_true, if_false]
    rw [groupChains_eq hs ha hb, Option.map_some, aggregateChains, ← List.flatMap_def,
      List.map_flatMap]
  | true =>
    simp only [if_true]
    rw [groupMacBufs_eq hs ha hb, Option.bind_some, aggregateMacBufs_eq]
    · rw [List.flatMap_map]
    · intro e he
      obtain ⟨i, hi, rfl⟩ := List.mem_map.mp he
      exact hr hopt i hi

omit ha hs hb in
/-- Copying succeeds only for sizes in range: a negative size is a huge length, and a
buffer has no more slots. -/
theorem inRange_of_foldlM_copyMacs : ∀ {es : List MacEntry} {acc r : List Block × ℕ},
    es.foldlM copyMacs acc = some r → ∀ e ∈ es, e.InRange := by
  intro es
  induction es with
  | nil => intro acc r _ e he; cases he
  | cons e es ih =>
    intro acc r h
    rw [List.foldlM_cons, Option.bind_eq_bind, Option.bind_eq_some_iff] at h
    obtain ⟨acc', hcopy, hrest⟩ := h
    unfold copyMacs at hcopy
    simp only [Option.bind_eq_bind, Option.bind_eq_some_iff] at hcopy
    obtain ⟨n, hn, agg, hagg, -⟩ := hcopy
    -- the source has thirty slots, and nothing is read behind them
    have hle := (memcpy_eq_some_iff.mp hagg).1.2
    rw [sizeT_eq_some_iff] at hn
    rw [Vector.length_toList] at hle
    intro e' he'
    rcases List.mem_cons.mp he' with rfl | he'
    · exact ⟨by omega, by simp only [macSlots]; omega⟩
    · exact ih hrest e' he'

/-- A list is collected only from buffers with sizes in range. -/
theorem bufsInRange_of_aggregateMac {agg : List Block} (h : aggregateMac arg s b = some agg) :
    BufsInRange arg s b := by
  intro hopt i hi
  unfold aggregateMac at h
  rw [if_pos hopt, groupMacBufs_eq hs ha hb, Option.bind_some] at h
  unfold aggregateMacBufs at h
  simp only [Option.bind_eq_bind, Option.bind_eq_some_iff] at h
  obtain ⟨count, -, r, hfold, -⟩ := h
  exact inRange_of_foldlM_copyMacs hfold _ (List.mem_map_of_mem hi)

/-- Whenever the list of a group is collected at all, it is the MACs of the group. -/
theorem aggregateMac_eq_some {agg : List Block} (h : aggregateMac arg s b = some agg) :
    agg = groupMacs arg s b := by
  rw [aggregateMac_eq ha hs hb (bufsInRange_of_aggregateMac ha hs hb h)] at h
  exact (Option.some.inj h).symm

omit hs hb in
theorem groupRange_take :
    (groupRange arg b).take (b - startIndex arg b)
      = List.range' (startIndex arg b) (b - startIndex arg b) := by
  rw [ha.groupRange_split b, List.take_left' List.length_range']

omit hs hb in
theorem groupRange_getElem? : (groupRange arg b)[b - startIndex arg b]? = some b := by
  rw [ha.groupRange_split b, List.getElem?_append_right (by rw [List.length_range']),
    List.length_range', Nat.sub_self, List.getElem?_cons_zero]

/-- In the chains, the new entry of an insert stands at the head of its bucket and
an updated one at its position. -/
theorem updatedIdx_chain (hopt : arg.macOpt = false) (pos : ℕ) (isInsert : Bool) :
    updatedIdx arg s b pos isInsert = some ((beforeMacs arg s b).length +
      (if isInsert then ((s.chain b).length - pos - 1 : ℤ) else pos)) := by
  unfold updatedIdx
  simp only [hopt, Bool.false_eq_true, if_false]
  rw [groupChains_eq hs ha hb]
  simp only [Option.bind_eq_bind, Option.bind_some, List.getElem?_map, groupRange_getElem? ha,
    Option.map_some, ← List.map_take, groupRange_take ha, List.map_map]
  have hsum : ((List.range' (startIndex arg b) (b - startIndex arg b)).map
      ((fun c : List Entry => (c.length : ℤ)) ∘ s.chain)).sum = (beforeMacs arg s b).length := by
    unfold beforeMacs bucketMacs macsOf
    simp only [hopt, Bool.false_eq_true, if_false]
    rw [← sum_length_eq]
    simp [Function.comp_def]
  rw [hsum]
  cases isInsert <;> rfl

/-- In the MAC buffers the order is reversed: the new MAC of an insert goes to the
slot of the old length. -/
theorem updatedIdx_buf (hopt : arg.macOpt = true) (hr : BufsInRange arg s b) (pos : ℕ)
    (isInsert : Bool) :
    updatedIdx arg s b pos isInsert = some ((beforeMacs arg s b).length +
      (if isInsert then (pos : ℤ) else (s.buf b).size - pos - 1)) := by
  unfold updatedIdx
  simp only [hopt, if_true]
  rw [groupMacBufs_eq hs ha hb]
  simp only [Option.bind_eq_bind, Option.bind_some, List.getElem?_map, groupRange_getElem? ha,
    Option.map_some, ← List.map_take, groupRange_take ha]
  -- the sizes before the bucket count the MACs before it
  have hsum : (((List.range' (startIndex arg b) (b - startIndex arg b)).map s.buf).map
      (·.size)).sum = ((beforeMacs arg s b).length : ℤ) := by
    rw [sum_size_eq, List.flatMap_map]
    · unfold beforeMacs bucketMacs macsOf
      simp only [hopt, if_true]
    · intro e he
      obtain ⟨i, hi, rfl⟩ := List.mem_map.mp he
      refine hr hopt i ?_
      rw [ha.groupRange_split b]
      exact List.mem_append_left _ hi
  rw [hsum]
  cases isInsert <;> rfl

end Aggregate

/-! ### Rebuilding a root -/

/-- The list before an insert: the written MAC is taken out.  For the first entry
of a group there is nothing to verify. -/
theorem prevAggregateMac_insert {agg : List Block} {i : ℕ} (hi : i < agg.length) (prevMac : Block) :
    prevAggregateMac agg i true prevMac =
      some (if agg.eraseIdx i = [] then none else some (agg.eraseIdx i)) := by
  have herase : agg.eraseIdx i = agg.take i ++ agg.drop (i + 1) := List.eraseIdx_eq_take_drop_succ ..
  unfold prevAggregateMac
  simp only [if_true]
  -- with one MAC, the new one, nothing is left to check
  by_cases hone : agg.length > 1
  · have hnil : agg.eraseIdx i ≠ [] := by
      rw [← List.length_pos_iff, List.length_eraseIdx_of_lt hi]
      omega
    have hrest : ((agg.length : ℤ) - i - 1) = ((agg.drop (i + 1)).length : ℕ) := by
      rw [List.length_drop]
      omega
    rw [if_pos hone, if_neg hnil, hrest, sizeT_natCast, sizeT_natCast]
    simp only [Option.bind_eq_bind, Option.bind_some]
    rw [memcpy_malloc (by omega) (by omega)]
    simp only [Option.bind_some]
    rw [memcpy_append_malloc (by rw [List.length_take]; omega) (by rw [List.length_drop]; omega)
      le_rfl, List.take_length, herase]
    have hzero : agg.length - 1 - i - (agg.drop (i + 1)).length = 0 := by
      rw [List.length_drop]
      omega
    rw [hzero, malloc_zero, List.append_nil]
    rfl
  · have hnil : agg.eraseIdx i = [] := by
      rw [← List.length_eq_zero_iff, List.length_eraseIdx_of_lt hi]
      omega
    rw [if_neg hone, if_pos hnil]
    rfl

/-- The list before an update: the written MAC is replaced by the old one. -/
theorem prevAggregateMac_update {agg : List Block} {i : ℕ} (hi : i < agg.length) (prevMac : Block) :
    prevAggregateMac agg i false prevMac = some (some (agg.set i prevMac)) := by
  have hsplit : agg = agg.take i ++ agg.drop i := (List.take_append_drop i agg).symm
  unfold prevAggregateMac
  simp only [Bool.false_eq_true, if_false]
  rw [sizeT_natCast]
  simp only [Option.bind_eq_bind, Option.bind_some]
  rw [memcpy_full (by simp) le_rfl, List.take_length]
  simp only [Option.bind_some]
  nth_rewrite 1 [hsplit]
  rw [memcpy_append (by rw [List.length_take]; omega) (by rw [List.length_drop]; omega) (by simp),
    List.set_eq_take_append_cons_drop, if_pos hi]
  simp

/-- The store with the root of a group replaced. -/
def Store.setRoot (s : Store) (g : ℕ) (tag : Block) : Store :=
  { s with macTable := s.macTable.set g tag }

/-- Checking a root. -/
theorem enclaveVerifyTreeRoot_eq {arg : Arg} {s : Store} (sdk : Sdk) (hs : s.Shaped arg) {b : ℕ}
    (hg : rootIndex arg b < arg.treeRootSize) {agg : List Block}
    (hagg : aggregateMac arg s b = some agg) :
    enclaveVerifyTreeRoot arg sdk s b =
      some (if rootTag sdk agg = s.root (rootIndex arg b) then .success else .errorUnexpected) := by
  unfold enclaveVerifyTreeRoot getChainMac
  rw [hagg, hs.macTable_getElem? hg]
  rfl

/-- A root that matches authenticates the MACs of the group. -/
theorem rootTag_of_success {arg : Arg} {sdk : Sdk} {s : Store} (ha : arg.Valid) (hs : s.Shaped arg)
    {b : ℕ} (hb : b < arg.bucketSize) (h : enclaveVerifyTreeRoot arg sdk s b = some .success) :
    rootTag sdk (groupMacs arg s b) = s.root (rootIndex arg b) := by
  cases hagg : aggregateMac arg s b with
  | none => simp [enclaveVerifyTreeRoot, getChainMac, hagg] at h
  | some agg =>
    rw [enclaveVerifyTreeRoot_eq sdk hs (ha.rootIndex_lt hb) hagg, Option.some.injEq] at h
    rw [← aggregateMac_eq_some ha hs hb hagg]
    by_contra hne
    rw [if_neg hne] at h
    cases h

/-- The MACs of a group with the written one taken back. -/
def prevMacs (agg : List Block) (i : ℕ) (isInsert : Bool) (prevMac : Block) : List Block :=
  if isInsert then agg.eraseIdx i else agg.set i prevMac

/-- The list before a write is null when it is empty. -/
theorem prevAggregateMac_eq {agg : List Block} {i : ℕ} (hi : i < agg.length) (isInsert : Bool)
    (prevMac : Block) :
    prevAggregateMac agg i isInsert prevMac = some (if prevMacs agg i isInsert prevMac = [] then none
      else some (prevMacs agg i isInsert prevMac)) := by
  cases isInsert with
  | true => exact prevAggregateMac_insert hi prevMac
  | false =>
    have hne : prevMacs agg i false prevMac ≠ [] := by
      rw [← List.length_pos_iff]
      simp only [prevMacs, Bool.false_eq_true, if_false, List.length_set]
      omega
    rw [if_neg hne]
    exact prevAggregateMac_update hi prevMac

/-- A list that is checked has at least one MAC. -/
theorem prevAggregateMac_ne_nil {agg p : List Block} {idx : ℤ} {isInsert : Bool} {prevMac : Block}
    (h : prevAggregateMac agg idx isInsert prevMac = some (some p)) : p ≠ [] := by
  unfold prevAggregateMac at h
  rw [← List.length_pos_iff]
  -- an insert leaves out one of two or more, an update replaces one
  cases isInsert with
  | true =>
    simp only [if_true] at h
    split at h
    · next hone =>
      simp only [Option.bind_eq_bind, Option.bind_eq_some_iff, Option.pure_def,
        Option.some.injEq] at h
      obtain ⟨i, -, rest, -, p₁, h₁, p₂, h₂, rfl⟩ := h
      rw [length_memcpy h₂, length_memcpy h₁, length_malloc]
      omega
    · cases h
  | false =>
    simp only [Bool.false_eq_true, if_false, Option.bind_eq_bind, Option.bind_eq_some_iff,
      Option.pure_def, Option.some.injEq] at h
    obtain ⟨i, -, p₁, -, p₂, h₂, rfl⟩ := h
    have hle := (memcpy_eq_some_iff.mp h₂).1.1
    rw [length_memcpy h₂]
    omega

/-- **Rebuilding a root.**  The list before the write is checked against the root,
except for the first entry of a group. -/
theorem enclaveRebuildTreeRoot_eq {arg : Arg} {sdk : Sdk} {s : Store} (hs : s.Shaped arg) {b pos i : ℕ}
    (hg : rootIndex arg b < arg.treeRootSize) {isInsert : Bool} {agg : List Block} {prevMac : Block}
    (hagg : aggregateMac arg s b = some agg) (hidx : updatedIdx arg s b pos isInsert = some (i : ℤ))
    (hi : i < agg.length) :
    enclaveRebuildTreeRoot arg sdk s b pos isInsert prevMac =
      some (
        let asserts := if isInsert then assertLog .kvPosZero (pos == 0) else []
        let before := prevMacs agg i isInsert prevMac
        if before = [] ∨ rootTag sdk before = s.root (rootIndex arg b) then
          (.success, s.setRoot (rootIndex arg b) (rootTag sdk agg), asserts)
        else (.errorUnexpected, s, asserts ++ [.print .previousMacCompareFailed])) := by
  unfold enclaveRebuildTreeRoot
  rw [hagg, hidx, hs.macTable_getElem? hg]
  simp only [Option.bind_eq_bind, Option.bind_some, prevAggregateMac_eq hi, aggregateTag_eq]
  generalize prevMacs agg i isInsert prevMac = before
  by_cases hnil : before = []
  · simp only [hnil, if_true, true_or]
    rfl
  · simp only [hnil, if_false, false_or]
    by_cases hok : rootTag sdk before = s.root (rootIndex arg b)
    · simp only [hok, if_true]
      rfl
    · simp only [hok, if_false]
      rfl

end ShieldStore
