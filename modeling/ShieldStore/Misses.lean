import ShieldStore.Rebuild
import ShieldStore.Honest

/-!
# Searches that find nothing

A search that finds nothing is not checked.  `enclave_get` takes it for an answer, which is
never safe: whatever the memory of the group has lost, a `GET` says that there is no
data.  `enclave_set` inserts, with a check of the MACs that leaves the new one out; this
module says which list it checks, and on what counts of the group that depends.

## Main definitions

* `Store.emptied` — a store whose chains the host has cut.
* `macCount`, `prevMacCount`, `totalMacCount` — the counts of a group.
* `checkedMacs` — the list that is checked for an insert.

## Main results

* `miss_authentic_iff` — a `GET` that misses says nothing about a key that was `SET`.
* `set_accepted_iff` — when an insert is accepted.
-/

namespace ShieldStore

open Bytes Counter CMem Run Lists

/-! ### A `GET` that misses -/

/-- The store with every chain cut. -/
def Store.emptied (arg : Arg) (s : Store) : Store :=
  { s with table := List.replicate arg.bucketSize [] }

theorem htGetO_emptied {arg : Arg} (ha : arg.Valid) (sdk : Sdk) (s : Store) (key : List UInt8)
    (keySize : UInt32) : htGetO arg sdk (s.emptied arg) key keySize = some ⟨none, none, 0, 0⟩ := by
  unfold htGetO Store.emptied
  simp only [List.getElem?_replicate, if_pos (Arg.Valid.htHash_lt ha.bucket_pos key),
    Option.bind_eq_bind, Option.bind_some]
  rfl

/-- **When a miss is authentic.**  After any run of requests, and whatever memory the host
comes up with: every `GET` of a key that finds nothing and prints no failure is right
about the key having no value, just when the key was never `SET`. -/
theorem miss_authentic_iff {arg : Arg} (sdk : Sdk) (ha : arg.Valid) {qs : List Req}
    (hqs : ∀ q ∈ qs, q.WellFormed arg) {s₀ : Store} {outs : List Outcome}
    (hrun : run (serveStep arg sdk) (enclaveInitValues arg) qs = some (s₀, outs)) {k : List UInt8}
    {lower : Bool} {rand : Block} (hq : Req.WellFormed arg ⟨.get k, lower, rand⟩) :
    (∀ s out, s.Shaped arg → s.macTable = s₀.macTable →
        serve arg sdk s ⟨.get k, lower, rand⟩ = some out → missed arg sdk s k = true →
        Clean out.log → StringMap.after qs k = none) ↔
      ∀ q ∈ qs, q.op.inserts ≠ some k := by
  have hshaped := (stocked_of_run ha hqs hrun).shaped
  constructor
  · intro hauth q hmem hins
    have hnone : StringMap.after qs k = none := by
      refine hauth (s₀.emptied arg) ⟨s₀.emptied arg, Req.cut arg ⟨.get k, lower, rand⟩,
        [.print .getFailed]⟩ ⟨by simp [Store.emptied], hshaped.macbuf, hshaped.macTable⟩ rfl ?_ ?_ ?_
      · rw [serve_eq sdk ha hq]
        exact getKeyVal_miss (htGetO_emptied ha sdk s₀ _ _) _
      · simp [missed, htGetO_emptied ha sdk s₀]
      · simp [Clean, Event.isFailure, Msg.isFailure]
    exact after_ne_none_iff.mpr ⟨q, hmem, hins⟩ hnone
  · intro hnever s out _ _ _ _ _
    by_contra hsome
    obtain ⟨q, hmem, hins⟩ := after_ne_none_iff.mp hsome
    exact hnever q hmem hins

/-- A key that was never `SET`. -/
theorem miss_authentic_iff_other :
    ∃ s₀ outs, run (serveStep ⟨1, 32, 2, 1, true, true⟩ Sdk.aes)
        (enclaveInitValues ⟨1, 32, 2, 1, true, true⟩) [⟨.set [0x6b] [0x76], false, 1⟩] =
          some (s₀, outs) ∧
      ∀ s out, s.Shaped ⟨1, 32, 2, 1, true, true⟩ → s.macTable = s₀.macTable →
        serve ⟨1, 32, 2, 1, true, true⟩ Sdk.aes s ⟨.get [0x6d], false, 2⟩ = some out →
        missed ⟨1, 32, 2, 1, true, true⟩ Sdk.aes s [0x6d] = true → Clean out.log →
        StringMap.after [⟨.set [0x6b] [0x76], false, 1⟩] [0x6d] = none := by
  obtain ⟨⟨s₀, outs⟩, hrun⟩ := Option.isSome_iff_exists.mp (show (run
    (serveStep ⟨1, 32, 2, 1, true, true⟩ Sdk.aes) (enclaveInitValues ⟨1, 32, 2, 1, true, true⟩)
    [⟨.set [0x6b] [0x76], false, 1⟩]).isSome = true by decide +kernel)
  exact ⟨s₀, outs, hrun, (miss_authentic_iff Sdk.aes (by decide) (by decide) hrun (by decide)).mpr
    (by decide)⟩

/-- **A miss that is not authentic.**  The host cuts the chains; the `GET` of a key that has
a value prints `GET FAILED` and nothing else. -/
theorem miss_not_authentic :
    ∃ s₀ outs, run (serveStep ⟨1, 32, 2, 1, true, true⟩ Sdk.aes)
        (enclaveInitValues ⟨1, 32, 2, 1, true, true⟩) [⟨.set [0x6b] [0x76], false, 1⟩] =
          some (s₀, outs) ∧
      StringMap.after [⟨.set [0x6b] [0x76], false, 1⟩] [0x6b] = some [0x76] ∧
      (serve ⟨1, 32, 2, 1, true, true⟩ Sdk.aes (s₀.emptied ⟨1, 32, 2, 1, true, true⟩)
        ⟨.get [0x6b], false, 2⟩).map Outcome.log = some [.print .getFailed] := by
  obtain ⟨⟨s₀, outs⟩, hrun⟩ := Option.isSome_iff_exists.mp (show (run
    (serveStep ⟨1, 32, 2, 1, true, true⟩ Sdk.aes) (enclaveInitValues ⟨1, 32, 2, 1, true, true⟩)
    [⟨.set [0x6b] [0x76], false, 1⟩]).isSome = true by decide +kernel)
  refine ⟨s₀, outs, hrun, by decide, ?_⟩
  rw [serve_eq Sdk.aes (by decide) (by decide)]
  exact congrArg _ (getKeyVal_miss (htGetO_emptied (by decide) Sdk.aes s₀ _ _) _)

/-! ### Counts -/

/-- The count of MACs the code takes from a bucket. -/
def macCount (arg : Arg) (s : Store) (i : ℕ) : ℤ :=
  if arg.macOpt then (s.buf i).size else (s.chain i).length

/-- `prev_mac_count`: the counts of the buckets of the group before `b`. -/
def prevMacCount (arg : Arg) (s : Store) (b : ℕ) : ℤ :=
  ((List.range' (startIndex arg b) (b - startIndex arg b)).map (macCount arg s)).sum

/-- `total_mac_count`: the counts of all buckets of the group. -/
def totalMacCount (arg : Arg) (s : Store) (b : ℕ) : ℤ := ((groupRange arg b).map (macCount arg s)).sum

/-- The store `t` has the counts of `s` in the group of `b`, and its roots. -/
structure SameCounts (arg : Arg) (s t : Store) (b : ℕ) : Prop where
  shaped : t.Shaped arg
  roots : t.macTable = s.macTable
  chains : ∀ i ∈ groupRange arg b, (t.chain i).length = (s.chain i).length
  sizes : ∀ i ∈ groupRange arg b, (t.buf i).size = (s.buf i).size

section Counts

variable {arg : Arg} {s t : Store} {b : ℕ}

/-- A bucket has as many MACs as are counted. -/
theorem length_bucketMacs_eq {i : ℕ} (h : arg.macOpt = true → (s.buf i).InRange) :
    ((bucketMacs arg s i).length : ℤ) = macCount arg s i := by
  unfold bucketMacs macsOf macCount
  cases hopt : arg.macOpt with
  | false => simp
  | true => simpa using (h hopt).length_macs

variable (ha : arg.Valid)

include ha

theorem mem_before {i : ℕ} (hi : i ∈ List.range' (startIndex arg b) (b - startIndex arg b)) :
    i ∈ groupRange arg b ∧ i ≠ b := by
  rw [ha.groupRange_split b]
  refine ⟨List.mem_append_left _ hi, ?_⟩
  have := List.mem_range'_1.mp hi
  omega

theorem mem_after {i : ℕ} (hi : i ∈ List.range' (b + 1) (startIndex arg b + arg.ratio - b - 1)) :
    i ∈ groupRange arg b ∧ i ≠ b := by
  rw [ha.groupRange_split b]
  refine ⟨List.mem_append_right _ (List.mem_cons_of_mem _ hi), ?_⟩
  have := List.mem_range'_1.mp hi
  omega

theorem length_beforeMacs_eq
    (h : arg.macOpt = true → ∀ i ∈ groupRange arg b, i ≠ b → (s.buf i).InRange) :
    ((beforeMacs arg s b).length : ℤ) = prevMacCount arg s b := by
  unfold beforeMacs prevMacCount
  rw [← sum_length_eq]
  refine congrArg List.sum (List.map_congr_left fun i hi => length_bucketMacs_eq fun hopt => ?_)
  obtain ⟨hmem, hne⟩ := mem_before ha hi
  exact h hopt i hmem hne

omit ha in
theorem length_groupMacs_eq (h : BufsInRange arg s b) :
    ((groupMacs arg s b).length : ℤ) = totalMacCount arg s b := by
  unfold groupMacs totalMacCount
  rw [← sum_length_eq]
  exact congrArg List.sum (List.map_congr_left fun i hi =>
    length_bucketMacs_eq fun hopt => h hopt i hi)

omit ha in
theorem SameCounts.macCount_eq (h : SameCounts arg s t b) {i : ℕ} (hi : i ∈ groupRange arg b) :
    macCount arg t i = macCount arg s i := by
  unfold macCount
  rw [h.chains i hi, h.sizes i hi]

omit ha in
theorem SameCounts.totalMacCount_eq (h : SameCounts arg s t b) :
    totalMacCount arg t b = totalMacCount arg s b :=
  congrArg List.sum (List.map_congr_left fun _ hi => h.macCount_eq hi)

theorem SameCounts.prevMacCount_eq (h : SameCounts arg s t b) :
    prevMacCount arg t b = prevMacCount arg s b :=
  congrArg List.sum (List.map_congr_left fun _ hi => h.macCount_eq (mem_before ha hi).1)

end Counts

/-! ### Inserts -/

/-- The store after the insert of an entry. -/
def pushed (arg : Arg) (s : Store) (b : ℕ) (e : Entry) : Store :=
  s.write b (e :: s.chain b) (pushBuf arg (s.buf b) (s.chain b).length e.mac)

/-- The list that `enclave_rebuild_tree_root` checks for an insert; there is none if the
group has one MAC after it. -/
def checkedMacs (arg : Arg) (s : Store) (b : ℕ) (e : Entry) : List Block :=
  let agg := groupMacs arg (pushed arg s b e) b
  if agg.length ≤ 1 then []
  else agg.eraseIdx ((beforeMacs arg s b).length + pushSlot arg (s.chain b).length)

/-- With MAC bucketing, the new MAC has a slot, and the sizes after an insert are in
range. -/
structure Insertable (arg : Arg) (s : Store) (b : ℕ) : Prop where
  slot : arg.macOpt = true → (s.chain b).length < macSlots
  range : arg.macOpt = true → ∀ i ∈ groupRange arg b,
    0 ≤ (s.buf i).size + (if b = i then 1 else 0) ∧
      (s.buf i).size + (if b = i then 1 else 0) ≤ macSlots

theorem SameCounts.insertable {arg : Arg} {s t : Store} {b : ℕ} (h : SameCounts arg s t b)
    (ha : arg.Valid) : Insertable arg t b ↔ Insertable arg s b := by
  have hb : b ∈ groupRange arg b := ha.mem_groupRange_iff.mpr rfl
  constructor
  · rintro ⟨hslot, hrange⟩
    refine ⟨fun hopt => h.chains b hb ▸ hslot hopt, fun hopt i hi => ?_⟩
    rw [← h.sizes i hi]
    exact hrange hopt i hi
  · rintro ⟨hslot, hrange⟩
    refine ⟨fun hopt => (h.chains b hb).symm ▸ hslot hopt, fun hopt i hi => ?_⟩
    rw [h.sizes i hi]
    exact hrange hopt i hi

section Pushed

variable {arg : Arg} {s : Store} {b : ℕ} (ha : arg.Valid) (hs : s.Shaped arg)
  (hb : b < arg.bucketSize) (e : Entry)

include hs hb

theorem size_pushed (hopt : arg.macOpt = true) (i : ℕ) :
    ((pushed arg s b e).buf i).size = (s.buf i).size + (if b = i then 1 else 0) := by
  unfold pushed
  rw [hs.buf_write hb, pushBuf, if_pos hopt]
  split
  · next h => rw [← h]; rfl
  · rw [add_zero]

theorem macCount_pushed (i : ℕ) :
    macCount arg (pushed arg s b e) i = macCount arg s i + (if b = i then 1 else 0) := by
  unfold macCount
  cases hopt : arg.macOpt with
  | true => exact size_pushed hs hb e hopt i
  | false =>
    simp only [Bool.false_eq_true, if_false]
    unfold pushed
    rw [hs.chain_write hb]
    split
    · next h => rw [← h, List.length_cons]; push_cast; rfl
    · rw [add_zero]

theorem bufsInRange_pushed_iff : BufsInRange arg (pushed arg s b e) b ↔
    (arg.macOpt = true → ∀ i ∈ groupRange arg b,
      0 ≤ (s.buf i).size + (if b = i then 1 else 0) ∧
        (s.buf i).size + (if b = i then 1 else 0) ≤ macSlots) := by
  constructor
  · intro h hopt i hi
    rw [← size_pushed hs hb e hopt i]
    exact h hopt i hi
  · intro h hopt i hi
    unfold MacEntry.InRange
    rw [size_pushed hs hb e hopt i]
    exact h hopt i hi

include ha

theorem totalMacCount_pushed :
    totalMacCount arg (pushed arg s b e) b = totalMacCount arg s b + 1 := by
  have hbefore : (List.range' (startIndex arg b) (b - startIndex arg b)).map
      (macCount arg (pushed arg s b e)) =
        (List.range' (startIndex arg b) (b - startIndex arg b)).map (macCount arg s) := by
    refine List.map_congr_left fun i hi => ?_
    rw [macCount_pushed hs hb, if_neg (Ne.symm (mem_before ha hi).2), add_zero]
  have hafter : (List.range' (b + 1) (startIndex arg b + arg.ratio - b - 1)).map
      (macCount arg (pushed arg s b e)) =
        (List.range' (b + 1) (startIndex arg b + arg.ratio - b - 1)).map (macCount arg s) := by
    refine List.map_congr_left fun i hi => ?_
    rw [macCount_pushed hs hb, if_neg (Ne.symm (mem_after ha hi).2), add_zero]
  unfold totalMacCount
  rw [ha.groupRange_split b, List.map_append, List.map_cons, hbefore, hafter, macCount_pushed hs hb,
    if_pos rfl, List.map_append, List.map_cons, List.sum_append, List.sum_append, List.sum_cons,
    List.sum_cons]
  omega

variable (h : Insertable arg s b)

include h

/-- After an insert the group has one MAC more than was counted. -/
theorem Insertable.length_pushed :
    ((groupMacs arg (pushed arg s b e) b).length : ℤ) = totalMacCount arg s b + 1 := by
  rw [length_groupMacs_eq ((bufsInRange_pushed_iff hs hb e).mpr h.range),
    totalMacCount_pushed ha hs hb e]

omit hs hb in
theorem Insertable.length_before : ((beforeMacs arg s b).length : ℤ) = prevMacCount arg s b := by
  refine length_beforeMacs_eq ha fun hopt i hi hne => ?_
  have := h.range hopt i hi
  rwa [if_neg (Ne.symm hne), add_zero] at this

omit ha hs hb in
/-- If the bucket's buffer counts the entries of its chain, all sizes are in range before the
insert. -/
theorem Insertable.inRange (hz : BufSized arg s b) : BufsInRange arg s b := by
  intro hopt i hi
  have hrange := h.range hopt i hi
  by_cases hbi : b = i
  · subst hbi
    obtain ⟨hsize, hle⟩ := hz hopt
    exact ⟨by omega, by omega⟩
  · rwa [if_neg hbi, add_zero] at hrange

/-- In that case the list that is checked is that of the memory before the insert. -/
theorem Insertable.checkedMacs_eq (hz : BufSized arg s b)
    (hpos : 1 < (groupMacs arg (pushed arg s b e) b).length) :
    checkedMacs arg s b e = groupMacs arg s b := by
  have hgroup : groupMacs arg (pushed arg s b e) b =
      groupWith arg s b (pushMac arg (bucketMacs arg s b) e.mac) := by
    unfold pushed
    rw [groupMacs_write hs ha hb]
    exact congrArg _ (macsOf_push hz h.slot e)
  have hj := pushSlot_lt arg (bucketMacs arg s b) e.mac
  have herase := eraseIdx_pushMac arg (bucketMacs arg s b) e.mac
  rw [hz.length_bucketMacs] at hj herase
  unfold checkedMacs
  dsimp only
  rw [if_neg (by omega), hgroup, groupWith_eraseIdx arg s b hj, herase, ← groupMacs_eq_groupWith ha]

end Pushed

/-- What the list that is checked is, wherever the new MAC is looked for. -/
theorem prevAggregateMac_insert_eq (agg : List Block) (i : ℕ) (prevMac : Block) :
    prevAggregateMac agg i true prevMac =
      if agg.length ≤ 1 then some none
      else if i < agg.length then some (some (agg.eraseIdx i)) else none := by
  by_cases hone : agg.length ≤ 1
  · unfold prevAggregateMac
    rw [if_pos hone, if_pos rfl, if_neg (by omega)]
    rfl
  · rw [if_neg hone]
    by_cases hi : i < agg.length
    · have hne : agg.eraseIdx i ≠ [] := by
        rw [← List.length_pos_iff, List.length_eraseIdx_of_lt hi]
        omega
      rw [prevAggregateMac_insert hi, if_neg hne, if_pos hi]
    · -- behind the end there is nothing to leave out
      have hneg : sizeT ((agg.length : ℤ) - i - 1) = none := by
        unfold sizeT
        rw [if_neg (by omega)]
      unfold prevAggregateMac
      rw [if_neg hi, if_pos rfl, if_pos (by omega), sizeT_natCast]
      simp [hneg]

section Insert

variable {arg : Arg} {sdk : Sdk} {s : Store} {r : Rec} {b : ℕ} (ha : arg.Valid) (hs : s.Shaped arg)
  (hb : htHash arg (cstr r.key) = b) {plain : Option (List UInt8)} {nac : Block}
  (hget : htGetO arg sdk s (cstr r.key) (strSize r.key) =
    some ⟨none, plain, (s.chain b).length, nac⟩)

include ha hs hb hget

/-- An insert that is served had room for its MAC, and found sizes in range. -/
theorem insertable_of_set {val : List UInt8} {valSize : UInt32} {rand : Block} {out : Outcome}
    (h : setKeyVal arg sdk s rand (cstr r.key) (strSize r.key) val valSize = some out) :
    Insertable arg s b := by
  have hslot : arg.macOpt = true → (s.chain b).length < macSlots :=
    fun hopt => lt_macSlots_of_insert ha hs hopt hget rfl h
  refine ⟨hslot, ?_⟩
  unfold setKeyVal at h
  simp only [hget, hb, Option.bind_eq_bind, Option.bind_some, Option.bind_eq_some_iff,
    Option.isNone_none] at h
  obtain ⟨log, -, kv₁, -, kv₂, -, ⟨kv, mac⟩, -, s₁, hset, ⟨ret, s₂, log'⟩, hrebuild, -⟩ := h
  obtain ⟨e, rfl, rfl⟩ := htSetO_none_eq_some ha hs hslot hset
  unfold enclaveRebuildTreeRoot at hrebuild
  obtain ⟨agg, hagg, -⟩ := Option.bind_eq_some_iff.mp hrebuild
  have hlt : b < arg.bucketSize := hb ▸ Arg.Valid.htHash_lt ha.bucket_pos _
  rw [hb] at hagg
  exact (bufsInRange_pushed_iff hs hlt e).mp
    (bufsInRange_of_aggregateMac ha (hs.write _ _ _) hlt hagg)

/-- **When an insert is accepted.**  The new MAC is looked for inside the list, and what is
left of the list without it is the one the root authenticates, or nothing. -/
theorem set_accepted_iff (hr : r.Fits) (hk : r.key.length + 1 ≤ arg.maxBufSize) :
    (∃ out, setKeyVal arg sdk s r.nac (cstr r.key) (strSize r.key) (cstr r.val) (strSize r.val) =
        some out ∧ Clean out.log) ↔
      Insertable arg s b ∧
      ((groupMacs arg (pushed arg s b (r.entry sdk)) b).length ≤ 1 ∨
        (beforeMacs arg s b).length + pushSlot arg (s.chain b).length <
          (groupMacs arg (pushed arg s b (r.entry sdk)) b).length) ∧
      (checkedMacs arg s b (r.entry sdk) = [] ∨
        rootTag sdk (checkedMacs arg s b (r.entry sdk)) = s.root (rootIndex arg b)) := by
  have hlt : b < arg.bucketSize := hb ▸ Arg.Valid.htHash_lt ha.bucket_pos _
  -- the sizes are in range whenever there is something to show
  by_cases hins : Insertable arg s b
  swap
  · refine ⟨fun ⟨out, hout, _⟩ => absurd (insertable_of_set ha hs hb hget hout) hins, ?_⟩
    exact fun h => absurd h.1 hins
  have heq := setKeyVal_insert_any ha hs hr hk hb hget hins.slot
    ((bufsInRange_pushed_iff hs hlt (r.entry sdk)).mpr hins.range)
  have hpushed : s.write b (r.entry sdk :: s.chain b)
      (pushBuf arg (s.buf b) (s.chain b).length (r.mac sdk)) = pushed arg s b (r.entry sdk) := rfl
  have hlog : Clean (assertLog .plainKeyValNull plain.isNone ++
      assertLog .kvPosZero ((s.chain b).length == 0)) := by simp
  dsimp only at heq
  rw [hpushed, prevAggregateMac_insert_eq] at heq
  rw [heq]
  unfold checkedMacs
  dsimp only
  by_cases hone : (groupMacs arg (pushed arg s b (r.entry sdk)) b).length ≤ 1
  · rw [if_pos hone, if_pos hone, Option.map_some, Option.getD_none]
    exact ⟨fun _ => ⟨hins, Or.inl hone, Or.inl rfl⟩,
      fun _ => ⟨_, rfl, clean_commit_iff.mpr ⟨hlog, Or.inl rfl⟩⟩⟩
  · rw [if_neg hone, if_neg hone]
    by_cases hi : (beforeMacs arg s b).length + pushSlot arg (s.chain b).length <
        (groupMacs arg (pushed arg s b (r.entry sdk)) b).length
    · rw [if_pos hi, Option.map_some, Option.getD_some]
      constructor
      · rintro ⟨out, hout, hclean⟩
        obtain rfl := Option.some.inj hout
        exact ⟨hins, Or.inr hi, (clean_commit_iff.mp hclean).2⟩
      · rintro ⟨-, -, hok⟩
        exact ⟨_, rfl, clean_commit_iff.mpr ⟨hlog, hok⟩⟩
    · rw [if_neg hi]
      refine ⟨fun ⟨out, hout, _⟩ => (by cases hout), fun h => ?_⟩
      rcases h.2.1 with h | h
      · exact absurd h hone
      · exact absurd h hi

end Insert

end ShieldStore
