import ShieldStore.Honest

/-!
# Counter blocks

The first version of an entry is encrypted from a random counter block, and every
later one from the block where decrypting the one before has stopped.  The calls of
the SDK step the low `NAC_SIZE` bits of the counter, and `NAC_SIZE` is the number of
its bytes, 16.  So the versions of an entry are arcs of a cycle of `2 ^ 16` blocks, and
share none until they have gone round it.

## Main definitions

* `versions` — the versions of a key's entry in a run.
* `StringMap.values` — the values of a key in a run of the map.

## Main results

* `versions_eq_arcs` — where the versions of a key start.
* `counters_disjoint_iff` — when the versions of a key share no counter block.
* `counters_overlap` — two long versions that do.
-/

namespace ShieldStore

open Bytes Counter CMem Run

/-! ### Versions -/

/-- The operation is to write the value of `k`. -/
def Op.writes (k : List UInt8) : Op → Bool
  | .get _ => false
  | .set k' _ | .append k' _ => k' = k

/-- The entry that is found for a key. -/
def foundEntry (arg : Arg) (sdk : Sdk) (s : Store) (k : List UInt8) : Option Entry :=
  (htGetO arg sdk s (cstr k) (strSize k)).bind (·.pair)

/-- The versions of the entry of `k` that are written in a run. -/
def versions (arg : Arg) (sdk : Sdk) (k : List UInt8) : Store → List Req → List Entry
  | _, [] => []
  | s, q :: qs =>
      match serve arg sdk s q with
      | none => []
      | some out =>
          (if q.op.writes k then (foundEntry arg sdk out.store k).toList else []) ++
            versions arg sdk k out.store qs

/-- The counter blocks an entry uses. -/
def Entry.blocks (e : Entry) : ℕ := numBlocks (e.keySize.toNat + e.valSize.toNat)

/-- The counter blocks that encrypt an entry. -/
def Entry.counters (e : Entry) : Set Block := usedBlocks nacSize e.nac e.blocks

/-- The values of `k` that are written in a run of the map. -/
def StringMap.values (k : List UInt8) : StringMap → List Req → List (List UInt8)
  | _, [] => []
  | m, q :: qs =>
      (if q.op.writes k then (m.step q.op k).toList else []) ++ StringMap.values k (m.step q.op) qs

/-- The counter blocks that a value of `k` uses. -/
def valBlocks (k v : List UInt8) : ℕ := numBlocks ((k.length + 1) + (v.length + 1))

/-! ### The record of a key -/

theorem lookup_change_reviseKey (arg : Arg) (R : Recs) (k : List UInt8)
    (f : List UInt8 → List UInt8) :
    (R.change arg k (reviseKey k f)).lookup arg k = (R.lookup arg k).map (Rec.revise f) := by
  unfold Recs.lookup Recs.change
  rw [Function.update_self, find?_reviseKey]
  cases hfind : (R (htHash arg (cstr k))).find? fun r => r.key = k with
  | none => rfl
  | some r =>
    have hr : r.key = k := by simpa using List.find?_some hfind
    rw [Option.map_some, Option.map_some, if_pos hr]

/-- A write of a key that has a record makes its next version. -/
theorem lookup_step_of_writes {arg : Arg} {R : Recs} {k : List UInt8} {r : Rec}
    (hr : R.lookup arg k = some r) {q : Req} (hw : q.op.writes k = true) :
    ∃ f, (R.step arg q).lookup arg k = some (r.revise f) := by
  obtain ⟨op, lower, rand⟩ := q
  cases op with
  | get k' => cases hw
  | append k' w =>
    obtain rfl : k' = k := by simpa [Op.writes] using hw
    refine ⟨(· ++ w), ?_⟩
    show (R.change arg k' (reviseKey k' (· ++ w))).lookup arg k' = _
    rw [lookup_change_reviseKey, hr]
    rfl
  | set k' v =>
    obtain rfl : k' = k := by simpa [Op.writes] using hw
    refine ⟨fun _ => v, ?_⟩
    have hmem : k' ∈ (R (htHash arg (cstr k'))).map Rec.key := by
      unfold Recs.lookup at hr
      exact List.mem_map.mpr ⟨r, List.mem_of_find?_eq_some hr, by simpa using List.find?_some hr⟩
    have hstep : R.step arg ⟨.set k' v, lower, rand⟩ = R.change arg k' (reviseKey k' fun _ => v) := by
      show R.change arg k' (setKey k' v rand) = _
      rw [Recs.change, setKey_of_mem hmem, Recs.change]
    rw [hstep, lookup_change_reviseKey, hr]
    rfl

/-- A request that does not write a key leaves its record alone. -/
theorem lookup_change_of_ne {arg : Arg} (R : Recs) {k k' : List UInt8} {f : List Rec → List Rec}
    (hf : ∀ rs : List Rec, (f rs).find? (fun r => r.key = k) = rs.find? fun r => r.key = k) :
    (R.change arg k' f).lookup arg k = R.lookup arg k := by
  unfold Recs.lookup Recs.change
  rcases eq_or_ne (htHash arg (cstr k)) (htHash arg (cstr k')) with hb | hb
  · rw [hb, Function.update_self, hf]
  · rw [Function.update_of_ne hb]

theorem find?_reviseKey_of_ne {k k' : List UInt8} (hne : k' ≠ k) (f : List UInt8 → List UInt8)
    (rs : List Rec) :
    (reviseKey k' f rs).find? (fun r => r.key = k) = rs.find? fun r => r.key = k := by
  rw [find?_reviseKey]
  cases hfind : rs.find? fun r => r.key = k with
  | none => rfl
  | some r =>
    have hr : r.key = k := by simpa using List.find?_some hfind
    rw [Option.map_some, if_neg (by rw [hr]; exact hne.symm)]

theorem lookup_step_of_not_writes {arg : Arg} (R : Recs) {k : List UInt8} {q : Req}
    (hw : q.op.writes k = false) : (R.step arg q).lookup arg k = R.lookup arg k := by
  obtain ⟨op, lower, rand⟩ := q
  cases op with
  | get k' => rfl
  | append k' w =>
    have hne : k' ≠ k := by simpa [Op.writes] using hw
    exact lookup_change_of_ne R (find?_reviseKey_of_ne hne _)
  | set k' v =>
    have hne : k' ≠ k := by simpa [Op.writes] using hw
    refine lookup_change_of_ne R fun rs => ?_
    by_cases hmem : k' ∈ rs.map Rec.key
    · rw [setKey_of_mem hmem, find?_reviseKey_of_ne hne]
    · rw [setKey_of_notMem hmem, List.find?_cons]
      simp [hne]

/-! ### The versions of a key -/

section Versions

variable {arg : Arg} {sdk : Sdk} (ha : arg.Valid) {k : List UInt8}

include ha

omit ha in
/-- The record that a lookup finds has the key, and the map has its value. -/
theorem map_of_lookup {R : Recs} {r : Rec} (hr : R.lookup arg k = some r) :
    r.key = k ∧ R.map arg k = some r.val := by
  refine ⟨by simpa using List.find?_some hr, ?_⟩
  rw [Recs.map, hr]
  rfl

/-- What is found for a key that has a record carries it. -/
theorem Stocked.foundEntry_of_lookup {R : Recs} {s : Store} (h : Stocked arg sdk R s) {r : Rec}
    (hr : R.lookup arg k = some r) : ∃ e, foundEntry arg sdk s k = some e ∧ Carries sdk e r := by
  obtain ⟨rfl, -⟩ := map_of_lookup hr
  have hmem : r ∈ R (htHash arg (cstr r.key)) := List.mem_of_find?_eq_some hr
  obtain ⟨pre, r', post, hR, hkey, hpre, -⟩ := h.ok.split (List.mem_map_of_mem hmem)
  -- the keys of a bucket are distinct, so that this is the record
  obtain rfl : r = r' := List.inj_on_of_nodup_map (h.ok.nodup _) hmem (by rw [hR]; simp) hkey.symm
  obtain ⟨pre', e, post', hchain, hpre', he, -⟩ := h.chain_of_split hR
  refine ⟨e, ?_, he⟩
  rw [foundEntry, h.htGetO_present ha hchain hpre' he hpre]
  rfl

/-- Nothing is found for a key that has none. -/
theorem Stocked.foundEntry_of_none {R : Recs} {s : Store} (h : Stocked arg sdk R s)
    (hk : k.length + 5 ≤ arg.maxBufSize) (hnone : R.lookup arg k = none) :
    foundEntry arg sdk s k = none := by
  have hbuf := ha.buf_lt
  have hmem : k ∉ (R (htHash arg (cstr k))).map Rec.key := by
    rw [← map_eq_none_iff, Recs.map, hnone]
    rfl
  rw [foundEntry, h.htGetO_absent ha (by omega) hmem]
  rfl

omit ha in
/-- The blocks of an entry, and the counter block behind them, as its record has them. -/
theorem Carries.blocks {e : Entry} {r : Rec} (he : Carries sdk e r) :
    e.blocks = valBlocks r.key r.val ∧ r.next = ctrAdd nacSize (valBlocks r.key r.val) r.nac := by
  refine ⟨?_, by rw [Rec.next, length_plain, valBlocks]⟩
  rw [Entry.blocks, he.toNat_keySize, he.toNat_valSize, valBlocks]

/-- **Where the versions of a key start**: the first anywhere, and each later one where
the one before has stopped. -/
theorem versions_eq_arcs : ∀ (qs : List Req) (R : Recs) (s s' : Store) (outs : List Outcome),
    Stocked arg sdk R s → (∀ q ∈ qs, q.WellFormed arg) →
    run (serveStep arg sdk) s qs = some (s', outs) →
    ∃ c, (∀ r, R.lookup arg k = some r → c = r.next) ∧
      (versions arg sdk k s qs).map (fun e => (e.nac, e.blocks)) =
        arcs nacSize c ((StringMap.values k (R.map arg) qs).map (valBlocks k)) := by
  intro qs
  induction qs with
  | nil =>
    intro R s s' outs _ _ _
    cases R.lookup arg k with
    | none => exact ⟨0, by simp, rfl⟩
    | some r => exact ⟨r.next, by simp, rfl⟩
  | cons q qs ih =>
    intro R s s' outs h hqs hrun
    have hq := hqs q List.mem_cons_self
    rw [run_cons, Option.bind_eq_some_iff] at hrun
    obtain ⟨p, hstep, hmap⟩ := hrun
    obtain ⟨⟨s₂, outs₂⟩, hrun₂, -⟩ := Option.map_eq_some_iff.mp hmap
    obtain ⟨out, hout, rfl⟩ := Option.map_eq_some_iff.mp hstep
    have hnext := h.step ha hq hout
    obtain ⟨c, hc, hrest⟩ := ih _ _ _ _ hnext (fun q' hq' => hqs q' (List.mem_cons_of_mem _ hq')) hrun₂
    rw [map_step] at hrest
    simp only [versions, hout, StringMap.values]
    cases hw : q.op.writes k with
    | false =>
      refine ⟨c, fun r hr => hc r ?_, by simpa using hrest⟩
      rw [lookup_step_of_not_writes R hw, hr]
    | true =>
      have hkey : q.op.key = k := by
        obtain ⟨op, lower, rand⟩ := q
        cases op <;> simp_all [Op.writes, Op.key]
      cases hlookup : (R.step arg q).lookup arg k with
      | none =>
        -- an `APP` to a key that is not there
        have hval : (R.map arg).step q.op k = none := by
          rw [← map_step, Recs.map, hlookup]
          rfl
        refine ⟨c, fun r hr => ?_, ?_⟩
        · obtain ⟨f, hf⟩ := lookup_step_of_writes hr hw
          rw [hlookup] at hf
          cases hf
        · simpa [hval, hnext.foundEntry_of_none ha (hkey ▸ hq.key_lt) hlookup] using hrest
      | some r' =>
        -- a version is written, and the next one will start where it stops
        obtain ⟨e, hfound, he⟩ := hnext.foundEntry_of_lookup ha hlookup
        obtain ⟨hkey', hval⟩ := map_of_lookup hlookup
        obtain ⟨hblocks, hafter⟩ := he.blocks
        rw [map_step] at hval
        rw [hkey'] at hblocks hafter
        refine ⟨r'.nac, fun r hr => ?_, ?_⟩
        · obtain ⟨f, hf⟩ := lookup_step_of_writes hr hw
          rw [hlookup] at hf
          rw [Option.some.inj hf]
          rfl
        · rw [hc r' hlookup, hafter] at hrest
          simp only [if_true, hfound, hval, Option.toList_some, List.singleton_append, List.map_cons,
            arcs, hrest, hblocks, he.nac]

end Versions

/-- Versions that lie one behind the other share no counter block exactly when they do
not go round the cycle of counter blocks. -/
theorem pairwise_counters_iff {es : List Entry} {c : Block} {k : List UInt8} {vs : List (List UInt8)}
    (harcs : es.map (fun e => (e.nac, e.blocks)) = arcs nacSize c (vs.map (valBlocks k))) :
    es.Pairwise (fun e e' => Disjoint e.counters e'.counters) ↔
      vs.length ≤ 1 ∨ (vs.map (valBlocks k)).sum ≤ 2 ^ 16 := by
  have hpos : ∀ b ∈ vs.map (valBlocks k), 0 < b := by
    intro b hb
    obtain ⟨v, -, rfl⟩ := List.mem_map.mp hb
    exact numBlocks_pos (by omega)
  have hiff := pairwise_disjoint_arcs_iff (w := nacSize) (by decide) hpos c
  rw [← harcs, List.pairwise_map, List.length_map] at hiff
  exact hiff

/-- **When the versions of a key share no counter block**: when at most one is written,
or all that are written use at most `2 ^ 16` blocks.  The run is any that is defined. -/
theorem counters_disjoint_iff {arg : Arg} (sdk : Sdk) (ha : arg.Valid) {qs : List Req}
    (hqs : ∀ q ∈ qs, q.WellFormed arg) {s : Store} {outs : List Outcome}
    (hrun : run (serveStep arg sdk) (enclaveInitValues arg) qs = some (s, outs)) (k : List UInt8) :
    (versions arg sdk k (enclaveInitValues arg) qs).Pairwise
        (fun e e' => Disjoint e.counters e'.counters) ↔
      (StringMap.values k .empty qs).length ≤ 1 ∨
        ((StringMap.values k .empty qs).map (valBlocks k)).sum ≤ 2 ^ 16 := by
  obtain ⟨c, -, harcs⟩ :=
    versions_eq_arcs ha qs .empty _ _ _ (Holds.init sdk).stocked hqs hrun
  exact pairwise_counters_iff harcs

/-- A key whose value outgrows the messages of 16 bytes. -/
theorem counters_disjoint_iff_long :
    (versions ⟨1, 16, 1, 1, false, false⟩ Sdk.aes [0x6b]
      (enclaveInitValues ⟨1, 16, 1, 1, false, false⟩)
      [⟨.set [0x6b] (List.replicate 8 0x76), false, 1⟩,
        ⟨.append [0x6b] (List.replicate 8 0x77), false, 0⟩]).Pairwise
          (fun e e' => Disjoint e.counters e'.counters) := by
  obtain ⟨⟨s, outs⟩, hrun⟩ := Option.isSome_iff_exists.mp (show (run
    (serveStep ⟨1, 16, 1, 1, false, false⟩ Sdk.aes) (enclaveInitValues ⟨1, 16, 1, 1, false, false⟩)
    [⟨.set [0x6b] (List.replicate 8 0x76), false, 1⟩,
      ⟨.append [0x6b] (List.replicate 8 0x77), false, 0⟩]).isSome = true by decide +kernel)
  exact (counters_disjoint_iff Sdk.aes (by decide) (by decide) hrun [0x6b]).mpr (Or.inr (by decide))

theorem overlap_of_long {v : List UInt8} (hnul : (0 : UInt8) ∉ v) (hlen : v.length = 2 ^ 20) :
    ¬ (versions ⟨1, 2 ^ 22, 1, 1, false, false⟩ Sdk.aes [0x6b]
      (enclaveInitValues ⟨1, 2 ^ 22, 1, 1, false, false⟩)
      [⟨.set [0x6b] v, false, 1⟩, ⟨.set [0x6b] v, false, 0⟩]).Pairwise
        (fun e e' => Disjoint e.counters e'.counters) := by
  have hq : ∀ rand, Req.WellFormed ⟨1, 2 ^ 22, 1, 1, false, false⟩ ⟨.set [0x6b] v, false, rand⟩ := by
    intro rand
    refine ⟨show IsWord 0x20 [0x6b] by decide, hnul, ?_⟩
    simp only [Req.text, Op.args, List.length_append, length_verb, List.length_cons,
      List.length_nil, hlen]
    omega
  have hroom := @room_of_bucketKeys ⟨1, 2 ^ 22, 1, 1, false, false⟩
    [⟨.set [0x6b] v, false, 1⟩, ⟨.set [0x6b] v, false, 0⟩]
    (fits_of_sum_le (by simp only [List.map_cons, Op.val, hlen]; decide)) (fun h => by cases h)
  have hqs : ∀ q ∈ [(⟨.set [0x6b] v, false, 1⟩ : Req), ⟨.set [0x6b] v, false, 0⟩],
      q.WellFormed ⟨1, 2 ^ 22, 1, 1, false, false⟩ := by
    intro q hmem
    rcases List.mem_pair.mp hmem with rfl | rfl
    · exact hq 1
    · exact hq 0
  obtain ⟨s, outs, hrun, -⟩ := exists_run_serveStep Sdk.aes (by decide) hqs hroom
  obtain ⟨c, -, harcs⟩ := versions_eq_arcs (k := [0x6b]) (by decide) _ .empty _ _ _
    (Holds.init Sdk.aes).stocked hqs hrun
  rw [pairwise_counters_iff harcs]
  have hvalues : StringMap.values [0x6b] (Recs.map ⟨1, 2 ^ 22, 1, 1, false, false⟩ .empty)
      [⟨.set [0x6b] v, false, 1⟩, ⟨.set [0x6b] v, false, 0⟩] = [v, v] := by
    simp [StringMap.values, StringMap.step, Op.writes]
  rw [hvalues]
  simp only [List.length_cons, List.length_nil, List.map_cons, List.map_nil, valBlocks, numBlocks,
    hlen]
  decide

/-- **Two versions that share counter blocks.**  A key is set to a value of a megabyte,
and set again. -/
theorem counters_overlap :
    ¬ (versions ⟨1, 2 ^ 22, 1, 1, false, false⟩ Sdk.aes [0x6b]
      (enclaveInitValues ⟨1, 2 ^ 22, 1, 1, false, false⟩)
      [⟨.set [0x6b] (List.replicate (2 ^ 20) 0x61), false, 1⟩,
        ⟨.set [0x6b] (List.replicate (2 ^ 20) 0x61), false, 0⟩]).Pairwise
          (fun e e' => Disjoint e.counters e'.counters) :=
  overlap_of_long (fun h => absurd (List.eq_of_mem_replicate h) (by decide)) List.length_replicate

end ShieldStore
