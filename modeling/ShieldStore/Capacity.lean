import ShieldStore.Honest

/-!
# What fits where

Two objects of fixed size are written with lengths that come from the history of a
run: the 30 slots of a bucket's MAC buffer, by `ht_set_o` and `ht_append_o`, and the
message buffer, by the copy of the reply.  Neither length is checked.

Both are read off the search that precedes the write.  The MAC of a new entry goes to
the slot behind those of its bucket, so that the thirty-first key of a bucket has none;
the value a `GET` copies is as long as the `SET` and the `APP`s of its key have made
it, and each of these came in a message of its own.

## Main definitions

* `macWrite` — the slot of a MAC buffer that a request writes.
* `replyCopy` — how many bytes a request copies into the message buffer.

## Main results

* `macbuf_capacity_iff` — the buffers suffice as long as no bucket has more than 30 keys.
* `replies_fit_iff` — the reply to a `GET` fits if the value does.
-/

namespace ShieldStore

open Bytes Counter CMem Run

/-! ### The search before a write -/

/-- What the search for a key finds, as the records and the map have it. -/
theorem Stocked.search {arg : Arg} {sdk : Sdk} {R : Recs} {s : Store} (ha : arg.Valid)
    (h : Stocked arg sdk R s) {k : List UInt8} (hk : k.length + 5 ≤ arg.maxBufSize) :
    (R.map arg k = none ∧ k ∉ (R (htHash arg (cstr k))).map Rec.key ∧
      htGetO arg sdk s (cstr k) (strSize k) =
        some ⟨none, none, (R (htHash arg (cstr k))).length, 0⟩) ∨
    ∃ e r pos, R.map arg k = some r.val ∧ k ∈ (R (htHash arg (cstr k))).map Rec.key ∧
      Carries sdk e r ∧ r.key = k ∧ pos < (R (htHash arg (cstr k))).length ∧
      htGetO arg sdk s (cstr k) (strSize k) = some ⟨some e, some r.plain, pos, r.next⟩ := by
  have hbuf := ha.buf_lt
  by_cases hmem : k ∈ (R (htHash arg (cstr k))).map Rec.key
  · obtain ⟨pre, r, post, hR, rfl, hpre, -⟩ := h.ok.split hmem
    obtain ⟨pre', e, post', hchain, hpre', he, -⟩ := h.chain_of_split hR
    refine Or.inr ⟨e, r, pre'.length, map_of_split hR hpre, hmem, he, rfl, ?_,
      h.htGetO_present ha hchain hpre' he hpre⟩
    rw [hR, hpre'.length_eq, List.length_append, List.length_cons]
    omega
  · refine Or.inl ⟨map_eq_none_iff.mpr hmem, hmem, ?_⟩
    rw [← (h.chain _).length_eq]
    exact h.htGetO_absent ha (by omega) hmem

/-! ### MAC buffers -/

/-- A write to the MAC buffers: the bucket, the slot in its array, and the size of the
buffer afterwards. -/
structure MacWrite where
  bucket : ℕ
  slot : ℤ
  size : ℤ
  deriving DecidableEq

/-- What a request writes to the MAC buffers. -/
def macWrite (arg : Arg) (sdk : Sdk) (s : Store) (q : Req) : Option MacWrite := do
  if arg.macOpt then
    let bin := htHash arg (cstr q.op.key)
    let l ← htGetO arg sdk s (cstr q.op.key) (strSize q.op.key)
    let e ← s.macbuf[bin]?
    match q.op, l.pair with
    | .set _ _, some _ => return ⟨bin, e.size - l.kvPos - 1, e.size⟩
    | .set _ _, none => return ⟨bin, l.kvPos, e.size + 1⟩
    | .append _ _, some _ => return ⟨bin, l.kvPos, e.size⟩
    | .append _ _, none | .get _, _ => none
  else none

/-- The write stays in the array of its bucket, and so does the size. -/
structure MacWrite.Fits (w : MacWrite) : Prop where
  slot : 0 ≤ w.slot ∧ w.slot < macSlots
  size : 0 ≤ w.size ∧ w.size ≤ macSlots

section MacBuffers

variable {arg : Arg} {sdk : Sdk} {R : Recs} {s : Store} (ha : arg.Valid) (h : Stocked arg sdk R s)
  (hmac : arg.macOpt = true)

include h hmac

/-- The size of a MAC buffer is the number of its bucket's records. -/
theorem Stocked.size_buf {b : ℕ} (hb : b < arg.bucketSize) :
    (s.buf b).size = (R b).length ∧ (R b).length ≤ macSlots := by
  rw [← (h.chain b).length_eq]
  exact h.sized hmac b hb

include ha

/-- Of the MACs, only that of a new entry has a slot that may be missing. -/
theorem Stocked.macWrite_cases {q : Req} (hq : q.WellFormed arg) :
    (∃ k, q.op.inserts = some k ∧ k ∉ (R (htHash arg (cstr k))).map Rec.key ∧
      macWrite arg sdk s q = some ⟨htHash arg (cstr k), (R (htHash arg (cstr k))).length,
        (R (htHash arg (cstr k))).length + 1⟩) ∨
    ((∀ k, q.op.inserts = some k → k ∈ (R (htHash arg (cstr k))).map Rec.key) ∧
      ∀ w, macWrite arg sdk s q = some w → w.Fits) := by
  have hb : ∀ k, htHash arg (cstr k) < arg.bucketSize := fun k =>
    Arg.Valid.htHash_lt ha.bucket_pos _
  have hkey := hq.key_lt
  obtain ⟨op, lower, rand⟩ := q
  unfold macWrite
  rw [hmac]
  cases op with
  | get k =>
    refine Or.inr ⟨fun k' hins => (by cases hins), ?_⟩
    simp
  | append k v =>
    obtain ⟨hsize, hle⟩ := h.size_buf hmac (hb k)
    -- an `APP` writes a slot of the chain, never one behind it
    refine Or.inr ⟨fun k' hins => (by cases hins), fun w hw => ?_⟩
    rcases h.search ha hkey with ⟨-, -, hget⟩ | ⟨e, r, pos, -, -, -, -, hpos, hget⟩
    · simp [Op.key, show htGetO arg sdk s (cstr k) (strSize k) = _ from hget] at hw
    · simp only [Op.key, show htGetO arg sdk s (cstr k) (strSize k) = _ from hget,
        h.shaped.macbuf_getElem? (hb k), Option.bind_eq_bind, Option.bind_some, Option.pure_def,
        if_true, Option.some.injEq] at hw
      dsimp only [Op.key] at hpos
      subst hw
      exact ⟨by dsimp only; omega, by dsimp only; omega⟩
  | set k v =>
    obtain ⟨hsize, hle⟩ := h.size_buf hmac (hb k)
    rcases h.search ha hkey with ⟨-, hmem, hget⟩ | ⟨e, r, pos, -, hmem, -, -, hpos, hget⟩
    -- a `SET` of a new key writes the slot behind the last
    · refine Or.inl ⟨k, rfl, hmem, ?_⟩
      simp [Op.key, show htGetO arg sdk s (cstr k) (strSize k) = _ from hget,
        h.shaped.macbuf_getElem? (hb k), hsize]
    · refine Or.inr ⟨fun k' hins => ?_, fun w hw => ?_⟩
      · obtain rfl : k = k' := Option.some.inj hins
        exact hmem
      · simp only [Op.key, show htGetO arg sdk s (cstr k) (strSize k) = _ from hget,
          h.shaped.macbuf_getElem? (hb k), Option.bind_eq_bind, Option.bind_some, Option.pure_def,
          if_true, Option.some.injEq] at hw
        dsimp only [Op.key] at hpos
        subst hw
        exact ⟨by dsimp only; omega, by dsimp only; omega⟩

/-- A request is served only if the slot it writes exists. -/
theorem Stocked.macWrite_of_serve {q : Req} (hq : q.WellFormed arg) {out : Outcome}
    (hout : serve arg sdk s q = some out) {w : MacWrite} (hw : macWrite arg sdk s q = some w) :
    w.Fits := by
  rcases h.macWrite_cases ha hmac hq with ⟨k, hins, habs, heq⟩ | ⟨-, hfits⟩
  · obtain rfl := Option.some.inj (heq.symm.trans hw)
    rw [serve_eq sdk ha hq] at hout
    obtain ⟨op, lower, rand⟩ := q
    cases op with
    | get k' => cases hins
    | append k' v => cases hins
    | set k' v =>
      obtain rfl : k' = k := Option.some.inj hins
      have hlt : (R (htHash arg (cstr k'))).length < macSlots :=
        h.length_lt_of_set ha hmac hq.key_lt habs hout
      exact ⟨by dsimp only; omega, by dsimp only; omega⟩
  · exact hfits w hw

end MacBuffers

/-- **When the MAC buffers suffice.**  With MAC bucketing, after any run of requests and
for any further one: the sizes of all buffers are between 0 and 30, and what the
request writes lands in the slots of its bucket and leaves such a size, just when no
bucket has had more than 30 keys. -/
theorem macbuf_capacity_iff {arg : Arg} (sdk : Sdk) (ha : arg.Valid) (hmac : arg.macOpt = true)
    {qs : List Req} (hqs : ∀ q ∈ qs, q.WellFormed arg) {s : Store} {outs : List Outcome}
    (hrun : run (serveStep arg sdk) (enclaveInitValues arg) qs = some (s, outs)) {q : Req}
    (hq : q.WellFormed arg) :
    ((∀ b < arg.bucketSize, 0 ≤ (s.buf b).size ∧ (s.buf b).size ≤ macSlots) ∧
        ∀ w, macWrite arg sdk s q = some w → w.Fits) ↔
      ∀ b, (bucketKeys arg b (qs ++ [q])).length ≤ macSlots := by
  have h := stocked_of_run ha hqs hrun
  have hsizes : ∀ b < arg.bucketSize, 0 ≤ (s.buf b).size ∧ (s.buf b).size ≤ macSlots := by
    intro b hb
    obtain ⟨hsize, hle⟩ := h.size_buf hmac hb
    rw [hsize]
    exact ⟨Int.natCast_nonneg _, by exact_mod_cast hle⟩
  -- buckets that do not exist have no keys
  have hslots : ∀ b, (Recs.after arg qs b).length ≤ macSlots := by
    intro b
    by_cases hb : b < arg.bucketSize
    · exact (h.size_buf hmac hb).2
    · have hnil : Recs.after arg qs b = [] := by
        refine List.eq_nil_iff_forall_not_mem.mpr fun r hr => hb ?_
        rw [← h.ok.hash b r hr]
        exact Arg.Valid.htHash_lt ha.bucket_pos _
      rw [hnil]
      exact Nat.zero_le _
  simp only [length_bucketKeys, Recs.after_concat]
  rcases h.macWrite_cases ha hmac hq with ⟨k, hins, habs, heq⟩ | ⟨hmem, hfits⟩
  · -- an insert
    constructor
    · rintro ⟨-, hw⟩
      have hslot := (hw _ heq).slot.2
      dsimp only at hslot
      refine length_step_le hslots fun k' hins' _ => ?_
      obtain rfl := Option.some.inj (hins.symm.trans hins')
      omega
    · intro hle
      refine ⟨hsizes, fun w hw => ?_⟩
      obtain rfl := Option.some.inj (heq.symm.trans hw)
      have hnext := hle (htHash arg (cstr k))
      obtain ⟨op, lower, rand⟩ := q
      cases op with
      | get k' => cases hins
      | append k' v => cases hins
      | set k' v =>
        obtain rfl : k' = k := Option.some.inj hins
        have hstep : (Recs.after arg qs).step arg ⟨.set k' v, lower, rand⟩ =
            (Recs.after arg qs).change arg k' (setKey k' v rand) := rfl
        rw [hstep, Recs.change, Function.update_self, setKey_of_notMem habs, List.length_cons] at hnext
        exact ⟨by dsimp only; omega, by dsimp only; omega⟩
  · -- every other request finds its slot
    refine ⟨fun _ => length_step_le hslots fun k hins habs => absurd (hmem k hins) habs,
      fun _ => ⟨hsizes, hfits⟩⟩

/-- The second key of a bucket has its slot. -/
theorem macbuf_capacity_iff_second :
    ∃ s outs, run (serveStep ⟨1, 64, 1, 1, false, true⟩ Sdk.aes)
        (enclaveInitValues ⟨1, 64, 1, 1, false, true⟩) [⟨.set [0x6b] [0x76], false, 1⟩] =
          some (s, outs) ∧
      ∀ w, macWrite ⟨1, 64, 1, 1, false, true⟩ Sdk.aes s ⟨.set [0x6c] [0x76], false, 2⟩ = some w →
        w.Fits := by
  obtain ⟨⟨s, outs⟩, hrun⟩ := Option.isSome_iff_exists.mp (show (run
    (serveStep ⟨1, 64, 1, 1, false, true⟩ Sdk.aes) (enclaveInitValues ⟨1, 64, 1, 1, false, true⟩)
    [⟨.set [0x6b] [0x76], false, 1⟩]).isSome = true by decide +kernel)
  refine ⟨s, outs, hrun, ?_⟩
  exact ((macbuf_capacity_iff Sdk.aes (by decide) rfl (by decide) hrun (by decide)).mpr fun b =>
    (length_bucketKeys_le_length _ b _).trans (by decide)).2

/-- Thirty keys for one bucket. -/
def fullBucket : List Req := (List.range 30).map fun i =>
  ⟨.set [UInt8.ofNat (0x41 + i)] [0x76], false, i⟩

/-- **The thirty-first key of a bucket.**  Its MAC goes to slot 30, behind the array. -/
theorem macbuf_overflow :
    ∃ s outs, (∀ q ∈ fullBucket, q.WellFormed ⟨1, 64, 1, 1, false, true⟩) ∧
      run (serveStep ⟨1, 64, 1, 1, false, true⟩ Sdk.aes)
        (enclaveInitValues ⟨1, 64, 1, 1, false, true⟩) fullBucket = some (s, outs) ∧
      macWrite ⟨1, 64, 1, 1, false, true⟩ Sdk.aes s ⟨.set [0x6b] [0x76], false, 0⟩ =
        some ⟨0, 30, 31⟩ ∧
      serve ⟨1, 64, 1, 1, false, true⟩ Sdk.aes s ⟨.set [0x6b] [0x76], false, 0⟩ = none := by
  have hqs : ∀ q ∈ fullBucket, q.WellFormed ⟨1, 64, 1, 1, false, true⟩ := by decide
  have hroom := @room_of_bucketKeys ⟨1, 64, 1, 1, false, true⟩ fullBucket
    (fits_of_sum_le (by decide)) fun _ b => (length_bucketKeys_le_length _ b _).trans (by decide)
  obtain ⟨s, outs, hrun, hholds, -⟩ :=
    @exists_run_serveStep ⟨1, 64, 1, 1, false, true⟩ Sdk.aes (by decide) _ hqs hroom
  have hnew : Req.WellFormed ⟨1, 64, 1, 1, false, true⟩ ⟨.set [0x6b] [0x76], false, 0⟩ := by decide
  have hwrite : macWrite ⟨1, 64, 1, 1, false, true⟩ Sdk.aes s ⟨.set [0x6b] [0x76], false, 0⟩ =
      some ⟨0, 30, 31⟩ := by
    rcases hholds.stocked.macWrite_cases (by decide) rfl hnew with ⟨k, hins, -, heq⟩ | ⟨hmem, -⟩
    · obtain rfl : [0x6b] = k := Option.some.inj hins
      rw [heq]
      decide +kernel
    · exact absurd (hmem [0x6b] rfl) (by decide +kernel)
  refine ⟨s, outs, hqs, hrun, hwrite, ?_⟩
  rw [Option.eq_none_iff_forall_ne_some]
  intro out hout
  have hslot := (hholds.stocked.macWrite_of_serve (by decide) rfl hnew hout hwrite).slot.2
  exact absurd hslot (by decide)

/-! ### Replies -/

/-- How many bytes a request copies into the message buffer. -/
def replyCopy (arg : Arg) (sdk : Sdk) (s : Store) (q : Req) : Option ℕ := do
  let l ← htGetO arg sdk s (cstr q.op.key) (strSize q.op.key)
  match q.op, l.pair with
  | .get _, some entry => return entry.valSize.toNat
  | .set k _, _ => return (strSize k).toNat
  | .append k _, some _ => return (strSize k).toNat
  | .get _, none | .append _ _, none => none

/-- What is copied depends on the map only: the value for a `GET`, the key for the
others. -/
theorem Stocked.replyCopy_eq {arg : Arg} {sdk : Sdk} {R : Recs} {s : Store} (ha : arg.Valid)
    (h : Stocked arg sdk R s) {q : Req} (hq : q.WellFormed arg) :
    replyCopy arg sdk s q = match q.op with
      | .get k => (R.map arg k).map fun v => v.length + 1
      | .set k _ => some (k.length + 1)
      | .append k _ => (R.map arg k).map fun _ => k.length + 1 := by
  have hbuf := ha.buf_lt
  have hkey := hq.key_lt
  have hsize : ∀ k, k.length + 5 ≤ arg.maxBufSize → (strSize k).toNat = k.length + 1 :=
    fun k hk => toNat_strSize (by omega)
  obtain ⟨op, lower, rand⟩ := q
  unfold replyCopy
  rcases h.search ha hkey with ⟨hmap, -, hget⟩ | ⟨e, r, pos, hmap, -, he, -, -, hget⟩
  · rw [hget]
    cases op with
    | get k => simp [show R.map arg k = none from hmap]
    | set k v => simp [hsize k hkey]
    | append k v => simp [show R.map arg k = none from hmap]
  · rw [hget]
    cases op with
    | get k => simp [show R.map arg k = some r.val from hmap, he.toNat_valSize]
    | set k v => simp [hsize k hkey]
    | append k v => simp [show R.map arg k = some r.val from hmap, hsize k hkey]

/-- A request is served only if what it copies fits. -/
theorem replyCopy_le_of_serve {arg : Arg} {sdk : Sdk} {s : Store} (ha : arg.Valid) {q : Req}
    (hq : q.WellFormed arg) {out : Outcome} (hout : serve arg sdk s q = some out) {n : ℕ}
    (hn : replyCopy arg sdk s q = some n) : n ≤ arg.maxBufSize := by
  have hbuf := ha.buf_lt
  have hkey := hq.key_lt
  have hsize : (strSize q.op.key).toNat = q.op.key.length + 1 := toNat_strSize (by omega)
  rw [serve_eq sdk ha hq] at hout
  obtain ⟨l, hget, hn⟩ := Option.bind_eq_some_iff.mp hn
  obtain ⟨op, lower, rand⟩ := q
  cases op with
  | set k v =>
    obtain rfl := Option.some.inj hn
    dsimp only [Op.key] at hsize hkey
    omega
  | append k v =>
    dsimp only [Op.key] at hsize hkey
    cases hpair : l.pair with
    | none => rw [hpair] at hn; cases hn
    | some e =>
      rw [hpair] at hn
      obtain rfl := Option.some.inj hn
      omega
  | get k =>
    cases hpair : l.pair with
    | none => rw [hpair] at hn; cases hn
    | some e =>
      rw [hpair] at hn
      obtain rfl := Option.some.inj hn
      -- the value is as long as it was stored, and only the copy has a bound
      obtain ⟨log, ret, plain, reply, -, -, -, hreply, -⟩ := getKeyVal_eq_some hout hget hpair
      have hle := (memcpy_eq_some_iff.mp hreply).1.1
      rwa [Nat.zero_add, length_malloc] at hle

/-- **When replies fit.**  After any run of requests, each in a message of its own, and for
any further one: the copy of the reply is not longer than the message buffer, just
when the request is not a `GET` of a value that is. -/
theorem replies_fit_iff {arg : Arg} (sdk : Sdk) (ha : arg.Valid) {qs : List Req}
    (hqs : ∀ q ∈ qs, q.WellFormed arg) {s : Store} {outs : List Outcome}
    (hrun : run (serveStep arg sdk) (enclaveInitValues arg) qs = some (s, outs)) {q : Req}
    (hq : q.WellFormed arg) :
    (∀ n, replyCopy arg sdk s q = some n → n ≤ arg.maxBufSize) ↔
      ∀ k v, q.op = .get k → StringMap.after qs k = some v → v.length + 1 ≤ arg.maxBufSize := by
  have h := stocked_of_run ha hqs hrun
  have hkey := hq.key_lt
  rw [h.replyCopy_eq ha hq, map_after]
  obtain ⟨op, lower, rand⟩ := q
  cases op with
  | set k v =>
    refine ⟨fun _ k' v' hop => (by cases hop), fun _ n hn => ?_⟩
    obtain rfl := Option.some.inj hn
    -- a key came in a message, so that it fits one
    exact (show k.length + 1 ≤ arg.maxBufSize by dsimp only [Op.key] at hkey; omega)
  | append k v =>
    refine ⟨fun _ k' v' hop => (by cases hop), fun _ n hn => ?_⟩
    obtain ⟨v', -, rfl⟩ := Option.map_eq_some_iff.mp hn
    dsimp only [Op.key] at hkey
    omega
  | get k =>
    constructor
    · intro hfit k' v hop hv
      obtain rfl : k = k' := Op.get.inj hop
      dsimp only at hfit
      rw [hv] at hfit
      exact hfit _ rfl
    · intro hfit n hn
      obtain ⟨v, hv, rfl⟩ := Option.map_eq_some_iff.mp hn
      exact hfit k v rfl hv

/-- A value of two parts that still fits. -/
theorem replies_fit_iff_append :
    ∃ s outs, run (serveStep ⟨1, 16, 1, 1, false, false⟩ Sdk.aes)
        (enclaveInitValues ⟨1, 16, 1, 1, false, false⟩)
        [⟨.set [0x6b] [0x76], false, 1⟩, ⟨.append [0x6b] [0x77], false, 2⟩] = some (s, outs) ∧
      ∀ n, replyCopy ⟨1, 16, 1, 1, false, false⟩ Sdk.aes s ⟨.get [0x6b], false, 3⟩ = some n → n ≤ 16 := by
  obtain ⟨⟨s, outs⟩, hrun⟩ := Option.isSome_iff_exists.mp (show (run
    (serveStep ⟨1, 16, 1, 1, false, false⟩ Sdk.aes) (enclaveInitValues ⟨1, 16, 1, 1, false, false⟩)
    [⟨.set [0x6b] [0x76], false, 1⟩, ⟨.append [0x6b] [0x77], false, 2⟩]).isSome = true by
      decide +kernel)
  refine ⟨s, outs, hrun, ?_⟩
  refine (replies_fit_iff Sdk.aes (by decide) (by decide) hrun (by decide)).mpr ?_
  intro k v hop hv
  exact @fits_of_sum_le ⟨1, 16, 1, 1, false, false⟩ _ (by decide) _ (List.prefix_refl _) k v hv

/-- **A value longer than a message.**  A `SET` and an `APP` of eight bytes each, in
messages of 16 bytes; the `GET` copies 17. -/
theorem reply_overflow :
    ((run (serveStep ⟨1, 16, 1, 1, false, false⟩ Sdk.aes)
        (enclaveInitValues ⟨1, 16, 1, 1, false, false⟩)
        [⟨.set [0x6b] (List.replicate 8 0x76), false, 1⟩,
          ⟨.append [0x6b] (List.replicate 8 0x77), false, 2⟩]).map fun p =>
      (replyCopy ⟨1, 16, 1, 1, false, false⟩ Sdk.aes p.1 ⟨.get [0x6b], false, 3⟩,
        (serve ⟨1, 16, 1, 1, false, false⟩ Sdk.aes p.1 ⟨.get [0x6b], false, 3⟩).isSome)) =
      some (some 17, false) := by
  decide +kernel

end ShieldStore
