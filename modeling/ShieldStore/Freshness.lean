import ShieldStore.MacBuffer
import ShieldStore.Locality

/-!
# Reading memory the host has written

A genuine store: its table is the image of records, and its roots authenticate the
MACs of its groups.  The host replaces the table and the MAC buffers; the roots
stay.  If a `GET` then finds an entry and prints no failure, is the reply the value
of the genuine store?

Without MAC bucketing it is.  The root authenticates the MAC of the very entry that
is found.  With MAC bucketing the root authenticates the MACs in the buffers, and
nothing compares the MAC of the entry with them: an old version of an entry, with
the MAC it had, passes both checks, and so does an entry that the host has made up, as
the key of the enclave is written in its source.

## Main definitions

* `groupRecs` — the records of a group in the order of its MACs.
* `Store.hold` — memory with a given list in the MAC buffers of a group.

## Main results

* `get_fresh` — without MAC bucketing the reply is the current value.
* `exists_forged` — with MAC bucketing it can be any value.
* `get_fresh_iff` — so it is the current value only where no `GET` can pass.
* `get_replayed_of_macOpt` — an old version that passes both checks.
-/

namespace ShieldStore

open Bytes Counter CMem Run Pieces

/-! ### The records of a group -/

/-- The records of a bucket in the order of its MACs. -/
def bucketRecs (arg : Arg) (R : Recs) (b : ℕ) : List Rec := if arg.macOpt then (R b).reverse else R b

/-- The records of a group in the order of its MACs. -/
def groupRecs (arg : Arg) (R : Recs) (g : ℕ) : List Rec :=
  (List.range' (g * arg.ratio) arg.ratio).flatMap (bucketRecs arg R)

theorem mem_bucketRecs {arg : Arg} {R : Recs} {b : ℕ} {r : Rec} : r ∈ bucketRecs arg R b ↔ r ∈ R b := by
  unfold bucketRecs
  split
  · exact List.mem_reverse
  · exact Iff.rfl

/-- A record of a group is in a bucket of the group. -/
theorem mem_groupRecs {arg : Arg} {R : Recs} {g : ℕ} {r : Rec} (h : r ∈ groupRecs arg R g) :
    ∃ b ∈ List.range' (g * arg.ratio) arg.ratio, r ∈ R b := by
  obtain ⟨b, hb, hr⟩ := List.mem_flatMap.mp h
  exact ⟨b, hb, mem_bucketRecs.mp hr⟩

/-- The first bucket of a group. -/
theorem rootIndex_mul {arg : Arg} (ha : arg.Valid) (g : ℕ) : rootIndex arg (g * arg.ratio) = g :=
  Nat.mul_div_cancel g ha.ratio_pos

section Genuine

variable {arg : Arg} {sdk : Sdk} {R : Recs} {s : Store} (ha : arg.Valid)
  (h : Holds arg sdk R s) (hroot : Rooted arg sdk s)

include h hroot

theorem Rooted.bucketMacs_eq {b : ℕ} (hb : b < arg.bucketSize) :
    bucketMacs arg s b = (bucketRecs arg R b).map (Rec.mac sdk) := by
  rw [hroot.mirror b hb, h.chain]
  unfold ordered bucketRecs
  split
  · rw [List.map_map, ← List.map_reverse]
    rfl
  · rw [List.map_map]
    rfl

include ha

/-- The MACs of a group are those of its records. -/
theorem Rooted.groupMacs_eq {b : ℕ} (hb : b < arg.bucketSize) :
    groupMacs arg s b = (groupRecs arg R (rootIndex arg b)).map (Rec.mac sdk) := by
  unfold groupMacs groupRecs
  rw [List.map_flatMap]
  refine List.flatMap_congr fun i hi => ?_
  exact hroot.bucketMacs_eq h (ha.lt_of_mem_groupRange hb hi)

/-- The roots of a genuine store commit to its records, and still do when the rest of
the memory is replaced. -/
theorem Rooted.commits {M : Set (List UInt8)} (hM : ∀ m ∈ messages arg s, m ∈ M)
    (hempty : ∀ b < arg.bucketSize, groupMacs arg s b = [] →
      s.root (rootIndex arg b) = rootTag sdk [] ∨ s.root (rootIndex arg b) ∉ sdk.tag '' M)
    {t : Store} (htable : t.macTable = s.macTable) : Commits arg sdk M (groupRecs arg R) t := by
  have hsame : ∀ g, t.root g = s.root g := by
    intro g
    unfold Store.root
    rw [htable]
  constructor
  · intro g r hr
    obtain ⟨b, -, hr⟩ := mem_groupRecs hr
    exact h.fits b r hr
  · intro g r hr
    obtain ⟨b, -, hr⟩ := mem_groupRecs hr
    have hmem : r.entryWith sdk [] ∈ s.chain b := by
      rw [h.chain b]
      exact List.mem_map_of_mem hr
    exact hM _ (mem_messages_entry arg hmem (message?_entryWith (h.fits b r hr) sdk []))
  · intro g hg
    have hb : g * arg.ratio < arg.bucketSize := by
      rw [← ha.ratio_mul]
      exact Nat.mul_lt_mul_of_pos_right hg ha.ratio_pos
    have hmacs := hroot.groupMacs_eq ha h hb
    have hknown := hM _ (mem_messages_root hb s)
    have hnil := hempty _ hb
    have htag := hroot.roots _ hb
    rw [rootMessage] at hknown
    rw [rootIndex_mul ha] at hmacs hnil htag
    rw [hsame, ← hmacs]
    -- the root of an empty group may never have been written
    by_cases hne : groupMacs arg s (g * arg.ratio) = []
    · rcases hnil hne with hroot' | hnone
      · exact Or.inl ⟨by rw [hroot', hne], hknown⟩
      · refine Or.inr ⟨?_, hnone⟩
        rw [hmacs, List.map_eq_nil_iff] at hne
        exact hne
    · exact Or.inl ⟨htag hne, hknown⟩

end Genuine

/-! ### Without MAC bucketing -/

/-- The MAC of an entry of a chain is among the MACs of the group. -/
theorem mem_groupMacs_of_chain {arg : Arg} (ha : arg.Valid) (hmac : arg.macOpt = false) {s : Store}
    {b : ℕ} {e : Entry} (he : e ∈ s.chain b) : e.mac ∈ groupMacs arg s b := by
  refine List.mem_flatMap.mpr ⟨b, ha.mem_groupRange_iff.mpr rfl, ?_⟩
  unfold bucketMacs macsOf
  rw [hmac]
  exact List.mem_map_of_mem he

/-- The parts of a `GET` that finds an entry and prints no failure. -/
theorem get_clean {arg : Arg} {sdk : Sdk} {s : Store} {k cipher : List UInt8} {out : Outcome}
    (ha : arg.Valid) (hs : s.Shaped arg)
    (hout : getKeyVal arg sdk s cipher (cstr k) (strSize k) = some out)
    (hclean : Clean out.log) {l : Lookup} {e : Entry}
    (hget : htGetO arg sdk s (cstr k) (strSize k) = some l) (hpair : l.pair = some e) :
    ∃ msg plain keyHash, e ∈ s.chain (htHash arg (cstr k)) ∧
      e.message? = some msg ∧ sdk.tag msg = e.mac ∧
      enclaveVerifyTreeRoot arg sdk s (htHash arg (cstr k)) = some .success ∧
      l.plainKeyVal = some plain ∧
      Answers arg sdk (cstr k) (strSize k) keyHash e plain l.updatedNac ∧
      replyBuf arg (plain.drop e.keySize.toNat) e.valSize.toNat = some out.cipher := by
  obtain ⟨log, ret, plain, reply, hlog, hret, hplain, hreply, rfl⟩ :=
    getKeyVal_eq_some hout hget hpair
  obtain ⟨hclean₁, hclean₂⟩ := clean_append.mp hclean
  obtain ⟨msg, hmsg, htag⟩ := tag_eq_of_clean hlog hclean₁
  obtain rfl := eq_success_of_clean hclean₂
  rcases htGetO_cases ha hs hget with ⟨hnone, -⟩ | ⟨pre, e', post, p, hchain, hpair', hplain', -, hans⟩
  · rw [hnone] at hpair
    cases hpair
  · obtain rfl : e = e' := Option.some.inj (hpair.symm.trans hpair')
    obtain rfl : plain = p := Option.some.inj (hplain.symm.trans hplain')
    exact ⟨msg, plain, _, by rw [hchain]; simp, hmsg, htag, hret, hplain, hans, hreply⟩

/-- The reply to a `GET` that finds the entry of a record. -/
theorem replyBuf_of_answers {arg : Arg} (ha : arg.Valid) {sdk : Sdk} {r : Rec} (hr : r.Fits)
    (hv : r.val.length + 1 ≤ arg.maxBufSize) {k plain rest reply : List UInt8}
    (hk : k.length + 1 < 2 ^ 32) {keyHash : UInt8} {nac : Block}
    (hans : Answers arg sdk (cstr k) (strSize k) keyHash (r.entryWith sdk rest) plain nac)
    (hreply : replyBuf arg (plain.drop (r.entryWith sdk rest).keySize.toNat)
      (r.entryWith sdk rest).valSize.toNat = some reply) :
    r.key = k ∧ reply = padded arg r.val := by
  obtain ⟨hkey, rfl, -⟩ := hans.of_carries hr.carries hk
  have hsize : (r.entryWith sdk rest).keySize.toNat = r.key.length + 1 := hr.toNat_keySize
  have hval := replyBuf_cstr ha hv
  rw [hsize, drop_plain] at hreply
  exact ⟨hkey, (Option.some.inj (hval.symm.trans hreply)).symm⟩

section Fresh

variable {arg : Arg} (sdk : Sdk) (ha : arg.Valid) {R : Recs} {s₀ s : Store}
  (h : Holds arg sdk R s₀) (hroot : Rooted arg sdk s₀) (hroom : R.Room arg)
  (hs : s.Shaped arg) (htable : s.macTable = s₀.macTable)
  (hinj : Set.InjOn sdk.tag {m | m ∈ messages arg s₀ ++ messages arg s})
  (hempty : ∀ b < arg.bucketSize, groupMacs arg s₀ b = [] →
    s₀.root (rootIndex arg b) = rootTag sdk [] ∨
      s₀.root (rootIndex arg b) ∉ sdk.tag '' {m | m ∈ messages arg s₀ ++ messages arg s})
  {k : List UInt8} {lower : Bool} {rand : Block}
  (hq : Req.WellFormed arg ⟨.get k, lower, rand⟩) {out : Outcome}
  (hout : serve arg sdk s ⟨.get k, lower, rand⟩ = some out) {l : Lookup} {e : Entry}
  (hget : htGetO arg sdk s (cstr k) (strSize k) = some l) (hpair : l.pair = some e)
  (hclean : Clean out.log)

include ha h hroot hroom hs htable hinj hempty hq hout hget hpair hclean

/-- An entry whose MAC is among the MACs of its group is the current one. -/
theorem fresh_of_mem_groupMacs (hmem : e.mac ∈ groupMacs arg s (htHash arg (cstr k))) :
    ∃ v, R.map arg k = some v ∧ out.cipher = padded arg v := by
  have hk : k.length + 5 ≤ arg.maxBufSize := hq.key_lt
  have hbuf := ha.buf_lt
  have hb : htHash arg (cstr k) < arg.bucketSize := Arg.Valid.htHash_lt ha.bucket_pos _
  rw [serve_eq sdk ha hq] at hout
  obtain ⟨msg, plain, keyHash, hchain, hmsg, htag, hverify, -, hans, hreply⟩ :=
    get_clean ha hs hout hclean hget hpair
  have hcommits : Commits arg sdk {m | m ∈ messages arg s₀ ++ messages arg s} (groupRecs arg R) s :=
    hroot.commits ha h (fun m hm => List.mem_append_left _ hm) hempty htable
  -- the root says which MACs the group has, and one of them is the entry's
  have hmacs := hcommits.groupMacs_eq hinj ha hb (List.mem_append_right _ (mem_messages_root hb s))
    (rootTag_of_success ha hs hb hverify)
  rw [hmacs, List.mem_map] at hmem
  obtain ⟨r, hr, hmac⟩ := hmem
  obtain ⟨rest, rfl⟩ := hcommits.eq_entryWith hinj hr hmsg
    (List.mem_append_right _ (mem_messages_entry arg hchain hmsg)) htag hmac.symm
  obtain ⟨b, -, hrb⟩ := mem_groupRecs hr
  obtain ⟨hkey, hcipher⟩ := replyBuf_of_answers ha (h.fits b r hrb) (hroom.vals b r hrb) (by omega)
    hans hreply
  exact ⟨r.val, hkey ▸ h.ok.map_of_mem hrb, hcipher⟩

/-- **Without MAC bucketing a `GET` is authentic and fresh.**  Whatever the host has
made of the memory, a `GET` that finds an entry and prints no failure replies with
the value of the genuine store. -/
theorem get_fresh (hmac : arg.macOpt = false) :
    ∃ v, R.map arg k = some v ∧ out.cipher = padded arg v := by
  refine fresh_of_mem_groupMacs sdk ha h hroot hroom hs htable hinj hempty hq hout hget hpair hclean ?_
  rw [serve_eq sdk ha hq] at hout
  obtain ⟨msg, plain, keyHash, hchain, -⟩ := get_clean ha hs hout hclean hget hpair
  exact mem_groupMacs_of_chain ha hmac hchain

end Fresh

/-- The memory with a byte to spare behind every ciphertext. -/
def Store.spareByte (s : Store) : Store :=
  { s with table := s.table.map fun chain => chain.map fun e =>
      { e with keyVal := e.keyVal.map (· ++ [0xff]) } }

theorem Store.Shaped.spareByte {arg : Arg} {s : Store} (hs : s.Shaped arg) : s.spareByte.Shaped arg :=
  ⟨by simp [Store.spareByte, hs.table], hs.macbuf, hs.macTable⟩

/-- What is left to check of a store and a `GET` on its changed memory: no two messages
have one tag, no group is empty, an entry is found, and no failure is printed. -/
def spareByteOk (arg : Arg) (s : Store) (q : Req) : Bool :=
  decide (∀ m₁ ∈ messages arg s ++ messages arg s.spareByte,
    ∀ m₂ ∈ messages arg s ++ messages arg s.spareByte,
      Sdk.aes.tag m₁ = Sdk.aes.tag m₂ → m₁ = m₂) &&
  decide (∀ b < arg.bucketSize, groupMacs arg s b ≠ []) &&
  (htGetO arg Sdk.aes s.spareByte (cstr q.op.key) (strSize q.op.key)).any (fun l => l.pair.isSome) &&
  (serve arg Sdk.aes s.spareByte q).any (fun out => decide (Clean out.log))

theorem spareByteOk_elim {arg : Arg} {s : Store} {q : Req} (h : spareByteOk arg s q = true) :
    Set.InjOn Sdk.aes.tag {m | m ∈ messages arg s ++ messages arg s.spareByte} ∧
    (∀ b < arg.bucketSize, groupMacs arg s b ≠ []) ∧
    (∃ l e, htGetO arg Sdk.aes s.spareByte (cstr q.op.key) (strSize q.op.key) = some l ∧
      l.pair = some e) ∧
    ∃ out, serve arg Sdk.aes s.spareByte q = some out ∧ Clean out.log := by
  simp only [spareByteOk, Bool.and_eq_true, decide_eq_true_eq, Option.any_eq_true] at h
  obtain ⟨⟨⟨hinj, hne⟩, l, hget, hsome⟩, out, hout, hclean⟩ := h
  obtain ⟨e, hpair⟩ := Option.isSome_iff_exists.mp hsome
  exact ⟨injOn_of_forall hinj, hne, ⟨l, e, hget, hpair⟩, out, hout, hclean⟩

/-- A store with one key, and a `GET` on its changed memory. -/
theorem get_fresh_spareByte :
    ∃ s outs out, run (serveStep ⟨1, 32, 1, 1, false, false⟩ Sdk.aes)
        (enclaveInitValues ⟨1, 32, 1, 1, false, false⟩) [⟨.set [0x6b] [0x76], false, 1⟩] =
          some (s, outs) ∧
      serve ⟨1, 32, 1, 1, false, false⟩ Sdk.aes s.spareByte ⟨.get [0x6b], false, 0⟩ = some out ∧
      ∃ v, Recs.map ⟨1, 32, 1, 1, false, false⟩
          (Recs.after ⟨1, 32, 1, 1, false, false⟩ [⟨.set [0x6b] [0x76], false, 1⟩]) [0x6b] = some v ∧
        out.cipher = padded ⟨1, 32, 1, 1, false, false⟩ v := by
  have hroom := @room_of_fits ⟨1, 32, 1, 1, false, false⟩ rfl [⟨.set [0x6b] [0x76], false, 1⟩]
    (fits_of_sum_le (by decide) _ (List.prefix_refl _))
  obtain ⟨s, outs, hrun, ⟨hholds, hroot⟩, -⟩ := @exists_run_serveStep_rooted
    ⟨1, 32, 1, 1, false, false⟩ Sdk.aes (by decide) [⟨.set [0x6b] [0x76], false, 1⟩] (by decide)
    (fun p hp => room_of_fits rfl (fits_of_sum_le (by decide) p hp))
    (forall_prefix_concat_iff.mpr (by decide))
  have hok : (run (serveStep ⟨1, 32, 1, 1, false, false⟩ Sdk.aes)
      (enclaveInitValues ⟨1, 32, 1, 1, false, false⟩) [⟨.set [0x6b] [0x76], false, 1⟩]).map (fun r =>
        spareByteOk ⟨1, 32, 1, 1, false, false⟩ r.1 ⟨.get [0x6b], false, 0⟩) = some true := by
    decide +kernel
  rw [hrun, Option.map_some, Option.some.injEq] at hok
  obtain ⟨hinj, hne, ⟨l, e, hget, hpair⟩, out, hout, hclean⟩ := spareByteOk_elim hok
  exact ⟨s, outs, out, hrun, hout, get_fresh Sdk.aes (by decide) hholds hroot hroom
    hholds.shaped.spareByte rfl hinj (fun b hb hnil => absurd hnil (hne b hb)) (by decide) hout hget
    hpair hclean rfl⟩

/-! ### With MAC bucketing -/

/-- The chains have no part in the MACs of a group. -/
theorem groupMacs_write_buf {arg : Arg} {s : Store} (hs : s.Shaped arg) (hmac : arg.macOpt = true)
    {b : ℕ} (hb : b < arg.bucketSize) (chain : List Entry) (i : ℕ) :
    groupMacs arg (s.write b chain (s.buf b)) i = groupMacs arg s i := by
  unfold groupMacs
  refine List.flatMap_congr fun j _ => ?_
  unfold bucketMacs macsOf
  rw [if_pos hmac, if_pos hmac, hs.buf_write hb]
  split
  · next hj => rw [hj]
  · rfl

/-- **Any value can be replied.**  The host makes up an entry for the key, with the MAC of its
own fields, and leaves the MAC buffers as they pass the check of the root. -/
theorem exists_forged {arg : Arg} (sdk : Sdk) (ha : arg.Valid) (hmac : arg.macOpt = true) {s : Store}
    (hs : s.Shaped arg) {k : List UInt8} {lower : Bool} {rand : Block}
    (hq : Req.WellFormed arg ⟨.get k, lower, rand⟩) (hz : BufsInRange arg s (htHash arg (cstr k)))
    (hroot : rootTag sdk (groupMacs arg s (htHash arg (cstr k))) =
      s.root (rootIndex arg (htHash arg (cstr k))))
    {w : List UInt8} (hnul : (0 : UInt8) ∉ w) (hw : w.length + 1 ≤ arg.maxBufSize) :
    ∃ t out l e, t.Shaped arg ∧ t.macTable = s.macTable ∧
      serve arg sdk t ⟨.get k, lower, rand⟩ = some out ∧
      htGetO arg sdk t (cstr k) (strSize k) = some l ∧ l.pair = some e ∧ Clean out.log ∧
      out.cipher = padded arg w := by
  have hk : k.length + 5 ≤ arg.maxBufSize := hq.key_lt
  have hbuf := ha.buf_lt
  have hb : htHash arg (cstr k) < arg.bucketSize := Arg.Valid.htHash_lt ha.bucket_pos _
  have hfits : Rec.Fits ⟨k, w, 0⟩ :=
    ⟨hq.word, hnul, by show k.length + w.length + 27 < 2 ^ 32; omega⟩
  -- the chain is one entry of the host, and the buffers, which the root covers, are as they were
  let t := s.write (htHash arg (cstr k)) [Rec.entry sdk ⟨k, w, 0⟩] (s.buf (htHash arg (cstr k)))
  have ht : t.Shaped arg := hs.write _ _ _
  have hget : htGetO arg sdk t (cstr k) (strSize k) = some (Rec.hit sdk [] ⟨k, w, 0⟩ 0) := by
    unfold htGetO
    simp only [ht.table_getElem? hb, hs.chain_write hb, if_true, Option.bind_eq_bind, Option.bind_some, t]
    exact @htGetLoop_present arg sdk [] [] _ ⟨k, w, 0⟩ (by simp) hfits.carries
  have hzt : BufsInRange arg t (htHash arg (cstr k)) := by
    intro hopt i hi
    rw [hs.buf_write hb]
    split
    · next h => rw [h]; exact hz hopt i hi
    · exact hz hopt i hi
  have hout := getKeyVal_found ha ht hzt hfits hw rfl hget (Req.cut arg ⟨.get k, lower, rand⟩)
  rw [groupMacs_write_buf hs hmac hb, Store.root_write, if_pos hroot] at hout
  exact ⟨t, _, _, _, ht, rfl, (serve_eq sdk ha hq _).trans hout, hget, rfl, clean_nil, rfl⟩

/-! ### The MACs of a group, as the host likes them -/

/-- A MAC buffer that holds a list. -/
def MacEntry.holding (macs : List Block) : MacEntry :=
  ⟨macs.length, Vector.ofFn fun j => macs.getD j 0⟩

theorem MacEntry.macs_holding {macs : List Block} (h : macs.length ≤ macSlots) :
    (MacEntry.holding macs).macs = macs := by
  simp only [macSlots] at h
  refine List.ext_getElem (by simp [MacEntry.macs, MacEntry.holding, h]) fun i h₁ h₂ => ?_
  simp [MacEntry.macs, MacEntry.holding, h₂]

/-- The memory with a list in the MAC buffers of a group, one after another. -/
def Store.hold (arg : Arg) (b : ℕ) (macs : List Block) (s : Store) : Store :=
  { s with macbuf := (List.range arg.bucketSize).map fun i =>
      MacEntry.holding (share macSlots macs (i - startIndex arg b)) }

section Hold

variable {arg : Arg} {s : Store} {b : ℕ} {macs : List Block}

theorem Store.Shaped.hold (hs : s.Shaped arg) : (s.hold arg b macs).Shaped arg :=
  ⟨hs.table, by simp [Store.hold], hs.macTable⟩

theorem buf_hold {i : ℕ} (hi : i < arg.bucketSize) :
    (s.hold arg b macs).buf i = MacEntry.holding (share macSlots macs (i - startIndex arg b)) := by
  simp [Store.buf, Store.hold, hi]

theorem length_share_le (macs : List Block) (t : ℕ) : (share macSlots macs t).length ≤ macSlots := by
  rw [length_share]
  exact Nat.min_le_left _ _

variable (ha : arg.Valid) (hb : b < arg.bucketSize)

include ha hb

theorem bufsInRange_hold : BufsInRange arg (s.hold arg b macs) b := by
  intro _ i hi
  rw [buf_hold (ha.lt_of_mem_groupRange hb hi)]
  have hle := length_share_le macs (i - startIndex arg b)
  refine ⟨Int.natCast_nonneg _, ?_⟩
  show ((share macSlots macs (i - startIndex arg b)).length : ℤ) ≤ macSlots
  exact_mod_cast hle

theorem groupMacs_hold (hmac : arg.macOpt = true) (hlen : macs.length ≤ macSlots * arg.ratio) :
    groupMacs arg (s.hold arg b macs) b = macs := by
  have hbucket : ∀ i ∈ groupRange arg b, bucketMacs arg (s.hold arg b macs) i =
      share macSlots macs (i - startIndex arg b) := by
    intro i hi
    unfold bucketMacs macsOf
    rw [if_pos hmac, buf_hold (ha.lt_of_mem_groupRange hb hi), MacEntry.macs_holding
      (length_share_le macs _)]
  unfold groupMacs
  rw [List.flatMap_congr hbucket, groupRange, List.range'_eq_map_range, List.flatMap_map]
  simp only [Nat.add_sub_cancel_left]
  rw [flatMap_share, List.take_of_length_le (by rw [Nat.mul_comm]; exact hlen)]

omit ha hb in
/-- No more MACs than slots. -/
theorem length_groupMacs_le (hmac : arg.macOpt = true) : (groupMacs arg s b).length ≤
    macSlots * arg.ratio := by
  have hbucket : ∀ n ∈ (groupRange arg b).map fun i => (bucketMacs arg s i).length, n ≤ macSlots := by
    intro n hn
    obtain ⟨i, -, rfl⟩ := List.mem_map.mp hn
    unfold bucketMacs macsOf MacEntry.macs
    rw [if_pos hmac, List.length_take, Vector.length_toList]
    exact Nat.min_le_right _ _
  have hsum := List.sum_le_card_nsmul _ _ hbucket
  rw [List.length_map, groupRange, List.length_range'] at hsum
  rw [groupMacs, List.length_flatMap, Nat.mul_comm]
  exact hsum

end Hold

/-! ### Roots that were never written -/

/-- A request leaves the roots of other groups alone. -/
theorem root_of_run {arg : Arg} {sdk : Sdk} (ha : arg.Valid) {qs : List Req}
    (hqs : ∀ q ∈ qs, q.WellFormed arg) {g : ℕ} (hne : ∀ q ∈ qs, keyGroup arg q.op.key ≠ g) {s : Store}
    {outs : List Outcome}
    (hrun : run (serveStep arg sdk) (enclaveInitValues arg) qs = some (s, outs)) : s.root g = 0 := by
  induction qs using List.reverseRecOn generalizing s outs with
  | nil =>
    obtain ⟨rfl, -⟩ := Prod.mk.inj (Option.some.inj hrun)
    unfold Store.root enclaveInitValues
    rw [List.getElem?_replicate]
    split <;> rfl
  | append_singleton qs q ih =>
    obtain ⟨s₁, outs₁, out, hrun₁, hlast, -⟩ := run_concat_eq_some_iff.mp hrun
    obtain ⟨out', hout, heq⟩ := Option.map_eq_some_iff.mp hlast
    obtain ⟨rfl, -⟩ := Prod.mk.inj heq
    have hagree := (localOp_serve ha sdk (hqs q (by simp))).writes s₁ out' hout g
      (Ne.symm (hne q (by simp)))
    rw [Store.root, ← hagree.macTable]
    exact ih (fun q hq => hqs q (by simp [hq])) (fun q hq => hne q (by simp [hq])) hrun₁

/-- The root of a group with a `SET` authenticates its MACs. -/
theorem rootTag_of_sets {arg : Arg} {sdk : Sdk} (ha : arg.Valid) {qs : List Req}
    (hqs : ∀ q ∈ qs, q.WellFormed arg) (hset : ∀ q ∈ qs, q.op.command = .set) {s : Store}
    {outs : List Outcome}
    (hrun : run (serveStep arg sdk) (enclaveInitValues arg) qs = some (s, outs)) {q : Req} (hq : q ∈ qs)
    {b : ℕ} (hb : b < arg.bucketSize) (hg : rootIndex arg (htHash arg (cstr q.op.key)) = rootIndex arg b) :
    rootTag sdk (groupMacs arg s b) = s.root (rootIndex arg b) := by
  have hcenter : ∀ p q, p ++ [q] <+: qs → centered arg (Recs.after arg p) q = true := by
    intro p q hp
    have hop := hset q (hp.subset (by simp))
    unfold centered
    cases hcase : q.op <;> simp_all [Op.command]
  have h := stocked_of_run ha hqs hrun
  obtain ⟨hroot, -⟩ := rooted_of_run ha hqs hrun hcenter
  -- the key has an entry, in its own bucket of the group
  have hins : q.op.inserts = some q.op.key := by
    have hop := hset q hq
    cases hcase : q.op <;> simp_all [Op.command, Op.inserts, Op.key]
  have hmem : q.op.key ∈ (Recs.after arg qs (htHash arg (cstr q.op.key))).map Rec.key :=
    mem_keys_after_iff.mpr ⟨⟨q, hq, hins⟩, rfl⟩
  have hne := h.groupMacs_ne_nil ha (Arg.Valid.htHash_lt ha.bucket_pos (cstr q.op.key))
    (fun hnil => by rw [hnil] at hmem; cases hmem)
  rw [groupMacs_congr hg] at hne
  exact (hroot.roots b hb hne).symm

/-- **When a `GET` is fresh with MAC bucketing.**  After a run of `SET`s, and whatever the host
makes of the chains and the MAC buffers, every `GET` of a key that finds an entry and prints
no failure replies with the key's current value, just when there is no such `GET`: no key of
the group was ever `SET`, and no list of MACs that the buffers of a group can hold has the
tag 0, which a root has at the start. -/
theorem get_fresh_iff {arg : Arg} (sdk : Sdk) (ha : arg.Valid) (hmac : arg.macOpt = true)
    {qs : List Req} (hqs : ∀ q ∈ qs, q.WellFormed arg) (hset : ∀ q ∈ qs, q.op.command = .set)
    {s₀ : Store} {outs : List Outcome}
    (hrun : run (serveStep arg sdk) (enclaveInitValues arg) qs = some (s₀, outs))
    {k : List UInt8} {lower : Bool} {rand : Block}
    (hq : Req.WellFormed arg ⟨.get k, lower, rand⟩) :
    (∀ s out l e, s.Shaped arg → s.macTable = s₀.macTable →
        serve arg sdk s ⟨.get k, lower, rand⟩ = some out →
        htGetO arg sdk s (cstr k) (strSize k) = some l → l.pair = some e → Clean out.log →
        ∃ v, StringMap.after qs k = some v ∧ out.cipher = padded arg v) ↔
      (∀ q ∈ qs, keyGroup arg q.op.key ≠ keyGroup arg k) ∧
        ∀ macs : List Block, macs.length ≤ macSlots * arg.ratio → rootTag sdk macs ≠ 0 := by
  have hk : k.length + 5 ≤ arg.maxBufSize := hq.key_lt
  have hb : htHash arg (cstr k) < arg.bucketSize := Arg.Valid.htHash_lt ha.bucket_pos _
  have h := stocked_of_run ha hqs hrun
  constructor
  · intro hfresh
    -- MAC buffers that pass the check of the root let the host choose the reply, in two ways
    have hstale : ∀ s : Store, s.Shaped arg → s.macTable = s₀.macTable →
        BufsInRange arg s (htHash arg (cstr k)) →
        rootTag sdk (groupMacs arg s (htHash arg (cstr k))) ≠ s₀.root (keyGroup arg k) := by
      intro s hs htable hz hroot
      have hroot' : rootTag sdk (groupMacs arg s (htHash arg (cstr k))) =
          s.root (rootIndex arg (htHash arg (cstr k))) := by
        rw [hroot, Store.root, Store.root, htable]
        rfl
      have hreply : ∀ w : List UInt8, (0 : UInt8) ∉ w → w.length + 1 ≤ arg.maxBufSize →
          ∃ v, StringMap.after qs k = some v ∧ padded arg w = padded arg v := by
        intro w hnul hw
        obtain ⟨t, out, l, e, ht, htable', hout, hget, hpair, hclean, hcipher⟩ :=
          exists_forged sdk ha hmac hs hq hz hroot' hnul hw
        obtain ⟨v, hv, hcipher'⟩ := hfresh t out l e ht (htable'.trans htable) hout hget hpair hclean
        exact ⟨v, hv, hcipher.symm.trans hcipher'⟩
      obtain ⟨v, hv, hnil⟩ := hreply [] (by simp) (by simp; omega)
      obtain ⟨v', hv', hone⟩ := hreply [0x76] (by simp) (by simp; omega)
      obtain rfl := Option.some.inj (hv.symm.trans hv')
      have heq := @padded_inj arg [] [0x76] (by simp) (by simp) (hnil.trans hone.symm)
      cases heq
    have hunset : ∀ q ∈ qs, keyGroup arg q.op.key ≠ keyGroup arg k := fun q hmem hg =>
      hstale s₀ h.shaped rfl (h.sized.group ha hb).inRange
        (rootTag_of_sets ha hqs hset hrun hmem hb hg)
    refine ⟨hunset, fun macs hlen hzero => ?_⟩
    refine hstale (s₀.hold arg (htHash arg (cstr k)) macs) h.shaped.hold rfl (bufsInRange_hold ha hb) ?_
    rw [groupMacs_hold ha hb hmac hlen, hzero, root_of_run ha hqs hunset hrun]
  · rintro ⟨hunset, hzero⟩ s out l e hs htable hout hget hpair hclean
    -- the check of the root, which is still 0, has passed
    rw [serve_eq sdk ha hq] at hout
    obtain ⟨msg, plain, keyHash, -, -, -, hverify, -⟩ := get_clean ha hs hout hclean hget hpair
    have hroot := rootTag_of_success ha hs hb hverify
    have hsame : s.root (rootIndex arg (htHash arg (cstr k))) = s₀.root (keyGroup arg k) := by
      rw [Store.root, Store.root, htable]
      rfl
    rw [hsame, root_of_run ha hqs hunset hrun] at hroot
    exact absurd hroot (hzero _ (length_groupMacs_le hmac))

/-- A CMAC that has no tag 0. -/
def Sdk.aesOdd : Sdk := { Sdk.aes with rijndael128CmacMsg := fun key msg => Aes.cmac key msg ||| 1 }

/-- A key of the second of two groups, when only the first has an entry: no memory lets a
`GET` of it pass. -/
theorem get_fresh_iff_unset :
    ∃ s₀ outs, run (serveStep ⟨1, 32, 2, 2, false, true⟩ Sdk.aesOdd)
        (enclaveInitValues ⟨1, 32, 2, 2, false, true⟩) [⟨.set [0x6b] [0x76], false, 1⟩] =
          some (s₀, outs) ∧
      ∀ s out l e, s.Shaped ⟨1, 32, 2, 2, false, true⟩ → s.macTable = s₀.macTable →
        serve ⟨1, 32, 2, 2, false, true⟩ Sdk.aesOdd s ⟨.get [0x6c], false, 0⟩ = some out →
        htGetO ⟨1, 32, 2, 2, false, true⟩ Sdk.aesOdd s (cstr [0x6c]) (strSize [0x6c]) = some l →
        l.pair = some e → Clean out.log →
        ∃ v, StringMap.after [⟨.set [0x6b] [0x76], false, 1⟩] [0x6c] = some v ∧
          out.cipher = padded ⟨1, 32, 2, 2, false, true⟩ v := by
  obtain ⟨⟨s₀, outs⟩, hrun⟩ := Option.isSome_iff_exists.mp (show (run
    (serveStep ⟨1, 32, 2, 2, false, true⟩ Sdk.aesOdd) (enclaveInitValues ⟨1, 32, 2, 2, false, true⟩)
    [⟨.set [0x6b] [0x76], false, 1⟩]).isSome = true by decide +kernel)
  refine ⟨s₀, outs, hrun, (get_fresh_iff Sdk.aesOdd (by decide) rfl (by decide) (by decide) hrun
    (by decide)).mpr ⟨by decide, fun macs _ hzero => ?_⟩⟩
  -- the lowest bit of every tag is set
  have hbit := congrArg (fun x : Block => x.getLsbD 0) hzero
  simp [rootTag, Sdk.tag, Sdk.aesOdd] at hbit

/-- **An old version passes both checks.**  The key is set twice, and the host puts the
entry of the first version back; the buffer holds the MAC of the second.  The `GET`
prints nothing, and its reply is the old value. -/
theorem get_replayed_of_macOpt :
    ((run (serveStep ⟨1, 32, 1, 1, false, true⟩ Sdk.aes)
      (enclaveInitValues ⟨1, 32, 1, 1, false, true⟩)
      [⟨.set [0x6b] [0x76], false, 1⟩, ⟨.set [0x6b] [0x77], false, 2⟩]).bind fun r =>
      (serve ⟨1, 32, 1, 1, false, true⟩ Sdk.aes
        { r.1 with table := [[Rec.entry Sdk.aes ⟨[0x6b], [0x76], 1⟩]] }
        ⟨.get [0x6b], false, 0⟩).map fun out => (out.cipher, out.log)) =
      some (padded ⟨1, 32, 1, 1, false, true⟩ [0x76], []) := by
  decide +kernel

end ShieldStore
