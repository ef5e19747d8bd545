import ShieldStore.Honest

/-!
# MAC bucketing

With MAC bucketing the roots are computed from the MAC buffers.  The buffer of a
bucket is meant to hold the MACs of its chain in reverse order, and the functions
that insert, update and check all use it so, but for one: an `APP` writes the slot
with the number of its entry's place, counted from the wrong end.

The two ends agree in the middle of a chain.  In a run whose `APP`s all go there,
MAC bucketing changes nothing a client can see; one `APP` elsewhere makes the next
check of the group fail.

The search reads the chains and not the buffers, so that a server with the option and one
without it find the same entries and keep the same table, whatever their roots are.  What
the checks say is a second matter, and follows from the buffers.

## Main definitions

* `Twin` — two stores with one table, one of them without MAC bucketing.
* `Verified` — every entry passes its own check.

## Main results

* `Twin.run` — a run with the option, and the one without.
* `rooted_of_run` — the buffers mirror the chains, and no check fails.
* `macbuf_transparent` — the runs in which MAC bucketing is transparent.
* `macbuf_append_at_end` — a run of three requests in which it is not.
-/

namespace ShieldStore

open Bytes Counter CMem Run

/-- The configuration without MAC bucketing. -/
def Arg.withoutMacOpt (arg : Arg) : Arg := { arg with macOpt := false }

theorem Arg.Valid.withoutMacOpt {arg : Arg} (ha : arg.Valid) : arg.withoutMacOpt.Valid :=
  ⟨ha.root_pos, ha.bucket_pos, ha.root_dvd, ha.buf_lt⟩

/-- A buffer that mirrors its chain, slot by slot. -/
theorem Rooted.getElem?_mac {arg : Arg} {sdk : Sdk} {s : Store} (h : Rooted arg sdk s)
    (hz : BufsSized arg s) (hmac : arg.macOpt = true) {b : ℕ} (hb : b < arg.bucketSize) {j : ℕ}
    (hj : j < (s.chain b).length) :
    (s.buf b).mac.toList[j]? = ((s.chain b).map (·.mac))[(s.chain b).length - 1 - j]? := by
  have hmirror := h.mirror b hb
  obtain ⟨hsize, -⟩ := hz hmac b hb
  simp only [bucketMacs, macsOf, ordered, hmac, if_true] at hmirror
  have hj' : j < (s.buf b).size.toNat := by rw [hsize]; simpa using hj
  rw [← List.getElem?_take_of_lt hj', ← MacEntry.macs, hmirror,
    List.getElem?_reverse (by simpa using hj), List.length_map]

/-! ### Without MAC bucketing -/

/-- Two stores with one table, one for a server without MAC bucketing. -/
structure Twin (arg : Arg) (sdk : Sdk) (R : Recs) (s s₀ : Store) : Prop where
  stocked : Stocked arg sdk R s
  stocked₀ : Stocked arg.withoutMacOpt sdk R s₀
  table : s₀.table = s.table

/-- The search does not look at the option. -/
theorem htGetLoop_withoutMacOpt (arg : Arg) (sdk : Sdk) (key : List UInt8) (keySize : UInt32)
    (keyHash : UInt8) : ∀ (chain : List Entry) (plain : Option (List UInt8)) (pos : ℕ),
      htGetLoop arg.withoutMacOpt sdk key keySize keyHash chain plain pos =
        htGetLoop arg sdk key keySize keyHash chain plain pos := by
  intro chain
  induction chain with
  | nil => intro plain pos; rfl
  | cons e chain ih =>
    intro plain pos
    have hcand : candidate arg.withoutMacOpt keySize keyHash e = candidate arg keySize keyHash e := rfl
    simp only [htGetLoop, ih, hcand]

theorem table_commit (sdk : Sdk) (s : Store) (g : ℕ) (before after : List Block) (cipher : List UInt8)
    (log : List Event) : (commit sdk s g before after cipher log).store.table = s.table := by
  unfold commit
  split <;> rfl

/-- An update leaves one table, whatever slot of the MACs it writes. -/
theorem table_commitUpdate (arg : Arg) (sdk : Sdk) (s : Store) (b : ℕ) (pre post : List Entry)
    (e e' : Entry) (i : ℕ) (cipher : List UInt8) (log : List Event) :
    (commitUpdate arg sdk s b pre post e e' i cipher log).store.table =
      s.table.set b (pre ++ e' :: post) := table_commit ..

theorem cipher_commitUpdate (arg : Arg) (sdk : Sdk) (s : Store) (b : ℕ) (pre post : List Entry)
    (e e' : Entry) (i : ℕ) (cipher : List UInt8) (log : List Event) :
    (commitUpdate arg sdk s b pre post e e' i cipher log).cipher = cipher := cipher_commit ..

section Twins

variable {arg : Arg} {sdk : Sdk} {R : Recs} {s s₀ : Store} (ha : arg.Valid)
  (h : Twin arg sdk R s s₀)

include h

theorem Twin.chain_eq (b : ℕ) : s₀.chain b = s.chain b := by
  unfold Store.chain
  rw [h.table]

/-- The search looks at the table only. -/
theorem Twin.htGetO_eq (key : List UInt8) (keySize : UInt32) :
    htGetO arg.withoutMacOpt sdk s₀ key keySize = htGetO arg sdk s key keySize := by
  unfold htGetO
  rw [h.table]
  simp only [htGetLoop_withoutMacOpt]
  rfl

include ha

/-- The roots and the buffers have no part in the reply to a `GET`. -/
theorem Twin.get {cipher key : List UInt8} {keySize : UInt32} {out : Outcome}
    (hout : getKeyVal arg sdk s cipher key keySize = some out) :
    ∃ out₀, getKeyVal arg.withoutMacOpt sdk s₀ cipher key keySize = some out₀ ∧
      out₀.cipher = out.cipher ∧ out₀.store.table = out.store.table := by
  have hb : htHash arg key < arg.bucketSize := Arg.Valid.htHash_lt ha.bucket_pos _
  obtain ⟨l, hget, -⟩ := Option.bind_eq_some_iff.mp hout
  have hget₀ := (h.htGetO_eq key keySize).trans hget
  obtain ⟨pair, plain, pos, nac⟩ := l
  cases pair with
  | none =>
    obtain rfl := Option.some.inj ((getKeyVal_miss hget cipher).symm.trans hout)
    exact ⟨_, getKeyVal_miss hget₀ cipher, rfl, h.table⟩
  | some e =>
    obtain ⟨log, ret, plain', reply, hlog, -, hplain, hreply, rfl⟩ := getKeyVal_eq_some hout hget rfl
    -- the root is computed in both, though it may be right in one only
    have hverify := enclaveVerifyTreeRoot_eq sdk h.stocked₀.shaped (ha.withoutMacOpt.rootIndex_lt hb)
      (aggregateMac_eq ha.withoutMacOpt h.stocked₀.shaped hb
        ((BufsSized.of_chain rfl s₀).group ha.withoutMacOpt hb).inRange)
    obtain rfl : plain = some plain' := hplain
    have hreply₀ : replyBuf arg.withoutMacOpt (plain'.drop e.keySize.toNat) e.valSize.toNat =
        some reply := hreply
    have hhash : htHash arg.withoutMacOpt key = htHash arg key := rfl
    unfold getKeyVal
    simp only [hget₀, hlog, hhash, hverify, hreply₀, Option.bind_eq_bind, Option.bind_some,
      Option.pure_def]
    exact ⟨_, rfl, rfl, h.table⟩

/-- Nor in the reply to a `SET`, or in the table it leaves. -/
theorem Twin.set {k v : List UInt8} {rand : Block} (hq : (Op.set k v).Fits arg) {out : Outcome}
    (hout : setKeyVal arg sdk s rand (cstr k) (strSize k) (cstr v) (strSize v) = some out) :
    ∃ out₀, setKeyVal arg.withoutMacOpt sdk s₀ rand (cstr k) (strSize k) (cstr v) (strSize v) =
        some out₀ ∧ out₀.cipher = out.cipher ∧ out₀.store.table = out.store.table := by
  have hk : k.length + 5 ≤ arg.maxBufSize := hq.key_lt
  have ha₀ := ha.withoutMacOpt
  have hz₀ := BufsSized.of_chain (show arg.withoutMacOpt.macOpt = false from rfl) s₀
  obtain ⟨l, hget, -⟩ := Option.bind_eq_some_iff.mp hout
  have hget₀ := (h.htGetO_eq (cstr k) (strSize k)).trans hget
  rcases htGetO_cases ha h.stocked.shaped hget with
    ⟨hpair, hpos⟩ | ⟨pre, e, post, p, hchain, hpair, -, hpos, -⟩
  · obtain ⟨pair, plain, pos, nac⟩ := l
    obtain rfl : pair = none := hpair
    obtain rfl : pos = (s.chain (htHash arg (cstr k))).length := hpos
    -- the run with the buffers was defined, so that the new MAC had a slot
    have hroom : arg.macOpt = true → (s.chain (htHash arg (cstr k))).length < macSlots :=
      fun hmac => lt_macSlots_of_insert ha h.stocked.shaped hmac hget rfl hout
    have hbuf := ha.buf_lt
    have hlen : k.length + v.length + 5 ≤ arg.maxBufSize := hq.length_le
    have hfits : Rec.Fits ⟨k, v, rand⟩ :=
      ⟨hq.word, hq.val_nul, by show k.length + v.length + 27 < 2 ^ 32; omega⟩
    rw [← h.chain_eq] at hget₀
    obtain rfl := Option.some.inj (hout.symm.trans (setKeyVal_insert ha h.stocked.shaped
      h.stocked.sized hfits (show k.length + 1 ≤ arg.maxBufSize by omega) rfl hget hroom))
    refine ⟨_, setKeyVal_insert ha₀ h.stocked₀.shaped hz₀ hfits
      (show k.length + 1 ≤ arg.maxBufSize by omega) rfl hget₀ (fun hmac => by cases hmac), ?_, ?_⟩
    · rw [cipher_commit, cipher_commit]
      rfl
    · rw [table_commit, table_commit]
      show s₀.table.set _ (_ :: s₀.chain _) = s.table.set _ (_ :: s.chain _)
      rw [h.chain_eq, h.table]
      rfl
  -- an update: of the same entry, in chains that are equal
  · have hchain₀ := (h.chain_eq _).trans hchain
    obtain ⟨kv, plain, e', cipher, log, hlog, hpieces, rfl⟩ :=
      (setKeyVal_eq_some_iff ha h.stocked.shaped h.stocked.sized rfl hget hpair hpos hchain).mp hout
    refine ⟨_, (setKeyVal_eq_some_iff ha₀ h.stocked₀.shaped hz₀ rfl hget₀ hpair hpos hchain₀).mpr
      ⟨kv, plain, e', cipher, log, hlog, hpieces, rfl⟩, ?_, ?_⟩
    · rw [cipher_commitUpdate, cipher_commitUpdate]
    · rw [table_commitUpdate, table_commitUpdate, h.table]
      rfl

/-- Nor in those of an `APP`. -/
theorem Twin.append {k w cipher : List UInt8} {out : Outcome}
    (hout : appendKeyVal arg sdk s cipher (cstr k) (strSize k) (cstr w) (strSize w) = some out) :
    ∃ out₀, appendKeyVal arg.withoutMacOpt sdk s₀ cipher (cstr k) (strSize k) (cstr w) (strSize w) =
        some out₀ ∧ out₀.cipher = out.cipher ∧ out₀.store.table = out.store.table := by
  have ha₀ := ha.withoutMacOpt
  have hz₀ := BufsSized.of_chain (show arg.withoutMacOpt.macOpt = false from rfl) s₀
  obtain ⟨l, hget, -⟩ := Option.bind_eq_some_iff.mp hout
  have hget₀ := (h.htGetO_eq (cstr k) (strSize k)).trans hget
  rcases htGetO_cases ha h.stocked.shaped hget with
    ⟨hpair, hpos⟩ | ⟨pre, e, post, p, hchain, hpair, -, hpos, -⟩
  · obtain ⟨pair, plain, pos, nac⟩ := l
    obtain rfl : pair = none := hpair
    -- an `APP` to a key that is not there writes nothing
    obtain rfl := Option.some.inj (hout.symm.trans (appendKeyVal_miss hget _ _ _))
    exact ⟨_, appendKeyVal_miss hget₀ _ _ _, rfl, h.table⟩
  · have hchain₀ := (h.chain_eq _).trans hchain
    obtain ⟨plain, kv, kv', e', cipher', log, hlog, hpieces, rfl⟩ :=
      (appendKeyVal_eq_some_iff ha h.stocked.shaped h.stocked.sized rfl hget hpair hpos hchain).mp hout
    refine ⟨_, (appendKeyVal_eq_some_iff ha₀ h.stocked₀.shaped hz₀ rfl hget₀ hpair hpos hchain₀).mpr
      ⟨plain, kv, kv', e', cipher', log, hlog, hpieces, rfl⟩, ?_, ?_⟩
    · rw [cipher_commitUpdate, cipher_commitUpdate]
    · rw [table_commitUpdate, table_commitUpdate, h.table]
      rfl

/-- **A request on twins**: one reply, and twins again. -/
theorem Twin.step {q : Req} (hq : q.WellFormed arg) {out : Outcome}
    (hout : serve arg sdk s q = some out) :
    ∃ out₀, serve arg.withoutMacOpt sdk s₀ q = some out₀ ∧ out₀.cipher = out.cipher ∧
      Twin arg sdk (R.step arg q) out.store out₀.store := by
  have hq₀ : q.WellFormed arg.withoutMacOpt := ⟨hq.word, hq.val_nul, hq.fits⟩
  obtain ⟨out₀, hout₀, hcipher, htable⟩ : ∃ out₀, serve arg.withoutMacOpt sdk s₀ q = some out₀ ∧
      out₀.cipher = out.cipher ∧ out₀.store.table = out.store.table := by
    rw [serve_eq sdk ha hq] at hout
    rw [serve_eq sdk ha.withoutMacOpt hq₀]
    obtain ⟨op, lower, rand⟩ := q
    cases op with
    | get k => exact h.get ha hout
    | set k v => exact h.set ha hq.op_fits hout
    | append k v => exact h.append ha hout
  exact ⟨out₀, hout₀, hcipher, h.stocked.step ha hq hout,
    h.stocked₀.step ha.withoutMacOpt hq₀ hout₀, htable⟩

end Twins

/-- Two runs from twins stay together. -/
theorem Twin.run {arg : Arg} {sdk : Sdk} (ha : arg.Valid) {qs : List Req} :
    ∀ {R : Recs} {s s₀ s' : Store} {outs : List Outcome}, Twin arg sdk R s s₀ →
      (∀ q ∈ qs, q.WellFormed arg) → Run.run (serveStep arg sdk) s qs = some (s', outs) →
      ∃ s₀' outs₀, Run.run (serveStep arg.withoutMacOpt sdk) s₀ qs = some (s₀', outs₀) ∧
        outs.map Outcome.cipher = outs₀.map Outcome.cipher := by
  induction qs with
  | nil =>
    intro R s s₀ s' outs _ _ hrun
    obtain ⟨rfl, rfl⟩ := Prod.mk.inj (Option.some.inj hrun)
    exact ⟨s₀, [], rfl, rfl⟩
  | cons q qs ih =>
    intro R s s₀ s' outs h hqs hrun
    rw [run_cons, Option.bind_eq_some_iff] at hrun
    obtain ⟨p, hstep, hmap⟩ := hrun
    obtain ⟨⟨s₁, outs₁⟩, hrest, heq⟩ := Option.map_eq_some_iff.mp hmap
    obtain ⟨rfl, rfl⟩ := Prod.mk.inj heq
    obtain ⟨out, hout, rfl⟩ := Option.map_eq_some_iff.mp hstep
    obtain ⟨out₀, hout₀, hcipher, hnext⟩ := h.step ha (hqs q List.mem_cons_self) hout
    obtain ⟨s₀', outs₀, hrest₀, hciphers⟩ :=
      ih hnext (fun q' hq' => hqs q' (List.mem_cons_of_mem _ hq')) hrest
    refine ⟨s₀', out₀ :: outs₀, ?_, ?_⟩
    · rw [run_cons, serveStep_eq_some hout₀, Option.bind_some, hrest₀]
      rfl
    · rw [List.map_cons, List.map_cons, hciphers, hcipher]

/-! ### The checks -/

/-- Every entry passes the check of its own MAC. -/
def Verified (sdk : Sdk) (s : Store) : Prop := ∀ b, ∀ e ∈ s.chain b, verifyEntry sdk e = some []

/-- A write of entries that pass it. -/
theorem Verified.commit {arg : Arg} {sdk : Sdk} {s : Store} (h : Verified sdk s) (hs : s.Shaped arg) {b : ℕ}
    (hb : b < arg.bucketSize) {chain : List Entry} (hchain : ∀ e ∈ chain, verifyEntry sdk e = some [])
    (e : MacEntry) (g : ℕ) (before after : List Block) (cipher : List UInt8) (log : List Event) :
    Verified sdk (ShieldStore.commit sdk (s.write b chain e) g before after cipher log).store := by
  have hwrite : Verified sdk (s.write b chain e) := by
    intro i e' he'
    rw [hs.chain_write hb] at he'
    split at he'
    · exact hchain e' he'
    · exact h i e' he'
  unfold ShieldStore.commit
  split
  · exact hwrite
  · exact hwrite

section Checks

variable {arg : Arg} {sdk : Sdk} {R : Recs} {s : Store} (ha : arg.Valid) (h : Stocked arg sdk R s)
  (hroot : Rooted arg sdk s) (hver : Verified sdk s) {out : Outcome}

include ha h hroot hver

/-- An update that writes the slot of its entry. -/
theorem Revised.rooted {f : List UInt8 → List UInt8} {place : ℕ → ℕ → ℕ} {k : List UInt8}
    (hrev : Revised arg sdk R s f place k out)
    (hplace : ∀ pre r post, R (htHash arg (cstr k)) = pre ++ r :: post → r.key = k →
      (∀ r' ∈ pre, r'.key ≠ k) →
      place (R (htHash arg (cstr k))).length pre.length =
        slot arg (R (htHash arg (cstr k))).length pre.length) :
    Rooted arg sdk out.store ∧ Verified sdk out.store ∧ Clean out.log := by
  have hb : htHash arg (cstr k) < arg.bucketSize := Arg.Valid.htHash_lt ha.bucket_pos _
  cases hrev with
  | @intro pre post r pre' post' e e' log hR hpre _ hchain hpre' _ hlog _ hpass =>
    have hold := hver (htHash arg (cstr r.key))
    rw [hchain] at hold
    obtain rfl := Option.some.inj ((hold e (by simp)).symm.trans hlog)
    have hslot := hplace pre r post hR rfl hpre
    rw [← (h.chain _).length_eq, ← hpre'.length_eq] at hslot
    obtain ⟨hroot', hclean⟩ := hroot.update ha h.shaped hb hchain e' hslot (padded arg r.key) clean_nil
    refine ⟨hroot', hver.commit h.shaped hb ?_ _ _ _ _ _ _, hclean⟩
    intro e'' he''
    -- every entry but the one written is as it was
    rcases List.mem_append.mp he'' with hmem | hmem
    · exact hold e'' (by simp [hmem])
    · rcases List.mem_cons.mp hmem with rfl | hmem
      · exact hpass
      · exact hold e'' (by simp [hmem])

/-- A `GET` finds both checks right. -/
theorem Stocked.clean_get {k cipher : List UInt8} (hk : k.length + 5 ≤ arg.maxBufSize)
    (hout : getKeyVal arg sdk s cipher (cstr k) (strSize k) = some out) : Clean out.log := by
  have hbuf := ha.buf_lt
  have hb : htHash arg (cstr k) < arg.bucketSize := Arg.Valid.htHash_lt ha.bucket_pos _
  by_cases hmem : k ∈ (R (htHash arg (cstr k))).map Rec.key
  · obtain ⟨pre, r, post, hR, rfl, hpre, -⟩ := h.ok.split hmem
    obtain ⟨pre', e, post', hchain, hpre', he, -⟩ := h.chain_of_split hR
    obtain ⟨log, ret, plain, reply, hlog, hret, -, -, rfl⟩ :=
      getKeyVal_eq_some hout (h.htGetO_present ha hchain hpre' he hpre) rfl
    obtain rfl := Option.some.inj ((hver _ e (by rw [hchain]; simp)).symm.trans hlog)
    -- the group has an entry, so that its root is set
    have hne := h.groupMacs_ne_nil ha hb (show _ ≠ [] by rw [hR]; simp)
    rw [enclaveVerifyTreeRoot_eq sdk h.shaped (ha.rootIndex_lt hb)
      (aggregateMac_eq ha h.shaped hb (h.sized.group ha hb).inRange),
      if_pos (hroot.roots _ hb hne).symm] at hret
    obtain rfl := Option.some.inj hret
    exact clean_nil
  · obtain rfl := Option.some.inj (hout.symm.trans
      (getKeyVal_miss (h.htGetO_absent ha (by omega) hmem) _))
    simp [Clean, Event.isFailure, Msg.isFailure]

/-- **A request keeps the roots right**, and prints no failure, unless it is an `APP` beside
the middle of its chain. -/
theorem Stocked.rooted_step {q : Req} (hq : q.WellFormed arg) (hcenter : centered arg R q = true)
    (hout : serve arg sdk s q = some out) :
    Rooted arg sdk out.store ∧ Verified sdk out.store ∧ Clean out.log := by
  have hkey := hq.key_lt
  rw [serve_eq sdk ha hq] at hout
  obtain ⟨op, lower, rand⟩ := q
  cases op with
  | get k =>
    rw [store_of_getKeyVal hout]
    exact ⟨hroot, hver, h.clean_get ha hroot hver hkey hout⟩
  | set k v =>
    have hb : htHash arg (cstr k) < arg.bucketSize := Arg.Valid.htHash_lt ha.bucket_pos _
    rcases h.set_cases ha hq.op_fits hout with ⟨-, hrev⟩ | ⟨-, hfits, hroom, rfl⟩
    · exact hrev.rooted ha h hroot hver fun _ _ _ _ _ _ => rfl
    · obtain ⟨hroot', hclean⟩ := hroot.insert ha h.shaped hb (h.sized.bucket hb) hroom
        (Rec.entry sdk ⟨k, v, rand⟩) (padded arg k)
        (clean_assertLog .kvPosZero ((s.chain (htHash arg (cstr k))).length == 0))
      refine ⟨hroot', hver.commit h.shaped hb ?_ _ _ _ _ _ _, hclean⟩
      intro e he
      rcases List.mem_cons.mp he with rfl | he
      · exact hfits.verifyEntry_entryWith
      · exact hver _ e he
  | append k v =>
    rcases h.append_cases ha hq.op_fits hout with ⟨-, hrev⟩ | ⟨-, rfl⟩
    -- the slot is that of the entry because the two distances are one
    · refine hrev.rooted ha h hroot hver fun pre r post hR hk hpre => ?_
      subst hk
      exact slot_of_centered hR hpre hcenter
    · exact ⟨hroot, hver, by simp [Clean, Event.isFailure, Msg.isFailure]⟩

end Checks

/-- A run in which every `APP` goes to the middle of its chain. -/
theorem rooted_of_run {arg : Arg} {sdk : Sdk} (ha : arg.Valid) {qs : List Req}
    (hqs : ∀ q ∈ qs, q.WellFormed arg) {s : Store} {outs : List Outcome}
    (hrun : run (serveStep arg sdk) (enclaveInitValues arg) qs = some (s, outs))
    (hcenter : ∀ p q, p ++ [q] <+: qs → centered arg (Recs.after arg p) q = true) :
    Rooted arg sdk s ∧ Verified sdk s ∧ ∀ out ∈ outs, Clean out.log := by
  induction qs using List.reverseRecOn generalizing s outs with
  | nil =>
    obtain ⟨rfl, rfl⟩ := Prod.mk.inj (Option.some.inj hrun)
    refine ⟨Rooted.init ha sdk, fun b e he => ?_, by simp⟩
    rw [(Holds.init sdk).chain b] at he
    cases he
  | append_singleton qs q ih =>
    obtain ⟨s₁, outs₁, out, hrun₁, hlast, rfl⟩ := run_concat_eq_some_iff.mp hrun
    have hqs₁ : ∀ q ∈ qs, q.WellFormed arg := fun q hq => hqs q (by simp [hq])
    obtain ⟨hroot, hver, hclean⟩ := ih hqs₁ hrun₁ fun p q' hp =>
      hcenter p q' (hp.trans (List.prefix_append _ _))
    obtain ⟨out', hout, heq⟩ := Option.map_eq_some_iff.mp hlast
    obtain ⟨rfl, rfl⟩ := Prod.mk.inj heq
    obtain ⟨hroot', hver', hclean'⟩ := (stocked_of_run ha hqs₁ hrun₁).rooted_step ha hroot hver
      (hqs q (by simp)) (hcenter qs q (List.prefix_refl _)) hout
    refine ⟨hroot', hver', fun o ho => ?_⟩
    rcases List.mem_append.mp ho with ho | ho
    · exact hclean o ho
    · rw [List.mem_singleton.mp ho]
      exact hclean'

/-- **When MAC bucketing is transparent.**  If every `APP` of a run goes to the entry
in the middle of its chain, then slot `j` of every buffer holds the MAC of the entry
`j` places from the end of the chain, no check fails, and the replies are those of
the same run without MAC bucketing.  The run is any that is defined: no bucket has more
entries than its buffer has slots, and values may be longer than a message. -/
theorem macbuf_transparent {arg : Arg} (sdk : Sdk) (ha : arg.Valid) (hmac : arg.macOpt = true)
    {qs : List Req} (hqs : ∀ q ∈ qs, q.WellFormed arg) {s : Store} {outs : List Outcome}
    (hrun : run (serveStep arg sdk) (enclaveInitValues arg) qs = some (s, outs))
    (hcenter : ∀ p q, p ++ [q] <+: qs → centered arg (Recs.after arg p) q = true) :
    (∀ b < arg.bucketSize, (s.buf b).size = (s.chain b).length ∧
        ∀ j < (s.chain b).length, (s.buf b).mac.toList[j]? =
          ((s.chain b).map (·.mac))[(s.chain b).length - 1 - j]?) ∧
      (∀ out ∈ outs, Clean out.log) ∧
      ∃ s₀ outs₀, run (serveStep arg.withoutMacOpt sdk) (enclaveInitValues arg.withoutMacOpt) qs =
          some (s₀, outs₀) ∧ outs.map Outcome.cipher = outs₀.map Outcome.cipher := by
  have h := stocked_of_run ha hqs hrun
  obtain ⟨hroot, -, hclean⟩ := rooted_of_run ha hqs hrun hcenter
  refine ⟨fun b hb => ⟨(h.sized hmac b hb).1, fun j hj => hroot.getElem?_mac h.sized hmac hb hj⟩,
    hclean, ?_⟩
  exact Twin.run ha ⟨(Holds.init sdk).stocked, (Holds.init sdk).stocked, rfl⟩ hqs hrun

/-- Three keys in one bucket, and an `APP` to the second that makes its value longer than a
message. -/
theorem macbuf_transparent_three :
    ∃ s outs s₀ outs₀,
      run (serveStep ⟨1, 16, 1, 1, false, true⟩ Sdk.aes)
          (enclaveInitValues ⟨1, 16, 1, 1, false, true⟩)
          [⟨.set [0x6b] [0x76], false, 1⟩, ⟨.set [0x6c] (List.replicate 8 0x76), false, 2⟩,
            ⟨.set [0x6d] [0x76], false, 3⟩, ⟨.append [0x6c] (List.replicate 8 0x77), false, 4⟩] =
        some (s, outs) ∧
      run (serveStep ⟨1, 16, 1, 1, false, false⟩ Sdk.aes)
          (enclaveInitValues ⟨1, 16, 1, 1, false, false⟩)
          [⟨.set [0x6b] [0x76], false, 1⟩, ⟨.set [0x6c] (List.replicate 8 0x76), false, 2⟩,
            ⟨.set [0x6d] [0x76], false, 3⟩, ⟨.append [0x6c] (List.replicate 8 0x77), false, 4⟩] =
        some (s₀, outs₀) ∧
      (∀ out ∈ outs, Clean out.log) ∧ outs.map Outcome.cipher = outs₀.map Outcome.cipher := by
  obtain ⟨⟨s, outs⟩, hrun⟩ := Option.isSome_iff_exists.mp (show (run
    (serveStep ⟨1, 16, 1, 1, false, true⟩ Sdk.aes) (enclaveInitValues ⟨1, 16, 1, 1, false, true⟩)
    [⟨.set [0x6b] [0x76], false, 1⟩, ⟨.set [0x6c] (List.replicate 8 0x76), false, 2⟩,
      ⟨.set [0x6d] [0x76], false, 3⟩,
      ⟨.append [0x6c] (List.replicate 8 0x77), false, 4⟩]).isSome = true by decide +kernel)
  obtain ⟨-, hclean, s₀, outs₀, hrun₀, hreplies⟩ := macbuf_transparent Sdk.aes (by decide) rfl
    (by decide) hrun (forall_prefix_concat_iff.mpr (by decide))
  exact ⟨s, outs, s₀, outs₀, hrun, hrun₀, hclean, hreplies⟩

/-- **MAC bucketing is not transparent.**  Two keys in one bucket, and an `APP` to the
older one: the buffer is not the reverse of the chain's MACs, and the `APP` reports
a failed check although nobody touched the memory. -/
theorem macbuf_append_at_end :
    (run (serveStep ⟨1, 32, 1, 1, false, true⟩ Sdk.aes)
      (enclaveInitValues ⟨1, 32, 1, 1, false, true⟩)
      [⟨.set [0x6b] [0x76], false, 1⟩, ⟨.set [0x6d] [0x76], false, 2⟩,
        ⟨.append [0x6b] [0x77], false, 3⟩]).map (fun r =>
        (decide ((r.1.buf 0).macs = ((r.1.chain 0).map (·.mac)).reverse), r.2.map Outcome.log)) =
      some (false, [[], [.assertFalse .kvPosZero],
        [.print .previousMacCompareFailed, .print .treeVerificationFailed]]) := by
  decide +kernel

end ShieldStore
