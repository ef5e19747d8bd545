import ShieldStore.Tamper

/-!
# Requests on memory that nobody else writes

As long as its requests are served at all, the table of a run carries the records of
the run (`Stocked`).  That needs less than the roots being right: a value may have
outgrown the messages, its sizes may have come so close to `2 ^ 32` that the MAC of
its entry no longer covers it, and a check may have failed; the enclave goes on in
each of these cases.

## Main definitions

* `Revised` — a request has replaced an entry.

## Main results

* `Carries.rewrites` — the entry an update leaves carries the next record.
* `Stocked.set_cases`, `Stocked.append_cases` — what a write does.
* `Stocked.step` — a request that is served leaves the next records.
* `stocked_of_run` — the table of a run carries its records.
-/

namespace ShieldStore

open Bytes Counter CMem Run

/-! ### The entry an update leaves -/

section Entry

variable {sdk : Sdk} {r : Rec} (hr : r.key.length + r.val.length + 2 < 2 ^ 32)

include hr

theorem toNat_strSize_add :
    (strSize r.key + strSize r.val).toNat = (r.key.length + 1) + (r.val.length + 1) := by
  rw [UInt32.toNat_add, toNat_strSize (by omega), toNat_strSize (by omega),
    Nat.mod_eq_of_lt (by omega)]

/-- Encrypting the plaintext of a record, whatever its MAC is taken over. -/
theorem cipher_of_enclaveEncrypt {keyIdx : UInt8} {keyVal : List UInt8} {mac : Block}
    (h : enclaveEncrypt sdk r.plain keyIdx (strSize r.key) (strSize r.val) r.nac =
      some (keyVal, mac)) : keyVal = r.cipher sdk := by
  unfold enclaveEncrypt at h
  rw [toNat_strSize_add hr, ← length_plain] at h
  simp only [Option.bind_eq_bind, Option.bind_eq_some_iff, Option.pure_def, Option.some.injEq,
    Prod.mk.injEq] at h
  obtain ⟨src, hload, cipher, hcopy, msg, -, rfl, -⟩ := h
  obtain ⟨-, rfl⟩ := load_eq_some_iff.mp hload
  have hlen : r.plain.length = (r.cipher sdk).length := by rw [length_plain, length_cipher]
  rw [List.take_length, ← Rec.cipher, memcpy_full rfl hlen.le, hlen, List.take_length] at hcopy
  exact (Option.some.inj hcopy).symm

/-- An entry with the next ciphertext of its key carries the next record. -/
theorem Carries.overwrite {e e' : Entry} {r₀ : Rec} (he : Carries sdk e r₀) (hkey : r.key = r₀.key)
    {realloc : Bool} {mac : Block}
    (h : ShieldStore.overwrite e realloc (r.cipher sdk) r.nac mac (strSize r.key) (strSize r.val) =
      some e') : Carries sdk e' r := by
  obtain ⟨rest, rfl⟩ := overwrite_eq_some h
  refine ⟨hr, by rw [hkey]; exact he.keySize, rfl, by rw [hkey]; exact he.keyHash, rfl, rest, ?_⟩
  rw [toNat_strSize_add hr, List.take_of_length_le (length_cipher sdk r).le]

/-- **An update leaves an entry that carries the next record.** -/
theorem Carries.rewrites {e e' : Entry} {r₀ : Rec} (he : Carries sdk e r₀) (hkey : r.key = r₀.key)
    {keyIdx : UInt8} {realloc : Bool}
    (h : Rewrites sdk r.plain keyIdx (strSize r.key) (strSize r.val) r.nac realloc e e') :
    Carries sdk e' r := by
  obtain ⟨keyVal, mac, henc, hover⟩ := h
  rw [cipher_of_enclaveEncrypt hr henc] at hover
  exact he.overwrite hr hkey hover

/-- **An update leaves an entry that passes its own check**: the fields it keeps are the
ones its MAC was taken over. -/
theorem Carries.verifyEntry_rewrites {e e' : Entry} {r₀ : Rec} (he : Carries sdk e r₀)
    (hkey : r.key = r₀.key) {realloc : Bool}
    (h : Rewrites sdk r.plain (keyHashFunc (cstr r.key)) (strSize r.key) (strSize r.val) r.nac realloc
      e e') : verifyEntry sdk e' = some [] := by
  obtain ⟨keyVal, mac, henc, hover⟩ := h
  have hlen : (strSize r.key + strSize r.val).toNat ≤ keyVal.length := by
    rw [cipher_of_enclaveEncrypt hr henc, toNat_strSize_add hr, length_cipher]
  unfold enclaveEncrypt at henc
  simp only [sgxRijndael128CmacMsg_eq, Option.bind_eq_bind, Option.bind_eq_some_iff, Option.pure_def,
    Option.some.injEq, Prod.mk.injEq] at henc
  obtain ⟨src, -, cipher, -, msg, hmsg, rfl, rfl⟩ := henc
  obtain ⟨rest, rfl⟩ := overwrite_eq_some hover
  -- what the buffer has to spare is not read
  have hread := (macMessage_take_append hlen rest _ _).trans hmsg
  unfold verifyEntry enclaveVerification
  simp only [he.keySize, he.keyHash, ← hkey, hread, sgxRijndael128CmacMsg_eq, Option.bind_eq_bind,
    Option.bind_some, Option.pure_def, if_true, printUnless, List.append_nil]

end Entry

/-- An `APP` that lays out its plaintext has not wrapped its sizes. -/
theorem sized_of_append {r : Rec} (hr : r.key.length + r.val.length + 2 < 2 ^ 32) {w : List UInt8}
    (hw : w.length + 1 < 2 ^ 32) {kv plain : List UInt8}
    (hkv : memcpy (malloc (strSize r.key + strSize r.val + strSize w - 1).toNat) 0 r.plain
      (strSize r.key + strSize r.val).toNat = some kv)
    (hplain : memcpy kv ((strSize r.key).toNat + (strSize r.val).toNat - 1) (cstr w)
      (strSize w).toNat = some plain) : r.key.length + r.val.length + w.length + 2 < 2 ^ 32 := by
  have hle := (memcpy_eq_some_iff.mp hplain).1.1
  have hlt := (strSize r.key + strSize r.val + strSize w - 1).toNat_lt
  rw [length_memcpy hkv, length_malloc, toNat_strSize (by omega), toNat_strSize (by omega),
    toNat_strSize hw] at hle
  omega

/-! ### What a write does -/

/-- A request has replaced the entry of a key, whose value `f` changes.  The entry is where
its record is; the new one carries the next record and passes its own check; and of the
bucket's MACs the slot is written that `place` gives for the length of the chain and the
place of the entry. -/
inductive Revised (arg : Arg) (sdk : Sdk) (R : Recs) (s : Store) (f : List UInt8 → List UInt8)
    (place : ℕ → ℕ → ℕ) : List UInt8 → Outcome → Prop
  | intro {pre post : List Rec} {r : Rec} {pre' post' : List Entry} {e e' : Entry} {log : List Event}
      (records : R (htHash arg (cstr r.key)) = pre ++ r :: post)
      (pre_ne : ∀ r' ∈ pre, r'.key ≠ r.key) (post_ne : ∀ r' ∈ post, r'.key ≠ r.key)
      (chain : s.chain (htHash arg (cstr r.key)) = pre' ++ e :: post')
      (pre_carries : List.Forall₂ (Carries sdk) pre' pre)
      (post_carries : List.Forall₂ (Carries sdk) post' post)
      (checked : verifyEntry sdk e = some log) (carries : Carries sdk e' (r.revise f))
      (passes : verifyEntry sdk e' = some []) :
      Revised arg sdk R s f place r.key
        (commitUpdate arg sdk s (htHash arg (cstr r.key)) pre' post' e e'
          (place (s.chain (htHash arg (cstr r.key))).length pre'.length) (padded arg r.key) log)

section Writes

variable {arg : Arg} {sdk : Sdk} {R : Recs} {s : Store} (ha : arg.Valid) (h : Stocked arg sdk R s)
  {out : Outcome}

include ha h

/-- **What a `SET` does**: it replaces the entry of its key, or puts a new one at the head of
the chain. -/
theorem Stocked.set_cases {k v : List UInt8} {rand : Block} (hq : (Op.set k v).Fits arg)
    (hout : setKeyVal arg sdk s rand (cstr k) (strSize k) (cstr v) (strSize v) = some out) :
    (k ∈ (R (htHash arg (cstr k))).map Rec.key ∧
      Revised arg sdk R s (fun _ => v) (slot arg) k out) ∨
    (k ∉ (R (htHash arg (cstr k))).map Rec.key ∧ Rec.Fits ⟨k, v, rand⟩ ∧
      (arg.macOpt = true → (s.chain (htHash arg (cstr k))).length < macSlots) ∧
      out = commit sdk
        (s.write (htHash arg (cstr k)) (Rec.entry sdk ⟨k, v, rand⟩ :: s.chain (htHash arg (cstr k)))
          (pushBuf arg (s.buf (htHash arg (cstr k))) (s.chain (htHash arg (cstr k))).length
            (Rec.mac sdk ⟨k, v, rand⟩)))
        (rootIndex arg (htHash arg (cstr k))) (groupMacs arg s (htHash arg (cstr k)))
        (groupWith arg s (htHash arg (cstr k)) (pushMac arg (bucketMacs arg s (htHash arg (cstr k)))
          (Rec.mac sdk ⟨k, v, rand⟩)))
        (padded arg k) (assertLog .kvPosZero ((s.chain (htHash arg (cstr k))).length == 0))) := by
  have hlen : k.length + v.length + 5 ≤ arg.maxBufSize := hq.length_le
  have hbuf := ha.buf_lt
  have hfits : ∀ nac, Rec.Fits ⟨k, v, nac⟩ := fun nac =>
    ⟨hq.word, hq.val_nul, by show k.length + v.length + 27 < 2 ^ 32; omega⟩
  by_cases hmem : k ∈ (R (htHash arg (cstr k))).map Rec.key
  · refine Or.inl ⟨hmem, ?_⟩
    obtain ⟨pre, r, post, hR, rfl, hpre, hpost⟩ := h.ok.split hmem
    obtain ⟨pre', e, post', hchain, hpre', he, hpost'⟩ := h.chain_of_split hR
    have hget := h.htGetO_present ha hchain hpre' he hpre
    obtain ⟨kv, plain, e', cipher, log, hlog, ⟨hkv, hplain, hrewrites, hcipher⟩, rfl⟩ :=
      (setKeyVal_eq_some_iff ha h.shaped h.sized rfl hget rfl rfl hchain).mp hout
    obtain rfl := Option.some.inj ((replyBuf_cstr ha (by omega)).symm.trans hcipher)
    -- the plaintext is that of the next record
    have hlayout := memcpy_plain (hfits r.next)
    rw [hkv, Option.bind_some, hplain, Option.some.injEq] at hlayout
    subst hlayout
    have hsized : (r.revise fun _ => v).key.length + (r.revise fun _ => v).val.length + 2 < 2 ^ 32 := by
      show r.key.length + v.length + 2 < 2 ^ 32
      omega
    exact .intro hR hpre hpost hchain hpre' hpost' hlog (he.rewrites hsized rfl hrewrites)
      (he.verifyEntry_rewrites hsized rfl hrewrites)
  · have hget := h.htGetO_absent ha (by omega) hmem
    have hroom : arg.macOpt = true → (s.chain (htHash arg (cstr k))).length < macSlots :=
      fun hmac => lt_macSlots_of_insert ha h.shaped hmac hget rfl hout
    have hinsert := setKeyVal_insert ha h.shaped h.sized (hfits rand)
      (show k.length + 1 ≤ arg.maxBufSize by omega) rfl hget hroom
    exact Or.inr ⟨hmem, hfits rand, hroom, Option.some.inj (hout.symm.trans hinsert)⟩

/-- **What an `APP` does**: it replaces the entry of its key, or nothing is there to append
to. -/
theorem Stocked.append_cases {k w cipher : List UInt8} (hq : (Op.append k w).Fits arg)
    (hout : appendKeyVal arg sdk s cipher (cstr k) (strSize k) (cstr w) (strSize w) = some out) :
    (k ∈ (R (htHash arg (cstr k))).map Rec.key ∧
      Revised arg sdk R s (· ++ w) (fun _ pos => pos) k out) ∨
    (k ∉ (R (htHash arg (cstr k))).map Rec.key ∧ out = ⟨s, cipher, [.print .noDataToAppend]⟩) := by
  have hlen : k.length + w.length + 5 ≤ arg.maxBufSize := hq.length_le
  have hbuf := ha.buf_lt
  by_cases hmem : k ∈ (R (htHash arg (cstr k))).map Rec.key
  · refine Or.inl ⟨hmem, ?_⟩
    obtain ⟨pre, r, post, hR, rfl, hpre, hpost⟩ := h.ok.split hmem
    obtain ⟨pre', e, post', hchain, hpre', he, hpost'⟩ := h.chain_of_split hR
    have hget := h.htGetO_present ha hchain hpre' he hpre
    obtain ⟨plain, kv, kv', e', cipher', log, hlog, ⟨hplain, hkv, hkv', hrewrites, hcipher⟩, rfl⟩ :=
      (appendKeyVal_eq_some_iff ha h.shaped h.sized rfl hget rfl rfl hchain).mp hout
    obtain rfl := Option.some.inj ((replyBuf_cstr ha (by omega)).symm.trans hcipher)
    obtain rfl : r.plain = plain := Option.some.inj hplain
    rw [he.keySize, he.valSize] at hkv hkv'
    have hsum := sized_of_append he.sized (by omega) hkv hkv'
    -- the plaintext is that of the next record
    have hlayout := @memcpy_append_plain r (r.revise (· ++ w)) w hsum rfl rfl
    rw [hkv, Option.bind_some, hkv', Option.some.injEq] at hlayout
    subst hlayout
    rw [he.valSize, strSize_append (by omega)] at hrewrites
    have hsized : (r.revise (· ++ w)).key.length + (r.revise (· ++ w)).val.length + 2 < 2 ^ 32 := by
      show r.key.length + (r.val ++ w).length + 2 < 2 ^ 32
      rw [List.length_append]
      omega
    exact .intro hR hpre hpost hchain hpre' hpost' hlog (he.rewrites hsized rfl hrewrites)
      (he.verifyEntry_rewrites hsized rfl hrewrites)
  · exact Or.inr ⟨hmem, Option.some.inj (hout.symm.trans
      (appendKeyVal_miss (h.htGetO_absent ha (by omega) hmem) _ _ _))⟩

end Writes

/-! ### The table after a request -/

/-- Roots do not matter to the table. -/
theorem Stocked.commit {arg : Arg} {sdk : Sdk} {R : Recs} {s : Store} (h : Stocked arg sdk R s)
    (g : ℕ) (before after : List Block) (cipher : List UInt8) (log : List Event) :
    Stocked arg sdk R (ShieldStore.commit sdk s g before after cipher log).store := by
  unfold ShieldStore.commit
  split
  · exact ⟨h.ok, h.shaped.setRoot _ _, h.chain, h.sized⟩
  · exact h

section Steps

variable {arg : Arg} {sdk : Sdk} {R : Recs} {s : Store} (ha : arg.Valid) (h : Stocked arg sdk R s)
  {out : Outcome}

include ha h

/-- An update of the entry of a key. -/
theorem Stocked.revised {f : List UInt8 → List UInt8} {place : ℕ → ℕ → ℕ} {k : List UInt8}
    (hrev : Revised arg sdk R s f place k out) :
    Stocked arg sdk (R.change arg k (reviseKey k f)) out.store := by
  have hb : htHash arg (cstr k) < arg.bucketSize := Arg.Valid.htHash_lt ha.bucket_pos _
  cases hrev with
  | @intro pre post r pre' post' e e' log hR hpre hpost hchain hpre' hpost' _ he' _ =>
    refine Stocked.commit ⟨h.ok.change_reviseKey r.key f, h.shaped.write _ _ _, ?_,
      h.sized.put hb h.shaped (by simp [hchain]) _ _⟩ _ _ _ _ _
    refine forall_chain_write ha h.shaped h.chain ?_ _
    rw [hR, reviseKey_append f hpre hpost]
    exact List.rel_append hpre' (List.Forall₂.cons he' hpost')

/-- A `SET` that is served. -/
theorem Stocked.set {k v : List UInt8} {rand : Block} (hq : (Op.set k v).Fits arg)
    (hout : setKeyVal arg sdk s rand (cstr k) (strSize k) (cstr v) (strSize v) = some out) :
    Stocked arg sdk (R.change arg k (setKey k v rand)) out.store := by
  have hb : htHash arg (cstr k) < arg.bucketSize := Arg.Valid.htHash_lt ha.bucket_pos _
  rcases h.set_cases ha hq hout with ⟨hmem, hrev⟩ | ⟨hmem, hfits, hroom, rfl⟩
  · rw [Recs.change, setKey_of_mem hmem]
    exact h.revised ha hrev
  · have hok := h.ok.step ⟨.set k v, false, rand⟩
    refine Stocked.commit ⟨hok, h.shaped.write _ _ _, ?_, h.sized.push hb h.shaped hroom _ _⟩
      _ _ _ _ _
    refine forall_chain_write ha h.shaped h.chain ?_ _
    rw [setKey_of_notMem hmem]
    exact List.Forall₂.cons hfits.carries (h.chain _)

/-- An `APP` that is served. -/
theorem Stocked.append {k w cipher : List UInt8} (hq : (Op.append k w).Fits arg)
    (hout : appendKeyVal arg sdk s cipher (cstr k) (strSize k) (cstr w) (strSize w) = some out) :
    Stocked arg sdk (R.change arg k (reviseKey k (· ++ w))) out.store := by
  rcases h.append_cases ha hq hout with ⟨-, hrev⟩ | ⟨hmem, rfl⟩
  · exact h.revised ha hrev
  · have hsame : R.change arg k (reviseKey k (· ++ w)) = R := by
      rw [Recs.change, reviseKey_of_forall_ne fun r hr hkey => hmem (List.mem_map.mpr ⟨r, hr, hkey⟩),
        Function.update_eq_self]
    rw [hsame]
    exact h

/-- **A request that is served leaves the next records.** -/
theorem Stocked.step {q : Req} (hq : q.WellFormed arg) (hout : serve arg sdk s q = some out) :
    Stocked arg sdk (R.step arg q) out.store := by
  rw [serve_eq sdk ha hq] at hout
  obtain ⟨op, lower, rand⟩ := q
  cases op with
  | get k =>
    rw [store_of_getKeyVal hout]
    exact h
  | set k v => exact h.set ha hq.op_fits hout
  | append k v => exact h.append ha hq.op_fits hout

end Steps

/-- **The table of a run carries its records.** -/
theorem stocked_of_run {arg : Arg} {sdk : Sdk} (ha : arg.Valid) {qs : List Req}
    (hqs : ∀ q ∈ qs, q.WellFormed arg) {s : Store} {outs : List Outcome}
    (hrun : run (serveStep arg sdk) (enclaveInitValues arg) qs = some (s, outs)) :
    Stocked arg sdk (Recs.after arg qs) s := by
  induction qs using List.reverseRecOn generalizing s outs with
  | nil =>
    obtain ⟨rfl, -⟩ := Prod.mk.inj (Option.some.inj hrun)
    exact (Holds.init sdk).stocked
  | append_singleton qs q ih =>
    obtain ⟨s₁, outs₁, out, hrun₁, hlast, -⟩ := run_concat_eq_some_iff.mp hrun
    have h := ih (fun q hq => hqs q (by simp [hq])) hrun₁
    obtain ⟨out', hout, heq⟩ := Option.map_eq_some_iff.mp hlast
    obtain ⟨rfl, -⟩ := Prod.mk.inj heq
    rw [Recs.after_concat]
    exact h.step ha (hqs q (by simp)) hout

end ShieldStore
