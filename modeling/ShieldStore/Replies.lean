import ShieldStore.Capacity

/-!
# What a reply tells

`enclave_get` replies with the value it finds.  If it finds none, it returns with the
buffer as it is, and the worker sends the request back to the client.  Nothing marks
which of the two a reply is, so that a client cannot tell a missing key from a value that
is the text of the request.

## Main definitions

* `Reached` — a store that requests lead to.

## Main results

* `Reached.get_reply` — the reply to a `GET`: the value, or the text of the request.
* `reply_determines_iff` — when two replies that are the same mean the same.
-/

namespace ShieldStore

open Bytes Counter CMem Run

/-- The store that a server with the configuration `arg` reaches by the requests `qs`, with
nobody else writing to its memory. -/
structure Reached (arg : Arg) (sdk : Sdk) (qs : List Req) (s : Store) : Prop where
  valid : arg.Valid
  wellFormed : ∀ q ∈ qs, q.WellFormed arg
  run : ∃ outs, run (serveStep arg sdk) (enclaveInitValues arg) qs = some (s, outs)

/-- Every byte of a value was sent. -/
theorem exists_sent_of_after {k v : List UInt8} {c : UInt8} (hc : c ∈ v) : ∀ {qs : List Req},
    StringMap.after qs k = some v → ∃ q ∈ qs, c ∈ q.op.val := by
  intro qs
  induction qs using List.reverseRecOn generalizing v with
  | nil =>
    intro h
    cases h
  | append_singleton qs q ih =>
    intro h
    -- a byte that was there before
    have hold : ∀ {v'}, c ∈ v' → StringMap.after qs k = some v' → ∃ q' ∈ qs ++ [q], c ∈ q'.op.val := by
      intro v' hc' hv'
      obtain ⟨q', hq', hmem⟩ := ih hc' hv'
      exact ⟨q', List.mem_append_left _ hq', hmem⟩
    have hnew : c ∈ q.op.val → ∃ q' ∈ qs ++ [q], c ∈ q'.op.val :=
      fun hmem => ⟨q, by simp, hmem⟩
    rw [StringMap.after_concat] at h
    cases hop : q.op with
    | get k' =>
      rw [hop] at h
      exact hold hc h
    | set k' w =>
      rw [hop] at h hnew
      rw [StringMap.step, Function.update_apply] at h
      split at h
      · obtain rfl := Option.some.inj h
        exact hnew hc
      · exact hold hc h
    | append k' w =>
      rw [hop] at h hnew
      rw [StringMap.step, Function.update_apply] at h
      split at h
      · next hk =>
        subst hk
        obtain ⟨v₀, hv₀, rfl⟩ := Option.map_eq_some_iff.mp h
        rcases List.mem_append.mp hc with hc | hc
        · exact hold hc hv₀
        · exact hnew hc
      · exact hold hc h

/-- The text of a request has no terminator in it. -/
theorem nul_notMem_text {arg : Arg} {q : Req} (hq : q.WellFormed arg) : (0 : UInt8) ∉ q.text := by
  have hk := hq.word.nul_notMem
  have hv := hq.val_nul
  obtain ⟨op, lower, rand⟩ := q
  cases op <;> cases lower <;> simp_all [Req.text, Op.verb, Op.args, Op.key, Op.val]

/-! ### The reply to a `GET` -/

section Reply

variable {arg : Arg} {sdk : Sdk} {k : List UInt8} {lower : Bool} {rand : Block}
  (hq : Req.WellFormed arg ⟨.get k, lower, rand⟩)

include hq

/-- A `GET` of a value that fits is answered: with the value, or with the request. -/
theorem Stocked.get_reply {R : Recs} {s : Store} (ha : arg.Valid) (h : Stocked arg sdk R s)
    (hfit : ∀ v, R.map arg k = some v → v.length + 1 ≤ arg.maxBufSize) :
    ∃ out, serve arg sdk s ⟨.get k, lower, rand⟩ = some out ∧
      out.cipher = padded arg ((R.map arg k).getD (Req.text ⟨.get k, lower, rand⟩)) := by
  have hbuf := ha.buf_lt
  have hk : k.length + 5 ≤ arg.maxBufSize := hq.key_lt
  rw [serve_eq sdk ha hq]
  rcases h.search ha hk with ⟨hmap, -, hget⟩ | ⟨e, r, pos, hmap, -, he, rfl, -, hget⟩
  · exact ⟨_, getKeyVal_miss hget _, by rw [hmap]; rfl⟩
  · have hv := hfit _ hmap
    have hbounded : e.Bounded := by
      unfold Entry.Bounded Unwrapped
      rw [he.toNat_keySize, he.toNat_valSize]
      omega
    -- the checks come to a result, whatever it is
    have hlog := (@verifyEntry_eq_some_iff sdk e hbounded _).mpr ⟨he.backed, rfl⟩
    have hlt : htHash arg (cstr r.key) < arg.bucketSize := Arg.Valid.htHash_lt ha.bucket_pos _
    have hroot := enclaveVerifyTreeRoot_eq sdk h.shaped (ha.rootIndex_lt hlt)
      (aggregateMac_eq ha h.shaped hlt (h.sized.group ha hlt).inRange)
    have hreply : replyBuf arg (r.plain.drop e.keySize.toNat) e.valSize.toNat =
        some (padded arg r.val) := by
      rw [he.toNat_keySize, drop_plain, he.valSize]
      exact replyBuf_cstr ha hv
    rw [hmap]
    show ∃ out, getKeyVal arg sdk s (Req.cut arg ⟨.get r.key, lower, rand⟩) (cstr r.key)
      (strSize r.key) = some out ∧ out.cipher = padded arg r.val
    unfold getKeyVal
    simp only [hget, hlog, hroot, hreply, Option.bind_eq_bind, Option.bind_some, Option.pure_def]
    exact ⟨_, rfl, rfl⟩

/-- The same in a store that requests lead to. -/
theorem Reached.get_reply {qs : List Req} {s : Store} (h : Reached arg sdk qs s)
    (hfit : ∀ v, StringMap.after qs k = some v → v.length + 1 ≤ arg.maxBufSize) :
    ∃ out, serve arg sdk s ⟨.get k, lower, rand⟩ = some out ∧
      out.cipher = padded arg ((StringMap.after qs k).getD (Req.text ⟨.get k, lower, rand⟩)) := by
  obtain ⟨outs, hrun⟩ := h.run
  rw [← map_after arg] at hfit ⊢
  exact (stocked_of_run h.valid h.wellFormed hrun).get_reply hq h.valid hfit

/-- Neither of the two has a terminator in it. -/
theorem Reached.nul_notMem {qs : List Req} {s : Store} (h : Reached arg sdk qs s) :
    (0 : UInt8) ∉ (StringMap.after qs k).getD (Req.text ⟨.get k, lower, rand⟩) := by
  cases hv : StringMap.after qs k with
  | none => exact nul_notMem_text hq
  | some v =>
    intro hmem
    obtain ⟨q, hqs, hval⟩ := exists_sent_of_after hmem hv
    exact (h.wellFormed q hqs).val_nul hval

end Reply

/-- Two lookups that give the same text mean the same, unless one of them is a miss and the
other finds the text that stands for a miss. -/
theorem getD_determines_iff {α : Type*} {text : α} {m₁ m₂ : Option α} :
    (m₁.getD text = m₂.getD text → m₁ = m₂) ↔
      ¬ (m₁ = none ∧ m₂ = some text) ∧ ¬ (m₁ = some text ∧ m₂ = none) := by
  rcases m₁ with - | v₁ <;> rcases m₂ with - | v₂
  · simp
  · simp [eq_comm]
  · simp
  · simp

/-- **What a reply tells.**  A key is asked for in two stores, which servers with messages of
one size have reached, and its values fit a message.  Both requests are answered.  That
the answers are the same means that the key is absent from both stores, or present in
both with the same value, just when it is not absent from one and, in the other, has the
text of the request for its value. -/
theorem reply_determines_iff {arg₁ arg₂ : Arg} {sdk₁ sdk₂ : Sdk} {qs₁ qs₂ : List Req}
    {s₁ s₂ : Store} (h₁ : Reached arg₁ sdk₁ qs₁ s₁) (h₂ : Reached arg₂ sdk₂ qs₂ s₂)
    (hbuf : arg₁.maxBufSize = arg₂.maxBufSize) {k : List UInt8} {lower : Bool} {rand : Block}
    (hq : Req.WellFormed arg₁ ⟨.get k, lower, rand⟩)
    (hfit₁ : ∀ v, StringMap.after qs₁ k = some v → v.length + 1 ≤ arg₁.maxBufSize)
    (hfit₂ : ∀ v, StringMap.after qs₂ k = some v → v.length + 1 ≤ arg₂.maxBufSize) :
    ∃ out₁ out₂, serve arg₁ sdk₁ s₁ ⟨.get k, lower, rand⟩ = some out₁ ∧
      serve arg₂ sdk₂ s₂ ⟨.get k, lower, rand⟩ = some out₂ ∧
      ((out₁.cipher = out₂.cipher → StringMap.after qs₁ k = StringMap.after qs₂ k) ↔
        ¬ (StringMap.after qs₁ k = none ∧
            StringMap.after qs₂ k = some (Req.text ⟨.get k, lower, rand⟩)) ∧
        ¬ (StringMap.after qs₁ k = some (Req.text ⟨.get k, lower, rand⟩) ∧
            StringMap.after qs₂ k = none)) := by
  have hq₂ : Req.WellFormed arg₂ ⟨.get k, lower, rand⟩ := ⟨hq.word, hq.val_nul, hbuf ▸ hq.fits⟩
  obtain ⟨out₁, hout₁, hcipher₁⟩ := h₁.get_reply hq hfit₁
  obtain ⟨out₂, hout₂, hcipher₂⟩ := h₂.get_reply hq₂ hfit₂
  refine ⟨out₁, out₂, hout₁, hout₂, ?_⟩
  -- the padding does not matter
  have hsame : out₁.cipher = out₂.cipher ↔
      (StringMap.after qs₁ k).getD (Req.text ⟨.get k, lower, rand⟩) =
        (StringMap.after qs₂ k).getD (Req.text ⟨.get k, lower, rand⟩) := by
    have hpad : ∀ t, padded arg₂ t = padded arg₁ t := fun t => by rw [padded, padded, hbuf]
    rw [hcipher₁, hcipher₂, hpad]
    constructor
    · exact padded_inj (h₁.nul_notMem hq) (h₂.nul_notMem hq₂)
    · intro heq
      rw [heq]
  rw [hsame]
  exact getD_determines_iff

/-- A store without `k`, and one of another configuration in which its value is `v`. -/
theorem reply_determines_iff_value :
    ∃ s₁ s₂ out₁ out₂,
      Reached ⟨1, 16, 1, 1, false, false⟩ Sdk.aes [] s₁ ∧
      Reached ⟨1, 16, 2, 1, true, true⟩ Sdk.aes [⟨.set [0x6b] [0x76], false, 1⟩] s₂ ∧
      serve ⟨1, 16, 1, 1, false, false⟩ Sdk.aes s₁ ⟨.get [0x6b], false, 0⟩ = some out₁ ∧
      serve ⟨1, 16, 2, 1, true, true⟩ Sdk.aes s₂ ⟨.get [0x6b], false, 0⟩ = some out₂ ∧
      (out₁.cipher = out₂.cipher →
        StringMap.after [] [0x6b] = StringMap.after [⟨.set [0x6b] [0x76], false, 1⟩] [0x6b]) := by
  obtain ⟨⟨s₂, outs⟩, hrun⟩ := Option.isSome_iff_exists.mp (show (run
    (serveStep ⟨1, 16, 2, 1, true, true⟩ Sdk.aes) (enclaveInitValues ⟨1, 16, 2, 1, true, true⟩)
    [⟨.set [0x6b] [0x76], false, 1⟩]).isSome = true by decide +kernel)
  have h₁ : Reached ⟨1, 16, 1, 1, false, false⟩ Sdk.aes []
      (enclaveInitValues ⟨1, 16, 1, 1, false, false⟩) := ⟨by decide, by simp, [], rfl⟩
  have h₂ : Reached ⟨1, 16, 2, 1, true, true⟩ Sdk.aes [⟨.set [0x6b] [0x76], false, 1⟩] s₂ :=
    ⟨by decide, by decide, outs, hrun⟩
  obtain ⟨out₁, out₂, hout₁, hout₂, hiff⟩ := reply_determines_iff h₁ h₂ rfl
    (show Req.WellFormed ⟨1, 16, 1, 1, false, false⟩ ⟨.get [0x6b], false, 0⟩ by decide)
    (fits_of_sum_le (by decide) [] (List.prefix_refl _) _)
    (fits_of_sum_le (by decide) _ (List.prefix_refl _) _)
  exact ⟨_, s₂, out₁, out₂, h₁, h₂, hout₁, hout₂, hiff.mpr ⟨by decide, by decide⟩⟩

/-- **A value that looks like a miss.**  `GET k` is answered with `GET k`: because `k` is
missing, or because this is its value. -/
theorem reply_ambiguous :
    ((serve ⟨1, 16, 1, 1, false, false⟩ Sdk.aes (enclaveInitValues ⟨1, 16, 1, 1, false, false⟩)
      ⟨.get [0x6b], false, 0⟩).map Outcome.cipher) =
        some (padded ⟨1, 16, 1, 1, false, false⟩ [0x47, 0x45, 0x54, 0x20, 0x6b]) ∧
    ((run (serveStep ⟨1, 16, 1, 1, false, false⟩ Sdk.aes)
        (enclaveInitValues ⟨1, 16, 1, 1, false, false⟩)
        [⟨.set [0x6b] [0x47, 0x45, 0x54, 0x20, 0x6b], false, 1⟩]).bind fun r =>
      (serve ⟨1, 16, 1, 1, false, false⟩ Sdk.aes r.1 ⟨.get [0x6b], false, 0⟩).map Outcome.cipher) =
        some (padded ⟨1, 16, 1, 1, false, false⟩ [0x47, 0x45, 0x54, 0x20, 0x6b]) ∧
    StringMap.after [] [0x6b] = none ∧
    StringMap.after [⟨.set [0x6b] [0x47, 0x45, 0x54, 0x20, 0x6b], false, 1⟩] [0x6b] =
      some [0x47, 0x45, 0x54, 0x20, 0x6b] := by
  decide +kernel

end ShieldStore
