import ShieldStore.Honest

/-!
# The key hint

With `key_opt` the search decrypts an entry only if the entry's key hint, one byte
of a hash of the key, is the one searched for.  The hint of an entry is written once,
when the entry is inserted, and no update changes it; but no update changes the key
either.  So the hint of every entry is the hint of its key, and the search passes over
nothing that it would have found.

## Main definitions

* `Arg.withHint` — the configuration with the option on or off.

## Main results

* `Stocked.htGetO_withHint` — the search finds the same either way.
* `keyOpt_transparent` — so do whole runs.
-/

namespace ShieldStore

open Bytes Counter CMem Run

/-- The configuration with the key hint used or not. -/
def Arg.withHint (arg : Arg) (keyOpt : Bool) : Arg := { arg with keyOpt }

theorem Arg.Valid.withHint {arg : Arg} (ha : arg.Valid) (keyOpt : Bool) :
    (arg.withHint keyOpt).Valid := ⟨ha.root_pos, ha.bucket_pos, ha.root_dvd, ha.buf_lt⟩

section Stocked

variable {arg : Arg} {sdk : Sdk} {R : Recs} {s : Store} (ha : arg.Valid) (h : Stocked arg sdk R s)

include h

theorem Stocked.withHint (keyOpt : Bool) : Stocked (arg.withHint keyOpt) sdk R s :=
  ⟨⟨h.ok.hash, h.ok.nodup⟩, ⟨h.shaped.table, h.shaped.macbuf, h.shaped.macTable⟩, h.chain, h.sized⟩

include ha

/-- What the search for a key finds does not depend on the option. -/
theorem Stocked.htGetO_withHint {k : List UInt8} (hk : k.length + 1 < 2 ^ 32) :
    ∃ l, ∀ keyOpt, htGetO (arg.withHint keyOpt) sdk s (cstr k) (strSize k) = some l := by
  by_cases hmem : k ∈ (R (htHash arg (cstr k))).map Rec.key
  -- the entry of the key is found in either search, at the same place
  · obtain ⟨pre, r, post, hR, rfl, hpre, -⟩ := h.ok.split hmem
    obtain ⟨pre', e, post', hchain, hpre', he, -⟩ := h.chain_of_split hR
    exact ⟨_, fun keyOpt =>
      (h.withHint keyOpt).htGetO_present (ha.withHint keyOpt) hchain hpre' he hpre⟩
  · exact ⟨⟨none, none, (s.chain (htHash arg (cstr k))).length, 0⟩, fun keyOpt =>
      (h.withHint keyOpt).htGetO_absent (ha.withHint keyOpt) hk hmem⟩

end Stocked

/-- Nothing but the search looks at the option. -/
theorem apply_withHint {arg : Arg} {sdk : Sdk} {s : Store} {q : Req} {l : Lookup}
    (hget : ∀ keyOpt, htGetO (arg.withHint keyOpt) sdk s (cstr q.op.key) (strSize q.op.key) = some l) :
    q.apply (arg.withHint true) sdk s = q.apply (arg.withHint false) sdk s := by
  have htrue := hget true
  have hfalse := hget false
  obtain ⟨op, lower, rand⟩ := q
  cases op with
  | get k =>
    dsimp only [Op.key] at htrue hfalse
    show getKeyVal _ _ _ _ _ _ = getKeyVal _ _ _ _ _ _
    unfold getKeyVal
    rw [htrue, hfalse]
    rfl
  | set k v =>
    dsimp only [Op.key] at htrue hfalse
    show setKeyVal _ _ _ _ _ _ _ _ = setKeyVal _ _ _ _ _ _ _ _
    unfold setKeyVal
    rw [htrue, hfalse]
    rfl
  | append k v =>
    dsimp only [Op.key] at htrue hfalse
    show appendKeyVal _ _ _ _ _ _ _ _ = appendKeyVal _ _ _ _ _ _ _ _
    unfold appendKeyVal
    rw [htrue, hfalse]
    rfl

section Runs

variable {arg : Arg} {sdk : Sdk} (ha : arg.Valid)

include ha

theorem Stocked.serve_withHint {R : Recs} {s : Store} (h : Stocked arg sdk R s) {q : Req}
    (hq : q.WellFormed arg) :
    serve (arg.withHint true) sdk s q = serve (arg.withHint false) sdk s q := by
  have hbuf := ha.buf_lt
  have hkey := hq.key_lt
  obtain ⟨l, hget⟩ := h.htGetO_withHint ha (show q.op.key.length + 1 < 2 ^ 32 by omega)
  rw [serve_eq sdk (ha.withHint true) ⟨hq.word, hq.val_nul, hq.fits⟩,
    serve_eq sdk (ha.withHint false) ⟨hq.word, hq.val_nul, hq.fits⟩]
  exact apply_withHint hget

/-- Two runs from one state stay together. -/
theorem Stocked.run_withHint {qs : List Req} : ∀ {R : Recs} {s : Store}, Stocked arg sdk R s →
    (∀ q ∈ qs, q.WellFormed arg) →
    run (serveStep (arg.withHint true) sdk) s qs = run (serveStep (arg.withHint false) sdk) s qs := by
  induction qs with
  | nil => intro R s _ _; rfl
  | cons q qs ih =>
    intro R s h hqs
    have hq := hqs q List.mem_cons_self
    have hserve := h.serve_withHint ha hq
    cases hout : serve (arg.withHint false) sdk s q with
    | none => simp [run, serveStep, hserve, hout]
    | some out =>
      have hnext : Stocked arg sdk (R.step arg q) out.store :=
        ((h.withHint false).step (ha.withHint false) ⟨hq.word, hq.val_nul, hq.fits⟩ hout).withHint
          arg.keyOpt
      have hrest := ih hnext fun q' hq' => hqs q' (List.mem_cons_of_mem _ hq')
      simp [run, serveStep, hserve, hout, hrest]

end Runs

/-- **The key hint changes nothing.**  The runs with the option and without it go through
the same stores, with the same replies and the same messages printed; and in every
store they reach, the search for any key returns the same entry, position, plaintext
and counter. -/
theorem keyOpt_transparent {arg : Arg} (sdk : Sdk) (ha : arg.Valid) {qs : List Req}
    (hqs : ∀ q ∈ qs, q.WellFormed arg) :
    run (serveStep (arg.withHint true) sdk) (enclaveInitValues arg) qs =
        run (serveStep (arg.withHint false) sdk) (enclaveInitValues arg) qs ∧
      ∀ s outs, run (serveStep (arg.withHint true) sdk) (enclaveInitValues arg) qs = some (s, outs) →
        ∀ k : List UInt8, k.length + 1 < 2 ^ 32 →
          ∃ l, htGetO (arg.withHint true) sdk s (cstr k) (strSize k) = some l ∧
            htGetO (arg.withHint false) sdk s (cstr k) (strSize k) = some l := by
  refine ⟨(Holds.init sdk).stocked.run_withHint ha hqs, ?_⟩
  intro s outs hrun k hk
  have h := stocked_of_run (ha.withHint true)
    (fun q hq => ⟨(hqs q hq).word, (hqs q hq).val_nul, (hqs q hq).fits⟩) hrun
  obtain ⟨l, hget⟩ := h.htGetO_withHint (ha.withHint true) hk
  exact ⟨l, hget true, hget false⟩

/-- Two keys of one bucket with different hints: the search for the first decrypts the
entry of the second only without the option. -/
theorem keyOpt_transparent_append :
    ∃ s outs l,
      run (serveStep ⟨1, 32, 2, 1, true, true⟩ Sdk.aes) (enclaveInitValues ⟨1, 32, 2, 1, true, true⟩)
        [⟨.set [0x6b] [0x76], false, 1⟩, ⟨.set [0x6d] [0x77], true, 2⟩,
          ⟨.append [0x6b] [0x77], true, 3⟩] = some (s, outs) ∧
      run (serveStep ⟨1, 32, 2, 1, false, true⟩ Sdk.aes) (enclaveInitValues ⟨1, 32, 2, 1, true, true⟩)
        [⟨.set [0x6b] [0x76], false, 1⟩, ⟨.set [0x6d] [0x77], true, 2⟩,
          ⟨.append [0x6b] [0x77], true, 3⟩] = some (s, outs) ∧
      htGetO ⟨1, 32, 2, 1, true, true⟩ Sdk.aes s (cstr [0x6b]) (strSize [0x6b]) = some l ∧
      htGetO ⟨1, 32, 2, 1, false, true⟩ Sdk.aes s (cstr [0x6b]) (strSize [0x6b]) = some l := by
  obtain ⟨hsame, hget⟩ := @keyOpt_transparent ⟨1, 32, 2, 1, true, true⟩ Sdk.aes (by decide)
    [⟨.set [0x6b] [0x76], false, 1⟩, ⟨.set [0x6d] [0x77], true, 2⟩, ⟨.append [0x6b] [0x77], true, 3⟩]
    (by decide)
  obtain ⟨⟨s, outs⟩, hrun⟩ := Option.isSome_iff_exists.mp (show (run
    (serveStep ⟨1, 32, 2, 1, true, true⟩ Sdk.aes) (enclaveInitValues ⟨1, 32, 2, 1, true, true⟩)
    [⟨.set [0x6b] [0x76], false, 1⟩, ⟨.set [0x6d] [0x77], true, 2⟩,
      ⟨.append [0x6b] [0x77], true, 3⟩]).isSome = true by decide +kernel)
  obtain ⟨l, htrue, hfalse⟩ := hget s outs hrun [0x6b] (by decide)
  exact ⟨s, outs, l, hrun, hsame.symm.trans hrun, htrue, hfalse⟩

end ShieldStore
