import ShieldStore.Capacity
import ShieldStore.Logs

/-!
# Assertions

The enclave is built with `NDEBUG`, and its assertions are not evaluated.  This module is
about the build without it.  Two of the assertions say what a search has left behind when
it finds nothing: `plain_key_val` is null, and `kv_pos` is zero.  The first is true.  The
second is not: the search has counted the entries it has passed, and is only right about
a bucket without any.

## Main definitions

* `Object`, `htGetAsserts` — the assertions of `ht_get_o` on an entry that it has found.
* `assertsHold` — all assertions of a request are true.
* `debugStep` — a request in a build that evaluates them.

## Main results

* `Stocked.assertsHold_iff` — a request violates an assertion just when it puts a second
  key into a bucket.
* `asserts_hold_iff` — the same for runs, and for the builds.
-/

namespace ShieldStore

open Bytes Counter CMem Run

/-! ### Evaluating assertions -/

/-- What `sgx_is_outside_enclave` is asked about: the entry at a position of a bucket's
chain, and the bytes of its buffer. -/
inductive Object
  | pair (bin kvPos : ℕ)
  | keyVal (bin kvPos bytes : ℕ)
  deriving DecidableEq

/-- The assertions of `ht_get_o`: on an entry that it returns, three. -/
def htGetAsserts (outside : Object → Bool) (bin : ℕ) (l : Lookup) : List Bool :=
  match l.pair with
  | none => []
  | some pair =>
      -- `plain_key_val` is the address of a variable of the caller, which is not null
      [true, outside (.pair bin l.kvPos),
        outside (.keyVal bin l.kvPos (pair.keySize + pair.valSize).toNat)]

/-- The line reports an assertion. -/
def Event.isAssert : Event → Bool
  | .assertFalse _ => true
  | .print _ => false

/-- All assertions that a request evaluates are true. -/
def assertsHold (arg : Arg) (sdk : Sdk) (outside : Store → Object → Bool) (s : Store) (q : Req) :
    Option Bool := do
  let l ← htGetO arg sdk s (cstr q.op.key) (strSize q.op.key)
  let out ← serve arg sdk s q
  return (htGetAsserts (outside s) (htHash arg (cstr q.op.key)) l).all id &&
    !out.log.any Event.isAssert

/-- A request in a build that evaluates the assertions: the first that is false aborts the
enclave, and there is no next state. -/
def debugStep (arg : Arg) (sdk : Sdk) (outside : Store → Object → Bool) (s : Store) (q : Req) :
    Option (Store × Outcome) := do
  if ← assertsHold arg sdk outside s q then serveStep arg sdk s q else none

theorem debugStep_eq_some_iff {arg : Arg} {sdk : Sdk} {outside : Store → Object → Bool} (s : Store)
    (q : Req) (r : Store × Outcome) :
    debugStep arg sdk outside s q = some r ↔
      serveStep arg sdk s q = some r ∧ assertsHold arg sdk outside s q = some true := by
  unfold debugStep
  cases assertsHold arg sdk outside s q with
  | none => simp
  | some b => cases b <;> simp

/-- The checks do not violate assertions. -/
theorem any_isAssert_of_subset {log : List Event} {m : Msg} (h : log ⊆ .print m :: checkPrints) :
    log.any Event.isAssert = false := by
  rw [List.any_eq_false]
  intro e he
  have hmem := h he
  simp only [checkPrints, List.mem_cons, List.not_mem_nil, or_false] at hmem
  rcases hmem with rfl | rfl | rfl | rfl <;> simp [Event.isAssert]

/-! ### Records of a bucket -/

section Growth

variable {arg : Arg} {R : Recs} (hR : ∀ b, (R b).length ≤ 1)

include hR

/-- A request that does not insert leaves the buckets as long as they are. -/
theorem forall_length_step_le {q : Req}
    (hq : ∀ k, q.op.inserts = some k → k ∈ (R (htHash arg (cstr k))).map Rec.key) (b : ℕ) :
    (R.step arg q b).length ≤ 1 :=
  length_step_le hR (fun k hins habs => absurd (hq k hins) habs) b

/-- An insert leaves one record in its bucket if it finds none. -/
theorem forall_length_insert_le_iff {k v : List UInt8} {lower : Bool} {rand : Block}
    (habs : k ∉ (R (htHash arg (cstr k))).map Rec.key) :
    (∀ b, (R.step arg ⟨.set k v, lower, rand⟩ b).length ≤ 1) ↔
      (R (htHash arg (cstr k))).length = 0 := by
  constructor
  · intro h
    have hb := h (htHash arg (cstr k))
    have hstep : R.step arg ⟨.set k v, lower, rand⟩ = R.change arg k (setKey k v rand) := rfl
    rw [hstep, Recs.change, Function.update_self, setKey_of_notMem habs, List.length_cons] at hb
    omega
  · intro hnil
    apply length_step_le hR
    intro k' hins _
    obtain rfl : k = k' := Option.some.inj hins
    omega

end Growth

/-! ### One request -/

section Request

variable {arg : Arg} {sdk : Sdk} {outside : Store → Object → Bool} {R : Recs} {s : Store}

/-- The assertions of a search hold where the allocator keeps to its side. -/
theorem all_htGetAsserts (houtside : ∀ s o, outside s o = true) (bin : ℕ) (l : Lookup) :
    (htGetAsserts (outside s) bin l).all id = true := by
  unfold htGetAsserts
  cases l.pair with
  | none => rfl
  | some pair => simp [houtside]

/-- A search of untampered memory comes to an end. -/
theorem Stocked.exists_htGetO (ha : arg.Valid) (h : Stocked arg sdk R s) {k : List UInt8}
    (hk : k.length + 5 ≤ arg.maxBufSize) : ∃ l, htGetO arg sdk s (cstr k) (strSize k) = some l := by
  rcases h.search ha hk with ⟨-, -, hget⟩ | ⟨e, r, pos, -, -, -, -, -, hget⟩
  · exact ⟨_, hget⟩
  · exact ⟨_, hget⟩

/-- **Which requests violate an assertion.**  As long as no bucket has two keys, a request
keeps to its assertions just when it leaves no bucket with two. -/
theorem Stocked.assertsHold_iff (ha : arg.Valid) (houtside : ∀ s o, outside s o = true)
    (h : Stocked arg sdk R s) (hR : ∀ b, (R b).length ≤ 1) {q : Req} (hq : q.WellFormed arg)
    {out : Outcome} (hout : serve arg sdk s q = some out) :
    assertsHold arg sdk outside s q = some true ↔ ∀ b, (R.step arg q b).length ≤ 1 := by
  have hkey := hq.key_lt
  -- what is left to look at are the assertions in the log
  have hlog : ∀ l, htGetO arg sdk s (cstr q.op.key) (strSize q.op.key) = some l →
      (assertsHold arg sdk outside s q = some true ↔ out.log.any Event.isAssert = false) := by
    intro l hget
    unfold assertsHold
    rw [hget, hout]
    simp [all_htGetAsserts houtside]
  -- a request that cannot insert violates none
  have hkeeps : ∀ {m : Msg}, out.log ⊆ .print m :: checkPrints → q.op.inserts = none →
      (assertsHold arg sdk outside s q = some true ↔ ∀ b, (R.step arg q b).length ≤ 1) := by
    intro m hprints hnone
    obtain ⟨l, hget⟩ := h.exists_htGetO ha hkey
    rw [hlog l hget]
    apply iff_of_true (any_isAssert_of_subset hprints)
    apply forall_length_step_le hR
    intro k' hins
    rw [hnone] at hins
    cases hins
  rw [serve_eq sdk ha hq] at hout
  obtain ⟨op, lower, rand⟩ := q
  cases op with
  | get k => exact hkeeps (getKeyVal_log hout) rfl
  | append k v => exact hkeeps (appendKeyVal_log hout) rfl
  | set k v =>
    obtain ⟨l, prints, hget, hprints, heq⟩ := setKeyVal_log hout
    have hquiet : prints.any Event.isAssert = false :=
      any_isAssert_of_subset (m := .getFailed) (List.subset_cons_of_subset _ hprints)
    rw [hlog l hget, heq, List.any_append, hquiet, Bool.or_false]
    rcases h.search ha hkey with ⟨-, habs, hmiss⟩ | ⟨e, r, pos, -, hmem, -, -, -, hhit⟩
    · -- an insert: the position is the number of entries passed
      obtain rfl := Option.some.inj (hget.symm.trans hmiss)
      rw [forall_length_insert_le_iff (k := k) hR habs]
      dsimp only [Op.key]
      cases (R (htHash arg (cstr k))).length <;> simp [insertAsserts, assertLog, Event.isAssert]
    · -- an update evaluates neither assertion
      obtain rfl := Option.some.inj (hget.symm.trans hhit)
      apply iff_of_true rfl
      apply forall_length_step_le hR
      intro k' hins
      obtain rfl : k = k' := Option.some.inj hins
      exact hmem

end Request

/-! ### Runs -/

section Runs

variable {arg : Arg} {sdk : Sdk} (ha : arg.Valid) {outside : Store → Object → Bool}
  (houtside : ∀ s o, outside s o = true) {qs : List Req} (hqs : ∀ q ∈ qs, q.WellFormed arg)
  {s : Store} {outs : List Outcome}
  (hrun : run (serveStep arg sdk) (enclaveInitValues arg) qs = some (s, outs))

include ha houtside hqs hrun

/-- What the assertions of a request of the run say about the buckets behind it. -/
theorem assertsHold_iff_served {p : List Req} {q : Req} (hp : p ++ [q] <+: qs)
    (hR : ∀ b, (Recs.after arg p b).length ≤ 1) {s₁ : Store} {outs₁ : List Outcome}
    (hrun₁ : run (serveStep arg sdk) (enclaveInitValues arg) p = some (s₁, outs₁)) :
    assertsHold arg sdk outside s₁ q = some true ↔
      ∀ b, (Recs.after arg (p ++ [q]) b).length ≤ 1 := by
  have hstocked : Stocked arg sdk (Recs.after arg p) s₁ := by
    apply stocked_of_run ha _ hrun₁
    intro q' hq'
    exact hqs q' (hp.subset (by simp [hq']))
  obtain ⟨s₂, outs₂, hrun₂⟩ := exists_run_of_prefix hp hrun
  obtain ⟨s₁', outs₁', o, hrun₁', hlast, -⟩ := run_concat_eq_some_iff.mp hrun₂
  obtain ⟨rfl, -⟩ := Prod.mk.inj (Option.some.inj (hrun₁.symm.trans hrun₁'))
  obtain ⟨out, hout, -⟩ := Option.map_eq_some_iff.mp hlast
  rw [Recs.after_concat]
  exact hstocked.assertsHold_iff ha houtside hR (hqs q (hp.subset (by simp))) hout

/-- All requests of a run keep to their assertions just when no bucket gets two keys. -/
theorem forall_assertsHold_iff :
    (∀ p q, p ++ [q] <+: qs → ∀ s₁ outs₁,
        run (serveStep arg sdk) (enclaveInitValues arg) p = some (s₁, outs₁) →
          assertsHold arg sdk outside s₁ q = some true) ↔
      ∀ b, (bucketKeys arg b qs).length ≤ 1 := by
  constructor
  · intro h
    -- the buckets are short behind every request
    have hafter : ∀ p, p <+: qs → ∀ b, (Recs.after arg p b).length ≤ 1 := by
      intro p
      induction p using List.reverseRecOn with
      | nil =>
        intro _ b
        exact Nat.zero_le 1
      | append_singleton p q ih =>
        intro hp
        have hp₁ : p <+: qs := (List.prefix_append _ _).trans hp
        obtain ⟨s₁, outs₁, hrun₁⟩ := exists_run_of_prefix hp₁ hrun
        exact (assertsHold_iff_served ha houtside hqs hrun hp (ih hp₁) hrun₁).mp
          (h p q hp s₁ outs₁ hrun₁)
    intro b
    rw [length_bucketKeys]
    exact hafter qs (List.prefix_refl _) b
  · intro h p q hp s₁ outs₁ hrun₁
    have hshort : ∀ p', p' <+: qs → ∀ b, (Recs.after arg p' b).length ≤ 1 := by
      intro p' hp' b
      exact (length_after_le_bucketKeys hp'.subset b).trans (h b)
    apply (assertsHold_iff_served ha houtside hqs hrun hp _ hrun₁).mpr (hshort _ hp)
    exact hshort p ((List.prefix_append _ _).trans hp)

end Runs

/-- **When the assertions hold.**  For every run on memory that nobody else writes, with an
allocator that returns memory outside of the enclave: every assertion is true wherever it
stands on the way of the run, just when no bucket gets two keys; and it is just then that
the build that evaluates the assertions has the same run. -/
theorem asserts_hold_iff {arg : Arg} (sdk : Sdk) (ha : arg.Valid)
    {outside : Store → Object → Bool} (houtside : ∀ s o, outside s o = true) {qs : List Req}
    (hqs : ∀ q ∈ qs, q.WellFormed arg) {s : Store} {outs : List Outcome}
    (hrun : run (serveStep arg sdk) (enclaveInitValues arg) qs = some (s, outs)) :
    ((∀ p q, p ++ [q] <+: qs → ∀ s₁ outs₁,
        run (serveStep arg sdk) (enclaveInitValues arg) p = some (s₁, outs₁) →
          assertsHold arg sdk outside s₁ q = some true) ↔
      ∀ b, (bucketKeys arg b qs).length ≤ 1) ∧
    (run (debugStep arg sdk outside) (enclaveInitValues arg) qs = some (s, outs) ↔
      ∀ b, (bucketKeys arg b qs).length ≤ 1) := by
  have hiff := forall_assertsHold_iff ha houtside hqs hrun
  refine ⟨hiff, ?_⟩
  rw [run_guard_eq_some_iff debugStep_eq_some_iff, ← hiff]
  exact and_iff_right hrun

/-- One key in one bucket: set, appended to and read. -/
theorem asserts_hold_iff_append :
    ∃ s outs, run (serveStep ⟨1, 32, 1, 1, true, true⟩ Sdk.aes)
        (enclaveInitValues ⟨1, 32, 1, 1, true, true⟩)
        [⟨.set [0x6b] [0x76], false, 1⟩, ⟨.append [0x6b] [0x77], false, 2⟩,
          ⟨.get [0x6b], true, 3⟩] = some (s, outs) ∧
      run (debugStep ⟨1, 32, 1, 1, true, true⟩ Sdk.aes fun _ _ => true)
        (enclaveInitValues ⟨1, 32, 1, 1, true, true⟩)
        [⟨.set [0x6b] [0x76], false, 1⟩, ⟨.append [0x6b] [0x77], false, 2⟩,
          ⟨.get [0x6b], true, 3⟩] = some (s, outs) := by
  obtain ⟨⟨s, outs⟩, hrun⟩ := Option.isSome_iff_exists.mp (show (run
    (serveStep ⟨1, 32, 1, 1, true, true⟩ Sdk.aes) (enclaveInitValues ⟨1, 32, 1, 1, true, true⟩)
    [⟨.set [0x6b] [0x76], false, 1⟩, ⟨.append [0x6b] [0x77], false, 2⟩,
      ⟨.get [0x6b], true, 3⟩]).isSome = true by decide +kernel)
  refine ⟨s, outs, hrun, ?_⟩
  apply (asserts_hold_iff Sdk.aes (by decide) (fun _ _ => rfl) (by decide) hrun).2.mpr
  intro b
  exact length_bucketKeys_le_inserts _ b _

/-- **A second key in a bucket.**  The search for it passes the first one, and
`kv_pos == 0` is false.  The build with `NDEBUG` serves the request; the other one aborts. -/
theorem assert_violated :
    ((run (serveStep ⟨1, 32, 1, 1, false, false⟩ Sdk.aes)
        (enclaveInitValues ⟨1, 32, 1, 1, false, false⟩)
        [⟨.set [0x6b] [0x76], false, 1⟩, ⟨.set [0x6d] [0x77], false, 2⟩]).map fun r =>
      r.2.map Outcome.log) = some [[], [.assertFalse .kvPosZero]] ∧
    run (debugStep ⟨1, 32, 1, 1, false, false⟩ Sdk.aes fun _ _ => true)
      (enclaveInitValues ⟨1, 32, 1, 1, false, false⟩)
      [⟨.set [0x6b] [0x76], false, 1⟩, ⟨.set [0x6d] [0x77], false, 2⟩] = none := by
  decide +kernel

end ShieldStore
