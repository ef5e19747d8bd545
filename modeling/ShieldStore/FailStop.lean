import ShieldStore.Tamper

/-!
# Failed checks

Each of the three operations checks the MAC of the entry it has found and the root of
its group, and prints what fails.  Nothing else depends on the result but the new
root: the value is replied, and the entry written, as if the checks had succeeded.  So
a request on memory that fails a check stops without an effect only if it finds
nothing to check, and is not an insert.

## Main definitions

* `Mismatch` — a check that the memory does not pass.
* `Stopped` — a request without an effect and without a reply.

## Main results

* `stopped_iff` — which requests stop, whatever the checks say.
* `fail_stop_iff` — which failed checks stop a request.
* `reply_of_mismatch` — a value the host has changed is replied.
-/

namespace ShieldStore

open Bytes Counter CMem Run

/-! ### Checks -/

/-- The entry that is found for a key does not have the MAC of its fields. -/
def EntryMismatch (arg : Arg) (sdk : Sdk) (s : Store) (k : List UInt8) : Prop :=
  ∃ l e msg, htGetO arg sdk s (cstr k) (strSize k) = some l ∧ l.pair = some e ∧
    e.message? = some msg ∧ sdk.tag msg ≠ e.mac

/-- The MACs of the group of a bucket do not have its root.  An empty group whose root
was never set is as it should be. -/
def RootMismatch (arg : Arg) (sdk : Sdk) (s : Store) (b : ℕ) : Prop :=
  rootTag sdk (groupMacs arg s b) ≠ s.root (rootIndex arg b) ∧
    ¬ (groupMacs arg s b = [] ∧ s.root (rootIndex arg b) = 0)

instance (arg : Arg) (sdk : Sdk) (s : Store) (b : ℕ) : Decidable (RootMismatch arg sdk s b) :=
  inferInstanceAs (Decidable (_ ∧ _))

/-- The memory does not pass a check for a key. -/
def Mismatch (arg : Arg) (sdk : Sdk) (s : Store) (k : List UInt8) : Prop :=
  EntryMismatch arg sdk s k ∨ RootMismatch arg sdk s (htHash arg (cstr k))

/-! ### Replies -/

/-- The reply of an operation that succeeds: the value of the entry that is found, or
the key. -/
def successReply (arg : Arg) (l : Lookup) : Op → Option (List UInt8)
  | .get _ => do
      let e ← l.pair
      let plain ← l.plainKeyVal
      replyBuf arg (plain.drop e.keySize.toNat) e.valSize.toNat
  | .set k _ | .append k _ => some (padded arg k)

/-- The request changes nothing, and does not reply as if it had succeeded. -/
def Stopped (arg : Arg) (sdk : Sdk) (s : Store) (q : Req) : Prop :=
  ∃ l out, htGetO arg sdk s (cstr q.op.key) (strSize q.op.key) = some l ∧
    serve arg sdk s q = some out ∧ out.store = s ∧ successReply arg l q.op ≠ some out.cipher

section Replies

variable {arg : Arg} {sdk : Sdk} {s : Store} (ha : arg.Valid) {k : List UInt8}
  (hk : k.length + 1 ≤ arg.maxBufSize) {val : List UInt8} {valSize : UInt32} {out : Outcome}

include ha hk

/-- A `SET` replies with the key. -/
theorem cipher_of_setKeyVal {rand : Block}
    (h : setKeyVal arg sdk s rand (cstr k) (strSize k) val valSize = some out) :
    out.cipher = padded arg k := by
  unfold setKeyVal at h
  obtain ⟨l, -, h⟩ := Option.bind_eq_some_iff.mp h
  cases hpair : l.pair with
  | none =>
    simp only [hpair, Option.bind_eq_bind, Option.bind_eq_some_iff, replyBuf_cstr ha hk,
      Option.pure_def, Option.some.injEq] at h
    obtain ⟨log, -, kv₁, -, kv₂, -, enc, -, s₁, -, r, -, cipher, rfl, rfl⟩ := h
    rfl
  | some e =>
    simp only [hpair, Option.bind_eq_bind, Option.bind_eq_some_iff, replyBuf_cstr ha hk,
      Option.pure_def, Option.some.injEq] at h
    obtain ⟨log, -, kv₁, -, kv₂, -, enc, -, s₁, -, r, -, cipher, rfl, rfl⟩ := h
    rfl

/-- An `APP` that finds the key replies with it. -/
theorem cipher_of_appendKeyVal {cipher : List UInt8}
    (h : appendKeyVal arg sdk s cipher (cstr k) (strSize k) val valSize = some out) {l : Lookup}
    (hget : htGetO arg sdk s (cstr k) (strSize k) = some l) {e : Entry} (hpair : l.pair = some e) :
    out.cipher = padded arg k := by
  unfold appendKeyVal at h
  simp only [hget, hpair, Option.bind_eq_bind, Option.bind_some, Option.bind_eq_some_iff,
    replyBuf_cstr ha hk, Option.pure_def, Option.some.injEq] at h
  obtain ⟨log, -, plain, -, kv₁, -, kv₂, -, enc, -, r₁, -, r₂, -, rfl⟩ := h
  rfl

end Replies

/-- The message of an `APP` is not the reply to it: it has a space behind its command,
where a key has none. -/
theorem cut_append_ne_padded {arg : Arg} {k w : List UInt8} {lower : Bool} {rand : Block}
    (hq : Req.WellFormed arg ⟨.append k w, lower, rand⟩) :
    Req.cut arg ⟨.append k w, lower, rand⟩ ≠ padded arg k := by
  intro heq
  -- `APP` and `app` are three letters, and the space stays when the key is cut out
  have hcut : (Req.cut arg ⟨.append k w, lower, rand⟩)[3]? = some 0x20 := by
    unfold Req.cut
    cases lower <;> rfl
  rw [heq, padded, List.getElem?_append] at hcut
  split at hcut
  · exact hq.word.delim_notMem (List.mem_of_getElem? hcut)
  · rw [List.getElem?_replicate] at hcut
    split at hcut <;> simp at hcut

/-! ### Stopping -/

section Stopping

variable {arg : Arg} (sdk : Sdk) (ha : arg.Valid) (s : Store) {q : Req} (hq : q.WellFormed arg)

include ha hq

/-- A request that finds an entry, and every `SET`, replies as if it had succeeded. -/
theorem successReply_eq {l : Lookup}
    (hget : htGetO arg sdk s (cstr q.op.key) (strSize q.op.key) = some l) {out : Outcome}
    (hout : serve arg sdk s q = some out) (h : l.pair ≠ none ∨ q.op.inserts ≠ none) :
    successReply arg l q.op = some out.cipher := by
  rw [serve_eq sdk ha hq] at hout
  have hk := hq.key_lt
  obtain ⟨op, lower, rand⟩ := q
  cases op with
  | set k v =>
    rw [cipher_of_setKeyVal ha (by simp only [Op.key] at hk; omega) hout]
    rfl
  | get k =>
    obtain ⟨e, hpair⟩ := Option.ne_none_iff_exists'.mp (h.resolve_right (by simp [Op.inserts]))
    obtain ⟨log, ret, plain, reply, -, -, hplain, hreply, rfl⟩ := getKeyVal_eq_some hout hget hpair
    simp [successReply, hpair, hplain, hreply]
  | append k w =>
    obtain ⟨e, hpair⟩ := Option.ne_none_iff_exists'.mp (h.resolve_right (by simp [Op.inserts]))
    rw [cipher_of_appendKeyVal ha (by simp only [Op.key] at hk; omega) hout hget hpair]
    rfl

/-- **Which requests stop**, whatever the checks say: those that miss and do not
insert. -/
theorem stopped_iff :
    Stopped arg sdk s q ↔ missed arg sdk s q.op.key = true ∧ q.op.inserts = none := by
  constructor
  · rintro ⟨l, out, hget, hout, -, hreply⟩
    have hstop : ¬ (l.pair ≠ none ∨ q.op.inserts ≠ none) := fun h =>
      hreply (successReply_eq sdk ha s hq hget hout h)
    rw [not_or, not_not, not_not] at hstop
    exact ⟨by simp [missed, hget, hstop.1], hstop.2⟩
  · rintro ⟨hmissed, hinserts⟩
    obtain ⟨l, hget, hpair⟩ := (Option.any_eq_true _ _).mp hmissed
    obtain ⟨pair, plain, pos, nac⟩ := l
    obtain rfl : pair = none := Option.isNone_iff_eq_none.mp hpair
    unfold Stopped
    rw [serve_eq sdk ha hq]
    obtain ⟨op, lower, rand⟩ := q
    -- a `GET` or an `APP`, which find nothing
    cases op with
    | set k v => cases hinserts
    | get k =>
      exact ⟨_, _, hget, getKeyVal_miss hget _, rfl, by simp [successReply]⟩
    | append k w =>
      refine ⟨_, _, hget, appendKeyVal_miss hget _ _ _, rfl, ?_⟩
      exact fun heq => cut_append_ne_padded hq (Option.some.inj heq).symm

/-- **Which failed checks stop a request.**  A check that fails leaves the store as it
is, and keeps back the reply, exactly for the requests that miss and do not insert. -/
theorem fail_stop_iff :
    (Mismatch arg sdk s q.op.key → Stopped arg sdk s q) ↔
      (Mismatch arg sdk s q.op.key → missed arg sdk s q.op.key = true ∧ q.op.inserts = none) :=
  imp_congr_right fun _ => stopped_iff sdk ha s hq

end Stopping

/-- The host has emptied a group, and a `GET` finds nothing. -/
theorem fail_stop_iff_emptied :
    Mismatch ⟨1, 32, 1, 1, false, false⟩ Sdk.aes ⟨[[]], [⟨0, Vector.replicate 30 0⟩], [1]⟩ [0x6b] ∧
    Stopped ⟨1, 32, 1, 1, false, false⟩ Sdk.aes ⟨[[]], [⟨0, Vector.replicate 30 0⟩], [1]⟩
      ⟨.get [0x6b], false, 0⟩ := by
  have hmismatch : Mismatch ⟨1, 32, 1, 1, false, false⟩ Sdk.aes
      ⟨[[]], [⟨0, Vector.replicate 30 0⟩], [1]⟩ [0x6b] := Or.inr (by decide +kernel)
  exact ⟨hmismatch, (@fail_stop_iff ⟨1, 32, 1, 1, false, false⟩ Sdk.aes (by decide)
    ⟨[[]], [⟨0, Vector.replicate 30 0⟩], [1]⟩ ⟨.get [0x6b], false, 0⟩ (by decide)).mpr
      (fun _ => ⟨by decide +kernel, rfl⟩) hmismatch⟩

/-- **A value the host has changed is replied.**  The host flips a bit of the value of a
key.  The `GET` prints that the MAC does not match, and replies with the flipped value;
the `SET` prints the same, replies with the key and replaces the entry. -/
theorem reply_of_mismatch :
    ((run (serveStep ⟨1, 32, 1, 1, false, false⟩ Sdk.aes)
      (enclaveInitValues ⟨1, 32, 1, 1, false, false⟩) [⟨.set [0x6b] [0x76], false, 1⟩]).bind fun r =>
      (serve ⟨1, 32, 1, 1, false, false⟩ Sdk.aes
        { r.1 with table := [[{ Rec.entry Sdk.aes ⟨[0x6b], [0x76], 1⟩ with
          keyVal := some ((Rec.cipher Sdk.aes ⟨[0x6b], [0x76], 1⟩).modify 2 (· ^^^ 1)) }]] }
        ⟨.get [0x6b], false, 0⟩).map fun out => (out.cipher, out.log)) =
      some (padded ⟨1, 32, 1, 1, false, false⟩ [0x77], [.print .macMatchingFailed]) ∧
    ((run (serveStep ⟨1, 32, 1, 1, false, false⟩ Sdk.aes)
      (enclaveInitValues ⟨1, 32, 1, 1, false, false⟩) [⟨.set [0x6b] [0x76], false, 1⟩]).bind fun r =>
      (serve ⟨1, 32, 1, 1, false, false⟩ Sdk.aes
        { r.1 with table := [[{ Rec.entry Sdk.aes ⟨[0x6b], [0x76], 1⟩ with
          keyVal := some ((Rec.cipher Sdk.aes ⟨[0x6b], [0x76], 1⟩).modify 2 (· ^^^ 1)) }]] }
        ⟨.set [0x6b] [0x78], false, 0⟩).map fun out => (out.cipher, out.log, out.store.table)) =
      some (padded ⟨1, 32, 1, 1, false, false⟩ [0x6b], [.print .macMatchingFailed],
        [[Rec.entry Sdk.aes ⟨[0x6b], [0x78], 2⟩]]) := by
  decide +kernel

end ShieldStore
