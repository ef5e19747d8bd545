import ShieldStore.Layout
import ShieldStore.Workers

/-!
# Requests out of messages

A message is tokenised twice: by `enclave_message_pass`, which looks at the key to choose
a worker, and by the worker, which reads the command, the key and the value.  Each has a
copy of its own, as tokenising writes to the buffer.  The value is what the tokeniser
leaves behind the key, whatever spaces it has.

## Main definitions

* `Parsed`, `workerParse` — what a worker reads out of a buffer.
* `Parsed.apply` — the operation that is called with it.

## Main results

* `request_of_parse` — a request is the operation on what is parsed.
* `request_round_trip` — what is parsed is what was sent, by both.
* `op_eq_of_buf` — a message determines its request.
-/

namespace ShieldStore

open Bytes Counter CMem

/-! ### Parsing -/

/-- What a worker and the handler it calls read out of a buffer. -/
structure Parsed where
  command : Command
  /-- The buffer after tokenising. -/
  cipher : List UInt8
  key : List UInt8
  keySize : UInt32
  /-- The value and its size; `enclave_get` does not look for one. -/
  val : Option (List UInt8 × UInt32)
  deriving DecidableEq

/-- The command that a worker compares with, and what the handler of the command parses. -/
def workerParse (sdk : Sdk) (cipher : List UInt8) : Option Parsed := do
  let c ← command cipher
  let p ← parseKey sdk cipher
  match c with
  | .get => return ⟨.get, p.cipher, p.key, p.keySize, none⟩
  | .set | .append =>
      let val ← parseVal p.temp
      return ⟨c, p.cipher, p.key, p.keySize, some val⟩
  | .quit | .untyped => none

/-- The operation on what was parsed. -/
def Parsed.apply (arg : Arg) (sdk : Sdk) (s : Store) (rand : Block) (p : Parsed) : Option Outcome :=
  match p.command, p.val with
  | .get, _ => getKeyVal arg sdk s p.cipher p.key p.keySize
  | .set, some (val, valSize) => setKeyVal arg sdk s rand p.key p.keySize val valSize
  | .append, some (val, valSize) => appendKeyVal arg sdk s p.cipher p.key p.keySize val valSize
  | _, _ => none

/-- **A request is the operation on what is parsed out of it.** -/
theorem request_of_parse {sdk : Sdk} {cipher : List UInt8} {p : Parsed}
    (h : workerParse sdk cipher = some p) (arg : Arg) (s : Store) (rand : Block) :
    request arg sdk s rand cipher = (p.apply arg sdk s rand).map some := by
  unfold workerParse at h
  simp only [Option.bind_eq_bind, Option.bind_eq_some_iff] at h
  obtain ⟨c, hc, pk, hkey, h⟩ := h
  unfold request
  rw [hc, Option.bind_eq_bind, Option.bind_some]
  -- each handler parses its message once more, with the same result
  cases c with
  | get =>
    obtain rfl := Option.some.inj h
    have hget : enclaveGet arg sdk s cipher = getKeyVal arg sdk s pk.cipher pk.key pk.keySize := by
      unfold enclaveGet
      rw [hkey]
      rfl
    simp only [hget, Parsed.apply]
    cases getKeyVal arg sdk s pk.cipher pk.key pk.keySize <;> rfl
  | set =>
    obtain ⟨⟨val, valSize⟩, hval, h⟩ := Option.bind_eq_some_iff.mp h
    obtain rfl := Option.some.inj h
    have hset : enclaveSet arg sdk s rand cipher =
        setKeyVal arg sdk s rand pk.key pk.keySize val valSize := by
      unfold enclaveSet
      rw [hkey, Option.bind_eq_bind, Option.bind_some, hval]
      rfl
    simp only [hset, Parsed.apply]
    cases setKeyVal arg sdk s rand pk.key pk.keySize val valSize <;> rfl
  | append =>
    obtain ⟨⟨val, valSize⟩, hval, h⟩ := Option.bind_eq_some_iff.mp h
    obtain rfl := Option.some.inj h
    have happ : enclaveAppend arg sdk s cipher =
        appendKeyVal arg sdk s pk.cipher pk.key pk.keySize val valSize := by
      unfold enclaveAppend
      rw [hkey, Option.bind_eq_bind, Option.bind_some, hval]
      rfl
    simp only [happ, Parsed.apply]
    cases appendKeyVal arg sdk s pk.cipher pk.key pk.keySize val valSize <;> rfl
  | quit => cases h
  | untyped => cases h

/-! ### Round trips -/

/-- The value that a request carries, with its terminator and its size. -/
def Op.sent : Op → Option (List UInt8 × ℕ)
  | .get _ => none
  | .set _ v | .append _ v => some (cstr v, v.length + 1)

section RoundTrip

variable {arg : Arg} (sdk : Sdk) (hbuf : arg.maxBufSize < 2 ^ 32) {q : Req} (hq : q.WellFormed arg)

include hbuf hq

/-- The worker reads the request that was sent. -/
theorem workerParse_buf :
    ∃ p, workerParse sdk (q.buf arg) = some p ∧ p.command = q.op.command ∧
      p.key = cstr q.op.key ∧ p.keySize.toNat = q.op.key.length + 1 ∧
      (p.val.map fun v => (v.1, v.2.toNat)) = q.op.sent := by
  have hkey := hq.key_lt
  have hval := hq.val_lt
  have hkeySize : (strSize q.op.key).toNat = q.op.key.length + 1 := toNat_strSize (by omega)
  have hvalSize : (strSize q.op.val).toNat = q.op.val.length + 1 := toNat_strSize (by omega)
  obtain ⟨temp, hparse, hput⟩ := parseKey_buf sdk hbuf hq
  have hcommand := command_buf hq
  unfold workerParse
  rw [hcommand, hparse]
  obtain ⟨op, lower, rand⟩ := q
  cases op with
  | get k => exact ⟨_, rfl, rfl, rfl, hkeySize, rfl⟩
  | set k v | append k v =>
    -- the value is read behind the key
    have hv := hput (by simp [Op.command])
    simp only [Op.command, Option.bind_eq_bind, Option.bind_some, hv]
    exact ⟨_, rfl, rfl, rfl, hkeySize, congrArg (fun n => some (cstr v, n)) hvalSize⟩

/-- `enclave_message_pass` reads the same key, and pushes the message as it came to the
queue of the worker of the key's bucket. -/
theorem enclaveMessagePass_buf (st : Server) (clientSock : ℤ) (numClients : ℕ) :
    enclaveMessagePass arg sdk st ⟨q.buf arg, clientSock, numClients, q.rand⟩ =
      (bucketThread arg (htHash arg (cstr q.op.key))).bind fun i =>
        st.push i (q.buf arg) clientSock q.rand := by
  rw [← threadId_eq]
  exact enclaveMessagePass_req sdk hbuf hq st clientSock numClients

end RoundTrip

/-- **What is sent is what is parsed.**  For a command in either case, a key that is a word
and a value without terminators that together fit a message: the worker reads the
command, the key and the value with their sizes; and `enclave_message_pass` pushes the
message to the worker that owns the bucket of this key. -/
theorem request_round_trip {arg : Arg} (sdk : Sdk) (hbuf : arg.maxBufSize < 2 ^ 32) {q : Req}
    (hq : q.WellFormed arg) :
    (∃ p, workerParse sdk (q.buf arg) = some p ∧ p.command = q.op.command ∧
      p.key = cstr q.op.key ∧ p.keySize.toNat = q.op.key.length + 1 ∧
      (p.val.map fun v => (v.1, v.2.toNat)) = q.op.sent) ∧
    ∀ (st : Server) (clientSock : ℤ) (numClients : ℕ),
      enclaveMessagePass arg sdk st ⟨q.buf arg, clientSock, numClients, q.rand⟩ =
        (bucketThread arg (htHash arg (cstr q.op.key))).bind fun i =>
          st.push i (q.buf arg) clientSock q.rand :=
  ⟨workerParse_buf sdk hbuf hq, enclaveMessagePass_buf sdk hbuf hq⟩

/-- `set k  v `: a value with a space on either side, for the only worker. -/
theorem request_round_trip_spaces :
    (∃ p, workerParse Sdk.aes (Req.buf ⟨1, 16, 1, 1, false, false⟩
          ⟨.set [0x6b] [0x20, 0x76, 0x20], true, 0⟩) = some p ∧ p.command = .set ∧
        p.key = [0x6b, 0] ∧
        (p.val.map fun v => (v.1, v.2.toNat)) = some ([0x20, 0x76, 0x20, 0], 4)) ∧
      enclaveMessagePass ⟨1, 16, 1, 1, false, false⟩ Sdk.aes (Server.init ⟨1, 16, 1, 1, false, false⟩)
        ⟨Req.buf ⟨1, 16, 1, 1, false, false⟩ ⟨.set [0x6b] [0x20, 0x76, 0x20], true, 0⟩, 4, 1, 0⟩ =
      (Server.init ⟨1, 16, 1, 1, false, false⟩).push 0
        (Req.buf ⟨1, 16, 1, 1, false, false⟩ ⟨.set [0x6b] [0x20, 0x76, 0x20], true, 0⟩) 4 0 := by
  obtain ⟨⟨p, hp, hcommand, hkey, -, hval⟩, hpass⟩ := @request_round_trip
    ⟨1, 16, 1, 1, false, false⟩ Sdk.aes (by decide) ⟨.set [0x6b] [0x20, 0x76, 0x20], true, 0⟩
    (by decide)
  refine ⟨⟨p, hp, hcommand, hkey, hval⟩, ?_⟩
  exact hpass (Server.init ⟨1, 16, 1, 1, false, false⟩) 4 1

/-- A message determines its request. -/
theorem op_eq_of_buf {arg : Arg} (hbuf : arg.maxBufSize < 2 ^ 32) {q q' : Req}
    (hq : q.WellFormed arg) (hq' : q'.WellFormed arg) (h : q.buf arg = q'.buf arg) :
    q.op = q'.op := by
  obtain ⟨p, hp, hcommand, hkey, -, hval⟩ := workerParse_buf Sdk.aes hbuf hq
  obtain ⟨p', hp', hcommand', hkey', -, hval'⟩ := workerParse_buf Sdk.aes hbuf hq'
  -- both are read from one message
  obtain rfl : p = p' := by
    rw [h, hp'] at hp
    exact (Option.some.inj hp).symm
  rw [hcommand] at hcommand'
  have hk : q.op.key = q'.op.key := cstr_inj (hkey.symm.trans hkey')
  rw [hval] at hval'
  obtain ⟨op, lower, rand⟩ := q
  obtain ⟨op', lower', rand'⟩ := q'
  dsimp only at hk hcommand' hval' ⊢
  cases op <;> cases op' <;> simp_all [Op.command, Op.key, Op.sent, cstr]

end ShieldStore
