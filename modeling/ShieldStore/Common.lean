import ShieldStore.Lib.CMem
import ShieldStore.Lib.Aes

/-!
# The data of the store

The configuration, the hash table with its entries and the MAC buffer live in
memory that the host can write (`Common/common.h`); the root array `MACTable`
lives in the enclave (`Enclave/Enclave.h`).  Both are fields of `Store`: a step
of the host rewrites the first two and never the third.

A chain of entries linked by their `next` pointers is the list of its entries,
head first; a pointer to an entry is its bucket and its position in the chain.
A `none` result of a modelled function is an access outside an object (see
`ShieldStore.Lib.CMem`).

## Main definitions

* `Arg` — the server's configuration; `Arg.Valid` — the geometry it needs.
* `Entry`, `MacEntry`, `Store` — the data structures.
* `Sdk` — the functions of the SGX SDK and of its C library that the enclave
  calls, with what the SDK documents about them.
* `Event` — what a run leaves in the log: the texts printed, and the assertions
  that a build with `NDEBUG` does not evaluate.
-/

namespace ShieldStore

open Bytes Counter CMem

/-- `MAC_SIZE`, in bytes. -/
def macSize : ℕ := 16

/-- `NAC_SIZE`, in bytes. -/
def nacSize : ℕ := 16

/-- The MACs a bucket's MAC buffer has room for. -/
def macSlots : ℕ := 30

/-! ### Configuration -/

/-- `struct argument`, without the port. -/
structure Arg where
  numThreads : ℕ
  maxBufSize : ℕ
  bucketSize : ℕ
  treeRootSize : ℕ
  keyOpt : Bool
  macOpt : Bool
  deriving DecidableEq, Repr

/-- `ratio_root_per_buckets`: how many buckets share one root. -/
def Arg.ratio (arg : Arg) : ℕ := arg.bucketSize / arg.treeRootSize

/-- A configuration the server can run with: every root stands for the same
number of buckets, and an entry made of a key and a value that each fit a message
has a size that `sgx_aes_ctr_encrypt` and a 32-bit length accept. -/
structure Arg.Valid (arg : Arg) : Prop where
  root_pos : 0 < arg.treeRootSize
  bucket_pos : 0 < arg.bucketSize
  root_dvd : arg.treeRootSize ∣ arg.bucketSize
  buf_lt : 2 * arg.maxBufSize + 20 < 2 ^ 32

instance (arg : Arg) : Decidable arg.Valid :=
  decidable_of_iff (0 < arg.treeRootSize ∧ 0 < arg.bucketSize ∧
      arg.treeRootSize ∣ arg.bucketSize ∧ 2 * arg.maxBufSize + 20 < 2 ^ 32)
    ⟨fun ⟨h₁, h₂, h₃, h₄⟩ => ⟨h₁, h₂, h₃, h₄⟩,
      fun h => ⟨h.root_pos, h.bucket_pos, h.root_dvd, h.buf_lt⟩⟩

theorem Arg.Valid.buf_lt_pow {arg : Arg} (ha : arg.Valid) : arg.maxBufSize < 2 ^ 32 := by
  have := ha.buf_lt
  omega

/-! ### The table -/

/-- `struct entry`, without `next`.  `keyVal` is null or the ciphertext of key and
value, each with its terminator. -/
structure Entry where
  keySize : UInt32
  valSize : UInt32
  keyHash : UInt8
  keyVal : Option (List UInt8)
  nac : Block
  mac : Block
  deriving DecidableEq

/-- `struct mac_entry`: the number of MACs of a bucket, and room for them. -/
structure MacEntry where
  size : ℤ
  mac : Vector Block 30
  deriving DecidableEq

/-- The store: the chain of every bucket, the MAC buffer of every bucket, and the
roots. -/
structure Store where
  table : List (List Entry)
  macbuf : List MacEntry
  macTable : List Block
  deriving DecidableEq

/-! ### What the enclave calls -/

/-- The functions of the SGX SDK and its C library that the enclave calls.  All
calls succeed.  Counter mode keeps the length, is undone by decrypting from the
same counter block, and leaves in the counter the block after the last one used,
of which only the low `ctr_inc_bits` bits were stepped. -/
structure Sdk where
  rijndael128CmacMsg : List UInt8 → List UInt8 → Block
  aesCtrEncrypt : List UInt8 → List UInt8 → Block → ℕ → List UInt8 × Block
  aesCtrDecrypt : List UInt8 → List UInt8 → Block → ℕ → List UInt8 × Block
  saveAtEnd : SaveAtEnd
  length_encrypt : ∀ key src ctr bits, (aesCtrEncrypt key src ctr bits).1.length = src.length
  length_decrypt : ∀ key src ctr bits, (aesCtrDecrypt key src ctr bits).1.length = src.length
  decrypt_encrypt : ∀ key src ctr bits,
    (aesCtrDecrypt key (aesCtrEncrypt key src ctr bits).1 ctr bits).1 = src
  decrypt_ctr : ∀ key src ctr bits,
    (aesCtrDecrypt key src ctr bits).2 = ctrAdd bits (numBlocks src.length) ctr

attribute [simp] Sdk.length_encrypt Sdk.length_decrypt

/-- The SDK with AES-128 as its block cipher. -/
def Sdk.aes : Sdk where
  rijndael128CmacMsg := Aes.cmac
  aesCtrEncrypt := Aes.ctrCrypt
  aesCtrDecrypt := Aes.ctrCrypt
  saveAtEnd := .null
  length_encrypt := Aes.length_ctrCrypt
  length_decrypt := Aes.length_ctrCrypt
  decrypt_encrypt := Aes.ctrCrypt_ctrCrypt
  decrypt_ctr := fun _ _ _ _ => rfl

/-- `sgx_status_t`, as far as the enclave tells its values apart. -/
inductive SgxStatus
  | success
  | errorUnexpected
  deriving DecidableEq, Repr

/-! ### The log -/

/-- The texts the enclave hands to `print`. -/
inductive Msg
  /-- "MAC matching failed". -/
  | macMatchingFailed
  /-- "MAC verification failed". -/
  | macVerificationFailed
  /-- "Previous MAC compare failed". -/
  | previousMacCompareFailed
  /-- "Tree verification failed". -/
  | treeVerificationFailed
  /-- "GET FAILED: No data in database". -/
  | getFailed
  /-- "There's no data in the database", from `enclave_append`. -/
  | noDataToAppend
  /-- "There's no data in database", from `ht_append_o`. -/
  | noDataInDatabase
  /-- "Untyped request". -/
  | untypedRequest
  /-- "All threads are finished". -/
  | allThreadsFinished
  /-- "Load process is done". -/
  | loadProcessDone
  deriving DecidableEq, Repr

/-- A text that reports a failed integrity check. -/
def Msg.isFailure : Msg → Bool
  | .macMatchingFailed | .macVerificationFailed => true
  | .previousMacCompareFailed | .treeVerificationFailed => true
  | _ => false

/-- The assertions that a request can reach. -/
inductive Assertion
  /-- `assert(plain_key_val == NULL)` in `enclave_set`. -/
  | plainKeyValNull
  /-- `assert(kv_pos == 0)` in `enclave_rebuild_tree_root`. -/
  | kvPosZero
  deriving DecidableEq, Repr

/-- One line of the log. -/
inductive Event
  | print (m : Msg)
  /-- The assertion is false here.  The enclave is built with `NDEBUG`, so that
  the run goes on. -/
  | assertFalse (a : Assertion)
  deriving DecidableEq, Repr

/-- `assert(p)` in a build that does not evaluate it. -/
def assertLog (a : Assertion) (p : Bool) : List Event := if p then [] else [.assertFalse a]

/-- A line that reports a failed integrity check. -/
def Event.isFailure : Event → Bool
  | .print m => m.isFailure
  | .assertFalse _ => false

/-- No failed integrity check is reported. -/
def Clean (log : List Event) : Prop := ∀ e ∈ log, e.isFailure = false

instance : DecidablePred Clean := fun log => inferInstanceAs (Decidable (∀ e ∈ log, _))

@[simp] theorem clean_nil : Clean [] := by simp [Clean]

@[simp] theorem clean_append {l₁ l₂ : List Event} : Clean (l₁ ++ l₂) ↔ Clean l₁ ∧ Clean l₂ := by
  simp only [Clean, List.mem_append]
  constructor
  · intro h; exact ⟨fun e he => h e (Or.inl he), fun e he => h e (Or.inr he)⟩
  · rintro ⟨h₁, h₂⟩ e (he | he)
    · exact h₁ e he
    · exact h₂ e he

@[simp] theorem clean_assertLog (a : Assertion) (p : Bool) : Clean (assertLog a p) := by
  cases p <;> simp [assertLog, Clean, Event.isFailure]

end ShieldStore
