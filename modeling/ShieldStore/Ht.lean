import ShieldStore.Core

/-!
# The hash table

The functions of `Enclave/ht.cpp`: the two hashes of a key, the search of a
bucket's chain, and the three ways an entry is written.  The search loop is
written once; whether it looks at the key hint is the configuration's choice.

## Main definitions

* `htHash`, `keyHashFunc` — bucket and key hint of a key.
* `htGetO` — search, with the position reached in the chain.
* `htSetO`, `htAppendO` — update, insert and append, with the MAC buffer.
-/

namespace ShieldStore

open Bytes Counter CMem

/-! ### Hashes -/

/-- The hash loop: it stops at the terminator, or early when the value is
`ULONG_MAX`.  The characters are signed. -/
def hashLoop (mul : UInt64) : UInt64 → List UInt8 → UInt64
  | hashval, [] => hashval
  | hashval, c :: key =>
      if hashval < 0xffffffffffffffff ∧ c ≠ 0 then
        hashLoop mul (hashval * mul + UInt64.ofBitVec (c.toBitVec.signExtend 64)) key
      else hashval

/-- `key_hash_func`: the key hint. -/
def keyHashFunc (key : List UInt8) : UInt8 := UInt8.ofNat ((hashLoop 11 7 key).toNat % 256)

/-- `ht_hash`: the bucket. -/
def htHash (arg : Arg) (key : List UInt8) : ℕ := (hashLoop 61 7 key).toNat % arg.bucketSize

/-! ### Search -/

/-- What `ht_get_o` returns and leaves in its arguments. -/
structure Lookup where
  /-- The entry that was found; null when there is none. -/
  pair : Option Entry
  /-- `plain_key_val`: null, or the plaintext of the entry. -/
  plainKeyVal : Option (List UInt8)
  /-- `kv_pos`: the position of the entry, or the length of the chain. -/
  kvPos : ℕ
  /-- `updated_nac`: the counter after the entry's ciphertext. -/
  updatedNac : Block
  deriving DecidableEq

/-- An entry worth decrypting: the sizes of the keys agree, and the key hints do
when they are looked at. -/
def candidate (arg : Arg) (keySize : UInt32) (keyHash : UInt8) (pair : Entry) : Bool :=
  pair.keySize = keySize ∧ (arg.keyOpt = false ∨ keyHash = pair.keyHash)

/-- The loop of `ht_get_o` from an entry on. -/
def htGetLoop (arg : Arg) (sdk : Sdk) (key : List UInt8) (keySize : UInt32) (keyHash : UInt8) :
    List Entry → Option (List UInt8) → ℕ → Option Lookup
  | [], plainKeyVal, kvPos => some ⟨none, plainKeyVal, kvPos, 0⟩
  | pair :: next, plainKeyVal, kvPos =>
      match pair.keyVal, candidate arg keySize keyHash pair with
      | some keyVal, true =>
          (decryptKeyValAndCompare sdk key keyVal pair.keySize pair.valSize pair.nac).bind
            fun
            | some (plain, nac) => some ⟨some pair, some plain, kvPos, nac⟩
            | none => htGetLoop arg sdk key keySize keyHash next none (kvPos + 1)
      | _, _ => htGetLoop arg sdk key keySize keyHash next plainKeyVal (kvPos + 1)

/-- `ht_get_o`, with `plain_key_val` null before the call. -/
def htGetO (arg : Arg) (sdk : Sdk) (s : Store) (key : List UInt8) (keySize : UInt32) :
    Option Lookup := do
  let bin := htHash arg key
  let keyHash := if arg.keyOpt then keyHashFunc key else 0
  let chain ← s.table[bin]?
  htGetLoop arg sdk key keySize keyHash chain none 0

/-! ### Writing -/

/-- `ocall_tc_realloc(p, n)`: the cells that fit stay; a null pointer is a fresh
object. -/
def ocallTcRealloc (p : Option (List UInt8)) (n : ℕ) : List UInt8 :=
  (p.getD []).take n ++ malloc (n - (p.getD []).length)

/-- The fields an update writes.  The buffer is reallocated when `realloc` says so
and written in place otherwise; the key's size and hint stay. -/
def overwrite (updatedEntry : Entry) (realloc : Bool) (keyVal : List UInt8) (nac mac : Block)
    (keyLen valLen : UInt32) : Option Entry := do
  let buf ←
    if realloc then pure (ocallTcRealloc updatedEntry.keyVal (keyLen + valLen).toNat)
    else updatedEntry.keyVal
  let buf ← memcpy buf 0 keyVal (keyLen + valLen).toNat
  return { updatedEntry with keyVal := some buf, nac := nac, mac := mac, valSize := valLen }

/-- A bucket's MAC buffer with `mac` copied to slot `pos`. -/
def MacEntry.write (e : MacEntry) (pos : ℤ) (mac : Block) : Option MacEntry := do
  let slot ← sizeT pos
  if slot < macSlots then return { e with mac := e.mac.setIfInBounds slot mac } else none

/-- `ht_newpair`. -/
def htNewpair (keySize valSize : UInt32) (keyHash : UInt8) (keyVal : List UInt8)
    (nac mac : Block) : Option Entry := do
  let buf ← memcpy (malloc (keySize + valSize).toNat) 0 keyVal (keySize + valSize).toNat
  return { keySize, valSize, keyHash, keyVal := some buf, nac, mac }

/-- `ht_set_o`: the entry at `kvPos` is updated when there is one, and a new entry
is put at the head of the chain when there is none. -/
def htSetO (arg : Arg) (s : Store) (updatedEntry : Option Entry) (key keyVal : List UInt8)
    (nac mac : Block) (keyLen valLen : UInt32) (kvPos : ℕ) : Option Store := do
  let bin := htHash arg key
  let chain ← s.table[bin]?
  match updatedEntry with
  | some entry =>
      let entry ← overwrite entry (entry.valSize != valLen) keyVal nac mac keyLen valLen
      let s := { s with table := s.table.set bin (chain.set kvPos entry) }
      if arg.macOpt then
        let e ← s.macbuf[bin]?
        -- the order of the MAC bucket is reversed to the hash chain order
        let e ← e.write (e.size - kvPos - 1) mac
        return { s with macbuf := s.macbuf.set bin e }
      else return s
  | none =>
      let newpair ← htNewpair keyLen valLen (keyHashFunc key) keyVal nac mac
      let s := { s with table := s.table.set bin (newpair :: chain) }
      if arg.macOpt then
        let e ← s.macbuf[bin]?
        let e ← { e with size := e.size + 1 }.write kvPos mac
        return { s with macbuf := s.macbuf.set bin e }
      else return s

/-- `ht_append_o`: the buffer is always reallocated, and the MAC goes to slot
`kvPos` of the bucket's MAC buffer. -/
def htAppendO (arg : Arg) (s : Store) (updatedEntry : Option Entry) (key keyVal : List UInt8)
    (nac mac : Block) (keyLen valLen : UInt32) (kvPos : ℕ) : Option (Store × List Event) := do
  let bin := htHash arg key
  let chain ← s.table[bin]?
  match updatedEntry with
  | some entry =>
      let entry ← overwrite entry true keyVal nac mac keyLen valLen
      let s := { s with table := s.table.set bin (chain.set kvPos entry) }
      if arg.macOpt then
        let e ← s.macbuf[bin]?
        let e ← e.write kvPos mac
        return ({ s with macbuf := s.macbuf.set bin e }, [])
      else return (s, [])
  | none => return (s, [.print .noDataInDatabase])

end ShieldStore
