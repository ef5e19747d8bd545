import ShieldStore.Common

/-!
# Encryption, entry MACs and group roots

The functions of `Enclave/core.cpp`.  Lengths are computed as the source computes
them: a sum of two `uint32_t` wraps, while the same sum added to a pointer does
not.  The three functions that build the message of an entry's MAC are written
with one definition, `macMessage`.

## Main definitions

* `decryptKeyValAndCompare` — decrypt an entry and compare its key.
* `enclaveEncrypt`, `enclaveVerification`, `enclaveDecrypt` — entry ciphertext and
  entry MAC.
* `getChainMac`, `enclaveVerifyTreeRoot`, `enclaveRebuildTreeRoot` — the MACs of a
  group of buckets and its root.
-/

namespace ShieldStore

open Bytes Counter CMem

/-- The global symmetric key. -/
def gsk : List UInt8 :=
  [0x72, 0x12, 0x8a, 0x7a, 0x17, 0x52, 0x6e, 0xbf, 0x85, 0xd0, 0x3a, 0x62, 0x37, 0x30, 0xae, 0xad]

/-- `sgx_rijndael128_cmac_msg` under `gsk`: its status and the tag. -/
def sgxRijndael128CmacMsg (sdk : Sdk) (src : List UInt8) : SgxStatus × Block :=
  (.success, sdk.rijndael128CmacMsg gsk src)

/-! ### Entries -/

/-- `decrypt_key_val_and_compare`: the plaintext of the entry and the counter
after it when the entry's key is `key`, null when it is not. -/
def decryptKeyValAndCompare (sdk : Sdk) (key cipher : List UInt8) (keyLen valLen : UInt32)
    (nac : Block) : Option (Option (List UInt8 × Block)) := do
  let src ← load cipher (keyLen + valLen).toNat
  -- the length of the key as a pointer offset: `temp_plain` may be shorter
  let (tempPlain, tempNac) := sdk.aesCtrDecrypt gsk src nac nacSize
  if ← memcmp tempPlain key keyLen.toNat then
    return some (tempPlain, tempNac)
  else
    return none

/-- The message of an entry's MAC, laid out in `temp_all`: ciphertext, counter,
key hint and the two sizes. -/
def macMessage (cipher : List UInt8) (keyIdx : UInt8) (keyLen valLen : UInt32) (nac : Block) :
    Option (List UInt8) := do
  let tempAll := malloc ((keyLen + valLen + 16 + 1).toNat + 4 * 2)
  let tempAll ← memcpy tempAll 0 cipher (keyLen + valLen).toNat
  let tempAll ← memcpy tempAll (keyLen.toNat + valLen.toNat) (blockBytes nac) nacSize
  let tempAll ← memcpy tempAll (keyLen.toNat + valLen.toNat + nacSize) [keyIdx] 1
  let tempAll ← memcpy tempAll (keyLen.toNat + valLen.toNat + nacSize + 1)
    (leBytes 4 keyLen.toNat) 4
  let tempAll ← memcpy tempAll (keyLen.toNat + valLen.toNat + nacSize + 1 + 4)
    (leBytes 4 valLen.toNat) 4
  -- `src_len` is a `uint32_t`
  load tempAll (((keyLen + valLen + 16).toNat + 1 + 4 * 2) % 2 ^ 32)

/-- `enclave_encrypt`: the ciphertext, written over the plaintext, and the MAC. -/
def enclaveEncrypt (sdk : Sdk) (keyVal : List UInt8) (keyIdx : UInt8) (keyLen valLen : UInt32)
    (nac : Block) : Option (List UInt8 × Block) := do
  let src ← load keyVal (keyLen + valLen).toNat
  let (tempCipher, _) := sdk.aesCtrEncrypt gsk src nac nacSize
  let cipher ← memcpy keyVal 0 tempCipher (keyLen + valLen).toNat
  let msg ← macMessage cipher keyIdx keyLen valLen nac
  let (_, tempMac) := sgxRijndael128CmacMsg sdk msg
  return (cipher, tempMac)

/-- `enclave_verification`.  The status handed back is the one of the SDK call; a
MAC that differs is only printed. -/
def enclaveVerification (sdk : Sdk) (cipher : List UInt8) (keyIdx : UInt8) (keyLen valLen : UInt32)
    (nac mac : Block) : Option (SgxStatus × List Event) := do
  let msg ← macMessage cipher keyIdx keyLen valLen nac
  let (ret, tempMac) := sgxRijndael128CmacMsg sdk msg
  return (ret, if tempMac = mac then [] else [.print .macMatchingFailed])

/-- `enclave_decrypt`: the plaintext when the MAC is right; the plain buffer is
left alone when it is not. -/
def enclaveDecrypt (sdk : Sdk) (cipher : List UInt8) (keyIdx : UInt8) (keyLen valLen : UInt32)
    (nac mac : Block) : Option (Option (List UInt8) × List Event) := do
  let msg ← macMessage cipher keyIdx keyLen valLen nac
  let (_, tempMac) := sgxRijndael128CmacMsg sdk msg
  if tempMac = mac then
    let src ← load cipher (keyLen + valLen).toNat
    return (some (sdk.aesCtrDecrypt gsk src nac nacSize).1, [])
  else
    return (none, [.print .macMatchingFailed])

/-! ### Groups of buckets -/

/-- The slot of `MACTable` for a bucket. -/
def rootIndex (arg : Arg) (hashVal : ℕ) : ℕ := hashVal / arg.ratio

/-- `start_index`: the first bucket of the group. -/
def startIndex (arg : Arg) (hashVal : ℕ) : ℕ := hashVal / arg.ratio * arg.ratio

/-- The buckets from `start_index` to `start_index + ratio_root_per_buckets - 1`. -/
def groupRange (arg : Arg) (hashVal : ℕ) : List ℕ := List.range' (startIndex arg hashVal) arg.ratio

/-- The chains of the group. -/
def groupChains (arg : Arg) (s : Store) (hashVal : ℕ) : Option (List (List Entry)) :=
  (groupRange arg hashVal).mapM fun index => s.table[index]?

/-- The MAC buffers of the group. -/
def groupMacBufs (arg : Arg) (s : Store) (hashVal : ℕ) : Option (List MacEntry) :=
  (groupRange arg hashVal).mapM fun index => s.macbuf[index]?

/-- One bucket's MACs copied behind the ones already in `aggregate_mac`. -/
def copyMacs (acc : List Block × ℕ) (e : MacEntry) : Option (List Block × ℕ) := do
  let n ← sizeT e.size
  let aggregateMac ← memcpy acc.1 acc.2 e.mac.toList n
  return (aggregateMac, acc.2 + n)

/-- `aggregate_mac` from the MAC buffers, in cells of `MAC_SIZE` bytes. -/
def aggregateMacBufs (es : List MacEntry) : Option (List Block) := do
  let count ← sizeT (es.map (·.size)).sum
  let (aggregateMac, _) ← es.foldlM copyMacs (malloc count, 0)
  return aggregateMac

/-- `aggregate_mac` from the chains, in cells of `MAC_SIZE` bytes. -/
def aggregateChains (chains : List (List Entry)) : List Block := chains.flatten.map (·.mac)

/-- `aggregate_mac` of a group in the mode that is configured. -/
def aggregateMac (arg : Arg) (s : Store) (hashVal : ℕ) : Option (List Block) :=
  if arg.macOpt then (groupMacBufs arg s hashVal).bind aggregateMacBufs
  else (groupChains arg s hashVal).map aggregateChains

/-- The CMAC of a list of MACs. -/
def aggregateTag (sdk : Sdk) (aggregateMac : List Block) : SgxStatus × Block :=
  sgxRijndael128CmacMsg sdk (aggregateMac.flatMap blockBytes)

/-- `get_chain_mac`. -/
def getChainMac (arg : Arg) (sdk : Sdk) (s : Store) (hashVal : ℕ) : Option Block := do
  let agg ← aggregateMac arg s hashVal
  return (aggregateTag sdk agg).2

/-- `enclave_verify_tree_root`. -/
def enclaveVerifyTreeRoot (arg : Arg) (sdk : Sdk) (s : Store) (hashVal : ℕ) : Option SgxStatus := do
  let curMac ← getChainMac arg sdk s hashVal
  let root ← s.macTable[rootIndex arg hashVal]?
  return if curMac = root then .success else .errorUnexpected

/-- `updated_idx`: where the MAC of the written entry stands in `aggregate_mac`. -/
def updatedIdx (arg : Arg) (s : Store) (hashVal kvPos : ℕ) (isInsert : Bool) : Option ℤ := do
  let before := hashVal - startIndex arg hashVal
  if arg.macOpt then
    let es ← groupMacBufs arg s hashVal
    let cur ← es[before]?
    let prevMacCount := ((es.take before).map (·.size)).sum
    -- the location of a MAC is the reverse order over the location of the key and value
    if isInsert then return prevMacCount + kvPos
    else return prevMacCount + (cur.size - kvPos - 1)
  else
    let chains ← groupChains arg s hashVal
    let cur ← chains[before]?
    let prevMacCount : ℤ := ((chains.take before).map (·.length)).sum
    let curMacCount : ℤ := cur.length
    if isInsert then return prevMacCount + (curMacCount - kvPos - 1)
    else return prevMacCount + kvPos

/-- `prev_aggregate_mac`: the MACs with the written one taken out again.  Null
for the first entry of a group. -/
def prevAggregateMac (agg : List Block) (updatedIdx : ℤ) (isInsert : Bool) (prevMac : Block) :
    Option (Option (List Block)) := do
  let totalMacCount := agg.length
  if isInsert then
    if totalMacCount > 1 then
      let idx ← sizeT updatedIdx
      let rest ← sizeT (totalMacCount - updatedIdx - 1)
      let prev ← memcpy (malloc (totalMacCount - 1)) 0 agg idx
      let prev ← memcpy prev idx (agg.drop (idx + 1)) rest
      return some prev
    else
      return none
  else
    let idx ← sizeT updatedIdx
    let prev ← memcpy (malloc totalMacCount) 0 agg totalMacCount
    let prev ← memcpy prev idx [prevMac] 1
    return some prev

/-- `enclave_rebuild_tree_root`: the root is checked against the MACs before the
write and replaced by the root after it. -/
def enclaveRebuildTreeRoot (arg : Arg) (sdk : Sdk) (s : Store) (hashVal kvPos : ℕ)
    (isInsert : Bool) (prevMac : Block) : Option (SgxStatus × Store × List Event) := do
  let agg ← aggregateMac arg s hashVal
  let idx ← updatedIdx arg s hashVal kvPos isInsert
  let prev ← prevAggregateMac agg idx isInsert prevMac
  let root ← s.macTable[rootIndex arg hashVal]?
  let asserts := if isInsert then assertLog .kvPosZero (kvPos == 0) else []
  let (ret, tempMac) := aggregateTag sdk agg
  let updated := { s with macTable := s.macTable.set (rootIndex arg hashVal) tempMac }
  match prev with
  | none =>
      -- no need to verify
      return (ret, updated, asserts)
  | some prev =>
      if (aggregateTag sdk prev).2 = root then return (ret, updated, asserts)
      else return (.errorUnexpected, s, asserts ++ [.print .previousMacCompareFailed])

end ShieldStore
