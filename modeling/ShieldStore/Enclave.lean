import ShieldStore.Ht

/-!
# Requests

The request handlers of `Enclave/Enclave.cpp`.  A request arrives in a buffer of
`max_buf_size` bytes that is tokenised in place and overwritten with the reply.
The key is taken out of the buffer by the same lines in four functions
(`parseKey`), the value in two (`parseVal`).

The random initial counter that an insert draws with `sgx_read_rand` is an
argument of the request.

## Main definitions

* `enclaveInitValues` — the store a server starts with.
* `enclaveSet`, `enclaveGet`, `enclaveAppend` — the three operations.
* `Command`, `command` — which of them a worker calls for a buffer.
* `request` — one request, as the worker runs it.
-/

namespace ShieldStore

open Bytes Counter CMem

/-- The tables `main` creates and the roots `enclave_init_values` clears. -/
def enclaveInitValues (arg : Arg) : Store where
  table := List.replicate arg.bucketSize []
  macbuf := List.replicate arg.bucketSize ⟨0, Vector.replicate 30 0⟩
  macTable := List.replicate arg.treeRootSize 0

/-! ### Parsing -/

/-- A key taken out of a request. -/
structure ParsedKey where
  /-- The buffer after tokenising. -/
  cipher : List UInt8
  /-- The key with its terminator. -/
  key : List UInt8
  keySize : UInt32
  /-- `temp_`: the text after the key. -/
  temp : Option (List UInt8)
  deriving DecidableEq

/-- A string copied into an object of its own: the copy with its terminator, and
its size. -/
def copyString (text : List UInt8) : Option (List UInt8 × UInt32) := do
  let len ← strlen text
  let size := UInt32.ofNat (len + 1)
  let copy ← memcpy (malloc size.toNat) 0 text (size.toNat - 1)
  return (copy, size)

/-- The key of a request: the first token behind the command.  `strlen` of a null
token has no defined behaviour. -/
def parseKey (sdk : Sdk) (cipher : List UInt8) : Option ParsedKey := do
  let tok ← strtokR sdk.saveAtEnd 0x20 (cipher.drop 4)
  let t ← tok
  let (key, keySize) ← copyString t.tok
  return ⟨cipher.take 4 ++ t.text, key, keySize, t.save⟩

/-- The value of a request: everything the tokeniser left behind the key. -/
def parseVal (temp : Option (List UInt8)) : Option (List UInt8 × UInt32) := do
  let text ← temp
  copyString text

/-! ### Operations -/

/-- What an operation leaves behind. -/
structure Outcome where
  store : Store
  /-- The buffer, which the worker sends back. -/
  cipher : List UInt8
  log : List Event
  deriving DecidableEq

/-- `memset(cipher, 0, max_buf_size)` and a copy of the reply into it. -/
def replyBuf (arg : Arg) (src : List UInt8) (n : ℕ) : Option (List UInt8) :=
  memcpy (malloc arg.maxBufSize) 0 src n

/-- `if(ret != SGX_SUCCESS) print(m)`. -/
def printUnless (ret : SgxStatus) (m : Msg) : List Event :=
  if ret = .success then [] else [.print m]

/-- The check of the entry that was found, as all three operations make it. -/
def verifyEntry (sdk : Sdk) (entry : Entry) : Option (List Event) := do
  let keyVal ← entry.keyVal
  let (ret, log) ← enclaveVerification sdk keyVal entry.keyHash entry.keySize entry.valSize
    entry.nac entry.mac
  return log ++ printUnless ret .macVerificationFailed

/-- `enclave_set` behind the parsing of the message. -/
def setKeyVal (arg : Arg) (sdk : Sdk) (s : Store) (rand : Block) (key : List UInt8)
    (keySize : UInt32) (val : List UInt8) (valSize : UInt32) : Option Outcome := do
  let l ← htGetO arg sdk s key keySize
  let hashVal := htHash arg key
  let keyIdx := keyHashFunc key
  -- an insert has no entry to verify
  let verifyLog ← match l.pair with
    | some entry => verifyEntry sdk entry
    | none => pure (assertLog .plainKeyValNull l.plainKeyVal.isNone)
  let nac := if l.pair.isSome then l.updatedNac else rand
  let prevMac := (l.pair.map (·.mac)).getD 0
  let keyVal := malloc (keySize + valSize).toNat
  let keyVal ← memcpy keyVal 0 key keySize.toNat
  let keyVal ← memcpy keyVal keySize.toNat val valSize.toNat
  let (keyVal, mac) ← enclaveEncrypt sdk keyVal keyIdx keySize valSize nac
  let s ← htSetO arg s l.pair key keyVal nac mac keySize valSize l.kvPos
  let (ret, s, rebuildLog) ←
    enclaveRebuildTreeRoot arg sdk s hashVal l.kvPos l.pair.isNone prevMac
  let cipher ← replyBuf arg key keySize.toNat
  return ⟨s, cipher, verifyLog ++ rebuildLog ++ printUnless ret .treeVerificationFailed⟩

/-- `enclave_set`. -/
def enclaveSet (arg : Arg) (sdk : Sdk) (s : Store) (rand : Block) (cipher : List UInt8) :
    Option Outcome := do
  let p ← parseKey sdk cipher
  let (val, valSize) ← parseVal p.temp
  setKeyVal arg sdk s rand p.key p.keySize val valSize

/-- `enclave_get` behind the parsing of the message.  A miss leaves the message in
the buffer. -/
def getKeyVal (arg : Arg) (sdk : Sdk) (s : Store) (cipher key : List UInt8) (keySize : UInt32) :
    Option Outcome := do
  let l ← htGetO arg sdk s key keySize
  match l.pair with
  | none => return ⟨s, cipher, [.print .getFailed]⟩
  | some entry =>
      let verifyLog ← verifyEntry sdk entry
      let ret ← enclaveVerifyTreeRoot arg sdk s (htHash arg key)
      let plain ← l.plainKeyVal
      let cipher ← replyBuf arg (plain.drop entry.keySize.toNat) entry.valSize.toNat
      return ⟨s, cipher, verifyLog ++ printUnless ret .treeVerificationFailed⟩

/-- `enclave_get`. -/
def enclaveGet (arg : Arg) (sdk : Sdk) (s : Store) (cipher : List UInt8) : Option Outcome := do
  let p ← parseKey sdk cipher
  getKeyVal arg sdk s p.cipher p.key p.keySize

/-- `enclave_append` behind the parsing of the message.  The value is appended over
the terminator of the old one. -/
def appendKeyVal (arg : Arg) (sdk : Sdk) (s : Store) (cipher key : List UInt8) (keySize : UInt32)
    (val : List UInt8) (valSize : UInt32) : Option Outcome := do
  let l ← htGetO arg sdk s key keySize
  let hashVal := htHash arg key
  let keyIdx := keyHashFunc key
  match l.pair with
  | none => return ⟨s, cipher, [.print .noDataToAppend]⟩
  | some entry =>
      let verifyLog ← verifyEntry sdk entry
      let plain ← l.plainKeyVal
      let newSize := entry.valSize + valSize - 1
      let keyVal := malloc (entry.keySize + entry.valSize + valSize - 1).toNat
      let keyVal ← memcpy keyVal 0 plain (entry.keySize + entry.valSize).toNat
      let keyVal ← memcpy keyVal (entry.keySize.toNat + entry.valSize.toNat - 1) val valSize.toNat
      let (keyVal, mac) ← enclaveEncrypt sdk keyVal keyIdx keySize newSize l.updatedNac
      let (s, appendLog) ←
        htAppendO arg s (some entry) key keyVal l.updatedNac mac keySize newSize l.kvPos
      let (ret, s, rebuildLog) ← enclaveRebuildTreeRoot arg sdk s hashVal l.kvPos false entry.mac
      let cipher ← replyBuf arg key keySize.toNat
      return ⟨s, cipher, verifyLog ++ appendLog ++ rebuildLog ++
        printUnless ret .treeVerificationFailed⟩

/-- `enclave_append`. -/
def enclaveAppend (arg : Arg) (sdk : Sdk) (s : Store) (cipher : List UInt8) : Option Outcome := do
  let p ← parseKey sdk cipher
  let (val, valSize) ← parseVal p.temp
  appendKeyVal arg sdk s p.cipher p.key p.keySize val valSize

/-! ### Commands -/

/-- The bytes of a string literal, with the terminator. -/
def lit (text : List Char) : List UInt8 := text.map (fun c => UInt8.ofNat c.toNat) ++ [0]

/-- The branches of `enclave_worker_thread`. -/
inductive Command
  | get
  | set
  | append
  | quit
  | untyped
  deriving DecidableEq, Repr

/-- `strncmp(cipher, a, n) == 0 || strncmp(cipher, b, n) == 0`. -/
def startsWith (cipher a b : List UInt8) (n : ℕ) : Option Bool := do
  if ← strncmp cipher a n then return true else strncmp cipher b n

/-- Which branch a worker takes for a buffer. -/
def command (cipher : List UInt8) : Option Command := do
  if ← startsWith cipher (lit ['G', 'E', 'T']) (lit ['g', 'e', 't']) 3 then return .get
  else if ← startsWith cipher (lit ['S', 'E', 'T']) (lit ['s', 'e', 't']) 3 then return .set
  else if ← startsWith cipher (lit ['A', 'P', 'P']) (lit ['a', 'p', 'p']) 3 then return .append
  else if ← strncmp cipher (lit ['q', 'u', 'i', 't']) 4 then return .quit
  else return .untyped

/-- One request, as the worker runs it; null for the branches that do not serve
one. -/
def request (arg : Arg) (sdk : Sdk) (s : Store) (rand : Block) (cipher : List UInt8) :
    Option (Option Outcome) := do
  match ← command cipher with
  | .get => return some (← enclaveGet arg sdk s cipher)
  | .set => return some (← enclaveSet arg sdk s rand cipher)
  | .append => return some (← enclaveAppend arg sdk s cipher)
  | .quit | .untyped => return none

end ShieldStore
