import Mathlib.Data.Set.Insert
import Mathlib.Data.Set.Function
import ShieldStore.Logs

/-!
# Sealed entries

`enclave_encrypt` turns a key and a value into a ciphertext and a MAC; `enclave_decrypt`
and `enclave_verification` take the MAC of a ciphertext again.  The three lay out the
message of the MAC on their own, with the sizes behind the ciphertext they describe, and
have in common what they lay out.

What they do with a MAC that differs they do not have in common.  `enclave_decrypt` does
not decrypt; `enclave_verification` prints a line, but returns the status of the SDK's
CMAC call, which says nothing about the comparison.  The request handlers call the
second one only.

## Main definitions

* `Sealed` — what the MAC of an entry is taken over; `Unsealed` — what it comes from.
* `plainAfter` — the plain buffer behind `enclave_decrypt`.

## Main results

* `decrypt_iff_sealed` — a MAC opens the tuple it was made for, and no other.
* `macVerificationFailed_notMem` — no request reports that the verification failed.
* `checkers_agree_iff` — the two checkers agree only where there is nothing to refuse.
-/

namespace ShieldStore

open Bytes Counter CMem

/-! ### Tuples -/

/-- The tuple that the MAC of an entry is taken over, with a ciphertext as long as the
sizes say and sizes that do not wrap. -/
@[ext]
structure Sealed where
  cipher : List UInt8
  keyIdx : UInt8
  keyLen : UInt32
  valLen : UInt32
  nac : Block
  length_cipher : cipher.length = keyLen.toNat + valLen.toNat
  unwrapped : Unwrapped keyLen valLen

/-- What `enclave_encrypt` is called with. -/
structure Unsealed where
  keyVal : List UInt8
  keyIdx : UInt8
  keyLen : UInt32
  valLen : UInt32
  nac : Block
  length_keyVal : keyVal.length = keyLen.toNat + valLen.toNat
  unwrapped : Unwrapped keyLen valLen

/-- The message of the tuple's MAC. -/
def Sealed.message (t : Sealed) : List UInt8 :=
  entryMessage t.cipher t.keyIdx t.keyLen t.valLen t.nac

/-- The plaintext of the tuple. -/
def Sealed.plain (sdk : Sdk) (t : Sealed) : List UInt8 :=
  (sdk.aesCtrDecrypt gsk t.cipher t.nac nacSize).1

/-- The tuple that comes out of the encryption. -/
def Unsealed.encrypted (sdk : Sdk) (u : Unsealed) : Sealed where
  cipher := (sdk.aesCtrEncrypt gsk u.keyVal u.nac nacSize).1
  keyIdx := u.keyIdx
  keyLen := u.keyLen
  valLen := u.valLen
  nac := u.nac
  length_cipher := (sdk.length_encrypt _ _ _ _).trans u.length_keyVal
  unwrapped := u.unwrapped

/-- The message determines the tuple. -/
theorem Sealed.message_injective : Function.Injective Sealed.message := by
  intro t t' h
  obtain ⟨hcipher, hidx, hkey, hval, hnac⟩ := entryMessage_inj h
  exact Sealed.ext hcipher hidx hkey hval hnac

/-- Decryption undoes the encryption. -/
theorem Unsealed.plain_encrypted (sdk : Sdk) (u : Unsealed) : (u.encrypted sdk).plain sdk = u.keyVal :=
  sdk.decrypt_encrypt gsk u.keyVal u.nac nacSize

/-! ### What the functions compute -/

theorem Sealed.macMessage_eq (t : Sealed) :
    macMessage t.cipher t.keyIdx t.keyLen t.valLen t.nac = some t.message := by
  apply (macMessage_eq_some_iff t.unwrapped).mpr
  refine ⟨t.length_cipher.ge, ?_⟩
  rw [List.take_of_length_le t.length_cipher.le]
  rfl

theorem Sealed.load_cipher (t : Sealed) :
    load t.cipher (t.keyLen + t.valLen).toNat = some t.cipher := by
  rw [t.unwrapped.toNat_add, load_eq_some_iff]
  exact ⟨t.length_cipher.ge, List.take_of_length_le t.length_cipher.le⟩

section Functions

variable (sdk : Sdk)

theorem Unsealed.enclaveEncrypt_eq (u : Unsealed) :
    enclaveEncrypt sdk u.keyVal u.keyIdx u.keyLen u.valLen u.nac =
      some ((u.encrypted sdk).cipher, sdk.tag (u.encrypted sdk).message) := by
  have hload : load u.keyVal (u.keyLen + u.valLen).toNat = some u.keyVal := by
    rw [u.unwrapped.toNat_add, load_eq_some_iff]
    exact ⟨u.length_keyVal.ge, List.take_of_length_le u.length_keyVal.le⟩
  -- the ciphertext is written over the plaintext
  have hcopy : memcpy u.keyVal 0 (sdk.aesCtrEncrypt gsk u.keyVal u.nac nacSize).1
      (u.keyLen + u.valLen).toNat = some (u.encrypted sdk).cipher := by
    have hlen : (u.encrypted sdk).cipher.length = u.keyLen.toNat + u.valLen.toNat :=
      (u.encrypted sdk).length_cipher
    rw [u.unwrapped.toNat_add]
    exact (memcpy_full u.length_keyVal hlen.ge).trans (by rw [List.take_of_length_le hlen.le])
  have hmsg : macMessage (u.encrypted sdk).cipher u.keyIdx u.keyLen u.valLen u.nac =
      some (u.encrypted sdk).message := (u.encrypted sdk).macMessage_eq
  unfold enclaveEncrypt
  rw [hload]
  simp only [Option.bind_eq_bind, Option.bind_some, hcopy, hmsg]
  rfl

variable (t : Sealed) (mac : Block)

theorem Sealed.enclaveVerification_eq :
    enclaveVerification sdk t.cipher t.keyIdx t.keyLen t.valLen t.nac mac =
      some (.success, if sdk.tag t.message = mac then [] else [.print .macMatchingFailed]) := by
  unfold enclaveVerification
  rw [t.macMessage_eq]
  rfl

theorem Sealed.enclaveDecrypt_eq :
    enclaveDecrypt sdk t.cipher t.keyIdx t.keyLen t.valLen t.nac mac =
      some (if sdk.tag t.message = mac then (some (t.plain sdk), [])
        else (none, [.print .macMatchingFailed])) := by
  unfold enclaveDecrypt
  rw [t.macMessage_eq, t.load_cipher]
  simp only [Option.bind_eq_bind, Option.bind_some, sgxRijndael128CmacMsg_eq, Option.pure_def,
    apply_ite some]
  rfl

/-- `enclave_decrypt` decrypts the tuple. -/
def Sealed.Accepted : Prop :=
  ∃ text log, enclaveDecrypt sdk t.cipher t.keyIdx t.keyLen t.valLen t.nac mac =
    some (some text, log)

/-- It does if the MAC is that of the tuple. -/
theorem Sealed.accepted_iff : t.Accepted sdk mac ↔ sdk.tag t.message = mac := by
  unfold Sealed.Accepted
  rw [t.enclaveDecrypt_eq sdk mac]
  split
  · next h => simp [h]
  · next h => simp [h]

end Functions

/-! ### Opening what was sealed -/

/-- The plain buffer behind a call of `enclave_decrypt`: the plaintext is written to its
start, or nothing is. -/
def plainAfter (sdk : Sdk) (cipher plain : List UInt8) (keyIdx : UInt8) (keyLen valLen : UInt32)
    (nac mac : Block) : Option (List UInt8) := do
  let (text, _) ← enclaveDecrypt sdk cipher keyIdx keyLen valLen nac mac
  match text with
  | some text => memcpy plain 0 text (keyLen + valLen).toNat
  | none => return plain

/-- **A MAC opens what it was made for.**  Encrypting returns a ciphertext and a MAC.  With
this MAC a tuple is decrypted exactly if it is the encrypted one, and then the plain
buffer starts with the plaintext; with any other tuple it stays as it was.  The CMAC has
to tell the two messages apart. -/
theorem decrypt_iff_sealed (sdk : Sdk) (u : Unsealed) (t : Sealed)
    (hinj : Set.InjOn sdk.tag {(u.encrypted sdk).message, t.message}) {plain : List UInt8}
    (hplain : t.keyLen.toNat + t.valLen.toNat ≤ plain.length) :
    ∃ cipher mac,
      enclaveEncrypt sdk u.keyVal u.keyIdx u.keyLen u.valLen u.nac = some (cipher, mac) ∧
      (t.Accepted sdk mac ↔
        (t.cipher, t.keyIdx, t.keyLen, t.valLen, t.nac) =
          (cipher, u.keyIdx, u.keyLen, u.valLen, u.nac)) ∧
      plainAfter sdk t.cipher plain t.keyIdx t.keyLen t.valLen t.nac mac =
        some (if (t.cipher, t.keyIdx, t.keyLen, t.valLen, t.nac) =
            (cipher, u.keyIdx, u.keyLen, u.valLen, u.nac)
          then u.keyVal ++ plain.drop u.keyVal.length else plain) := by
  refine ⟨_, _, u.enclaveEncrypt_eq sdk, ?_⟩
  have htuple : (t.cipher, t.keyIdx, t.keyLen, t.valLen, t.nac) =
      ((u.encrypted sdk).cipher, u.keyIdx, u.keyLen, u.valLen, u.nac) ↔ t = u.encrypted sdk := by
    rw [Sealed.ext_iff]
    simp only [Prod.mk.injEq]
    rfl
  -- the tags agree exactly if the tuples do
  have htag : sdk.tag t.message = sdk.tag (u.encrypted sdk).message ↔ t = u.encrypted sdk := by
    constructor
    · intro h
      apply Sealed.message_injective
      exact hinj (by simp) (by simp) h
    · intro h
      rw [h]
  refine ⟨(t.accepted_iff sdk _).trans (htag.trans htuple.symm), ?_⟩
  unfold plainAfter
  rw [t.enclaveDecrypt_eq sdk]
  by_cases h : t = u.encrypted sdk
  · have hlen : (t.plain sdk).length = t.keyLen.toNat + t.valLen.toNat :=
      (sdk.length_decrypt _ _ _ _).trans t.length_cipher
    have hcopy : memcpy plain 0 (t.plain sdk) (t.keyLen + t.valLen).toNat =
        some (t.plain sdk ++ plain.drop (t.plain sdk).length) := by
      rw [t.unwrapped.toNat_add, ← hlen, memcpy_eq_some_iff]
      refine ⟨⟨by omega, le_rfl⟩, ?_⟩
      simp
    rw [if_pos (htag.mpr h), if_pos (htuple.mpr h)]
    simp only [Option.bind_eq_bind, Option.bind_some, hcopy]
    rw [h, u.plain_encrypted sdk]
  · rw [if_neg (fun hh => h (htag.mp hh)), if_neg (fun hh => h (htuple.mp hh))]
    rfl

/-- The ciphertext of a record with the byte between key and value given to the key: it is
not opened, and the buffer stays as it was. -/
theorem decrypt_iff_sealed_shifted :
    ∃ cipher mac, enclaveEncrypt Sdk.aes [0x6b, 0, 0x76, 0] 5 2 2 1 = some (cipher, mac) ∧
      plainAfter Sdk.aes cipher [1, 2, 3, 4, 5] 5 3 1 1 mac = some [1, 2, 3, 4, 5] := by
  let u : Unsealed := ⟨[0x6b, 0, 0x76, 0], 5, 2, 2, 1, by decide, by unfold Unwrapped; decide⟩
  let t : Sealed := ⟨(u.encrypted Sdk.aes).cipher, 5, 3, 1, 1, by decide, by unfold Unwrapped; decide⟩
  have hinj : Set.InjOn Sdk.aes.tag {(u.encrypted Sdk.aes).message, t.message} :=
    Set.injOn_pair.mpr (by decide +kernel)
  obtain ⟨cipher, mac, henc, -, hafter⟩ :=
    decrypt_iff_sealed Sdk.aes u t hinj (show 3 + 1 ≤ [1, 2, 3, 4, 5].length by decide)
  have hcipher : (u.encrypted Sdk.aes).cipher = cipher :=
    congrArg Prod.fst (Option.some.inj ((u.enclaveEncrypt_eq Sdk.aes).symm.trans henc))
  refine ⟨cipher, mac, henc, ?_⟩
  rw [if_neg fun h =>
    absurd (show (3 : UInt32) = 2 from congrArg (fun x => x.2.2.1) h) (by decide)] at hafter
  rw [← hcipher]
  exact hafter

/-! ### The verdict of a verification -/

/-- **No request reports that the verification of an entry failed**, whatever is in the
memory: the status that would say so is that of the CMAC call. -/
theorem macVerificationFailed_notMem {arg : Arg} {sdk : Sdk} {s : Store} {rand : Block}
    {cipher : List UInt8} {out : Outcome} (h : request arg sdk s rand cipher = some (some out)) :
    Event.print .macVerificationFailed ∉ out.log := by
  intro hmem
  unfold request at h
  simp only [Option.bind_eq_bind, Option.bind_eq_some_iff] at h
  obtain ⟨c, -, h⟩ := h
  cases c with
  | get =>
    simp only [Option.bind_eq_some_iff, Option.pure_def, Option.some.injEq] at h
    obtain ⟨out, hout, rfl⟩ := h
    obtain ⟨p, -, hget⟩ := Option.bind_eq_some_iff.mp hout
    exact absurd (getKeyVal_log hget hmem) (by decide)
  | set =>
    simp only [Option.bind_eq_some_iff, Option.pure_def, Option.some.injEq] at h
    obtain ⟨out, hout, rfl⟩ := h
    obtain ⟨p, -, hout⟩ := Option.bind_eq_some_iff.mp hout
    obtain ⟨val, -, hset⟩ := Option.bind_eq_some_iff.mp hout
    obtain ⟨l, prints, -, hprints, heq⟩ := setKeyVal_log hset
    rw [heq] at hmem
    rcases List.mem_append.mp hmem with hmem | hmem
    · -- an insert violates assertions, and prints nothing of its own
      rcases mem_insertAsserts hmem with ⟨heq, -⟩ | ⟨heq, -⟩ <;> cases heq
    · exact absurd (hprints hmem) (by decide)
  | append =>
    simp only [Option.bind_eq_some_iff, Option.pure_def, Option.some.injEq] at h
    obtain ⟨out, hout, rfl⟩ := h
    obtain ⟨p, -, hout⟩ := Option.bind_eq_some_iff.mp hout
    obtain ⟨val, -, happ⟩ := Option.bind_eq_some_iff.mp hout
    exact absurd (appendKeyVal_log happ hmem) (by decide)
  | quit => cases h
  | untyped => cases h

/-! ### The two checkers -/

/-- An entry with the tuple, a MAC, and a buffer with some bytes to spare. -/
def Sealed.entry (t : Sealed) (mac : Block) (rest : List UInt8) : Entry :=
  ⟨t.keyLen, t.valLen, t.keyIdx, some (t.cipher ++ rest), t.nac, mac⟩

/-- **When the two checkers agree.**  For a tuple and a MAC: `enclave_verification` returns
success exactly if `enclave_decrypt` accepts, and every request that finds such an entry
reports a failed verification exactly if `enclave_decrypt` does not accept, just when the
MAC is that of the tuple. -/
theorem checkers_agree_iff (sdk : Sdk) (t : Sealed) (mac : Block) :
    (((∃ log, enclaveVerification sdk t.cipher t.keyIdx t.keyLen t.valLen t.nac mac =
          some (.success, log)) ↔ t.Accepted sdk mac) ∧
      ∀ (arg : Arg) (s : Store) (rand : Block) (cipher rest : List UInt8) (p : ParsedKey)
        (l : Lookup) (out : Outcome), parseKey sdk cipher = some p →
        htGetO arg sdk s p.key p.keySize = some l → l.pair = some (t.entry mac rest) →
        request arg sdk s rand cipher = some (some out) →
          (Event.print .macVerificationFailed ∈ out.log ↔ ¬ t.Accepted sdk mac)) ↔
      sdk.tag t.message = mac := by
  have hsuccess := t.enclaveVerification_eq sdk mac
  constructor
  · rintro ⟨hagree, -⟩
    rw [← t.accepted_iff]
    exact hagree.mp ⟨_, hsuccess⟩
  · intro htag
    have haccepted := (t.accepted_iff sdk mac).mpr htag
    refine ⟨iff_of_true ⟨_, hsuccess⟩ haccepted, ?_⟩
    intro arg s rand cipher rest p l out _ _ _ hout
    exact iff_of_false (macVerificationFailed_notMem hout) (not_not.mpr haccepted)

/-- **A changed ciphertext.**  The host flips a bit of a value.  `enclave_decrypt` refuses the
entry, `enclave_verification` returns success, and a `GET` of the key does not report a
failed verification. -/
theorem checkers_disagree :
    enclaveDecrypt Sdk.aes ((Rec.cipher Sdk.aes ⟨[0x6b], [0x76], 1⟩).modify 2 (· ^^^ 1))
        (keyHashFunc (cstr [0x6b])) 2 2 1 (Rec.mac Sdk.aes ⟨[0x6b], [0x76], 1⟩) =
      some (none, [.print .macMatchingFailed]) ∧
    enclaveVerification Sdk.aes ((Rec.cipher Sdk.aes ⟨[0x6b], [0x76], 1⟩).modify 2 (· ^^^ 1))
        (keyHashFunc (cstr [0x6b])) 2 2 1 (Rec.mac Sdk.aes ⟨[0x6b], [0x76], 1⟩) =
      some (.success, [.print .macMatchingFailed]) ∧
    ((getKeyVal ⟨1, 32, 1, 1, false, false⟩ Sdk.aes
      ⟨[[{ Rec.entry Sdk.aes ⟨[0x6b], [0x76], 1⟩ with
          keyVal := some ((Rec.cipher Sdk.aes ⟨[0x6b], [0x76], 1⟩).modify 2 (· ^^^ 1)) }]],
        [⟨0, Vector.replicate 30 0⟩],
        [(aggregateTag Sdk.aes [Rec.mac Sdk.aes ⟨[0x6b], [0x76], 1⟩]).2]⟩
      [] (cstr [0x6b]) (strSize [0x6b])).map Outcome.log) = some [.print .macMatchingFailed] := by
  decide +kernel

end ShieldStore
