import ShieldStore.Record

/-!
# Scratch buffers

The functions on entries lay out what they encrypt, decrypt and compare in buffers of
their own.  The sizes of these buffers are 32-bit sums of the entry's two sizes, and so
are the lengths of the copies; but the places the copies go to are pointer sums, which
do not wrap.  The size of a value is read from memory that the host can write.

## Main definitions

* `Operands` — what the functions are called with.
* `Operands.Inside` — none of them leaves a buffer of its own.

## Main results

* `isSome_macMessage_iff` — when the message of an entry's MAC fits its buffer.
* `scratch_inside_iff` — the sizes under which all four functions stay inside.
-/

namespace ShieldStore

open Bytes Counter CMem

/-- The sizes of an entry, the key that is searched for, and a plaintext and a ciphertext
as long as the sum of the sizes is with 32 bits: the callers allocate them by this sum. -/
structure Operands (keyLen valLen : UInt32) where
  key : List UInt8
  keyVal : List UInt8
  cipher : List UInt8
  keyIdx : UInt8
  nac : Block
  mac : Block
  key_le : keyLen.toNat ≤ key.length
  keyVal_le : (keyLen + valLen).toNat ≤ keyVal.length
  cipher_le : (keyLen + valLen).toNat ≤ cipher.length

/-- No function on entries reads or writes outside of what it has allocated. -/
structure Operands.Inside {keyLen valLen : UInt32} (sdk : Sdk) (o : Operands keyLen valLen) :
    Prop where
  compare : (decryptKeyValAndCompare sdk o.key o.cipher keyLen valLen o.nac).isSome
  encrypt : (enclaveEncrypt sdk o.keyVal o.keyIdx keyLen valLen o.nac).isSome
  verification : (enclaveVerification sdk o.cipher o.keyIdx keyLen valLen o.nac o.mac).isSome
  decrypt : (enclaveDecrypt sdk o.cipher o.keyIdx keyLen valLen o.nac o.mac).isSome

section Sizes

variable {keyLen valLen : UInt32}

/-! ### The message of an entry's MAC -/

theorem toNat_scratch :
    (keyLen + valLen + 16 + 1).toNat = (keyLen.toNat + valLen.toNat + 17) % 2 ^ 32 := by
  simp only [UInt32.toNat_add, UInt32.toNat_ofNat]
  omega

/-- The part of the scratch buffer that is handed to the CMAC lies inside of it. -/
theorem message_le_scratch :
    ((keyLen + valLen + 16).toNat + 1 + 4 * 2) % 2 ^ 32 ≤ (keyLen + valLen + 16 + 1).toNat + 4 * 2 := by
  simp only [UInt32.toNat_add, UInt32.toNat_ofNat]
  omega

/-- **When the message fits.**  The last of the five copies ends 25 bytes behind the
ciphertext, at an offset that does not wrap. -/
theorem isSome_macMessage_iff {cipher : List UInt8} (hc : (keyLen + valLen).toNat ≤ cipher.length)
    (keyIdx : UInt8) (nac : Block) :
    (macMessage cipher keyIdx keyLen valLen nac).isSome ↔
      keyLen.toNat + valLen.toNat + 17 < 2 ^ 32 := by
  have hsize := @toNat_scratch keyLen valLen
  constructor
  · intro h
    obtain ⟨m, hm⟩ := Option.isSome_iff_exists.mp h
    unfold macMessage at hm
    simp only [Option.bind_eq_bind, Option.bind_eq_some_iff] at hm
    obtain ⟨t₁, h₁, t₂, h₂, t₃, h₃, t₄, h₄, t₅, h₅, -⟩ := hm
    have hend := (memcpy_eq_some_iff.mp h₅).1.1
    rw [length_memcpy h₄, length_memcpy h₃, length_memcpy h₂, length_memcpy h₁, length_malloc,
      hsize, nacSize] at hend
    have := Nat.mod_lt (keyLen.toNat + valLen.toNat + 17) (show 2 ^ 32 > 0 by decide)
    omega
  · intro h
    rw [Nat.mod_eq_of_lt h] at hsize
    have hsum : (keyLen + valLen).toNat = keyLen.toNat + valLen.toNat := by
      rw [UInt32.toNat_add, Nat.mod_eq_of_lt (by omega)]
    have hload := @message_le_scratch keyLen valLen
    -- no copy changes the size of the buffer
    obtain ⟨t₁, h₁, l₁⟩ := @exists_memcpy _
      (malloc ((keyLen + valLen + 16 + 1).toNat + 4 * 2)) cipher 0 (keyLen + valLen).toNat
      (by rw [length_malloc]; omega) hc
    rw [length_malloc] at l₁
    obtain ⟨t₂, h₂, l₂⟩ := @exists_memcpy _ t₁ (blockBytes nac) (keyLen.toNat + valLen.toNat)
      nacSize (by simp only [nacSize]; omega) (by simp [nacSize])
    obtain ⟨t₃, h₃, l₃⟩ := @exists_memcpy _ t₂ [keyIdx] (keyLen.toNat + valLen.toNat + nacSize) 1
      (by simp only [nacSize]; omega) (by simp)
    obtain ⟨t₄, h₄, l₄⟩ := @exists_memcpy _ t₃ (leBytes 4 keyLen.toNat)
      (keyLen.toNat + valLen.toNat + nacSize + 1) 4 (by simp only [nacSize]; omega) (by simp)
    obtain ⟨t₅, h₅, l₅⟩ := @exists_memcpy _ t₄ (leBytes 4 valLen.toNat)
      (keyLen.toNat + valLen.toNat + nacSize + 1 + 4) 4 (by simp only [nacSize]; omega) (by simp)
    unfold macMessage
    simp only [h₁, h₂, h₃, h₄, h₅, Option.bind_eq_bind, Option.bind_some]
    rw [load, if_pos (by omega)]
    rfl

/-! ### The four functions -/

variable (sdk : Sdk) (o : Operands keyLen valLen)

/-- The comparison of the keys leaves the plaintext exactly if the sum of the sizes
wraps: what is left of it is then shorter than the key. -/
theorem Operands.isSome_compare_iff :
    (decryptKeyValAndCompare sdk o.key o.cipher keyLen valLen o.nac).isSome ↔
      keyLen.toNat + valLen.toNat < 2 ^ 32 := by
  have hk := keyLen.toNat_lt
  have hv := valLen.toNat_lt
  have hcipher := o.cipher_le
  have hload : load o.cipher (keyLen + valLen).toNat =
      some (o.cipher.take (keyLen + valLen).toNat) := load_eq_some_iff.mpr ⟨hcipher, rfl⟩
  have hplain : (sdk.aesCtrDecrypt gsk (o.cipher.take (keyLen + valLen).toNat) o.nac
      nacSize).1.length = (keyLen + valLen).toNat := by
    rw [sdk.length_decrypt, List.length_take, Nat.min_eq_left hcipher]
  unfold decryptKeyValAndCompare
  rw [hload]
  simp only [Option.bind_eq_bind, Option.bind_some]
  by_cases hle : keyLen.toNat ≤ (keyLen + valLen).toNat
  · rw [memcmp, if_pos ⟨by rw [hplain]; exact hle, o.key_le⟩, Option.bind_some]
    rw [UInt32.toNat_add] at hle
    refine iff_of_true ?_ (by omega)
    split <;> rfl
  · rw [memcmp, if_neg (fun h => hle (hplain ▸ h.1))]
    rw [UInt32.toNat_add] at hle
    refine iff_of_false (by simp) ?_
    intro h
    rw [Nat.mod_eq_of_lt h] at hle
    omega

theorem Operands.isSome_encrypt_iff :
    (enclaveEncrypt sdk o.keyVal o.keyIdx keyLen valLen o.nac).isSome ↔
      keyLen.toNat + valLen.toNat + 17 < 2 ^ 32 := by
  have hkeyVal := o.keyVal_le
  have hload : load o.keyVal (keyLen + valLen).toNat =
      some (o.keyVal.take (keyLen + valLen).toNat) := load_eq_some_iff.mpr ⟨hkeyVal, rfl⟩
  have hlen : (keyLen + valLen).toNat ≤ (sdk.aesCtrEncrypt gsk
      (o.keyVal.take (keyLen + valLen).toNat) o.nac nacSize).1.length := by
    rw [sdk.length_encrypt, List.length_take, Nat.min_eq_left hkeyVal]
  obtain ⟨cipher, hcopy, hcipher⟩ := exists_memcpy (show 0 + (keyLen + valLen).toNat ≤
    o.keyVal.length by omega) hlen
  rw [← isSome_macMessage_iff (hcipher ▸ hkeyVal) o.keyIdx o.nac]
  unfold enclaveEncrypt
  rw [hload]
  simp only [Option.bind_eq_bind, Option.bind_some, hcopy]
  cases macMessage cipher o.keyIdx keyLen valLen o.nac <;> simp

theorem Operands.isSome_verification_iff :
    (enclaveVerification sdk o.cipher o.keyIdx keyLen valLen o.nac o.mac).isSome ↔
      keyLen.toNat + valLen.toNat + 17 < 2 ^ 32 := by
  rw [← isSome_macMessage_iff o.cipher_le o.keyIdx o.nac]
  unfold enclaveVerification
  cases macMessage o.cipher o.keyIdx keyLen valLen o.nac <;> simp

theorem Operands.isSome_decrypt_iff :
    (enclaveDecrypt sdk o.cipher o.keyIdx keyLen valLen o.nac o.mac).isSome ↔
      keyLen.toNat + valLen.toNat + 17 < 2 ^ 32 := by
  have hload : load o.cipher (keyLen + valLen).toNat =
      some (o.cipher.take (keyLen + valLen).toNat) := load_eq_some_iff.mpr ⟨o.cipher_le, rfl⟩
  rw [← isSome_macMessage_iff o.cipher_le o.keyIdx o.nac]
  unfold enclaveDecrypt
  cases macMessage o.cipher o.keyIdx keyLen valLen o.nac with
  | none => simp
  | some msg =>
    simp only [hload, Option.bind_eq_bind, Option.bind_some, Option.isSome_some, iff_true]
    split <;> rfl

/-- **When the scratch buffers suffice.**  Whatever the four functions are called with,
they stay inside the buffers they allocate just when the sizes, with the 17 bytes that
their allocations add with 32 bits, do not wrap. -/
theorem scratch_inside_iff : o.Inside sdk ↔ keyLen.toNat + valLen.toNat + 17 < 2 ^ 32 := by
  constructor
  · intro h
    exact (o.isSome_verification_iff sdk).mp h.verification
  · intro h
    refine ⟨(o.isSome_compare_iff sdk).mpr (by omega), ?_, ?_, ?_⟩
    · exact (o.isSome_encrypt_iff sdk).mpr h
    · exact (o.isSome_verification_iff sdk).mpr h
    · exact (o.isSome_decrypt_iff sdk).mpr h

end Sizes

/-- What the functions are called with for the key `k` and a value of one character. -/
def Operands.short : Operands 2 2 where
  key := cstr [0x6b]
  keyVal := cstr [0x6b] ++ cstr [0x76]
  cipher := List.replicate 4 0
  keyIdx := 0
  nac := 1
  mac := 0
  key_le := by decide
  keyVal_le := by decide
  cipher_le := by decide

/-- An entry for `k` that claims to have a value of `2 ^ 32 - 2` bytes. -/
def Operands.wrapping : Operands 2 0xfffffffe where
  key := cstr [0x6b]
  keyVal := []
  cipher := []
  keyIdx := 0
  nac := 1
  mac := 0
  key_le := by decide
  keyVal_le := by decide
  cipher_le := by decide

theorem scratch_inside_iff_short :
    Operands.short.Inside Sdk.aes ∧ ¬ Operands.wrapping.Inside Sdk.aes :=
  ⟨(scratch_inside_iff Sdk.aes .short).mpr (by decide),
    fun h => absurd ((scratch_inside_iff Sdk.aes .wrapping).mp h) (by decide)⟩

/-- **A size that wraps.**  The host sets the size of a value so that the sum with the size
of its key is `2 ^ 32`.  The sum computed is 0, and all four functions leave their
buffers; a request for the key gets as far as the comparison. -/
theorem scratch_outside :
    decryptKeyValAndCompare Sdk.aes (cstr [0x6b]) [] 2 0xfffffffe 1 = none ∧
    enclaveEncrypt Sdk.aes [] 0 2 0xfffffffe 1 = none ∧
    enclaveVerification Sdk.aes [] 0 2 0xfffffffe 1 0 = none ∧
    enclaveDecrypt Sdk.aes [] 0 2 0xfffffffe 1 0 = none ∧
    htGetO ⟨1, 32, 1, 1, false, false⟩ Sdk.aes
      ⟨[[{ Rec.entry Sdk.aes ⟨[0x6b], [0x76], 1⟩ with valSize := 0xfffffffe }]],
        [⟨0, Vector.replicate 30 0⟩], [0]⟩ (cstr [0x6b]) (strSize [0x6b]) = none := by
  decide +kernel

end ShieldStore
