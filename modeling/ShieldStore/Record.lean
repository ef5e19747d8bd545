import ShieldStore.Enclave

/-!
# Genuine entries

What the enclave writes into the table is the image of a record: a key, a value
and a counter block.  The entry of a record is computed by one function,
`Rec.entry`, and every fact about untampered memory is a fact about lists of
records.

The first part says what the functions on entries compute when no length wraps:
the MAC of an entry is taken over a message that determines the ciphertext, the
counter, the key hint and the sizes.

## Main definitions

* `entryMessage` — the message of an entry's MAC.
* `Entry.Bounded` — the sizes of an entry do not wrap a 32-bit length.
* `Rec`, `Rec.entry`, `Rec.next` — a record, its entry, the counter after it.
* `Carries` — an entry that holds a record, whatever its MAC is.

## Main results

* `macMessage_eq_some_iff` — the layout code builds `entryMessage`.
* `entryMessage_inj` — the message determines all of its parts.
* `htGetLoop_absent`, `htGetLoop_present` — the search of a genuine chain.
-/

namespace ShieldStore

open Bytes Counter CMem

/-! ### The message of an entry's MAC -/

/-- Ciphertext, counter, key hint and sizes, one after the other. -/
def entryMessage (cipher : List UInt8) (keyIdx : UInt8) (keyLen valLen : UInt32) (nac : Block) :
    List UInt8 :=
  cipher ++ (blockBytes nac ++ ([keyIdx] ++ (leBytes 4 keyLen.toNat ++ leBytes 4 valLen.toNat)))

theorem leBytes_toNat_inj {a b : UInt32} (h : leBytes 4 a.toNat = leBytes 4 b.toNat) : a = b :=
  UInt32.toNat_inj.mp (leBytes_inj a.toNat_lt b.toNat_lt h)

/-- The message determines all of its parts: behind the ciphertext, everything
has a fixed width. -/
theorem entryMessage_inj {c c' : List UInt8} {i i' : UInt8} {k k' v v' : UInt32} {n n' : Block}
    (h : entryMessage c i k v n = entryMessage c' i' k' v' n') :
    c = c' ∧ i = i' ∧ k = k' ∧ v = v' ∧ n = n' := by
  unfold entryMessage at h
  obtain ⟨hc, h⟩ := List.append_inj' h (by simp)
  obtain ⟨hn, h⟩ := List.append_inj h (by simp)
  obtain ⟨hi, h⟩ := List.append_inj h (by simp)
  obtain ⟨hk, hv⟩ := List.append_inj h (by simp)
  exact ⟨hc, by simpa using hi, leBytes_toNat_inj hk, leBytes_toNat_inj hv,
    blockBytes_injective hn⟩

/-- The sizes do not wrap the 32-bit lengths computed from them. -/
def Unwrapped (keyLen valLen : UInt32) : Prop := keyLen.toNat + valLen.toNat + 25 < 2 ^ 32

section Unwrapped

variable {keyLen valLen : UInt32} (h : Unwrapped keyLen valLen)

include h

theorem Unwrapped.toNat_add : (keyLen + valLen).toNat = keyLen.toNat + valLen.toNat := by
  unfold Unwrapped at h
  rw [UInt32.toNat_add, Nat.mod_eq_of_lt (by omega)]

theorem Unwrapped.toNat_add16 :
    (keyLen + valLen + 16).toNat = keyLen.toNat + valLen.toNat + 16 := by
  have h1 := h.toNat_add
  unfold Unwrapped at h
  rw [UInt32.toNat_add, h1]
  exact Nat.mod_eq_of_lt (show _ + 16 < 2 ^ 32 by omega)

theorem Unwrapped.toNat_add17 :
    (keyLen + valLen + 16 + 1).toNat = keyLen.toNat + valLen.toNat + 17 := by
  have h1 := h.toNat_add16
  unfold Unwrapped at h
  rw [UInt32.toNat_add, h1]
  exact Nat.mod_eq_of_lt (show _ + 1 < 2 ^ 32 by omega)

/-- The layout code builds the message when the buffer is as long as the sizes
say. -/
theorem macMessage_of_le {cipher : List UInt8} (hc : keyLen.toNat + valLen.toNat ≤ cipher.length)
    (keyIdx : UInt8) (nac : Block) :
    macMessage cipher keyIdx keyLen valLen nac =
      some (entryMessage (cipher.take (keyLen.toNat + valLen.toNat)) keyIdx keyLen valLen nac) := by
  unfold macMessage
  rw [h.toNat_add, h.toNat_add16, h.toNat_add17]
  generalize hn : keyLen.toNat + valLen.toNat = n at hc ⊢
  have hlen : (cipher.take n).length = n := by rw [List.length_take]; omega
  -- every copy goes to the end of what the copies before it wrote
  dsimp only
  rw [memcpy_malloc (by omega) hc]
  simp only [Option.bind_eq_bind, Option.bind_some]
  rw [memcpy_append_malloc hlen (by simp [nacSize]; omega) (by simp [nacSize]), Option.bind_some,
    memcpy_append_malloc (by simp [hlen, nacSize]) (by simp [nacSize]; omega) (by simp),
    Option.bind_some,
    memcpy_append_malloc (by simp [hlen, nacSize]) (by simp [nacSize]; omega) (by simp),
    Option.bind_some,
    memcpy_append_malloc (by simp [hlen, nacSize]) (by simp [nacSize]; omega) (by simp),
    Option.bind_some, load_eq_some_iff]
  unfold Unwrapped at h
  rw [Nat.mod_eq_of_lt (by omega), show n + 17 + 4 * 2 - n - nacSize - 1 - 4 - 4 = 0 by
    simp only [nacSize]; omega, malloc_zero, List.append_nil]
  have htake : (cipher.take n ++ (blockBytes nac).take nacSize ++ [keyIdx].take 1 ++
      (leBytes 4 keyLen.toNat).take 4 ++ (leBytes 4 valLen.toNat).take 4) =
      entryMessage (cipher.take n) keyIdx keyLen valLen nac := by
    simp [entryMessage, nacSize, List.take_of_length_le]
  rw [htake]
  have hall : (entryMessage (cipher.take n) keyIdx keyLen valLen nac).length = n + 16 + 1 + 4 * 2 := by
    simp [entryMessage, hlen]
  exact ⟨hall.ge, List.take_of_length_le hall.le⟩

/-- The layout code builds the message exactly when it finds the ciphertext it was
promised. -/
theorem macMessage_eq_some_iff {cipher m : List UInt8} {keyIdx : UInt8} {nac : Block} :
    macMessage cipher keyIdx keyLen valLen nac = some m ↔
      keyLen.toNat + valLen.toNat ≤ cipher.length ∧
        entryMessage (cipher.take (keyLen.toNat + valLen.toNat)) keyIdx keyLen valLen nac = m := by
  by_cases hc : keyLen.toNat + valLen.toNat ≤ cipher.length
  · rw [macMessage_of_le h hc]
    simp [hc]
  · -- the first copy already reads past the ciphertext
    have hnone : macMessage cipher keyIdx keyLen valLen nac = none := by
      unfold macMessage
      dsimp only
      rw [h.toNat_add, memcpy, if_neg (fun hle => hc hle.2)]
      rfl
    simp [hnone, hc]

end Unwrapped

/-- Sizes that do wrap leave a message of a few bytes, or none. -/
theorem unwrapped_of_macMessage {cipher m : List UInt8} {keyIdx : UInt8} {keyLen valLen : UInt32}
    {nac : Block} (h : macMessage cipher keyIdx keyLen valLen nac = some m) (hm : 8 ≤ m.length) :
    Unwrapped keyLen valLen := by
  have hk := keyLen.toNat_lt
  have hv := valLen.toNat_lt
  unfold macMessage at h
  simp only [Option.bind_eq_bind, Option.bind_eq_some_iff] at h
  obtain ⟨t₁, h₁, t₂, h₂, t₃, -, t₄, -, t₅, -, hload⟩ := h
  -- the counter is copied to an offset that did not wrap
  have hoff := (memcpy_eq_some_iff.mp h₂).1.1
  rw [length_memcpy h₁, length_malloc, nacSize, UInt32.toNat_add, UInt32.toNat_add,
    UInt32.toNat_add] at hoff
  -- and the length of the message is truncated
  obtain ⟨hle, rfl⟩ := load_eq_some_iff.mp hload
  rw [List.length_take, UInt32.toNat_add, UInt32.toNat_add] at hm
  simp only [UInt32.toNat_ofNat] at hoff hm
  unfold Unwrapped
  omega

/-- The layout code reads no further than the sizes say. -/
theorem macMessage_take_append {cipher : List UInt8} {keyLen valLen : UInt32}
    (hc : (keyLen + valLen).toNat ≤ cipher.length) (rest : List UInt8) (keyIdx : UInt8) (nac : Block) :
    macMessage (cipher.take (keyLen + valLen).toNat ++ rest) keyIdx keyLen valLen nac =
      macMessage cipher keyIdx keyLen valLen nac := by
  unfold macMessage
  dsimp only
  rw [memcpy_take_append hc]

/-! ### Entries in memory the host may have written -/

/-- The CMAC under the enclave's key. -/
def Sdk.tag (sdk : Sdk) (msg : List UInt8) : Block := sdk.rijndael128CmacMsg gsk msg

@[simp] theorem sgxRijndael128CmacMsg_eq (sdk : Sdk) (msg : List UInt8) :
    sgxRijndael128CmacMsg sdk msg = (.success, sdk.tag msg) := rfl

/-- The sizes of the entry do not wrap. -/
def Entry.Bounded (e : Entry) : Prop := Unwrapped e.keySize e.valSize

/-- The ciphertext as far as the sizes of the entry reach. -/
def Entry.cipher (e : Entry) : List UInt8 :=
  (e.keyVal.getD []).take (e.keySize.toNat + e.valSize.toNat)

/-- The message of the entry's MAC. -/
def Entry.message (e : Entry) : List UInt8 :=
  entryMessage e.cipher e.keyHash e.keySize e.valSize e.nac

/-- The entry's buffer is there, and as long as its sizes say. -/
def Entry.Backed (e : Entry) : Prop :=
  ∃ buf, e.keyVal = some buf ∧ e.keySize.toNat + e.valSize.toNat ≤ buf.length

/-- The plaintext of an entry. -/
def Entry.plain (sdk : Sdk) (e : Entry) : List UInt8 :=
  (sdk.aesCtrDecrypt gsk e.cipher e.nac nacSize).1

theorem Entry.Backed.length_cipher {e : Entry} (h : e.Backed) :
    e.cipher.length = e.keySize.toNat + e.valSize.toNat := by
  obtain ⟨buf, hbuf, hle⟩ := h
  simp [Entry.cipher, hbuf, hle]

/-- The check of an entry prints exactly when the stored MAC is not the MAC of the
entry's fields. -/
theorem verifyEntry_eq_some_iff {sdk : Sdk} {e : Entry} (hb : e.Bounded) {log : List Event} :
    verifyEntry sdk e = some log ↔ e.Backed ∧
      (if sdk.tag e.message = e.mac then [] else [Event.print .macMatchingFailed]) = log := by
  unfold verifyEntry enclaveVerification
  cases hkv : e.keyVal with
  | none => simp [Entry.Backed, hkv]
  | some buf =>
    by_cases hle : e.keySize.toNat + e.valSize.toNat ≤ buf.length
    · have hm := macMessage_of_le hb hle e.keyHash e.nac
      have hmsg : entryMessage (buf.take (e.keySize.toNat + e.valSize.toNat)) e.keyHash e.keySize
          e.valSize e.nac = e.message := by
        simp [Entry.message, Entry.cipher, hkv]
      have hback : e.Backed := ⟨buf, hkv, hle⟩
      simp only [hm, hmsg, hback, printUnless, sgxRijndael128CmacMsg_eq, Option.bind_eq_bind,
        Option.pure_def, Option.bind_some, if_true, List.append_nil, true_and]
      exact Option.some_inj
    · have hm : macMessage buf e.keyHash e.keySize e.valSize e.nac = none := by
        rw [Option.eq_none_iff_forall_ne_some]
        intro m hm
        exact hle ((macMessage_eq_some_iff hb).mp hm).1
      simp [hm, Entry.Backed, hkv, hle]

/-- What the check of any entry computes. -/
theorem verifyEntry_eq_some {sdk : Sdk} {e : Entry} {log : List Event}
    (h : verifyEntry sdk e = some log) :
    ∃ buf msg, e.keyVal = some buf ∧
      macMessage buf e.keyHash e.keySize e.valSize e.nac = some msg ∧
      log = if sdk.tag msg = e.mac then [] else [Event.print .macMatchingFailed] := by
  unfold verifyEntry enclaveVerification at h
  simp only [Option.bind_eq_bind, Option.bind_eq_some_iff, Option.pure_def, Option.some.injEq,
    sgxRijndael128CmacMsg_eq] at h
  obtain ⟨buf, hbuf, ⟨ret, log'⟩, ⟨msg, hmsg, heq⟩, rfl⟩ := h
  obtain ⟨rfl, rfl⟩ := Prod.mk.inj heq
  refine ⟨buf, msg, hbuf, hmsg, ?_⟩
  rw [printUnless, if_pos rfl, List.append_nil]
  rfl

/-- An entry is recognised when its plaintext starts with the key. -/
theorem decryptKeyValAndCompare_eq_some_iff {sdk : Sdk} {key buf : List UInt8} {e : Entry}
    (hb : e.keySize.toNat + e.valSize.toNat < 2 ^ 32) (hbuf : e.keyVal = some buf)
    {r : Option (List UInt8 × Block)} :
    decryptKeyValAndCompare sdk key buf e.keySize e.valSize e.nac = some r ↔
      e.Backed ∧ e.keySize.toNat ≤ key.length ∧
        (if (e.plain sdk).take e.keySize.toNat = key.take e.keySize.toNat then
          some (e.plain sdk, ctrAdd nacSize (numBlocks (e.keySize.toNat + e.valSize.toNat)) e.nac)
          else none) = r := by
  unfold decryptKeyValAndCompare
  rw [UInt32.toNat_add, Nat.mod_eq_of_lt hb]
  by_cases hle : e.keySize.toNat + e.valSize.toNat ≤ buf.length
  · have hback : e.Backed := ⟨buf, hbuf, hle⟩
    have hload : load buf (e.keySize.toNat + e.valSize.toNat) = some e.cipher := by
      rw [load_eq_some_iff]
      exact ⟨hle, by simp [Entry.cipher, hbuf]⟩
    have hplain : (e.plain sdk).length = e.keySize.toNat + e.valSize.toNat := by
      simp [Entry.plain, hback.length_cipher]
    have hctr : (sdk.aesCtrDecrypt gsk e.cipher e.nac nacSize).2
        = ctrAdd nacSize (numBlocks (e.keySize.toNat + e.valSize.toNat)) e.nac := by
      rw [sdk.decrypt_ctr, hback.length_cipher]
    simp only [hload, Option.bind_eq_bind, Option.bind_some, hback, true_and]
    -- the comparison reads as many bytes of the key as the entry says
    by_cases hkey : e.keySize.toNat ≤ key.length
    · have hcmp : memcmp (sdk.aesCtrDecrypt gsk e.cipher e.nac nacSize).1 key e.keySize.toNat =
          some (decide ((e.plain sdk).take e.keySize.toNat = key.take e.keySize.toNat)) := by
        rw [memcmp_eq_some_iff]
        exact ⟨⟨by rw [← Entry.plain, hplain]; omega, hkey⟩, rfl⟩
      rw [hcmp]
      simp only [Option.bind_some, decide_eq_true_eq, hkey, true_and, hctr]
      split
      · exact Option.some_inj
      · exact Option.some_inj
    · have hcmp : memcmp (sdk.aesCtrDecrypt gsk e.cipher e.nac nacSize).1 key e.keySize.toNat
          = none := by
        unfold memcmp
        rw [if_neg (fun h => hkey h.2)]
      simp [hcmp, hkey]
  · have hload : load buf (e.keySize.toNat + e.valSize.toNat) = none := by
      unfold load
      rw [if_neg hle]
    have hback : ¬ e.Backed := by
      rintro ⟨buf', hbuf', hle'⟩
      rw [hbuf, Option.some.injEq] at hbuf'
      exact hle (hbuf' ▸ hle')
    simp [hload, hback]

/-! ### Searching a chain -/

section Search

variable {arg : Arg} {sdk : Sdk} {key : List UInt8} {keySize : UInt32} {keyHash : UInt8}

/-- The entry `e` answers the search: it is a candidate, and its decrypted key is
the one searched for. -/
structure Answers (arg : Arg) (sdk : Sdk) (key : List UInt8) (keySize : UInt32) (keyHash : UInt8)
    (e : Entry) (plain : List UInt8) (nac : Block) : Prop where
  candidate : candidate arg keySize keyHash e = true
  decrypts : ∃ buf, e.keyVal = some buf ∧
    decryptKeyValAndCompare sdk key buf e.keySize e.valSize e.nac = some (some (plain, nac))

/-- What the search loop can return: an entry that answers, with its position; or
nothing, with the length of the chain. -/
theorem htGetLoop_cases : ∀ {chain : List Entry} {plain : Option (List UInt8)} {pos : ℕ}
    {l : Lookup}, htGetLoop arg sdk key keySize keyHash chain plain pos = some l →
    (l.pair = none ∧ l.kvPos = pos + chain.length) ∨
      ∃ pre e post p, chain = pre ++ e :: post ∧ l.pair = some e ∧ l.plainKeyVal = some p ∧
        l.kvPos = pos + pre.length ∧ Answers arg sdk key keySize keyHash e p l.updatedNac := by
  intro chain
  induction chain with
  | nil =>
    intro plain pos l h
    simp only [htGetLoop, Option.some.injEq] at h
    subst h
    exact Or.inl ⟨rfl, rfl⟩
  | cons e chain ih =>
    intro plain pos l h
    -- the step over an entry that does not answer
    have hskip : ∀ {plain'}, htGetLoop arg sdk key keySize keyHash chain plain' (pos + 1) = some l →
        (l.pair = none ∧ l.kvPos = pos + (e :: chain).length) ∨
          ∃ pre e' post p, e :: chain = pre ++ e' :: post ∧ l.pair = some e' ∧
            l.plainKeyVal = some p ∧ l.kvPos = pos + pre.length ∧
            Answers arg sdk key keySize keyHash e' p l.updatedNac := by
      intro plain' h'
      rcases ih h' with ⟨hnone, hpos⟩ | ⟨pre, e', post, p, rfl, hpair, hplain, hpos, hans⟩
      · exact Or.inl ⟨hnone, by rw [hpos, List.length_cons]; omega⟩
      · exact Or.inr ⟨e :: pre, e', post, p, rfl, hpair, hplain,
          by rw [hpos, List.length_cons]; omega, hans⟩
    unfold htGetLoop at h
    split at h
    · next buf hbuf hcand =>
      rw [Option.bind_eq_some_iff] at h
      obtain ⟨r, hdec, h⟩ := h
      match r with
      | none => exact hskip h
      | some (p, nac) =>
        simp only [Option.some.injEq] at h
        subst h
        exact Or.inr ⟨[], e, chain, p, rfl, rfl, rfl, rfl, hcand, buf, hbuf, hdec⟩
    · exact hskip h

/-- An entry whose sizes do not wrap answers with its own plaintext. -/
theorem Answers.of_lt {e : Entry} {p : List UInt8} {nac : Block}
    (h : Answers arg sdk key keySize keyHash e p nac)
    (hb : e.keySize.toNat + e.valSize.toNat < 2 ^ 32)
    (hkey : key.length = keySize.toNat) :
    e.keySize = keySize ∧ e.Backed ∧ p = e.plain sdk ∧ p.take keySize.toNat = key ∧
      nac = ctrAdd nacSize (numBlocks (e.keySize.toNat + e.valSize.toNat)) e.nac := by
  have hsize : e.keySize = keySize := by
    have hc := h.candidate
    simp only [ShieldStore.candidate, Bool.decide_and, Bool.and_eq_true, decide_eq_true_eq] at hc
    exact hc.1
  obtain ⟨buf, hbuf, hdec⟩ := h.decrypts
  obtain ⟨hback, -, hr⟩ := (decryptKeyValAndCompare_eq_some_iff hb hbuf).mp hdec
  split at hr
  · next heq =>
    simp only [Option.some.injEq, Prod.mk.injEq] at hr
    obtain ⟨rfl, rfl⟩ := hr
    rw [hsize, ← hkey, List.take_length, hkey] at heq
    exact ⟨hsize, hback, rfl, heq, by rw [hsize]⟩
  · simp at hr

end Search

/-! ### Records -/

/-- A string with its terminator. -/
def cstr (t : List UInt8) : List UInt8 := t ++ [0]

/-- The size of a string with its terminator. -/
def strSize (t : List UInt8) : UInt32 := UInt32.ofNat (t.length + 1)

@[simp] theorem length_cstr (t : List UInt8) : (cstr t).length = t.length + 1 := by simp [cstr]

theorem cstr_inj {t u : List UInt8} (h : cstr t = cstr u) : t = u := by simpa [cstr] using h

theorem toNat_strSize {t : List UInt8} (h : t.length + 1 < 2 ^ 32) :
    (strSize t).toNat = t.length + 1 := by
  unfold strSize
  rw [UInt32.toNat_ofNat']
  exact Nat.mod_eq_of_lt h

/-- A key, its value, and the counter block the entry is encrypted from. -/
structure Rec where
  key : List UInt8
  val : List UInt8
  nac : Block
  deriving DecidableEq

/-- The plaintext of a record's entry. -/
def Rec.plain (r : Rec) : List UInt8 := cstr r.key ++ cstr r.val

/-- The ciphertext of a record's entry. -/
def Rec.cipher (sdk : Sdk) (r : Rec) : List UInt8 :=
  (sdk.aesCtrEncrypt gsk r.plain r.nac nacSize).1

/-- The message of the MAC of a record's entry. -/
def Rec.message (sdk : Sdk) (r : Rec) : List UInt8 :=
  entryMessage (r.cipher sdk) (keyHashFunc (cstr r.key)) (strSize r.key) (strSize r.val) r.nac

/-- The MAC of a record's entry. -/
def Rec.mac (sdk : Sdk) (r : Rec) : Block := sdk.tag (r.message sdk)

/-- The entry of a record in a buffer that has the bytes `rest` to spare. -/
def Rec.entryWith (sdk : Sdk) (rest : List UInt8) (r : Rec) : Entry where
  keySize := strSize r.key
  valSize := strSize r.val
  keyHash := keyHashFunc (cstr r.key)
  keyVal := some (r.cipher sdk ++ rest)
  nac := r.nac
  mac := r.mac sdk

/-- The entry the enclave writes for a record. -/
def Rec.entry (sdk : Sdk) (r : Rec) : Entry := r.entryWith sdk []

/-- The counter block that decrypting the record's entry leaves behind. -/
def Rec.next (r : Rec) : Block := ctrAdd nacSize (numBlocks r.plain.length) r.nac

/-- The key is a word, the value a string, and the sizes do not wrap. -/
structure Rec.Fits (r : Rec) : Prop where
  word : IsWord 0x20 r.key
  val_nul : (0 : UInt8) ∉ r.val
  sized : r.key.length + r.val.length + 27 < 2 ^ 32

@[simp] theorem length_plain (r : Rec) : r.plain.length = (r.key.length + 1) + (r.val.length + 1) := by
  simp [Rec.plain]

@[simp] theorem length_cipher (sdk : Sdk) (r : Rec) :
    (r.cipher sdk).length = (r.key.length + 1) + (r.val.length + 1) := by
  simp [Rec.cipher]

theorem take_plain (r : Rec) : r.plain.take (r.key.length + 1) = cstr r.key := by
  unfold Rec.plain
  rw [List.take_left' (by simp)]

theorem drop_plain (r : Rec) : r.plain.drop (r.key.length + 1) = cstr r.val := by
  unfold Rec.plain
  rw [List.drop_left' (by simp)]

/-- The entry carries the record: but for its MAC, and for what its buffer has to
spare, it is the entry of the record. -/
structure Carries (sdk : Sdk) (e : Entry) (r : Rec) : Prop where
  sized : r.key.length + r.val.length + 2 < 2 ^ 32
  keySize : e.keySize = strSize r.key
  valSize : e.valSize = strSize r.val
  keyHash : e.keyHash = keyHashFunc (cstr r.key)
  nac : e.nac = r.nac
  keyVal : ∃ rest, e.keyVal = some (r.cipher sdk ++ rest)

section Carries

variable {sdk : Sdk} {e : Entry} {r : Rec} (h : Carries sdk e r)

include h

theorem Carries.toNat_keySize : e.keySize.toNat = r.key.length + 1 := by
  have := h.sized
  rw [h.keySize, toNat_strSize (by omega)]

theorem Carries.toNat_valSize : e.valSize.toNat = r.val.length + 1 := by
  have := h.sized
  rw [h.valSize, toNat_strSize (by omega)]

theorem Carries.sizes_lt : e.keySize.toNat + e.valSize.toNat < 2 ^ 32 := by
  have := h.sized
  rw [h.toNat_keySize, h.toNat_valSize]
  omega

theorem Carries.cipher : e.cipher = r.cipher sdk := by
  obtain ⟨rest, hkv⟩ := h.keyVal
  rw [Entry.cipher, hkv, h.toNat_keySize, h.toNat_valSize]
  exact List.take_left' (length_cipher sdk r)

theorem Carries.backed : e.Backed := by
  obtain ⟨rest, hkv⟩ := h.keyVal
  refine ⟨_, hkv, ?_⟩
  rw [h.toNat_keySize, h.toNat_valSize, List.length_append, length_cipher]
  omega

/-- The entry decrypts to the record. -/
theorem Carries.plain : e.plain sdk = r.plain := by
  rw [Entry.plain, h.cipher, h.nac]
  exact sdk.decrypt_encrypt gsk r.plain r.nac nacSize

theorem Carries.next :
    ctrAdd nacSize (numBlocks (e.keySize.toNat + e.valSize.toNat)) e.nac = r.next := by
  rw [h.toNat_keySize, h.toNat_valSize, h.nac, Rec.next, length_plain]

end Carries

section Records

variable {sdk : Sdk} {r : Rec} (hr : r.Fits) {rest : List UInt8}

include hr

theorem Rec.Fits.toNat_keySize : (strSize r.key).toNat = r.key.length + 1 := by
  have := hr.sized
  exact toNat_strSize (by omega)

theorem Rec.Fits.toNat_valSize : (strSize r.val).toNat = r.val.length + 1 := by
  have := hr.sized
  exact toNat_strSize (by omega)

theorem Rec.Fits.unwrapped : Unwrapped (strSize r.key) (strSize r.val) := by
  unfold Unwrapped
  rw [hr.toNat_keySize, hr.toNat_valSize]
  have := hr.sized
  omega

theorem Rec.Fits.bounded : (r.entryWith sdk rest).Bounded := hr.unwrapped

theorem Rec.Fits.carries : Carries sdk (r.entryWith sdk rest) r := by
  have := hr.sized
  exact ⟨by omega, rfl, rfl, rfl, rfl, rest, rfl⟩

/-- A genuine entry carries the MAC of its own fields. -/
theorem Rec.Fits.tag_message : sdk.tag (r.entryWith sdk rest).message = r.mac sdk := by
  unfold Entry.message
  rw [hr.carries.cipher]
  rfl

theorem Rec.Fits.macMessage_entryWith :
    macMessage (r.cipher sdk ++ rest) (r.entryWith sdk rest).keyHash (r.entryWith sdk rest).keySize
      (r.entryWith sdk rest).valSize (r.entryWith sdk rest).nac = some (r.message sdk) := by
  have hlen : (strSize r.key).toNat + (strSize r.val).toNat = (r.cipher sdk).length := by
    rw [hr.toNat_keySize, hr.toNat_valSize, length_cipher]
  refine (macMessage_eq_some_iff hr.unwrapped).mpr ⟨?_, ?_⟩
  · rw [hlen, List.length_append]
    omega
  · rw [hlen, List.take_left' rfl]
    rfl

theorem Rec.Fits.verifyEntry_entryWith : verifyEntry sdk (r.entryWith sdk rest) = some [] := by
  rw [verifyEntry_eq_some_iff hr.bounded]
  exact ⟨hr.carries.backed, if_pos hr.tag_message⟩

end Records

/-- **An entry with the message of a record is the entry of that record**, but for
what its buffer has to spare. -/
theorem eq_entryWith_of_message {sdk : Sdk} {r : Rec} {e : Entry} {buf : List UInt8}
    (hbuf : e.keyVal = some buf)
    (hmsg : macMessage buf e.keyHash e.keySize e.valSize e.nac = some (r.message sdk))
    (hmac : e.mac = r.mac sdk) : ∃ rest, e = r.entryWith sdk rest := by
  have hlong : 8 ≤ (r.message sdk).length := by
    simp only [Rec.message, entryMessage, List.length_append, length_blockBytes, length_leBytes,
      List.length_singleton]
    omega
  obtain ⟨hle, heq⟩ := (macMessage_eq_some_iff (unwrapped_of_macMessage hmsg hlong)).mp hmsg
  obtain ⟨hcipher, hhash, hkey, hval, hnac⟩ := entryMessage_inj heq
  refine ⟨buf.drop (e.keySize.toNat + e.valSize.toNat), ?_⟩
  obtain ⟨keySize, valSize, keyHash, keyVal, nac, mac⟩ := e
  dsimp only at hbuf hcipher hhash hkey hval hnac hmac ⊢
  rw [Rec.entryWith, ← hcipher, List.take_append_drop, ← hbuf, hhash, hkey, hval, hnac, hmac]

/-- **The message of a record determines it.** -/
theorem Rec.Fits.eq_of_message {sdk : Sdk} {r r' : Rec} (hr : r.Fits) (hr' : r'.Fits)
    (h : r.message sdk = r'.message sdk) : r = r' := by
  obtain ⟨hcipher, -, hkeySize, -, hnac⟩ := entryMessage_inj h
  have hplain : r.plain = r'.plain := by
    have hdec := sdk.decrypt_encrypt gsk r.plain r.nac nacSize
    have hdec' := sdk.decrypt_encrypt gsk r'.plain r'.nac nacSize
    rw [← Rec.cipher] at hdec hdec'
    rw [← hdec, hcipher, hnac, hdec']
  -- the size of the key says where the plaintext is to be cut
  have hlen : r.key.length + 1 = r'.key.length + 1 := by
    rw [← hr.toNat_keySize, hkeySize, hr'.toNat_keySize]
  have hkey : cstr r.key = cstr r'.key := by rw [← take_plain, ← take_plain, hplain, hlen]
  have hval : cstr r.val = cstr r'.val := by rw [← drop_plain, ← drop_plain, hplain, hlen]
  obtain ⟨key, val, nac⟩ := r
  obtain ⟨key', val', nac'⟩ := r'
  obtain rfl : key = key' := cstr_inj hkey
  obtain rfl : val = val' := cstr_inj hval
  obtain rfl : nac = nac' := hnac
  rfl

/-! ### Searching a genuine chain -/

section GenuineSearch

variable {arg : Arg} {sdk : Sdk} {k : List UInt8}

/-- The key hint the search compares with. -/
def searchHint (arg : Arg) (k : List UInt8) : UInt8 :=
  if arg.keyOpt then keyHashFunc (cstr k) else 0

/-- The result of a search that finds the entry of `r` at position `pos`. -/
def Rec.hit (sdk : Sdk) (rest : List UInt8) (r : Rec) (pos : ℕ) : Lookup :=
  ⟨some (r.entryWith sdk rest), some r.plain, pos, r.next⟩

/-- An entry that carries another key does not answer. -/
theorem decryptKeyValAndCompare_ne (hk : k.length + 1 < 2 ^ 32) {e : Entry} {r : Rec}
    (h : Carries sdk e r) {buf : List UInt8} (hbuf : e.keyVal = some buf) (hne : r.key ≠ k)
    (hsize : e.keySize = strSize k) :
    decryptKeyValAndCompare sdk (cstr k) buf e.keySize e.valSize e.nac = some none := by
  have hlen : r.key.length + 1 = k.length + 1 := by
    rw [← h.toNat_keySize, ← toNat_strSize hk, hsize]
  refine (decryptKeyValAndCompare_eq_some_iff h.sizes_lt hbuf).mpr ⟨h.backed, ?_, ?_⟩
  · rw [h.toNat_keySize]; simp [hlen]
  · rw [h.toNat_keySize, h.plain, take_plain, if_neg]
    rw [List.take_of_length_le (by simp [hlen])]
    exact fun h => hne (cstr_inj h)

/-- An entry that carries the key answers. -/
theorem decryptKeyValAndCompare_self {e : Entry} {r : Rec} (h : Carries sdk e r) {buf : List UInt8}
    (hbuf : e.keyVal = some buf) :
    decryptKeyValAndCompare sdk (cstr r.key) buf e.keySize e.valSize e.nac =
      some (some (r.plain, r.next)) := by
  refine (decryptKeyValAndCompare_eq_some_iff h.sizes_lt hbuf).mpr ⟨h.backed, ?_, ?_⟩
  · rw [h.toNat_keySize]; simp
  · rw [h.next, h.toNat_keySize, h.plain, take_plain,
      if_pos (by rw [List.take_of_length_le (by simp)])]

/-- An entry that answers a search has the key, and decrypts to its record. -/
theorem Answers.of_carries {e : Entry} {r : Rec} (he : Carries sdk e r) {p : List UInt8} {nac : Block}
    {keyHash : UInt8} (hk : k.length + 1 < 2 ^ 32)
    (h : Answers arg sdk (cstr k) (strSize k) keyHash e p nac) :
    r.key = k ∧ p = r.plain ∧ nac = r.next := by
  have hlen : (cstr k).length = (strSize k).toNat := by rw [length_cstr, toNat_strSize hk]
  obtain ⟨hsize, -, hp, htake, hnac⟩ := h.of_lt he.sizes_lt hlen
  have hsame : (strSize k).toNat = r.key.length + 1 := by rw [← he.toNat_keySize, ← hsize]
  rw [he.plain] at hp
  rw [hp, hsame, take_plain] at htake
  exact ⟨cstr_inj htake, hp, by rw [hnac, he.next]⟩

/-- The search walks over entries with other keys. -/
theorem htGetLoop_skip (hk : k.length + 1 < 2 ^ 32) {pre : List Entry}
    (hpre : ∀ e ∈ pre, ∃ r, Carries sdk e r ∧ r.key ≠ k) : ∀ (rest : List Entry) (pos : ℕ),
      htGetLoop arg sdk (cstr k) (strSize k) (searchHint arg k) (pre ++ rest) none pos
        = htGetLoop arg sdk (cstr k) (strSize k) (searchHint arg k) rest none (pos + pre.length) := by
  induction pre with
  | nil => intro rest pos; simp
  | cons e pre ih =>
    intro rest pos
    obtain ⟨r, he, hne⟩ := hpre e (by simp)
    obtain ⟨spare, hkv⟩ := he.keyVal
    have ih := ih (fun e' he' => hpre e' (by simp [he'])) rest (pos + 1)
    rw [List.cons_append, htGetLoop]
    cases hcand : candidate arg (strSize k) (searchHint arg k) e with
    | false =>
      simp only [hkv]
      rw [ih, List.length_cons]
      congr 1
      omega
    | true =>
      have hsize : e.keySize = strSize k := by
        simp only [candidate, Bool.decide_and, Bool.and_eq_true, decide_eq_true_eq] at hcand
        exact hcand.1
      simp only [hkv, decryptKeyValAndCompare_ne hk he hkv hne hsize, Option.bind_some]
      rw [ih, List.length_cons]
      congr 1
      omega

/-- A key that no entry carries is not found, and the position is the length of the
chain. -/
theorem htGetLoop_absent (hk : k.length + 1 < 2 ^ 32) {chain : List Entry}
    (hchain : ∀ e ∈ chain, ∃ r, Carries sdk e r ∧ r.key ≠ k) :
    htGetLoop arg sdk (cstr k) (strSize k) (searchHint arg k) chain none 0
      = some ⟨none, none, chain.length, 0⟩ := by
  have hskip := @htGetLoop_skip arg _ _ hk _ hchain [] 0
  rwa [List.append_nil, htGetLoop, Nat.zero_add] at hskip

/-- The first entry that carries the key is found, at its position. -/
theorem htGetLoop_present {pre post : List Entry} {e : Entry} {r : Rec}
    (hpre : ∀ e' ∈ pre, ∃ r', Carries sdk e' r' ∧ r'.key ≠ r.key) (he : Carries sdk e r) :
    htGetLoop arg sdk (cstr r.key) (strSize r.key) (searchHint arg r.key) (pre ++ e :: post) none 0
      = some ⟨some e, some r.plain, pre.length, r.next⟩ := by
  have hk : r.key.length + 1 < 2 ^ 32 := by
    have := he.sized
    omega
  obtain ⟨spare, hkv⟩ := he.keyVal
  have hcand : candidate arg (strSize r.key) (searchHint arg r.key) e = true := by
    simp only [candidate, Bool.decide_and, Bool.and_eq_true, decide_eq_true_eq]
    refine ⟨he.keySize, ?_⟩
    cases hopt : arg.keyOpt with
    | false => exact Or.inl rfl
    | true => right; simp [searchHint, hopt, he.keyHash]
  rw [htGetLoop_skip hk hpre, htGetLoop, Nat.zero_add]
  simp only [hkv, hcand, decryptKeyValAndCompare_self he hkv, Option.bind_some]

end GenuineSearch

end ShieldStore
