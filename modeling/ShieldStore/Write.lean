import ShieldStore.Spec

/-!
# Writing an entry

What `enclave_set`, `enclave_get` and `enclave_append` do when the entry they find
is genuine, or when they find none.  Nothing is assumed of the rest of the table,
so that the same equations serve the runs in which the host leaves the memory
alone and those in which it does not.

A write replaces one bucket's chain and MAC buffer (`Store.write`); the list of
MACs of its group changes in that bucket only (`groupWith`); and the root is
replaced if the list before the write was the one it authenticates (`commit`).

## Main definitions

* `Store.write` — the store after a write to one bucket.
* `commit` — how the three operations end: check, new root, reply.
* `slot`, `newBuf` — where a bucket's MACs hold the MAC of an entry.

## Main results

* `setKeyVal_insert`, `setKeyVal_update`, `appendKeyVal_found`, `getKeyVal_found` —
  the operations, one equation each.
-/

namespace ShieldStore

open Bytes Counter CMem Lists

/-! ### The store after a write -/

/-- The store with the chain and the MAC buffer of a bucket replaced. -/
def Store.write (s : Store) (b : ℕ) (chain : List Entry) (e : MacEntry) : Store :=
  { s with table := s.table.set b chain, macbuf := s.macbuf.set b e }

@[simp] theorem Store.root_write (s : Store) (b : ℕ) (chain : List Entry) (e : MacEntry) (g : ℕ) :
    (s.write b chain e).root g = s.root g := rfl

@[simp] theorem Store.chain_setRoot (s : Store) (g : ℕ) (tag : Block) (b : ℕ) :
    (s.setRoot g tag).chain b = s.chain b := rfl

@[simp] theorem Store.buf_setRoot (s : Store) (g : ℕ) (tag : Block) (b : ℕ) :
    (s.setRoot g tag).buf b = s.buf b := rfl

section Shaped

variable {arg : Arg} {s : Store} (hs : s.Shaped arg)

include hs

theorem Store.Shaped.write (b : ℕ) (chain : List Entry) (e : MacEntry) :
    (s.write b chain e).Shaped arg :=
  ⟨by simp [Store.write, hs.table], by simp [Store.write, hs.macbuf], hs.macTable⟩

theorem Store.Shaped.setRoot (g : ℕ) (tag : Block) : (s.setRoot g tag).Shaped arg :=
  ⟨hs.table, hs.macbuf, by simp [Store.setRoot, hs.macTable]⟩

theorem Store.Shaped.chain_write {b : ℕ} (hb : b < arg.bucketSize) (chain : List Entry)
    (e : MacEntry) (i : ℕ) : (s.write b chain e).chain i = if b = i then chain else s.chain i := by
  unfold Store.chain Store.write
  rw [List.getElem?_set]
  split
  · next h => rw [if_pos (by rw [hs.table]; omega)]; rfl
  · rfl

theorem Store.Shaped.buf_write {b : ℕ} (hb : b < arg.bucketSize) (chain : List Entry)
    (e : MacEntry) (i : ℕ) : (s.write b chain e).buf i = if b = i then e else s.buf i := by
  unfold Store.buf Store.write
  rw [List.getElem?_set]
  split
  · next h => rw [if_pos (by rw [hs.macbuf]; omega)]; rfl
  · rfl

theorem Store.Shaped.root_setRoot {g : ℕ} (hg : g < arg.treeRootSize) (tag : Block) (i : ℕ) :
    (s.setRoot g tag).root i = if g = i then tag else s.root i := by
  unfold Store.root Store.setRoot
  rw [List.getElem?_set]
  split
  · next h => rw [if_pos (by rw [hs.macTable]; omega)]; rfl
  · rfl

/-- Replacing only the chain. -/
theorem Store.Shaped.write_buf {b : ℕ} (hb : b < arg.bucketSize) (chain : List Entry) :
    s.write b chain (s.buf b) = { s with table := s.table.set b chain } := by
  have hself : s.macbuf.set b (s.buf b) = s.macbuf := set_eq_self fun _ => hs.macbuf_getElem? hb
  unfold Store.write
  rw [hself]

theorem bucketMacs_write {b : ℕ} (hb : b < arg.bucketSize) (chain : List Entry) (e : MacEntry)
    (i : ℕ) : bucketMacs arg (s.write b chain e) i =
      if b = i then macsOf arg chain e else bucketMacs arg s i := by
  unfold bucketMacs
  rw [hs.chain_write hb, hs.buf_write hb]
  split <;> rfl

theorem beforeMacs_write {b : ℕ} (hb : b < arg.bucketSize) (chain : List Entry) (e : MacEntry) :
    beforeMacs arg (s.write b chain e) b = beforeMacs arg s b := by
  unfold beforeMacs
  refine List.flatMap_congr fun i hi => ?_
  rw [List.mem_range'_1] at hi
  rw [bucketMacs_write hs hb, if_neg (by have := @Arg.Valid.startIndex_le arg b; omega)]

theorem afterMacs_write {b : ℕ} (hb : b < arg.bucketSize) (chain : List Entry) (e : MacEntry) :
    afterMacs arg (s.write b chain e) b = afterMacs arg s b := by
  unfold afterMacs
  refine List.flatMap_congr fun i hi => ?_
  rw [List.mem_range'_1] at hi
  rw [bucketMacs_write hs hb, if_neg (by omega)]

/-- A write changes the MACs of its group in its bucket only. -/
theorem groupMacs_write (ha : arg.Valid) {b : ℕ} (hb : b < arg.bucketSize) (chain : List Entry)
    (e : MacEntry) :
    groupMacs arg (s.write b chain e) b = groupWith arg s b (macsOf arg chain e) := by
  rw [groupMacs_eq_groupWith ha, groupWith, beforeMacs_write hs hb, afterMacs_write hs hb,
    bucketMacs_write hs hb, if_pos rfl]
  rfl

/-- A write does not change the MACs of another group. -/
theorem groupMacs_write_of_ne (ha : arg.Valid) {b i : ℕ} (hb : b < arg.bucketSize)
    (hne : rootIndex arg b ≠ rootIndex arg i) (chain : List Entry) (e : MacEntry) :
    groupMacs arg (s.write b chain e) i = groupMacs arg s i := by
  unfold groupMacs
  refine List.flatMap_congr fun j hj => ?_
  rw [bucketMacs_write hs hb, if_neg]
  rintro rfl
  exact hne (ha.mem_groupRange_iff.mp hj)

end Shaped

@[simp] theorem bucketMacs_setRoot (arg : Arg) (s : Store) (g : ℕ) (tag : Block) (b : ℕ) :
    bucketMacs arg (s.setRoot g tag) b = bucketMacs arg s b := rfl

@[simp] theorem groupMacs_setRoot (arg : Arg) (s : Store) (g : ℕ) (tag : Block) (b : ℕ) :
    groupMacs arg (s.setRoot g tag) b = groupMacs arg s b := rfl

theorem groupWith_set (arg : Arg) (s : Store) (b : ℕ) {macs : List Block} {j : ℕ}
    (hj : j < macs.length) (x : Block) :
    (groupWith arg s b macs).set ((beforeMacs arg s b).length + j) x =
      groupWith arg s b (macs.set j x) := by
  unfold groupWith
  rw [List.set_append_right _ _ (by omega), Nat.add_sub_cancel_left, List.set_append_left _ _ hj]

theorem groupWith_eraseIdx (arg : Arg) (s : Store) (b : ℕ) {macs : List Block} {j : ℕ}
    (hj : j < macs.length) :
    (groupWith arg s b macs).eraseIdx ((beforeMacs arg s b).length + j) =
      groupWith arg s b (macs.eraseIdx j) := by
  unfold groupWith
  rw [List.eraseIdx_append_of_length_le (by omega), Nat.add_sub_cancel_left,
    List.eraseIdx_append_of_lt_length hj]

theorem lt_length_groupWith (arg : Arg) (s : Store) (b : ℕ) {macs : List Block} {j : ℕ}
    (hj : j < macs.length) : (beforeMacs arg s b).length + j < (groupWith arg s b macs).length := by
  simp only [groupWith, List.length_append]
  omega

/-! ### MAC buffers -/

/-- A bucket's MAC buffer with `mac` in slot `i`. -/
def MacEntry.put (e : MacEntry) (i : ℕ) (mac : Block) : MacEntry :=
  { e with mac := e.mac.setIfInBounds i mac }

@[simp] theorem MacEntry.size_put (e : MacEntry) (i : ℕ) (mac : Block) :
    (e.put i mac).size = e.size := rfl

theorem MacEntry.write_natCast {i : ℕ} (hi : i < macSlots) (e : MacEntry) (mac : Block) :
    e.write i mac = some (e.put i mac) := by
  unfold MacEntry.write
  rw [sizeT_natCast]
  simp only [Option.bind_eq_bind, Option.bind_some, if_pos hi]
  rfl

theorem MacEntry.macs_put (e : MacEntry) (i : ℕ) (mac : Block) :
    (e.put i mac).macs = e.macs.set i mac := by
  unfold MacEntry.macs MacEntry.put
  rw [Vector.toList_setIfInBounds, List.take_set]

/-- One more MAC, behind those the buffer holds. -/
theorem MacEntry.macs_push {e : MacEntry} {n : ℕ} (hsize : e.size = n) (hn : n < macSlots)
    (mac : Block) : ({ e with size := e.size + 1 }.put n mac).macs = e.macs ++ [mac] := by
  have hlen : n < e.mac.toList.length := by simpa [macSlots] using hn
  rw [MacEntry.macs_put]
  simp only [MacEntry.macs, hsize]
  have htake : (e.mac.toList.take n).length = n := by
    rw [List.length_take]
    omega
  rw [show ((n : ℤ) + 1).toNat = n + 1 by omega, Int.toNat_natCast, List.take_add_one,
    List.getElem?_eq_getElem hlen, List.set_append_right _ _ htake.le, htake, Nat.sub_self]
  rfl

/-- With MAC bucketing, every bucket's buffer counts the entries of its chain, and
there is room for them. -/
def BufsSized (arg : Arg) (s : Store) : Prop :=
  arg.macOpt = true → ∀ b < arg.bucketSize,
    (s.buf b).size = (s.chain b).length ∧ (s.chain b).length ≤ macSlots

theorem BufsSized.of_chain {arg : Arg} (hopt : arg.macOpt = false) (s : Store) : BufsSized arg s := by
  intro h
  rw [hopt] at h
  cases h

/-- The same of one bucket. -/
def BufSized (arg : Arg) (s : Store) (b : ℕ) : Prop :=
  arg.macOpt = true → (s.buf b).size = (s.chain b).length ∧ (s.chain b).length ≤ macSlots

/-- The same of the buckets of a group. -/
def GroupSized (arg : Arg) (s : Store) (b : ℕ) : Prop := ∀ i ∈ groupRange arg b, BufSized arg s i

theorem BufsSized.bucket {arg : Arg} {s : Store} (h : BufsSized arg s) {b : ℕ}
    (hb : b < arg.bucketSize) : BufSized arg s b := fun hopt => h hopt b hb

theorem BufsSized.group {arg : Arg} {s : Store} (h : BufsSized arg s) (ha : arg.Valid) {b : ℕ}
    (hb : b < arg.bucketSize) : GroupSized arg s b :=
  fun _ hi => h.bucket (ha.lt_of_mem_groupRange hb hi)

theorem GroupSized.bucket {arg : Arg} {s : Store} {b : ℕ} (h : GroupSized arg s b) (ha : arg.Valid) :
    BufSized arg s b := h b (ha.mem_groupRange_iff.mpr rfl)

theorem GroupSized.inRange {arg : Arg} {s : Store} {b : ℕ} (h : GroupSized arg s b) :
    BufsInRange arg s b := by
  intro hopt i hi
  obtain ⟨h1, h2⟩ := h i hi hopt
  rw [MacEntry.InRange, h1]
  exact ⟨Int.natCast_nonneg _, by exact_mod_cast h2⟩

theorem BufSized.length_bucketMacs {arg : Arg} {s : Store} {b : ℕ} (h : BufSized arg s b) :
    (bucketMacs arg s b).length = (s.chain b).length := by
  unfold bucketMacs macsOf
  cases hopt : arg.macOpt with
  | false => simp
  | true =>
    obtain ⟨h1, h2⟩ := h hopt
    have hlen : ((s.buf b).macs.length : ℤ) = (s.buf b).size :=
      MacEntry.InRange.length_macs ⟨by rw [h1]; exact Int.natCast_nonneg _,
        by rw [h1]; exact_mod_cast h2⟩
    simp only [if_true]
    omega

/-- Where the MACs of a bucket with `n` entries hold the MAC of the entry at
position `pos`. -/
def slot (arg : Arg) (n pos : ℕ) : ℕ := if arg.macOpt then n - pos - 1 else pos

/-- The bucket's buffer after `mac` was written to slot `i` of it. -/
def newBuf (arg : Arg) (e : MacEntry) (i : ℕ) (mac : Block) : MacEntry :=
  if arg.macOpt then e.put i mac else e

/-- The bucket's buffer after one more MAC. -/
def pushBuf (arg : Arg) (e : MacEntry) (n : ℕ) (mac : Block) : MacEntry :=
  if arg.macOpt then { e with size := e.size + 1 }.put n mac else e

theorem slot_lt (arg : Arg) {n pos : ℕ} (h : pos < n) : slot arg n pos < n := by
  unfold slot
  split <;> omega

/-! ### The end of a write -/

/-- How a write ends: if the list of MACs before it is the one the root
authenticates (or there was none), the root is replaced. -/
def commit (sdk : Sdk) (s : Store) (g : ℕ) (before after : List Block) (cipher : List UInt8)
    (log : List Event) : Outcome :=
  if before = [] ∨ rootTag sdk before = s.root g then ⟨s.setRoot g (rootTag sdk after), cipher, log⟩
  else ⟨s, cipher, log ++ [.print .previousMacCompareFailed, .print .treeVerificationFailed]⟩

@[simp] theorem cipher_commit (sdk : Sdk) (s : Store) (g : ℕ) (before after : List Block)
    (cipher : List UInt8) (log : List Event) :
    (commit sdk s g before after cipher log).cipher = cipher := by
  unfold commit
  split <;> rfl

theorem replyBuf_cstr {arg : Arg} (ha : arg.Valid) {t : List UInt8}
    (ht : t.length + 1 ≤ arg.maxBufSize) :
    replyBuf arg (cstr t) (strSize t).toNat = some (padded arg t) := by
  have hbuf := ha.buf_lt
  unfold replyBuf
  rw [toNat_strSize (by omega), memcpy_malloc ht (by simp), List.take_of_length_le (by simp)]
  have hrep : arg.maxBufSize - t.length = 1 + (arg.maxBufSize - (t.length + 1)) := by omega
  rw [padded, hrep, List.replicate_add, cstr, ← List.append_assoc]
  rfl

/-- Taking the MAC at index `j` of the bucket back. -/
theorem prevMacs_groupWith (arg : Arg) (s : Store) (b : ℕ) {macs : List Block} {j : ℕ}
    (hj : j < macs.length) (isInsert : Bool) (prevMac : Block) :
    prevMacs (groupWith arg s b macs) ((beforeMacs arg s b).length + j) isInsert prevMac =
      groupWith arg s b (if isInsert then macs.eraseIdx j else macs.set j prevMac) := by
  unfold prevMacs
  cases isInsert with
  | false => exact groupWith_set arg s b hj prevMac
  | true => exact groupWith_eraseIdx arg s b hj

/-- The end of a write, wherever the MAC of the written entry is looked for. -/
theorem rebuild_eq_map_commit {arg : Arg} {s₁ : Store} {b pos : ℕ} (sdk : Sdk) (hs₁ : s₁.Shaped arg)
    (hg : rootIndex arg b < arg.treeRootSize) {agg : List Block} (hagg : aggregateMac arg s₁ b = some agg)
    {isInsert : Bool} {idx : ℤ} (hidx : updatedIdx arg s₁ b pos isInsert = some idx) (prevMac : Block)
    (cipher : List UInt8) (log : List Event) :
    ((enclaveRebuildTreeRoot arg sdk s₁ b pos isInsert prevMac).bind fun r =>
      some (Outcome.mk r.2.1 cipher (log ++ r.2.2 ++ printUnless r.1 .treeVerificationFailed))) =
    (prevAggregateMac agg idx isInsert prevMac).map fun prev =>
      commit sdk s₁ (rootIndex arg b) (prev.getD []) agg cipher
        (log ++ if isInsert then assertLog .kvPosZero (pos == 0) else []) := by
  unfold enclaveRebuildTreeRoot
  rw [hagg, hidx, hs₁.macTable_getElem? hg]
  cases hprev : prevAggregateMac agg idx isInsert prevMac with
  | none => simp [hprev]
  | some prev =>
    simp only [Option.bind_eq_bind, Option.bind_some, hprev, aggregateTag_eq, Option.map_some]
    -- with no MAC before the insert there is no check; else the list passes it or does not
    cases prev with
    | none => simp [commit, printUnless, Store.setRoot]
    | some p =>
      have hne := prevAggregateMac_ne_nil hprev
      by_cases hok : rootTag sdk p = s₁.root (rootIndex arg b)
      · simp [commit, printUnless, Store.setRoot, hok]
      · simp [commit, printUnless, hok, hne]

theorem getD_ite_nil (l : List Block) : (if l = [] then none else some l).getD [] = l := by
  split
  · next hnil => rw [hnil]; rfl
  · rfl

/-- The end of a write of the MAC at index `j` of the bucket. -/
theorem rebuild_eq_commit {arg : Arg} {s s₁ : Store} {b pos j : ℕ} {macs : List Block} (sdk : Sdk)
    (ha : arg.Valid) (hb : b < arg.bucketSize) (hs₁ : s₁.Shaped arg) (hr : BufsInRange arg s₁ b)
    (hgroup : groupMacs arg s₁ b = groupWith arg s b macs) (hj : j < macs.length)
    {isInsert : Bool}
    (hidx : updatedIdx arg s₁ b pos isInsert = some (((beforeMacs arg s b).length + j : ℕ) : ℤ))
    (prevMac : Block) (cipher : List UInt8) (log : List Event) :
    ((enclaveRebuildTreeRoot arg sdk s₁ b pos isInsert prevMac).bind fun r =>
      some (Outcome.mk r.2.1 cipher (log ++ r.2.2 ++ printUnless r.1 .treeVerificationFailed))) =
    some (commit sdk s₁ (rootIndex arg b)
      (groupWith arg s b (if isInsert then macs.eraseIdx j else macs.set j prevMac))
      (groupWith arg s b macs) cipher
      (log ++ if isInsert then assertLog .kvPosZero (pos == 0) else [])) := by
  have hagg := aggregateMac_eq ha hs₁ hb hr
  rw [hgroup] at hagg
  rw [rebuild_eq_map_commit sdk hs₁ (ha.rootIndex_lt hb) hagg hidx,
    prevAggregateMac_eq (lt_length_groupWith arg s b hj), Option.map_some,
    prevMacs_groupWith arg s b hj, getD_ite_nil]

/-! ### The entry that is written -/

/-- Encrypting the plaintext of a record. -/
theorem enclaveEncrypt_plain {r : Rec} (hr : r.Fits) (sdk : Sdk) :
    enclaveEncrypt sdk r.plain (keyHashFunc (cstr r.key)) (strSize r.key) (strSize r.val) r.nac =
      some (r.cipher sdk, r.mac sdk) := by
  have hlen : (strSize r.key).toNat + (strSize r.val).toNat = r.plain.length := by
    rw [hr.toNat_keySize, hr.toNat_valSize, length_plain]
  have hcipher : r.plain.length = (r.cipher sdk).length := by simp
  have hload : load r.plain r.plain.length = some r.plain := by
    rw [load_eq_some_iff]
    exact ⟨le_rfl, List.take_length⟩
  unfold enclaveEncrypt
  rw [hr.unwrapped.toNat_add, hlen, hload]
  simp only [Option.bind_eq_bind, Option.bind_some]
  rw [← Rec.cipher, memcpy_full rfl (by rw [hcipher]), hcipher, List.take_length]
  simp only [Option.bind_some]
  rw [macMessage_of_le hr.unwrapped (by rw [hlen, hcipher]), hlen, hcipher, List.take_length]
  rfl

/-- The plaintext `enclave_set` lays out. -/
theorem memcpy_plain {r : Rec} (hr : r.Fits) :
    ((memcpy (malloc (strSize r.key + strSize r.val).toNat) 0 (cstr r.key)
        (strSize r.key).toNat).bind fun keyVal =>
      memcpy keyVal (strSize r.key).toNat (cstr r.val) (strSize r.val).toNat) = some r.plain := by
  have hk := hr.toNat_keySize
  have hv := hr.toNat_valSize
  rw [hr.unwrapped.toNat_add, hk, hv, memcpy_malloc (by omega) (by simp), Option.bind_some,
    List.take_of_length_le (by simp), memcpy_append_malloc (by simp) (by omega) (by simp),
    List.take_of_length_le (by simp)]
  simp [Rec.plain]

/-- The size `enclave_append` computes for the new value. -/
theorem strSize_append {v w : List UInt8} (h : v.length + w.length + 1 < 2 ^ 32) :
    strSize v + strSize w - 1 = strSize (v ++ w) := by
  refine UInt32.toNat_inj.mp ?_
  rw [toNat_strSize (by rw [List.length_append]; omega), UInt32.toNat_sub, UInt32.toNat_add,
    toNat_strSize (by omega), toNat_strSize (by omega), List.length_append]
  show (2 ^ 32 - 1 + (v.length + 1 + (w.length + 1)) % 2 ^ 32) % 2 ^ 32 = _
  omega

/-- The plaintext `enclave_append` lays out: the new value goes over the terminator
of the old one. -/
theorem memcpy_append_plain {r r' : Rec} {w : List UInt8}
    (hsized : r.key.length + r.val.length + w.length + 2 < 2 ^ 32)
    (hkey : r'.key = r.key) (hval : r'.val = r.val ++ w) :
    ((memcpy (malloc (strSize r.key + strSize r.val + strSize w - 1).toNat) 0 r.plain
        (strSize r.key + strSize r.val).toNat).bind fun keyVal =>
      memcpy keyVal ((strSize r.key).toNat + (strSize r.val).toNat - 1) (cstr w)
        (strSize w).toNat) = some r'.plain := by
  have hk : (strSize r.key).toNat = r.key.length + 1 := toNat_strSize (by omega)
  have hv : (strSize r.val).toNat = r.val.length + 1 := toNat_strSize (by omega)
  have hw : (strSize w).toNat = w.length + 1 := toNat_strSize (by omega)
  have hkv : (strSize r.key + strSize r.val).toNat = r.key.length + 1 + (r.val.length + 1) := by
    rw [UInt32.toNat_add, hk, hv, Nat.mod_eq_of_lt (by omega)]
  -- the terminator that is overwritten is the one that the `- 1` of the size leaves out
  have hall : (strSize r.key + strSize r.val + strSize w - 1).toNat =
      r.key.length + 1 + r.val.length + (w.length + 1) := by
    rw [UInt32.toNat_sub, UInt32.toNat_add, hkv, hw]
    show (2 ^ 32 - 1 + (r.key.length + 1 + (r.val.length + 1) + (w.length + 1)) % 2 ^ 32) % 2 ^ 32 = _
    omega
  have hplain : r.plain = (cstr r.key ++ r.val) ++ [0] := by simp [Rec.plain, cstr]
  rw [hall, hkv, hk, hv, hw, memcpy_malloc (by omega) (by simp),
    Option.bind_some, List.take_of_length_le (by simp), hplain, List.append_assoc]
  rw [memcpy_append (by simp) (by simp; omega) (by simp), List.take_of_length_le (by simp)]
  -- the second copy ends where the buffer does
  have hdrop : ([(0 : UInt8)] ++ malloc (r.key.length + 1 + r.val.length + (w.length + 1) -
      (r.key.length + 1 + (r.val.length + 1)))).drop (w.length + 1) = ([] : List UInt8) := by
    refine List.drop_of_length_le ?_
    simp
    omega
  rw [hdrop]
  simp [Rec.plain, cstr, hkey, hval]

/-- Writing the entry of a record over that of another with the same key, in a
buffer that is reallocated. -/
theorem overwrite_realloc {r r' : Rec} (hr' : r'.Fits) (hkey : r'.key = r.key) (sdk : Sdk)
    (rest : List UInt8) :
    overwrite (r.entryWith sdk rest) true (r'.cipher sdk) r'.nac (r'.mac sdk) (strSize r.key)
      (strSize r'.val) = some (r'.entry sdk) := by
  have hlen : (strSize r.key + strSize r'.val).toNat = (r'.cipher sdk).length := by
    rw [← hkey, hr'.unwrapped.toNat_add, hr'.toNat_keySize, hr'.toNat_valSize, length_cipher]
  unfold overwrite
  rw [hlen]
  simp only [if_true, Option.bind_eq_bind, Option.pure_def, Option.bind_some]
  rw [memcpy_full _ le_rfl, List.take_length]
  · simp [Rec.entry, Rec.entryWith, hkey]
  · simp only [ocallTcRealloc, List.length_append, List.length_take, length_malloc]
    omega

/-- The same in the buffer itself, when the sizes of the values agree. -/
theorem overwrite_inPlace {r r' : Rec} (hr : r.Fits) (hr' : r'.Fits) (hkey : r'.key = r.key)
    (hval : strSize r'.val = strSize r.val) (sdk : Sdk) (rest : List UInt8) :
    overwrite (r.entryWith sdk rest) false (r'.cipher sdk) r'.nac (r'.mac sdk) (strSize r.key)
      (strSize r'.val) = some (r'.entryWith sdk rest) := by
  have hlen : (strSize r.key + strSize r'.val).toNat = (r'.cipher sdk).length := by
    rw [← hkey, hr'.unwrapped.toNat_add, hr'.toNat_keySize, hr'.toNat_valSize, length_cipher]
  have hsame : (r'.cipher sdk).length = (r.cipher sdk).length := by
    rw [← hlen, hval, hr.unwrapped.toNat_add, hr.toNat_keySize, hr.toNat_valSize, length_cipher]
  unfold overwrite
  rw [hlen]
  simp only [Bool.false_eq_true, if_false, Option.bind_eq_bind, Option.pure_def]
  show (some (r.cipher sdk ++ rest)).bind _ = _
  rw [Option.bind_some, memcpy_start hsame.symm le_rfl, List.take_length]
  simp [Rec.entryWith, hkey]

/-- How `ht_set_o` overwrites: spare bytes stay only where the buffer is kept. -/
theorem overwrite_set {r r' : Rec} (hr : r.Fits) (hr' : r'.Fits) (hkey : r'.key = r.key) (sdk : Sdk)
    (rest : List UInt8) :
    ∃ rest', (rest = [] → rest' = []) ∧
      overwrite (r.entryWith sdk rest) ((r.entryWith sdk rest).valSize != strSize r'.val)
        (r'.cipher sdk) r'.nac (r'.mac sdk) (strSize r.key) (strSize r'.val) =
          some (r'.entryWith sdk rest') := by
  cases hne : (r.entryWith sdk rest).valSize != strSize r'.val with
  | true => exact ⟨[], fun _ => rfl, overwrite_realloc hr' hkey sdk rest⟩
  | false =>
    rw [bne_eq_false_iff_eq] at hne
    exact ⟨rest, id, overwrite_inPlace hr hr' hkey hne.symm sdk rest⟩

/-! ### The operations -/

/-- The MACs of a bucket after one more entry. -/
def pushMac (arg : Arg) (macs : List Block) (x : Block) : List Block :=
  if arg.macOpt then macs ++ [x] else x :: macs

/-- Where the MACs of a bucket hold the MAC of a new entry. -/
def pushSlot (arg : Arg) (n : ℕ) : ℕ := if arg.macOpt then n else 0

theorem pushSlot_lt (arg : Arg) (macs : List Block) (x : Block) :
    pushSlot arg macs.length < (pushMac arg macs x).length := by
  unfold pushSlot pushMac
  split <;> simp

/-- Taking the new MAC out again. -/
theorem eraseIdx_pushMac (arg : Arg) (macs : List Block) (x : Block) :
    (pushMac arg macs x).eraseIdx (pushSlot arg macs.length) = macs := by
  unfold pushSlot pushMac
  split
  · rw [List.eraseIdx_append_of_length_le le_rfl]
    simp
  · simp

section Buckets

variable {arg : Arg} {sdk : Sdk} {s : Store} {b : ℕ} (hb : b < arg.bucketSize)

/-- The MACs of a bucket after an insert. -/
theorem macsOf_push (hz : BufSized arg s b)
    (hroom : arg.macOpt = true → (s.chain b).length < macSlots) (e : Entry) :
    macsOf arg (e :: s.chain b) (pushBuf arg (s.buf b) (s.chain b).length e.mac) =
      pushMac arg (bucketMacs arg s b) e.mac := by
  unfold bucketMacs macsOf pushBuf pushMac
  cases hopt : arg.macOpt with
  | false => simp
  | true =>
    simp only [if_true]
    exact MacEntry.macs_push (hz hopt).1 (hroom hopt) e.mac

/-- The MACs of a bucket after an update that writes slot `i` of the buffer. -/
theorem macsOf_put {pre post : List Entry} {e : Entry} (hchain : s.chain b = pre ++ e :: post)
    {i : ℕ} (hi : arg.macOpt = false → i = pre.length) (e' : Entry) :
    macsOf arg (pre ++ e' :: post) (newBuf arg (s.buf b) i e'.mac) =
      (bucketMacs arg s b).set i e'.mac := by
  unfold bucketMacs macsOf newBuf
  cases hopt : arg.macOpt with
  | false =>
    simp only [Bool.false_eq_true, if_false]
    rw [hi hopt, hchain, List.map_append, List.map_append, List.map_cons, List.map_cons,
      List.set_append_right _ _ (by simp)]
    simp
  | true =>
    simp only [if_true]
    rw [MacEntry.macs_put]

variable (hs : s.Shaped arg)

include hs hb

/-- A buffer stays counted by an insert. -/
theorem BufSized.push (hz : BufSized arg s b)
    (hroom : arg.macOpt = true → (s.chain b).length < macSlots) (e : Entry) (mac : Block) {i : ℕ}
    (hi : BufSized arg s i) :
    BufSized arg (s.write b (e :: s.chain b) (pushBuf arg (s.buf b) (s.chain b).length mac)) i := by
  intro hopt
  rw [hs.chain_write hb, hs.buf_write hb]
  split
  · obtain ⟨h1, h2⟩ := hz hopt
    have := hroom hopt
    simp only [pushBuf, hopt, if_true, MacEntry.size_put, h1, List.length_cons]
    exact ⟨by push_cast; rfl, by omega⟩
  · exact hi hopt

/-- A buffer stays counted by an update. -/
theorem BufSized.put (hz : BufSized arg s b) {chain : List Entry}
    (hlen : chain.length = (s.chain b).length) (j : ℕ) (mac : Block) {i : ℕ} (hi : BufSized arg s i) :
    BufSized arg (s.write b chain (newBuf arg (s.buf b) j mac)) i := by
  intro hopt
  rw [hs.chain_write hb, hs.buf_write hb]
  split
  · simp only [newBuf, hopt, if_true, MacEntry.size_put, hlen]
    exact hz hopt
  · exact hi hopt

theorem BufsSized.push (hz : BufsSized arg s)
    (hroom : arg.macOpt = true → (s.chain b).length < macSlots) (e : Entry) (mac : Block) :
    BufsSized arg (s.write b (e :: s.chain b) (pushBuf arg (s.buf b) (s.chain b).length mac)) :=
  fun hopt _ hi => (hz.bucket hb).push hb hs hroom e mac (hz.bucket hi) hopt

theorem BufsSized.put (hz : BufsSized arg s) {chain : List Entry}
    (hlen : chain.length = (s.chain b).length) (j : ℕ) (mac : Block) :
    BufsSized arg (s.write b chain (newBuf arg (s.buf b) j mac)) :=
  fun hopt _ hi => (hz.bucket hb).put hb hs hlen j mac (hz.bucket hi) hopt

variable (ha : arg.Valid) (hz : GroupSized arg s b)

include ha hz

theorem GroupSized.push (hroom : arg.macOpt = true → (s.chain b).length < macSlots) (e : Entry)
    (mac : Block) :
    GroupSized arg (s.write b (e :: s.chain b) (pushBuf arg (s.buf b) (s.chain b).length mac)) b :=
  fun i hi => (hz.bucket ha).push hb hs hroom e mac (hz i hi)

theorem GroupSized.put {chain : List Entry} (hlen : chain.length = (s.chain b).length) (j : ℕ)
    (mac : Block) : GroupSized arg (s.write b chain (newBuf arg (s.buf b) j mac)) b :=
  fun i hi => (hz.bucket ha).put hb hs hlen j mac (hz i hi)

omit hz in
/-- Where the MAC of a new entry is looked for among the MACs of the group. -/
theorem updatedIdx_push {n : ℕ} {e : Entry} {mac : Block}
    (hr : BufsInRange arg (s.write b (e :: s.chain b) (pushBuf arg (s.buf b) n mac)) b) :
    updatedIdx arg (s.write b (e :: s.chain b) (pushBuf arg (s.buf b) n mac)) b
      (s.chain b).length true =
        some (((beforeMacs arg s b).length + pushSlot arg (s.chain b).length : ℕ) : ℤ) := by
  have hs₁ := hs.write b (e :: s.chain b) (pushBuf arg (s.buf b) n mac)
  unfold pushSlot
  cases hopt : arg.macOpt with
  | false =>
    rw [updatedIdx_chain ha hs₁ hb hopt, beforeMacs_write hs hb, hs.chain_write hb]
    simp
  | true =>
    rw [updatedIdx_buf ha hs₁ hb hopt hr, beforeMacs_write hs hb]
    simp

/-- Where the MAC of an updated entry stands among the MACs of the group. -/
theorem updatedIdx_put {pre post : List Entry} {e e' : Entry} (hchain : s.chain b = pre ++ e :: post)
    (i : ℕ) (mac : Block) :
    updatedIdx arg (s.write b (pre ++ e' :: post) (newBuf arg (s.buf b) i mac)) b pre.length false =
      some (((beforeMacs arg s b).length + slot arg (s.chain b).length pre.length : ℕ) : ℤ) := by
  have hs₁ := hs.write b (pre ++ e' :: post) (newBuf arg (s.buf b) i mac)
  have hlen : (pre ++ e' :: post).length = (s.chain b).length := by simp [hchain]
  have hlt : pre.length < (s.chain b).length := by
    rw [hchain, List.length_append, List.length_cons]
    omega
  unfold slot
  -- by position in the chain, or by slot of the buffer, which counts from the other end
  cases hopt : arg.macOpt with
  | false =>
    rw [updatedIdx_chain ha hs₁ hb hopt, beforeMacs_write hs hb]
    simp
  | true =>
    rw [updatedIdx_buf ha hs₁ hb hopt (hz.put hb hs ha hlen i mac).inRange,
      beforeMacs_write hs hb, hs.buf_write hb]
    simp only [newBuf, hopt, if_true, MacEntry.size_put, (hz.bucket ha hopt).1, Bool.false_eq_true,
      if_false, Nat.cast_add]
    congr 2
    omega

end Buckets

/-! ### The table functions -/

section Table

variable {arg : Arg} {s : Store} {b : ℕ} {key keyVal : List UInt8} {nac mac : Block}
  {keyLen valLen : UInt32} (hs : s.Shaped arg) (hb : b < arg.bucketSize) (hkey : htHash arg key = b)

include hs hb hkey

theorem htSetO_insert {e : Entry}
    (hnew : htNewpair keyLen valLen (keyHashFunc key) keyVal nac mac = some e) {n : ℕ}
    (hroom : arg.macOpt = true → n < macSlots) :
    htSetO arg s none key keyVal nac mac keyLen valLen n =
      some (s.write b (e :: s.chain b) (pushBuf arg (s.buf b) n mac)) := by
  unfold htSetO pushBuf
  simp only [hkey, hs.table_getElem? hb, hnew, Option.bind_eq_bind, Option.bind_some,
    Option.pure_def]
  cases hopt : arg.macOpt with
  | false =>
    simp only [Bool.false_eq_true, if_false]
    rw [hs.write_buf hb]
  | true =>
    simp only [if_true, hs.macbuf_getElem? hb, Option.bind_some,
      MacEntry.write_natCast (hroom hopt)]
    rfl

theorem htSetO_update (hz : BufSized arg s b) {pre post : List Entry} {e e' : Entry}
    (hchain : s.chain b = pre ++ e :: post)
    (hover : overwrite e (e.valSize != valLen) keyVal nac mac keyLen valLen = some e') :
    htSetO arg s (some e) key keyVal nac mac keyLen valLen pre.length =
      some (s.write b (pre ++ e' :: post)
        (newBuf arg (s.buf b) (slot arg (s.chain b).length pre.length) mac)) := by
  obtain ⟨hset, hlt⟩ := set_of_split hchain e'
  unfold htSetO newBuf slot
  simp only [hkey, hs.table_getElem? hb, hover, Option.bind_eq_bind, Option.bind_some,
    Option.pure_def, hset]
  cases hopt : arg.macOpt with
  | false =>
    simp only [Bool.false_eq_true, if_false]
    rw [hs.write_buf hb]
  | true =>
    obtain ⟨h1, h2⟩ := hz hopt
    -- the slot is computed in `int`, and is not negative
    have hslot : ((s.chain b).length : ℤ) - pre.length - 1 =
        (((s.chain b).length - pre.length - 1 : ℕ) : ℤ) := by omega
    simp only [if_true, hs.macbuf_getElem? hb, Option.bind_some, h1, hslot]
    rw [MacEntry.write_natCast (by omega)]
    rfl

theorem htAppendO_update (hz : BufSized arg s b) {pre post : List Entry} {e e' : Entry}
    (hchain : s.chain b = pre ++ e :: post)
    (hover : overwrite e true keyVal nac mac keyLen valLen = some e') :
    htAppendO arg s (some e) key keyVal nac mac keyLen valLen pre.length =
      some (s.write b (pre ++ e' :: post) (newBuf arg (s.buf b) pre.length mac), []) := by
  obtain ⟨hset, hlt⟩ := set_of_split hchain e'
  unfold htAppendO newBuf
  simp only [hkey, hs.table_getElem? hb, hover, Option.bind_eq_bind, Option.bind_some,
    Option.pure_def, hset]
  cases hopt : arg.macOpt with
  | false =>
    simp only [Bool.false_eq_true, if_false]
    rw [hs.write_buf hb]
  | true =>
    -- here the slot is the position itself
    have h2 := (hz hopt).2
    simp only [if_true, hs.macbuf_getElem? hb, Option.bind_some]
    rw [MacEntry.write_natCast (by omega)]
    rfl

end Table

/-! ### The operations -/

section Operations

variable {arg : Arg} {sdk : Sdk} {s : Store} {b : ℕ} (ha : arg.Valid) (hs : s.Shaped arg)
  (hz : BufsSized arg s)

include ha hs hz

omit ha hs hz in
theorem htNewpair_plain {r : Rec} (hr : r.Fits) :
    htNewpair (strSize r.key) (strSize r.val) (keyHashFunc (cstr r.key)) (r.cipher sdk) r.nac
      (r.mac sdk) = some (r.entry sdk) := by
  have hlen : (strSize r.key + strSize r.val).toNat = (r.cipher sdk).length := by
    rw [hr.unwrapped.toNat_add, hr.toNat_keySize, hr.toNat_valSize, length_cipher]
  unfold htNewpair
  rw [hlen, memcpy_full (by simp) le_rfl, List.take_length]
  simp [Rec.entry, Rec.entryWith]

omit hz in
/-- **SET of a key that is not found**, in any memory.  A new entry at the head of its
chain, a MAC in the slot with the number of the chain's length; and a check of the MACs
without the one at the index of that slot. -/
theorem setKeyVal_insert_any {r : Rec} (hr : r.Fits) (hk : r.key.length + 1 ≤ arg.maxBufSize)
    (hb : htHash arg (cstr r.key) = b) {plain : Option (List UInt8)} {nac : Block}
    (hget : htGetO arg sdk s (cstr r.key) (strSize r.key) =
      some ⟨none, plain, (s.chain b).length, nac⟩)
    (hroom : arg.macOpt = true → (s.chain b).length < macSlots)
    (hrange : BufsInRange arg (s.write b (r.entry sdk :: s.chain b)
      (pushBuf arg (s.buf b) (s.chain b).length (r.mac sdk))) b) :
    let s₁ := s.write b (r.entry sdk :: s.chain b)
      (pushBuf arg (s.buf b) (s.chain b).length (r.mac sdk))
    setKeyVal arg sdk s r.nac (cstr r.key) (strSize r.key) (cstr r.val) (strSize r.val) =
      (prevAggregateMac (groupMacs arg s₁ b)
        (((beforeMacs arg s b).length + pushSlot arg (s.chain b).length : ℕ) : ℤ) true 0).map
        fun prev => commit sdk s₁ (rootIndex arg b) (prev.getD []) (groupMacs arg s₁ b)
          (padded arg r.key) (assertLog .plainKeyValNull plain.isNone ++
            assertLog .kvPosZero ((s.chain b).length == 0)) := by
  intro s₁
  have hlt : b < arg.bucketSize := hb ▸ Arg.Valid.htHash_lt ha.bucket_pos _
  obtain ⟨mid, hmid, hplain⟩ := Option.bind_eq_some_iff.mp (memcpy_plain hr)
  have hs₁ := hs.write b (r.entry sdk :: s.chain b)
    (pushBuf arg (s.buf b) (s.chain b).length (r.mac sdk))
  -- the previous MAC of an insert is never read
  have hend := rebuild_eq_map_commit sdk hs₁ (ha.rootIndex_lt hlt) (aggregateMac_eq ha hs₁ hlt hrange)
    (updatedIdx_push hlt hs ha hrange) 0 (padded arg r.key)
    (assertLog .plainKeyValNull plain.isNone)
  unfold setKeyVal
  simp only [hget, Option.bind_eq_bind, Option.bind_some, Option.pure_def, Option.isSome_none,
    Bool.false_eq_true, if_false, hmid, hplain, enclaveEncrypt_plain hr sdk,
    htSetO_insert hs hlt hb (htNewpair_plain hr) hroom, replyBuf_cstr ha hk, hb,
    Option.map_none, Option.getD_none, Option.isNone_none]
  exact hend

/-- **SET of a key that is not found**, with a buffer that counts the entries of the
chain: the list that is checked is the one before the insert. -/
theorem setKeyVal_insert {r : Rec} (hr : r.Fits) (hk : r.key.length + 1 ≤ arg.maxBufSize)
    (hb : htHash arg (cstr r.key) = b) {plain : Option (List UInt8)} {nac : Block}
    (hget : htGetO arg sdk s (cstr r.key) (strSize r.key) =
      some ⟨none, plain, (s.chain b).length, nac⟩)
    (hroom : arg.macOpt = true → (s.chain b).length < macSlots) :
    setKeyVal arg sdk s r.nac (cstr r.key) (strSize r.key) (cstr r.val) (strSize r.val) =
      some (commit sdk
        (s.write b (r.entry sdk :: s.chain b)
          (pushBuf arg (s.buf b) (s.chain b).length (r.mac sdk)))
        (rootIndex arg b) (groupMacs arg s b)
        (groupWith arg s b (pushMac arg (bucketMacs arg s b) (r.mac sdk)))
        (padded arg r.key)
        (assertLog .plainKeyValNull plain.isNone ++
          assertLog .kvPosZero ((s.chain b).length == 0))) := by
  have hlt : b < arg.bucketSize := hb ▸ Arg.Valid.htHash_lt ha.bucket_pos _
  have hgroup : groupMacs arg (s.write b (r.entry sdk :: s.chain b)
      (pushBuf arg (s.buf b) (s.chain b).length (r.mac sdk))) b =
      groupWith arg s b (pushMac arg (bucketMacs arg s b) (r.mac sdk)) := by
    rw [groupMacs_write hs ha hlt]
    exact congrArg _ (macsOf_push (hz.bucket hlt) hroom (r.entry sdk))
  have hlen := (hz.bucket hlt).length_bucketMacs
  have hj := pushSlot_lt arg (bucketMacs arg s b) (r.mac sdk)
  -- the check leaves out the MAC that was pushed, and so sees the old list
  have herase := eraseIdx_pushMac arg (bucketMacs arg s b) (r.mac sdk)
  rw [hlen] at hj herase
  have hinsert := setKeyVal_insert_any ha hs hr hk hb hget hroom
    ((hz.group ha hlt).push hlt hs ha hroom (r.entry sdk) (r.mac sdk)).inRange
  rw [hinsert, hgroup, prevAggregateMac_eq (lt_length_groupWith arg s b hj), Option.map_some,
    prevMacs_groupWith arg s b hj, getD_ite_nil, if_pos rfl, herase, ← groupMacs_eq_groupWith ha]

/-- An update: the entry `e` of bucket `b`, behind the entries `pre`, becomes `e'`, and
slot `i` of the bucket's MACs is written. -/
def commitUpdate (arg : Arg) (sdk : Sdk) (s : Store) (b : ℕ) (pre post : List Entry) (e e' : Entry)
    (i : ℕ) (cipher : List UInt8) (log : List Event) : Outcome :=
  commit sdk (s.write b (pre ++ e' :: post) (newBuf arg (s.buf b) i e'.mac)) (rootIndex arg b)
    (groupWith arg s b (((bucketMacs arg s b).set i e'.mac).set
      (slot arg (s.chain b).length pre.length) e.mac))
    (groupWith arg s b ((bucketMacs arg s b).set i e'.mac)) cipher log

omit hz in
/-- The end of an update. -/
theorem rebuild_update (hz : GroupSized arg s b) {pre post : List Entry} {e : Entry} (sdk : Sdk) (e' : Entry)
    (hb : b < arg.bucketSize) (hchain : s.chain b = pre ++ e :: post) {i : ℕ}
    (hi : arg.macOpt = false → i = pre.length) (cipher : List UInt8) (log : List Event) :
    ((enclaveRebuildTreeRoot arg sdk (s.write b (pre ++ e' :: post) (newBuf arg (s.buf b) i e'.mac))
        b pre.length false e.mac).bind fun r =>
      some (Outcome.mk r.2.1 cipher (log ++ r.2.2 ++ printUnless r.1 .treeVerificationFailed))) =
    some (commitUpdate arg sdk s b pre post e e' i cipher log) := by
  have hs₁ := hs.write b (pre ++ e' :: post) (newBuf arg (s.buf b) i e'.mac)
  have hsame : (pre ++ e' :: post).length = (s.chain b).length := by simp [hchain]
  have hlt : pre.length < (s.chain b).length := by
    rw [hchain, List.length_append, List.length_cons]
    omega
  have hgroup : groupMacs arg (s.write b (pre ++ e' :: post) (newBuf arg (s.buf b) i e'.mac)) b =
      groupWith arg s b ((bucketMacs arg s b).set i e'.mac) := by
    rw [groupMacs_write hs ha hb, macsOf_put hchain hi e']
  -- the check puts the old MAC back at its slot, which need not be the one written
  have hj : slot arg (s.chain b).length pre.length < ((bucketMacs arg s b).set i e'.mac).length := by
    rw [List.length_set, (hz.bucket ha).length_bucketMacs]
    exact slot_lt arg hlt
  have hcommit := rebuild_eq_commit sdk ha hb hs₁ (hz.put hb hs ha hsame i e'.mac).inRange hgroup
    hj (updatedIdx_put hb hs ha hz hchain i e'.mac) e.mac cipher log
  unfold commitUpdate
  simpa only [Bool.false_eq_true, if_false, List.append_nil] using hcommit

/-- **SET of a key that is found.**  The entry is replaced at its place, and so is
its MAC among the MACs of the bucket. -/
theorem setKeyVal_update {r r' : Rec} (hr : r.Fits) (hr' : r'.Fits) (hkey : r'.key = r.key)
    (hnac : r'.nac = r.next) (hk : r.key.length + 1 ≤ arg.maxBufSize)
    (hb : htHash arg (cstr r.key) = b) {pre post : List Entry} {rest : List UInt8}
    (hget : htGetO arg sdk s (cstr r.key) (strSize r.key) = some (r.hit sdk rest pre.length))
    (hchain : s.chain b = pre ++ r.entryWith sdk rest :: post) (rand : Block) :
    ∃ rest', (rest = [] → rest' = []) ∧
      setKeyVal arg sdk s rand (cstr r.key) (strSize r.key) (cstr r'.val) (strSize r'.val) =
        some (commitUpdate arg sdk s b pre post (r.entryWith sdk rest) (r'.entryWith sdk rest')
          (slot arg (s.chain b).length pre.length) (padded arg r.key) []) := by
  have hlt : b < arg.bucketSize := hb ▸ Arg.Valid.htHash_lt ha.bucket_pos _
  obtain ⟨mid, hmid, hplain⟩ := Option.bind_eq_some_iff.mp (memcpy_plain hr')
  have henc := enclaveEncrypt_plain hr' sdk
  rw [hkey] at hmid hplain henc
  rw [hnac] at henc
  -- an entry whose value keeps its size keeps its allocation, and what lies behind it
  obtain ⟨rest', hrest', hover⟩ := overwrite_set hr hr' hkey sdk rest
  refine ⟨rest', hrest', ?_⟩
  rw [hnac] at hover
  have hcommit := rebuild_update ha hs (hz.group ha hlt) sdk (r'.entryWith sdk rest') hlt hchain
    (show arg.macOpt = false → slot arg (s.chain b).length pre.length = pre.length from
      fun hopt => by simp [slot, hopt]) (padded arg r.key) []
  unfold setKeyVal
  simp only [hget, Rec.hit, Option.bind_eq_bind, Option.bind_some, Option.pure_def,
    Option.isSome_some, if_true, hr.verifyEntry_entryWith, hmid, hplain, henc,
    htSetO_update hs hlt hb (hz.bucket hlt) hchain hover, replyBuf_cstr ha hk, hb, Option.map_some,
    Option.getD_some, Option.isNone_some]
  exact hcommit

/-- **APP of a key that is found.**  The entry is replaced at its place; of the
buffer, the slot with the number of that place is written. -/
theorem appendKeyVal_found {r r' : Rec} {w : List UInt8} (hr : r.Fits) (hr' : r'.Fits)
    (hkey : r'.key = r.key) (hval : r'.val = r.val ++ w) (hnac : r'.nac = r.next)
    (hk : r.key.length + 1 ≤ arg.maxBufSize) (hb : htHash arg (cstr r.key) = b)
    {pre post : List Entry} {rest : List UInt8}
    (hget : htGetO arg sdk s (cstr r.key) (strSize r.key) = some (r.hit sdk rest pre.length))
    (hchain : s.chain b = pre ++ r.entryWith sdk rest :: post) (cipher : List UInt8) :
    appendKeyVal arg sdk s cipher (cstr r.key) (strSize r.key) (cstr w) (strSize w) =
      some (commitUpdate arg sdk s b pre post (r.entryWith sdk rest) (r'.entry sdk) pre.length
        (padded arg r.key) []) := by
  have hlt : b < arg.bucketSize := hb ▸ Arg.Valid.htHash_lt ha.bucket_pos _
  have hsized := hr'.sized
  rw [hval, List.length_append] at hsized
  have hsize : strSize r.val + strSize w - 1 = strSize r'.val := by
    rw [hval]
    exact strSize_append (by omega)
  rw [hkey] at hsized
  obtain ⟨mid, hmid, hplain⟩ := Option.bind_eq_some_iff.mp
    (memcpy_append_plain (show r.key.length + r.val.length + w.length + 2 < 2 ^ 32 by omega) hkey hval)
  have henc := enclaveEncrypt_plain hr' sdk
  have hover := overwrite_realloc hr' hkey sdk rest
  rw [hkey, hnac] at henc
  rw [hnac] at hover
  have hcommit := rebuild_update ha hs (hz.group ha hlt) sdk (r'.entry sdk) hlt hchain
    (show arg.macOpt = false → pre.length = pre.length from fun _ => rfl) (padded arg r.key) []
  have hsize' : (r.entryWith sdk rest).valSize + strSize w - 1 = strSize r'.val := hsize
  unfold appendKeyVal
  simp only [hget, Rec.hit, Option.bind_eq_bind, Option.bind_some, Option.pure_def,
    hr.verifyEntry_entryWith, hsize']
  -- the sizes are those the entry has in memory, which are those of its record
  have hmid' : memcpy (malloc ((r.entryWith sdk rest).keySize + (r.entryWith sdk rest).valSize +
      strSize w - 1).toNat) 0 r.plain
      ((r.entryWith sdk rest).keySize + (r.entryWith sdk rest).valSize).toNat = some mid := hmid
  have hplain' : memcpy mid ((r.entryWith sdk rest).keySize.toNat +
      (r.entryWith sdk rest).valSize.toNat - 1) (cstr w) (strSize w).toNat = some r'.plain := hplain
  simp only [hmid', hplain', henc, Option.bind_some, htAppendO_update hs hlt hb (hz.bucket hlt) hchain hover,
    replyBuf_cstr ha hk, hb, List.append_nil]
  exact hcommit

omit hz in
/-- **GET of a key that is found.**  The value is the reply, whether or not the root
authenticates the MACs of the group. -/
theorem getKeyVal_found (hz : BufsInRange arg s b) {r : Rec} (hr : r.Fits)
    (hv : r.val.length + 1 ≤ arg.maxBufSize) (hb : htHash arg (cstr r.key) = b) {rest : List UInt8}
    {pos : ℕ} (hget : htGetO arg sdk s (cstr r.key) (strSize r.key) = some (r.hit sdk rest pos))
    (cipher : List UInt8) :
    getKeyVal arg sdk s cipher (cstr r.key) (strSize r.key) =
      some ⟨s, padded arg r.val,
        if rootTag sdk (groupMacs arg s b) = s.root (rootIndex arg b) then []
        else [.print .treeVerificationFailed]⟩ := by
  have hlt : b < arg.bucketSize := hb ▸ Arg.Valid.htHash_lt ha.bucket_pos _
  have hroot := enclaveVerifyTreeRoot_eq sdk hs (ha.rootIndex_lt hlt) (aggregateMac_eq ha hs hlt hz)
  -- the value starts behind the key in the plaintext
  have hreply : replyBuf arg (r.plain.drop (r.entryWith sdk rest).keySize.toNat)
      (r.entryWith sdk rest).valSize.toNat = some (padded arg r.val) := by
    show replyBuf arg (r.plain.drop (strSize r.key).toNat) (strSize r.val).toNat = _
    rw [hr.toNat_keySize, drop_plain]
    exact replyBuf_cstr ha hv
  unfold getKeyVal
  simp only [hget, Rec.hit, Option.bind_eq_bind, Option.bind_some, Option.pure_def,
    hr.verifyEntry_entryWith, hb, hroot, hreply]
  by_cases hok : rootTag sdk (groupMacs arg s b) = s.root (rootIndex arg b)
  · simp [hok, printUnless]
  · simp [hok, printUnless]

omit ha hs hz in
/-- GET of a key that is not found. -/
theorem getKeyVal_miss {key : List UInt8} {keySize : UInt32} {plain : Option (List UInt8)} {pos : ℕ}
    {nac : Block} (hget : htGetO arg sdk s key keySize = some ⟨none, plain, pos, nac⟩)
    (cipher : List UInt8) :
    getKeyVal arg sdk s cipher key keySize = some ⟨s, cipher, [.print .getFailed]⟩ := by
  unfold getKeyVal
  rw [hget]
  rfl

omit ha hs hz in
/-- APP of a key that is not found. -/
theorem appendKeyVal_miss {key : List UInt8} {keySize : UInt32} {plain : Option (List UInt8)}
    {pos : ℕ} {nac : Block} (hget : htGetO arg sdk s key keySize = some ⟨none, plain, pos, nac⟩)
    (cipher val : List UInt8) (valSize : UInt32) :
    appendKeyVal arg sdk s cipher key keySize val valSize =
      some ⟨s, cipher, [.print .noDataToAppend]⟩ := by
  unfold appendKeyVal
  rw [hget]
  rfl

end Operations

end ShieldStore
