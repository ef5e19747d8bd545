import ShieldStore.Refinement

/-!
# Memory the host has written

The host may rewrite the table and the MAC buffers between two requests.  What it
cannot rewrite are the roots, and what it cannot do is find two messages with one
CMAC.  A tag of 16 bytes is not injective on all messages, so that the assumption
is made for the messages that play a part, the ones an entry or a group in memory
has.

The roots commit to a list of records for every group (`Commits`).  If the MACs of
a group pass the check of its root, they are the MACs of the records committed to;
if one of the group's entries passes the check of its own MAC, it is the entry of
the record whose MAC it carries.

## Main definitions

* `messages` — the messages the entries and groups of a store have.
* `Commits` — the records the roots commit to.
* `missed` — a search that finds nothing.

## Main results

* `Commits.groupMacs_eq` — what a root that matches says.
* `Commits.eq_entryWith` — what an entry that matches is.
* `Commits.unique` — the roots commit to one list of records for every group.
* `htGetO_cases`, `getKeyVal_eq_some` — searching and reading any memory.
-/

namespace ShieldStore

open Bytes Counter CMem

/-! ### Messages -/

/-- The message of an entry's MAC, if the layout code builds one. -/
def Entry.message? (e : Entry) : Option (List UInt8) :=
  e.keyVal.bind fun buf => macMessage buf e.keyHash e.keySize e.valSize e.nac

/-- The message of the root of a bucket's group. -/
def rootMessage (arg : Arg) (s : Store) (b : ℕ) : List UInt8 := (groupMacs arg s b).flatMap blockBytes

/-- The messages of the entries and of the groups of a store. -/
def messages (arg : Arg) (s : Store) : List (List UInt8) :=
  s.table.flatten.filterMap Entry.message? ++ (List.range arg.bucketSize).map (rootMessage arg s)

theorem mem_messages_entry {s : Store} {b : ℕ} {e : Entry} {msg : List UInt8} (arg : Arg)
    (he : e ∈ s.chain b) (hmsg : e.message? = some msg) : msg ∈ messages arg s := by
  refine List.mem_append_left _ (List.mem_filterMap.mpr ⟨e, ?_, hmsg⟩)
  unfold Store.chain at he
  cases hb : s.table[b]? with
  | none => rw [hb] at he; cases he
  | some chain =>
    rw [hb] at he
    exact List.mem_flatten.mpr ⟨chain, List.mem_of_getElem? hb, he⟩

theorem mem_messages_root {arg : Arg} {b : ℕ} (hb : b < arg.bucketSize) (s : Store) :
    rootMessage arg s b ∈ messages arg s :=
  List.mem_append_right _ (List.mem_map.mpr ⟨b, List.mem_range.mpr hb, rfl⟩)

theorem message?_entryWith {r : Rec} (hr : r.Fits) (sdk : Sdk) (rest : List UInt8) :
    (r.entryWith sdk rest).message? = some (r.message sdk) := hr.macMessage_entryWith

/-- Different messages of a list have different tags. -/
theorem injOn_of_forall {tag : List UInt8 → Block} {M : List (List UInt8)}
    (h : ∀ m₁ ∈ M, ∀ m₂ ∈ M, tag m₁ = tag m₂ → m₁ = m₂) : Set.InjOn tag {m | m ∈ M} :=
  fun m₁ h₁ m₂ h₂ => h m₁ h₁ m₂ h₂

/-! ### What the roots commit to -/

/-- The roots commit to the records `G` of every group.  A group that had no entry yet
may have a root that is the tag of no message. -/
structure Commits (arg : Arg) (sdk : Sdk) (M : Set (List UInt8)) (G : ℕ → List Rec) (s : Store) :
    Prop where
  fits : ∀ g, ∀ r ∈ G g, r.Fits
  known : ∀ g, ∀ r ∈ G g, r.message sdk ∈ M
  root : ∀ g < arg.treeRootSize,
    (s.root g = rootTag sdk ((G g).map (Rec.mac sdk)) ∧
      ((G g).map (Rec.mac sdk)).flatMap blockBytes ∈ M) ∨ (G g = [] ∧ s.root g ∉ sdk.tag '' M)

section Commits

variable {arg : Arg} {sdk : Sdk} {M : Set (List UInt8)} {G : ℕ → List Rec} {s : Store}
  (h : Commits arg sdk M G s) (hinj : Set.InjOn sdk.tag M)

include h hinj

/-- MACs that pass the check of their root are the ones it commits to. -/
theorem Commits.groupMacs_eq (ha : arg.Valid) {b : ℕ} (hb : b < arg.bucketSize)
    (hM : rootMessage arg s b ∈ M)
    (hroot : rootTag sdk (groupMacs arg s b) = s.root (rootIndex arg b)) :
    groupMacs arg s b = (G (rootIndex arg b)).map (Rec.mac sdk) := by
  rcases h.root _ (ha.rootIndex_lt hb) with ⟨htag, hknown⟩ | ⟨-, hnone⟩
  · rw [htag] at hroot
    exact flatMap_blockBytes_inj (hinj hM hknown hroot)
  · exact absurd ⟨_, hM, hroot⟩ hnone

/-- An entry that passes the check of its MAC, and carries the MAC of a record that is
committed to, is the entry of that record. -/
theorem Commits.eq_entryWith {g : ℕ} {r : Rec} (hr : r ∈ G g) {e : Entry} {msg : List UInt8}
    (hmsg : e.message? = some msg) (hM : msg ∈ M) (htag : sdk.tag msg = e.mac)
    (hmac : e.mac = r.mac sdk) : ∃ rest, e = r.entryWith sdk rest := by
  obtain rfl := hinj hM (h.known g r hr) (htag.trans hmac)
  obtain ⟨buf, hbuf, hmsg⟩ := Option.bind_eq_some_iff.mp hmsg
  exact eq_entryWith_of_message hbuf hmsg hmac

/-- **The roots commit to one list of records for every group.** -/
theorem Commits.unique {G' : ℕ → List Rec} (h' : Commits arg sdk M G' s) {g : ℕ}
    (hg : g < arg.treeRootSize) : G' g = G g := by
  rcases h.root g hg with ⟨hroot, hknown⟩ | ⟨hnil, hnone⟩
  · rcases h'.root g hg with ⟨hroot', hknown'⟩ | ⟨-, hnone'⟩
    · have hmacs := flatMap_blockBytes_inj (hinj hknown' hknown (hroot'.symm.trans hroot))
      -- two records of the lists with one MAC have one message
      have hrecs : ∀ r' ∈ G' g, ∀ r ∈ G g, r'.mac sdk = r.mac sdk → r' = r := by
        intro r' hr' r hr hmac
        exact (h'.fits g r' hr').eq_of_message (h.fits g r hr)
          (hinj (h'.known g r' hr') (h.known g r hr) hmac)
      have hlen : (G' g).length = (G g).length := by simpa using congrArg List.length hmacs
      refine List.ext_getElem hlen fun i hi hi' =>
        hrecs _ (List.getElem_mem hi) _ (List.getElem_mem hi') ?_
      have hmac := congrArg (·[i]?) hmacs
      simpa [hi, hi'] using hmac
    · exact absurd ⟨_, hknown, hroot.symm⟩ hnone'
  · rcases h'.root g hg with ⟨hroot', hknown'⟩ | ⟨hnil', -⟩
    · exact absurd ⟨_, hknown', hroot'.symm⟩ hnone
    · rw [hnil, hnil']

end Commits

/-! ### Searching and reading any memory -/

/-- What a search can return. -/
theorem htGetO_cases {arg : Arg} {sdk : Sdk} {s : Store} (ha : arg.Valid) (hs : s.Shaped arg)
    {key : List UInt8} {keySize : UInt32} {l : Lookup} (h : htGetO arg sdk s key keySize = some l) :
    (l.pair = none ∧ l.kvPos = (s.chain (htHash arg key)).length) ∨
      ∃ pre e post p, s.chain (htHash arg key) = pre ++ e :: post ∧ l.pair = some e ∧
        l.plainKeyVal = some p ∧ l.kvPos = pre.length ∧
        Answers arg sdk key keySize (if arg.keyOpt then keyHashFunc key else 0) e p l.updatedNac := by
  unfold htGetO at h
  simp only [hs.table_getElem? (Arg.Valid.htHash_lt ha.bucket_pos _), Option.bind_eq_bind,
    Option.bind_some] at h
  rcases htGetLoop_cases h with ⟨hnone, hpos⟩ | ⟨pre, e, post, p, hchain, hpair, hplain, hpos, hans⟩
  · exact Or.inl ⟨hnone, by rw [hpos, Nat.zero_add]⟩
  · exact Or.inr ⟨pre, e, post, p, hchain, hpair, hplain, by rw [hpos, Nat.zero_add], hans⟩

/-- A search that finds the entry of a record. -/
theorem Lookup.eq_hit {sdk : Sdk} {l : Lookup} {r : Rec} {rest : List UInt8} {pos : ℕ}
    (hpair : l.pair = some (r.entryWith sdk rest)) (hplain : l.plainKeyVal = some r.plain)
    (hpos : l.kvPos = pos) (hnac : l.updatedNac = r.next) : l = r.hit sdk rest pos := by
  obtain ⟨pair, plain, kvPos, nac⟩ := l
  cases hpair
  cases hplain
  cases hpos
  cases hnac
  rfl

/-- The search for a key misses. -/
def missed (arg : Arg) (sdk : Sdk) (s : Store) (k : List UInt8) : Bool :=
  (htGetO arg sdk s (cstr k) (strSize k)).any fun l => l.pair.isNone

/-- A search that finds nothing stops at the end of the chain. -/
theorem htGetO_of_missed {arg : Arg} {sdk : Sdk} {s : Store} (ha : arg.Valid) (hs : s.Shaped arg)
    {k : List UInt8} (h : missed arg sdk s k = true) :
    ∃ plain nac, htGetO arg sdk s (cstr k) (strSize k) =
      some ⟨none, plain, (s.chain (htHash arg (cstr k))).length, nac⟩ := by
  obtain ⟨⟨pair, plain, pos, nac⟩, hget, hpair⟩ := (Option.any_eq_true _ _).mp h
  rcases htGetO_cases ha hs hget with ⟨hnone, hpos⟩ | ⟨_, _, _, _, _, hsome, _⟩
  · obtain rfl : pair = none := hnone
    obtain rfl : pos = (s.chain (htHash arg (cstr k))).length := hpos
    exact ⟨plain, nac, hget⟩
  · rw [hsome] at hpair
    cases hpair

/-- What a `GET` does with the entry it finds. -/
theorem getKeyVal_eq_some {arg : Arg} {sdk : Sdk} {s : Store} {cipher key : List UInt8}
    {keySize : UInt32} {out : Outcome} (h : getKeyVal arg sdk s cipher key keySize = some out)
    {l : Lookup} (hget : htGetO arg sdk s key keySize = some l) {e : Entry} (hpair : l.pair = some e) :
    ∃ log ret plain reply, verifyEntry sdk e = some log ∧
      enclaveVerifyTreeRoot arg sdk s (htHash arg key) = some ret ∧ l.plainKeyVal = some plain ∧
      replyBuf arg (plain.drop e.keySize.toNat) e.valSize.toNat = some reply ∧
      out = ⟨s, reply, log ++ printUnless ret .treeVerificationFailed⟩ := by
  unfold getKeyVal at h
  simp only [hget, hpair, Option.bind_eq_bind, Option.bind_some, Option.bind_eq_some_iff,
    Option.pure_def, Option.some.injEq] at h
  obtain ⟨log, hlog, ret, hret, plain, hplain, reply, hreply, rfl⟩ := h
  exact ⟨log, ret, plain, reply, hlog, hret, hplain, hreply, rfl⟩

theorem store_of_getKeyVal {arg : Arg} {sdk : Sdk} {s : Store} {cipher key : List UInt8}
    {keySize : UInt32} {out : Outcome} (h : getKeyVal arg sdk s cipher key keySize = some out) :
    out.store = s := by
  obtain ⟨l, hget, -⟩ := Option.bind_eq_some_iff.mp h
  cases hpair : l.pair with
  | none =>
    obtain ⟨pair, plain, pos, nac⟩ := l
    obtain rfl : pair = none := hpair
    rw [← Option.some.inj ((getKeyVal_miss hget cipher).symm.trans h)]
  | some e =>
    obtain ⟨log, ret, plain, reply, -, -, -, -, rfl⟩ := getKeyVal_eq_some h hget hpair
    rfl

/-- A check that prints nothing has succeeded. -/
theorem tag_eq_of_clean {sdk : Sdk} {e : Entry} {log : List Event} (h : verifyEntry sdk e = some log)
    (hclean : Clean log) : ∃ msg, e.message? = some msg ∧ sdk.tag msg = e.mac := by
  obtain ⟨buf, msg, hbuf, hmsg, rfl⟩ := verifyEntry_eq_some h
  refine ⟨msg, Option.bind_eq_some_iff.mpr ⟨buf, hbuf, hmsg⟩, ?_⟩
  by_contra hne
  rw [if_neg hne] at hclean
  exact absurd (hclean _ (List.mem_singleton_self _)) (by simp [Event.isFailure, Msg.isFailure])

theorem eq_success_of_clean {ret : SgxStatus}
    (hclean : Clean (printUnless ret .treeVerificationFailed)) : ret = .success := by
  by_contra hne
  rw [printUnless, if_neg hne] at hclean
  exact absurd (hclean _ (List.mem_singleton_self _)) (by simp [Event.isFailure, Msg.isFailure])

/-! ### Writing any memory -/

/-- What an update writes: the new bytes, in front of what the buffer has to spare. -/
theorem overwrite_eq_some {e e' : Entry} {realloc : Bool} {keyVal : List UInt8} {nac mac : Block}
    {keyLen valLen : UInt32} (h : overwrite e realloc keyVal nac mac keyLen valLen = some e') :
    ∃ rest, e' = { e with
      keyVal := some (keyVal.take (keyLen + valLen).toNat ++ rest), nac, mac, valSize := valLen } := by
  -- in the buffer itself or in a new one, the same copy is made
  have hcopy : ∃ buf buf', memcpy buf 0 keyVal (keyLen + valLen).toNat = some buf' ∧
      e' = { e with keyVal := some buf', nac, mac, valSize := valLen } := by
    unfold overwrite at h
    cases realloc with
    | true =>
      simp only [if_true, Option.bind_eq_bind, Option.bind_eq_some_iff, Option.pure_def,
        Option.some.injEq] at h
      obtain ⟨buf, -, buf', hbuf', rfl⟩ := h
      exact ⟨buf, buf', hbuf', rfl⟩
    | false =>
      simp only [Bool.false_eq_true, if_false, Option.bind_eq_bind, Option.bind_eq_some_iff,
        Option.pure_def, Option.some.injEq] at h
      obtain ⟨buf, -, buf', hbuf', rfl⟩ := h
      exact ⟨buf, buf', hbuf', rfl⟩
  obtain ⟨buf, buf', hbuf', rfl⟩ := hcopy
  obtain ⟨-, rfl⟩ := memcpy_eq_some_iff.mp hbuf'
  refine ⟨buf.drop (keyLen + valLen).toNat, ?_⟩
  rw [List.take_zero, List.nil_append, Nat.zero_add]

theorem mac_overwrite {e e' : Entry} {realloc : Bool} {keyVal : List UInt8} {nac mac : Block}
    {keyLen valLen : UInt32} (h : overwrite e realloc keyVal nac mac keyLen valLen = some e') :
    e'.mac = mac := by
  obtain ⟨rest, rfl⟩ := overwrite_eq_some h
  rfl

/-- The entry `e'` replaces `e`: its plaintext is `plain`, encrypted from the counter
block `nac`. -/
def Rewrites (sdk : Sdk) (plain : List UInt8) (keyIdx : UInt8) (keyLen valLen : UInt32) (nac : Block)
    (realloc : Bool) (e e' : Entry) : Prop :=
  ∃ keyVal mac, enclaveEncrypt sdk plain keyIdx keyLen valLen nac = some (keyVal, mac) ∧
    overwrite e realloc keyVal nac mac keyLen valLen = some e'

/-- A `SET` that inserts has written its MAC into a slot of the bucket's buffer. -/
theorem lt_macSlots_of_insert {arg : Arg} {sdk : Sdk} {s : Store} {key val : List UInt8}
    {keySize valSize : UInt32} {rand : Block} {out : Outcome} (ha : arg.Valid) (hs : s.Shaped arg)
    (hmac : arg.macOpt = true) {l : Lookup} (hget : htGetO arg sdk s key keySize = some l)
    (hpair : l.pair = none) (h : setKeyVal arg sdk s rand key keySize val valSize = some out) :
    l.kvPos < macSlots := by
  have hb : htHash arg key < arg.bucketSize := Arg.Valid.htHash_lt ha.bucket_pos _
  unfold setKeyVal at h
  simp only [hget, hpair, Option.bind_eq_bind, Option.bind_some, Option.bind_eq_some_iff] at h
  obtain ⟨log, -, kv₁, -, kv₂, -, ⟨kv, mac⟩, -, s₁, hset, -⟩ := h
  unfold htSetO at hset
  simp only [hs.table_getElem? hb, hmac, if_true, hs.macbuf_getElem? hb, MacEntry.write,
    sizeT_natCast, Option.bind_eq_bind, Option.bind_some, Option.bind_eq_some_iff] at hset
  obtain ⟨newpair, -, e, hwrite, -⟩ := hset
  by_contra hfull
  rw [if_neg hfull] at hwrite
  cases hwrite

/-- A `SET` that inserts has found a slot for its MAC. -/
theorem Stocked.length_lt_of_set {arg : Arg} {sdk : Sdk} {R : Recs} {s : Store} (ha : arg.Valid)
    (h : Stocked arg sdk R s) (hmac : arg.macOpt = true) {k val : List UInt8}
    (hk : k.length + 5 ≤ arg.maxBufSize) (habs : k ∉ (R (htHash arg (cstr k))).map Rec.key)
    {valSize : UInt32} {rand : Block} {out : Outcome}
    (hout : setKeyVal arg sdk s rand (cstr k) (strSize k) val valSize = some out) :
    (R (htHash arg (cstr k))).length < macSlots := by
  have hbuf := ha.buf_lt
  rw [← (h.chain _).length_eq]
  exact lt_macSlots_of_insert ha h.shaped hmac (h.htGetO_absent ha (by omega) habs) rfl hout

section AnyMemory

variable {arg : Arg} {sdk : Sdk} {s : Store} {key : List UInt8} {b : ℕ} (ha : arg.Valid)
  (hs : s.Shaped arg) (hz : BufsSized arg s) (hb : htHash arg key = b) {keySize : UInt32}
  {l : Lookup} (hget : htGetO arg sdk s key keySize = some l) {pre post : List Entry} {e : Entry}
  (hpair : l.pair = some e) (hpos : l.kvPos = pre.length) (hchain : s.chain b = pre ++ e :: post)
  {val : List UInt8} {valSize : UInt32} {out : Outcome}

include ha hs hz hb hget hpair hpos hchain

/-- What a `SET` does with the entry it finds. -/
theorem setKeyVal_eq_some_iff {rand : Block} :
    setKeyVal arg sdk s rand key keySize val valSize = some out ↔
    ∃ kv plain e' cipher log, verifyEntry sdk e = some log ∧
      (memcpy (malloc (keySize + valSize).toNat) 0 key keySize.toNat = some kv ∧
        memcpy kv keySize.toNat val valSize.toNat = some plain ∧
        Rewrites sdk plain (keyHashFunc key) keySize valSize l.updatedNac (e.valSize != valSize) e e' ∧
        replyBuf arg key keySize.toNat = some cipher) ∧
      out = commitUpdate arg sdk s b pre post e e' (slot arg (s.chain b).length pre.length) cipher
        log := by
  have hlt : b < arg.bucketSize := hb ▸ Arg.Valid.htHash_lt ha.bucket_pos _
  -- the end of the request, whatever the entry has become
  have hcommit := fun e' cipher log => rebuild_update ha hs (hz.group ha hlt) sdk e' hlt hchain
    (show arg.macOpt = false → slot arg (s.chain b).length pre.length = pre.length from
      fun hopt => by simp [slot, hopt]) cipher log
  unfold setKeyVal
  simp only [hget, hpair, hpos, hb, Option.bind_eq_bind, Option.bind_some, Option.pure_def,
    Option.isSome_some, if_true, Option.map_some, Option.getD_some, Option.isNone_some]
  constructor
  · intro h
    simp only [Option.bind_eq_some_iff] at h
    obtain ⟨log, hlog, kv₁, hkv₁, kv₂, hkv₂, ⟨kv, mac⟩, henc, s₁, hset, ⟨ret, s₂, log'⟩, hrebuild,
      cipher, hcipher, hout⟩ := h
    cases hover : overwrite e (e.valSize != valSize) kv l.updatedNac mac keySize valSize with
    | none =>
      unfold htSetO at hset
      simp [hb, hs.table_getElem? hlt, hover] at hset
    | some e' =>
      rw [htSetO_update hs hlt hb (hz.bucket hlt) hchain hover, Option.some.injEq,
        ← mac_overwrite hover] at hset
      subst hset
      have hcommit := hcommit e' cipher log
      rw [hrebuild, Option.bind_some] at hcommit
      refine ⟨kv₁, kv₂, e', cipher, log, hlog, ⟨hkv₁, hkv₂, ⟨kv, mac, henc, hover⟩, hcipher⟩, ?_⟩
      rw [← Option.some.inj hcommit, ← Option.some.inj hout]
  · rintro ⟨kv₁, kv₂, e', cipher, log, hlog, ⟨hkv₁, hkv₂, ⟨kv, mac, henc, hover⟩, hcipher⟩, rfl⟩
    have hset := htSetO_update hs hlt hb (hz.bucket hlt) hchain hover
    rw [← mac_overwrite hover] at hset henc
    simp only [hlog, hkv₁, hkv₂, henc, hset, hcipher, Option.bind_some]
    exact hcommit e' cipher log

/-- What an `APP` does with the entry it finds. -/
theorem appendKeyVal_eq_some_iff {cipher : List UInt8} :
    appendKeyVal arg sdk s cipher key keySize val valSize = some out ↔
    ∃ plain kv kv' e' cipher log, verifyEntry sdk e = some log ∧
      (l.plainKeyVal = some plain ∧
        memcpy (malloc (e.keySize + e.valSize + valSize - 1).toNat) 0 plain
          (e.keySize + e.valSize).toNat = some kv ∧
        memcpy kv (e.keySize.toNat + e.valSize.toNat - 1) val valSize.toNat = some kv' ∧
        Rewrites sdk kv' (keyHashFunc key) keySize (e.valSize + valSize - 1) l.updatedNac true e e' ∧
        replyBuf arg key keySize.toNat = some cipher) ∧
      out = commitUpdate arg sdk s b pre post e e' pre.length cipher log := by
  have hlt : b < arg.bucketSize := hb ▸ Arg.Valid.htHash_lt ha.bucket_pos _
  have hcommit := fun e' cipher log => rebuild_update ha hs (hz.group ha hlt) sdk e' hlt hchain
    (show arg.macOpt = false → pre.length = pre.length from fun _ => rfl) cipher log
  unfold appendKeyVal
  simp only [hget, hpair, hpos, hb, Option.bind_eq_bind, Option.bind_some, Option.pure_def]
  constructor
  · intro h
    simp only [Option.bind_eq_some_iff] at h
    obtain ⟨log, hlog, plain, hplain, kv₁, hkv₁, kv₂, hkv₂, ⟨kv, mac⟩, henc, ⟨s₁, log₁⟩, hset,
      ⟨ret, s₂, log'⟩, hrebuild, cipher, hcipher, hout⟩ := h
    cases hover : overwrite e true kv l.updatedNac mac keySize (e.valSize + valSize - 1) with
    | none =>
      unfold htAppendO at hset
      simp [hb, hs.table_getElem? hlt, hover] at hset
    | some e' =>
      rw [htAppendO_update hs hlt hb (hz.bucket hlt) hchain hover, Option.some.injEq,
        ← mac_overwrite hover] at hset
      obtain ⟨rfl, rfl⟩ := Prod.mk.inj hset
      have hcommit := hcommit e' cipher log
      rw [hrebuild, Option.bind_some] at hcommit
      refine ⟨plain, kv₁, kv₂, e', cipher, log, hlog,
        ⟨hplain, hkv₁, hkv₂, ⟨kv, mac, henc, hover⟩, hcipher⟩, ?_⟩
      rw [← Option.some.inj hcommit, ← Option.some.inj hout, List.append_nil]
  · rintro ⟨plain, kv₁, kv₂, e', cipher, log, hlog,
      ⟨hplain, hkv₁, hkv₂, ⟨kv, mac, henc, hover⟩, hcipher⟩, rfl⟩
    have hset := htAppendO_update hs hlt hb (hz.bucket hlt) hchain hover
    rw [← mac_overwrite hover] at hset henc
    simp only [hlog, hplain, hkv₁, hkv₂, henc, hset, hcipher, Option.bind_some, List.append_nil]
    exact hcommit e' cipher log

end AnyMemory

/-- An end of a write that prints no failure is one in which the root was replaced. -/
theorem commit_of_clean {sdk : Sdk} {s : Store} {g : ℕ} {before after : List Block}
    {cipher : List UInt8} {log : List Event}
    (h : Clean (commit sdk s g before after cipher log).log) :
    Clean log ∧ (before = [] ∨ rootTag sdk before = s.root g) ∧
      commit sdk s g before after cipher log = ⟨s.setRoot g (rootTag sdk after), cipher, log⟩ := by
  unfold commit at h ⊢
  split
  · next hok =>
    rw [if_pos hok] at h
    exact ⟨h, hok, rfl⟩
  · next hok =>
    rw [if_neg hok] at h
    exact absurd (h (.print .previousMacCompareFailed) (by simp)) (by simp [Event.isFailure,
      Msg.isFailure])

theorem clean_commit_iff {sdk : Sdk} {s : Store} {g : ℕ} {before after : List Block}
    {cipher : List UInt8} {log : List Event} :
    Clean (commit sdk s g before after cipher log).log ↔
      Clean log ∧ (before = [] ∨ rootTag sdk before = s.root g) := by
  constructor
  · intro h
    exact ⟨(commit_of_clean h).1, (commit_of_clean h).2.1⟩
  · rintro ⟨hlog, hok⟩
    unfold commit
    rw [if_pos hok]
    exact hlog

end ShieldStore
