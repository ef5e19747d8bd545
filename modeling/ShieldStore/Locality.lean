import ShieldStore.Geometry
import ShieldStore.Request
import ShieldStore.Lib.Interleave

/-!
# What a request reads and writes

A request reads and writes one group: the chains and the MAC buffers of the buckets
that share a root with the bucket of its key, and that root.  Nothing is assumed of
the memory here.

## Main definitions

* `Agree` — two stores have the same group.
* `replyStep` — a request as a step, with the reply and what is printed.

## Main results

* `local_replyStep` — requests are local to the groups of their keys.
-/

namespace ShieldStore

open Bytes Counter CMem Run Lists

/-! ### Groups of a store -/

/-- Two stores have the same chains, MAC buffers and root in group `g`. -/
structure Agree (arg : Arg) (g : ℕ) (s t : Store) : Prop where
  table : ∀ b, rootIndex arg b = g → s.table[b]? = t.table[b]?
  macbuf : ∀ b, rootIndex arg b = g → s.macbuf[b]? = t.macbuf[b]?
  macTable : s.macTable[g]? = t.macTable[g]?

theorem equivalence_agree (arg : Arg) (g : ℕ) : Equivalence (Agree arg g) where
  refl _ := ⟨fun _ _ => rfl, fun _ _ => rfl, rfl⟩
  symm h := ⟨fun b hb => (h.table b hb).symm, fun b hb => (h.macbuf b hb).symm, h.macTable.symm⟩
  trans h h' := ⟨fun b hb => (h.table b hb).trans (h'.table b hb),
    fun b hb => (h.macbuf b hb).trans (h'.macbuf b hb), h.macTable.trans h'.macTable⟩

theorem eq_of_forall_agree {arg : Arg} {s t : Store} (h : ∀ g, Agree arg g s t) : s = t := by
  obtain ⟨table, macbuf, macTable⟩ := s
  obtain ⟨table', macbuf', macTable'⟩ := t
  obtain rfl : table = table' := List.ext_getElem? fun b => (h _).table b rfl
  obtain rfl : macbuf = macbuf' := List.ext_getElem? fun b => (h _).macbuf b rfl
  obtain rfl : macTable = macTable' := List.ext_getElem? fun g => (h g).macTable
  rfl

/-! ### Reading a group -/

section Reading

variable {arg : Arg} {s t : Store} {b : ℕ} (ha : arg.Valid) (h : Agree arg (rootIndex arg b) s t)

include h

theorem Agree.htGetO_eq {key : List UInt8} (hb : htHash arg key = b) (sdk : Sdk) (keySize : UInt32) :
    htGetO arg sdk t key keySize = htGetO arg sdk s key keySize := by
  simp only [htGetO, hb, h.table b rfl]

include ha

theorem Agree.groupChains_eq : groupChains arg t b = groupChains arg s b :=
  mapM_congr fun i hi => (h.table i (ha.mem_groupRange_iff.mp hi)).symm

theorem Agree.groupMacBufs_eq : groupMacBufs arg t b = groupMacBufs arg s b :=
  mapM_congr fun i hi => (h.macbuf i (ha.mem_groupRange_iff.mp hi)).symm

theorem Agree.aggregateMac_eq : aggregateMac arg t b = aggregateMac arg s b := by
  unfold aggregateMac
  rw [h.groupChains_eq ha, h.groupMacBufs_eq ha]

theorem Agree.updatedIdx_eq (kvPos : ℕ) (isInsert : Bool) :
    updatedIdx arg t b kvPos isInsert = updatedIdx arg s b kvPos isInsert := by
  unfold updatedIdx
  rw [h.groupChains_eq ha, h.groupMacBufs_eq ha]

theorem Agree.enclaveVerifyTreeRoot_eq (sdk : Sdk) :
    enclaveVerifyTreeRoot arg sdk t b = enclaveVerifyTreeRoot arg sdk s b := by
  unfold enclaveVerifyTreeRoot getChainMac
  rw [h.aggregateMac_eq ha, h.macTable]

end Reading

/-! ### Writing a bucket -/

/-- A write of one bucket: its chain is changed by `f` and, with MAC bucketing, its MAC
buffer by `w`. -/
def updateBucket (arg : Arg) (s : Store) (b : ℕ) (f : List Entry → Option (List Entry))
    (w : MacEntry → Option MacEntry) : Option Store := do
  let chain ← s.table[b]?
  let chain ← f chain
  let s := { s with table := s.table.set b chain }
  if arg.macOpt then
    let e ← s.macbuf[b]?
    let e ← w e
    return { s with macbuf := s.macbuf.set b e }
  else return s

/-- `ht_set_o` writes one bucket. -/
theorem htSetO_eq_updateBucket (arg : Arg) (s : Store) (updatedEntry : Option Entry)
    (key keyVal : List UInt8) (nac mac : Block) (keyLen valLen : UInt32) (kvPos : ℕ) :
    htSetO arg s updatedEntry key keyVal nac mac keyLen valLen kvPos =
      updateBucket arg s (htHash arg key)
        (fun chain => match updatedEntry with
          | some entry => (overwrite entry (entry.valSize != valLen) keyVal nac mac keyLen valLen).map
              (chain.set kvPos)
          | none => (htNewpair keyLen valLen (keyHashFunc key) keyVal nac mac).map (· :: chain))
        (fun e => match updatedEntry with
          | some _ => e.write (e.size - kvPos - 1) mac
          | none => { e with size := e.size + 1 }.write kvPos mac) := by
  unfold htSetO updateBucket
  cases updatedEntry with
  | none => simp only [Option.bind_eq_bind, Option.bind_map, Function.comp_def]
  | some entry => simp only [Option.bind_eq_bind, Option.bind_map, Function.comp_def]

/-- `ht_append_o` writes one bucket. -/
theorem htAppendO_eq_updateBucket (arg : Arg) (s : Store) (entry : Entry)
    (key keyVal : List UInt8) (nac mac : Block) (keyLen valLen : UInt32) (kvPos : ℕ) :
    htAppendO arg s (some entry) key keyVal nac mac keyLen valLen kvPos =
      (updateBucket arg s (htHash arg key)
        (fun chain => (overwrite entry true keyVal nac mac keyLen valLen).map (chain.set kvPos))
        (fun e => e.write kvPos mac)).map (·, []) := by
  unfold htAppendO updateBucket
  simp only [Option.bind_eq_bind, Option.bind_map, Option.map_bind, Function.comp_def]
  refine Option.bind_congr fun chain _ => Option.bind_congr fun e _ => ?_
  cases arg.macOpt with
  | false => rfl
  | true => simp [Option.map_bind]

section Writing

variable {arg : Arg} {b : ℕ} {f : List Entry → Option (List Entry)}
  {w : MacEntry → Option MacEntry}

theorem updateBucket_eq_some {s s' : Store} (h : updateBucket arg s b f w = some s') :
    ∃ table macbuf, s' = { s with table := s.table.set b table, macbuf := macbuf } ∧
      ∀ i, i ≠ b → macbuf[i]? = s.macbuf[i]? := by
  unfold updateBucket at h
  simp only [Option.bind_eq_bind, Option.bind_eq_some_iff] at h
  obtain ⟨chain, -, chain', -, h⟩ := h
  cases hopt : arg.macOpt with
  | false =>
    rw [hopt] at h
    exact ⟨chain', s.macbuf, (Option.some.inj h).symm, fun _ _ => rfl⟩
  | true =>
    simp only [hopt, if_true, Option.bind_eq_some_iff, Option.pure_def, Option.some.injEq] at h
    obtain ⟨e, -, e', -, rfl⟩ := h
    exact ⟨chain', s.macbuf.set b e', rfl, fun i hi => List.getElem?_set_ne hi.symm⟩

/-- A write of a bucket leaves the other groups alone. -/
theorem agree_updateBucket {s s' : Store} (h : updateBucket arg s b f w = some s') {g : ℕ}
    (hg : g ≠ rootIndex arg b) : Agree arg g s s' := by
  obtain ⟨table, macbuf, rfl, hbuf⟩ := updateBucket_eq_some h
  have hne : ∀ i, rootIndex arg i = g → i ≠ b := by
    rintro i hi rfl
    exact hg hi.symm
  exact ⟨fun i hi => (List.getElem?_set_ne (hne i hi).symm).symm, fun i hi => (hbuf i (hne i hi)).symm,
    rfl⟩

/-- A write of a bucket reads its group only. -/
theorem Agree.updateBucket {s t s' : Store} (h : Agree arg (rootIndex arg b) s t)
    (hs : updateBucket arg s b f w = some s') :
    ∃ t', ShieldStore.updateBucket arg t b f w = some t' ∧ Agree arg (rootIndex arg b) s' t' := by
  unfold ShieldStore.updateBucket at hs ⊢
  simp only [Option.bind_eq_bind, Option.bind_eq_some_iff] at hs
  obtain ⟨chain, hchain, chain', hf, hs⟩ := hs
  simp only [← h.table b rfl, hchain, hf, ← h.macbuf b rfl, Option.bind_eq_bind, Option.bind_some]
  -- the bucket is equal in both before, and set to one chain
  have htable : ∀ i, rootIndex arg i = rootIndex arg b →
      (s.table.set b chain')[i]? = (t.table.set b chain')[i]? :=
    fun i hi => getElem?_set_congr (h.table b rfl) (h.table i hi) chain'
  cases hopt : arg.macOpt with
  | false =>
    rw [hopt] at hs
    rw [← Option.some.inj hs]
    exact ⟨_, rfl, htable, h.macbuf, h.macTable⟩
  | true =>
    simp only [hopt, if_true, Option.bind_eq_some_iff, Option.pure_def, Option.some.injEq] at hs
    obtain ⟨e, he, e', hw, rfl⟩ := hs
    simp only [he, hw, if_true, Option.bind_some]
    exact ⟨_, rfl, htable,
      fun i hi => getElem?_set_congr (h.macbuf b rfl) (h.macbuf i hi) e', h.macTable⟩

end Writing

/-! ### Writing a root -/

section Roots

variable {arg : Arg} {sdk : Sdk} {b kvPos : ℕ} {isInsert : Bool} {prevMac : Block}

/-- `enclave_rebuild_tree_root` leaves the other groups alone. -/
theorem agree_rebuild {s s' : Store} {ret : SgxStatus} {log : List Event}
    (h : enclaveRebuildTreeRoot arg sdk s b kvPos isInsert prevMac = some (ret, s', log)) {g : ℕ}
    (hg : g ≠ rootIndex arg b) : Agree arg g s s' := by
  -- the root of another group is not at this index
  have hset : ∀ x, Agree arg g s { s with macTable := s.macTable.set (rootIndex arg b) x } :=
    fun x => ⟨fun _ _ => rfl, fun _ _ => rfl, (List.getElem?_set_ne hg.symm).symm⟩
  unfold enclaveRebuildTreeRoot at h
  simp only [Option.bind_eq_bind, Option.bind_eq_some_iff] at h
  obtain ⟨agg, -, idx, -, prev, -, root, -, h⟩ := h
  cases prev with
  | none =>
    obtain ⟨-, rfl, -⟩ := by simpa only [Option.pure_def, Option.some.injEq, Prod.mk.injEq] using h
    exact hset _
  | some prev =>
    dsimp only at h
    split at h
    · obtain ⟨-, rfl, -⟩ := by simpa only [Option.pure_def, Option.some.injEq, Prod.mk.injEq] using h
      exact hset _
    · obtain ⟨-, rfl, -⟩ := by simpa only [Option.pure_def, Option.some.injEq, Prod.mk.injEq] using h
      exact (equivalence_agree arg g).refl _

/-- `enclave_rebuild_tree_root` reads its group only. -/
theorem Agree.rebuild (ha : arg.Valid) {s t s' : Store} (h : Agree arg (rootIndex arg b) s t)
    {ret : SgxStatus} {log : List Event}
    (hs : enclaveRebuildTreeRoot arg sdk s b kvPos isInsert prevMac = some (ret, s', log)) :
    ∃ t', enclaveRebuildTreeRoot arg sdk t b kvPos isInsert prevMac = some (ret, t', log) ∧
      Agree arg (rootIndex arg b) s' t' := by
  have hset : ∀ x, Agree arg (rootIndex arg b)
      { s with macTable := s.macTable.set (rootIndex arg b) x }
      { t with macTable := t.macTable.set (rootIndex arg b) x } :=
    fun x => ⟨h.table, h.macbuf, getElem?_set_congr h.macTable h.macTable x⟩
  unfold enclaveRebuildTreeRoot at hs ⊢
  rw [h.aggregateMac_eq ha, h.updatedIdx_eq ha, ← h.macTable]
  simp only [Option.bind_eq_bind, Option.bind_eq_some_iff] at hs
  obtain ⟨agg, hagg, idx, hidx, prev, hprev, root, hroot, hs⟩ := hs
  simp only [hagg, hidx, hprev, hroot, Option.bind_eq_bind, Option.bind_some]
  -- the root is written if there was nothing to check or the check passed
  cases prev with
  | none =>
    obtain ⟨rfl, rfl, rfl⟩ := by
      simpa only [Option.pure_def, Option.some.injEq, Prod.mk.injEq] using hs
    exact ⟨_, rfl, hset _⟩
  | some prev =>
    dsimp only at hs ⊢
    split at hs
    · next hok =>
      obtain ⟨rfl, rfl, rfl⟩ := by
        simpa only [Option.pure_def, Option.some.injEq, Prod.mk.injEq] using hs
      rw [if_pos hok]
      exact ⟨_, rfl, hset _⟩
    · next hok =>
      obtain ⟨rfl, rfl, rfl⟩ := by
        simpa only [Option.pure_def, Option.some.injEq, Prod.mk.injEq] using hs
      rw [if_neg hok]
      exact ⟨_, rfl, h⟩

end Roots

/-! ### Operations -/

/-- An operation on the store that reads and writes group `g` only. -/
structure LocalOp (arg : Arg) (g : ℕ) (f : Store → Option Outcome) : Prop where
  reads : ∀ s t out, Agree arg g s t → f s = some out → ∃ out', f t = some out' ∧
    out'.cipher = out.cipher ∧ out'.log = out.log ∧ Agree arg g out.store out'.store
  writes : ∀ s out, f s = some out → ∀ i, i ≠ g → Agree arg i s out.store

section LocalOp

variable {arg : Arg} {g : ℕ}

/-- An operation that goes on after reading the group. -/
theorem LocalOp.read {α : Type*} {R : Store → Option α} {F : α → Store → Option Outcome}
    (hR : ∀ s t, Agree arg g s t → R t = R s) (hF : ∀ a, LocalOp arg g (F a)) :
    LocalOp arg g fun s => (R s).bind fun a => F a s := by
  constructor
  · intro s t out hst hs
    obtain ⟨a, ha, hs⟩ := Option.bind_eq_some_iff.mp hs
    obtain ⟨out', ht, hout⟩ := (hF a).reads s t out hst hs
    exact ⟨out', Option.bind_eq_some_iff.mpr ⟨a, (hR s t hst).trans ha, ht⟩, hout⟩
  · intro s out hs
    obtain ⟨a, -, hs⟩ := Option.bind_eq_some_iff.mp hs
    exact (hF a).writes s out hs

/-- An operation that goes on after a computation on something else. -/
theorem LocalOp.const {α : Type*} {x : Option α} {F : α → Store → Option Outcome}
    (hF : ∀ a, LocalOp arg g (F a)) : LocalOp arg g fun s => x.bind fun a => F a s :=
  .read (fun _ _ _ => rfl) hF

/-- An operation that ends without a write. -/
theorem LocalOp.ret (cipher : List UInt8) (log : List Event) :
    LocalOp arg g fun s => some ⟨s, cipher, log⟩ := by
  constructor
  · rintro s t out hst ⟨⟩
    exact ⟨_, rfl, rfl, rfl, hst⟩
  · rintro s out ⟨⟩ i _
    exact (equivalence_agree arg i).refl s

/-- An operation that ends with a write: of a bucket, and then of the root. -/
theorem LocalOp.write (ha : arg.Valid) (sdk : Sdk) (b : ℕ) (f : List Entry → Option (List Entry))
    (w : MacEntry → Option MacEntry) (kvPos : ℕ) (isInsert : Bool) (prevMac : Block)
    (cipher : Option (List UInt8)) (log : SgxStatus → List Event → List Event) :
    LocalOp arg (rootIndex arg b) fun s => (updateBucket arg s b f w).bind fun s =>
      (enclaveRebuildTreeRoot arg sdk s b kvPos isInsert prevMac).bind fun r =>
        cipher.bind fun cipher => some ⟨r.2.1, cipher, log r.1 r.2.2⟩ := by
  constructor
  · intro s t out hst hs
    obtain ⟨s₁, hs₁, hs⟩ := Option.bind_eq_some_iff.mp hs
    obtain ⟨⟨ret, s₂, log'⟩, hs₂, hs⟩ := Option.bind_eq_some_iff.mp hs
    obtain ⟨c, rfl, hs⟩ := Option.bind_eq_some_iff.mp hs
    obtain ⟨t₁, ht₁, hst₁⟩ := hst.updateBucket hs₁
    obtain ⟨t₂, ht₂, hst₂⟩ := hst₁.rebuild ha hs₂
    refine ⟨⟨t₂, c, log ret log'⟩, ?_, ?_⟩
    · simp only [ht₁, ht₂, Option.bind_some]
    · rw [← Option.some.inj hs]
      exact ⟨rfl, rfl, hst₂⟩
  -- neither of the writes touches another group
  · intro s out hs i hi
    obtain ⟨s₁, hs₁, hs⟩ := Option.bind_eq_some_iff.mp hs
    obtain ⟨⟨ret, s₂, log'⟩, hs₂, hs⟩ := Option.bind_eq_some_iff.mp hs
    obtain ⟨c, -, hs⟩ := Option.bind_eq_some_iff.mp hs
    rw [← Option.some.inj hs]
    exact (equivalence_agree arg i).trans (agree_updateBucket hs₁ hi) (agree_rebuild hs₂ hi)

variable (ha : arg.Valid) (sdk : Sdk) (key : List UInt8) (keySize : UInt32)

include ha

theorem localOp_getKeyVal (cipher : List UInt8) :
    LocalOp arg (rootIndex arg (htHash arg key)) fun s => getKeyVal arg sdk s cipher key keySize := by
  unfold getKeyVal
  refine .read (fun s t h => h.htGetO_eq rfl sdk keySize) fun l => ?_
  obtain ⟨pair, plain, pos, nac⟩ := l
  cases pair with
  | none => exact .ret _ _
  | some e =>
    refine .const fun log => .read (fun s t h => h.enclaveVerifyTreeRoot_eq ha sdk) fun ret => ?_
    exact .const fun plain => .const fun cipher => .ret _ _

theorem localOp_setKeyVal (rand : Block) (val : List UInt8) (valSize : UInt32) :
    LocalOp arg (rootIndex arg (htHash arg key)) fun s =>
      setKeyVal arg sdk s rand key keySize val valSize := by
  unfold setKeyVal
  refine .read (fun s t h => h.htGetO_eq rfl sdk keySize) fun l => ?_
  obtain ⟨pair, plain, pos, nac⟩ := l
  simp only [htSetO_eq_updateBucket]
  cases pair with
  | none =>
    refine .const fun log => .const fun kv₁ => .const fun kv₂ => .const fun enc => ?_
    exact .write ha sdk _ _ _ _ _ _ _
      fun ret rlog => log ++ rlog ++ printUnless ret .treeVerificationFailed
  | some e =>
    refine .const fun log => .const fun kv₁ => .const fun kv₂ => .const fun enc => ?_
    exact .write ha sdk _ _ _ _ _ _ _
      fun ret rlog => log ++ rlog ++ printUnless ret .treeVerificationFailed

theorem localOp_appendKeyVal (cipher val : List UInt8) (valSize : UInt32) :
    LocalOp arg (rootIndex arg (htHash arg key)) fun s =>
      appendKeyVal arg sdk s cipher key keySize val valSize := by
  unfold appendKeyVal
  refine .read (fun s t h => h.htGetO_eq rfl sdk keySize) fun l => ?_
  obtain ⟨pair, plain, pos, nac⟩ := l
  cases pair with
  | none => exact .ret _ _
  | some e =>
    simp only [htAppendO_eq_updateBucket, Option.bind_eq_bind, Option.bind_map, Function.comp_def]
    refine .const fun log => .const fun p => .const fun kv₁ => .const fun kv₂ => .const fun enc => ?_
    exact .write ha sdk _ _ _ _ _ _ _
      fun ret rlog => log ++ [] ++ rlog ++ printUnless ret .treeVerificationFailed

end LocalOp

/-! ### Requests -/

/-- A request as a step, with the reply and what is printed. -/
def replyStep (arg : Arg) (sdk : Sdk) (s : Store) (q : Req) :
    Option (Store × List UInt8 × List Event) :=
  (serve arg sdk s q).map fun out => (out.store, out.cipher, out.log)

theorem localOp_serve {arg : Arg} (ha : arg.Valid) (sdk : Sdk) {q : Req} (hq : q.WellFormed arg) :
    LocalOp arg (keyGroup arg q.op.key) fun s => serve arg sdk s q := by
  simp only [serve_eq sdk ha hq]
  obtain ⟨op, lower, rand⟩ := q
  cases op with
  | get k => exact localOp_getKeyVal ha sdk (cstr k) (strSize k) _
  | set k v => exact localOp_setKeyVal ha sdk (cstr k) (strSize k) rand (cstr v) (strSize v)
  | append k w => exact localOp_appendKeyVal ha sdk (cstr k) (strSize k) _ (cstr w) (strSize w)

/-- **Requests are local** to the groups of their keys. -/
theorem local_replyStep {arg : Arg} (ha : arg.Valid) (sdk : Sdk) :
    Local (replyStep arg sdk) (Agree arg) (fun q => keyGroup arg q.op.key)
      (fun q => q.WellFormed arg) where
  equiv := equivalence_agree arg
  ext := eq_of_forall_agree
  reads := by
    intro q s t s' o hq hst hs
    obtain ⟨out, hout, heq⟩ := Option.map_eq_some_iff.mp hs
    obtain ⟨rfl, rfl⟩ := Prod.mk.inj heq
    obtain ⟨out', hout', hcipher, hlog, hst'⟩ := (localOp_serve ha sdk hq).reads s t out hst hout
    refine ⟨out'.store, ?_, hst'⟩
    rw [replyStep, hout', Option.map_some, hcipher, hlog]
  writes := by
    intro q s s' o g hq hs hg
    obtain ⟨out, hout, heq⟩ := Option.map_eq_some_iff.mp hs
    obtain ⟨rfl, -⟩ := Prod.mk.inj heq
    exact (localOp_serve ha sdk hq).writes s out hout g hg

end ShieldStore
