import ShieldStore.Tamper

/-!
# The list before a `SET`

`enclave_rebuild_tree_root` runs after `ht_set_o` has changed the table.  To check the
root it takes the change back in its own copy of the group's MACs: of an insert it
leaves the new MAC out, of an update it puts the old one in its place.  Where the MAC
stands is computed from the position in the chain, by one formula for each of insert
and update, chains and MAC buffers.

## Main definitions

* `Mirrored` — the MAC buffers of a group hold the MACs of their chains.
* `Targets` — the entry a `SET` writes, and its position.
* `Reconstructs` — what `enclave_rebuild_tree_root` makes of a write.

## Main results

* `htSetO_groupMacs` — the MACs of the group after `ht_set_o`, and how the change is taken
  back.
* `rebuild_reconstructs` — the list that is checked is the one before the `SET`.
-/

namespace ShieldStore

open Bytes Counter CMem

/-- With MAC bucketing, the buffers of the group of `b` hold the MACs of their chains in
reverse order, and none of them is full. -/
def Mirrored (arg : Arg) (s : Store) (b : ℕ) : Prop :=
  arg.macOpt = true → ∀ i ∈ groupRange arg b,
    (s.buf i).size = (s.chain i).length ∧ (s.chain i).length < macSlots ∧
      (s.buf i).macs = ((s.chain i).map (·.mac)).reverse

/-- What a `SET` writes: the entry at a position of the chain, or a new one, whose
position is the length of the chain. -/
def Targets (s : Store) (b : ℕ) (pair : Option Entry) (pos : ℕ) : Prop :=
  match pair with
  | some e => (s.chain b)[pos]? = some e
  | none => pos = (s.chain b).length

section Mirrored

variable {arg : Arg} {s : Store} {b : ℕ} (h : Mirrored arg s b)

include h

theorem Mirrored.sized : GroupSized arg s b :=
  fun i hi hopt => ⟨(h hopt i hi).1, (h hopt i hi).2.1.le⟩

theorem Mirrored.bucketMacs_eq (ha : arg.Valid) :
    bucketMacs arg s b = ordered arg ((s.chain b).map (·.mac)) := by
  unfold bucketMacs macsOf ordered
  split
  · next hopt => exact (h hopt b (ha.mem_groupRange_iff.mpr rfl)).2.2
  · rfl

end Mirrored

section Set

variable {arg : Arg} {s s₁ : Store} {key keyVal : List UInt8} {nac mac : Block}
  {keyLen valLen : UInt32} {pos : ℕ} (ha : arg.Valid) (hs : s.Shaped arg)

include ha hs

/-- What an insert leaves. -/
theorem htSetO_none_eq_some (hroom : arg.macOpt = true → pos < macSlots)
    (h : htSetO arg s none key keyVal nac mac keyLen valLen pos = some s₁) :
    ∃ e, e.mac = mac ∧ s₁ = s.write (htHash arg key) (e :: s.chain (htHash arg key))
      (pushBuf arg (s.buf (htHash arg key)) pos mac) := by
  have hb : htHash arg key < arg.bucketSize := Arg.Valid.htHash_lt ha.bucket_pos _
  cases hnew : htNewpair keyLen valLen (keyHashFunc key) keyVal nac mac with
  | none =>
    unfold htSetO at h
    simp [hs.table_getElem? hb, hnew] at h
  | some e =>
    refine ⟨e, ?_, ?_⟩
    · unfold htNewpair at hnew
      simp only [Option.bind_eq_bind, Option.bind_eq_some_iff, Option.pure_def,
        Option.some.injEq] at hnew
      obtain ⟨buf, -, rfl⟩ := hnew
      rfl
    · rw [htSetO_insert hs hb rfl hnew hroom] at h
      exact (Option.some.inj h).symm

/-- What an update leaves. -/
theorem htSetO_some_eq_some {e : Entry} {pre post : List Entry}
    (hz : BufSized arg s (htHash arg key)) (hchain : s.chain (htHash arg key) = pre ++ e :: post)
    (h : htSetO arg s (some e) key keyVal nac mac keyLen valLen pre.length = some s₁) :
    ∃ e', e'.mac = mac ∧ s₁ = s.write (htHash arg key) (pre ++ e' :: post)
      (newBuf arg (s.buf (htHash arg key))
        (slot arg (s.chain (htHash arg key)).length pre.length) mac) := by
  have hb : htHash arg key < arg.bucketSize := Arg.Valid.htHash_lt ha.bucket_pos _
  cases hover : overwrite e (e.valSize != valLen) keyVal nac mac keyLen valLen with
  | none =>
    unfold htSetO at h
    simp [hs.table_getElem? hb, hover] at h
  | some e' =>
    rw [htSetO_update hs hb rfl hz hchain hover] at h
    exact ⟨e', mac_overwrite hover, (Option.some.inj h).symm⟩

/-- **The MACs of the group after `ht_set_o`.**  They differ from those before in the
bucket of the key, at the index that `enclave_rebuild_tree_root` computes; and with the
MAC there taken out, or put back, they are those before. -/
theorem htSetO_groupMacs {pair : Option Entry} (hm : Mirrored arg s (htHash arg key))
    (ht : Targets s (htHash arg key) pair pos)
    (h : htSetO arg s pair key keyVal nac mac keyLen valLen pos = some s₁) :
    ∃ macs j, s₁.Shaped arg ∧ GroupSized arg s₁ (htHash arg key) ∧ s₁.macTable = s.macTable ∧
      groupMacs arg s₁ (htHash arg key) = groupWith arg s (htHash arg key) macs ∧ j < macs.length ∧
      updatedIdx arg s₁ (htHash arg key) pos pair.isNone =
        some (((beforeMacs arg s (htHash arg key)).length + j : ℕ) : ℤ) ∧
      (if pair.isNone then macs.eraseIdx j else macs.set j ((pair.map (·.mac)).getD 0)) =
        bucketMacs arg s (htHash arg key) := by
  have hb : htHash arg key < arg.bucketSize := Arg.Valid.htHash_lt ha.bucket_pos _
  have hz := hm.sized
  have hlen := (hz.bucket ha).length_bucketMacs
  cases pair with
  | none =>
    obtain rfl : pos = (s.chain (htHash arg key)).length := ht
    have hroom : arg.macOpt = true → (s.chain (htHash arg key)).length < macSlots :=
      fun hopt => (hm hopt _ (ha.mem_groupRange_iff.mpr rfl)).2.1
    obtain ⟨e, rfl, rfl⟩ := htSetO_none_eq_some ha hs hroom h
    have hj := pushSlot_lt arg (bucketMacs arg s (htHash arg key)) e.mac
    have herase := eraseIdx_pushMac arg (bucketMacs arg s (htHash arg key)) e.mac
    rw [hlen] at hj herase
    refine ⟨_, _, hs.write _ _ _, hz.push hb hs ha hroom e e.mac, rfl, ?_, hj,
      updatedIdx_push hb hs ha (hz.push hb hs ha hroom e e.mac).inRange, herase⟩
    rw [groupMacs_write hs ha hb]
    exact congrArg _ (macsOf_push (hz.bucket ha) hroom e)
  | some e =>
    -- the chain around the entry that is written
    obtain ⟨hlt, he⟩ := List.getElem?_eq_some_iff.mp
      (show (s.chain (htHash arg key))[pos]? = some e from ht)
    have hchain : s.chain (htHash arg key) =
        (s.chain (htHash arg key)).take pos ++ e :: (s.chain (htHash arg key)).drop (pos + 1) := by
      rw [← he, List.cons_getElem_drop_succ, List.take_append_drop]
    have hpos : ((s.chain (htHash arg key)).take pos).length = pos := by
      rw [List.length_take]
      omega
    generalize (s.chain (htHash arg key)).take pos = pre at hchain hpos
    generalize (s.chain (htHash arg key)).drop (pos + 1) = post at hchain
    subst hpos
    obtain ⟨e', rfl, rfl⟩ := htSetO_some_eq_some ha hs (hz.bucket ha) hchain h
    have hsame : (pre ++ e' :: post).length = (s.chain (htHash arg key)).length := by simp [hchain]
    refine ⟨(bucketMacs arg s (htHash arg key)).set
        (slot arg (s.chain (htHash arg key)).length pre.length) e'.mac, _, hs.write _ _ _,
      hz.put hb hs ha hsame _ e'.mac, rfl, ?_, ?_, updatedIdx_put hb hs ha hz hchain _ e'.mac, ?_⟩
    · rw [groupMacs_write hs ha hb, macsOf_put hchain (fun hopt => by simp [slot, hopt]) e']
    · rw [List.length_set, hlen]
      exact slot_lt arg hlt
    · simp only [Option.isNone_some, Bool.false_eq_true, if_false, Option.map_some, Option.getD_some]
      rw [List.set_set, hm.bucketMacs_eq ha]
      exact ordered_set_self arg hchain

end Set

/-- The check of a root that is the tag of the group's MACs succeeds for every bucket of
the group. -/
theorem enclaveVerifyTreeRoot_of_root {arg : Arg} {s : Store} (sdk : Sdk) (ha : arg.Valid)
    (hs : s.Shaped arg) {b i : ℕ} (hb : b < arg.bucketSize) (hz : GroupSized arg s b)
    (hroot : s.root (rootIndex arg b) = rootTag sdk (groupMacs arg s b)) (hi : i ∈ groupRange arg b) :
    enclaveVerifyTreeRoot arg sdk s i = some .success := by
  have hg := ha.mem_groupRange_iff.mp hi
  have hlt := ha.lt_of_mem_groupRange hb hi
  have hrange : GroupSized arg s i := by
    intro j hj
    refine hz j (ha.mem_groupRange_iff.mpr ?_)
    rw [ha.mem_groupRange_iff.mp hj, hg]
  rw [enclaveVerifyTreeRoot_eq sdk hs (ha.rootIndex_lt hlt) (aggregateMac_eq ha hs hlt hrange.inRange),
    if_pos]
  rw [hg, hroot, groupMacs_congr hg]

/-- What `enclave_rebuild_tree_root` makes of the store `s₁` that a write to bucket `b` of
`s` has left. -/
structure Reconstructs (arg : Arg) (sdk : Sdk) (s s₁ : Store) (b pos : ℕ) (isInsert : Bool)
    (prevMac : Block) : Prop where
  /-- The list it checks is the one collected before the write, and null where that is
  empty. -/
  prev : ∃ before after idx, aggregateMac arg s b = some before ∧ aggregateMac arg s₁ b = some after ∧
    updatedIdx arg s₁ b pos isInsert = some idx ∧
    prevAggregateMac after idx isInsert prevMac = some (if before = [] then none else some before)
  /-- It succeeds if that list is the one the root authenticates, or empty; and then the
  root of the group is right for all of its buckets, and the other roots are as before. -/
  root : ∃ ret s₂ log, enclaveRebuildTreeRoot arg sdk s₁ b pos isInsert prevMac = some (ret, s₂, log) ∧
    (ret = .success ↔
      groupMacs arg s b = [] ∨ rootTag sdk (groupMacs arg s b) = s.root (rootIndex arg b)) ∧
    (ret = .success → (∀ i ∈ groupRange arg b, enclaveVerifyTreeRoot arg sdk s₂ i = some .success) ∧
      ∀ g ≠ rootIndex arg b, s₂.macTable[g]? = s.macTable[g]?)

theorem Arg.Valid.reconstructs {arg : Arg} (sdk : Sdk) (ha : arg.Valid) {s s₁ : Store}
    (hs : s.Shaped arg) {key keyVal : List UInt8} {nac mac : Block} {keyLen valLen : UInt32}
    {pair : Option Entry} {pos : ℕ} (hm : Mirrored arg s (htHash arg key))
    (ht : Targets s (htHash arg key) pair pos)
    (hset : htSetO arg s pair key keyVal nac mac keyLen valLen pos = some s₁) :
    Reconstructs arg sdk s s₁ (htHash arg key) pos pair.isNone ((pair.map (·.mac)).getD 0) := by
  have hb : htHash arg key < arg.bucketSize := Arg.Valid.htHash_lt ha.bucket_pos _
  have hg := ha.rootIndex_lt hb
  obtain ⟨macs, j, hs₁, hz₁, htable, hgroup, hj, hidx, hback⟩ := htSetO_groupMacs ha hs hm ht hset
  generalize htHash arg key = b at *
  have hbefore := aggregateMac_eq ha hs hb hm.sized.inRange
  have hafter := aggregateMac_eq ha hs₁ hb hz₁.inRange
  have hlt : (beforeMacs arg s b).length + j < (groupMacs arg s₁ b).length := by
    rw [hgroup]
    exact lt_length_groupWith arg s b hj
  have hprev : prevMacs (groupMacs arg s₁ b) ((beforeMacs arg s b).length + j) pair.isNone
      ((pair.map (·.mac)).getD 0) = groupMacs arg s b := by
    rw [hgroup, prevMacs_groupWith arg s b hj, hback, groupMacs_eq_groupWith ha]
  have hsame : ∀ g, s₁.root g = s.root g := by
    intro g
    unfold Store.root
    rw [htable]
  have hrebuild := @enclaveRebuildTreeRoot_eq arg sdk s₁ hs₁ b pos _ hg pair.isNone _
    ((pair.map (·.mac)).getD 0) hafter hidx hlt
  rw [hprev, hsame] at hrebuild
  refine ⟨⟨_, _, _, hbefore, hafter, hidx, by rw [prevAggregateMac_eq hlt, hprev]⟩, ?_⟩
  by_cases hok : groupMacs arg s b = [] ∨ rootTag sdk (groupMacs arg s b) = s.root (rootIndex arg b)
  · simp only [if_pos hok] at hrebuild
    refine ⟨_, _, _, hrebuild, by simp [hok], fun _ => ⟨fun i hi => ?_, fun g hne => ?_⟩⟩
    · refine enclaveVerifyTreeRoot_of_root sdk ha (hs₁.setRoot _ _) hb hz₁ ?_ hi
      rw [hs₁.root_setRoot hg, if_pos rfl]
      rfl
    · rw [Store.setRoot, List.getElem?_set_ne hne.symm, htable]
  · simp only [if_neg hok] at hrebuild
    exact ⟨_, _, _, hrebuild, by simp [hok], fun h => by cases h⟩

/-- **The list before a `SET` is reconstructed**: for every geometry in which the groups
divide the buckets evenly, every contents of the group's chains, and every update or
insert that `ht_set_o` makes. -/
theorem rebuild_reconstructs {arg : Arg} (sdk : Sdk) (hroot : 0 < arg.treeRootSize)
    (hbucket : 0 < arg.bucketSize) (hdvd : arg.treeRootSize ∣ arg.bucketSize) {s s₁ : Store}
    (hs : s.Shaped arg) {key keyVal : List UInt8} {nac mac : Block} {keyLen valLen : UInt32}
    {pair : Option Entry} {pos : ℕ} (hm : Mirrored arg s (htHash arg key))
    (ht : Targets s (htHash arg key) pair pos)
    (hset : htSetO arg s pair key keyVal nac mac keyLen valLen pos = some s₁) :
    Reconstructs arg sdk s s₁ (htHash arg key) pos pair.isNone ((pair.map (·.mac)).getD 0) := by
  have ha := Arg.Valid.of_dvd hroot hbucket hdvd
  have h := ha.reconstructs sdk ⟨hs.table, hs.macbuf, hs.macTable⟩ hm ht hset
  exact ⟨h.prev, h.root⟩

/-- An insert into a bucket with one entry, next to an empty bucket. -/
theorem rebuild_reconstructs_insert :
    ∃ s₁, htSetO ⟨1, 16, 2, 1, false, true⟩
        ⟨[[⟨1, 1, 0, none, 0, 7⟩], []], [⟨1, Vector.replicate 30 7⟩, ⟨0, Vector.replicate 30 7⟩], [5]⟩
        none [0x61, 0] [1, 2] 0 9 1 1 1 = some s₁ ∧
      Reconstructs ⟨1, 16, 2, 1, false, true⟩ Sdk.aes
        ⟨[[⟨1, 1, 0, none, 0, 7⟩], []], [⟨1, Vector.replicate 30 7⟩, ⟨0, Vector.replicate 30 7⟩], [5]⟩
        s₁ 0 1 true 0 := by
  obtain ⟨s₁, hset⟩ := Option.isSome_iff_exists.mp (show (htSetO ⟨1, 16, 2, 1, false, true⟩
    ⟨[[⟨1, 1, 0, none, 0, 7⟩], []], [⟨1, Vector.replicate 30 7⟩, ⟨0, Vector.replicate 30 7⟩], [5]⟩
    none [0x61, 0] [1, 2] 0 9 1 1 1).isSome = true by decide)
  refine ⟨s₁, hset, ?_⟩
  refine rebuild_reconstructs Sdk.aes (by decide) (by decide) (by decide) (by constructor <;> rfl)
    ?_ ?_ hset
  · unfold Mirrored
    decide
  · unfold Targets
    decide

end ShieldStore
