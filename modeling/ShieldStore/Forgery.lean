import ShieldStore.Misses
import Mathlib.Algebra.BigOperators.Ring.Finset

/-!
# Inserts into forged memory

An accepted insert replaces the root, so it should have checked the memory of the group.
Whether it has is a matter of counts.  If the group has lost all of its MACs there is
nothing to check.  With MAC bucketing the new MAC counts as the last one of a buffer,
but is taken out again at an index computed from the length of the chain; when the two
differ, the list that is checked is not that of the memory, and the host can cut its
buffers out of the committed list so that it passes.

## Main definitions

* `forged` — memory with given counts, cut out of a list.
* `Forgeable` — counts under which an insert into other memory passes.
* `ForgedPass` — an insert that passes in forged memory.

## Main results

* `groupMacs_pushed_forged` — the insert itself completes the list.
* `insert_authentic_iff` — when an accepted insert has checked the memory.
-/

namespace ShieldStore

open Bytes Counter CMem Run Lists

/-! ### Forged memory -/

/-- An entry that answers no search. -/
def deaf : Entry := ⟨0, 0, 0, none, 0, 0⟩

theorem htGetLoop_deaf (arg : Arg) (sdk : Sdk) (key : List UInt8) (keySize : UInt32) (keyHash : UInt8)
    (n : ℕ) : ∀ (plain : Option (List UInt8)) (pos : ℕ),
      htGetLoop arg sdk key keySize keyHash (List.replicate n deaf) plain pos =
        some ⟨none, plain, pos + n, 0⟩ := by
  induction n with
  | zero => intro plain pos; rfl
  | succ n ih =>
    intro plain pos
    have hnull : deaf.keyVal = none := rfl
    rw [List.replicate_succ, htGetLoop]
    simp only [hnull]
    rw [ih, Nat.add_assoc, Nat.add_comm 1 n]

/-- Thirty cells of a list. -/
def cutOut (l : List Block) (off : ℕ) : Vector Block 30 := Vector.ofFn fun j => l.getD (off + j) 0

theorem take_cutOut {l : List Block} {off n : ℕ} (hoff : off + n ≤ l.length) (hn : n ≤ macSlots) :
    (cutOut l off).toList.take n = (l.drop off).take n := by
  refine List.ext_getElem ?_ fun i h₁ h₂ => ?_
  · simp only [macSlots] at hn
    simp only [List.length_take, Vector.length_toList, List.length_drop]
    omega
  · rw [List.length_take, List.length_drop] at h₂
    have hlt : off + i < l.length := by omega
    simp [cutOut, hlt]

/-- The size of a bucket's MAC buffer after an insert into `b`. -/
def sizeAfter (s : Store) (b i : ℕ) : ℕ := ((s.buf i).size + (if b = i then 1 else 0)).toNat

/-- Where a bucket's MACs start in the list of the group after an insert into `b`. -/
def offsetAfter (arg : Arg) (s : Store) (b i : ℕ) : ℕ :=
  ((List.range' (startIndex arg b) (i - startIndex arg b)).map (sizeAfter s b)).sum

/-- Memory with the counts of `s`: no entry of the bucket can be found, and the MAC buffers
are cut out of a list, but for the slot that an insert writes. -/
def forged (arg : Arg) (s : Store) (b : ℕ) (l : List Block) (y : Block) : Store where
  table := s.table.set b (List.replicate (s.chain b).length deaf)
  macbuf := s.macbuf.mapIdx fun i e => { e with
    mac := if b = i then (cutOut l (offsetAfter arg s b i)).setIfInBounds (s.chain b).length y
      else cutOut l (offsetAfter arg s b i) }
  macTable := s.macTable

section Forged

variable {arg : Arg} {s : Store} {b : ℕ} (ha : arg.Valid) (hs : s.Shaped arg)
  (hb : b < arg.bucketSize) (l : List Block) (y : Block)

include hs

theorem shaped_forged : (forged arg s b l y).Shaped arg :=
  ⟨by simp [forged, hs.table], by simp [forged, hs.macbuf], hs.macTable⟩

theorem buf_forged {i : ℕ} (hi : i < arg.bucketSize) :
    (forged arg s b l y).buf i = ⟨(s.buf i).size,
      if b = i then (cutOut l (offsetAfter arg s b i)).setIfInBounds (s.chain b).length y
        else cutOut l (offsetAfter arg s b i)⟩ := by
  have h := hs.macbuf_getElem? hi
  unfold Store.buf forged
  rw [List.getElem?_mapIdx]
  rw [h]
  rfl

include hb

theorem chain_forged (i : ℕ) : (forged arg s b l y).chain i =
    if b = i then List.replicate (s.chain b).length deaf else s.chain i := by
  unfold Store.chain forged
  rw [List.getElem?_set]
  split
  · next h => rw [if_pos (by rw [hs.table]; omega)]; rfl
  · rfl

include ha

theorem sameCounts_forged : SameCounts arg s (forged arg s b l y) b := by
  refine ⟨shaped_forged hs l y, rfl, fun i _ => ?_, fun i hi => ?_⟩
  · rw [chain_forged hs hb]
    split
    · next h => rw [List.length_replicate, h]
    · rfl
  · rw [buf_forged hs l y (ha.lt_of_mem_groupRange hb hi)]

omit ha in
/-- The search for a key of the bucket misses. -/
theorem htGetO_forged (sdk : Sdk) {key : List UInt8} (hkey : htHash arg key = b) (keySize : UInt32) :
    htGetO arg sdk (forged arg s b l y) key keySize =
      some ⟨none, none, ((forged arg s b l y).chain b).length, 0⟩ := by
  unfold htGetO
  dsimp only
  rw [hkey, (shaped_forged hs l y).table_getElem? hb, chain_forged hs hb, if_pos rfl]
  simp only [Option.bind_eq_bind, Option.bind_some, List.length_replicate]
  rw [htGetLoop_deaf, Nat.zero_add]

variable (hopt : arg.macOpt = true) (h : Insertable arg s b)

include hopt h

omit ha hs hb in
theorem natCast_sizeAfter {i : ℕ} (hi : i ∈ groupRange arg b) :
    (sizeAfter s b i : ℤ) = macCount arg s i + (if b = i then 1 else 0) := by
  have := (h.range hopt i hi).1
  unfold sizeAfter macCount
  rw [if_pos hopt, Int.toNat_of_nonneg this]

theorem natCast_sum_sizeAfter :
    (((groupRange arg b).map (sizeAfter s b)).sum : ℤ) = totalMacCount arg s b + 1 := by
  rw [← totalMacCount_pushed ha hs hb deaf, Nat.cast_list_sum, List.map_map]
  refine congrArg List.sum (List.map_congr_left fun i hi => ?_)
  rw [macCount_pushed hs hb]
  exact natCast_sizeAfter hopt h hi

omit hs hb in
theorem natCast_offsetAfter : (offsetAfter arg s b b : ℤ) = prevMacCount arg s b := by
  unfold offsetAfter prevMacCount
  rw [Nat.cast_list_sum, List.map_map]
  refine congrArg List.sum (List.map_congr_left fun i hi => ?_)
  obtain ⟨hmem, hne⟩ := mem_before ha hi
  rw [Function.comp_apply, natCast_sizeAfter hopt h hmem, if_neg (Ne.symm hne), add_zero]

variable {l} (hl : l.length = ((groupRange arg b).map (sizeAfter s b)).sum) (e : Entry)
  (hx : (s.chain b).length < sizeAfter s b b →
    l[offsetAfter arg s b b + (s.chain b).length]? = some e.mac)

include hl hx

omit ha hs hb hopt h hx in
theorem offsetAfter_add_le {i : ℕ} (hi : i ∈ groupRange arg b) :
    offsetAfter arg s b i + sizeAfter s b i ≤ l.length := by
  rw [hl]
  exact Pieces.sum_cut_le (sizeAfter s b) hi

omit ha hs hb hl hx in
theorem sizeAfter_le {i : ℕ} (hi : i ∈ groupRange arg b) : sizeAfter s b i ≤ macSlots := by
  have := h.range hopt i hi
  unfold sizeAfter
  omega

/-- The bucket of the insert has its piece of the list: the insert writes the slot that was
left open. -/
theorem macs_pushed_forged_self :
    ((pushed arg (forged arg s b l y) b e).buf b).macs =
      (l.drop (offsetAfter arg s b b)).take (sizeAfter s b b) := by
  have hmem : b ∈ groupRange arg b := ha.mem_groupRange_iff.mpr rfl
  have hfit := offsetAfter_add_le hl hmem
  have hsize : ((s.buf b).size + 1).toNat = sizeAfter s b b := by
    unfold sizeAfter
    rw [if_pos rfl]
  unfold pushed
  rw [(shaped_forged hs l y).buf_write hb, if_pos rfl, pushBuf, if_pos hopt, MacEntry.macs_put,
    buf_forged hs l y hb, if_pos rfl, chain_forged hs hb, if_pos rfl, List.length_replicate]
  simp only [MacEntry.macs]
  rw [hsize, Vector.toList_setIfInBounds, List.take_set, List.set_set,
    take_cutOut hfit (sizeAfter_le hopt h hmem)]
  refine set_eq_self fun hn => ?_
  rw [List.length_take, List.length_drop] at hn
  rw [List.getElem?_take_of_lt (by omega), List.getElem?_drop, hx (by omega)]

omit hx in
/-- The other buckets of the group have theirs. -/
theorem macs_pushed_forged_of_ne {i : ℕ} (hi : i ∈ groupRange arg b) (hne : b ≠ i) :
    ((pushed arg (forged arg s b l y) b e).buf i).macs =
      (l.drop (offsetAfter arg s b i)).take (sizeAfter s b i) := by
  have hsize : (s.buf i).size.toNat = sizeAfter s b i := by
    unfold sizeAfter
    rw [if_neg hne, add_zero]
  unfold pushed
  rw [(shaped_forged hs l y).buf_write hb, if_neg hne,
    buf_forged hs l y (ha.lt_of_mem_groupRange hb hi), if_neg hne]
  simp only [MacEntry.macs]
  rw [hsize, take_cutOut (offsetAfter_add_le hl hi) (sizeAfter_le hopt h hi)]

/-- A bucket of forged memory has its piece of the list once the insert has been made. -/
theorem bucketMacs_pushed_forged {i : ℕ} (hi : i ∈ groupRange arg b) :
    bucketMacs arg (pushed arg (forged arg s b l y) b e) i =
      (l.drop (offsetAfter arg s b i)).take (sizeAfter s b i) := by
  unfold bucketMacs macsOf
  rw [if_pos hopt]
  by_cases hib : b = i
  · subst hib
    exact macs_pushed_forged_self ha hs hb y hopt h hl e hx
  · exact macs_pushed_forged_of_ne ha hs hb y hopt h hl e hi hib

/-- **Forging.**  After the insert the group has the list that its memory was cut out
of. -/
theorem groupMacs_pushed_forged : groupMacs arg (pushed arg (forged arg s b l y) b e) b = l := by
  unfold groupMacs
  rw [List.flatMap_congr fun i hi => bucketMacs_pushed_forged ha hs hb y hopt h hl e hx hi]
  have hcut := Pieces.flatMap_cut (sizeAfter s b) l (startIndex arg b) arg.ratio
  refine hcut.trans ?_
  rw [List.take_of_length_le]
  exact hl.le

end Forged

/-! ### When an accepted insert has checked the memory -/

/-- Counts of a group under which an insert into `b` passes in memory that is not what the
root commits to, which is a list of `len` MACs: there is nothing to check; or, with MAC
bucketing, as many MACs as the root commits to are counted, but the bucket's buffer
counts more or fewer than its chain has, and the new MAC is looked for inside of the
list. -/
structure Forgeable (arg : Arg) (s : Store) (b len : ℕ) : Prop where
  insertable : Insertable arg s b
  passes : totalMacCount arg s b ≤ 0 ∨
    arg.macOpt = true ∧ totalMacCount arg s b = len ∧ (s.buf b).size ≠ (s.chain b).length ∧
      prevMacCount arg s b + (s.chain b).length ≤ totalMacCount arg s b

section Authentic

variable {arg : Arg} {sdk : Sdk} {s : Store} {r : Rec} {b : ℕ} {committed : List Block}

/-- With counts that are not forgeable, an accepted insert has checked the list of the
memory. -/
theorem aggregateMac_of_accepted (ha : arg.Valid) (hs : s.Shaped arg) (hr : r.Fits)
    (hk : r.key.length + 1 ≤ arg.maxBufSize) (hb : htHash arg (cstr r.key) = b)
    (hroot : s.root (rootIndex arg b) = rootTag sdk committed)
    (hmiss : missed arg sdk s r.key = true)
    (hinj : checkedMacs arg s b (r.entry sdk) ≠ [] →
      rootTag sdk (checkedMacs arg s b (r.entry sdk)) = rootTag sdk committed →
      checkedMacs arg s b (r.entry sdk) = committed)
    (hout : ∃ out, setKeyVal arg sdk s r.nac (cstr r.key) (strSize r.key) (cstr r.val)
      (strSize r.val) = some out ∧ Clean out.log)
    (hnot : ¬ Forgeable arg s b committed.length) : aggregateMac arg s b = some committed := by
  have hlt : b < arg.bucketSize := hb ▸ Arg.Valid.htHash_lt ha.bucket_pos _
  obtain ⟨plain, nac, hget⟩ := htGetO_of_missed ha hs hmiss
  rw [hb] at hget
  obtain ⟨hins, hidx, hcheck⟩ := (set_accepted_iff ha hs hb hget hr hk).mp hout
  have hlen := hins.length_pushed ha hs hlt (r.entry sdk)
  have htotal : 0 < totalMacCount arg s b := by
    by_contra hle
    exact hnot ⟨hins, Or.inl (by omega)⟩
  have hmany : 1 < (groupMacs arg (pushed arg s b (r.entry sdk)) b).length := by omega
  have hin : (beforeMacs arg s b).length + pushSlot arg (s.chain b).length <
      (groupMacs arg (pushed arg s b (r.entry sdk)) b).length := by
    rcases hidx with h | h
    · omega
    · exact h
  have hchecked : checkedMacs arg s b (r.entry sdk) =
      (groupMacs arg (pushed arg s b (r.entry sdk)) b).eraseIdx
        ((beforeMacs arg s b).length + pushSlot arg (s.chain b).length) := if_neg (by omega)
  have hcount := List.length_eraseIdx_of_lt hin
  rw [← hchecked] at hcount
  have hne : checkedMacs arg s b (r.entry sdk) ≠ [] := by
    rw [← List.length_pos_iff]
    omega
  have heq : checkedMacs arg s b (r.entry sdk) = committed := by
    refine hinj hne ?_
    rw [← hroot]
    exact hcheck.resolve_left hne
  -- the counts leave the buffer's size no choice
  have hsized : BufSized arg s b := by
    intro hopt
    refine ⟨?_, (hins.slot hopt).le⟩
    by_contra hsize
    have hbefore := hins.length_before ha
    rw [pushSlot, if_pos hopt] at hin
    exact hnot ⟨hins, Or.inr ⟨hopt, by rw [← heq]; omega, hsize, by omega⟩⟩
  rw [aggregateMac_eq ha hs hlt (hins.inRange hsized), ← hins.checkedMacs_eq ha hs hlt _ hsized hmany, heq]

/-- An insert into forged memory is accepted if what is checked is nothing, or the list the
root commits to. -/
theorem forged_accepted (ha : arg.Valid) (hs : s.Shaped arg) (hr : r.Fits)
    (hk : r.key.length + 1 ≤ arg.maxBufSize) (hb : htHash arg (cstr r.key) = b)
    (hroot : s.root (rootIndex arg b) = rootTag sdk committed) (hins : Insertable arg s b)
    (l : List Block) (y : Block)
    (hidx : totalMacCount arg s b ≤ 0 ∨ arg.macOpt = true ∧
      prevMacCount arg s b + (s.chain b).length ≤ totalMacCount arg s b)
    (hchecked : checkedMacs arg (forged arg s b l y) b (r.entry sdk) = [] ∨
      checkedMacs arg (forged arg s b l y) b (r.entry sdk) = committed) :
    ∃ out, setKeyVal arg sdk (forged arg s b l y) r.nac (cstr r.key) (strSize r.key) (cstr r.val)
      (strSize r.val) = some out ∧ Clean out.log := by
  have hlt : b < arg.bucketSize := hb ▸ Arg.Valid.htHash_lt ha.bucket_pos _
  have hsame := sameCounts_forged ha hs hlt l y
  have hins' := (hsame.insertable ha).mpr hins
  have hpushed := hins'.length_pushed ha hsame.shaped hlt (r.entry sdk)
  have hbefore := hins'.length_before ha
  rw [hsame.totalMacCount_eq] at hpushed
  rw [hsame.prevMacCount_eq ha] at hbefore
  refine (set_accepted_iff ha hsame.shaped hb (htGetO_forged hs hlt l y sdk hb _) hr hk).mpr
    ⟨hins', ?_, ?_⟩
  · rw [hsame.chains b (ha.mem_groupRange_iff.mpr rfl)]
    -- either the new MAC is all that there is, or its index lies in the list
    rcases hidx with hidx | ⟨hopt, hidx⟩
    · left
      omega
    · right
      rw [pushSlot, if_pos hopt]
      omega
  · rcases hchecked with hnil | heq
    · exact Or.inl hnil
    · right
      rw [heq]
      exact hroot.symm

/-- A MAC other than the one at an index of a list. -/
def otherMac (l : List Block) (i : ℕ) : Block := (l[i]?.getD 0) + 1

theorem getElem?_ne_otherMac (l : List Block) (i : ℕ) : l[i]? ≠ some (otherMac l i) := by
  unfold otherMac
  cases l[i]? with
  | none => rintro ⟨⟩
  | some x =>
    intro h
    have hx : x = x + 1 := Option.some.inj h
    bv_omega

theorem getElem?_groupWith_right (arg : Arg) (s : Store) (b : ℕ) {macs : List Block} {j : ℕ}
    (hj : macs.length ≤ j) : (groupWith arg s b macs)[(beforeMacs arg s b).length + j]? =
      (afterMacs arg s b)[j - macs.length]? := by
  unfold groupWith
  rw [List.getElem?_append_right (by omega), Nat.add_sub_cancel_left,
    List.getElem?_append_right hj]

theorem getElem?_groupWith_left (arg : Arg) (s : Store) (b : ℕ) {macs : List Block} {j : ℕ}
    (hj : j < macs.length) :
    (groupWith arg s b macs)[(beforeMacs arg s b).length + j]? = macs[j]? := by
  unfold groupWith
  rw [List.getElem?_append_right (by omega), Nat.add_sub_cancel_left,
    List.getElem?_append_left hj]

theorem length_beforeMacs_forged (ha : arg.Valid) (hs : s.Shaped arg) (hlt : b < arg.bucketSize)
    (hopt : arg.macOpt = true) (hins : Insertable arg s b) (l : List Block) (y : Block) :
    (beforeMacs arg (forged arg s b l y) b).length = offsetAfter arg s b b := by
  have hsame := sameCounts_forged ha hs hlt l y
  have hbefore := ((hsame.insertable ha).mpr hins).length_before ha
  rw [hsame.prevMacCount_eq ha, ← natCast_offsetAfter ha hopt hins] at hbefore
  exact_mod_cast hbefore

/-- If the buffer counts more than the chain has, the slot an insert writes held a MAC of
the list. -/
theorem getElem?_groupMacs_forged (ha : arg.Valid) (hs : s.Shaped arg) (hlt : b < arg.bucketSize)
    (hopt : arg.macOpt = true) (l : List Block) (y : Block)
    (hrange : BufsInRange arg (forged arg s b l y) b) (hsize : (s.chain b).length < (s.buf b).size) :
    (groupMacs arg (forged arg s b l y) b)[(beforeMacs arg (forged arg s b l y) b).length +
      (s.chain b).length]? = some y := by
  have hb := hrange hopt b (ha.mem_groupRange_iff.mpr rfl)
  have hlen := hb.length_macs
  have hmacs : bucketMacs arg (forged arg s b l y) b = ((forged arg s b l y).buf b).macs :=
    if_pos hopt
  rw [MacEntry.InRange] at hb
  rw [buf_forged hs l y hlt, if_pos rfl] at hb hlen hmacs
  dsimp only [macSlots] at hb hlen
  rw [groupMacs_eq_groupWith ha, hmacs, getElem?_groupWith_left arg _ b (by omega)]
  simp only [MacEntry.macs]
  rw [Vector.toList_setIfInBounds, List.getElem?_take_of_lt (by omega),
    List.getElem?_set_self (by simp; omega)]

/-- If the buffer counts fewer, an insert moves the list up to the index of the new MAC. -/
theorem getElem?_groupMacs_pushed (ha : arg.Valid) (hs : s.Shaped arg) (hlt : b < arg.bucketSize)
    (hopt : arg.macOpt = true) (hrange : BufsInRange arg s b) (e : Entry)
    (hsize : (s.buf b).size < (s.chain b).length)
    (hrange' : BufsInRange arg (pushed arg s b e) b) :
    (groupMacs arg (pushed arg s b e) b)[(beforeMacs arg s b).length + (s.chain b).length]? =
      (groupMacs arg s b)[(beforeMacs arg s b).length + ((s.chain b).length - 1)]? := by
  have hmem : b ∈ groupRange arg b := ha.mem_groupRange_iff.mpr rfl
  have hold := length_bucketMacs_eq fun hopt => hrange hopt b hmem
  have hnew := length_bucketMacs_eq fun hopt => hrange' hopt b hmem
  have hcount := macCount_pushed hs hlt e b
  have hz : macCount arg s b = (s.buf b).size := if_pos hopt
  rw [if_pos rfl] at hcount
  have hmacs : bucketMacs arg (pushed arg s b e) b = macsOf arg (e :: s.chain b)
      (pushBuf arg (s.buf b) (s.chain b).length e.mac) := by
    unfold pushed
    rw [bucketMacs_write hs hlt, if_pos rfl]
  have hgroup : groupMacs arg (pushed arg s b e) b =
      groupWith arg s b (bucketMacs arg (pushed arg s b e) b) := by
    rw [hmacs]
    exact groupMacs_write hs ha hlt _ _
  -- both places lie behind the bucket, where the list has moved up by one
  rw [hgroup, groupMacs_eq_groupWith ha, getElem?_groupWith_right arg s b (by omega),
    getElem?_groupWith_right arg s b (by omega)]
  congr 1
  omega

/-- Memory that is cut out of the committed list with one more MAC where the new one is
looked for: what is checked is the committed list. -/
theorem checkedMacs_forged (ha : arg.Valid) (hs : s.Shaped arg) (hlt : b < arg.bucketSize)
    (hopt : arg.macOpt = true) (hins : Insertable arg s b) (hne : committed ≠ [])
    (htotal : totalMacCount arg s b = committed.length)
    (hidx : prevMacCount arg s b + (s.chain b).length ≤ totalMacCount arg s b) (e : Entry)
    {c : Block} (hc : (s.chain b).length < sizeAfter s b b → c = e.mac) (y : Block) :
    let i := offsetAfter arg s b b + (s.chain b).length
    groupMacs arg (pushed arg (forged arg s b (committed.insertIdx i c) y) b e) b =
        committed.insertIdx i c ∧
      checkedMacs arg (forged arg s b (committed.insertIdx i c) y) b e = committed := by
  intro i
  have hoff := natCast_offsetAfter ha hopt hins
  have hi : i ≤ committed.length := by omega
  have hlen := List.length_insertIdx_of_le_length hi (a := c)
  have hsum := natCast_sum_sizeAfter ha hs hlt hopt hins
  -- the push puts back what was left out of the memory
  have hgroup : groupMacs arg (pushed arg (forged arg s b (committed.insertIdx i c) y) b e) b =
      committed.insertIdx i c := by
    refine groupMacs_pushed_forged ha hs hlt y hopt hins (by omega) e fun hn => ?_
    rw [List.getElem?_insertIdx_self, if_pos (by omega), hc hn]
  refine ⟨hgroup, ?_⟩
  have hsame := sameCounts_forged ha hs hlt (committed.insertIdx i c) y
  have hpos := List.length_pos_iff.mpr hne
  unfold checkedMacs
  rw [hgroup, if_neg (by omega), pushSlot, if_pos hopt,
    hsame.chains b (ha.mem_groupRange_iff.mpr rfl), length_beforeMacs_forged ha hs hlt hopt hins,
    List.eraseIdx_insertIdx_self]

/-- In memory forged from `l` and `y` an insert is accepted, and what it checks is nothing or
the committed list; but the list of the memory is another one. -/
structure ForgedPass (arg : Arg) (sdk : Sdk) (s : Store) (r : Rec) (b : ℕ) (committed l : List Block)
    (y : Block) : Prop where
  checked : checkedMacs arg (forged arg s b l y) b (r.entry sdk) = [] ∨
    checkedMacs arg (forged arg s b l y) b (r.entry sdk) = committed
  accepted : ∃ out, setKeyVal arg sdk (forged arg s b l y) r.nac (cstr r.key) (strSize r.key)
    (cstr r.val) (strSize r.val) = some out ∧ Clean out.log
  differs : aggregateMac arg (forged arg s b l y) b ≠ some committed

section Forging

variable (ha : arg.Valid) (hs : s.Shaped arg) (hr : r.Fits) (hk : r.key.length + 1 ≤ arg.maxBufSize)
  (hb : htHash arg (cstr r.key) = b) (hne : committed ≠ [])
  (hroot : s.root (rootIndex arg b) = rootTag sdk committed) (hins : Insertable arg s b)

include ha hs

theorem groupMacs_of_aggregateMac_forged (hlt : b < arg.bucketSize) {l : List Block} {y : Block}
    (h : aggregateMac arg (forged arg s b l y) b = some committed) :
    groupMacs arg (forged arg s b l y) b = committed ∧ BufsInRange arg (forged arg s b l y) b ∧
      (committed.length : ℤ) = totalMacCount arg s b := by
  have hsame := sameCounts_forged ha hs hlt l y
  have hrange := bufsInRange_of_aggregateMac ha hsame.shaped hlt h
  have heq := aggregateMac_eq_some ha hsame.shaped hlt h
  refine ⟨heq.symm, hrange, ?_⟩
  rw [heq, length_groupMacs_eq hrange, hsame.totalMacCount_eq]

include hr hk hb hne hroot hins

/-- If nothing is counted, nothing is checked. -/
theorem forgedPass_of_total (hzero : totalMacCount arg s b ≤ 0) :
    ForgedPass arg sdk s r b committed [] 0 := by
  have hlt : b < arg.bucketSize := hb ▸ Arg.Valid.htHash_lt ha.bucket_pos _
  have hsame := sameCounts_forged ha hs hlt [] 0
  have hlen := ((hsame.insertable ha).mpr hins).length_pushed ha hsame.shaped hlt (r.entry sdk)
  rw [hsame.totalMacCount_eq] at hlen
  have hnil : checkedMacs arg (forged arg s b [] 0) b (r.entry sdk) = [] := if_pos (by omega)
  refine ⟨Or.inl hnil,
    forged_accepted ha hs hr hk hb hroot hins [] 0 (Or.inl hzero) (Or.inl hnil), fun hagg => ?_⟩
  have hpos := List.length_pos_iff.mpr hne
  have := (groupMacs_of_aggregateMac_forged ha hs hlt hagg).2.2
  omega

variable (hopt : arg.macOpt = true) (htotal : totalMacCount arg s b = committed.length)
  (hidx : prevMacCount arg s b + (s.chain b).length ≤ totalMacCount arg s b)

include hopt htotal hidx

/-- If the buffer counts fewer MACs than the chain has entries, an insert looks for the new MAC
behind it, and takes out another one. -/
theorem forgedPass_of_fewer (hless : (s.buf b).size < (s.chain b).length) :
    ∃ l y, ForgedPass arg sdk s r b committed l y := by
  have hlt : b < arg.bucketSize := hb ▸ Arg.Valid.htHash_lt ha.bucket_pos _
  have hmem : b ∈ groupRange arg b := ha.mem_groupRange_iff.mpr rfl
  obtain ⟨hgroup', heq⟩ := checkedMacs_forged ha hs hlt hopt hins hne htotal hidx (r.entry sdk)
    (c := otherMac committed (offsetAfter arg s b b + ((s.chain b).length - 1)))
    (fun hn => absurd hn (by unfold sizeAfter; rw [if_pos rfl]; omega)) 0
  refine ⟨_, _, Or.inr heq,
    forged_accepted ha hs hr hk hb hroot hins _ _ (Or.inr ⟨hopt, hidx⟩) (Or.inr heq), fun hagg => ?_⟩
  obtain ⟨hgroup, hrange, -⟩ := groupMacs_of_aggregateMac_forged ha hs hlt hagg
  have hsame := sameCounts_forged ha hs hlt (committed.insertIdx (offsetAfter arg s b b +
    (s.chain b).length) (otherMac committed (offsetAfter arg s b b + ((s.chain b).length - 1)))) 0
  -- the MAC at the index of the new one is the one before it, which was made to differ
  have hget := getElem?_groupMacs_pushed ha hsame.shaped hlt hopt hrange (r.entry sdk)
    (by rw [hsame.sizes b hmem, hsame.chains b hmem]; exact hless)
    ((bufsInRange_pushed_iff hsame.shaped hlt _).mpr ((hsame.insertable ha).mpr hins).range)
  rw [hgroup, hgroup', length_beforeMacs_forged ha hs hlt hopt hins, hsame.chains b hmem,
    List.getElem?_insertIdx_self, if_pos] at hget
  · exact getElem?_ne_otherMac _ _ hget.symm
  · have := natCast_offsetAfter ha hopt hins
    omega

/-- If the buffer counts more, an insert overwrites a MAC of the list, which can have been
anything. -/
theorem forgedPass_of_more (hmore : (s.chain b).length < (s.buf b).size) :
    ∃ l y, ForgedPass arg sdk s r b committed l y := by
  have hlt : b < arg.bucketSize := hb ▸ Arg.Valid.htHash_lt ha.bucket_pos _
  obtain ⟨-, heq⟩ := checkedMacs_forged ha hs hlt hopt hins hne htotal hidx (r.entry sdk)
    (c := (r.entry sdk).mac) (fun _ => rfl)
    (otherMac committed (offsetAfter arg s b b + (s.chain b).length))
  refine ⟨_, _, Or.inr heq,
    forged_accepted ha hs hr hk hb hroot hins _ _ (Or.inr ⟨hopt, hidx⟩) (Or.inr heq), fun hagg => ?_⟩
  obtain ⟨hgroup, hrange, -⟩ := groupMacs_of_aggregateMac_forged ha hs hlt hagg
  have hget := getElem?_groupMacs_forged ha hs hlt hopt _ _ hrange hmore
  rw [hgroup, length_beforeMacs_forged ha hs hlt hopt hins] at hget
  exact getElem?_ne_otherMac _ _ hget

end Forging

/-- With counts that are forgeable, there is memory in which an insert passes. -/
theorem Forgeable.exists_forgedPass (hf : Forgeable arg s b committed.length) (ha : arg.Valid)
    (hs : s.Shaped arg) (hr : r.Fits) (hk : r.key.length + 1 ≤ arg.maxBufSize)
    (hb : htHash arg (cstr r.key) = b) (hne : committed ≠ [])
    (hroot : s.root (rootIndex arg b) = rootTag sdk committed) :
    ∃ l y, ForgedPass arg sdk s r b committed l y := by
  obtain ⟨hins, hzero | ⟨hopt, htotal, hsize, hidx⟩⟩ := hf
  · exact ⟨_, _, forgedPass_of_total ha hs hr hk hb hne hroot hins hzero⟩
  · rcases lt_or_gt_of_ne hsize with hless | hmore
    · exact forgedPass_of_fewer ha hs hr hk hb hne hroot hins hopt htotal hidx hless
    · exact forgedPass_of_more ha hs hr hk hb hne hroot hins hopt htotal hidx hmore

end Authentic

/-- The counts of a store that only the enclave has written are not forgeable. -/
theorem GroupSized.not_forgeable {arg : Arg} {s : Store} {b : ℕ} (h : GroupSized arg s b)
    (ha : arg.Valid) (hne : groupMacs arg s b ≠ []) (len : ℕ) : ¬ Forgeable arg s b len := by
  rintro ⟨-, hzero | ⟨hopt, -, hsize, -⟩⟩
  · have hlen := length_groupMacs_eq h.inRange
    have := List.length_pos_iff.mpr hne
    omega
  · exact hsize (h.bucket ha hopt).1

/-- **When an accepted insert has checked the memory.**  The root commits to a list of MACs,
and the host comes up with memory that has certain counts.  A `SET` of a key that is
not found replaces the root only if the memory has the list the root commits to, just
when the counts are not forgeable.  The root's MAC is taken to be injective on the two
lists. -/
theorem insert_authentic_iff {arg : Arg} (sdk : Sdk) (ha : arg.Valid) {s : Store} (hs : s.Shaped arg)
    {k v : List UInt8} {lower : Bool} {rand : Block}
    (hq : Req.WellFormed arg ⟨.set k v, lower, rand⟩) {committed : List Block} (hne : committed ≠ [])
    (hroot : s.root (keyGroup arg k) = rootTag sdk committed) :
    (∀ t out, SameCounts arg s t (htHash arg (cstr k)) → missed arg sdk t k = true →
        (checkedMacs arg t (htHash arg (cstr k)) (Rec.entry sdk ⟨k, v, rand⟩) ≠ [] →
          rootTag sdk (checkedMacs arg t (htHash arg (cstr k)) (Rec.entry sdk ⟨k, v, rand⟩)) =
            rootTag sdk committed →
          checkedMacs arg t (htHash arg (cstr k)) (Rec.entry sdk ⟨k, v, rand⟩) = committed) →
        serve arg sdk t ⟨.set k v, lower, rand⟩ = some out → Clean out.log →
        aggregateMac arg t (htHash arg (cstr k)) = some committed) ↔
      ¬ Forgeable arg s (htHash arg (cstr k)) committed.length := by
  have hlen := hq.op_fits.length_le
  have hbuf := ha.buf_lt
  dsimp only [Op.key, Op.val] at hlen
  have hr : Rec.Fits ⟨k, v, rand⟩ :=
    ⟨hq.word, hq.val_nul, by show k.length + v.length + 27 < 2 ^ 32; omega⟩
  have hk : k.length + 1 ≤ arg.maxBufSize := by omega
  constructor
  · intro hauth hf
    -- counts that are forgeable have a forgery
    obtain ⟨l, y, hchecked, ⟨out, hout, hclean⟩, hagg⟩ :=
      hf.exists_forgedPass ha hs hr hk rfl hne hroot
    have hlt := Arg.Valid.htHash_lt ha.bucket_pos (cstr k)
    refine hagg (hauth _ out (sameCounts_forged ha hs hlt l y) ?_ ?_ ?_ hclean)
    · simp [missed, htGetO_forged hs hlt l y sdk rfl]
    · intro hnil _
      exact hchecked.resolve_left hnil
    · rw [serve_eq sdk ha hq]
      exact hout
  · intro hnot t out hsame hmiss hinj hserve hclean
    rw [serve_eq sdk ha hq] at hserve
    refine aggregateMac_of_accepted ha hsame.shaped hr hk rfl ?_ hmiss hinj
      ⟨out, hserve, hclean⟩ ?_
    · rw [← hroot]
      exact congrArg (fun m => m[keyGroup arg k]?.getD 0) hsame.roots
    -- the counts are those of the store, in whatever memory
    · rintro ⟨hins, hpasses⟩
      refine hnot ⟨(hsame.insertable ha).mp hins, ?_⟩
      have hmem := (ha.mem_groupRange_iff (b := htHash arg (cstr k))).mpr rfl
      rwa [hsame.totalMacCount_eq, hsame.prevMacCount_eq ha, hsame.chains _ hmem,
        hsame.sizes _ hmem] at hpasses

/-- The counts of a store with one entry. -/
theorem insert_authentic_iff_second :
    ∃ s₀ outs, run (serveStep ⟨1, 32, 2, 1, true, true⟩ Sdk.aes)
        (enclaveInitValues ⟨1, 32, 2, 1, true, true⟩) [⟨.set [0x6b] [0x76], false, 1⟩] =
          some (s₀, outs) ∧
      ∀ t out, SameCounts ⟨1, 32, 2, 1, true, true⟩ s₀ t
          (htHash ⟨1, 32, 2, 1, true, true⟩ (cstr [0x6d])) →
        missed ⟨1, 32, 2, 1, true, true⟩ Sdk.aes t [0x6d] = true →
        (checkedMacs ⟨1, 32, 2, 1, true, true⟩ t (htHash ⟨1, 32, 2, 1, true, true⟩ (cstr [0x6d]))
            (Rec.entry Sdk.aes ⟨[0x6d], [0x77], 2⟩) ≠ [] →
          rootTag Sdk.aes (checkedMacs ⟨1, 32, 2, 1, true, true⟩ t
            (htHash ⟨1, 32, 2, 1, true, true⟩ (cstr [0x6d]))
            (Rec.entry Sdk.aes ⟨[0x6d], [0x77], 2⟩)) =
              rootTag Sdk.aes (groupMacs ⟨1, 32, 2, 1, true, true⟩ s₀ 0) →
          checkedMacs ⟨1, 32, 2, 1, true, true⟩ t (htHash ⟨1, 32, 2, 1, true, true⟩ (cstr [0x6d]))
            (Rec.entry Sdk.aes ⟨[0x6d], [0x77], 2⟩) = groupMacs ⟨1, 32, 2, 1, true, true⟩ s₀ 0) →
        serve ⟨1, 32, 2, 1, true, true⟩ Sdk.aes t ⟨.set [0x6d] [0x77], false, 2⟩ = some out →
        Clean out.log →
        aggregateMac ⟨1, 32, 2, 1, true, true⟩ t (htHash ⟨1, 32, 2, 1, true, true⟩ (cstr [0x6d])) =
          some (groupMacs ⟨1, 32, 2, 1, true, true⟩ s₀ 0) := by
  have h : (run (serveStep ⟨1, 32, 2, 1, true, true⟩ Sdk.aes) (enclaveInitValues ⟨1, 32, 2, 1, true, true⟩)
      [⟨.set [0x6b] [0x76], false, 1⟩]).map (fun p => decide (
        groupMacs ⟨1, 32, 2, 1, true, true⟩ p.1 0 ≠ [] ∧
        p.1.root (keyGroup ⟨1, 32, 2, 1, true, true⟩ [0x6d]) =
          rootTag Sdk.aes (groupMacs ⟨1, 32, 2, 1, true, true⟩ p.1 0))) = some true := by
    decide +kernel
  obtain ⟨⟨s₀, outs⟩, hrun, h⟩ := Option.map_eq_some_iff.mp h
  obtain ⟨hne, hroot⟩ := of_decide_eq_true h
  have hstocked := stocked_of_run (by decide) (by decide) hrun
  have hgroup : groupMacs ⟨1, 32, 2, 1, true, true⟩ s₀ (htHash ⟨1, 32, 2, 1, true, true⟩ (cstr [0x6d])) =
      groupMacs ⟨1, 32, 2, 1, true, true⟩ s₀ 0 := by
    rw [show htHash ⟨1, 32, 2, 1, true, true⟩ (cstr [0x6d]) = 0 by decide]
  refine ⟨s₀, outs, hrun, (insert_authentic_iff Sdk.aes (by decide) hstocked.shaped (by decide) hne
    hroot).mpr ?_⟩
  refine (hstocked.sized.group (by decide) (by decide)).not_forgeable (by decide) ?_ _
  rw [hgroup]
  exact hne

/-- **An insert that is not authentic.**  The host cuts the chains; a `SET` of another key
finds nothing to check, and replaces the root. -/
theorem insert_not_authentic :
    ∃ s₀ outs out, run (serveStep ⟨1, 32, 2, 1, true, false⟩ Sdk.aes)
        (enclaveInitValues ⟨1, 32, 2, 1, true, false⟩) [⟨.set [0x6b] [0x76], false, 1⟩] =
          some (s₀, outs) ∧
      (aggregateMac ⟨1, 32, 2, 1, true, false⟩ s₀ 0).map List.length = some 1 ∧
      serve ⟨1, 32, 2, 1, true, false⟩ Sdk.aes (s₀.emptied ⟨1, 32, 2, 1, true, false⟩)
        ⟨.set [0x6d] [0x77], false, 2⟩ = some out ∧ Clean out.log ∧
      aggregateMac ⟨1, 32, 2, 1, true, false⟩ (s₀.emptied ⟨1, 32, 2, 1, true, false⟩) 0 = some [] ∧
      out.store.root 0 ≠ s₀.root 0 := by
  have h : ((run (serveStep ⟨1, 32, 2, 1, true, false⟩ Sdk.aes)
      (enclaveInitValues ⟨1, 32, 2, 1, true, false⟩) [⟨.set [0x6b] [0x76], false, 1⟩]).bind fun p =>
        (serve ⟨1, 32, 2, 1, true, false⟩ Sdk.aes (p.1.emptied ⟨1, 32, 2, 1, true, false⟩)
          ⟨.set [0x6d] [0x77], false, 2⟩).map fun out => decide (
        (aggregateMac ⟨1, 32, 2, 1, true, false⟩ p.1 0).map List.length = some 1 ∧ Clean out.log ∧
        aggregateMac ⟨1, 32, 2, 1, true, false⟩ (p.1.emptied ⟨1, 32, 2, 1, true, false⟩) 0 =
          some [] ∧ out.store.root 0 ≠ p.1.root 0)) = some true := by decide +kernel
  obtain ⟨⟨s₀, outs⟩, hrun, h⟩ := Option.bind_eq_some_iff.mp h
  obtain ⟨out, hserve, h⟩ := Option.map_eq_some_iff.mp h
  obtain ⟨hlen, hclean, hnil, hroot⟩ := of_decide_eq_true h
  exact ⟨s₀, outs, out, hrun, hlen, hserve, hclean, hnil, hroot⟩

end ShieldStore
