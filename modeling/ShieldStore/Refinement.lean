import ShieldStore.Write
import ShieldStore.Lib.Run

/-!
# The store refines the map

The memory that only the enclave touches is the image of records (`Holds`): every
chain is the chain of its bucket's records.  The roots are right when each
authenticates the MACs of its group, and the MAC buffers hold the MACs of the
chains in reverse order (`Rooted`).

Each request keeps the first; a request keeps the second, and prints no failure,
except for one kind of request under MAC bucketing, an `APP` to an entry that is
not in the middle of its chain (`centered`).

## Main definitions

* `Holds` — the table is the image of the records.
* `Stocked` — the table carries the records, whatever their MACs are.
* `Rooted` — the roots authenticate the groups.
* `Served` — what a request does.
* `serveStep` — a request as a step of the server.

## Main results

* `serve_spec` — every request of a client is served as `Served` says.
* `exists_run_serveStep` — every run is a run of the records.
* `serve_refines_map` — the store without options refines the map.
-/

namespace ShieldStore

open Bytes Counter CMem Run

/-! ### Invariants -/

/-- The order in which the MACs of a chain stand among the MACs of the group. -/
def ordered (arg : Arg) (macs : List Block) : List Block := if arg.macOpt then macs.reverse else macs

/-- The MACs of every bucket are those of its chain, and every root authenticates
the MACs of its group; a group without entries has no root yet. -/
structure Rooted (arg : Arg) (sdk : Sdk) (s : Store) : Prop where
  mirror : ∀ b < arg.bucketSize, bucketMacs arg s b = ordered arg ((s.chain b).map (·.mac))
  roots : ∀ b < arg.bucketSize, groupMacs arg s b ≠ [] →
    s.root (rootIndex arg b) = rootTag sdk (groupMacs arg s b)

/-- The table is the image of the records. -/
structure Holds (arg : Arg) (sdk : Sdk) (R : Recs) (s : Store) : Prop where
  ok : R.Ok arg
  fits : ∀ b, ∀ r ∈ R b, r.Fits
  shaped : s.Shaped arg
  chain : ∀ b, s.chain b = (R b).map (Rec.entry sdk)
  sized : BufsSized arg s

/-- The table carries the records, whatever MACs its entries have. -/
structure Stocked (arg : Arg) (sdk : Sdk) (R : Recs) (s : Store) : Prop where
  ok : R.Ok arg
  shaped : s.Shaped arg
  chain : ∀ b, List.Forall₂ (Carries sdk) (s.chain b) (R b)
  sized : BufsSized arg s

/-- The values fit a message, and the MACs of a bucket fit its buffer. -/
structure Recs.Room (arg : Arg) (R : Recs) : Prop where
  vals : ∀ b, ∀ r ∈ R b, r.val.length + 1 ≤ arg.maxBufSize
  slots : arg.macOpt = true → ∀ b, (R b).length ≤ macSlots

/-- With MAC bucketing, an `APP` to a key that is there goes to the entry in the
middle of its chain. -/
def centered (arg : Arg) (R : Recs) (q : Req) : Bool :=
  match arg.macOpt, q.op with
  | true, .append k _ =>
      let keys := (R (htHash arg (cstr k))).map Rec.key
      !keys.contains k || 2 * keys.idxOf k + 1 == keys.length
  | _, _ => true

/-- The operation changes nothing in the map. -/
def Op.Reads (m : StringMap) : Op → Prop
  | .get _ => True
  | .set _ _ => False
  | .append k _ => m k = none

/-- What a request does. -/
structure Served (arg : Arg) (sdk : Sdk) (R : Recs) (s : Store) (q : Req) (out : Outcome) : Prop where
  reply : out.cipher = (R.map arg).reply arg q
  holds : Holds arg sdk (R.step arg q) out.store
  unchanged : q.op.Reads (R.map arg) → out.store = s
  rooted : Rooted arg sdk s → centered arg R q = true → Rooted arg sdk out.store ∧ Clean out.log

/-! ### The order of the MACs -/

theorem ordered_cons (arg : Arg) (x : Block) (macs : List Block) :
    ordered arg (x :: macs) = pushMac arg (ordered arg macs) x := by
  unfold ordered pushMac
  split <;> simp

theorem ordered_set (arg : Arg) {macs : List Block} {pos : ℕ} (hpos : pos < macs.length) (x : Block) :
    ordered arg (macs.set pos x) = (ordered arg macs).set (slot arg macs.length pos) x := by
  unfold ordered slot
  split
  · refine List.ext_getElem (by simp) fun i h₁ h₂ => ?_
    simp only [List.length_reverse, List.length_set] at h₁ h₂
    rw [List.getElem_reverse, List.getElem_set, List.getElem_set, List.getElem_reverse]
    simp only [List.length_set]
    have hiff : pos = macs.length - 1 - i ↔ macs.length - pos - 1 = i := by omega
    by_cases hi : macs.length - pos - 1 = i
    · rw [if_pos hi, if_pos (hiff.mpr hi)]
    · rw [if_neg hi, if_neg (fun h => hi (hiff.mp h))]
  · rfl

/-- Writing a MAC of the chain to its place changes nothing. -/
theorem ordered_set_self (arg : Arg) {chain pre post : List Entry} {e : Entry}
    (h : chain = pre ++ e :: post) :
    (ordered arg (chain.map (·.mac))).set (slot arg chain.length pre.length) e.mac =
      ordered arg (chain.map (·.mac)) := by
  have hmap : (chain.map (·.mac)).set pre.length e.mac = chain.map (·.mac) := by
    rw [h, List.map_append, List.map_cons, List.set_append_right _ _ (by simp)]
    simp
  have hlt : pre.length < (chain.map (·.mac)).length := by
    rw [h, List.length_map, List.length_append, List.length_cons]
    omega
  rw [← List.length_map (·.mac), ← ordered_set arg hlt, hmap]

/-! ### Roots after a write -/

theorem groupMacs_congr {arg : Arg} {b i : ℕ} (h : rootIndex arg b = rootIndex arg i) (s : Store) :
    groupMacs arg s b = groupMacs arg s i := by
  unfold rootIndex at h
  unfold groupMacs groupRange startIndex
  rw [h]

/-- A write keeps the roots right if it keeps the order of the MACs, and the list it
checks is the one before it. -/
theorem Rooted.commit {arg : Arg} {sdk : Sdk} {s : Store} (h : Rooted arg sdk s) (ha : arg.Valid)
    (hs : s.Shaped arg) {b : ℕ} (hb : b < arg.bucketSize) {chain : List Entry} {e : MacEntry}
    {before after : List Block}
    (hmirror : macsOf arg chain e = ordered arg (chain.map (·.mac)))
    (hbefore : before = groupMacs arg s b) (hafter : after = groupWith arg s b (macsOf arg chain e))
    (cipher : List UInt8) {log : List Event} (hlog : Clean log) :
    Rooted arg sdk
      (ShieldStore.commit sdk (s.write b chain e) (rootIndex arg b) before after cipher log).store ∧
    Clean (ShieldStore.commit sdk (s.write b chain e) (rootIndex arg b) before after cipher log).log := by
  subst hbefore hafter
  have hok : groupMacs arg s b = [] ∨
      rootTag sdk (groupMacs arg s b) = (s.write b chain e).root (rootIndex arg b) := by
    by_cases hnil : groupMacs arg s b = []
    · exact Or.inl hnil
    · exact Or.inr (h.roots b hb hnil).symm
  unfold ShieldStore.commit
  rw [if_pos hok]
  refine ⟨⟨?_, ?_⟩, hlog⟩
  · intro i hi
    rw [bucketMacs_setRoot, Store.chain_setRoot, bucketMacs_write hs hb, hs.chain_write hb]
    split
    · exact hmirror
    · exact h.mirror i hi
  · intro i hi hne
    rw [groupMacs_setRoot] at hne ⊢
    rw [(hs.write b chain e).root_setRoot (ha.rootIndex_lt hb), Store.root_write]
    -- buckets of the group have the new root, the others the one they had
    by_cases hg : rootIndex arg b = rootIndex arg i
    · rw [if_pos hg, ← groupMacs_congr hg, groupMacs_write hs ha hb]
    · rw [if_neg hg]
      rw [groupMacs_write_of_ne hs ha hb hg] at hne ⊢
      exact h.roots i hi hne

section Writes

variable {arg : Arg} {sdk : Sdk} {s : Store} (h : Rooted arg sdk s) (ha : arg.Valid)
  (hs : s.Shaped arg) {b : ℕ} (hb : b < arg.bucketSize)

include h ha hs hb

/-- An update keeps the roots right if the slot it writes is that of its entry. -/
theorem Rooted.update {pre post : List Entry} {e : Entry} (hchain : s.chain b = pre ++ e :: post)
    (e' : Entry) {i : ℕ} (hi : i = slot arg (s.chain b).length pre.length) (cipher : List UInt8)
    {log : List Event} (hlog : Clean log) :
    Rooted arg sdk (commitUpdate arg sdk s b pre post e e' i cipher log).store ∧
      Clean (commitUpdate arg sdk s b pre post e e' i cipher log).log := by
  subst hi
  have hset : (pre ++ e' :: post).map (·.mac) =
      ((s.chain b).map (·.mac)).set pre.length e'.mac := by
    rw [hchain, List.map_append, List.map_append, List.map_cons, List.map_cons,
      List.set_append_right _ _ (by simp)]
    simp
  have hpos : pre.length < ((s.chain b).map (·.mac)).length := by
    rw [hchain, List.length_map, List.length_append, List.length_cons]
    omega
  have hmacs := macsOf_put hchain
    (show arg.macOpt = false → slot arg (s.chain b).length pre.length = pre.length from
      fun hopt => by simp [slot, hopt]) e'
  refine h.commit ha hs hb ?_ ?_ (by rw [hmacs]) cipher hlog
  · -- writing a MAC into the chain is writing its slot of the bucket's MACs
    rw [hmacs, hset, ordered_set arg hpos, List.length_map, ← h.mirror b hb]
  · -- and the MAC that is put back for the check is the one the slot had
    have hsame := ordered_set_self arg hchain
    rw [← h.mirror b hb] at hsame
    rw [List.set_set, groupMacs_eq_groupWith ha]
    exact congrArg _ hsame

/-- An insert keeps the roots right. -/
theorem Rooted.insert (hz : BufSized arg s b)
    (hroom : arg.macOpt = true → (s.chain b).length < macSlots) (e : Entry) (cipher : List UInt8)
    {log : List Event} (hlog : Clean log) :
    let out := ShieldStore.commit sdk
      (s.write b (e :: s.chain b) (pushBuf arg (s.buf b) (s.chain b).length e.mac)) (rootIndex arg b)
      (groupMacs arg s b) (groupWith arg s b (pushMac arg (bucketMacs arg s b) e.mac)) cipher log
    Rooted arg sdk out.store ∧ Clean out.log := by
  have hmacs := macsOf_push hz hroom e
  refine h.commit ha hs hb ?_ rfl (congrArg _ hmacs.symm) cipher hlog
  rw [hmacs, List.map_cons, ordered_cons, h.mirror b hb]

end Writes

/-- The slot that an `APP` writes is that of its entry if the entry is in the middle of
its chain. -/
theorem slot_of_centered {arg : Arg} {R : Recs} {pre post : List Rec} {r : Rec} {v : List UInt8}
    {lower : Bool} {rand : Block} (hR : R (htHash arg (cstr r.key)) = pre ++ r :: post)
    (hpre : ∀ r' ∈ pre, r'.key ≠ r.key)
    (hcenter : centered arg R ⟨.append r.key v, lower, rand⟩ = true) :
    pre.length = slot arg (R (htHash arg (cstr r.key))).length pre.length := by
  cases hopt : arg.macOpt with
  | false => simp [slot, hopt]
  | true =>
    have hnot : r.key ∉ pre.map Rec.key := by
      intro hin
      obtain ⟨r', hr', hkey⟩ := List.mem_map.mp hin
      exact hpre r' hr' hkey
    have hidx : ((pre ++ r :: post).map Rec.key).idxOf r.key = pre.length := by
      rw [List.map_append, List.idxOf_append_of_notMem hnot, List.map_cons, List.idxOf_cons_self,
        List.length_map, Nat.add_zero]
    simp only [centered, hopt, hR, hidx, List.length_map, List.length_append, List.length_cons,
      Bool.or_eq_true, beq_iff_eq] at hcenter
    have hmid := hcenter.resolve_left (by simp)
    simp only [slot, hopt, if_true, hR, List.length_append, List.length_cons]
    omega

/-! ### The table -/

theorem Holds.stocked {arg : Arg} {sdk : Sdk} {R : Recs} {s : Store} (h : Holds arg sdk R s) :
    Stocked arg sdk R s := by
  refine ⟨h.ok, h.shaped, fun b => ?_, h.sized⟩
  rw [h.chain, List.forall₂_map_left_iff, List.forall₂_same]
  exact fun r hr => (h.fits b r hr).carries

section Stocked

variable {arg : Arg} {sdk : Sdk} {R : Recs} {s : Store} {k : List UInt8} (ha : arg.Valid)
  (h : Stocked arg sdk R s)

include h

/-- The entries of a chain carry the records of its bucket. -/
theorem Stocked.exists_carries {b : ℕ} {e : Entry} (he : e ∈ s.chain b) :
    ∃ r ∈ R b, Carries sdk e r := by
  obtain ⟨i, hi, rfl⟩ := List.getElem_of_mem he
  obtain ⟨hlen, hget⟩ := List.forall₂_iff_get.mp (h.chain b)
  exact ⟨(R b)[i], List.getElem_mem _, hget i hi (hlen ▸ hi)⟩

/-- The chain around the entry that carries a record. -/
theorem Stocked.chain_of_split {pre post : List Rec} {r : Rec} {b : ℕ} (hR : R b = pre ++ r :: post) :
    ∃ pre' e post', s.chain b = pre' ++ e :: post' ∧ List.Forall₂ (Carries sdk) pre' pre ∧
      Carries sdk e r ∧ List.Forall₂ (Carries sdk) post' post := by
  have hchain := h.chain b
  rw [hR] at hchain
  have hpre := List.forall₂_take_append _ _ _ hchain
  obtain ⟨e, post', he, hpost, heq⟩ :=
    List.forall₂_cons_right_iff.mp (List.forall₂_drop_append _ _ _ hchain)
  exact ⟨_, e, post', by rw [← heq, List.take_append_drop], hpre, he, hpost⟩

include ha

/-- A group with an entry has MACs. -/
theorem Stocked.groupMacs_ne_nil {b : ℕ} (hb : b < arg.bucketSize) (hne : R b ≠ []) :
    groupMacs arg s b ≠ [] := by
  have hlen := (h.sized.bucket hb).length_bucketMacs
  rw [(h.chain b).length_eq] at hlen
  have hpos := List.length_pos_iff.mpr hne
  rw [groupMacs_eq_groupWith ha, groupWith]
  intro hnil
  have := congrArg List.length hnil
  simp only [List.length_append, List.length_nil] at this
  omega

/-- A key without a record is not found. -/
theorem Stocked.htGetO_absent (hk : k.length + 1 < 2 ^ 32)
    (habs : k ∉ (R (htHash arg (cstr k))).map Rec.key) :
    htGetO arg sdk s (cstr k) (strSize k) =
      some ⟨none, none, (s.chain (htHash arg (cstr k))).length, 0⟩ := by
  unfold htGetO
  simp only [h.shaped.table_getElem? (Arg.Valid.htHash_lt ha.bucket_pos _), Option.bind_eq_bind,
    Option.bind_some]
  refine htGetLoop_absent hk fun e he => ?_
  obtain ⟨r, hr, hcarries⟩ := h.exists_carries he
  exact ⟨r, hcarries, fun hkey => habs (List.mem_map.mpr ⟨r, hr, hkey⟩)⟩

/-- A key with a record is found at its place. -/
theorem Stocked.htGetO_present {pre : List Entry} {e : Entry} {post : List Entry} {pre' : List Rec}
    {r : Rec} (hchain : s.chain (htHash arg (cstr r.key)) = pre ++ e :: post)
    (hpre : List.Forall₂ (Carries sdk) pre pre') (he : Carries sdk e r)
    (hne : ∀ r' ∈ pre', r'.key ≠ r.key) :
    htGetO arg sdk s (cstr r.key) (strSize r.key) =
      some ⟨some e, some r.plain, pre.length, r.next⟩ := by
  unfold htGetO
  simp only [h.shaped.table_getElem? (Arg.Valid.htHash_lt ha.bucket_pos _), Option.bind_eq_bind,
    Option.bind_some, hchain]
  refine htGetLoop_present (fun e' he' => ?_) he
  obtain ⟨i, hi, rfl⟩ := List.getElem_of_mem he'
  obtain ⟨hlen, hget⟩ := List.forall₂_iff_get.mp hpre
  exact ⟨pre'[i], hget i hi (hlen ▸ hi), hne _ (List.getElem_mem _)⟩

end Stocked

/-! ### The table after a write -/

/-- What holds of every chain and its bucket's records holds after a write, if it holds
of what is written. -/
theorem forall_chain_write {arg : Arg} {R : Recs} {s : Store} (ha : arg.Valid) (hs : s.Shaped arg)
    {P : List Entry → List Rec → Prop} (h : ∀ b, P (s.chain b) (R b)) {k : List UInt8}
    {f : List Rec → List Rec} {chain : List Entry} (hnew : P chain (f (R (htHash arg (cstr k)))))
    (e : MacEntry) :
    ∀ b, P ((s.write (htHash arg (cstr k)) chain e).chain b) (R.change arg k f b) := by
  intro b
  rw [hs.chain_write (Arg.Valid.htHash_lt ha.bucket_pos _)]
  unfold Recs.change
  rcases eq_or_ne b (htHash arg (cstr k)) with rfl | hne
  · rw [if_pos rfl, Function.update_self]
    exact hnew
  · rw [if_neg hne.symm, Function.update_of_ne hne]
    exact h b

/-- Roots do not matter to the table. -/
theorem Holds.commit {arg : Arg} {sdk : Sdk} {R : Recs} {s : Store} (h : Holds arg sdk R s) (g : ℕ)
    (before after : List Block) (cipher : List UInt8) (log : List Event) :
    Holds arg sdk R (ShieldStore.commit sdk s g before after cipher log).store := by
  unfold ShieldStore.commit
  split
  · exact ⟨h.ok, h.fits, h.shaped.setRoot _ _, h.chain, h.sized⟩
  · exact h

/-- A write of the image of the changed records. -/
theorem Holds.change {arg : Arg} {sdk : Sdk} {R : Recs} {s : Store} (h : Holds arg sdk R s)
    (ha : arg.Valid) {k : List UInt8} {f : List Rec → List Rec} (hok : (R.change arg k f).Ok arg)
    (hfits : ∀ r ∈ f (R (htHash arg (cstr k))), r.Fits) {chain : List Entry} {e : MacEntry}
    (hchain : chain = (f (R (htHash arg (cstr k)))).map (Rec.entry sdk))
    (hsized : BufsSized arg (s.write (htHash arg (cstr k)) chain e)) :
    Holds arg sdk (R.change arg k f) (s.write (htHash arg (cstr k)) chain e) := by
  have hall := forall_chain_write ha h.shaped
    (P := fun chain rs => (∀ r ∈ rs, r.Fits) ∧ chain = rs.map (Rec.entry sdk))
    (fun b => ⟨h.fits b, h.chain b⟩) ⟨hfits, hchain⟩ e
  exact ⟨hok, fun b => (hall b).1, h.shaped.write _ _ _, fun b => (hall b).2, hsized⟩

section Steps

variable {arg : Arg} {sdk : Sdk} {R : Recs} {s : Store} {k : List UInt8} (ha : arg.Valid)
  (h : Holds arg sdk R s)

include ha h

/-- A key with a record is found at its place. -/
theorem Holds.htGetO_present {pre post : List Rec} {r : Rec}
    (hR : R (htHash arg (cstr r.key)) = pre ++ r :: post) (hpre : ∀ r' ∈ pre, r'.key ≠ r.key) :
    htGetO arg sdk s (cstr r.key) (strSize r.key) = some (r.hit sdk [] pre.length) := by
  have hfits : ∀ r' ∈ pre ++ r :: post, r'.Fits := hR ▸ h.fits _
  have hchain : s.chain (htHash arg (cstr r.key)) =
      pre.map (Rec.entry sdk) ++ r.entry sdk :: post.map (Rec.entry sdk) := by
    rw [h.chain, hR, List.map_append, List.map_cons]
  have hcarries : List.Forall₂ (Carries sdk) (pre.map (Rec.entry sdk)) pre := by
    rw [List.forall₂_map_left_iff, List.forall₂_same]
    exact fun r' hr' => (hfits r' (by simp [hr'])).carries
  have hget := h.stocked.htGetO_present ha hchain hcarries (hfits r (by simp)).carries hpre
  rwa [List.length_map] at hget

omit ha in
/-- The chain around the entry of a record. -/
theorem Holds.chain_of_split {pre post : List Rec} {r : Rec} {b : ℕ} (hR : R b = pre ++ r :: post) :
    s.chain b = pre.map (Rec.entry sdk) ++ r.entryWith sdk [] :: post.map (Rec.entry sdk) := by
  rw [h.chain, hR, List.map_append, List.map_cons]
  rfl

omit h in
/-- The new version of a record fits if its value fits a message. -/
theorem fits_revise {r : Rec} (hr : r.Fits) (hk : r.key.length + 5 ≤ arg.maxBufSize)
    {f : List UInt8 → List UInt8} (hnul : (0 : UInt8) ∉ f r.val)
    (hv : (f r.val).length + 1 ≤ arg.maxBufSize) : (r.revise f).Fits := by
  have hbuf := ha.buf_lt
  refine ⟨hr.word, hnul, ?_⟩
  show r.key.length + (f r.val).length + 27 < 2 ^ 32
  omega

/-- A `GET`. -/
theorem Holds.served_get {lower : Bool} {rand : Block}
    (hq : (Op.get k).Fits arg) (hroom : R.Room arg) :
    ∃ out, Req.apply arg sdk s ⟨.get k, lower, rand⟩ = some out ∧
      Served arg sdk R s ⟨.get k, lower, rand⟩ out := by
  have hk : k.length + 5 ≤ arg.maxBufSize := hq.key_lt
  have hbuf := ha.buf_lt
  have hb : htHash arg (cstr k) < arg.bucketSize := Arg.Valid.htHash_lt ha.bucket_pos _
  by_cases hmem : k ∈ (R (htHash arg (cstr k))).map Rec.key
  · obtain ⟨pre, r, post, hR, rfl, hpre, -⟩ := h.ok.split hmem
    have hr : r ∈ R (htHash arg (cstr r.key)) := by rw [hR]; simp
    refine ⟨_, getKeyVal_found ha h.shaped (h.sized.group ha hb).inRange (h.fits _ r hr) (hroom.vals _ r hr) rfl
      (h.htGetO_present ha hR hpre) _, ?_, h, fun _ => rfl, ?_⟩
    · simp [StringMap.reply, Op.key, map_of_split hR hpre]
    · intro hroot _
      -- the group has an entry, so that its root is the tag of its MACs
      have htag := hroot.roots _ hb (h.stocked.groupMacs_ne_nil ha hb (by rw [hR]; simp))
      exact ⟨hroot, by rw [if_pos htag.symm]; exact clean_nil⟩
  · refine ⟨_, getKeyVal_miss (h.stocked.htGetO_absent ha (by omega) hmem) _, ?_, h, fun _ => rfl, ?_⟩
    · simp [StringMap.reply, Op.key, map_eq_none_iff.mpr hmem]
    · intro hroot _
      exact ⟨hroot, by simp [Clean, Event.isFailure, Msg.isFailure]⟩

/-- An update of a key's record, with slot `i` of the bucket's MACs written. -/
theorem Holds.served_update {pre post : List Rec} {r : Rec} {f : List UInt8 → List UInt8}
    (hR : R (htHash arg (cstr r.key)) = pre ++ r :: post) (hpre : ∀ r' ∈ pre, r'.key ≠ r.key)
    (hpost : ∀ r' ∈ post, r'.key ≠ r.key) (hr' : (r.revise f).Fits) (i : ℕ) (cipher : List UInt8) :
    let out := commitUpdate arg sdk s (htHash arg (cstr r.key)) (pre.map (Rec.entry sdk))
      (post.map (Rec.entry sdk)) (r.entryWith sdk []) ((r.revise f).entryWith sdk []) i cipher []
    out.cipher = cipher ∧ Holds arg sdk (R.change arg r.key (reviseKey r.key f)) out.store ∧
      (Rooted arg sdk s → i = slot arg (R (htHash arg (cstr r.key))).length pre.length →
        Rooted arg sdk out.store ∧ Clean out.log) := by
  intro out
  have hb : htHash arg (cstr r.key) < arg.bucketSize := Arg.Valid.htHash_lt ha.bucket_pos _
  have hrevise := reviseKey_append f hpre hpost
  have hchain := h.chain_of_split hR
  have hlen : (s.chain (htHash arg (cstr r.key))).length = (R (htHash arg (cstr r.key))).length := by
    rw [h.chain, List.length_map]
  refine ⟨by simp [out, commitUpdate], ?_, ?_⟩
  -- the record is changed in its place
  · refine Holds.commit (h.change ha (h.ok.change_reviseKey r.key f) ?_ ?_ ?_) _ _ _ _ _
    · intro r'' hr''
      rw [hR, hrevise] at hr''
      have hold : ∀ r'' ∈ pre ++ r :: post, r''.Fits := hR ▸ h.fits _
      rcases List.mem_append.mp hr'' with hm | hm
      · exact hold r'' (by simp [hm])
      · rcases List.mem_cons.mp hm with rfl | hm
        · exact hr'
        · exact hold r'' (by simp [hm])
    · rw [hR, hrevise, List.map_append, List.map_cons]
      rfl
    · exact h.sized.put hb h.shaped (by rw [hchain]; simp) i _
  · intro hroot hslot
    refine hroot.update ha h.shaped hb hchain _ ?_ cipher clean_nil
    rw [hlen, List.length_map]
    exact hslot

/-- A `SET`. -/
theorem Holds.served_set {v : List UInt8} {lower : Bool} {rand : Block}
    (hq : (Op.set k v).Fits arg)
    (hslots : arg.macOpt = true → k ∉ (R (htHash arg (cstr k))).map Rec.key →
      (R (htHash arg (cstr k))).length < macSlots) :
    ∃ out, Req.apply arg sdk s ⟨.set k v, lower, rand⟩ = some out ∧
      Served arg sdk R s ⟨.set k v, lower, rand⟩ out := by
  have hk : k.length + 5 ≤ arg.maxBufSize := hq.key_lt
  have hv : v.length + 1 ≤ arg.maxBufSize := hq.val_lt
  have hnul : (0 : UInt8) ∉ v := hq.val_nul
  have hbuf := ha.buf_lt
  have hb : htHash arg (cstr k) < arg.bucketSize := Arg.Valid.htHash_lt ha.bucket_pos _
  have hok := h.ok.step ⟨.set k v, lower, rand⟩
  have hstep : R.step arg ⟨.set k v, lower, rand⟩ = R.change arg k (setKey k v rand) := rfl
  rw [hstep] at hok
  by_cases hmem : k ∈ (R (htHash arg (cstr k))).map Rec.key
  · obtain ⟨pre, r, post, hR, rfl, hpre, hpost⟩ := h.ok.split hmem
    have hr : r.Fits := h.fits _ r (by rw [hR]; simp)
    have hr' : (r.revise fun _ => v).Fits := fits_revise ha hr hk hnul hv
    have hchain := h.chain_of_split hR
    have hget := h.htGetO_present ha hR hpre
    rw [← List.length_map (Rec.entry sdk)] at hget
    obtain ⟨rest', hrest', hset⟩ := setKeyVal_update ha h.shaped h.sized hr hr' rfl rfl (by omega) rfl
      hget hchain rand
    -- nothing lies behind the entry before, and so nothing after
    obtain rfl := hrest' rfl
    rw [h.chain, List.length_map, List.length_map] at hset
    obtain ⟨hcipher, hholds, hrooted⟩ := h.served_update ha hR hpre hpost hr'
      (slot arg (R (htHash arg (cstr r.key))).length pre.length) (padded arg r.key)
    refine ⟨_, hset, hcipher.trans rfl, ?_, False.elim, fun hroot _ => hrooted hroot rfl⟩
    rw [hstep, Recs.change, setKey_of_mem hmem]
    exact hholds
  · have hr : Rec.Fits ⟨k, v, rand⟩ := ⟨hq.word, hnul, by show k.length + v.length + 27 < 2 ^ 32; omega⟩
    -- a new key goes to the head of its chain
    have hcons := setKey_of_notMem hmem v rand
    have hlen : (s.chain (htHash arg (cstr k))).length = (R (htHash arg (cstr k))).length := by
      rw [h.chain, List.length_map]
    have hslots : arg.macOpt = true → (s.chain (htHash arg (cstr k))).length < macSlots := by
      intro hopt
      rw [hlen]
      exact hslots hopt hmem
    refine ⟨_, setKeyVal_insert ha h.shaped h.sized hr (by show k.length + 1 ≤ _; omega) rfl
      (h.stocked.htGetO_absent ha (show k.length + 1 < 2 ^ 32 by omega) hmem) hslots,
      by simp [StringMap.reply], ?_, False.elim, ?_⟩
    · refine Holds.commit (h.change ha hok ?_ ?_ (h.sized.push hb h.shaped hslots _ _)) _ _ _ _ _
      · intro r hr''
        rw [hcons] at hr''
        rcases List.mem_cons.mp hr'' with rfl | hm
        · exact hr
        · exact h.fits _ r hm
      · rw [hcons, List.map_cons, h.chain]
    · intro hroot _
      exact hroot.insert ha h.shaped hb (h.sized.bucket hb) hslots (Rec.entry sdk ⟨k, v, rand⟩)
        (padded arg k) (by simp)

/-- An `APP`. -/
theorem Holds.served_append {v : List UInt8} {lower : Bool} {rand : Block}
    (hq : (Op.append k v).Fits arg)
    (hfits : ∀ r ∈ R (htHash arg (cstr k)), r.key = k → (r.revise (· ++ v)).Fits) :
    ∃ out, Req.apply arg sdk s ⟨.append k v, lower, rand⟩ = some out ∧
      Served arg sdk R s ⟨.append k v, lower, rand⟩ out := by
  have hk : k.length + 5 ≤ arg.maxBufSize := hq.key_lt
  have hnul : (0 : UInt8) ∉ v := hq.val_nul
  have hbuf := ha.buf_lt
  have hstep : R.step arg ⟨.append k v, lower, rand⟩ = R.change arg k (reviseKey k (· ++ v)) := rfl
  by_cases hmem : k ∈ (R (htHash arg (cstr k))).map Rec.key
  · obtain ⟨pre, r, post, hR, rfl, hpre, hpost⟩ := h.ok.split hmem
    have hr : r.Fits := h.fits _ r (by rw [hR]; simp)
    have hr' : (r.revise (· ++ v)).Fits := hfits r (by rw [hR]; simp) rfl
    have hchain := h.chain_of_split hR
    have hget := h.htGetO_present ha hR hpre
    rw [← List.length_map (Rec.entry sdk)] at hget
    have happ := appendKeyVal_found ha h.shaped h.sized hr hr' rfl rfl rfl (by omega) rfl hget hchain
      (Req.cut arg ⟨.append r.key v, lower, rand⟩)
    rw [List.length_map] at happ
    obtain ⟨hcipher, hholds, hrooted⟩ := h.served_update ha hR hpre hpost hr' pre.length
      (padded arg r.key)
    have hmap := map_of_split hR hpre
    refine ⟨_, happ, hcipher.trans ?_, hholds, ?_, ?_⟩
    · simp [StringMap.reply, Op.key, hmap]
    · intro hreads
      rw [Op.Reads, hmap] at hreads
      cases hreads
    · intro hroot hcenter
      exact hrooted hroot (slot_of_centered hR hpre hcenter)
  · have hmap := map_eq_none_iff.mpr hmem
    -- an `APP` to a key that is not there does nothing
    have hsame : R.step arg ⟨.append k v, lower, rand⟩ = R := by
      rw [hstep, Recs.change]
      rw [reviseKey_of_forall_ne fun r hr hkey => hmem (List.mem_map.mpr ⟨r, hr, hkey⟩),
        Function.update_eq_self]
    refine ⟨_, appendKeyVal_miss (h.stocked.htGetO_absent ha (by omega) hmem) _ _ _, ?_,
      by rw [hsame]; exact h, fun _ => rfl, ?_⟩
    · simp [StringMap.reply, Op.key, hmap]
    · intro hroot _
      exact ⟨hroot, by simp [Clean, Event.isFailure, Msg.isFailure]⟩

omit ha h in
/-- A `SET` has a slot for its MAC if there is room after it. -/
theorem length_lt_of_room {v : List UInt8} {lower : Bool} {rand : Block}
    (hroom : (R.step arg ⟨.set k v, lower, rand⟩).Room arg) (hopt : arg.macOpt = true)
    (hmem : k ∉ (R (htHash arg (cstr k))).map Rec.key) :
    (R (htHash arg (cstr k))).length < macSlots := by
  have hstep : R.step arg ⟨.set k v, lower, rand⟩ = R.change arg k (setKey k v rand) := rfl
  have hslots := hroom.slots hopt (htHash arg (cstr k))
  rw [hstep, Recs.change, Function.update_self, setKey_of_notMem hmem, List.length_cons] at hslots
  omega

/-- An `APP` leaves a record that fits if there is room after it. -/
theorem Holds.fits_of_room {v : List UInt8} {lower : Bool} {rand : Block}
    (hq : (Op.append k v).Fits arg) (hroom : (R.step arg ⟨.append k v, lower, rand⟩).Room arg) :
    ∀ r ∈ R (htHash arg (cstr k)), r.key = k → (r.revise (· ++ v)).Fits := by
  intro r hr hkey
  subst hkey
  have hfits := h.fits _ r hr
  refine fits_revise ha hfits hq.key_lt ?_ ?_
  · simpa using ⟨hfits.val_nul, hq.val_nul⟩
  · refine hroom.vals (htHash arg (cstr r.key)) (r.revise (· ++ v)) ?_
    have hstep : R.step arg ⟨.append r.key v, lower, rand⟩ =
        R.change arg r.key (reviseKey r.key (· ++ v)) := rfl
    rw [hstep, Recs.change, Function.update_self]
    exact List.mem_map.mpr ⟨r, hr, if_pos rfl⟩

/-- **A request of a client is served**: the reply is the one the map gives, the
table becomes the image of the next records, and no check fails that was right
before. -/
theorem serve_spec {q : Req} (hq : q.WellFormed arg) (hroom : (R.step arg q).Room arg) :
    ∃ out, serve arg sdk s q = some out ∧ Served arg sdk R s q out := by
  rw [serve_eq sdk ha hq]
  obtain ⟨op, lower, rand⟩ := q
  cases op with
  | get k => exact h.served_get ha hq.op_fits hroom
  | set k v => exact h.served_set ha hq.op_fits (length_lt_of_room hroom)
  | append k v => exact h.served_append ha hq.op_fits (h.fits_of_room ha hq.op_fits hroom)

end Steps

/-! ### Runs -/

/-- A request as a step of the server: the next store, and what the request left
behind. -/
def serveStep (arg : Arg) (sdk : Sdk) (s : Store) (q : Req) : Option (Store × Outcome) :=
  (serve arg sdk s q).map fun out => (out.store, out)

theorem serveStep_eq_some {arg : Arg} {sdk : Sdk} {s : Store} {q : Req} {out : Outcome}
    (h : serve arg sdk s q = some out) : serveStep arg sdk s q = some (out.store, out) := by
  rw [serveStep, h]
  rfl

theorem Holds.init {arg : Arg} (sdk : Sdk) : Holds arg sdk .empty (enclaveInitValues arg) := by
  have hchain : ∀ b, (enclaveInitValues arg).chain b = [] := by
    intro b
    unfold Store.chain enclaveInitValues
    rw [List.getElem?_replicate]
    split <;> rfl
  refine ⟨Recs.Ok.empty arg, fun _ _ h => absurd h List.not_mem_nil, ?_, hchain, ?_⟩
  · constructor <;> simp [enclaveInitValues]
  · intro _ b hb
    rw [hchain]
    unfold Store.buf enclaveInitValues
    rw [List.getElem?_replicate, if_pos hb]
    exact ⟨rfl, Nat.zero_le _⟩

theorem Rooted.init {arg : Arg} (ha : arg.Valid) (sdk : Sdk) :
    Rooted arg sdk (enclaveInitValues arg) := by
  have h : Holds arg sdk .empty (enclaveInitValues arg) := Holds.init sdk
  have hnil : ∀ b < arg.bucketSize, bucketMacs arg (enclaveInitValues arg) b = [] := by
    intro b hb
    rw [← List.length_eq_zero_iff, (h.sized.bucket hb).length_bucketMacs, h.chain]
    rfl
  constructor
  · intro b hb
    rw [hnil b hb, h.chain]
    unfold ordered
    split <;> rfl
  · intro b hb hne
    refine absurd ?_ hne
    unfold groupMacs
    rw [List.flatMap_eq_nil_iff]
    exact fun i hi => hnil i (ha.lt_of_mem_groupRange hb hi)

section Runs

variable {arg : Arg} (sdk : Sdk) (ha : arg.Valid) {qs : List Req}
  (hqs : ∀ q ∈ qs, q.WellFormed arg) (hroom : ∀ p, p <+: qs → (Recs.after arg p).Room arg)

include ha hqs hroom

omit ha in
/-- The requests of a run are admissible, one after the other. -/
theorem admissible : ∀ p q, p ++ [q] <+: qs →
    q.WellFormed arg ∧ ((p.foldl (Recs.step arg) .empty).step arg q).Room arg := by
  intro p q hp
  refine ⟨hqs q (hp.subset (by simp)), ?_⟩
  have := hroom _ hp
  rwa [Recs.after, List.foldl_append] at this

/-- **Every run is a run of the records.** -/
theorem exists_run_serveStep :
    ∃ s outs, run (serveStep arg sdk) (enclaveInitValues arg) qs = some (s, outs) ∧
      Holds arg sdk (Recs.after arg qs) s ∧
      outs.map Outcome.cipher =
        (runTotal (Recs.step arg) (fun R q => (R.map arg).reply arg q) .empty qs).2 := by
  obtain ⟨s, outs, hrun, hholds, houts, -⟩ := exists_run_of_sim (Holds arg sdk)
    (fun R q => q.WellFormed arg ∧ (R.step arg q).Room arg) (fun _ => True)
    (fun R s q h hok => by
      obtain ⟨out, hout, hserved⟩ := serve_spec ha h hok.1 hok.2
      exact ⟨out.store, out, serveStep_eq_some hout, hserved.holds, hserved.reply, trivial⟩)
    qs _ _ (Holds.init sdk) (admissible hqs hroom)
  exact ⟨s, outs, hrun, hholds, houts⟩

/-- A run in which every `APP` is centered keeps the roots right, and prints no
failure. -/
theorem exists_run_serveStep_rooted
    (hcenter : ∀ p q, p ++ [q] <+: qs → centered arg (Recs.after arg p) q = true) :
    ∃ s outs, run (serveStep arg sdk) (enclaveInitValues arg) qs = some (s, outs) ∧
      (Holds arg sdk (Recs.after arg qs) s ∧ Rooted arg sdk s) ∧
      outs.map Outcome.cipher =
        (runTotal (Recs.step arg) (fun R q => (R.map arg).reply arg q) .empty qs).2 ∧
      ∀ out ∈ outs, Clean out.log := by
  refine exists_run_of_sim (fun R s => Holds arg sdk R s ∧ Rooted arg sdk s)
    (fun R q => (q.WellFormed arg ∧ (R.step arg q).Room arg) ∧ centered arg R q = true)
    (fun out : Outcome => Clean out.log) ?_ qs _ _ ⟨Holds.init sdk, Rooted.init ha sdk⟩
    (fun p q hp => ⟨admissible hqs hroom p q hp, hcenter p q hp⟩)
  rintro R s q ⟨h, hroot⟩ ⟨hok, hc⟩
  obtain ⟨out, hout, hserved⟩ := serve_spec ha h hok.1 hok.2
  obtain ⟨hroot', hclean⟩ := hserved.rooted hroot hc
  exact ⟨out.store, out, serveStep_eq_some hout, ⟨hserved.holds, hroot'⟩, hserved.reply,
    hclean⟩

end Runs

/-- The records have room if the values fit a message and, with MAC bucketing, the
buckets fit their buffers. -/
theorem room_of_subset {arg : Arg} {p qs : List Req} (hp : p ⊆ qs)
    (hfit : ∀ k v, StringMap.after p k = some v → v.length + 1 ≤ arg.maxBufSize)
    (hslots : arg.macOpt = true → ∀ b, (bucketKeys arg b qs).length ≤ macSlots) :
    (Recs.after arg p).Room arg := by
  refine ⟨fun b r hr => hfit r.key r.val ?_,
    fun hmac b => (length_after_le_bucketKeys hp b).trans (hslots hmac b)⟩
  rw [← map_after arg]
  exact (Recs.Ok.after arg p).map_of_mem hr

/-- They have room all through a run. -/
theorem room_of_bucketKeys {arg : Arg} {qs : List Req}
    (hfit : ∀ p, p <+: qs → ∀ k v, StringMap.after p k = some v → v.length + 1 ≤ arg.maxBufSize)
    (hslots : arg.macOpt = true → ∀ b, (bucketKeys arg b qs).length ≤ macSlots) :
    ∀ p, p <+: qs → (Recs.after arg p).Room arg :=
  fun p hp => room_of_subset hp.subset (hfit p hp) hslots

/-! ### The store without options -/

/-- Without MAC bucketing it is enough that the values fit a message. -/
theorem room_of_fits {arg : Arg} (hmac : arg.macOpt = false) {p : List Req}
    (hfit : ∀ k v, StringMap.after p k = some v → v.length + 1 ≤ arg.maxBufSize) :
    (Recs.after arg p).Room arg :=
  room_of_subset (List.Subset.refl p) hfit fun h => by rw [hmac] at h; cases h

/-- **The store refines the map.**  After every sequence of requests whose values fit
a message, each root is the CMAC of the entry MACs of its group's chains, and every
further request is answered as the map answers it, prints no failure (a status
other than success is printed by its caller), and leaves the store alone where it
leaves the map alone. -/
theorem serve_refines_map {arg : Arg} (sdk : Sdk) (ha : arg.Valid) (hmac : arg.macOpt = false)
    {qs : List Req} (hqs : ∀ q ∈ qs, q.WellFormed arg)
    (hfit : ∀ p, p <+: qs → ∀ k v, StringMap.after p k = some v → v.length + 1 ≤ arg.maxBufSize) :
    ∃ s outs, run (serveStep arg sdk) (enclaveInitValues arg) qs = some (s, outs) ∧
      (∀ b < arg.bucketSize, ((groupRange arg b).flatMap fun i => (s.chain i).map (·.mac)) ≠ [] →
        s.root (rootIndex arg b) =
          rootTag sdk ((groupRange arg b).flatMap fun i => (s.chain i).map (·.mac))) ∧
      ∀ q : Req, q.WellFormed arg →
        (∀ k v, StringMap.after (qs ++ [q]) k = some v → v.length + 1 ≤ arg.maxBufSize) →
        ∃ out, serve arg sdk s q = some out ∧
          out.cipher = (StringMap.after qs).reply arg q ∧
          (q.op.Reads (StringMap.after qs) → out.store = s) ∧ Clean out.log := by
  -- without MAC bucketing no slot can be missed
  have hcenter : ∀ (R : Recs) (q : Req), centered arg R q = true := by
    intro R q
    simp [centered, hmac]
  obtain ⟨s, outs, hrun, ⟨hholds, hroot⟩, -⟩ := exists_run_serveStep_rooted sdk ha hqs
    (fun p hp => room_of_fits hmac (hfit p hp)) (fun p q _ => hcenter _ q)
  have hgroup : ∀ b, groupMacs arg s b =
      (groupRange arg b).flatMap fun i => (s.chain i).map (·.mac) := by
    intro b
    unfold groupMacs bucketMacs macsOf
    simp [hmac]
  refine ⟨s, outs, hrun, ?_, ?_⟩
  · intro b hb
    rw [← hgroup b]
    exact hroot.roots b hb
  · intro q hq hfit'
    have hroom := room_of_fits hmac hfit'
    rw [Recs.after, List.foldl_append] at hroom
    obtain ⟨out, hout, hserved⟩ := serve_spec ha hholds hq hroom
    have hmap := map_after arg qs
    refine ⟨out, hout, by rw [hserved.reply, hmap], ?_, (hserved.rooted hroot (hcenter _ q)).2⟩
    intro hreads
    exact hserved.unchanged (by rw [hmap]; exact hreads)

/-- A `SET`, an `APP` to it, and the `GET` that reads both. -/
theorem serve_refines_map_set_append :
    ∃ s outs, run (serveStep ⟨1, 32, 2, 1, false, false⟩ Sdk.aes)
        (enclaveInitValues ⟨1, 32, 2, 1, false, false⟩)
        [⟨.set [0x6b] [0x76], false, 1⟩, ⟨.append [0x6b] [0x77], true, 2⟩] = some (s, outs) ∧
      ∃ out, serve ⟨1, 32, 2, 1, false, false⟩ Sdk.aes s ⟨.get [0x6b], false, 3⟩ = some out ∧
        out.cipher = padded ⟨1, 32, 2, 1, false, false⟩ [0x76, 0x77] ∧ out.store = s ∧
        Clean out.log := by
  obtain ⟨s, outs, hrun, -, hnext⟩ := @serve_refines_map ⟨1, 32, 2, 1, false, false⟩ Sdk.aes
    (by decide) rfl [⟨.set [0x6b] [0x76], false, 1⟩, ⟨.append [0x6b] [0x77], true, 2⟩]
    (by decide) (fits_of_sum_le (by decide))
  obtain ⟨out, hout, hreply, hsame, hclean⟩ := hnext ⟨.get [0x6b], false, 3⟩ (by decide)
    (fits_of_sum_le (by decide) _ (List.prefix_refl _))
  exact ⟨s, outs, hrun, out, hout, hreply.trans rfl, hsame trivial, hclean⟩

end ShieldStore
