import Mathlib.Data.List.Induction
import Mathlib.Data.List.Dedup
import Mathlib.Data.List.Nodup
import Mathlib.Data.List.Perm.Subperm
import ShieldStore.Request

/-!
# What the store is for

Two machines that serve requests without cryptography, buffers or roots.  The
first is the map from keys to values that a client expects.  The second keeps, for
every bucket, the records in the order of the chain, with the counter block each
entry is encrypted from; the table of a run is the image of its state.

## Main definitions

* `StringMap`, `StringMap.step` — the map.
* `Recs`, `Recs.step` — the records.
* `Recs.map` — the map that records stand for.
* `Recs.reply` — the reply to a request.

## Main results

* `map_step` — a step of the records is a step of the map.
* `Recs.Ok.step` — the keys of a bucket stay distinct, and at home.
-/

namespace ShieldStore

open Bytes Counter CMem

/-! ### The map -/

/-- A map from keys to values. -/
abbrev StringMap : Type := List UInt8 → Option (List UInt8)

/-- The map a server starts with. -/
def StringMap.empty : StringMap := fun _ => none

/-- What an operation does to the map. -/
def StringMap.step (m : StringMap) : Op → StringMap
  | .get _ => m
  | .set k v => Function.update m k (some v)
  | .append k v => Function.update m k ((m k).map (· ++ v))

/-- The map after some requests. -/
def StringMap.after (qs : List Req) : StringMap := qs.foldl (fun m q => m.step q.op) .empty

theorem StringMap.after_concat (qs : List Req) (q : Req) :
    StringMap.after (qs ++ [q]) = (StringMap.after qs).step q.op := by
  unfold StringMap.after
  rw [List.foldl_append]
  rfl

/-- What an operation does to the value of a key depends on that value. -/
theorem StringMap.step_congr {m m' : StringMap} {k : List UInt8} (h : m k = m' k) (op : Op) :
    m.step op k = m'.step op k := by
  cases op with
  | get k' => exact h
  | set k' v => simp only [StringMap.step, Function.update_apply, h]
  | append k' v =>
    simp only [StringMap.step, Function.update_apply]
    split
    · next hk => rw [← hk, h]
    · exact h

/-- An operation on another key changes nothing. -/
theorem StringMap.step_of_ne (m : StringMap) {op : Op} {k : List UInt8} (hk : op.key ≠ k) :
    m.step op k = m k := by
  cases op with
  | get k' => rfl
  | set k' v => exact Function.update_of_ne (Ne.symm hk) _ _
  | append k' v => exact Function.update_of_ne (Ne.symm hk) _ _

/-! ### The records -/

/-- The records of every bucket, in the order of its chain. -/
abbrev Recs : Type := ℕ → List Rec

/-- The records a server starts with. -/
def Recs.empty : Recs := fun _ => []

/-- The next version of a record. -/
def Rec.revise (f : List UInt8 → List UInt8) (r : Rec) : Rec := ⟨r.key, f r.val, r.next⟩

/-- The records of a bucket with the value of `k` changed by `f`. -/
def reviseKey (k : List UInt8) (f : List UInt8 → List UInt8) (rs : List Rec) : List Rec :=
  rs.map fun r => if r.key = k then r.revise f else r

/-- The records of a bucket after a `SET`. -/
def setKey (k v : List UInt8) (rand : Block) (rs : List Rec) : List Rec :=
  if k ∈ rs.map Rec.key then reviseKey k (fun _ => v) rs else ⟨k, v, rand⟩ :: rs

/-- The records with the bucket of `k` changed by `f`. -/
def Recs.change (arg : Arg) (k : List UInt8) (f : List Rec → List Rec) (R : Recs) : Recs :=
  Function.update R (htHash arg (cstr k)) (f (R (htHash arg (cstr k))))

/-- What a request does to the records. -/
def Recs.step (arg : Arg) (R : Recs) (q : Req) : Recs :=
  match q.op with
  | .get _ => R
  | .set k v => R.change arg k (setKey k v q.rand)
  | .append k v => R.change arg k (reviseKey k (· ++ v))

/-- The records after some requests. -/
def Recs.after (arg : Arg) (qs : List Req) : Recs := qs.foldl (Recs.step arg) .empty

/-- The record of a key. -/
def Recs.lookup (arg : Arg) (R : Recs) (k : List UInt8) : Option Rec :=
  (R (htHash arg (cstr k))).find? fun r => r.key = k

/-- The map that the records stand for. -/
def Recs.map (arg : Arg) (R : Recs) : StringMap := fun k => (R.lookup arg k).map Rec.val

theorem Recs.after_concat (arg : Arg) (qs : List Req) (q : Req) :
    Recs.after arg (qs ++ [q]) = (Recs.after arg qs).step arg q := by
  unfold Recs.after
  rw [List.foldl_append]
  rfl

/-- A text in a message of its own. -/
def padded (arg : Arg) (t : List UInt8) : List UInt8 :=
  t ++ List.replicate (arg.maxBufSize - t.length) 0

/-- A string is what comes before the zeros. -/
theorem takeWhile_padded (arg : Arg) {t : List UInt8} (ht : (0 : UInt8) ∉ t) :
    (padded arg t).takeWhile (· != 0) = t := by
  have hall : ∀ c ∈ t, (c != 0) = true := by
    intro c hc
    rw [bne_iff_ne]
    exact fun h => ht (h ▸ hc)
  rw [padded, List.takeWhile_append_of_pos hall, List.takeWhile_replicate]
  simp

theorem padded_inj {arg : Arg} {t u : List UInt8} (ht : (0 : UInt8) ∉ t) (hu : (0 : UInt8) ∉ u)
    (h : padded arg t = padded arg u) : t = u := by
  rw [← takeWhile_padded arg ht, h, takeWhile_padded arg hu]

/-- The reply to a request: the value for a `GET`, the key for the others; a miss
sends the message back. -/
def StringMap.reply (arg : Arg) (m : StringMap) (q : Req) : List UInt8 :=
  match q.op, m q.op.key with
  | .get _, some v => padded arg v
  | .set k _, _ => padded arg k
  | .append k _, some _ => padded arg k
  | .get _, none | .append _ _, none => q.cut arg

/-! ### One bucket -/

@[simp] theorem key_revise (f : List UInt8 → List UInt8) (r : Rec) : (r.revise f).key = r.key := rfl

theorem map_key_reviseKey (k : List UInt8) (f : List UInt8 → List UInt8) (rs : List Rec) :
    (reviseKey k f rs).map Rec.key = rs.map Rec.key := by
  unfold reviseKey
  rw [List.map_map]
  refine List.map_congr_left fun r _ => ?_
  simp only [Function.comp_apply]
  split <;> rfl

theorem setKey_of_mem {k : List UInt8} {rs : List Rec} (h : k ∈ rs.map Rec.key) (v : List UInt8)
    (rand : Block) : setKey k v rand rs = reviseKey k (fun _ => v) rs := if_pos h

theorem setKey_of_notMem {k : List UInt8} {rs : List Rec} (h : k ∉ rs.map Rec.key) (v : List UInt8)
    (rand : Block) : setKey k v rand rs = ⟨k, v, rand⟩ :: rs := if_neg h

theorem find?_reviseKey (k k' : List UInt8) (f : List UInt8 → List UInt8) (rs : List Rec) :
    (reviseKey k f rs).find? (fun r => r.key = k') =
      (rs.find? fun r => r.key = k').map fun r => if r.key = k then r.revise f else r := by
  unfold reviseKey
  rw [List.find?_map]
  congr 2
  funext r
  simp only [Function.comp_apply]
  split <;> rfl

/-- Changing the value of a key that has no record. -/
theorem reviseKey_of_forall_ne {k : List UInt8} {rs : List Rec} (h : ∀ r ∈ rs, r.key ≠ k)
    (f : List UInt8 → List UInt8) : reviseKey k f rs = rs := by
  unfold reviseKey
  refine (List.map_congr_left fun r hr => ?_).trans (List.map_id rs)
  rw [if_neg (h r hr)]
  rfl

/-- Changing the value of a key that has one record. -/
theorem reviseKey_append {pre post : List Rec} {r : Rec} (f : List UInt8 → List UInt8)
    (hpre : ∀ r' ∈ pre, r'.key ≠ r.key) (hpost : ∀ r' ∈ post, r'.key ≠ r.key) :
    reviseKey r.key f (pre ++ r :: post) = pre ++ r.revise f :: post := by
  have hsplit : reviseKey r.key f (pre ++ r :: post) =
      reviseKey r.key f pre ++ r.revise f :: reviseKey r.key f post := by
    simp [reviseKey]
  rw [hsplit, reviseKey_of_forall_ne hpre, reviseKey_of_forall_ne hpost]

/-! ### The map of the records -/

/-- The keys of another bucket do not see a change. -/
theorem map_change_of_ne {arg : Arg} (R : Recs) {k k' : List UInt8} (f : List Rec → List Rec)
    (hne : htHash arg (cstr k') ≠ htHash arg (cstr k)) :
    (R.change arg k f).map arg k' = R.map arg k' := by
  unfold Recs.map Recs.lookup Recs.change
  rw [Function.update_of_ne hne]

/-- A changed value, seen from any key of the bucket. -/
theorem map_change_reviseKey {arg : Arg} (R : Recs) {k k' : List UInt8}
    (hb : htHash arg (cstr k') = htHash arg (cstr k)) (f : List UInt8 → List UInt8) :
    (R.change arg k (reviseKey k f)).map arg k' =
      if k' = k then (R.map arg k).map f else R.map arg k' := by
  unfold Recs.map Recs.lookup Recs.change
  rw [hb, Function.update_self, find?_reviseKey]
  cases hfind : (R (htHash arg (cstr k))).find? fun r => r.key = k' with
  | none =>
    split
    · next heq => subst heq; rw [hfind]; rfl
    · rfl
  | some r =>
    have hr : r.key = k' := by simpa using List.find?_some hfind
    split
    · next heq => subst heq; rw [hfind]; simp [hr, Rec.revise]
    · next hne => simp [hr, hne]

/-- The record of a key, as the map sees it. -/
theorem map_of_split {arg : Arg} {R : Recs} {pre post : List Rec} {r : Rec}
    (hR : R (htHash arg (cstr r.key)) = pre ++ r :: post) (hpre : ∀ r' ∈ pre, r'.key ≠ r.key) :
    R.map arg r.key = some r.val := by
  unfold Recs.map Recs.lookup
  have hnone : pre.find? (fun r' => r'.key = r.key) = none := by
    rw [List.find?_eq_none]
    intro r' hr'
    simpa using hpre r' hr'
  rw [hR, List.find?_append, hnone, Option.none_or, List.find?_cons]
  simp

/-- A key has no value exactly when its bucket has no record of it. -/
theorem map_eq_none_iff {arg : Arg} {R : Recs} {k : List UInt8} :
    R.map arg k = none ↔ k ∉ (R (htHash arg (cstr k))).map Rec.key := by
  unfold Recs.map Recs.lookup
  rw [Option.map_eq_none_iff, List.find?_eq_none, List.mem_map]
  simp only [decide_eq_true_eq, not_exists, not_and]

/-- A `SET`, seen from any key of the bucket. -/
theorem map_change_setKey {arg : Arg} (R : Recs) {k k' : List UInt8}
    (hb : htHash arg (cstr k') = htHash arg (cstr k)) (v : List UInt8) (rand : Block) :
    (R.change arg k (setKey k v rand)).map arg k' = if k' = k then some v else R.map arg k' := by
  by_cases hmem : k ∈ (R (htHash arg (cstr k))).map Rec.key
  · have hrevise : R.change arg k (setKey k v rand) = R.change arg k (reviseKey k fun _ => v) := by
      rw [Recs.change, setKey_of_mem hmem, Recs.change]
    obtain ⟨v', hv'⟩ := Option.ne_none_iff_exists'.mp fun h => map_eq_none_iff.mp h hmem
    rw [hrevise, map_change_reviseKey R hb, hv']
    rfl
  · unfold Recs.map Recs.lookup Recs.change
    rw [setKey_of_notMem hmem, hb, Function.update_self, List.find?_cons]
    by_cases hk : k' = k
    · simp [hk]
    · simp [hk, Ne.symm hk]

/-- **A step of the records is a step of the map.** -/
theorem map_step (arg : Arg) (R : Recs) (q : Req) :
    (R.step arg q).map arg = (R.map arg).step q.op := by
  obtain ⟨op, lower, rand⟩ := q
  cases op with
  | get k => rfl
  | append k v =>
    funext k'
    show (R.change arg k (reviseKey k (· ++ v))).map arg k' =
      Function.update (R.map arg) k ((R.map arg k).map (· ++ v)) k'
    -- a key of another bucket is another key
    by_cases hb : htHash arg (cstr k') = htHash arg (cstr k)
    · rw [map_change_reviseKey R hb, Function.update_apply]
    · rw [map_change_of_ne R _ hb, Function.update_of_ne (fun h => hb (by rw [h]))]
  | set k v =>
    funext k'
    show (R.change arg k (setKey k v rand)).map arg k' = Function.update (R.map arg) k (some v) k'
    by_cases hb : htHash arg (cstr k') = htHash arg (cstr k)
    · rw [map_change_setKey R hb, Function.update_apply]
    · rw [map_change_of_ne R _ hb, Function.update_of_ne (fun h => hb (by rw [h]))]

theorem map_after (arg : Arg) (qs : List Req) : (Recs.after arg qs).map arg = StringMap.after qs := by
  unfold Recs.after StringMap.after
  have hempty : Recs.map arg .empty = StringMap.empty := rfl
  rw [← hempty]
  generalize Recs.empty = R
  induction qs generalizing R with
  | nil => rfl
  | cons q qs ih =>
    rw [List.foldl_cons, List.foldl_cons, ih, map_step]

/-! ### Invariants of the records -/

/-- Every record is in the bucket of its key, and the keys of a bucket are
distinct. -/
structure Recs.Ok (arg : Arg) (R : Recs) : Prop where
  hash : ∀ b, ∀ r ∈ R b, htHash arg (cstr r.key) = b
  nodup : ∀ b, ((R b).map Rec.key).Nodup

theorem Recs.Ok.empty (arg : Arg) : Recs.Ok arg .empty :=
  ⟨fun _ _ h => absurd h (List.not_mem_nil), fun _ => List.nodup_nil⟩

theorem Recs.Ok.change {arg : Arg} {R : Recs} (h : R.Ok arg) {k : List UInt8}
    {f : List Rec → List Rec}
    (hhash : ∀ r ∈ f (R (htHash arg (cstr k))), htHash arg (cstr r.key) = htHash arg (cstr k))
    (hnodup : ((f (R (htHash arg (cstr k)))).map Rec.key).Nodup) : (R.change arg k f).Ok arg := by
  unfold Recs.change
  constructor
  · intro b r hr
    rcases eq_or_ne b (htHash arg (cstr k)) with rfl | hb
    · rw [Function.update_self] at hr
      exact hhash r hr
    · rw [Function.update_of_ne hb] at hr
      exact h.hash b r hr
  · intro b
    rcases eq_or_ne b (htHash arg (cstr k)) with rfl | hb
    · rw [Function.update_self]
      exact hnodup
    · rw [Function.update_of_ne hb]
      exact h.nodup b

theorem Recs.Ok.change_reviseKey {arg : Arg} {R : Recs} (h : R.Ok arg) (k : List UInt8)
    (f : List UInt8 → List UInt8) : (R.change arg k (reviseKey k f)).Ok arg := by
  refine h.change ?_ (by rw [map_key_reviseKey]; exact h.nodup _)
  intro r hr
  -- the keys of the bucket are as they were
  have hmem : r.key ∈ (R (htHash arg (cstr k))).map Rec.key := by
    rw [← map_key_reviseKey k f]
    exact List.mem_map_of_mem hr
  obtain ⟨r', hr', heq⟩ := List.mem_map.mp hmem
  rw [← heq]
  exact h.hash _ r' hr'

/-- A request keeps the records in their buckets, and the keys distinct. -/
theorem Recs.Ok.step {arg : Arg} {R : Recs} (h : R.Ok arg) (q : Req) : (R.step arg q).Ok arg := by
  obtain ⟨op, lower, rand⟩ := q
  cases op with
  | get k => exact h
  | append k v => exact h.change_reviseKey k (· ++ v)
  | set k v =>
    show (R.change arg k (setKey k v rand)).Ok arg
    -- a `SET` of a key that is there revises it, and one of another puts a record in front
    by_cases hmem : k ∈ (R (htHash arg (cstr k))).map Rec.key
    · rw [Recs.change, setKey_of_mem hmem]
      exact h.change_reviseKey k fun _ => v
    · refine h.change ?_ ?_
      · rw [setKey_of_notMem hmem]
        intro r hr
        rcases List.mem_cons.mp hr with rfl | hr
        · rfl
        · exact h.hash _ r hr
      · rw [setKey_of_notMem hmem]
        exact List.nodup_cons.mpr ⟨hmem, h.nodup _⟩

theorem Recs.Ok.after (arg : Arg) (qs : List Req) : (Recs.after arg qs).Ok arg := by
  unfold Recs.after
  have h := Recs.Ok.empty arg
  generalize Recs.empty = R at h ⊢
  induction qs generalizing R with
  | nil => exact h
  | cons q qs ih => exact ih _ (h.step q)

/-- The one record of a key, with what stands before and after it. -/
theorem Recs.Ok.split {arg : Arg} {R : Recs} (h : R.Ok arg) {k : List UInt8}
    (hk : k ∈ (R (htHash arg (cstr k))).map Rec.key) :
    ∃ pre r post, R (htHash arg (cstr k)) = pre ++ r :: post ∧ r.key = k ∧
      (∀ r' ∈ pre, r'.key ≠ k) ∧ ∀ r' ∈ post, r'.key ≠ k := by
  obtain ⟨r, hr, rfl⟩ := List.mem_map.mp hk
  obtain ⟨pre, post, heq⟩ := List.append_of_mem hr
  have hnodup := h.nodup (htHash arg (cstr r.key))
  rw [heq, List.map_append, List.map_cons, List.nodup_append] at hnodup
  obtain ⟨-, hpost, hdisj⟩ := hnodup
  refine ⟨pre, r, post, heq, rfl, ?_, ?_⟩
  · intro r' hr' hkey
    exact hdisj _ (List.mem_map_of_mem hr') _ (List.mem_cons_self) hkey
  · intro r' hr' hkey
    exact (List.nodup_cons.mp hpost).1 (hkey ▸ List.mem_map_of_mem hr')

/-- The map has the value of every record. -/
theorem Recs.Ok.map_of_mem {arg : Arg} {R : Recs} (h : R.Ok arg) {b : ℕ} {r : Rec} (hr : r ∈ R b) :
    R.map arg r.key = some r.val := by
  have hb := h.hash b r hr
  obtain ⟨pre, r', post, hR, hkey, hpre, -⟩ :=
    h.split (k := r.key) (hb ▸ List.mem_map_of_mem hr)
  have hsame : r = r' := List.inj_on_of_nodup_map (h.nodup b) hr
    (by rw [← hb, hR]; simp) hkey.symm
  subst hsame
  exact map_of_split hR hpre

/-! ### Growth of the values -/

/-- A value is not longer than all values sent so far together. -/
theorem length_after_le {k v : List UInt8} : ∀ {qs : List Req}, StringMap.after qs k = some v →
    v.length ≤ (qs.map fun q => q.op.val.length).sum := by
  intro qs
  induction qs using List.reverseRecOn generalizing v with
  | nil => intro h; cases h
  | append_singleton qs q ih =>
    intro h
    rw [StringMap.after_concat] at h
    rw [List.map_append, List.sum_append, List.map_singleton, List.sum_singleton]
    cases hop : q.op with
    | get k' =>
      rw [hop] at h
      exact (ih h).trans (Nat.le_add_right _ _)
    | set k' v' =>
      rw [hop, StringMap.step, Function.update_apply] at h
      split at h
      · cases h; exact Nat.le_add_left _ _
      · exact (ih h).trans (Nat.le_add_right _ _)
    | append k' v' =>
      rw [hop, StringMap.step, Function.update_apply] at h
      split at h
      · next hk =>
        subst hk
        -- the value so far, and what is appended
        obtain ⟨v₀, hv₀, rfl⟩ := Option.map_eq_some_iff.mp h
        rw [List.length_append]
        exact Nat.add_le_add_right (ih hv₀) _
      · exact (ih h).trans (Nat.le_add_right _ _)

/-- If all values sent fit one message together, every stored value fits at any
time. -/
theorem fits_of_sum_le {arg : Arg} {qs : List Req}
    (hsum : (qs.map fun q => q.op.val.length).sum + 1 ≤ arg.maxBufSize) :
    ∀ p, p <+: qs → ∀ k v, StringMap.after p k = some v → v.length + 1 ≤ arg.maxBufSize := by
  intro p hp k v h
  have hle := length_after_le h
  obtain ⟨t, rfl⟩ := hp
  rw [List.map_append, List.sum_append] at hsum
  omega

/-! ### The requests of a key -/

/-- The value of a key depends on the requests for that key only. -/
theorem after_filter_key (k : List UInt8) : ∀ qs : List Req,
    StringMap.after (qs.filter fun q => q.op.key = k) k = StringMap.after qs k := by
  intro qs
  induction qs using List.reverseRecOn with
  | nil => rfl
  | append_singleton qs q ih =>
    rw [StringMap.after_concat, List.filter_append]
    by_cases hk : q.op.key = k
    · rw [List.filter_cons_of_pos (by simpa using hk), List.filter_nil, StringMap.after_concat]
      exact StringMap.step_congr ih q.op
    · rw [List.filter_cons_of_neg (by simpa using hk), List.filter_nil, List.append_nil, ih,
        StringMap.step_of_ne _ hk]

/-! ### The keys of a bucket -/

/-- The key a `SET` may insert. -/
def Op.inserts : Op → Option (List UInt8)
  | .set k _ => some k
  | .get _ | .append _ _ => none

/-- The distinct keys of a bucket that some requests `SET`. -/
def bucketKeys (arg : Arg) (b : ℕ) (qs : List Req) : List (List UInt8) :=
  ((qs.filterMap fun q => q.op.inserts).filter fun k => htHash arg (cstr k) = b).dedup

theorem mem_bucketKeys {arg : Arg} {b : ℕ} {qs : List Req} {k : List UInt8} :
    k ∈ bucketKeys arg b qs ↔ (∃ q ∈ qs, q.op.inserts = some k) ∧ htHash arg (cstr k) = b := by
  simp [bucketKeys]

theorem length_bucketKeys_le_inserts (arg : Arg) (b : ℕ) (qs : List Req) :
    (bucketKeys arg b qs).length ≤ (qs.filterMap fun q => q.op.inserts).length :=
  calc (bucketKeys arg b qs).length
      ≤ ((qs.filterMap fun q => q.op.inserts).filter fun k => htHash arg (cstr k) = b).length :=
        (List.dedup_sublist _).length_le
    _ ≤ (qs.filterMap fun q => q.op.inserts).length := List.length_filter_le _ _

theorem length_bucketKeys_le_length (arg : Arg) (b : ℕ) (qs : List Req) :
    (bucketKeys arg b qs).length ≤ qs.length :=
  (length_bucketKeys_le_inserts arg b qs).trans (List.length_filterMap_le _ _)

theorem length_bucketKeys_le {arg : Arg} {p qs : List Req} (hp : p ⊆ qs) (b : ℕ) :
    (bucketKeys arg b p).length ≤ (bucketKeys arg b qs).length := by
  refine (List.subperm_of_subset (List.nodup_dedup _) fun k hk => ?_).length_le
  obtain ⟨⟨q, hq, hins⟩, hb⟩ := mem_bucketKeys.mp hk
  exact mem_bucketKeys.mpr ⟨⟨q, hp hq, hins⟩, hb⟩

/-- A key has a value once it was `SET`. -/
theorem after_ne_none_iff {k : List UInt8} : ∀ {qs : List Req},
    StringMap.after qs k ≠ none ↔ ∃ q ∈ qs, q.op.inserts = some k := by
  intro qs
  induction qs using List.reverseRecOn with
  | nil => simp [StringMap.after, StringMap.empty]
  | append_singleton qs q ih =>
    -- either an earlier request has set the key or the last one does
    have hsplit : (∃ q' ∈ qs ++ [q], q'.op.inserts = some k) ↔
        StringMap.after qs k ≠ none ∨ q.op.inserts = some k := by
      rw [ih]
      simp only [List.mem_append, List.mem_singleton, or_and_right, exists_or, exists_eq_left]
    rw [StringMap.after_concat, hsplit]
    cases hop : q.op with
    | get k' => simp [StringMap.step, Op.inserts]
    | set k' v =>
      rw [StringMap.step, Function.update_apply, Op.inserts, Option.some.injEq]
      split
      · next hk => simp [hk]
      · next hk => simp [Ne.symm hk]
    | append k' v =>
      rw [StringMap.step, Function.update_apply]
      split
      · next hk => simp [hk, Op.inserts]
      · simp [Op.inserts]

/-- Only what was `SET` has a record. -/
theorem mem_keys_after_iff {arg : Arg} {b : ℕ} {k : List UInt8} {qs : List Req} :
    k ∈ (Recs.after arg qs b).map Rec.key ↔
      (∃ q ∈ qs, q.op.inserts = some k) ∧ htHash arg (cstr k) = b := by
  have hiff : (∃ q ∈ qs, q.op.inserts = some k) ↔
      k ∈ (Recs.after arg qs (htHash arg (cstr k))).map Rec.key := by
    rw [← after_ne_none_iff, ← map_after arg, Ne, map_eq_none_iff, not_not]
  rw [hiff]
  constructor
  · intro h
    obtain ⟨r, hr, rfl⟩ := List.mem_map.mp h
    have hb := (Recs.Ok.after arg qs).hash b r hr
    exact ⟨hb ▸ h, hb⟩
  · rintro ⟨h, rfl⟩
    exact h

/-- A bucket has one record for every key of it that was `SET`. -/
theorem length_bucketKeys (arg : Arg) (b : ℕ) (qs : List Req) :
    (bucketKeys arg b qs).length = (Recs.after arg qs b).length := by
  rw [← List.length_map Rec.key]
  refine List.Perm.length_eq ((List.perm_ext_iff_of_nodup (List.nodup_dedup _)
    ((Recs.Ok.after arg qs).nodup b)).mpr fun k => ?_)
  rw [mem_keys_after_iff]
  exact mem_bucketKeys

/-- A bucket has at most one record for every key that was `SET`. -/
theorem length_after_le_bucketKeys {arg : Arg} {p qs : List Req} (hp : p ⊆ qs) (b : ℕ) :
    (Recs.after arg p b).length ≤ (bucketKeys arg b qs).length := by
  rw [← length_bucketKeys]
  exact length_bucketKeys_le hp b

/-- No bucket grows beyond a bound if an insert finds its bucket below it. -/
theorem length_step_le {arg : Arg} {R : Recs} {n : ℕ} (hR : ∀ b, (R b).length ≤ n) {q : Req}
    (hnew : ∀ k, q.op.inserts = some k → k ∉ (R (htHash arg (cstr k))).map Rec.key →
      (R (htHash arg (cstr k))).length < n) (b : ℕ) : (R.step arg q b).length ≤ n := by
  -- of a change only the changed bucket has to be looked at
  have hchange : ∀ {k f}, (f (R (htHash arg (cstr k)))).length ≤ n →
      (R.change arg k f b).length ≤ n := by
    intro k f hf
    rw [Recs.change, Function.update_apply]
    split
    · exact hf
    · exact hR b
  obtain ⟨op, lower, rand⟩ := q
  cases op with
  | get k => exact hR b
  | append k v =>
    refine hchange (f := reviseKey k (· ++ v)) ?_
    rw [reviseKey, List.length_map]
    exact hR _
  | set k v =>
    refine hchange (f := setKey k v rand) ?_
    by_cases hmem : k ∈ (R (htHash arg (cstr k))).map Rec.key
    · rw [setKey_of_mem hmem, reviseKey, List.length_map]
      exact hR _
    · rw [setKey_of_notMem hmem]
      exact hnew k rfl hmem

end ShieldStore
