import ShieldStore.Tamper

/-!
# Runs in which the host writes the memory

Before every request the host replaces the table and the MAC buffers by anything it
likes; the enclave keeps its roots.  As long as no failure is printed, what do the
roots commit to?

They commit to one record for every key, with its last value (`Committed`), as long
as no request misses a key that is there.  A miss is not authenticated.  The host can
hide the entry of a key, and the next `SET` of it then adds a second entry beside the
hidden one; an `APP` is lost; and a group that was emptied is committed to anew, with
none of its keys.  These are the steps that `StepOk` excludes.

The messages whose tags are taken to differ are a list `M`, in which those of every state
of the run are (`StepIn`).  What is committed to is in `M` as well, so that the roots stand
for one list of records only.

## Main definitions

* `tamperStep` — the host writes the memory, and a request is served.
* `StepIn` — a step within the assumptions.
* `MissOk`, `StepOk` — the steps that keep the commitment.
* `Committed` — the roots commit to the map.

## Main results

* `Committed.step` — one request.
* `committed_of_clean` — a run.
* `set_beside_hidden` — what a hidden entry leads to.
-/

namespace ShieldStore

open Bytes Counter CMem Run

/-! ### The host -/

/-- The memory the host can write. -/
structure Mem where
  table : List (List Entry)
  macbuf : List MacEntry
  deriving DecidableEq

/-- The memory has as many buckets as the server was started with. -/
def Mem.Shaped (arg : Arg) (m : Mem) : Prop :=
  m.table.length = arg.bucketSize ∧ m.macbuf.length = arg.bucketSize

instance (arg : Arg) (m : Mem) : Decidable (m.Shaped arg) := inferInstanceAs (Decidable (_ ∧ _))

/-- The store after the host has written its memory. -/
def Store.tamper (s : Store) (m : Mem) : Store := { s with table := m.table, macbuf := m.macbuf }

@[simp] theorem Store.root_tamper (s : Store) (m : Mem) (g : ℕ) : (s.tamper m).root g = s.root g := rfl

/-- The host writes the memory, and a request is served. -/
def tamperStep (arg : Arg) (sdk : Sdk) (s : Store) (i : Mem × Req) : Option (Store × Outcome) :=
  serveStep arg sdk (s.tamper i.1) i.2

/-- What a miss may be, after the requests `hist`, for a group with the MACs `macs`.  An
`APP` may miss a key without a value; a `SET` may miss a key without a value and, in a
group that is empty, the only key the group can have. -/
def MissOk (arg : Arg) (hist : List Req) (macs : List Block) : Op → Prop
  | .get _ => True
  | .append k w => StringMap.after hist k = none ∨ w = []
  | .set k _ =>
      if macs = [] then
        ∀ k' ∈ hist.filterMap fun q => q.op.inserts,
          rootIndex arg (htHash arg (cstr k')) = rootIndex arg (htHash arg (cstr k)) → k' = k
      else StringMap.after hist k = none

instance (arg : Arg) (hist : List Req) (macs : List Block) : DecidablePred (MissOk arg hist macs)
  | .get _ => isTrue trivial
  | .append _ _ => inferInstanceAs (Decidable (_ ∨ _))
  | .set _ _ => inferInstanceAs (Decidable (if macs = [] then _ else _))

/-- A step within the assumptions, after the requests `hist`: the request is one a client
may send, no size wraps, and the messages before and after are among those whose tags
differ. -/
structure StepIn (arg : Arg) (sdk : Sdk) (M : List (List UInt8)) (hist : List Req) (s : Store)
    (i : Mem × Req) : Prop where
  shaped : i.1.Shaped arg
  wellFormed : i.2.WellFormed arg
  sized : i.2.op.key.length + ((StringMap.after (hist ++ [i.2]) i.2.op.key).getD []).length + 27 <
    2 ^ 32
  before : ∀ m ∈ messages arg (s.tamper i.1), m ∈ M
  after : ∀ m ∈ ((tamperStep arg sdk s i).map fun p => messages arg p.1).getD [], m ∈ M

instance (arg : Arg) (sdk : Sdk) (M : List (List UInt8)) (hist : List Req) (s : Store)
    (i : Mem × Req) : Decidable (StepIn arg sdk M hist s i) :=
  decidable_of_iff (i.1.Shaped arg ∧ i.2.WellFormed arg ∧
      i.2.op.key.length + ((StringMap.after (hist ++ [i.2]) i.2.op.key).getD []).length + 27 <
        2 ^ 32 ∧
      (messages arg (s.tamper i.1)).all M.contains ∧
      (((tamperStep arg sdk s i).map fun p => messages arg p.1).getD []).all M.contains)
    (by
      simp only [List.all_eq_true, List.contains_iff_mem]
      exact ⟨fun ⟨h₁, h₂, h₃, h₄, h₅⟩ => ⟨h₁, h₂, h₃, h₄, h₅⟩,
        fun h => ⟨h.shaped, h.wellFormed, h.sized, h.before, h.after⟩⟩)

/-- A step that keeps the commitment: a miss is one that may be. -/
structure StepOk (arg : Arg) (sdk : Sdk) (M : List (List UInt8)) (hist : List Req) (s : Store)
    (i : Mem × Req) : Prop extends StepIn arg sdk M hist s i where
  miss : missed arg sdk (s.tamper i.1) i.2.op.key = true →
    MissOk arg hist (groupMacs arg (s.tamper i.1) (htHash arg (cstr i.2.op.key))) i.2.op

instance (arg : Arg) (sdk : Sdk) (M : List (List UInt8)) (hist : List Req) (s : Store)
    (i : Mem × Req) : Decidable (StepOk arg sdk M hist s i) :=
  decidable_of_iff (StepIn arg sdk M hist s i ∧ (missed arg sdk (s.tamper i.1) i.2.op.key = true →
      MissOk arg hist (groupMacs arg (s.tamper i.1) (htHash arg (cstr i.2.op.key))) i.2.op))
    ⟨fun ⟨h₁, h₂⟩ => ⟨h₁, h₂⟩, fun h => ⟨h.toStepIn, h.miss⟩⟩

/-! ### What the roots commit to -/

/-- The values of a key among records. -/
def valsOf (k : List UInt8) (rs : List Rec) : List (List UInt8) :=
  (rs.filter fun r => r.key = k).map Rec.val

/-- The roots commit to the records `G` of every group, the records are in the groups
of their keys, and every key has one record with its value, or none. -/
structure Committed (arg : Arg) (sdk : Sdk) (M : List (List UInt8)) (G : ℕ → List Rec) (m : StringMap)
    (s : Store) : Prop where
  commits : Commits arg sdk {m | m ∈ M} G s
  macTable : s.macTable.length = arg.treeRootSize
  home : ∀ g, ∀ r ∈ G g, keyGroup arg r.key = g
  vals : ∀ k, valsOf k (G (keyGroup arg k)) = (m k).toList

@[simp] theorem valsOf_append (k : List UInt8) (rs₁ rs₂ : List Rec) :
    valsOf k (rs₁ ++ rs₂) = valsOf k rs₁ ++ valsOf k rs₂ := by
  simp [valsOf]

theorem valsOf_cons_self (r : Rec) (rs : List Rec) : valsOf r.key (r :: rs) = r.val :: valsOf r.key rs := by
  simp [valsOf]

theorem valsOf_cons_of_ne {k : List UInt8} {r : Rec} (h : r.key ≠ k) (rs : List Rec) :
    valsOf k (r :: rs) = valsOf k rs := by
  simp [valsOf, h]

theorem valsOf_eq_nil_iff {k : List UInt8} {rs : List Rec} :
    valsOf k rs = [] ↔ ∀ r ∈ rs, r.key ≠ k := by
  simp [valsOf, List.filter_eq_nil_iff]

/-- Only what was `SET` has a value. -/
theorem mem_inserts_of_after {hist : List Req} {k v : List UInt8}
    (h : StringMap.after hist k = some v) : k ∈ hist.filterMap fun q => q.op.inserts := by
  induction hist using List.reverseRecOn generalizing v with
  | nil => cases h
  | append_singleton hist q ih =>
    rw [List.filterMap_append, List.mem_append]
    rw [StringMap.after_concat] at h
    cases hop : q.op with
    | get k' =>
      rw [hop] at h
      exact Or.inl (ih h)
    | set k' v' =>
      rw [hop, StringMap.step, Function.update_apply] at h
      split at h
      · next hk => exact Or.inr (by simp [hop, Op.inserts, hk])
      · exact Or.inl (ih h)
    | append k' v' =>
      rw [hop, StringMap.step, Function.update_apply] at h
      split at h
      · next hk =>
        subst hk
        -- an `APP` gives no value to a key that has none
        obtain ⟨v₀, hv₀, -⟩ := Option.map_eq_some_iff.mp h
        exact Or.inl (ih hv₀)
      · exact Or.inl (ih h)

section Committed

variable {arg : Arg} {sdk : Sdk} {M : List (List UInt8)} {G : ℕ → List Rec} {m : StringMap} {s : Store}
  (h : Committed arg sdk M G m s)

include h

/-- A record that is committed to has the value of its key. -/
theorem Committed.of_split {g : ℕ} {A B : List Rec} {r : Rec} (hG : G g = A ++ r :: B) :
    m r.key = some r.val ∧ ∀ r' ∈ A ++ B, r'.key ≠ r.key := by
  have hhome : keyGroup arg r.key = g := h.home g r (by rw [hG]; simp)
  have hvals := h.vals r.key
  rw [hhome, hG, valsOf_append, valsOf_cons_self] at hvals
  cases hm : m r.key with
  | none => rw [hm] at hvals; simp at hvals
  | some v =>
    rw [hm, Option.toList_some, List.append_eq_singleton_iff] at hvals
    rcases hvals with ⟨hA, hB⟩ | ⟨-, hB⟩
    · rw [List.cons.injEq] at hB
      rw [hB.1]
      refine ⟨rfl, fun r' hr' => ?_⟩
      rcases List.mem_append.mp hr' with hr' | hr'
      · exact valsOf_eq_nil_iff.mp hA r' hr'
      · exact valsOf_eq_nil_iff.mp hB.2 r' hr'
    · cases hB

/-- A key without a value has no record. -/
theorem Committed.key_ne_of_none {k : List UInt8} (hm : m k = none) :
    ∀ r ∈ G (keyGroup arg k), r.key ≠ k := by
  rw [← valsOf_eq_nil_iff, h.vals, hm]
  rfl

/-- **One record is replaced.**  The record `r` takes the place of the records `old`,
which are those of its key, and the root of the group is that of the new list. -/
theorem Committed.replace {A B old : List Rec} {r : Rec}
    (hG : G (keyGroup arg r.key) = A ++ (old ++ B)) (hold : ∀ r' ∈ old, r'.key = r.key)
    (hne : ∀ r' ∈ A ++ B, r'.key ≠ r.key) (hr : r.Fits) (hknown : r.message sdk ∈ M)
    {t : Store} (htable : t.macTable.length = arg.treeRootSize)
    (hroot : t.root (keyGroup arg r.key) = rootTag sdk ((A ++ r :: B).map (Rec.mac sdk)))
    (hmacs : ((A ++ r :: B).map (Rec.mac sdk)).flatMap blockBytes ∈ M)
    (hother : ∀ g, g ≠ keyGroup arg r.key → t.root g = s.root g) :
    Committed arg sdk M (Function.update G (keyGroup arg r.key) (A ++ r :: B))
      (Function.update m r.key (some r.val)) t := by
  have hmem : ∀ g, ∀ r' ∈ Function.update G (keyGroup arg r.key) (A ++ r :: B) g,
      (r' = r ∧ g = keyGroup arg r.key) ∨ r' ∈ G g := by
    intro g r' hr'
    rcases eq_or_ne g (keyGroup arg r.key) with rfl | hg
    · rw [Function.update_self] at hr'
      rw [hG]
      simp only [List.mem_append, List.mem_cons] at hr' ⊢
      tauto
    · rw [Function.update_of_ne hg] at hr'
      exact Or.inr hr'
  -- records, messages and roots; then the groups and the values
  refine ⟨⟨?_, ?_, ?_⟩, htable, ?_, ?_⟩
  · intro g r' hr'
    rcases hmem g r' hr' with ⟨rfl, -⟩ | hr'
    · exact hr
    · exact h.commits.fits g r' hr'
  · intro g r' hr'
    rcases hmem g r' hr' with ⟨rfl, -⟩ | hr'
    · exact hknown
    · exact h.commits.known g r' hr'
  · intro g hg
    rcases eq_or_ne g (keyGroup arg r.key) with rfl | hne'
    · rw [Function.update_self]
      exact Or.inl ⟨hroot, hmacs⟩
    · rw [Function.update_of_ne hne', hother g hne']
      exact h.commits.root g hg
  · intro g r' hr'
    rcases hmem g r' hr' with ⟨rfl, rfl⟩ | hr'
    · rfl
    · exact h.home g r' hr'
  · intro k
    rcases eq_or_ne k r.key with rfl | hk
    · rw [Function.update_self, Function.update_self, valsOf_append, valsOf_cons_self,
        valsOf_eq_nil_iff.mpr fun r' hr' => hne r' (List.mem_append_left _ hr'),
        valsOf_eq_nil_iff.mpr fun r' hr' => hne r' (List.mem_append_right _ hr')]
      rfl
    · rw [Function.update_of_ne hk, ← h.vals k]
      -- another key, of this group or of another
      rcases eq_or_ne (keyGroup arg k) (keyGroup arg r.key) with hg | hg
      · have hnil : valsOf k old = [] :=
          valsOf_eq_nil_iff.mpr fun r' hr' heq => hk (heq ▸ hold r' hr')
        rw [hg, Function.update_self, hG, valsOf_append, valsOf_cons_of_ne hk.symm, valsOf_append,
          valsOf_append, hnil, List.nil_append]
      · rw [Function.update_of_ne hg]

theorem Committed.tamper (mem : Mem) : Committed arg sdk M G m (s.tamper mem) :=
  ⟨⟨h.commits.fits, h.commits.known, h.commits.root⟩, h.macTable, h.home, h.vals⟩

end Committed

/-! ### A request -/

/-- The MACs of a group without MAC bucketing, with the chain of the bucket cut at an
entry. -/
theorem groupWith_cut (arg : Arg) (s : Store) (b : ℕ) (pre post : List Entry) (x : Block) :
    groupWith arg s b (pre.map (·.mac) ++ x :: post.map (·.mac)) =
      (beforeMacs arg s b ++ pre.map (·.mac)) ++ x :: (post.map (·.mac) ++ afterMacs arg s b) := by
  simp [groupWith]

section Request

variable {arg : Arg} {sdk : Sdk} {M : List (List UInt8)} {G : ℕ → List Rec} {m : StringMap} {t : Store}
  (ha : arg.Valid) (hmac : arg.macOpt = false) (ht : t.Shaped arg) {k : List UInt8} {b : ℕ}
  (hb : htHash arg (cstr k) = b)

include hmac in
theorem bucketMacs_of_chain (s : Store) (b : ℕ) : bucketMacs arg s b = (s.chain b).map (·.mac) := by
  unfold bucketMacs macsOf
  rw [hmac]
  rfl

include ha hmac in
theorem groupMacs_of_cut {pre post : List Entry} {e : Entry} (hchain : t.chain b = pre ++ e :: post) :
    groupMacs arg t b = (beforeMacs arg t b ++ pre.map (·.mac)) ++
      e.mac :: (post.map (·.mac) ++ afterMacs arg t b) := by
  rw [groupMacs_eq_groupWith ha, bucketMacs_of_chain hmac, hchain, List.map_append, List.map_cons,
    groupWith_cut]

include ha hmac in
/-- An update that prints no failure: the MACs before it passed the check, and the root
is that of the MACs after it. -/
theorem commitUpdate_of_clean {pre post : List Entry} {e e' : Entry}
    (hchain : t.chain b = pre ++ e :: post) {cipher : List UInt8} {log : List Event}
    (hclean : Clean (commitUpdate arg sdk t b pre post e e' pre.length cipher log).log) :
    Clean log ∧ rootTag sdk (groupMacs arg t b) = t.root (rootIndex arg b) ∧
      commitUpdate arg sdk t b pre post e e' pre.length cipher log =
        ⟨(t.write b (pre ++ e' :: post) (t.buf b)).setRoot (rootIndex arg b)
          (rootTag sdk ((beforeMacs arg t b ++ pre.map (·.mac)) ++
            e'.mac :: (post.map (·.mac) ++ afterMacs arg t b))), cipher, log⟩ := by
  have hset : ∀ x y : Block, (pre.map (·.mac) ++ x :: post.map (·.mac)).set pre.length y =
      pre.map (·.mac) ++ y :: post.map (·.mac) := by
    intro x y
    rw [List.set_append_right _ _ (by simp)]
    simp
  have hslot : slot arg (t.chain b).length pre.length = pre.length := by simp [slot, hmac]
  have hbuf : newBuf arg (t.buf b) pre.length e'.mac = t.buf b := by simp [newBuf, hmac]
  have heq : commitUpdate arg sdk t b pre post e e' pre.length cipher log =
      commit sdk (t.write b (pre ++ e' :: post) (t.buf b)) (rootIndex arg b) (groupMacs arg t b)
        ((beforeMacs arg t b ++ pre.map (·.mac)) ++
          e'.mac :: (post.map (·.mac) ++ afterMacs arg t b)) cipher log := by
    unfold commitUpdate
    rw [hslot, hbuf, bucketMacs_of_chain hmac, hchain, List.map_append, List.map_cons, hset, hset,
      groupWith_cut, groupWith_cut, groupMacs_of_cut ha hmac hchain]
  rw [heq] at hclean ⊢
  obtain ⟨hlog, hok, hcommit⟩ := commit_of_clean hclean
  -- the list holds the MAC of the entry, so that there was a check
  refine ⟨hlog, hok.resolve_left fun hnil => ?_, hcommit⟩
  rw [groupMacs_of_cut ha hmac hchain] at hnil
  simp at hnil

variable (h : Committed arg sdk M G m t) (hinj : Set.InjOn sdk.tag {m | m ∈ M})
  (hM : ∀ msg ∈ messages arg t, msg ∈ M)

include ha hmac hb h hinj hM in
/-- The entry that an update without a failure has found is that of a record that is
committed to. -/
theorem Committed.exists_record (hk : k.length + 1 < 2 ^ 32) {pre post : List Entry} {e e' : Entry}
    (hchain : t.chain b = pre ++ e :: post) {keyHash : UInt8} {plain : List UInt8} {nac : Block}
    (hans : Answers arg sdk (cstr k) (strSize k) keyHash e plain nac) {cipher : List UInt8}
    {log : List Event} (hlog : verifyEntry sdk e = some log)
    (hclean : Clean (commitUpdate arg sdk t b pre post e e' pre.length cipher log).log) :
    ∃ A r B rest, G (rootIndex arg b) = A ++ r :: B ∧
      A.map (Rec.mac sdk) = beforeMacs arg t b ++ pre.map (·.mac) ∧
      B.map (Rec.mac sdk) = post.map (·.mac) ++ afterMacs arg t b ∧
      e = r.entryWith sdk rest ∧ r.key = k ∧ plain = r.plain ∧ nac = r.next := by
  have hlt : b < arg.bucketSize := hb ▸ Arg.Valid.htHash_lt ha.bucket_pos _
  obtain ⟨hclean₁, hroot, -⟩ := commitUpdate_of_clean ha hmac hchain hclean
  obtain ⟨msg, hmsg, htag⟩ := tag_eq_of_clean hlog hclean₁
  -- the root binds the MACs in memory to those of the records
  have hmacs := h.commits.groupMacs_eq hinj ha hlt (hM _ (mem_messages_root hlt t)) hroot
  rw [groupMacs_of_cut ha hmac hchain, eq_comm, List.map_eq_append_iff] at hmacs
  obtain ⟨A, rB, hG, hA, hrB⟩ := hmacs
  obtain ⟨r, B, rfl, hr, hB⟩ := List.map_eq_cons_iff.mp hrB
  have hmem : r ∈ G (rootIndex arg b) := by rw [hG]; simp
  -- and the MAC of the entry binds its fields
  obtain ⟨rest, rfl⟩ := h.commits.eq_entryWith hinj hmem hmsg
    (hM _ (mem_messages_entry arg (by rw [hchain]; simp) hmsg)) htag hr.symm
  obtain ⟨hkey, hplain, hnac⟩ := hans.of_carries (h.commits.fits _ r hmem).carries hk
  exact ⟨A, r, B, rest, hG, hA, hB, rfl, hkey, hplain, hnac⟩

include ha hmac ht hb h in
/-- **A write.**  The record of the key takes the place of those it had, and the root is
that of the new list. -/
theorem Committed.write {A B old : List Rec} {r : Rec} (hkey : r.key = k) (hr : r.Fits)
    (hG : G (rootIndex arg b) = A ++ (old ++ B)) (hold : ∀ r' ∈ old, r'.key = k)
    (hne : ∀ r' ∈ A ++ B, r'.key ≠ k) {pre post : List Entry} {rest : List UInt8}
    (hmacs : (A ++ r :: B).map (Rec.mac sdk) = (beforeMacs arg t b ++ pre.map (·.mac)) ++
      r.mac sdk :: (post.map (·.mac) ++ afterMacs arg t b))
    (hM' : ∀ msg ∈ messages arg ((t.write b (pre ++ r.entryWith sdk rest :: post) (t.buf b)).setRoot
      (rootIndex arg b) (rootTag sdk ((A ++ r :: B).map (Rec.mac sdk)))), msg ∈ M) :
    ∃ G', Committed arg sdk M G' (Function.update m k (some r.val))
      ((t.write b (pre ++ r.entryWith sdk rest :: post) (t.buf b)).setRoot (rootIndex arg b)
        (rootTag sdk ((A ++ r :: B).map (Rec.mac sdk)))) := by
  have hlt : b < arg.bucketSize := hb ▸ Arg.Valid.htHash_lt ha.bucket_pos _
  have hg : keyGroup arg r.key = rootIndex arg b := by rw [keyGroup, hkey, hb]
  have ht' := ht.write b (pre ++ r.entryWith sdk rest :: post) (t.buf b)
  have hchain' : (t.write b (pre ++ r.entryWith sdk rest :: post) (t.buf b)).chain b =
      pre ++ r.entryWith sdk rest :: post := by
    rw [ht.chain_write hlt, if_pos rfl]
  -- what the enclave has hashed is the list of the new records
  have hgroup : groupMacs arg (t.write b (pre ++ r.entryWith sdk rest :: post) (t.buf b)) b =
      (A ++ r :: B).map (Rec.mac sdk) := by
    rw [hmacs, groupMacs_of_cut ha hmac hchain', beforeMacs_write ht hlt, afterMacs_write ht hlt]
    rfl
  have hknown : r.message sdk ∈ M :=
    hM' _ (mem_messages_entry arg (by rw [Store.chain_setRoot, hchain']; simp)
      (message?_entryWith hr sdk rest))
  have hroots : ((A ++ r :: B).map (Rec.mac sdk)).flatMap blockBytes ∈ M := by
    rw [← hgroup]
    exact hM' _ (mem_messages_root hlt _)
  subst hkey
  rw [← hg] at hG ⊢
  refine ⟨_, h.replace hG hold hne hr hknown (ht'.setRoot _ _).macTable ?_ hroots ?_⟩
  · rw [ht'.root_setRoot (hg ▸ ha.rootIndex_lt hlt), if_pos rfl]
  · intro g hg'
    rw [ht'.root_setRoot (hg ▸ ha.rootIndex_lt hlt), if_neg (Ne.symm hg'), Store.root_write]

include ha hmac ht hb h in
/-- An update: the record of the key is replaced by its next version. -/
theorem Committed.update {A B : List Rec} {r r' : Rec} (hr' : r'.Fits)
    (hG : G (rootIndex arg b) = A ++ r :: B) (hkey : r'.key = k) (hrkey : r.key = k)
    {pre post : List Entry} {e : Entry}
    (hA : A.map (Rec.mac sdk) = beforeMacs arg t b ++ pre.map (·.mac))
    (hB : B.map (Rec.mac sdk) = post.map (·.mac) ++ afterMacs arg t b)
    (hchain : t.chain b = pre ++ e :: post) {rest cipher : List UInt8} {log : List Event}
    (hclean : Clean
      (commitUpdate arg sdk t b pre post e (r'.entryWith sdk rest) pre.length cipher log).log)
    (hM' : ∀ msg ∈ messages arg
      (commitUpdate arg sdk t b pre post e (r'.entryWith sdk rest) pre.length cipher log).store,
      msg ∈ M) :
    ∃ G', Committed arg sdk M G' (Function.update m k (some r'.val))
      (commitUpdate arg sdk t b pre post e (r'.entryWith sdk rest) pre.length cipher log).store := by
  have hmacs : (A ++ r' :: B).map (Rec.mac sdk) = (beforeMacs arg t b ++ pre.map (·.mac)) ++
      r'.mac sdk :: (post.map (·.mac) ++ afterMacs arg t b) := by
    rw [List.map_append, List.map_cons, hA, hB]
  obtain ⟨-, -, heq⟩ := commitUpdate_of_clean ha hmac hchain hclean
  rw [show (r'.entryWith sdk rest).mac = r'.mac sdk from rfl, ← hmacs] at heq
  rw [heq] at hM' ⊢
  exact h.write ha hmac ht hb hkey hr' (show _ = A ++ ([r] ++ B) from hG) (by simp [hrkey])
    (hrkey ▸ (h.of_split hG).2) hmacs hM'

include ha hmac ht hb h hinj hM in
/-- An insert: the key had no record, or the group has none that is not the key's. -/
theorem Committed.insert {r : Rec} (hkey : r.key = k) (hr : r.Fits)
    (hmiss : if groupMacs arg t b = [] then ∀ r' ∈ G (rootIndex arg b), r'.key = k
      else ∀ r' ∈ G (rootIndex arg b), r'.key ≠ k) {cipher : List UInt8} {log : List Event}
    {out : Outcome}
    (hout : out = commit sdk (t.write b (r.entry sdk :: t.chain b) (t.buf b)) (rootIndex arg b)
      (groupMacs arg t b) (groupWith arg t b (r.mac sdk :: bucketMacs arg t b)) cipher log)
    (hclean : Clean out.log) (hM' : ∀ msg ∈ messages arg out.store, msg ∈ M) :
    ∃ G', Committed arg sdk M G' (Function.update m k (some r.val)) out.store := by
  have hlt : b < arg.bucketSize := hb ▸ Arg.Valid.htHash_lt ha.bucket_pos _
  subst hout
  obtain ⟨-, hok, heq⟩ := commit_of_clean hclean
  have hgroup := groupMacs_eq_groupWith ha t b
  have hafter : groupWith arg t b (r.mac sdk :: bucketMacs arg t b) =
      (beforeMacs arg t b ++ ([] : List Entry).map (·.mac)) ++
        r.mac sdk :: ((t.chain b).map (·.mac) ++ afterMacs arg t b) := by
    rw [bucketMacs_of_chain hmac]
    simp [groupWith]
  rw [bucketMacs_of_chain hmac, groupWith] at hgroup
  rw [heq, hafter] at hM' ⊢
  -- an empty list is not checked
  by_cases hnil : groupMacs arg t b = []
  · -- the group was emptied: whatever it had is forgotten
    rw [if_pos hnil] at hmiss
    rw [hnil, eq_comm, List.append_eq_nil_iff, List.append_eq_nil_iff] at hgroup
    obtain ⟨h₁, h₂, h₃⟩ := hgroup
    have hmacs : ([] ++ r :: ([] : List Rec)).map (Rec.mac sdk) =
        (beforeMacs arg t b ++ ([] : List Entry).map (·.mac)) ++
          r.mac sdk :: ((t.chain b).map (·.mac) ++ afterMacs arg t b) := by
      rw [h₁, h₂, h₃]
      rfl
    rw [← hmacs] at hM' ⊢
    exact h.write ha hmac ht hb hkey hr (show _ = [] ++ (G (rootIndex arg b) ++ []) by simp) hmiss
      (by simp) hmacs hM'
  · rw [if_neg hnil] at hmiss
    have hroot : rootTag sdk (groupMacs arg t b) = t.root (rootIndex arg b) := hok.resolve_left hnil
    have hG := h.commits.groupMacs_eq hinj ha hlt (hM _ (mem_messages_root hlt t)) hroot
    rw [hgroup, eq_comm, List.map_eq_append_iff] at hG
    obtain ⟨A, B, hG, hA, hB⟩ := hG
    have hmacs : (A ++ r :: B).map (Rec.mac sdk) =
        (beforeMacs arg t b ++ ([] : List Entry).map (·.mac)) ++
          r.mac sdk :: ((t.chain b).map (·.mac) ++ afterMacs arg t b) := by
      rw [List.map_append, List.map_cons, hA, hB, List.map_nil, List.append_nil]
    rw [← hmacs] at hM' ⊢
    exact h.write ha hmac ht hb hkey hr (show _ = A ++ ([] ++ B) from hG) (by simp) (hG ▸ hmiss)
      hmacs hM'

include ha hmac ht h hinj hM in
/-- A `SET`. -/
theorem Committed.set (hk : k.length + 1 ≤ arg.maxBufSize) {v : List UInt8} {rand : Block}
    (hr : ∀ nac, Rec.Fits ⟨k, v, nac⟩)
    (hmiss : missed arg sdk t k = true → if groupMacs arg t (htHash arg (cstr k)) = []
      then ∀ r ∈ G (keyGroup arg k), r.key = k else ∀ r ∈ G (keyGroup arg k), r.key ≠ k)
    {out : Outcome}
    (hout : setKeyVal arg sdk t rand (cstr k) (strSize k) (cstr v) (strSize v) = some out)
    (hclean : Clean out.log) (hM' : ∀ msg ∈ messages arg out.store, msg ∈ M) :
    ∃ G', Committed arg sdk M G' (Function.update m k (some v)) out.store := by
  have hbuf := ha.buf_lt
  have hz := BufsSized.of_chain hmac t
  obtain ⟨l, hget, -⟩ := Option.bind_eq_some_iff.mp hout
  rcases htGetO_cases ha ht hget with ⟨hpair, hpos⟩ | ⟨pre, e, post, p, hchain, hpair, hplain, hpos, hans⟩
  -- a miss adds an entry
  · have hmiss := hmiss (by simp [missed, hget, hpair])
    obtain ⟨pair, plain, pos, nac⟩ := l
    obtain rfl : pair = none := hpair
    obtain rfl : pos = (t.chain (htHash arg (cstr k))).length := hpos
    have hinsert := setKeyVal_insert ha ht hz (hr rand) hk rfl hget
      (fun hopt => by rw [hmac] at hopt; cases hopt)
    simp only [pushBuf, pushMac, hmac, Bool.false_eq_true, if_false] at hinsert
    exact h.insert ha hmac ht rfl hinj hM rfl (hr rand) hmiss
      (Option.some.inj (hout.symm.trans hinsert)) hclean hM'
  · obtain ⟨-, -, e', cipher, log, hlog, -, heq⟩ :=
      (setKeyVal_eq_some_iff ha ht hz rfl hget hpair hpos hchain).mp hout
    -- a hit has found the entry of the record that is committed to
    have hslot : slot arg (t.chain (htHash arg (cstr k))).length pre.length = pre.length := by
      simp [slot, hmac]
    rw [heq, hslot] at hclean
    obtain ⟨A, r, B, rest, hG, hA, hB, rfl, rfl, rfl, hnac⟩ :=
      h.exists_record ha hmac rfl hinj hM (by omega) hchain hans hlog hclean
    have hfits : r.Fits := h.commits.fits _ r (by rw [hG]; simp)
    have hhit := Lookup.eq_hit hpair hplain hpos hnac
    obtain ⟨rest', -, hupdate⟩ := setKeyVal_update ha ht hz hfits (hr r.next) rfl rfl hk rfl
      (hhit ▸ hget) hchain rand
    rw [hslot] at hupdate
    obtain rfl := Option.some.inj (hout.symm.trans hupdate)
    rw [← hslot, ← heq] at hclean
    exact h.update ha hmac ht rfl (hr r.next) hG rfl rfl hA hB hchain hclean hM'

include ha hmac ht h hinj hM in
/-- An `APP`. -/
theorem Committed.append (hk : k.length + 1 ≤ arg.maxBufSize) {w cipher : List UInt8}
    (hr : ∀ v nac, m k = some v → Rec.Fits ⟨k, v ++ w, nac⟩)
    (hmiss : missed arg sdk t k = true → m k = none ∨ w = [])
    {out : Outcome}
    (hout : appendKeyVal arg sdk t cipher (cstr k) (strSize k) (cstr w) (strSize w) = some out)
    (hclean : Clean out.log) (hM' : ∀ msg ∈ messages arg out.store, msg ∈ M) :
    ∃ G', Committed arg sdk M G' (Function.update m k ((m k).map (· ++ w))) out.store := by
  have hbuf := ha.buf_lt
  have hz := BufsSized.of_chain hmac t
  obtain ⟨l, hget, -⟩ := Option.bind_eq_some_iff.mp hout
  rcases htGetO_cases ha ht hget with ⟨hpair, hpos⟩ | ⟨pre, e, post, p, hchain, hpair, hplain, hpos, hans⟩
  · have hsame : Function.update m k ((m k).map (· ++ w)) = m := by
      rw [Function.update_eq_self_iff]
      rcases hmiss (by simp [missed, hget, hpair]) with hnone | rfl
      · rw [hnone]
        rfl
      · simp
    -- a miss changes nothing, and the map agrees
    obtain ⟨pair, plain, pos, nac⟩ := l
    obtain rfl : pair = none := hpair
    obtain rfl := Option.some.inj (hout.symm.trans (appendKeyVal_miss hget _ _ _))
    rw [hsame]
    exact ⟨G, h⟩
  · obtain ⟨-, -, -, e', cipher', log, hlog, -, heq⟩ :=
      (appendKeyVal_eq_some_iff ha ht hz rfl hget hpair hpos hchain).mp hout
    rw [heq] at hclean
    obtain ⟨A, r, B, rest, hG, hA, hB, rfl, rfl, rfl, hnac⟩ :=
      h.exists_record ha hmac rfl hinj hM (by omega) hchain hans hlog hclean
    have hfits : r.Fits := h.commits.fits _ r (by rw [hG]; simp)
    -- the value that is appended to is the one in the map
    have hval := (h.of_split hG).1
    have hhit := Lookup.eq_hit hpair hplain hpos hnac
    have hupdate := appendKeyVal_found ha ht hz hfits (hr r.val r.next hval) rfl rfl rfl hk rfl
      (hhit ▸ hget) hchain cipher
    obtain rfl := Option.some.inj (hout.symm.trans hupdate)
    rw [← heq] at hclean
    rw [hval]
    exact h.update ha hmac ht rfl (hr r.val r.next hval) hG rfl rfl hA hB hchain hclean hM'

end Request

/-! ### A run -/

section Run

variable {arg : Arg} (sdk : Sdk) (ha : arg.Valid) (hmac : arg.macOpt = false)
  {M : List (List UInt8)} (hinj : Set.InjOn sdk.tag {m | m ∈ M})

include ha hmac hinj

/-- **One step.**  The host writes the memory, and a request is served without a
failure. -/
theorem Committed.step {hist : List Req} {s s' : Store} {i : Mem × Req} {out : Outcome}
    (h : ∃ G, Committed arg sdk M G (StringMap.after hist) s) (hok : StepOk arg sdk M hist s i)
    (hstep : tamperStep arg sdk s i = some (s', out)) (hclean : Clean out.log) :
    ∃ G, Committed arg sdk M G (StringMap.after (hist ++ [i.2])) s' := by
  obtain ⟨G, h⟩ := h
  have hafter := hok.after
  rw [hstep, Option.map_some, Option.getD_some] at hafter
  obtain ⟨mem, op, lower, rand⟩ := i
  have hq := hok.wellFormed
  have hk := hq.key_lt
  have ht : (s.tamper mem).Shaped arg := ⟨hok.shaped.1, hok.shaped.2, h.macTable⟩
  obtain ⟨out', hserve, heq⟩ := Option.map_eq_some_iff.mp hstep
  obtain ⟨rfl, rfl⟩ := Prod.mk.inj heq
  rw [serve_eq sdk ha hq] at hserve
  have hsized := hok.sized
  have hmiss := hok.miss
  rw [StringMap.after_concat] at hsized ⊢
  -- the host does not reach the roots
  have h := h.tamper mem
  cases op with
  | get k =>
    rw [store_of_getKeyVal hserve]
    exact ⟨G, h⟩
  | set k v =>
    have hr : ∀ nac, Rec.Fits ⟨k, v, nac⟩ := by
      intro nac
      simp only [StringMap.step, Op.key, Function.update_self, Option.getD_some] at hsized
      exact ⟨hq.word, hq.val_nul, hsized⟩
    refine h.set ha hmac ht hinj hok.before (by simp only [Op.key] at hk; omega) hr ?_ hserve hclean
      hafter
    intro hmissed
    have hmiss : MissOk arg hist (groupMacs arg (s.tamper mem) (htHash arg (cstr k))) (.set k v) :=
      hmiss hmissed
    simp only [MissOk] at hmiss
    split
    · next hnil =>
      rw [if_pos hnil] at hmiss
      intro r hr
      -- the group is started anew, which only the key itself may have been in
      obtain ⟨A, B, hG⟩ := List.append_of_mem hr
      exact hmiss r.key (mem_inserts_of_after (h.of_split hG).1) (h.home _ r hr)
    · next hne =>
      rw [if_neg hne] at hmiss
      exact h.key_ne_of_none hmiss
  | append k w =>
    have hr : ∀ v nac, StringMap.after hist k = some v → Rec.Fits ⟨k, v ++ w, nac⟩ := by
      intro v nac hv
      simp only [StringMap.step, Op.key, Function.update_self, hv, Option.map_some,
        Option.getD_some] at hsized
      have hnul : (0 : UInt8) ∉ v ++ w := by
        rw [List.mem_append, not_or]
        -- the old value is that of a record, and has no terminator in it
        have hrec := h.vals k
        rw [hv, Option.toList_some] at hrec
        have hmem : v ∈ valsOf k (G (keyGroup arg k)) := by rw [hrec]; simp
        obtain ⟨r, hr, rfl⟩ := List.mem_map.mp hmem
        exact ⟨(h.commits.fits _ r (List.mem_of_mem_filter hr)).val_nul, hq.val_nul⟩
      exact ⟨hq.word, hnul, hsized⟩
    exact h.append ha hmac ht hinj hok.before (by simp only [Op.key] at hk; omega) hr hmiss hserve
      hclean hafter

end Run

end ShieldStore
