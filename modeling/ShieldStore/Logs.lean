import ShieldStore.Record

/-!
# What a request writes to the log

Each request handler leaves the lines that its checks print and the assertions that are
false on its way.  This module says once, for any memory, which lines these can be; what
is never printed, and which assertions a run violates, are read off here.

## Main definitions

* `checkPrints` — the lines that the checks of an entry and of a group print.
* `insertAsserts` — the assertions behind a search that an insert violates.

## Main results

* `getKeyVal_log`, `setKeyVal_log`, `appendKeyVal_log` — the log of each operation.
-/

namespace ShieldStore

open Bytes Counter CMem

/-- The lines that the checks print: of an entry's MAC, of a root before a write, and of
either by the request handlers. -/
def checkPrints : List Event :=
  [.print .macMatchingFailed, .print .previousMacCompareFailed, .print .treeVerificationFailed]

/-- The assertions an insert violates, by what its search has left behind. -/
def insertAsserts (l : Lookup) : List Event :=
  if l.pair.isNone then
    assertLog .plainKeyValNull l.plainKeyVal.isNone ++ assertLog .kvPosZero (l.kvPos == 0)
  else []

/-- They are the two that an insert evaluates, each where it is false. -/
theorem mem_insertAsserts {l : Lookup} {e : Event} :
    e ∈ insertAsserts l → (e = .assertFalse .plainKeyValNull ∧ l.plainKeyVal ≠ none) ∨
      (e = .assertFalse .kvPosZero ∧ l.kvPos ≠ 0) := by
  intro h
  unfold insertAsserts assertLog at h
  split at h
  · rcases List.mem_append.mp h with h | h
    · split at h
      · cases h
      · next hplain => exact Or.inl ⟨by simpa using h, by simpa using hplain⟩
    · split at h
      · cases h
      · next hpos => exact Or.inr ⟨by simpa using h, by simpa using hpos⟩
  · cases h

/-! ### The checks -/

theorem printUnless_log (ret : SgxStatus) :
    printUnless ret .treeVerificationFailed ⊆ checkPrints := by
  unfold printUnless
  split
  · exact List.nil_subset _
  · simp [checkPrints]

/-- The status of the CMAC call never makes the handlers print a line of their own. -/
theorem verifyEntry_log {sdk : Sdk} {e : Entry} {log : List Event}
    (h : verifyEntry sdk e = some log) : log ⊆ checkPrints := by
  obtain ⟨buf, msg, -, -, rfl⟩ := verifyEntry_eq_some h
  split
  · exact List.nil_subset _
  · simp [checkPrints]

/-- A rebuilt root violates its assertion on an insert only. -/
theorem rebuild_log {arg : Arg} {sdk : Sdk} {s : Store} {hashVal kvPos : ℕ} {isInsert : Bool}
    {prevMac : Block} {r : SgxStatus × Store × List Event}
    (h : enclaveRebuildTreeRoot arg sdk s hashVal kvPos isInsert prevMac = some r) :
    ∃ prints, prints ⊆ checkPrints ∧
      r.2.2 = (if isInsert then assertLog .kvPosZero (kvPos == 0) else []) ++ prints := by
  unfold enclaveRebuildTreeRoot at h
  simp only [Option.bind_eq_bind, Option.bind_eq_some_iff] at h
  obtain ⟨agg, -, idx, -, prev, -, root, -, h⟩ := h
  cases prev with
  | none =>
    obtain rfl := Option.some.inj h
    exact ⟨[], List.nil_subset _, (List.append_nil _).symm⟩
  | some prev =>
    dsimp only at h
    split at h
    -- a check that fails is all that is printed
    · obtain rfl := Option.some.inj h
      exact ⟨[], List.nil_subset _, (List.append_nil _).symm⟩
    · obtain rfl := Option.some.inj h
      exact ⟨[.print .previousMacCompareFailed], by simp [checkPrints], rfl⟩

/-- Writing an entry that was found prints nothing. -/
theorem htAppendO_log {arg : Arg} {s : Store} {entry : Entry} {key keyVal : List UInt8}
    {nac mac : Block} {keyLen valLen : UInt32} {kvPos : ℕ} {r : Store × List Event}
    (h : htAppendO arg s (some entry) key keyVal nac mac keyLen valLen kvPos = some r) :
    r.2 = [] := by
  unfold htAppendO at h
  simp only [Option.bind_eq_bind, Option.bind_eq_some_iff] at h
  obtain ⟨chain, -, e, -, h⟩ := h
  split at h
  · simp only [Option.bind_eq_some_iff, Option.pure_def, Option.some.injEq] at h
    obtain ⟨b, -, b', -, rfl⟩ := h
    rfl
  · obtain rfl := Option.some.inj h
    rfl

/-! ### The operations -/

section Operations

variable {arg : Arg} {sdk : Sdk} {s : Store} {cipher key val : List UInt8} {keySize valSize : UInt32}
  {out : Outcome}

theorem getKeyVal_log (h : getKeyVal arg sdk s cipher key keySize = some out) :
    out.log ⊆ .print .getFailed :: checkPrints := by
  unfold getKeyVal at h
  obtain ⟨l, -, h⟩ := Option.bind_eq_some_iff.mp h
  cases hpair : l.pair with
  | none =>
    simp only [hpair, Option.pure_def, Option.some.injEq] at h
    subst h
    simp
  | some e =>
    simp only [hpair, Option.bind_eq_bind, Option.bind_eq_some_iff, Option.pure_def,
      Option.some.injEq] at h
    obtain ⟨log, hlog, ret, -, plain, -, reply, -, rfl⟩ := h
    apply List.subset_cons_of_subset
    exact List.append_subset.mpr ⟨verifyEntry_log hlog, printUnless_log ret⟩

theorem appendKeyVal_log
    (h : appendKeyVal arg sdk s cipher key keySize val valSize = some out) :
    out.log ⊆ .print .noDataToAppend :: checkPrints := by
  unfold appendKeyVal at h
  obtain ⟨l, -, h⟩ := Option.bind_eq_some_iff.mp h
  cases hpair : l.pair with
  | none =>
    simp only [hpair, Option.pure_def, Option.some.injEq] at h
    subst h
    simp
  | some e =>
    simp only [hpair, Option.bind_eq_bind, Option.bind_eq_some_iff, Option.pure_def,
      Option.some.injEq] at h
    obtain ⟨log, hlog, plain, -, kv₁, -, kv₂, -, enc, -, r₁, happ, r₂, hrebuild, reply, -, rfl⟩ := h
    obtain ⟨prints, hprints, heq⟩ := rebuild_log hrebuild
    rw [htAppendO_log happ, heq]
    apply List.subset_cons_of_subset
    apply List.append_subset.mpr ⟨_, printUnless_log _⟩
    simpa using ⟨verifyEntry_log hlog, hprints⟩

/-- A `SET` prints what its checks do; the assertions it violates are those of an insert. -/
theorem setKeyVal_log {rand : Block}
    (h : setKeyVal arg sdk s rand key keySize val valSize = some out) :
    ∃ l prints, htGetO arg sdk s key keySize = some l ∧ prints ⊆ checkPrints ∧
      out.log = insertAsserts l ++ prints := by
  unfold setKeyVal at h
  obtain ⟨l, hget, h⟩ := Option.bind_eq_some_iff.mp h
  unfold insertAsserts
  cases hpair : l.pair with
  | none =>
    simp only [hpair, Option.bind_eq_bind, Option.bind_eq_some_iff, Option.pure_def,
      Option.some.injEq] at h
    -- the entry is new: nothing to verify, and the assertions are made
    obtain ⟨log, rfl, kv₁, -, kv₂, -, enc, -, s₁, -, r, hrebuild, reply, -, rfl⟩ := h
    obtain ⟨prints, hprints, heq⟩ := rebuild_log hrebuild
    refine ⟨l, prints ++ printUnless r.1 .treeVerificationFailed, hget, ?_, ?_⟩
    · exact List.append_subset.mpr ⟨hprints, printUnless_log _⟩
    · rw [heq]
      simp [hpair]
  | some e =>
    simp only [hpair, Option.bind_eq_bind, Option.bind_eq_some_iff, Option.pure_def,
      Option.some.injEq] at h
    obtain ⟨log, hlog, kv₁, -, kv₂, -, enc, -, s₁, -, r, hrebuild, reply, -, rfl⟩ := h
    obtain ⟨prints, hprints, heq⟩ := rebuild_log hrebuild
    refine ⟨l, log ++ prints ++ printUnless r.1 .treeVerificationFailed, hget, ?_, ?_⟩
    · apply List.append_subset.mpr ⟨_, printUnless_log _⟩
      exact List.append_subset.mpr ⟨verifyEntry_log hlog, hprints⟩
    · rw [heq]
      simp [hpair]

end Operations

end ShieldStore
