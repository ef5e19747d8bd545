import ShieldStore.Geometry
import ShieldStore.Server

/-!
# How the buckets are shared out

The buckets are cut twice: into groups, one for every root, and into ranges, one for
every worker.  Both cuts use a truncated quotient, `ratio_root_per_buckets` and
`ht_enclave->size/arg_enclave.num_threads`, and nothing checks that the command line's
numbers divide each other.  This module says for which numbers the two cuts are what the
rest of the enclave takes them for.

## Main definitions

* `bucketThread` — the worker of a bucket.

## Main results

* `groups_iff_dvd` — when the roots and the groups stay inside their tables.
* `workers_iff_dvd` — when every bucket has a worker, and every group one worker.
-/

namespace ShieldStore

open Pieces

/-- `thread_id` for a bucket. -/
def bucketThread (arg : Arg) (b : ℕ) : Option ℕ :=
  -- division by zero has no defined behaviour
  if arg.bucketSize / arg.numThreads = 0 then none
  else some (b / (arg.bucketSize / arg.numThreads))

theorem threadId_eq (arg : Arg) (key : List UInt8) :
    threadId arg key = bucketThread arg (htHash arg key) := rfl

section Threads

variable {arg : Arg} (hpos : 0 < arg.numThreads) (hle : arg.numThreads ≤ arg.bucketSize)

include hpos hle

theorem bucketThread_eq (b : ℕ) :
    bucketThread arg b = some (b / (arg.bucketSize / arg.numThreads)) :=
  if_neg (Nat.div_pos hle hpos).ne'

/-- Every bucket has a worker exactly when the workers share the buckets evenly. -/
theorem forall_bucketThread_lt_iff :
    (∀ b < arg.bucketSize, ∃ i, bucketThread arg b = some i ∧ i < arg.numThreads) ↔
      arg.numThreads ∣ arg.bucketSize := by
  rw [← forall_div_lt_iff hpos hle]
  refine forall₂_congr fun b _ => ?_
  rw [bucketThread_eq hpos hle]
  simp

/-- The buckets of a group have one worker exactly when the workers share the roots
evenly. -/
theorem forall_bucketThread_eq_iff (hroot : 0 < arg.treeRootSize)
    (hthread : arg.numThreads ∣ arg.bucketSize) (hdvd : arg.treeRootSize ∣ arg.bucketSize) :
    (∀ a < arg.bucketSize, ∀ b < arg.bucketSize, rootIndex arg a = rootIndex arg b →
        bucketThread arg a = bucketThread arg b) ↔ arg.numThreads ∣ arg.treeRootSize := by
  have hbucket : 0 < arg.bucketSize := hpos.trans_le hle
  have hratio : 0 < arg.ratio := Nat.div_pos (Nat.le_of_dvd hbucket hdvd) hroot
  have hper : 0 < arg.bucketSize / arg.numThreads := Nat.div_pos hle hpos
  have hrefines := forall_div_eq_iff hratio hper (Nat.div_dvd_of_dvd hdvd)
    (Nat.div_dvd_of_dvd hthread) hbucket
  -- the shorter pieces divide the longer ones when the counts do, the other way round
  rw [Arg.ratio, div_dvd_div_iff hbucket hdvd hthread] at hrefines
  rw [← hrefines]
  refine forall₂_congr fun a _ => forall₂_congr fun b _ => ?_
  rw [bucketThread_eq hpos hle, bucketThread_eq hpos hle, Option.some.injEq]
  rfl

end Threads

/-- **Which worker gets a bucket.**  The index that `enclave_message_pass` computes names a
worker for every bucket just when their number divides that of the buckets; and if so,
two buckets with one root go to one worker, whichever they are, just when it divides that
of the roots. -/
theorem workers_iff_dvd {arg : Arg} (hpos : 1 ≤ arg.numThreads)
    (hle : arg.numThreads ≤ arg.bucketSize) :
    ((∀ b < arg.bucketSize, ∃ i, bucketThread arg b = some i ∧ i < arg.numThreads) ↔
      arg.numThreads ∣ arg.bucketSize) ∧
    (1 ≤ arg.treeRootSize → arg.numThreads ∣ arg.bucketSize → arg.treeRootSize ∣ arg.bucketSize →
      ((∀ a < arg.bucketSize, ∀ b < arg.bucketSize, rootIndex arg a = rootIndex arg b →
          bucketThread arg a = bucketThread arg b) ↔ arg.numThreads ∣ arg.treeRootSize)) :=
  ⟨forall_bucketThread_lt_iff hpos hle, forall_bucketThread_eq_iff hpos hle⟩

/-- Four workers and six roots for twelve buckets. -/
theorem workers_iff_dvd_four :
    (∀ b < 12, ∃ i, bucketThread ⟨4, 64, 12, 6, false, false⟩ b = some i ∧ i < 4) ∧
    ¬ (∀ a < 12, ∀ b < 12, rootIndex ⟨4, 64, 12, 6, false, false⟩ a =
        rootIndex ⟨4, 64, 12, 6, false, false⟩ b →
      bucketThread ⟨4, 64, 12, 6, false, false⟩ a = bucketThread ⟨4, 64, 12, 6, false, false⟩ b) := by
  obtain ⟨hworkers, hgroups⟩ := @workers_iff_dvd ⟨4, 64, 12, 6, false, false⟩ (by decide) (by decide)
  refine ⟨hworkers.mpr (by decide), ?_⟩
  rw [hgroups (by decide) (by decide) (by decide)]
  decide

/-- **The groups and their roots.**  With as many roots as buckets at most, the root's slot
and the buckets that are scanned for it stay inside their tables, for every bucket, just
when the roots divide the buckets; and then the scanned ranges cut the buckets into
pieces, each range around its own bucket, with one root for all buckets of a range. -/
theorem groups_iff_dvd {arg : Arg} (hpos : 1 ≤ arg.treeRootSize)
    (hle : arg.treeRootSize ≤ arg.bucketSize) :
    ((∀ h < arg.bucketSize, rootIndex arg h < arg.treeRootSize ∧
        ∀ i ∈ groupRange arg h, i < arg.bucketSize) ↔ arg.treeRootSize ∣ arg.bucketSize) ∧
    (arg.treeRootSize ∣ arg.bucketSize → ∀ a < arg.bucketSize, a ∈ groupRange arg a ∧
      ∀ b < arg.bucketSize,
        (rootIndex arg a = rootIndex arg b ↔ groupRange arg a = groupRange arg b) ∧
        (groupRange arg a = groupRange arg b ∨ (groupRange arg a).Disjoint (groupRange arg b))) := by
  have hratio : 0 < arg.ratio := Nat.div_pos hle hpos
  refine ⟨?_, fun _ a _ => ⟨self_mem_piece hratio a, fun b _ => ⟨?_, ?_⟩⟩⟩
  · constructor
    · intro h
      exact (forall_div_lt_iff hpos hle).mp fun b hb => (h b hb).1
    · intro hdvd b hb
      refine ⟨(forall_div_lt_iff hpos hle).mpr hdvd b hb, fun i hi => ?_⟩
      exact lt_of_mem_piece hratio (Nat.div_dvd_of_dvd hdvd) hb hi
  · exact (piece_eq_iff hratio).symm
  · exact or_iff_not_imp_left.mpr (disjoint_piece hratio)

/-- Two roots for four buckets. -/
theorem groups_iff_dvd_two :
    (∀ h < 4, rootIndex ⟨1, 64, 4, 2, false, false⟩ h < 2 ∧
      ∀ i ∈ groupRange ⟨1, 64, 4, 2, false, false⟩ h, i < 4) ∧
    groupRange ⟨1, 64, 4, 2, false, false⟩ 2 = groupRange ⟨1, 64, 4, 2, false, false⟩ 3 := by
  obtain ⟨hinside, hcut⟩ := @groups_iff_dvd ⟨1, 64, 4, 2, false, false⟩ (by decide) (by decide)
  exact ⟨hinside.mpr (by decide), ((hcut (by decide) 2 (by decide)).2 3 (by decide)).1.mp (by decide)⟩

end ShieldStore
