import ShieldStore.Front

/-!
# Jobs on the heap

A job is allocated by the responder, which pushes it to the queue of a worker, and freed
by the worker that pops it.  So what is on the heap is what is in the queues, and the job
that the responder has in its hands; and the job that a worker is at work on is still the
front of its queue.

## Main definitions

* `Snapshot.jobs` — the jobs that somebody has to free.
* `JobHeap` — they are what is on the heap.

## Main results

* `JobHeap.step` — one section.
* `threads_jobs` — no job is lost, and none is freed too early or twice.
-/

namespace ShieldStore

open Bytes Counter CMem Sections Function Run

/-! ### Who has a job -/

/-- The job that the responder has in its hands. -/
def RespPoint.inHand : RespPoint → List Job
  | .check _ job _ | .lock _ job _ => [job]
  | _ => []

/-- The job that a worker is at work on, and the worker's number. -/
def WorkerPoint.holds : WorkerPoint → Option (ℕ × Job)
  | .took i job | .relock i job | .relockQuit i job => some (i, job)
  | _ => none

/-- The jobs in the queues. -/
def queued (arg : Arg) (queue : ℕ → JobQueue) : List Job :=
  (List.range arg.numThreads).flatMap fun i => (queue i).jobs

/-- The jobs that somebody has to free. -/
def Snapshot.jobs (arg : Arg) (s : Snapshot) : List Job := s.responder.inHand ++ queued arg s.queue

/-- What is on the heap is what somebody has to free. -/
structure JobHeap (arg : Arg) (s : Snapshot) : Prop where
  front : ∀ {n i job}, (s.worker n).holds = some (i, job) → ∃ rest, (s.queue i).jobs = job :: rest
  ready_lt : ∀ i ∈ s.mem.ready, i < arg.numThreads
  lt : ∀ ptr ∈ s.mem.live, ptr < s.mem.allocs
  nodup : s.mem.live.Nodup
  live : s.mem.live.Perm ((s.jobs arg).map Job.ptr)

theorem JobHeap.init (arg : Arg) : JobHeap arg (Snapshot.init arg) where
  front := by
    intro n i job h
    by_cases hn : n < arg.numThreads <;> simp [Snapshot.init, hn, WorkerPoint.holds] at h
  ready_lt := by simp [Snapshot.init, threadsInit]
  lt := by simp [Snapshot.init, threadsInit]
  nodup := List.nodup_nil
  live := by simp [Snapshot.init, threadsInit, Snapshot.jobs, RespPoint.inHand, queued]

/-! ### The queues -/

/-- One queue is replaced. -/
theorem exists_perm_queued {arg : Arg} (queue : ℕ → JobQueue) {i : ℕ} (hi : i < arg.numThreads) :
    ∃ rest, (queued arg queue).Perm ((queue i).jobs ++ rest) ∧
      ∀ q : JobQueue, (queued arg (update queue i q)).Perm (q.jobs ++ rest) := by
  obtain ⟨rest, hperm, hupdate⟩ := Lists.exists_perm_flatMap_update (fun i => (queue i).jobs) hi
  refine ⟨rest, hperm, fun q => ?_⟩
  have hjobs : (fun j => (update queue i q j).jobs) = update (fun j => (queue j).jobs) i q.jobs := by
    funext j
    exact apply_update (fun _ q => q.jobs) queue i q j
  rw [queued, hjobs]
  exact hupdate q.jobs

theorem loopHead_jobs (i : ℕ) (q : JobQueue) : (loopHead i q).2.jobs = q.jobs := by
  unfold loopHead
  split <;> simp_all

theorem loopHead_holds {i i' : ℕ} {q : JobQueue} {job : Job}
    (h : (loopHead i q).1.holds = some (i', job)) : i' = i ∧ ∃ rest, q.jobs = job :: rest := by
  unfold loopHead at h
  split at h
  · cases h
  · next curJob rest hjobs =>
    cases h
    exact ⟨rfl, rest, hjobs⟩

/-! ### Steps -/

section Steps

variable {arg : Arg} {s : Snapshot} (h : JobHeap arg s)

include h

/-- Steps that have nothing to do with jobs. -/
theorem JobHeap.frame {s' : Snapshot}
    (hworker : ∀ n, (s'.worker n).holds = none ∨ (s'.worker n).holds = (s.worker n).holds)
    (hqueue : s'.queue = s.queue) (hready : ∀ i ∈ s'.mem.ready, i < arg.numThreads)
    (hlive : s'.mem.live = s.mem.live) (hallocs : s'.mem.allocs = s.mem.allocs)
    (hresponder : s'.responder.inHand = s.responder.inHand) : JobHeap arg s' where
  front := by
    intro n i job hholds
    rw [hqueue]
    rcases hworker n with hnone | hsame
    · rw [hnone] at hholds
      cases hholds
    · exact h.front (hsame ▸ hholds)
  ready_lt := hready
  lt := by
    rw [hlive, hallocs]
    exact h.lt
  nodup := hlive ▸ h.nodup
  live := by
    rw [hlive, Snapshot.jobs, hresponder, hqueue]
    exact h.live

/-- The responder allocates a job. -/
theorem JobHeap.newJob {buf : List UInt8} {sock : ℤ} {rand : Block} {mem : Globals} {p : RespPoint}
    (hlive : mem.live = s.mem.allocs :: s.mem.live) (hallocs : mem.allocs = s.mem.allocs + 1)
    (hready : mem.ready = s.mem.ready) (hresponder : s.responder.inHand = [])
    (hp : p.inHand = [(s.mem.newJob buf sock rand).1]) :
    JobHeap arg { s with responder := p, mem } where
  front := h.front
  ready_lt := by
    rw [hready]
    exact h.ready_lt
  lt := by
    intro ptr hptr
    rw [hlive] at hptr
    rw [hallocs]
    -- the new pointer is the number of allocations so far
    rcases List.mem_cons.mp hptr with rfl | hptr
    · exact Nat.lt_succ_self _
    · exact Nat.lt_succ_of_lt (h.lt ptr hptr)
  nodup := by
    rw [hlive, List.nodup_cons]
    exact ⟨fun hmem => (h.lt _ hmem).false, h.nodup⟩
  live := by
    have hold := h.live
    rw [Snapshot.jobs, hresponder, List.nil_append] at hold
    rw [hlive, Snapshot.jobs, hp, List.singleton_append, List.map_cons]
    exact hold.cons _

/-- The responder pushes a job. -/
theorem JobHeap.push {i : ℕ} {job : Job} {next : Option ℕ} {cond : Cond}
    (hresponder : s.responder = .lock i job next) (hready : i ∈ s.mem.ready) :
    JobHeap arg
      { s with
        responder := afterPush next
        queue := update s.queue i ⟨(s.queue i).jobs ++ [job], cond⟩ } where
  front := by
    intro n i' job' hholds
    obtain ⟨rest, hjobs⟩ := h.front hholds
    rcases eq_or_ne i' i with rfl | hne
    · exact ⟨rest ++ [job], by simp only [update_self, hjobs, List.cons_append]⟩
    · exact ⟨rest, by simp only [update_of_ne hne, hjobs]⟩
  ready_lt := h.ready_lt
  lt := h.lt
  nodup := h.nodup
  live := by
    obtain ⟨rest, hperm, hupdate⟩ := exists_perm_queued s.queue (h.ready_lt i hready)
    have hnone : (afterPush next).inHand = [] := by cases next <;> rfl
    refine h.live.trans (List.Perm.map _ ?_)
    rw [Snapshot.jobs, Snapshot.jobs, hresponder, hnone, List.nil_append]
    -- from the hand of the responder to the end of the queue
    calc ([job] ++ queued arg s.queue).Perm ([job] ++ ((s.queue i).jobs ++ rest)) := hperm.append_left _
      _ = [job] ++ (s.queue i).jobs ++ rest := (List.append_assoc _ _ _).symm
      _ |>.Perm ((s.queue i).jobs ++ [job] ++ rest) := List.perm_append_comm.append_right _
      _ |>.Perm _ := (hupdate ⟨(s.queue i).jobs ++ [job], cond⟩).symm

/-- A worker looks at its queue. -/
theorem JobHeap.head {n i : ℕ} {p : WorkerPoint} {q : JobQueue} (hq : q.jobs = (s.queue i).jobs)
    (hp : ∀ {i' job}, p.holds = some (i', job) → i' = i ∧ ∃ rest, q.jobs = job :: rest) :
    JobHeap arg { s with worker := update s.worker n p, queue := update s.queue i q } := by
  -- the condition variable may change, the jobs do not
  have hsame : ∀ j, (update s.queue i q j).jobs = (s.queue j).jobs := by
    intro j
    rcases eq_or_ne j i with rfl | hne
    · rw [update_self, hq]
    · rw [update_of_ne hne]
  constructor
  · intro n' i' job hholds
    show ∃ rest, (update s.queue i q i').jobs = _
    rw [hsame]
    rcases eq_or_ne n' n with rfl | hne
    · simp only [update_self] at hholds
      obtain ⟨rfl, rest, hrest⟩ := hp hholds
      exact ⟨rest, hq ▸ hrest⟩
    · simp only [update_of_ne hne] at hholds
      exact h.front hholds
  · exact h.ready_lt
  · exact h.lt
  · exact h.nodup
  · have hqueued : queued arg (update s.queue i q) = queued arg s.queue := by
      unfold queued
      simp only [hsame]
    show s.mem.live.Perm ((s.responder.inHand ++ queued arg (update s.queue i q)).map Job.ptr)
    rw [hqueued]
    exact h.live

/-- A worker pops its queue and frees its job. -/
theorem JobHeap.pop {n i : ℕ} {curJob front : Job} {jobs : List Job} {p : WorkerPoint} {q : JobQueue}
    (hi : i < arg.numThreads) (hholds : (s.worker n).holds = some (i, curJob))
    (hother : ∀ {n' job}, n' ≠ n → (s.worker n').holds ≠ some (i, job))
    (hjobs : (s.queue i).jobs = front :: jobs) (hq : q.jobs = jobs)
    (hp : ∀ {i' job}, p.holds = some (i', job) → i' = i ∧ ∃ rest, q.jobs = job :: rest) :
    JobHeap arg
      { s with
        worker := update s.worker n p
        queue := update s.queue i q
        mem := { s.mem with live := s.mem.live.erase curJob.ptr } } := by
  obtain ⟨rest', hfront⟩ := h.front hholds
  rw [hjobs, List.cons.injEq] at hfront
  obtain ⟨rfl, rfl⟩ := hfront
  constructor
  · intro n' i' job hholds'
    rcases eq_or_ne n' n with rfl | hne
    · simp only [update_self] at hholds'
      obtain ⟨rfl, rest, hrest⟩ := hp hholds'
      exact ⟨rest, by simp only [update_self, hrest]⟩
    · simp only [update_of_ne hne] at hholds'
      have hi' : i' ≠ i := by
        rintro rfl
        exact hother hne hholds'
      obtain ⟨rest, hrest⟩ := h.front hholds'
      exact ⟨rest, by simp only [update_of_ne hi', hrest]⟩
  · exact h.ready_lt
  · exact fun ptr hptr => h.lt ptr (List.mem_of_mem_erase hptr)
  · exact h.nodup.erase _
  · obtain ⟨rest, hperm, hupdate⟩ := exists_perm_queued s.queue hi
    show (s.mem.live.erase front.ptr).Perm
      ((s.responder.inHand ++ queued arg (update s.queue i q)).map Job.ptr)
    -- the job is the front of the queue, so that it can be moved to the front of all of them
    have hlive : s.mem.live.Perm (front.ptr :: (s.responder.inHand ++ (jobs ++ rest)).map Job.ptr) := by
      refine h.live.trans ?_
      rw [Snapshot.jobs, ← List.map_cons]
      refine List.Perm.map _ ?_
      calc (s.responder.inHand ++ queued arg s.queue).Perm
            (s.responder.inHand ++ ((s.queue i).jobs ++ rest)) := hperm.append_left _
        _ = s.responder.inHand ++ (front :: (jobs ++ rest)) := by rw [hjobs, List.cons_append]
        _ |>.Perm (front :: (s.responder.inHand ++ (jobs ++ rest))) := List.perm_middle
    have herase := hlive.erase front.ptr
    rw [List.erase_cons_head] at herase
    refine herase.trans (List.Perm.map _ (List.Perm.append_left _ ?_))
    rw [← hq]
    exact (hupdate q).symm

end Steps

section Step

variable {arg : Arg} {buf : List UInt8} {sdk : Sdk} {s s' : Snapshot} {st : Front}
  {m : Thread × Stimulus} {os : List Shown}

/-- Outside of its sections `main` writes the parameters of its call only. -/
theorem MainLoc.outer_mem {l : MainLoc} {mem : Globals} {stimulus : Stimulus}
    {r : MainLoc × Globals × List Shown} (h : l.outer arg mem stimulus = some r) :
    ∃ params, r.2.1 = { mem with params } := by
  cases hpoint : l.point with
  | select =>
    simp only [outer, hpoint] at h
    split at h <;> cases h <;> exact ⟨_, rfl⟩
  | returned result =>
    simp only [outer, hpoint] at h
    obtain ⟨a, -, heq⟩ := Option.bind_eq_some_iff.mp h
    cases heq
    exact ⟨_, rfl⟩
  | join i =>
    simp only [outer, hpoint] at h
    split at h
    · split at h <;> cases h <;> exact ⟨_, rfl⟩
    · cases h
      exact ⟨_, rfl⟩
  | _ =>
    simp only [outer, hpoint] at h
    cases h
    exact ⟨_, rfl⟩

theorem WorkerPoint.threadId_of_holds {p : WorkerPoint} {i : ℕ} {job : Job}
    (h : p.holds = some (i, job)) : p.threadId = some i := by
  cases p <;> cases h <;> rfl

theorem WorkerAt.lt_length {workers : List Worker} {num i : ℕ} {p : WorkerPoint}
    (h : WorkerAt workers num p) (hid : p.threadId = some i) : i < workers.length := by
  cases h <;> cases hid <;> next h => exact (List.getElem?_eq_some_iff.mp h).1

/-- A step of the responder outside of its sections. -/
theorem JobHeap.responder {r : RespPoint × Globals × List Shown} (h : JobHeap arg s)
    (hmode : s.responder.mode = .outside) (houter : s.responder.outer arg sdk s.mem = some r) :
    JobHeap arg { s with responder := r.1, mem := r.2.1 } := by
  cases hresponder : s.responder with
  | hot p =>
    have hnone : s.responder.inHand = [] := by rw [hresponder]; rfl
    rw [hresponder] at houter hmode
    cases p with
    | call callID data =>
      simp only [RespPoint.outer] at houter
      split at houter
      · rcases messagePass_cases houter with ⟨-, rfl⟩ | ⟨-, -, rfl⟩ | ⟨-, -, _, _, _, -, -, -, rfl⟩
        · refine h.frame (fun _ => .inr rfl) rfl h.ready_lt rfl rfl ?_
          rw [hnone]
          dsimp only
          split <;> rfl
        · exact h.frame (fun _ => .inr rfl) rfl h.ready_lt rfl rfl hnone.symm
        · exact h.newJob rfl rfl rfl hnone rfl
      · cases houter
        exact h.frame (fun _ => .inr rfl) rfl h.ready_lt rfl rfl hnone.symm
    | left =>
      cases houter
      exact h.frame (fun _ => .inr rfl) rfl h.ready_lt rfl rfl hnone.symm
    | _ => cases hmode
  | quits i =>
    have hnone : s.responder.inHand = [] := by rw [hresponder]; rfl
    rw [hresponder] at houter
    simp only [RespPoint.outer] at houter
    split at houter
    · obtain ⟨buf, -, heq⟩ := Option.bind_eq_some_iff.mp houter
      cases heq
      exact h.newJob rfl rfl rfl hnone rfl
    · cases houter
      exact h.frame (fun _ => .inr rfl) rfl h.ready_lt rfl rfl hnone.symm
  -- the job stays in hand until it is pushed
  | check i job next =>
    have hhand : s.responder.inHand = [job] := by rw [hresponder]; rfl
    rw [hresponder] at houter
    simp only [RespPoint.outer] at houter
    split at houter <;> cases houter
    exact h.frame (fun _ => .inr rfl) rfl h.ready_lt rfl rfl hhand.symm
  | gone =>
    have hnone : s.responder.inHand = [] := by rw [hresponder]; rfl
    rw [hresponder] at houter
    cases houter
    exact h.frame (fun _ => .inr rfl) rfl h.ready_lt rfl rfl hnone.symm
  | _ => rw [hresponder] at hmode; cases hmode

/-- A step of a worker outside of its sections. -/
theorem JobHeap.worker {n : ℕ} {r : WorkerPoint × Globals × List Shown} (h : JobHeap arg s)
    (hmode : (s.worker n).mode = .outside)
    (houter : (s.worker n).outer arg sdk (.worker n) s.mem = some r) :
    JobHeap arg { s with worker := update s.worker n r.1, mem := r.2.1 } := by
  -- the other workers hold what they held
  have hmove : ∀ {p : WorkerPoint}, p.holds = none ∨ p.holds = (s.worker n).holds → ∀ n',
      (update s.worker n p n').holds = none ∨
        (update s.worker n p n').holds = (s.worker n').holds := by
    intro p hp n'
    rcases eq_or_ne n' n with rfl | hne
    · rwa [update_self]
    · rw [update_of_ne hne]
      exact .inr rfl
  cases hworker : s.worker n with
  | took i curJob =>
    rw [hworker] at houter
    rcases (WorkerPoint.outer_took_cases houter).2 with ⟨out, -, rfl⟩ | ⟨-, rfl⟩ | ⟨-, rfl⟩
    · exact h.frame (hmove (.inr (by rw [hworker]; rfl))) rfl h.ready_lt rfl rfl rfl
    · exact h.frame (hmove (.inr (by rw [hworker]; rfl))) rfl h.ready_lt rfl rfl rfl
    · exact h.frame (hmove (.inl rfl)) rfl h.ready_lt rfl rfl rfl
  | destroy i =>
    rw [hworker] at houter
    cases houter
    refine h.frame (hmove (.inl rfl)) rfl ?_ rfl rfl rfl
    exact fun i' hi' => h.ready_lt i' (List.mem_of_mem_erase hi')
  | gone i =>
    rw [hworker] at houter
    cases houter
    exact h.frame (hmove (.inl rfl)) rfl h.ready_lt rfl rfl rfl
  | _ => rw [hworker] at hmode; cases hmode

/-- **One section.** -/
theorem JobHeap.step (hsim : Sim arg buf s st) (h : JobHeap arg s) (hstep : s.Step arg sdk m s' os) :
    JobHeap arg s' := by
  -- two workers never have one number, so that a job is held once
  have hother : ∀ {n i}, (s.worker n).threadId = some i →
      ∀ {n' job}, n' ≠ n → (s.worker n').holds ≠ some (i, job) :=
    fun hid _ _ hne hholds => hne (hsim.crew.inj (WorkerPoint.threadId_of_holds hholds) hid)
  have hlt : ∀ {n i}, (s.worker n).threadId = some i → i < arg.numThreads := by
    intro n i hid
    exact hsim.crew.length ▸ (hsim.crew.points n).lt_length hid
  cases hstep with
  | main hmode houter =>
    obtain ⟨params, hmem⟩ := MainLoc.outer_mem houter
    exact h.frame (fun _ => .inr rfl) rfl (by rw [hmem]; exact h.ready_lt) (by rw [hmem]) (by rw [hmem]) rfl
  | busy | call | returns | stop =>
    exact h.frame (fun _ => .inr rfl) rfl h.ready_lt rfl rfl rfl
  | awaits => exact h
  | responder hmode houter => exact h.responder hmode houter
  | poll hresponder | done hresponder =>
    exact h.frame (fun _ => .inr rfl) rfl h.ready_lt rfl rfl (by rw [hresponder]; rfl)
  | push hresponder hready => exact h.push hresponder hready
  | worker hmode houter => exact h.worker hmode houter
  | @start n stimulus hworker =>
    refine h.frame ?_ rfl ?_ rfl rfl rfl
    · intro n'
      rcases eq_or_ne n' n with rfl | hne
      · exact .inl (by simp only [update_self]; rfl)
      · exact .inr (by simp only [update_of_ne hne])
    · intro i hi
      rcases List.mem_cons.mp hi with rfl | hi
      · exact hsim.crew.num_lt hworker
      · exact h.ready_lt i hi
  | head hworker =>
    refine h.head (loopHead_jobs _ _) fun hp => ?_
    rw [loopHead_jobs]
    exact loopHead_holds hp
  | wake hworker =>
    refine h.head (loopHead_jobs _ _) fun hp => ?_
    rw [loopHead_jobs]
    exact loopHead_holds hp
  | @pop n stimulus i curJob front jobs mem hworker hjobs hfree =>
    obtain ⟨-, rfl⟩ := Globals.freeJob_eq_some hfree
    have hid : (s.worker n).threadId = some i := by rw [hworker]; rfl
    refine h.pop (hlt hid) (by rw [hworker]; rfl) (hother hid) hjobs (loopHead_jobs _ _) fun hp => ?_
    rw [loopHead_jobs]
    exact loopHead_holds hp
  | @quit n stimulus i curJob front jobs mem hworker hjobs hfree =>
    obtain ⟨-, rfl⟩ := Globals.freeJob_eq_some hfree
    have hid : (s.worker n).threadId = some i := by rw [hworker]; rfl
    refine h.pop (hlt hid) (by rw [hworker]; rfl) (hother hid) hjobs rfl fun hp => ?_
    cases hp

end Step

/-! ### Runs -/

/-- Every run of whole sections. -/
theorem JobHeap.of_reaches {arg : Arg} {buf : List UInt8} {sdk : Sdk} (ha : arg.Threaded)
    (hlen : 9 ≤ arg.maxBufSize) (hquit : quitBuf arg = some buf) {ms : List (Thread × Stimulus)}
    {c : Conf Lock Thread Globals ThreadPoint Guarded} {os : List Shown}
    (h : (threads arg sdk).Reaches (threadsInit arg) ms c os) :
    ∃ s st, c = s.conf ∧ (Front.init arg).Goes arg sdk os st ∧ Sim arg buf s st ∧ JobHeap arg s := by
  obtain ⟨s, rfl, st, hgoes, hsim, hheap⟩ := Snapshot.induct (fun _ => True)
    (motive := fun s os => ∃ st, (Front.init arg).Goes arg sdk os st ∧ Sim arg buf s st ∧ JobHeap arg s)
    ⟨Front.init arg, .refl, Sim.init arg buf, JobHeap.init arg⟩
    (fun {s₁ s₂ m os os'} ⟨st, hgoes, hsim, hheap⟩ _ hstep => by
      obtain ⟨st', hgoes', hsim'⟩ := hsim.step ha hlen hquit hstep
      exact ⟨st', hgoes.trans hgoes', hsim', hheap.step hsim hstep⟩) h fun _ _ => trivial
  exact ⟨s, st, rfl, hgoes, hsim, hheap⟩

/-- **No job is lost, and none is freed too early.**  Whenever no lock is held, the jobs
on the heap are those in the queues and the one in the hands of the responder, each of
them once, and the job that a worker is at work on is the front of its queue. -/
theorem threads_jobs (arg : Arg) (sdk : Sdk) (ha : arg.Threaded) (hlen : 9 ≤ arg.maxBufSize)
    (ms : List (Thread × Stimulus)) (σ : State Lock Thread Globals ThreadPoint Guarded)
    (oss : List (List Shown))
    (hrun : run (threads arg sdk).step (threadsInit arg).calm ms = some (σ, oss))
    (hfree : ∀ k, σ.owner k = none) :
    ∃ s : Snapshot, σ = s.conf.calm ∧ s.mem.live.Nodup ∧
      s.mem.live.Perm ((s.jobs arg).map Job.ptr) ∧
      ∀ n i job, (s.worker n).holds = some (i, job) → ∃ rest, (s.queue i).jobs = job :: rest := by
  obtain ⟨buf, hquit, -⟩ := exists_quitBuf ((show 4 ≤ 9 by decide).trans hlen)
  obtain ⟨ms', c, -, hreaches, hred⟩ := Prog.exists_reaches (fun _ => True) (threadsInit_out arg sdk)
    (fun _ _ => trivial) hrun
  obtain ⟨s, st, rfl, -, -, hheap⟩ := JobHeap.of_reaches ha hlen hquit hreaches
  exact ⟨s, hred.eq_of_free hfree, hheap.nodup, hheap.live, fun _ _ _ => hheap.front⟩

/-- The worker has taken the first of two jobs. -/
theorem threads_jobs_overlapping :
    ∃ (σ : State Lock Thread Globals ThreadPoint Guarded) (oss : List (List Shown)),
      run (threads ⟨1, 32, 1, 1, false, false⟩ Sdk.aes).step (threadsInit ⟨1, 32, 1, 1, false, false⟩).calm
          ((Thread.worker 0).moves 4 ++ overlappingRun ++ (Thread.worker 0).moves 3) = some (σ, oss) ∧
      σ.env.live = [1, 0] ∧
      ∃ s : Snapshot, σ = s.conf.calm ∧ s.mem.live.Nodup ∧
        s.mem.live.Perm ((s.jobs ⟨1, 32, 1, 1, false, false⟩).map Job.ptr) ∧
        ∀ n i job, (s.worker n).holds = some (i, job) → ∃ rest, (s.queue i).jobs = job :: rest := by
  have hshown : (run (threads ⟨1, 32, 1, 1, false, false⟩ Sdk.aes).step
      (threadsInit ⟨1, 32, 1, 1, false, false⟩).calm
      ((Thread.worker 0).moves 4 ++ overlappingRun ++ (Thread.worker 0).moves 3)).map
        (fun r => ((r.1.loc .main).mode, (r.1.loc .responder).mode, (r.1.loc (.worker 0)).mode,
          r.1.env.live)) =
      some (.enter .spin, .enter .spin, .outside, [1, 0]) := by
    decide +kernel
  obtain ⟨⟨σ, oss⟩, hrun, heq⟩ := Option.map_eq_some_iff.mp hshown
  simp only [Prod.mk.injEq] at heq
  obtain ⟨hmain, hresponder, hworker, hlive⟩ := heq
  obtain ⟨buf, hquit, -⟩ := @exists_quitBuf ⟨1, 32, 1, 1, false, false⟩ (by decide)
  obtain ⟨s, st, hred, -, hsim⟩ := Sim.of_run (by decide) (by decide) hquit hrun
  have hfree := hsim.owner_eq_none hred (by rw [hmain]; trivial) (by rw [hresponder]; trivial)
    fun n hn => by
      obtain rfl : n = 0 := Nat.lt_one_iff.mp hn
      rw [hworker]
      trivial
  exact ⟨σ, oss, hrun, hlive, threads_jobs ⟨1, 32, 1, 1, false, false⟩ Sdk.aes (by decide) (by decide)
    _ σ oss hrun hfree⟩

end ShieldStore
