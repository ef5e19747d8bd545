import ShieldStore.Jobs

/-!
# Signals, and threads that have returned

A worker that finds its queue empty waits for a signal, and the responder signals it
behind every push.  The worker tests its queue and goes to sleep in one section, so that
no job is pushed in between; and it tests the queue again when it wakes up, so that it
does no harm to wake up without a signal.

## Main definitions

* `Tidy` — what is known of sleeping workers and of threads that have returned.

## Main results

* `Tidy.step` — one section.
* `threads_wakeup` — **no wake-up is lost.**
* `Tidy.gone_of_joined` — when `main` has joined all threads, all have returned.
-/

namespace ShieldStore

open Bytes Counter CMem Sections Function Run

/-- What is known of sleeping workers and of threads that have returned. -/
structure Tidy (arg : Arg) (s : Snapshot) : Prop where
  /-- A worker sleeps on an empty queue, or it has been signalled. -/
  wakes : ∀ n i, s.worker n = .asleep i → (s.queue i).cond = .signalled ∨
    (s.queue i).cond = .waiting ∧ (s.queue i).jobs = []
  manned : ∀ i ∈ s.mem.ready, i < s.num
  ended : ∀ t, t ∈ s.mem.ended ↔ t = .responder ∧ s.responder = .gone ∨
    ∃ n i, t = .worker n ∧ s.worker n = .gone (some i)
  /-- `main` has joined the threads that it is past. -/
  joined : ∀ i, (s.main.point = .join i ∨ s.main.point = .done ∧ i = arg.numThreads + 1) →
    ∀ j < i, threadAt j ∈ s.mem.ended

theorem Tidy.init (arg : Arg) : Tidy arg (Snapshot.init arg) where
  wakes := by
    intro n i hasleep
    by_cases hn : n < arg.numThreads <;> simp [Snapshot.init, hn] at hasleep
  manned := by simp [Snapshot.init, threadsInit]
  ended := by
    intro t
    simp only [Snapshot.init, threadsInit, List.not_mem_nil, reduceCtorEq, and_false, false_or, false_iff,
      not_exists, not_and]
    intro n i _
    split <;> simp
  joined := by
    intro i hi
    rcases hi with hi | ⟨hi, -⟩ <;> cases hi

section Steps

variable {arg : Arg} {buf : List UInt8} {sdk : Sdk} {s s' : Snapshot} {st : Front}
  {m : Thread × Stimulus} {os : List Shown}

/-- A worker at the head of its loop sleeps only if there is nothing to do. -/
theorem loopHead_asleep {i i' : ℕ} {q : JobQueue} (h : (loopHead i q).1 = .asleep i') :
    i' = i ∧ (loopHead i q).2.cond = .waiting ∧ (loopHead i q).2.jobs = [] := by
  unfold loopHead at h ⊢
  split at h
  · next hjobs =>
    cases h
    exact ⟨rfl, by simp [hjobs]⟩
  · cases h

/-- A worker moves, and with it its queue.  The others have other queues. -/
theorem Tidy.wakes_update (h : Tidy arg s) (hsim : Sim arg buf s st) {n i : ℕ} {p : WorkerPoint}
    {q : JobQueue} (hid : (s.worker n).threadId = some i)
    (hp : ∀ i', p = .asleep i' → i' = i ∧ q.cond = .waiting ∧ q.jobs = []) :
    ∀ n' i', update s.worker n p n' = .asleep i' → (update s.queue i q i').cond = .signalled ∨
      (update s.queue i q i').cond = .waiting ∧ (update s.queue i q i').jobs = [] := by
  intro n' i' hasleep
  rcases eq_or_ne n' n with rfl | hne
  · rw [update_self] at hasleep
    obtain ⟨rfl, hcond, hjobs⟩ := hp i' hasleep
    rw [update_self]
    exact .inr ⟨hcond, hjobs⟩
  · rw [update_of_ne hne] at hasleep
    have hi' : i' ≠ i := by
      rintro rfl
      exact hne (hsim.crew.inj (by rw [hasleep]; rfl) hid)
    rw [update_of_ne hi']
    exact h.wakes n' i' hasleep

/-- A signal reaches whoever is asleep. -/
theorem Tidy.wakes_push (h : Tidy arg s) (i : ℕ) (job : Job) :
    ∀ n' i', s.worker n' = .asleep i' →
      (update s.queue i ⟨(s.queue i).jobs ++ [job], (s.queue i).cond.signal⟩ i').cond = .signalled ∨
      (update s.queue i ⟨(s.queue i).jobs ++ [job], (s.queue i).cond.signal⟩ i').cond = .waiting ∧
        (update s.queue i ⟨(s.queue i).jobs ++ [job], (s.queue i).cond.signal⟩ i').jobs = [] := by
  intro n' i' hasleep
  rcases eq_or_ne i' i with rfl | hne
  · rw [update_self]
    rcases h.wakes n' i' hasleep with hcond | ⟨hcond, -⟩ <;> exact .inl (by simp [hcond, Cond.signal])
  · rw [update_of_ne hne]
    exact h.wakes n' i' hasleep

theorem Tidy.wakes_step (h : Tidy arg s) (hsim : Sim arg buf s st) (hstep : s.Step arg sdk m s' os) :
    ∀ n i, s'.worker n = .asleep i → (s'.queue i).cond = .signalled ∨
      (s'.queue i).cond = .waiting ∧ (s'.queue i).jobs = [] := by
  have hid : ∀ {n i}, s.worker n = .lock i ∨ s.worker n = .asleep i → (s.worker n).threadId = some i := by
    rintro n i (hworker | hworker) <;> rw [hworker] <;> rfl
  -- a worker that moves on its own
  have hmove : ∀ {n : ℕ} {p : WorkerPoint}, (∀ i, p ≠ .asleep i) →
      ∀ n' i, update s.worker n p n' = .asleep i → (s.queue i).cond = .signalled ∨
        (s.queue i).cond = .waiting ∧ (s.queue i).jobs = [] := by
    intro n p hp n' i hasleep
    rcases eq_or_ne n' n with rfl | hne
    · rw [update_self] at hasleep
      exact absurd hasleep (hp i)
    · rw [update_of_ne hne] at hasleep
      exact h.wakes n' i hasleep
  cases hstep with
  | push => exact h.wakes_push _ _
  | @worker n stimulus r hmode houter =>
    refine hmove fun i heq => ?_
    cases hworker : s.worker n with
    | took j curJob =>
      rw [hworker] at houter
      rcases (WorkerPoint.outer_took_cases houter).2 with ⟨out, -, rfl⟩ | ⟨-, rfl⟩ | ⟨-, rfl⟩ <;> cases heq
    | destroy j | gone j =>
      rw [hworker] at houter
      cases houter
      cases heq
    | _ => rw [hworker] at hmode; cases hmode
  | start => exact hmove (by simp)
  | head hworker => exact h.wakes_update hsim (hid (.inl hworker)) fun _ => loopHead_asleep
  | wake hworker => exact h.wakes_update hsim (hid (.inr hworker)) fun _ => loopHead_asleep
  | pop hworker => exact h.wakes_update hsim (by rw [hworker]; rfl) fun _ => loopHead_asleep
  | quit hworker => exact h.wakes_update hsim (by rw [hworker]; rfl) (by simp)
  | _ => exact h.wakes

/-- The responder touches no mutex that is not initialised, and initialises none. -/
theorem RespPoint.outer_ready {p : RespPoint} {mem : Globals} {r : RespPoint × Globals × List Shown}
    (h : p.outer arg sdk mem = some r) : r.2.1.ready = mem.ready := by
  cases p with
  | hot p =>
    cases p with
    | call callID data =>
      simp only [outer] at h
      split at h
      · rcases messagePass_cases h with ⟨-, rfl⟩ | ⟨-, -, rfl⟩ | ⟨-, -, _, _, _, -, -, -, rfl⟩ <;> rfl
      · cases h
        rfl
    | _ => cases h; rfl
  | quits i =>
    simp only [outer] at h
    split at h
    · obtain ⟨buf, -, heq⟩ := Option.bind_eq_some_iff.mp h
      cases heq
      rfl
    · cases h
      rfl
  | check i job next =>
    simp only [outer] at h
    split at h <;> cases h
    rfl
  | _ => cases h; rfl

theorem Tidy.manned_step (h : Tidy arg s) (hstep : s.Step arg sdk m s' os) :
    ∀ i ∈ s'.mem.ready, i < s'.num := by
  cases hstep with
  | main hmode houter =>
    obtain ⟨params, heq⟩ := MainLoc.outer_mem houter
    rw [heq]
    exact h.manned
  | responder hmode houter =>
    show ∀ i ∈ _, i < s.num
    rw [RespPoint.outer_ready houter]
    exact h.manned
  | @worker n stimulus r hmode houter =>
    cases hworker : s.worker n with
    | took i curJob =>
      rw [hworker] at houter
      rcases (WorkerPoint.outer_took_cases houter).2 with ⟨out, -, rfl⟩ | ⟨-, rfl⟩ | ⟨-, rfl⟩ <;>
        exact h.manned
    | destroy i =>
      rw [hworker] at houter
      cases houter
      -- a mutex that is destroyed is one less to look after
      exact fun j hj => h.manned j (List.mem_of_mem_erase hj)
    | gone i =>
      rw [hworker] at houter
      cases houter
      exact h.manned
    | _ => rw [hworker] at hmode; cases hmode
  | start hworker =>
    intro i hi
    rcases List.mem_cons.mp hi with rfl | hi
    -- the mutex of the worker that starts has the number it takes
    · exact Nat.lt_succ_self _
    · exact Nat.lt_succ_of_lt (h.manned i hi)
  | pop hworker hjobs hfree | quit hworker hjobs hfree =>
    obtain ⟨-, rfl⟩ := Globals.freeJob_eq_some hfree
    exact h.manned
  | _ => exact h.manned

/-- The responder ends by leaving its loop, and in no other way. -/
theorem RespPoint.outer_ended {p : RespPoint} {mem : Globals} {r : RespPoint × Globals × List Shown}
    (hmode : p.mode = .outside) (h : p.outer arg sdk mem = some r) :
    r.2.1.ended = (if p = .hot .left then .responder :: mem.ended else mem.ended) ∧
      (r.1 = .gone ↔ p = .hot .left ∨ p = .gone) := by
  cases p with
  | hot p =>
    cases p with
    | call callID data =>
      simp only [outer] at h
      split at h
      · rcases messagePass_cases h with ⟨-, rfl⟩ | ⟨-, -, rfl⟩ | ⟨-, -, _, _, _, -, -, -, rfl⟩
        · by_cases hall : mem.exitCount + 1 = mem.params.numClients <;> simp [hall]
        · simp
        · simp [Globals.newJob]
      · cases h
        simp
    | left =>
      cases h
      simp
    | _ => cases hmode
  | quits i =>
    simp only [outer] at h
    split at h
    · obtain ⟨buf, -, heq⟩ := Option.bind_eq_some_iff.mp h
      cases heq
      simp [Globals.newJob]
    · cases h
      simp
  | check i job next =>
    simp only [outer] at h
    split at h <;> cases h
    simp
  | gone =>
    cases h
    simp
  | _ => cases hmode

/-- A worker that has not returned moves, and it is known whether it returns. -/
theorem Tidy.ended_update (h : Tidy arg s) {n : ℕ} {p : WorkerPoint} {ended : List Thread}
    (hworker : ∀ i, s.worker n ≠ .gone (some i))
    (hended : (ended = s.mem.ended ∧ ∀ i, p ≠ .gone (some i)) ∨
      ∃ i, ended = .worker n :: s.mem.ended ∧ p = .gone (some i)) :
    ∀ t, t ∈ ended ↔ t = .responder ∧ s.responder = .gone ∨
      ∃ n' i, t = .worker n' ∧ update s.worker n p n' = .gone (some i) := by
  -- the workers that have returned, one way or the other
  have hgone : ∀ n' i, update s.worker n p n' = .gone (some i) ↔
      s.worker n' = .gone (some i) ∨ n' = n ∧ p = .gone (some i) := by
    intro n' i
    rcases eq_or_ne n' n with rfl | hne
    · simp [hworker]
    · simp [hne]
  intro t
  rcases hended with ⟨rfl, hp⟩ | ⟨i, rfl, rfl⟩
  · simp [h.ended, hgone, hp]
  · rw [List.mem_cons, h.ended]
    simp only [hgone]
    constructor
    · rintro (rfl | hresp | ⟨n', i', rfl, hn'⟩)
      · exact .inr ⟨n, i, rfl, .inr ⟨rfl, rfl⟩⟩
      · exact .inl hresp
      · exact .inr ⟨n', i', rfl, .inl hn'⟩
    · rintro (hresp | ⟨n', i', rfl, hn' | ⟨rfl, -⟩⟩)
      · exact .inr (.inl hresp)
      · exact .inr (.inr ⟨n', i', rfl, hn'⟩)
      · exact .inl rfl

theorem loopHead_ne_gone (i : ℕ) (q : JobQueue) (j : ℕ) : (loopHead i q).1 ≠ .gone (some j) := by
  unfold loopHead
  split <;> simp

theorem Tidy.ended_step (h : Tidy arg s) (hstep : s.Step arg sdk m s' os) :
    ∀ t, t ∈ s'.mem.ended ↔ t = .responder ∧ s'.responder = .gone ∨
      ∃ n i, t = .worker n ∧ s'.worker n = .gone (some i) := by
  -- the responder goes on
  have hresp : ∀ {p : RespPoint}, s.responder ≠ .gone → p ≠ .gone →
      ∀ t, t ∈ s.mem.ended ↔ t = .responder ∧ p = .gone ∨
        ∃ n i, t = .worker n ∧ s.worker n = .gone (some i) := by
    intro p hne hp t
    rw [h.ended]
    simp [hne, hp]
  cases hstep with
  | main hmode houter =>
    obtain ⟨params, heq⟩ := MainLoc.outer_mem houter
    rw [heq]
    exact h.ended
  | @responder stimulus r hmode houter =>
    obtain ⟨hended, hgone⟩ := RespPoint.outer_ended hmode houter
    intro t
    show t ∈ r.2.1.ended ↔ t = .responder ∧ r.1 = .gone ∨ _
    rw [hended, hgone]
    by_cases hleft : s.responder = .hot .left
    · rw [if_pos hleft, List.mem_cons, h.ended]
      simp [hleft]
    · rw [if_neg hleft, h.ended]
      simp [hleft]
  | poll hresponder | done hresponder => exact hresp (by simp [hresponder]) (by simp)
  | @push _ _ _ next hresponder =>
    refine hresp (by simp [hresponder]) ?_
    cases next <;> simp [afterPush]
  | @worker n stimulus r hmode houter =>
    cases hworker : s.worker n with
    | took i curJob =>
      rw [hworker] at houter
      have hne : ∀ j, s.worker n ≠ .gone (some j) := by simp [hworker]
      rcases (WorkerPoint.outer_took_cases houter).2 with ⟨out, -, rfl⟩ | ⟨-, rfl⟩ | ⟨-, rfl⟩
      · exact h.ended_update hne (.inl ⟨rfl, by simp⟩)
      · exact h.ended_update hne (.inl ⟨rfl, by simp⟩)
      · exact h.ended_update hne (.inr ⟨i, rfl, rfl⟩)
    | destroy i =>
      rw [hworker] at houter
      cases houter
      exact h.ended_update (by simp [hworker]) (.inr ⟨i, rfl, rfl⟩)
    | gone i =>
      rw [hworker] at houter
      cases houter
      rw [← hworker, update_eq_self]
      exact h.ended
    | _ => rw [hworker] at hmode; cases hmode
  | start hworker => exact h.ended_update (by simp [hworker]) (.inl ⟨rfl, by simp⟩)
  | head hworker | wake hworker =>
    exact h.ended_update (by simp [hworker]) (.inl ⟨rfl, loopHead_ne_gone _ _⟩)
  | pop hworker hjobs hfree =>
    obtain ⟨-, rfl⟩ := Globals.freeJob_eq_some hfree
    exact h.ended_update (by simp [hworker]) (.inl ⟨rfl, loopHead_ne_gone _ _⟩)
  | quit hworker hjobs hfree =>
    obtain ⟨-, rfl⟩ := Globals.freeJob_eq_some hfree
    exact h.ended_update (by simp [hworker]) (.inl ⟨rfl, by simp⟩)
  | _ => exact h.ended

/-- No thread comes back. -/
theorem Snapshot.Step.ended_mono (hstep : s.Step arg sdk m s' os) :
    ∀ t ∈ s.mem.ended, t ∈ s'.mem.ended := by
  cases hstep with
  | main hmode houter =>
    obtain ⟨params, heq⟩ := MainLoc.outer_mem houter
    rw [heq]
    exact fun _ => id
  | responder hmode houter =>
    show ∀ t ∈ s.mem.ended, t ∈ _
    rw [(RespPoint.outer_ended hmode houter).1]
    split
    · exact fun _ => List.mem_cons_of_mem _
    · exact fun _ => id
  | @worker n stimulus r hmode houter =>
    cases hworker : s.worker n with
    | took i curJob =>
      rw [hworker] at houter
      rcases (WorkerPoint.outer_took_cases houter).2 with ⟨out, -, rfl⟩ | ⟨-, rfl⟩ | ⟨-, rfl⟩
      · exact fun _ => id
      · exact fun _ => id
      · exact fun _ => List.mem_cons_of_mem _
    | destroy i =>
      rw [hworker] at houter
      cases houter
      exact fun _ => List.mem_cons_of_mem _
    | gone i =>
      rw [hworker] at houter
      cases houter
      exact fun _ => id
    | _ => rw [hworker] at hmode; cases hmode
  | pop hworker hjobs hfree | quit hworker hjobs hfree =>
    obtain ⟨-, rfl⟩ := Globals.freeJob_eq_some hfree
    exact fun _ => id
  | _ => exact fun _ => id

/-- `main` gets past a thread only when that has returned. -/
theorem MainLoc.outer_joined {l : MainLoc} {mem : Globals} {stimulus : Stimulus}
    {r : MainLoc × Globals × List Shown} (houter : l.outer arg mem stimulus = some r)
    (h : ∀ i, (l.point = .join i ∨ l.point = .done ∧ i = arg.numThreads + 1) →
      ∀ j < i, threadAt j ∈ mem.ended) :
    ∀ i, (r.1.point = .join i ∨ r.1.point = .done ∧ i = arg.numThreads + 1) →
      ∀ j < i, threadAt j ∈ mem.ended := by
  obtain ⟨numConnection, numClients, point⟩ := l
  intro i hi j hj
  cases point with
  | select =>
    simp only [outer] at houter
    split at houter <;> cases houter <;> simp at hi
  | returned result =>
    obtain ⟨⟨numConnection', leaves⟩, -, heq⟩ := Option.bind_eq_some_iff.mp houter
    cases heq
    cases leaves <;> simp at hi
  | stop p =>
    cases houter
    -- no thread has been joined yet
    obtain rfl : 0 = i := by simpa using hi
    exact absurd hj (Nat.not_lt_zero j)
  | join k =>
    simp only [outer] at houter
    split at houter
    · split at houter
      · next hended =>
        cases houter
        obtain rfl : k + 1 = i := by simpa using hi
        -- the threads joined before, and the one that has just been seen to return
        rcases Nat.lt_succ_iff_lt_or_eq.mp hj with hlt | rfl
        · exact h k (.inl rfl) j hlt
        · exact hended
      · cases houter
        exact h i hi j hj
    · cases houter
      obtain rfl : i = arg.numThreads + 1 := by simpa using hi
      exact h k (.inl rfl) j (by omega)
  | request r' | done | exited =>
    cases houter
    exact h i hi j hj

theorem Tidy.joined_step (h : Tidy arg s) (hstep : s.Step arg sdk m s' os) :
    ∀ i, (s'.main.point = .join i ∨ s'.main.point = .done ∧ i = arg.numThreads + 1) →
      ∀ j < i, threadAt j ∈ s'.mem.ended := by
  have hmono := hstep.ended_mono
  -- most steps are not of `main`, and no thread comes back
  have hstay : s'.main = s.main → ∀ i, (s'.main.point = .join i ∨ s'.main.point = .done ∧
      i = arg.numThreads + 1) → ∀ j < i, threadAt j ∈ s'.mem.ended := by
    intro heq i hi j hj
    rw [heq] at hi
    exact hmono _ (h.joined i hi j hj)
  cases hstep with
  | main hmode houter =>
    intro i hi j hj
    exact hmono _ (MainLoc.outer_joined houter h.joined i hi j hj)
  | @busy _ r =>
    intro i hi
    obtain ⟨callID, data, numRetries, point⟩ := r
    simp only [MainLoc.left, Requester.goto, Requester.left] at hi
    split at hi <;> simp at hi
  | call | returns | stop =>
    intro i hi
    simp at hi
  | _ => exact hstay rfl

theorem Tidy.step (h : Tidy arg s) (hsim : Sim arg buf s st) (hstep : s.Step arg sdk m s' os) :
    Tidy arg s' :=
  ⟨h.wakes_step hsim hstep, h.manned_step hstep, h.ended_step hstep, h.joined_step hstep⟩

end Steps

/-! ### Runs -/

section Runs

variable {arg : Arg} {buf : List UInt8} {sdk : Sdk} (ha : arg.Threaded) (hlen : 9 ≤ arg.maxBufSize)
  (hquit : quitBuf arg = some buf)

include ha hlen hquit

theorem Tidy.of_run {ms : List (Thread × Stimulus)} {σ : State Lock Thread Globals ThreadPoint Guarded}
    {oss : List (List Shown)} (h : run (threads arg sdk).step (threadsInit arg).calm ms = some (σ, oss)) :
    ∃ s st, Reduces (threads arg sdk) (fun _ => True) σ s.conf ∧ Sim arg buf s st ∧ Tidy arg s := by
  obtain ⟨ms', c, -, hreaches, hred⟩ := Prog.exists_reaches (fun _ => True) (threadsInit_out arg sdk)
    (fun _ _ => trivial) h
  obtain ⟨s, rfl, st, hsim, htidy⟩ := Snapshot.induct (fun _ => True)
    (motive := fun s _ => ∃ st, Sim arg buf s st ∧ Tidy arg s)
    ⟨Front.init arg, Sim.init arg buf, Tidy.init arg⟩
    (fun {s₁ s₂ m os os'} ⟨st, hsim, htidy⟩ _ hstep => by
      obtain ⟨st', -, hsim'⟩ := hsim.step ha hlen hquit hstep
      exact ⟨st', hsim', htidy.step hsim hstep⟩)
    hreaches fun _ _ => trivial
  exact ⟨s, st, hred, hsim, htidy⟩

end Runs

/-- **No wake-up is lost.**  Wherever the threads are, a worker that waits for its
condition variable has been signalled, or its queue is empty: no job is left lying before
a worker that sleeps on.  The lock of the queue has to be free, for the responder pushes
its job first and signals then. -/
theorem threads_wakeup (arg : Arg) (sdk : Sdk) (ha : arg.Threaded) (hlen : 9 ≤ arg.maxBufSize)
    (ms : List (Thread × Stimulus)) (σ : State Lock Thread Globals ThreadPoint Guarded)
    (oss : List (List Shown))
    (hrun : run (threads arg sdk).step (threadsInit arg).calm ms = some (σ, oss)) (n i : ℕ)
    (hasleep : σ.loc (.worker n) = .worker (.asleep i)) (hfree : σ.owner (.queue i) = none) :
    (σ.shared (.queue i) : JobQueue).cond = .signalled ∨ (σ.shared (.queue i) : JobQueue).jobs = [] := by
  obtain ⟨buf, hquit, -⟩ := exists_quitBuf ((show 4 ≤ 9 by decide).trans hlen)
  obtain ⟨s, -, hred, -, htidy⟩ := Tidy.of_run ha hlen hquit hrun
  have hloc := (hred.out (.worker n) (hred.owner_ne_of_out (by rw [hasleep]; trivial))).1
  rw [hasleep] at hloc
  have hqueue : (σ.shared (.queue i) : JobQueue) = s.queue i := hred.free (.queue i) hfree
  rw [hqueue]
  exact (htidy.wakes n i (ThreadPoint.worker.inj hloc).symm).imp_right And.right

/-- The worker sleeps, and a message is passed on to it. -/
theorem threads_wakeup_signalled :
    ∃ (σ : State Lock Thread Globals ThreadPoint Guarded) (oss : List (List Shown)),
      run (threads ⟨1, 32, 1, 1, false, false⟩ Sdk.aes).step (threadsInit ⟨1, 32, 1, 1, false, false⟩).calm
          (List.replicate 8 (.worker 0, .nothing) ++
            [(.main, .input .accept), (.main, .input (.message 4 [0x45, 0x58, 0x49, 0x54] 0))] ++
            List.replicate 8 (.main, .nothing) ++ List.replicate 13 (.responder, .nothing)) = some (σ, oss) ∧
      (σ.shared (.queue 0) : JobQueue).jobs.length = 1 ∧
      ((σ.shared (.queue 0) : JobQueue).cond = .signalled ∨ (σ.shared (.queue 0) : JobQueue).jobs = []) := by
  have hshown : (run (threads ⟨1, 32, 1, 1, false, false⟩ Sdk.aes).step
      (threadsInit ⟨1, 32, 1, 1, false, false⟩).calm
          (List.replicate 8 (.worker 0, .nothing) ++
            [(.main, .input .accept), (.main, .input (.message 4 [0x45, 0x58, 0x49, 0x54] 0))] ++
            List.replicate 8 (.main, .nothing) ++ List.replicate 13 (.responder, .nothing))).map
        (fun r => (r.1.loc (.worker 0), r.1.owner (.queue 0),
          (r.1.shared (.queue 0) : JobQueue).jobs.length)) =
      some (.worker (.asleep 0), none, 1) := by
    decide +kernel
  obtain ⟨⟨σ, oss⟩, hrun, heq⟩ := Option.map_eq_some_iff.mp hshown
  obtain ⟨hasleep, hrest⟩ := Prod.mk.inj heq
  obtain ⟨hfree, hjobs⟩ := Prod.mk.inj hrest
  exact ⟨σ, oss, hrun, hjobs, threads_wakeup ⟨1, 32, 1, 1, false, false⟩ Sdk.aes (by decide) (by decide)
    _ σ oss hrun 0 0 hasleep hfree⟩

/-- The workers that have returned. -/
theorem Tidy.gone_of_joined {arg : Arg} {buf : List UInt8} {s : Snapshot} {st : Front} (h : Tidy arg s)
    (hsim : Sim arg buf s st) (hdone : s.main.point = .done) :
    s.responder = .gone ∧ ∃ ids : ℕ → ℕ, Set.InjOn ids {n | n < arg.numThreads} ∧
      ∀ n < arg.numThreads, ids n < arg.numThreads ∧ s.worker n = .gone (some (ids n)) := by
  have hjoined := h.joined (arg.numThreads + 1) (.inr ⟨hdone, rfl⟩)
  refine ⟨by simpa [threadAt] using (h.ended _).mp (hjoined 0 (Nat.succ_pos _)), ?_⟩
  have hgone : ∀ n, ∃ i, n < arg.numThreads → s.worker n = .gone (some i) := by
    intro n
    by_cases hn : n < arg.numThreads
    · obtain ⟨i, hi⟩ : ∃ i, s.worker n = .gone (some i) := by
        simpa [threadAt] using (h.ended _).mp (hjoined (n + 1) (Nat.succ_lt_succ hn))
      exact ⟨i, fun _ => hi⟩
    · exact ⟨0, fun hlt => absurd hlt hn⟩
  choose ids hids using hgone
  have hid : ∀ n < arg.numThreads, (s.worker n).threadId = some (ids n) := by
    intro n hn
    rw [hids n hn]
    rfl
  refine ⟨ids, ?_, fun n hn => ⟨?_, hids n hn⟩⟩
  · intro n hn n' hn' heq
    exact hsim.crew.inj (hid n hn) (heq ▸ hid n' hn')
  · exact hsim.crew.length ▸ (hsim.crew.points n).lt_length (hid n hn)

end ShieldStore
