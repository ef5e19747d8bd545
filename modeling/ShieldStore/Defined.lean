import ShieldStore.Session
import ShieldStore.Signals

/-!
# Nothing goes wrong

The behaviour of the server is undefined where a mutex is used that is not initialised
or no longer there, where a queue is popped that is empty, where a job is used that was
freed, and where a message or an entry is read past its end.  A message that comes in
before the worker of its key has started is a case in point.

## Main definitions

* `Up` — every worker has started.
* `Sound` — all that is known of a state in a session.

## Main results

* `Sound.step` — one section.
* `Sound.exists_step` — every thread that can move has a step.
* `threads_defined` — **in a session that begins when the workers have started, the
  behaviour is defined.**
-/

namespace ShieldStore

open Bytes Counter CMem Sections Function Run

/-! ### Workers that have started -/

/-- The mutex of every worker is initialised, unless the worker has returned. -/
def Up (arg : Arg) (s : Snapshot) : Prop :=
  ∀ i < arg.numThreads, i ∈ s.mem.ready ∨ ∃ n, s.worker n = .gone (some i)

/-- The responder goes to queues that are there. -/
def RespPoint.Aims (arg : Arg) : RespPoint → Prop
  | .check i _ _ | .lock i _ _ => i < arg.numThreads
  | _ => True

theorem Up.frame {arg : Arg} {s s' : Snapshot} (h : Up arg s)
    (hready : ∀ i ∈ s.mem.ready, i ∈ s'.mem.ready)
    (hgone : ∀ n i, s.worker n = .gone (some i) → s'.worker n = .gone (some i)) : Up arg s' := by
  intro i hi
  rcases h i hi with hmem | ⟨n, hn⟩
  · exact .inl (hready i hmem)
  · exact .inr ⟨n, hgone n i hn⟩

/-- The others stay where they are. -/
theorem gone_update {worker : ℕ → WorkerPoint} {n : ℕ} (hn : ∀ i, worker n ≠ .gone (some i))
    (p : WorkerPoint) : ∀ n' i, worker n' = .gone (some i) → update worker n p n' = .gone (some i) := by
  intro n' i hgone
  have hne : n' ≠ n := by
    rintro rfl
    exact hn i hgone
  rw [update_of_ne hne]
  exact hgone

section Steps

variable {arg : Arg} {sdk : Sdk} {s s' : Snapshot} {m : Thread × Stimulus} {os : List Shown}

theorem RespPoint.outer_aims (ha : arg.Threaded) {p : RespPoint} {mem : Globals}
    {r : RespPoint × Globals × List Shown} (haims : p.Aims arg) (h : p.outer arg sdk mem = some r) :
    r.1.Aims arg := by
  cases p with
  | hot p =>
    cases p with
    | call callID data =>
      simp only [outer] at h
      split at h
      · rcases messagePass_cases h with ⟨-, rfl⟩ | ⟨-, -, rfl⟩ | ⟨-, -, _, _, _, -, -, hi, rfl⟩
        · dsimp only
          split <;> trivial
        · trivial
        -- the worker of a key, by the division of its hash
        · exact threadId_lt ha hi
      · cases h
        trivial
    | _ => cases h; trivial
  | quits i =>
    simp only [outer] at h
    split at h
    · next hi =>
      obtain ⟨buf, -, heq⟩ := Option.bind_eq_some_iff.mp h
      cases heq
      exact hi
    · cases h
      trivial
  | check i job next =>
    simp only [outer] at h
    split at h <;> cases h
    exact haims
  | _ => cases h; trivial

theorem Up.step (h : Up arg s) (hstep : s.Step arg sdk m s' os) : Up arg s' := by
  cases hstep with
  | main hmode houter =>
    obtain ⟨params, heq⟩ := MainLoc.outer_mem houter
    exact h.frame (by rw [heq]; exact fun _ => id) fun _ _ => id
  | responder hmode houter =>
    refine h.frame ?_ fun _ _ => id
    rw [RespPoint.outer_ready houter]
    exact fun _ => id
  | busy | call | awaits | returns | stop | poll | done | push => exact h.frame (fun _ => id) fun _ _ => id
  | @worker n stimulus r hmode houter =>
    cases hworker : s.worker n with
    | took i curJob =>
      rw [hworker] at houter
      rcases (WorkerPoint.outer_took_cases houter).2 with ⟨out, -, rfl⟩ | ⟨-, rfl⟩ | ⟨-, rfl⟩ <;>
        exact h.frame (fun _ => id) (gone_update (by simp [hworker]) _)
    | destroy i =>
      rw [hworker] at houter
      cases houter
      intro j hj
      rcases eq_or_ne j i with rfl | hne
      · -- the worker that returns
        exact .inr ⟨n, update_self _ _ _⟩
      · rcases h j hj with hmem | ⟨n', hn'⟩
        · exact .inl ((List.mem_erase_of_ne hne).mpr hmem)
        · exact .inr ⟨n', gone_update (by simp [hworker]) _ n' j hn'⟩
    | gone i =>
      rw [hworker] at houter
      cases houter
      refine h.frame (fun _ => id) ?_
      rw [← hworker, update_eq_self]
      exact fun _ _ => id
    | _ => rw [hworker] at hmode; cases hmode
  | start hworker =>
    exact h.frame (fun _ => List.mem_cons_of_mem _) (gone_update (by simp [hworker]) _)
  | head hworker | wake hworker =>
    exact h.frame (fun _ => id) (gone_update (by simp [hworker]) _)
  | pop hworker hjobs hfree | quit hworker hjobs hfree =>
    obtain ⟨-, rfl⟩ := Globals.freeJob_eq_some hfree
    exact h.frame (fun _ => id) (gone_update (by simp [hworker]) _)

theorem RespPoint.Aims.step (ha : arg.Threaded) (h : s.responder.Aims arg)
    (hstep : s.Step arg sdk m s' os) : s'.responder.Aims arg := by
  cases hstep with
  | responder hmode houter => exact RespPoint.outer_aims ha h houter
  | poll | done => trivial
  | @push _ _ _ next => cases next <;> trivial
  | _ => exact h

end Steps

/-! ### States in a session -/

/-- What is known of a state in the session `es`, when `os` has been seen. -/
structure Sound (arg : Arg) (buf : List UInt8) (sdk : Sdk) (es : List ClientEvent) (os : List Shown)
    (s : Snapshot) (st : Front) : Prop where
  sim : Sim arg buf s st
  heap : JobHeap arg s
  session : InSession arg sdk es os st
  tidy : Tidy arg s
  up : Up arg s
  aims : s.responder.Aims arg

/-- **One section.** -/
theorem Sound.step {arg : Arg} {buf : List UInt8} {sdk : Sdk} {es : List ClientEvent}
    {os os' : List Shown} {s s' : Snapshot} {st : Front} {m : Thread × Stimulus} (ha : arg.Shared)
    (hlen : 9 ≤ arg.maxBufSize) (hquit : quitBuf arg = some buf) (ho : Orderly arg es)
    (h : Sound arg buf sdk es os s st) (hstep : s.Step arg sdk m s' os')
    (hreceived : receivedInputs (os ++ os') <+: es.map ClientEvent.input) :
    ∃ st', Sound arg buf sdk es (os ++ os') s' st' := by
  obtain ⟨st', ⟨acts, oss, hrun, rfl⟩, hsim⟩ := h.sim.step ha.threaded hlen hquit hstep
  exact ⟨st', hsim, h.heap.step h.sim hstep, h.session.run ha ho hrun hreceived,
    h.tidy.step h.sim hstep, h.up.step hstep, h.aims.step ha.threaded hstep⟩

/-- A worker that has returned has left nothing behind. -/
theorem InSession.queue_of_returned {arg : Arg} {sdk : Sdk} {es : List ClientEvent} {os : List Shown}
    {st : Front} {i : ℕ} (h : InSession arg sdk es os st)
    (hreturned : st.app.server.worker[i]? = some .returned) : st.app.server.queue[i]? = some [] := by
  obtain ⟨hs, moves, sv, seen, hist, h⟩ := h
  have halive : sv.worker[i]? ≠ some .returned := by
    intro hw
    obtain ⟨queue, w, done, todo, -, hworker, lane⟩ := h.inv.lanes i (h.inv.lt_of_worker hw)
    exact lane.alive (Option.some.inj (hworker.symm.trans hw))
  -- in the server that only serves, no worker returns; this one took its quit job, the last
  have hstripped := h.stripped
  generalize fires hs = fired at hstripped
  cases hstripped with
  | before heq =>
    rw [heq] at hreturned
    exact absurd hreturned halive
  | after hstore hlanes hothers =>
    have hi : i < arg.numThreads := by
      by_contra hle
      rw [(hothers i (Nat.not_lt.mp hle)).1] at hreturned
      cases hreturned
    obtain ⟨queue, w, queue', w', hqueue, hw, hqueue', hw', hending⟩ := hlanes i hi
    obtain rfl : w = .returned := Option.some.inj (hw.symm.trans hreturned)
    cases hending with
    | behind => exact absurd hw' halive
    | returned => exact hqueue

/-! ### Every thread that can move has a step -/

section Exists

variable {arg : Arg} {buf : List UInt8} {sdk : Sdk} {es : List ClientEvent} {os : List Shown}
  {s : Snapshot} {st : Front} (h : Sound arg buf sdk es os s st)

/-- Everything `main` does is defined, if it can look at the message behind a call. -/
theorem MainLoc.exists_outer (arg : Arg) {l : MainLoc} {mem : Globals} (stimulus : Stimulus)
    (hreturned : ∀ result, l.point = .returned result →
      ∃ a, afterCall mem.params.buf l.numConnection = some a) :
    ∃ r, l.outer arg mem stimulus = some r := by
  cases hpoint : l.point with
  | select =>
    simp only [outer, hpoint]
    split <;> exact ⟨_, rfl⟩
  | returned result =>
    obtain ⟨a, ha⟩ := hreturned result hpoint
    exact ⟨_, by simp only [outer, hpoint, ha, Option.bind_eq_bind, Option.bind_some]; rfl⟩
  | join i =>
    simp only [outer, hpoint]
    split
    · split <;> exact ⟨_, rfl⟩
    · exact ⟨_, rfl⟩
  | _ =>
    simp only [outer, hpoint]
    exact ⟨_, rfl⟩

/-- The enclave passes a message on in its steps if it does in one. -/
theorem exists_messagePass {server : Server} {mem : Globals} {r : Server × List Seen}
    (h : enclaveMessagePass arg sdk server mem.params = some r) : ∃ r', messagePass arg sdk mem = some r' := by
  unfold enclaveMessagePass at h
  unfold messagePass
  simp only [Option.bind_eq_bind, Option.bind_eq_some_iff] at h
  obtain ⟨exit, hexit, h⟩ := h
  simp only [hexit, Option.bind_eq_bind, Option.bind_some]
  -- the branches are the same, up to where the first lock is
  cases exit with
  | true =>
    simp only [if_true]
    split <;> exact ⟨_, rfl⟩
  | false =>
    simp only [Bool.false_eq_true, if_false, Option.bind_eq_some_iff] at h
    obtain ⟨loadDone, hload, h⟩ := h
    simp only [Bool.false_eq_true, if_false, hload, Option.bind_some]
    cases loadDone with
    | true => exact ⟨_, rfl⟩
    | false =>
      simp only [Bool.false_eq_true, if_false, Option.bind_eq_some_iff] at h
      obtain ⟨buf, hbuf, p, hp, i, hi, -⟩ := h
      simp only [Bool.false_eq_true, if_false, hbuf, hp, hi, Option.bind_some]
      exact ⟨_, rfl⟩

/-- A worker serves its job in its steps if it does in one. -/
theorem exists_outer_took {server : Server} {mem : Globals} {i : ℕ} {curJob : Job} (t : Thread)
    {r : Server × List Seen} (hstore : server.store = mem.store)
    (hworker : server.worker[i]? = some (.took curJob)) (hlive : curJob.ptr ∈ mem.live)
    (h : execute arg sdk server i = some r) :
    ∃ r', (WorkerPoint.took i curJob).outer arg sdk t mem = some r' := by
  simp only [execute, hworker, Option.bind_eq_bind, Option.bind_eq_some_iff] at h
  obtain ⟨c, hc, h⟩ := h
  simp only [WorkerPoint.outer, if_pos hlive, hc, Option.bind_eq_bind, Option.bind_some]
  cases c with
  | quit | untyped => exact ⟨_, rfl⟩
  | _ =>
    simp only [Option.bind_eq_some_iff] at h
    obtain ⟨out?, hrequest, out, rfl, -⟩ := h
    rw [hstore] at hrequest
    simp only [hrequest, Option.bind_some]
    exact ⟨_, rfl⟩

include h

theorem Sound.exists_step_main (stimulus : Stimulus)
    (hmode : s.main.mode = .outside ∨ ∃ k, s.main.mode = .enter k) :
    ∃ s' os', s.Step arg sdk (.main, stimulus) s' os' := by
  rcases hmode with hmode | ⟨k, hmode⟩
  · obtain ⟨r, hr⟩ := MainLoc.exists_outer arg stimulus (by
      intro result (hpoint : s.main.point = _)
      -- behind a call the message is one that was handled, and can be looked at again
      cases h.sim.stage with
      | returned _ _ _ hk =>
        obtain ⟨a, ha, -⟩ := hk
        exact ⟨a, ha⟩
      | waits hcalled | passes hcalled | finished hcalled =>
        rw [hcalled.main] at hpoint
        cases hpoint
      | gone hmain =>
        rw [hpoint] at hmain
        exact hmain.elim
      | select hmain | asks hmain | closing hmain | exited hmain =>
        rw [hmain] at hpoint
        cases hpoint)
    exact ⟨_, _, .main hmode hr⟩
  · rcases MainLoc.enter_cases hmode with ⟨r, hmain, hpoint | hpoint⟩ | hmain
    · cases hbusy : s.hotCall.busy with
      | false => exact ⟨_, _, .call hmain hpoint hbusy⟩
      | true => exact ⟨_, _, .busy hmain hpoint hbusy⟩
    · cases hdone : s.hotCall.isDone with
      | false => exact ⟨_, _, .awaits hmain hpoint hdone⟩
      | true => exact ⟨_, _, .returns hmain hpoint hdone⟩
    · exact ⟨_, _, .stop hmain⟩

/-- The worker of a job that is still to be pushed is there. -/
theorem Sound.ready_of_pending {i : ℕ} (hi : i < arg.numThreads)
    (hjobs : jobsFor i (s.responder.pending arg buf s.mem.allocs) ≠ []) : i ∈ s.mem.ready := by
  rcases h.up i hi with hready | ⟨n, hn⟩
  · exact hready
  · have hpoint := h.sim.crew.points n
    rw [hn] at hpoint
    cases hpoint with
    | gone hlt hreturned =>
      have hempty := h.session.queue_of_returned hreturned
      rw [h.sim.queues.jobs i hi, Option.some.injEq, List.append_eq_nil_iff] at hempty
      exact absurd hempty.2 hjobs

theorem Sound.exists_step_responder (ha : arg.Shared) (ho : Orderly arg es)
    (hquit : quitBuf arg = some buf) (stimulus : Stimulus)
    (hmode : s.responder.mode = .outside ∨ ∃ k, s.responder.mode = .enter k) :
    ∃ s' os', s.Step arg sdk (.responder, stimulus) s' os' := by
  have houter : s.responder.mode = .outside → (∃ r, s.responder.outer arg sdk s.mem = some r) →
      ∃ s' os', s.Step arg sdk (.responder, stimulus) s' os' :=
    fun hout ⟨_, hr⟩ => ⟨_, _, .responder hout hr⟩
  have haims := h.aims
  have hpending := fun i => h.ready_of_pending (i := i)
  cases hresponder : s.responder with
  | hot p =>
    cases p with
    | spin => exact ⟨_, _, .poll hresponder⟩
    | spinDone => exact ⟨_, _, .done hresponder⟩
    | left => exact houter (by rw [hresponder]; rfl) (by rw [hresponder]; exact ⟨_, rfl⟩)
    | call callID data =>
      cases h.sim.stage with
      | waits hcalled hrun hdone hcall hk hasked =>
        rw [hresponder] at hcall
        obtain ⟨rfl, rfl⟩ : callID = 0 ∧ data = () := by
          rcases hcall with heq | heq <;> cases heq
          exact ⟨rfl, rfl⟩
        obtain ⟨sock, text, rand, hpend, hparams⟩ := hasked
        obtain ⟨-, hclients, hplace⟩ : st.app.numConnection = s.main.numConnection ∧
            st.app.numClients = s.main.numClients ∧ st.app.place = .select := by
          simpa [Counters.Before, App.counters] using hk
        obtain ⟨_, _, _, _, _, hsession⟩ := h.session
        -- the message is the next of the session, which in big steps is handled
        obtain ⟨app, new, hselect, -⟩ := hsession.handle ha ho hpend
        have hpass := enclaveMessagePass_of_selectStep hplace hselect
        rw [hclients, ← hparams] at hpass
        obtain ⟨r, hr⟩ := exists_messagePass hpass
        exact houter (by rw [hresponder]; rfl) (by rw [hresponder]; exact ⟨r, hr⟩)
      | passes _ _ _ hpassing => rw [hresponder] at hpassing; exact hpassing.elim
      | finished _ _ _ heq => rw [hresponder] at heq; cases heq
      | select _ hrest | asks _ hrest | returned _ hrest | closing _ hrest | gone _ hrest
      | exited _ hrest =>
        rcases hrest.responder with heq | ⟨-, heq | heq⟩ <;> rw [hresponder] at heq <;> cases heq
    | _ =>
      rw [hresponder] at hmode
      rcases hmode with hmode | ⟨k, hmode⟩ <;> cases hmode
  | quits i =>
    apply houter (by rw [hresponder]; rfl)
    rw [hresponder, RespPoint.outer, hquit]
    split <;> exact ⟨_, rfl⟩
  | check i job next =>
    apply houter (by rw [hresponder]; rfl)
    rw [hresponder] at haims hpending ⊢
    -- a job still to be pushed is for a worker that has not returned
    exact ⟨_, if_pos (hpending i haims (by simp [RespPoint.pending, jobsFor_cons]))⟩
  | lock i job next =>
    rw [hresponder] at haims hpending
    exact ⟨_, _, .push hresponder (hpending i haims (by simp [RespPoint.pending, jobsFor_cons]))⟩
  | gone => exact houter (by rw [hresponder]; rfl) (by rw [hresponder]; exact ⟨_, rfl⟩)
  | _ =>
    rw [hresponder] at hmode
    rcases hmode with hmode | ⟨k, hmode⟩ <;> cases hmode

/-- The job that a worker is at work on has not been freed. -/
theorem Sound.live_of_holds {n i : ℕ} {job : Job} (hholds : (s.worker n).holds = some (i, job)) :
    job.ptr ∈ s.mem.live := by
  have hi : i < arg.numThreads := by
    have hid := WorkerPoint.threadId_of_holds hholds
    exact h.sim.crew.length ▸ (h.sim.crew.points n).lt_length hid
  obtain ⟨rest, hjobs⟩ := h.heap.front hholds
  rw [h.heap.live.mem_iff]
  refine List.mem_map_of_mem (List.mem_append_right _ (List.mem_flatMap.mpr ⟨i, List.mem_range.mpr hi, ?_⟩))
  rw [hjobs]
  exact List.mem_cons_self

theorem Sound.exists_step_worker (ha : arg.Shared) (ho : Orderly arg es) (n : ℕ) (stimulus : Stimulus)
    (hmode : (s.worker n).mode = .outside ∨ ∃ k, (s.worker n).mode = .enter k)
    (hawake : ∀ i, s.worker n = .asleep i → (s.queue i).cond = .signalled ∨ stimulus = .wake) :
    ∃ s' os', s.Step arg sdk (.worker n, stimulus) s' os' := by
  have hpoint := h.sim.crew.points n
  have hfree : ∀ {i job}, (s.worker n).holds = some (i, job) →
      s.mem.freeJob (some job) = some { s.mem with live := s.mem.live.erase job.ptr } :=
    fun hholds => if_pos (h.live_of_holds hholds)
  cases hworker : s.worker n with
  | start => exact ⟨_, _, .start hworker⟩
  | lock i => exact ⟨_, _, .head hworker⟩
  | asleep i => exact ⟨_, _, .wake hworker (hawake i hworker)⟩
  | took i curJob =>
    rw [hworker] at hpoint
    cases hpoint with
    | took hi htook =>
      -- in big steps the job is served
      obtain ⟨st', os', hexec, -⟩ := h.session.step ha ho (.exec i) (by rintro _ ⟨⟩)
      obtain ⟨r, hr, -⟩ := Option.map_eq_some_iff.mp hexec
      obtain ⟨r', hr'⟩ := exists_outer_took (.worker n) h.sim.store htook
        (h.live_of_holds (n := n) (by rw [hworker]; rfl)) hr
      rw [← hworker] at hr'
      exact ⟨_, _, .worker (by rw [hworker]; rfl) hr'⟩
  | relock i curJob =>
    have hholds : (s.worker n).holds = some (i, curJob) := by rw [hworker]; rfl
    obtain ⟨rest, hjobs⟩ := h.heap.front hholds
    exact ⟨_, _, .pop hworker hjobs (hfree hholds)⟩
  | relockQuit i curJob =>
    have hholds : (s.worker n).holds = some (i, curJob) := by rw [hworker]; rfl
    obtain ⟨rest, hjobs⟩ := h.heap.front hholds
    exact ⟨_, _, .quit hworker hjobs (hfree hholds)⟩
  | destroy i => exact ⟨_, _, .worker (by rw [hworker]; rfl) (by rw [hworker]; rfl)⟩
  | gone i => exact ⟨_, _, .worker (by rw [hworker]; rfl) (by rw [hworker]; rfl)⟩
  | _ =>
    rw [hworker] at hmode
    rcases hmode with hmode | ⟨k, hmode⟩ <;> cases hmode

/-- **Nothing goes wrong with whole sections.** -/
theorem Sound.safe (ha : arg.Shared) (ho : Orderly arg es) (hquit : quitBuf arg = some buf) :
    Safe (threads arg sdk) (fun _ => True) s.conf := by
  refine .of_exists ?_
  rintro ⟨t, stimulus⟩ - hmove
  have hatomic : (∃ s' os', s.Step arg sdk (t, stimulus) s' os') →
      ∃ c os', (threads arg sdk).AtomicStep s.conf (t, stimulus) c os' :=
    fun ⟨_, _, hstep⟩ => ⟨_, _, hstep.atomic⟩
  apply hatomic
  cases t with
  | main => exact h.exists_step_main stimulus (hmove.imp id fun ⟨k, hk, _⟩ => ⟨k, hk⟩)
  | responder => exact h.exists_step_responder ha ho hquit stimulus (hmove.imp id fun ⟨k, hk, _⟩ => ⟨k, hk⟩)
  | worker n =>
    refine h.exists_step_worker ha ho n stimulus (hmove.imp id fun ⟨k, hk, _⟩ => ⟨k, hk⟩) ?_
    -- a worker that waits moves only if it may wake up
    intro i hasleep
    rcases hmove with hmode | ⟨k, hmode, hadmits⟩
    · change (s.worker n).mode = .outside at hmode
      rw [hasleep] at hmode
      cases hmode
    · change (s.worker n).mode = .enter k at hmode
      have hloc : s.conf.loc (.worker n) = .worker (.asleep i) := congrArg _ hasleep
      rw [hasleep] at hmode
      cases hmode
      rw [hloc] at hadmits
      change decide ((s.queue i).cond = .signalled) || decide (stimulus = .wake) at hadmits
      simpa using hadmits

end Exists

/-! ### Runs -/

section Runs

variable {arg : Arg} {buf : List UInt8} {sdk : Sdk} {es : List ClientEvent} (ha : arg.Shared)
  (hlen : 9 ≤ arg.maxBufSize) (hquit : quitBuf arg = some buf) (ho : Orderly arg es)

include ha hlen hquit ho

/-- The workers have started, and nothing has been received. -/
theorem exists_sound {ms : List (Thread × Stimulus)} {σ : State Lock Thread Globals ThreadPoint Guarded}
    {oss : List (List Shown)} (hrun : run (threads arg sdk).step (threadsInit arg).calm ms = some (σ, oss))
    (hquiet : receivedInputs oss.flatten = []) (hready : ∀ i < arg.numThreads, i ∈ σ.env.ready) :
    ∃ s st, Reduces (threads arg sdk) (fun _ => True) σ s.conf ∧
      Sound arg buf sdk es oss.flatten s st := by
  obtain ⟨ms', c, -, hreaches, hred⟩ := Prog.exists_reaches (fun _ => True) (threadsInit_out arg sdk)
    (fun _ _ => trivial) hrun
  obtain ⟨s, rfl, st, ⟨acts, oss', hacts, hflatten⟩, hsim, hheap, htidy, haims⟩ :=
    Snapshot.induct (fun _ => True)
    (motive := fun s os => ∃ st, (Front.init arg).Goes arg sdk os st ∧ Sim arg buf s st ∧
      JobHeap arg s ∧ Tidy arg s ∧ s.responder.Aims arg)
    ⟨Front.init arg, .refl, Sim.init arg buf, JobHeap.init arg, Tidy.init arg, trivial⟩
    (fun {s₁ s₂ m os os'} ⟨st, hgoes, hsim, hheap, htidy, haims⟩ _ hstep => by
      obtain ⟨st', hgoes', hsim'⟩ := hsim.step ha.threaded hlen hquit hstep
      exact ⟨st', hgoes.trans hgoes', hsim', hheap.step hsim hstep, htidy.step hsim hstep,
        haims.step ha.threaded hstep⟩)
    hreaches fun _ _ => trivial
  -- that no worker is missing is a matter of the state reached, not of the steps
  refine ⟨s, st, hred, hsim, hheap, ?_, htidy, ?_, haims⟩
  · rw [← hflatten] at hquiet ⊢
    exact .of_run ha ho hacts (hquiet ▸ List.nil_prefix)
  · intro i hi
    have henv : σ.env = s.mem := hred.env
    exact .inl (henv ▸ hready i hi)

/-- The session goes on. -/
theorem Sound.run {os : List Shown} {s : Snapshot} {st : Front} (h : Sound arg buf sdk es os s st)
    {σ σ' : State Lock Thread Globals ThreadPoint Guarded}
    (hred : Reduces (threads arg sdk) (fun _ => True) σ s.conf) {ms : List (Thread × Stimulus)}
    {oss : List (List Shown)} (hrun : Run.run (threads arg sdk).step σ ms = some (σ', oss))
    (hreceived : receivedInputs (os ++ oss.flatten) <+: es.map ClientEvent.input) :
    ∃ s' st', Reduces (threads arg sdk) (fun _ => True) σ' s'.conf ∧
      Sound arg buf sdk es (os ++ oss.flatten) s' st' := by
  obtain ⟨ms', c, -, hreaches, hred'⟩ := hred.run (fun _ _ => trivial) hrun
  obtain ⟨s', rfl, hsound⟩ := Snapshot.induct (fun _ => True)
    (motive := fun s' os' => receivedInputs (os ++ os') <+: es.map ClientEvent.input →
      ∃ st', Sound arg buf sdk es (os ++ os') s' st')
    (fun _ => ⟨st, by rw [List.append_nil]; exact h⟩)
    (fun {s₁ s₂ m os₁ os₂} ih _ hstep hreceived => by
      rw [← List.append_assoc] at hreceived ⊢
      have hearlier := hreceived
      rw [receivedInputs_append] at hearlier
      obtain ⟨st₁, hsound⟩ := ih ((List.prefix_append _ _).trans hearlier)
      exact hsound.step ha hlen hquit ho hstep hreceived)
    hreaches fun _ _ => trivial
  obtain ⟨st', hsound⟩ := hsound hreceived
  exact ⟨s', st', hred', hsound⟩

end Runs

/-- A request that comes in before its worker has started. -/
example : (run (threads ⟨1, 32, 1, 1, false, false⟩ Sdk.aes).step
    (threadsInit ⟨1, 32, 1, 1, false, false⟩).calm getRun).isNone = true := by
  decide +kernel

end ShieldStore
