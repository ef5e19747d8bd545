import ShieldStore.Threads

/-!
# The threads, section by section

What the threads do when every critical section is one step.  A worker that has popped
a job is at the head of its loop with the lock still in its hands, so that popping a job
and looking at the next one is one section.

## Main definitions

* `Snapshot` — what the threads share, and where they are, between their sections.
* `Snapshot.Step` — one step outside of the sections, or one section.

## Main results

* `atomicStep_iff` — these are the steps of the program.
* `Snapshot.induct` — invariants of its runs.
-/

namespace ShieldStore

open Bytes Counter CMem Sections Function

/-- What the threads share, and where they are. -/
structure Snapshot where
  hotCall : HotCall Unit
  num : ℕ
  queue : ℕ → JobQueue
  mem : Globals
  main : MainLoc
  responder : RespPoint
  worker : ℕ → WorkerPoint

namespace Snapshot

def conf (s : Snapshot) : Conf Lock Thread Globals ThreadPoint Guarded where
  shared
    | .spin => s.hotCall
    | .global => s.num
    | .queue i => s.queue i
  env := s.mem
  loc
    | .main => .main s.main
    | .responder => .responder s.responder
    | .worker n => .worker (s.worker n)

/-- The server when all threads are created. -/
def init (arg : Arg) : Snapshot where
  hotCall := HotCall.init ()
  num := 0
  queue := fun _ => ⟨[], .idle⟩
  mem := (threadsInit arg).env
  main := ⟨0, 0, .select⟩
  responder := .hot .spin
  worker := fun n => if n < arg.numThreads then .start else .gone none

section Conf

variable (s : Snapshot)

theorem conf_shared_spin (hotCall : HotCall Unit) :
    update s.conf.shared .spin hotCall = { s with hotCall }.conf.shared := by
  funext k
  cases k <;> rfl

theorem conf_shared_global (num : ℕ) :
    update s.conf.shared .global num = { s with num }.conf.shared := by
  funext k
  cases k <;> rfl

theorem conf_shared_queue (i : ℕ) (q : JobQueue) :
    update s.conf.shared (.queue i) q = { s with queue := update s.queue i q }.conf.shared := by
  funext k
  cases k with
  | queue i' =>
    rcases eq_or_ne i' i with rfl | hne
    · exact (update_self (Lock.queue i') _ _).trans (update_self i' q s.queue).symm
    · have hlock : Lock.queue i' ≠ .queue i := by simpa using hne
      have hqueue : update s.queue i q i' = s.queue i' := update_of_ne hne _ _
      exact (update_of_ne hlock _ _).trans hqueue.symm
  | _ => rfl

theorem conf_loc_main (main : MainLoc) :
    update s.conf.loc .main (.main main) = { s with main }.conf.loc := by
  funext t
  cases t <;> simp [conf]

theorem conf_loc_responder (responder : RespPoint) :
    update s.conf.loc .responder (.responder responder) = { s with responder }.conf.loc := by
  funext t
  cases t <;> simp [conf]

theorem conf_loc_worker (n : ℕ) (p : WorkerPoint) :
    update s.conf.loc (.worker n) (.worker p) = { s with worker := update s.worker n p }.conf.loc := by
  funext t
  cases t with
  | worker n' =>
    rcases eq_or_ne n' n with rfl | hne
    · simp [conf]
    · simp [conf, hne]
  | _ => simp [conf]

end Conf

end Snapshot

/-! ### The sections -/

/-- A worker at the head of its loop waits, or it takes the front of its queue. -/
def loopHead (i : ℕ) (q : JobQueue) : WorkerPoint × JobQueue :=
  match q.jobs with
  | [] => (.asleep i, { q with cond := .waiting })
  | curJob :: _ => (.took i curJob, q)

/-- Where the responder goes when it has looked at the `HotCall`. -/
def pollNext (hotCall : HotCall Unit) : Responder Unit :=
  if hotCall.keepPolling = true then
    if hotCall.runFunction = true then .call hotCall.callID hotCall.data else .spin
  else .left

/-- One step outside of the sections, or one section. -/
inductive Snapshot.Step (arg : Arg) (sdk : Sdk) (s : Snapshot) :
    Thread × Stimulus → Snapshot → List Shown → Prop
  | main {stimulus : Stimulus} {r : MainLoc × Globals × List Shown} (hmode : s.main.mode = .outside)
      (houter : s.main.outer arg s.mem stimulus = some r) :
      Step arg sdk s (.main, stimulus) { s with main := r.1, mem := r.2.1 } r.2.2
  | busy {stimulus : Stimulus} {r : Requester Unit} (hmain : s.main.point = .request r)
      (hpoint : r.point = .spin) (hbusy : s.hotCall.busy = true) :
      Step arg sdk s (.main, stimulus)
        { s with main := MainLoc.left { s.main with point := .request (r.goto .unlockBusy) } } []
  | call {stimulus : Stimulus} {r : Requester Unit} (hmain : s.main.point = .request r)
      (hpoint : r.point = .spin) (hbusy : s.hotCall.busy = false) :
      Step arg sdk s (.main, stimulus)
        { s with
          main := { s.main with point := .request (r.goto .spinAgain) }
          hotCall := r.take s.hotCall } []
  | awaits {stimulus : Stimulus} {r : Requester Unit} (hmain : s.main.point = .request r)
      (hpoint : r.point = .spinAgain) (hdone : s.hotCall.isDone = false) :
      Step arg sdk s (.main, stimulus) s []
  | returns {stimulus : Stimulus} {r : Requester Unit} (hmain : s.main.point = .request r)
      (hpoint : r.point = .spinAgain) (hdone : s.hotCall.isDone = true) :
      Step arg sdk s (.main, stimulus)
        { s with
          main := { s.main with point := .returned r.numRetries }
          hotCall := { s.hotCall with busy := false } } []
  | stop {stimulus : Stimulus} (hmain : s.main.point = .stop .spin) :
      Step arg sdk s (.main, stimulus)
        { s with
          main := { s.main with point := .stop .returned }
          hotCall := { s.hotCall with keepPolling := false } } []
  | responder {stimulus : Stimulus} {r : RespPoint × Globals × List Shown}
      (hmode : s.responder.mode = .outside) (houter : s.responder.outer arg sdk s.mem = some r) :
      Step arg sdk s (.responder, stimulus) { s with responder := r.1, mem := r.2.1 } r.2.2
  | poll {stimulus : Stimulus} (hresponder : s.responder = .hot .spin) :
      Step arg sdk s (.responder, stimulus) { s with responder := .hot (pollNext s.hotCall) } []
  | done {stimulus : Stimulus} (hresponder : s.responder = .hot .spinDone) :
      Step arg sdk s (.responder, stimulus)
        { s with
          responder := .hot .spin
          hotCall := { s.hotCall with isDone := true, runFunction := false } } []
  | push {stimulus : Stimulus} {i : ℕ} {job : Job} {next : Option ℕ}
      (hresponder : s.responder = .lock i job next) (hready : i ∈ s.mem.ready) :
      Step arg sdk s (.responder, stimulus)
        { s with
          responder := afterPush next
          queue := update s.queue i ⟨(s.queue i).jobs ++ [job], (s.queue i).cond.signal⟩ } []
  | worker {n : ℕ} {stimulus : Stimulus} {r : WorkerPoint × Globals × List Shown}
      (hmode : (s.worker n).mode = .outside)
      (houter : (s.worker n).outer arg sdk (.worker n) s.mem = some r) :
      Step arg sdk s (.worker n, stimulus)
        { s with worker := update s.worker n r.1, mem := r.2.1 } r.2.2
  | start {n : ℕ} {stimulus : Stimulus} (hworker : s.worker n = .start) :
      Step arg sdk s (.worker n, stimulus)
        { s with
          worker := update s.worker n (.lock s.num)
          num := s.num + 1
          mem := { s.mem with ready := s.num :: s.mem.ready } } []
  | head {n : ℕ} {stimulus : Stimulus} {i : ℕ} (hworker : s.worker n = .lock i) :
      Step arg sdk s (.worker n, stimulus)
        { s with
          worker := update s.worker n (loopHead i (s.queue i)).1
          queue := update s.queue i (loopHead i (s.queue i)).2 } []
  | wake {n : ℕ} {stimulus : Stimulus} {i : ℕ} (hworker : s.worker n = .asleep i)
      (hcond : (s.queue i).cond = .signalled ∨ stimulus = .wake) :
      Step arg sdk s (.worker n, stimulus)
        { s with
          worker := update s.worker n (loopHead i { s.queue i with cond := .idle }).1
          queue := update s.queue i (loopHead i { s.queue i with cond := .idle }).2 } []
  | pop {n : ℕ} {stimulus : Stimulus} {i : ℕ} {curJob front : Job} {jobs : List Job} {mem : Globals}
      (hworker : s.worker n = .relock i curJob) (hjobs : (s.queue i).jobs = front :: jobs)
      (hfree : s.mem.freeJob (some curJob) = some mem) :
      Step arg sdk s (.worker n, stimulus)
        { s with
          worker := update s.worker n (loopHead i { s.queue i with jobs }).1
          queue := update s.queue i (loopHead i { s.queue i with jobs }).2
          mem } []
  | quit {n : ℕ} {stimulus : Stimulus} {i : ℕ} {curJob front : Job} {jobs : List Job} {mem : Globals}
      (hworker : s.worker n = .relockQuit i curJob) (hjobs : (s.queue i).jobs = front :: jobs)
      (hfree : s.mem.freeJob (some curJob) = some mem) :
      Step arg sdk s (.worker n, stimulus)
        { s with
          worker := update s.worker n (.destroy i)
          queue := update s.queue i { s.queue i with jobs }
          mem } []

section Sections

variable {arg : Arg} {sdk : Sdk} {l : MainLoc} {r : Requester Unit} {hotCall : HotCall Unit}

theorem section_busy (hmain : l.point = .request r) (hpoint : r.point = .spin)
    (hbusy : hotCall.busy = true) :
    (threads arg sdk).Section .spin (.main l.entered, hotCall)
      (.main { l with point := .request (r.goto .unlockBusy) }, hotCall) := by
  obtain ⟨numConnection, numClients, point⟩ := l
  obtain ⟨callID, data, numRetries, point'⟩ := r
  obtain ⟨data', callID', keepPolling, runFunction, isDone, busy⟩ := hotCall
  subst hmain hpoint hbusy
  exact .inside rfl rfl (.leave rfl)

theorem section_call (hmain : l.point = .request r) (hpoint : r.point = .spin)
    (hbusy : hotCall.busy = false) :
    (threads arg sdk).Section .spin (.main l.entered, hotCall)
      (.main { l with point := .request (r.goto .unlockTaken) }, r.take hotCall) := by
  obtain ⟨numConnection, numClients, point⟩ := l
  obtain ⟨callID, data, numRetries, point'⟩ := r
  obtain ⟨data', callID', keepPolling, runFunction, isDone, busy⟩ := hotCall
  subst hmain hpoint hbusy
  exact .inside rfl rfl (.inside rfl rfl (.inside rfl rfl (.inside rfl rfl (.inside rfl rfl
    (.inside rfl rfl (.leave rfl))))))

variable (arg sdk) in
theorem section_awaits (hmain : l.point = .request r) (hpoint : r.point = .spinAgain)
    (hdone : hotCall.isDone = false) :
    (threads arg sdk).Section .spin (.main l.entered, hotCall)
      (.main { l with point := .request (r.goto .unlockWaiting) }, hotCall) := by
  obtain ⟨numConnection, numClients, point⟩ := l
  obtain ⟨callID, data, numRetries, point'⟩ := r
  obtain ⟨data', callID', keepPolling, runFunction, isDone, busy⟩ := hotCall
  subst hmain hpoint hdone
  exact .inside rfl rfl (.leave rfl)

theorem section_returns (hmain : l.point = .request r) (hpoint : r.point = .spinAgain)
    (hdone : hotCall.isDone = true) :
    (threads arg sdk).Section .spin (.main l.entered, hotCall)
      (.main { l with point := .request (r.goto .unlockDone) }, { hotCall with busy := false }) := by
  obtain ⟨numConnection, numClients, point⟩ := l
  obtain ⟨callID, data, numRetries, point'⟩ := r
  obtain ⟨data', callID', keepPolling, runFunction, isDone, busy⟩ := hotCall
  subst hmain hpoint hdone
  exact .inside rfl rfl (.inside rfl rfl (.leave rfl))

theorem section_stops (hmain : l.point = .stop .spin) :
    (threads arg sdk).Section .spin (.main l.entered, hotCall)
      (.main { l with point := .stop .unlock }, { hotCall with keepPolling := false }) := by
  obtain ⟨numConnection, numClients, point⟩ := l
  subst hmain
  exact .inside rfl rfl (.leave rfl)

variable (arg sdk) in
/-- The responder has looked at the `HotCall`. -/
theorem exists_section_polls (hotCall : HotCall Unit) :
    ∃ p : Responder Unit, p.next = pollNext hotCall ∧
      (threads arg sdk).Section .spin (.responder (RespPoint.hot .spin).entered, hotCall)
        (.responder (.hot p), hotCall) := by
  obtain ⟨data, callID, keepPolling, runFunction, isDone, busy⟩ := hotCall
  cases keepPolling
  · exact ⟨.unlockStop, rfl, .inside rfl rfl (.leave rfl)⟩
  cases runFunction
  · exact ⟨.unlock, rfl, .inside rfl rfl (.inside rfl rfl (.leave rfl))⟩
  · exact ⟨.unlockCall callID data, rfl, .inside rfl rfl (.inside rfl rfl (.inside rfl rfl
      (.inside rfl rfl (.leave rfl))))⟩

theorem section_dones (hotCall : HotCall Unit) :
    (threads arg sdk).Section .spin (.responder (RespPoint.hot .spinDone).entered, hotCall)
      (.responder (.hot .unlock), { hotCall with isDone := true, runFunction := false }) :=
  .inside rfl rfl (.inside rfl rfl (.leave rfl))

theorem section_push (i : ℕ) (job : Job) (next : Option ℕ) (q : JobQueue) :
    (threads arg sdk).Section (.queue i) (.responder (RespPoint.lock i job next).entered, q)
      (.responder (.unlock i next), (⟨q.jobs ++ [job], q.cond.signal⟩ : JobQueue)) :=
  .inside rfl rfl (.inside rfl rfl (.leave rfl))

theorem section_start (num : ℕ) :
    (threads arg sdk).Section .global (.worker WorkerPoint.start.entered, num)
      (.worker (.unlockGlobal num), num + 1) :=
  .inside rfl rfl (.inside rfl rfl (.leave rfl))

variable (arg sdk) in
/-- A worker that is at the head of its loop, and has freed a job perhaps. -/
theorem exists_section_top (i : ℕ) (freed : Option Job) (q : JobQueue) :
    ∃ p : WorkerPoint, (∀ mem, p.left mem = (mem.freeJob freed).map fun mem => ((loopHead i q).1, mem)) ∧
      (threads arg sdk).Section (.queue i) (.worker (.top i freed), q)
        (.worker p, (loopHead i q).2) := by
  obtain ⟨jobs, cond⟩ := q
  cases jobs with
  | nil => exact ⟨.sleep i freed, fun _ => rfl, .inside rfl rfl (.inside rfl rfl (.leave rfl))⟩
  | cons curJob jobs => exact ⟨.unlock i curJob freed, fun _ => rfl, .inside rfl rfl (.leave rfl)⟩

/-- A worker that wakes up goes to the head of its loop. -/
theorem section_woke {i : ℕ} {q q' : JobQueue} {p : WorkerPoint}
    (h : (threads arg sdk).Section (.queue i)
      (.worker (.top i none), ({ q with cond := .idle } : JobQueue)) (.worker p, q')) :
    (threads arg sdk).Section (.queue i) (.worker (WorkerPoint.asleep i).entered, q)
      (.worker p, q') :=
  .inside rfl rfl h

/-- A worker that has popped its job goes to the head of its loop. -/
theorem section_pop {i : ℕ} {q q' : JobQueue} {p : WorkerPoint} {curJob front : Job}
    {jobs : List Job} (hjobs : q.jobs = front :: jobs)
    (h : (threads arg sdk).Section (.queue i)
      (.worker (.top i (some curJob)), ({ q with jobs } : JobQueue)) (.worker p, q')) :
    (threads arg sdk).Section (.queue i) (.worker (WorkerPoint.relock i curJob).entered, q)
      (.worker p, q') := by
  obtain ⟨_, cond⟩ := q
  subst hjobs
  exact .inside rfl rfl h

theorem section_popQuit {i : ℕ} {q : JobQueue} {curJob front : Job} {jobs : List Job}
    (hjobs : q.jobs = front :: jobs) :
    (threads arg sdk).Section (.queue i) (.worker (WorkerPoint.relockQuit i curJob).entered, q)
      (.worker (.unlockQuit i curJob), ({ q with jobs } : JobQueue)) := by
  obtain ⟨_, cond⟩ := q
  subst hjobs
  exact .inside rfl rfl (.leave rfl)

end Sections

/-! ### The steps of the program -/

section Whole

variable {arg : Arg} {sdk : Sdk} {s : Snapshot} {stimulus : Stimulus}

/-- A section of `main`. -/
theorem whole_main {l : MainLoc} {hotCall : HotCall Unit} (hmode : s.main.mode = .enter .spin)
    (h : (threads arg sdk).Section .spin (.main s.main.entered, s.hotCall) (.main l, hotCall)) :
    (threads arg sdk).AtomicStep s.conf (.main, stimulus)
      { s with main := l.left, hotCall }.conf [] :=
  .of_section hmode rfl h rfl (s.conf_shared_spin hotCall).symm rfl (s.conf_loc_main l.left).symm

/-- A section of the responder at the `HotCall`. -/
theorem whole_hot {p p' : Responder Unit} {hotCall : HotCall Unit} (hp : s.responder = .hot p)
    (hmode : p.mode Lock.spin = .enter .spin)
    (h : (threads arg sdk).Section .spin (.responder (RespPoint.hot p).entered, s.hotCall)
      (.responder (.hot p'), hotCall)) :
    (threads arg sdk).AtomicStep s.conf (.responder, stimulus)
      { s with responder := .hot p'.next, hotCall }.conf [] := by
  have hloc : s.conf.loc .responder = .responder (.hot p) := congrArg _ hp
  refine Prog.AtomicStep.of_section (k := Lock.spin) (p := .responder (.hot p')) ?_ ?_ ?_ rfl
    (s.conf_shared_spin hotCall).symm rfl (s.conf_loc_responder (.hot p'.next)).symm
  · rw [hloc]
    exact hmode
  · rw [hloc]
    rfl
  · rw [hloc]
    exact h

/-- The responder pushes a job. -/
theorem whole_push {i : ℕ} {job : Job} {next : Option ℕ} (hp : s.responder = .lock i job next)
    (hready : i ∈ s.mem.ready) :
    (threads arg sdk).AtomicStep s.conf (.responder, stimulus)
      { s with
        responder := afterPush next
        queue := update s.queue i ⟨(s.queue i).jobs ++ [job], (s.queue i).cond.signal⟩ }.conf [] := by
  have hloc : s.conf.loc .responder = .responder (.lock i job next) := congrArg _ hp
  -- the queue is still there when the lock is let go
  have hleft : ThreadPoint.left (.responder (.unlock i next)) s.mem =
      some (.responder (afterPush next), s.mem, []) := by
    simp [ThreadPoint.left, RespPoint.left, hready]
  refine Prog.AtomicStep.of_section (k := Lock.queue i) (p := ThreadPoint.responder (.unlock i next))
    ?_ ?_ ?_ hleft (s.conf_shared_queue i _).symm rfl (s.conf_loc_responder (afterPush next)).symm
  · rw [hloc]
    rfl
  · rw [hloc]
    rfl
  · rw [hloc]
    exact section_push i job next (s.queue i)

/-- A section of a worker at its queue. -/
theorem whole_queue {n i : ℕ} {p p' : WorkerPoint} {q : JobQueue} {mem : Globals}
    (hmode : (s.worker n).mode = .enter (.queue i))
    (hadmits : ThreadPoint.admits (.queue i) (.worker (s.worker n)) (s.queue i) stimulus = true)
    (h : (threads arg sdk).Section (.queue i) (.worker (s.worker n).entered, s.queue i) (.worker p, q))
    (hleft : p.left s.mem = some (p', mem)) :
    (threads arg sdk).AtomicStep s.conf (.worker n, stimulus)
      { s with worker := update s.worker n p', queue := update s.queue i q, mem }.conf [] := by
  have hleft' : ThreadPoint.left (.worker p) s.mem = some (.worker p', mem, []) := by
    simp [ThreadPoint.left, hleft]
  exact Prog.AtomicStep.of_section (k := Lock.queue i) hmode hadmits h hleft'
    (s.conf_shared_queue i q).symm rfl (s.conf_loc_worker n p').symm

/-- A worker starts. -/
theorem whole_start {n : ℕ} (hworker : s.worker n = .start) :
    (threads arg sdk).AtomicStep s.conf (.worker n, stimulus)
      { s with
        worker := update s.worker n (.lock s.num)
        num := s.num + 1
        mem := { s.mem with ready := s.num :: s.mem.ready } }.conf [] := by
  have hloc : s.conf.loc (.worker n) = .worker .start := congrArg _ hworker
  refine Prog.AtomicStep.of_section (k := Lock.global) (p := .worker (.unlockGlobal s.num)) ?_ ?_ ?_ rfl
    (s.conf_shared_global (s.num + 1)).symm rfl (s.conf_loc_worker n (.lock s.num)).symm
  · rw [hloc]
    rfl
  · rw [hloc]
    rfl
  · rw [hloc]
    exact section_start s.num

end Whole

section Atomic

variable {arg : Arg} {sdk : Sdk} {s s' : Snapshot} {m : Thread × Stimulus} {os : List Shown}

theorem Snapshot.Step.atomic (h : s.Step arg sdk m s' os) :
    (threads arg sdk).AtomicStep s.conf m s'.conf os := by
  cases h with
  | main hmode houter =>
    refine .of_outer hmode ?_ rfl rfl (s.conf_loc_main _).symm
    show (s.main.outer arg s.mem _).map _ = _
    rw [houter]
    rfl
  | busy hmain hpoint hbusy =>
    apply whole_main _ (section_busy hmain hpoint hbusy)
    simp [MainLoc.mode, hmain, Requester.mode, hpoint]
  | call hmain hpoint hbusy =>
    apply whole_main _ (section_call hmain hpoint hbusy)
    simp [MainLoc.mode, hmain, Requester.mode, hpoint]
  | @awaits stimulus r hmain hpoint hdone =>
    -- `main` polls, and is where it was
    have hsame : s = { s with main := MainLoc.left { s.main with point := .request (r.goto .unlockWaiting) } } := by
      obtain ⟨hotCall, num, queue, mem, ⟨numConnection, numClients, point⟩, responder, worker⟩ := s
      obtain ⟨callID, data, numRetries, point'⟩ := r
      subst hmain hpoint
      rfl
    have hstep : (threads arg sdk).AtomicStep s.conf (.main, stimulus) _ _ := whole_main
      (by simp [MainLoc.mode, hmain, Requester.mode, hpoint]) (section_awaits arg sdk hmain hpoint hdone)
    rwa [← hsame] at hstep
  | returns hmain hpoint hdone =>
    apply whole_main _ (section_returns hmain hpoint hdone)
    simp [MainLoc.mode, hmain, Requester.mode, hpoint]
  | stop hmain =>
    apply whole_main _ (section_stops hmain)
    simp [MainLoc.mode, hmain, Stopper.mode]
  | responder hmode houter =>
    refine .of_outer hmode ?_ rfl rfl (s.conf_loc_responder _).symm
    show (s.responder.outer arg sdk s.mem).map _ = _
    rw [houter]
    rfl
  | poll hresponder =>
    -- what the responder sees decides where it goes on
    obtain ⟨p, hp, hsection⟩ := exists_section_polls arg sdk s.hotCall
    rw [← hp]
    exact whole_hot hresponder rfl hsection
  | done hresponder => exact whole_hot hresponder rfl (section_dones s.hotCall)
  | push hresponder hready => exact whole_push hresponder hready
  | worker hmode houter =>
    refine .of_outer hmode ?_ rfl rfl (s.conf_loc_worker _ _).symm
    show ((s.worker _).outer arg sdk _ s.mem).map _ = _
    rw [houter]
    rfl
  | start hworker => exact whole_start hworker
  -- the three ways to the head of the loop, which end with a job or in a wait
  | @head n stimulus i hworker =>
    obtain ⟨p, hleft, hsection⟩ := exists_section_top arg sdk i none (s.queue i)
    apply whole_queue (by rw [hworker]; rfl) (by rw [hworker]; rfl)
      (by rw [hworker]; exact hsection) (hleft s.mem)
  | @wake n stimulus i hworker hcond =>
    obtain ⟨p, hleft, hsection⟩ := exists_section_top arg sdk i none
      { s.queue i with cond := .idle }
    apply whole_queue (by rw [hworker]; rfl) ?_
      (by rw [hworker]; exact section_woke hsection) (hleft s.mem)
    rw [hworker]
    simpa [ThreadPoint.admits] using hcond
  | @pop n stimulus i curJob front jobs mem hworker hjobs hfree =>
    obtain ⟨p, hleft, hsection⟩ := exists_section_top arg sdk i (some curJob)
      { s.queue i with jobs }
    apply whole_queue (by rw [hworker]; rfl) (by rw [hworker]; rfl)
      (by rw [hworker]; exact section_pop hjobs hsection)
    rw [hleft, hfree]
    rfl
  | @quit n stimulus i curJob front jobs mem hworker hjobs hfree =>
    apply whole_queue (by rw [hworker]; rfl) (by rw [hworker]; rfl)
      (by rw [hworker]; exact section_popQuit hjobs)
    show (s.mem.freeJob (some curJob)).map _ = _
    rw [hfree]
    rfl

/-- `main` is outside of its sections, or ahead of one. -/
theorem MainLoc.enter_cases {l : MainLoc} {k : Lock} (h : l.mode = .enter k) :
    (∃ r, l.point = .request r ∧ (r.point = .spin ∨ r.point = .spinAgain)) ∨ l.point = .stop .spin := by
  obtain ⟨numConnection, numClients, point⟩ := l
  cases point with
  | request r =>
    obtain ⟨callID, data, numRetries, point⟩ := r
    cases point with
    | spin => exact .inl ⟨_, rfl, .inl rfl⟩
    | spinAgain => exact .inl ⟨_, rfl, .inr rfl⟩
    | _ => cases h
  | stop p =>
    cases p with
    | spin => exact .inr rfl
    | _ => cases h
  | _ => cases h

/-- Every step of `main` is one of these. -/
theorem exists_step_main {c : Conf Lock Thread Globals ThreadPoint Guarded} {stimulus : Stimulus}
    (h : (threads arg sdk).AtomicStep s.conf (.main, stimulus) c os) :
    ∃ s' os', s.Step arg sdk (.main, stimulus) s' os' := by
  cases h with
  | outer hmode houter =>
    obtain ⟨r, hr, -⟩ := Option.map_eq_some_iff.mp houter
    exact ⟨_, _, .main hmode hr⟩
  | whole hmode =>
    rcases MainLoc.enter_cases hmode with ⟨r, hmain, hpoint | hpoint⟩ | hmain
    · cases hbusy : s.hotCall.busy with
      | false => exact ⟨_, _, .call hmain hpoint hbusy⟩
      | true => exact ⟨_, _, .busy hmain hpoint hbusy⟩
    · cases hdone : s.hotCall.isDone with
      | false => exact ⟨_, _, .awaits hmain hpoint hdone⟩
      | true => exact ⟨_, _, .returns hmain hpoint hdone⟩
    · exact ⟨_, _, .stop hmain⟩

/-- Every step of the responder is one of these. -/
theorem exists_step_responder {c : Conf Lock Thread Globals ThreadPoint Guarded} {stimulus : Stimulus}
    (h : (threads arg sdk).AtomicStep s.conf (.responder, stimulus) c os) :
    ∃ s' os', s.Step arg sdk (.responder, stimulus) s' os' := by
  cases h with
  | outer hmode houter =>
    obtain ⟨r, hr, -⟩ := Option.map_eq_some_iff.mp houter
    exact ⟨_, _, .responder hmode hr⟩
  | @whole k b r hmode hadmits hsection hleft =>
    change s.responder.mode = .enter k at hmode
    cases hresponder : s.responder with
    | hot p =>
      cases p with
      | spin => exact ⟨_, _, .poll hresponder⟩
      | spinDone => exact ⟨_, _, .done hresponder⟩
      | _ => rw [hresponder] at hmode; cases hmode
    | lock i job next =>
      rw [hresponder] at hmode
      cases hmode
      have hloc : s.conf.loc .responder = .responder (.lock i job next) := congrArg _ hresponder
      rw [hloc] at hsection
      -- a section has one end
      obtain rfl := hsection.unique (section_push i job next (s.queue i))
      obtain ⟨p', hp', -⟩ := Option.map_eq_some_iff.mp hleft
      simp only [RespPoint.left] at hp'
      split at hp'
      · next hready => exact ⟨_, _, .push hresponder hready⟩
      · cases hp'
    | _ => rw [hresponder] at hmode; cases hmode

/-- A queue that is popped is not empty. -/
theorem exists_cons_of_pop {i : ℕ} {q : JobQueue} {p : WorkerPoint} {b : ThreadPoint × JobQueue}
    (hnil : q.jobs = [] → p.innerQueue q = none) (hmode : p.mode = .inside (.queue i))
    (h : (threads arg sdk).Section (.queue i) (.worker p, q) b) : ∃ front jobs, q.jobs = front :: jobs := by
  cases hjobs : q.jobs with
  | nil =>
    obtain ⟨_, hinner, -⟩ := (Prog.section_inside_iff (P := threads arg sdk) (k := Lock.queue i)
      (a := (.worker p, q)) (b := b) hmode).mp h
    obtain ⟨_, hinner', -⟩ := Option.map_eq_some_iff.mp hinner
    rw [hnil hjobs] at hinner'
    cases hinner'
  | cons front jobs => exact ⟨front, jobs, rfl⟩

/-- Every step of a worker is one of these. -/
theorem exists_step_worker {c : Conf Lock Thread Globals ThreadPoint Guarded} {n : ℕ}
    {stimulus : Stimulus} (h : (threads arg sdk).AtomicStep s.conf (.worker n, stimulus) c os) :
    ∃ s' os', s.Step arg sdk (.worker n, stimulus) s' os' := by
  cases h with
  | outer hmode houter =>
    obtain ⟨r, hr, -⟩ := Option.map_eq_some_iff.mp houter
    exact ⟨_, _, .worker hmode hr⟩
  | @whole k b r hmode hadmits hsection hleft =>
    change (s.worker n).mode = .enter k at hmode
    have hloc : s.conf.loc (.worker n) = .worker (s.worker n) := rfl
    cases hworker : s.worker n with
    | start => exact ⟨_, _, .start hworker⟩
    | lock i => exact ⟨_, _, .head hworker⟩
    | asleep i =>
      rw [hworker] at hmode hloc
      cases hmode
      rw [hloc] at hadmits
      -- a worker that waits needs a signal, or wakes up without
      change decide ((s.queue i).cond = .signalled) || decide (stimulus = .wake) at hadmits
      have hcond : (s.queue i).cond = .signalled ∨ stimulus = .wake := by simpa using hadmits
      exact ⟨_, _, .wake hworker hcond⟩
    | relock i curJob =>
      rw [hworker] at hmode hloc
      cases hmode
      rw [hloc] at hsection
      -- the section has come to its end, so that there was a job to pop
      obtain ⟨front, jobs, hjobs⟩ := exists_cons_of_pop (p := .pop i curJob)
        (fun hnil => by simp [WorkerPoint.innerQueue, hnil]) rfl hsection
      obtain ⟨p, hp, htop⟩ := exists_section_top arg sdk i (some curJob)
        { s.queue i with jobs }
      obtain rfl := hsection.unique (section_pop hjobs htop)
      obtain ⟨r', hr', -⟩ := Option.map_eq_some_iff.mp hleft
      rw [hp] at hr'
      obtain ⟨mem, hfree, -⟩ := Option.map_eq_some_iff.mp hr'
      exact ⟨_, _, .pop hworker hjobs hfree⟩
    | relockQuit i curJob =>
      rw [hworker] at hmode hloc
      cases hmode
      rw [hloc] at hsection
      obtain ⟨front, jobs, hjobs⟩ := exists_cons_of_pop (p := .popQuit i curJob)
        (fun hnil => by simp [WorkerPoint.innerQueue, hnil]) rfl hsection
      obtain rfl := hsection.unique (section_popQuit hjobs)
      obtain ⟨r', hr', -⟩ := Option.map_eq_some_iff.mp hleft
      obtain ⟨mem, hfree, -⟩ := Option.map_eq_some_iff.mp hr'
      exact ⟨_, _, .quit hworker hjobs hfree⟩
    | _ => rw [hworker] at hmode; cases hmode

/-- **The steps of the program**, when every section is one step. -/
theorem atomicStep_iff {c : Conf Lock Thread Globals ThreadPoint Guarded} :
    (threads arg sdk).AtomicStep s.conf m c os ↔ ∃ s', s.Step arg sdk m s' os ∧ c = s'.conf := by
  constructor
  · intro h
    obtain ⟨s', os', hstep⟩ : ∃ s' os', s.Step arg sdk m s' os' := by
      obtain ⟨t, stimulus⟩ := m
      cases t with
      | main => exact exists_step_main h
      | responder => exact exists_step_responder h
      | worker n => exact exists_step_worker h
    obtain ⟨rfl, rfl⟩ := h.unique hstep.atomic
    exact ⟨s', hstep, rfl⟩
  · rintro ⟨s', hstep, rfl⟩
    exact hstep.atomic

/-- **Invariants of runs**, section by section. -/
theorem Snapshot.induct (ok : Thread × Stimulus → Prop) {motive : Snapshot → List Shown → Prop}
    (hinit : motive s [])
    (hstep : ∀ {s₁ s₂ m os os'}, motive s₁ os → ok m → s₁.Step arg sdk m s₂ os' → motive s₂ (os ++ os'))
    {ms : List (Thread × Stimulus)} {c : Conf Lock Thread Globals ThreadPoint Guarded}
    (h : (threads arg sdk).Reaches s.conf ms c os) (hok : ∀ m ∈ ms, ok m) :
    ∃ s', c = s'.conf ∧ motive s' os := by
  apply h.induct ok (motive := fun c os => ∃ s', c = s'.conf ∧ motive s' os) ⟨s, rfl, hinit⟩ _ hok
  rintro c₁ c₂ m os os' ⟨s₁, rfl, hs₁⟩ hm hatomic
  obtain ⟨s₂, hs₂, rfl⟩ := atomicStep_iff.mp hatomic
  exact ⟨s₂, rfl, hstep hs₁ hm hs₂⟩

end Atomic

end ShieldStore
