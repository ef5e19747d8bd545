import ShieldStore.App
import ShieldStore.HotCalls

/-!
# The threads

The threads of the server with their locks: `main` in `App/App.cpp`, which calls into
the enclave by `HotCall_requestCall` and stops the responder at the end; the responder,
which runs `enclave_message_pass` in `EcallStartResponder`; and the workers in
`enclave_worker_thread`, which take their thread numbers under `global_mutex` and wait
on the condition variables of their queues.

The points of a thread are the lines at which it takes or lets go of a lock or touches
what a lock protects.  What no lock protects is in `Globals`: the store, of which every
worker has its own part, the parameters that `main` hands in, and `exit_count`, which
only the responder touches.  A mutex that is not initialised cannot be locked, and a
job is an object on the heap; an access to one that is not there has no defined
behaviour.

A worker that waits for its condition variable wakes up when it is signalled, and may
wake up without.

Two things at the end are taken to go as they were meant to, though the language leaves
them undefined.  A worker returns through `load_and_initialize_threads`, which has no
`return` statement: it is taken to return, whatever its value.  And `main` lets
`pthread_join` store a `void *` through `(void **)&status`, where `status` is an `int`: the
store is taken to hit nothing that is read again.  Without this, no session that comes to
its end is defined, and what is said of the threads holds up to their first such step.

## Main definitions

* `Lock`, `Guarded` — the locks, and what they protect.
* `MainLoc`, `RespPoint`, `WorkerPoint` — where the threads are.
* `threads` — the program.
* `threadsInit` — where it starts.
-/

namespace ShieldStore

open Bytes Counter CMem Sections

/-! ### What the threads share -/

/-- The locks. -/
inductive Lock
  /-- The spin lock of the `HotCall`. -/
  | spin
  /-- `global_mutex`. -/
  | global
  /-- `queue_mutex[i]`. -/
  | queue (i : ℕ)
  deriving DecidableEq

/-- `job_cond[i]`, as far as the worker that waits for it is concerned. -/
inductive Cond
  | idle
  | waiting
  | signalled
  deriving DecidableEq

/-- `queue[i]` and `job_cond[i]`. -/
structure JobQueue where
  jobs : List Job
  cond : Cond
  deriving DecidableEq

/-- What a lock protects.  There is one `EcallParams` only, so that its address says
nothing. -/
def Guarded : Lock → Type
  | .spin => HotCall Unit
  /- `num` -/
  | .global => ℕ
  | .queue _ => JobQueue

/-- The threads that `main` creates, and `main`. -/
inductive Thread
  | main
  | responder
  /-- `threads[n + 1]`. -/
  | worker (n : ℕ)
  deriving DecidableEq

/-- What no lock protects. -/
structure Globals where
  store : Store
  params : EcallParams
  exitCount : ℕ
  /-- The number of jobs allocated so far. -/
  allocs : ℕ
  /-- The jobs that are on the heap. -/
  live : List ℕ
  /-- The queues whose mutex and condition variable are initialised. -/
  ready : List ℕ
  /-- The threads that have returned. -/
  ended : List Thread
  deriving DecidableEq

/-- `malloc` of a job. -/
def Globals.newJob (mem : Globals) (buf : List UInt8) (clientSock : ℤ) (rand : Block) : Job × Globals :=
  (⟨mem.allocs, buf, clientSock, rand⟩,
    { mem with allocs := mem.allocs + 1, live := mem.allocs :: mem.live })

/-- `free` of a job, if there is one to free. -/
def Globals.freeJob (mem : Globals) : Option Job → Option Globals
  | none => some mem
  | some job => if job.ptr ∈ mem.live then some { mem with live := mem.live.erase job.ptr } else none

/-! ### Where the threads are -/

/-- Where `main` is. -/
inductive MainPoint
  | select
  | request (r : Requester Unit)
  /-- Behind `HotCall_requestCall`. -/
  | returned (result : ℤ)
  | stop (p : Stopper)
  /-- At `pthread_join` of `threads[i]`. -/
  | join (i : ℕ)
  /-- `main` has returned. -/
  | done
  /-- `exit(0)`. -/
  | exited
  deriving DecidableEq

/-- `main`, with its counters. -/
structure MainLoc where
  numConnection : ℤ
  numClients : ℕ
  point : MainPoint
  deriving DecidableEq

/-- Where the responder is.  With `next`, the loop over the workers goes on behind the
push; without, `enclave_message_pass` returns. -/
inductive RespPoint
  | hot (p : Responder Unit)
  /-- At the head of the loop that sends the quit jobs. -/
  | quits (i : ℕ)
  /-- At a mutex, which has to be initialised. -/
  | check (i : ℕ) (job : Job) (next : Option ℕ)
  | lock (i : ℕ) (job : Job) (next : Option ℕ)
  | push (i : ℕ) (job : Job) (next : Option ℕ)
  | signal (i : ℕ) (next : Option ℕ)
  | unlock (i : ℕ) (next : Option ℕ)
  | gone
  deriving DecidableEq

/-- Where a worker is.  A job that is popped is freed before the lock is let go. -/
inductive WorkerPoint
  | start
  | readNum
  | bumpNum (threadId : ℕ)
  | unlockGlobal (threadId : ℕ)
  | lock (threadId : ℕ)
  | top (threadId : ℕ) (freed : Option Job)
  | wait (threadId : ℕ) (freed : Option Job)
  | sleep (threadId : ℕ) (freed : Option Job)
  /-- In `sgx_thread_cond_wait`. -/
  | asleep (threadId : ℕ)
  | woke (threadId : ℕ)
  | unlock (threadId : ℕ) (curJob : Job) (freed : Option Job)
  | took (threadId : ℕ) (curJob : Job)
  | relock (threadId : ℕ) (curJob : Job)
  | pop (threadId : ℕ) (curJob : Job)
  | relockQuit (threadId : ℕ) (curJob : Job)
  | popQuit (threadId : ℕ) (curJob : Job)
  | unlockQuit (threadId : ℕ) (curJob : Job)
  | destroy (threadId : ℕ)
  /-- The thread has returned; without a number, it never was. -/
  | gone (threadId : Option ℕ)
  deriving DecidableEq

/-- Where a thread is. -/
inductive ThreadPoint
  | main (l : MainLoc)
  | responder (p : RespPoint)
  | worker (p : WorkerPoint)
  deriving DecidableEq

/-- What a thread may find when it moves. -/
inductive Stimulus
  | nothing
  /-- `select` reports a descriptor. -/
  | input (input : Input)
  /-- `sgx_thread_cond_wait` returns without a signal. -/
  | wake
  deriving DecidableEq

/-- What can be seen. -/
inductive Shown
  /-- `main` handles a descriptor. -/
  | received (input : Input)
  | seen (s : Seen)
  deriving DecidableEq

/-! ### Critical sections -/

def MainLoc.mode (l : MainLoc) : Mode Lock :=
  match l.point with
  | .request r => r.mode .spin
  | .stop p => p.mode .spin
  | _ => .outside

def RespPoint.mode : RespPoint → Mode Lock
  | .hot p => p.mode .spin
  | .lock i _ _ => .enter (.queue i)
  | .push i _ _ | .signal i _ => .inside (.queue i)
  | .unlock i _ => .leave (.queue i)
  | .quits _ | .check _ _ _ | .gone => .outside

def WorkerPoint.mode : WorkerPoint → Mode Lock
  | .start => .enter .global
  | .readNum | .bumpNum _ => .inside .global
  | .unlockGlobal _ => .leave .global
  | .lock i | .asleep i | .relock i _ | .relockQuit i _ => .enter (.queue i)
  | .top i _ | .wait i _ | .woke i | .pop i _ | .popQuit i _ => .inside (.queue i)
  | .sleep i _ | .unlock i _ _ | .unlockQuit i _ => .leave (.queue i)
  | .took _ _ | .destroy _ | .gone _ => .outside

def ThreadPoint.mode : ThreadPoint → Mode Lock
  | .main l => l.mode
  | .responder p => p.mode
  | .worker p => p.mode

/-- A free lock can be taken by all threads but a worker that is asleep. -/
def ThreadPoint.admits : (k : Lock) → ThreadPoint → Guarded k → Stimulus → Bool
  | .queue _, .worker (.asleep _), q, stimulus => q.cond = .signalled || stimulus = .wake
  | _, _, _, _ => true

def MainLoc.entered (l : MainLoc) : MainLoc :=
  match l.point with
  | .request r => { l with point := .request r.entered }
  | .stop _ => { l with point := .stop .clearKeepPolling }
  | _ => l

def RespPoint.entered : RespPoint → RespPoint
  | .hot p => .hot p.entered
  | .lock i job next => .push i job next
  | p => p

def WorkerPoint.entered : WorkerPoint → WorkerPoint
  | .start => .readNum
  | .lock i => .top i none
  | .asleep i => .woke i
  | .relock i curJob => .pop i curJob
  | .relockQuit i curJob => .popQuit i curJob
  | p => p

def ThreadPoint.entered : ThreadPoint → ThreadPoint
  | .main l => .main l.entered
  | .responder p => .responder p.entered
  | .worker p => .worker p.entered

/-- What `main` does with the `HotCall`. -/
def MainLoc.inner (l : MainLoc) (hotCall : HotCall Unit) : MainLoc × HotCall Unit :=
  match l.point with
  | .request r => ({ l with point := .request (r.inner hotCall).1 }, (r.inner hotCall).2)
  | .stop p => ({ l with point := .stop (p.inner hotCall).1 }, (p.inner hotCall).2)
  | _ => (l, hotCall)

/-- What a worker does with `num`. -/
def WorkerPoint.innerGlobal (num : ℕ) : WorkerPoint → WorkerPoint × ℕ
  | .readNum => (.bumpNum num, num)
  | .bumpNum threadId => (.unlockGlobal threadId, num + 1)
  | p => (p, num)

/-- `sgx_thread_cond_signal`. -/
def Cond.signal : Cond → Cond
  | .waiting => .signalled
  | cond => cond

/-- What the responder does with a queue. -/
def RespPoint.innerQueue (q : JobQueue) : RespPoint → RespPoint × JobQueue
  | .push i job next => (.signal i next, { q with jobs := q.jobs ++ [job] })
  | .signal i next => (.unlock i next, { q with cond := q.cond.signal })
  | p => (p, q)

/-- What a worker does with its queue. -/
def WorkerPoint.innerQueue (q : JobQueue) : WorkerPoint → Option (WorkerPoint × JobQueue)
  | .top i freed =>
      match q.jobs with
      | [] => some (.wait i freed, q)
      | curJob :: _ => some (.unlock i curJob freed, q)
  | .wait i freed => some (.sleep i freed, { q with cond := .waiting })
  | .woke i => some (.top i none, { q with cond := .idle })
  | .pop i curJob =>
      match q.jobs with
      | [] => none
      | _ :: jobs => some (.top i (some curJob), { q with jobs })
  | .popQuit i curJob =>
      match q.jobs with
      | [] => none
      | _ :: jobs => some (.unlockQuit i curJob, { q with jobs })
  | p => some (p, q)

def ThreadPoint.inner : (k : Lock) → ThreadPoint → Guarded k → Option (ThreadPoint × Guarded k)
  | .spin, .main l, hotCall => some (.main (l.inner hotCall).1, (l.inner hotCall).2)
  | .spin, .responder (.hot p), hotCall =>
      some (.responder (.hot (p.inner hotCall).1), (p.inner hotCall).2)
  | .global, .worker p, num => some (.worker (p.innerGlobal num).1, (p.innerGlobal num).2)
  | .queue _, .responder p, q => some (.responder (p.innerQueue q).1, (p.innerQueue q).2)
  | .queue _, .worker p, q => (p.innerQueue q).map fun r => (.worker r.1, r.2)
  | _, p, x => some (p, x)

def MainLoc.left (l : MainLoc) : MainLoc :=
  match l.point with
  | .request r =>
      match r.left with
      | .inl r => { l with point := .request r }
      | .inr result => { l with point := .returned result }
  | _ => { l with point := .stop .returned }

/-- Behind a push. -/
def afterPush : Option ℕ → RespPoint
  | some i => .quits i
  | none => .hot .spinDone

/-- The responder lets go of a lock, which has to be there still. -/
def RespPoint.left (mem : Globals) : RespPoint → Option RespPoint
  | .hot p => some (.hot p.next)
  | .unlock i next => if i ∈ mem.ready then some (afterPush next) else none
  | p => some p

/-- A worker lets go of a lock. -/
def WorkerPoint.left (mem : Globals) : WorkerPoint → Option (WorkerPoint × Globals)
  | .unlockGlobal threadId => some (.lock threadId, { mem with ready := threadId :: mem.ready })
  | .sleep i freed => (mem.freeJob freed).map fun mem => (.asleep i, mem)
  | .unlock i curJob freed => (mem.freeJob freed).map fun mem => (.took i curJob, mem)
  | .unlockQuit i curJob => (mem.freeJob (some curJob)).map fun mem => (.destroy i, mem)
  | p => some (p, mem)

def ThreadPoint.left (p : ThreadPoint) (mem : Globals) : Option (ThreadPoint × Globals × List Shown) :=
  match p with
  | .main l => some (.main l.left, mem, [])
  | .responder p => (p.left mem).map fun p => (.responder p, mem, [])
  | .worker p => (p.left mem).map fun r => (.worker r.1, r.2, [])

/-! ### Outside of the critical sections -/

/-- `threads[i]`. -/
def threadAt : ℕ → Thread
  | 0 => .responder
  | n + 1 => .worker n

/-- `main` behind a call: its counters, and whether it leaves the loop. -/
def afterCall (buf : List UInt8) (numConnection : ℤ) : Option (ℤ × Bool) := do
  let loadDone ← strncmp buf (lit ['L', 'O', 'A', 'D', 'D', 'O', 'N', 'E']) 9
  let numConnection := if loadDone then numConnection - 1 else numConnection
  let exit ← strncmp buf (lit ['E', 'X', 'I', 'T']) 4
  let numConnection := if exit then numConnection - 1 else numConnection
  return (numConnection, exit && numConnection = 0)

def MainLoc.outer (arg : Arg) (l : MainLoc) (mem : Globals) (stimulus : Stimulus) :
    Option (MainLoc × Globals × List Shown) :=
  match l.point with
  | .select =>
      match stimulus with
      | .input .accept =>
          let numConnection := l.numConnection + 1
          some ({ l with
            numConnection
            numClients := if numConnection > l.numClients then numConnection.toNat else l.numClients },
            mem, [.received .accept])
      | .input (.message sock text rand) =>
          some ({ l with point := .request ⟨0, (), 0, .spin⟩ },
            { mem with params := ⟨readBuf arg text, sock, l.numClients, rand⟩ },
            [.received (.message sock text rand)])
      | .input .hangup =>
          some ({ l with point := .exited },
            { mem with params := { mem.params with buf := malloc arg.maxBufSize } },
            [.received .hangup])
      -- `select` does not return
      | _ => some (l, mem, [])
  | .returned _ => do
      let (numConnection, leaves) ← afterCall mem.params.buf l.numConnection
      return ({ l with numConnection, point := if leaves then .stop .spin else .select }, mem, [])
  | .stop _ => some ({ l with point := .join 0 }, mem, [])
  | .join i =>
      -- the store of a `void *` into the `int` named `status` is taken to do no harm
      if i ≤ arg.numThreads then
        if threadAt i ∈ mem.ended then some ({ l with point := .join (i + 1) }, mem, [])
        else some (l, mem, [])
      else some ({ l with point := .done }, mem, [])
  | _ => some (l, mem, [])

/-- `enclave_message_pass`, up to its first lock. -/
def messagePass (arg : Arg) (sdk : Sdk) (mem : Globals) : Option (RespPoint × Globals × List Shown) := do
  let params := mem.params
  let cipher := params.buf
  if ← startsWith cipher (lit ['E', 'X', 'I', 'T']) (lit ['e', 'x', 'i', 't']) 4 then
    let mem := { mem with exitCount := mem.exitCount + 1 }
    if mem.exitCount = params.numClients then
      return (.quits 0, mem, [.seen (.messageReturn cipher params.clientSock),
        .seen (.event (.print .allThreadsFinished))])
    else return (.hot .spinDone, mem, [.seen (.messageReturn cipher params.clientSock)])
  else if ← strncmp cipher (lit ['L', 'O', 'A', 'D', 'D', 'O', 'N', 'E']) 8 then
    return (.hot .spinDone, mem, [.seen (.event (.print .loadProcessDone)),
      .seen (.messageReturn cipher params.clientSock)])
  else
    let buf ← memcpy (malloc arg.maxBufSize) 0 cipher arg.maxBufSize
    let (newJob, mem) := mem.newJob buf params.clientSock params.rand
    -- the message is cut in place
    let p ← parseKey sdk cipher
    let i ← threadId arg p.key
    return (.check i newJob none, { mem with params := { params with buf := p.cipher } }, [])

def RespPoint.outer (arg : Arg) (sdk : Sdk) (mem : Globals) :
    RespPoint → Option (RespPoint × Globals × List Shown)
  | .hot (.call callID _) =>
      -- the table has one callback
      if callID < 1 then messagePass arg sdk mem else some (.hot .spinDone, mem, [])
  | .quits i =>
      if i < arg.numThreads then do
        let buf ← quitBuf arg
        let (newJob, mem) := mem.newJob buf (-1) 0
        return (.check i newJob (some (i + 1)), mem, [])
      else some (.hot .spinDone, mem, [])
  | .check i job next => if i ∈ mem.ready then some (.lock i job next, mem, []) else none
  | .hot _ => some (.gone, { mem with ended := .responder :: mem.ended }, [])
  | p => some (p, mem, [])

/-- A worker serves its job, or returns.  Its return goes through
`load_and_initialize_threads`, which has no `return` statement and is taken to return. -/
def WorkerPoint.outer (arg : Arg) (sdk : Sdk) (t : Thread) (mem : Globals) :
    WorkerPoint → Option (WorkerPoint × Globals × List Shown)
  | .took i curJob =>
      if curJob.ptr ∈ mem.live then do
        match ← command curJob.buf with
        | .get | .set | .append =>
            let r ← request arg sdk mem.store curJob.rand curJob.buf
            let out ← r
            return (.relock i curJob, { mem with store := out.store },
              (out.log.map Seen.event ++
                [Seen.answered i curJob out.cipher curJob.clientSock]).map Shown.seen)
        | .quit => return (.relockQuit i curJob, mem, [])
        | .untyped =>
            return (.gone (some i), { mem with ended := t :: mem.ended },
              [.seen (.event (.print .untypedRequest))])
      else none
  | .destroy i =>
      some (.gone (some i), { mem with ready := mem.ready.erase i, ended := t :: mem.ended }, [])
  | p => some (p, mem, [])

def ThreadPoint.outer (arg : Arg) (sdk : Sdk) (t : Thread) (p : ThreadPoint) (mem : Globals) (stimulus : Stimulus) :
    Option (ThreadPoint × Globals × List Shown) :=
  match p with
  | .main l => (l.outer arg mem stimulus).map fun r => (.main r.1, r.2)
  | .responder p => (p.outer arg sdk mem).map fun r => (.responder r.1, r.2)
  | .worker p => (p.outer arg sdk t mem).map fun r => (.worker r.1, r.2)

/-! ### The program -/

section Modes

variable {k : Lock}

theorem MainLoc.within_entered {l : MainLoc} (h : l.mode = .enter k) : l.entered.mode.Within k := by
  obtain ⟨numConnection, numClients, point⟩ := l
  cases point with
  | request r => exact Requester.within_entered h
  | stop p => cases p <;> cases h; rfl
  | _ => cases h

theorem RespPoint.within_entered {p : RespPoint} (h : p.mode = .enter k) : p.entered.mode.Within k := by
  cases p with
  | hot p => exact Responder.within_entered h
  | lock i job next => cases h; rfl
  | _ => cases h

theorem WorkerPoint.within_entered {p : WorkerPoint} (h : p.mode = .enter k) :
    p.entered.mode.Within k := by
  cases p <;> cases h <;> rfl

/-- `main` has no lock but that of the `HotCall`. -/
theorem MainLoc.eq_spin_of_inside {l : MainLoc} (h : l.mode = .inside k) : k = .spin := by
  obtain ⟨numConnection, numClients, point⟩ := l
  cases point with
  | request r =>
    obtain ⟨callID, data, numRetries, point⟩ := r
    cases point <;> cases h <;> rfl
  | stop p => cases p <;> cases h; rfl
  | _ => cases h

theorem MainLoc.within_inner {l : MainLoc} (h : l.mode = .inside k) (hotCall : HotCall Unit) :
    (l.inner hotCall).1.mode.Within k := by
  obtain ⟨numConnection, numClients, point⟩ := l
  cases point with
  | request r => exact Requester.within_inner h hotCall
  | stop p => exact Stopper.within_inner h hotCall
  | _ => cases h

theorem RespPoint.within_innerQueue {p : RespPoint} {i : ℕ} (h : p.mode = .inside (.queue i))
    (q : JobQueue) : (p.innerQueue q).1.mode.Within (.queue i) := by
  cases p with
  | hot p => cases p <;> cases h
  | _ => cases h <;> rfl

theorem WorkerPoint.within_innerGlobal {p : WorkerPoint} (h : p.mode = .inside .global) (num : ℕ) :
    (p.innerGlobal num).1.mode.Within .global := by
  cases p <;> cases h <;> rfl

theorem WorkerPoint.within_innerQueue {p : WorkerPoint} {i : ℕ} {q : JobQueue}
    {r : WorkerPoint × JobQueue} (h : p.mode = .inside (.queue i)) (hr : p.innerQueue q = some r) :
    r.1.mode.Within (.queue i) := by
  cases p with
  | top i' freed =>
    cases h
    simp only [innerQueue] at hr
    split at hr <;> cases hr <;> rfl
  | pop i' curJob =>
    cases h
    simp only [innerQueue] at hr
    split at hr <;> cases hr
    rfl
  | popQuit i' curJob =>
    cases h
    simp only [innerQueue] at hr
    split at hr <;> cases hr
    rfl
  | _ => cases h <;> cases hr <;> rfl

theorem ThreadPoint.within_inner {p : ThreadPoint} {x : Guarded k} {r : ThreadPoint × Guarded k}
    (h : p.mode = .inside k) (hr : p.inner k x = some r) : r.1.mode.Within k := by
  cases p with
  | main l =>
    obtain rfl : k = .spin := l.eq_spin_of_inside h
    cases hr
    exact MainLoc.within_inner h x
  | responder p =>
    cases k with
    | spin =>
      cases p with
      | hot p =>
        cases hr
        exact Responder.within_inner h x
      | _ => cases h
    | global =>
      cases p with
      | hot p => cases p <;> cases h
      | _ => cases h
    | queue i =>
      cases hr
      exact RespPoint.within_innerQueue h x
  | worker p =>
    cases k with
    | spin => cases p <;> cases h
    | global =>
      cases hr
      exact WorkerPoint.within_innerGlobal h x
    | queue i =>
      obtain ⟨r', hr', rfl⟩ := Option.map_eq_some_iff.mp hr
      exact WorkerPoint.within_innerQueue h hr'

theorem MainLoc.out_left {l : MainLoc} (h : l.mode = .leave k) : l.left.mode.Out := by
  obtain ⟨numConnection, numClients, point⟩ := l
  cases point with
  | request r =>
    simp only [left]
    split
    · next r' hleft =>
      simp only [mode, Requester.mode_left hleft]
      trivial
    · trivial
  | stop p => trivial
  | _ => cases h

theorem RespPoint.out_left {p p' : RespPoint} {mem : Globals} (h : p.mode = .leave k)
    (hleft : p.left mem = some p') : p'.mode.Out := by
  cases p with
  | hot p =>
    cases hleft
    exact Responder.out_next
  | unlock i next =>
    simp only [left] at hleft
    split at hleft <;> cases hleft
    cases next <;> trivial
  | _ => cases h

theorem WorkerPoint.out_left {p : WorkerPoint} {mem : Globals} {r : WorkerPoint × Globals}
    (h : p.mode = .leave k) (hleft : p.left mem = some r) : r.1.mode.Out := by
  cases p with
  | unlockGlobal i => cases hleft; trivial
  | sleep i freed =>
    obtain ⟨_, -, rfl⟩ := Option.map_eq_some_iff.mp hleft
    trivial
  | unlock i curJob freed =>
    obtain ⟨_, -, rfl⟩ := Option.map_eq_some_iff.mp hleft
    trivial
  | unlockQuit i curJob =>
    obtain ⟨_, -, rfl⟩ := Option.map_eq_some_iff.mp hleft
    trivial
  | _ => cases h

theorem MainLoc.out_outer {arg : Arg} {l : MainLoc} {mem : Globals} {stimulus : Stimulus}
    {r : MainLoc × Globals × List Shown} (h : l.mode = .outside)
    (houter : l.outer arg mem stimulus = some r) : r.1.mode.Out := by
  obtain ⟨numConnection, numClients, point⟩ := l
  cases point with
  | select =>
    simp only [outer] at houter
    split at houter <;> cases houter <;> trivial
  | request r =>
    obtain ⟨callID, data, numRetries, point⟩ := r
    cases point <;> cases h
  | returned result =>
    obtain ⟨⟨numConnection', leaves⟩, -, heq⟩ := Option.bind_eq_some_iff.mp houter
    cases heq
    cases leaves <;> trivial
  | stop p => cases houter; trivial
  | join i =>
    simp only [outer] at houter
    split at houter
    · split at houter <;> cases houter <;> trivial
    · cases houter; trivial
  | _ => cases houter; trivial

/-- The three kinds of messages. -/
theorem messagePass_cases {arg : Arg} {sdk : Sdk} {mem : Globals} {r : RespPoint × Globals × List Shown}
    (h : messagePass arg sdk mem = some r) :
    startsWith mem.params.buf (lit ['E', 'X', 'I', 'T']) (lit ['e', 'x', 'i', 't']) 4 = some true ∧
        r = (if mem.exitCount + 1 = mem.params.numClients then .quits 0 else .hot .spinDone,
          { mem with exitCount := mem.exitCount + 1 },
          .seen (.messageReturn mem.params.buf mem.params.clientSock) ::
            if mem.exitCount + 1 = mem.params.numClients then
              [.seen (.event (.print .allThreadsFinished))] else []) ∨
      startsWith mem.params.buf (lit ['E', 'X', 'I', 'T']) (lit ['e', 'x', 'i', 't']) 4 = some false ∧
        strncmp mem.params.buf (lit ['L', 'O', 'A', 'D', 'D', 'O', 'N', 'E']) 8 = some true ∧
        r = (.hot .spinDone, mem, [.seen (.event (.print .loadProcessDone)),
          .seen (.messageReturn mem.params.buf mem.params.clientSock)]) ∨
      startsWith mem.params.buf (lit ['E', 'X', 'I', 'T']) (lit ['e', 'x', 'i', 't']) 4 = some false ∧
        strncmp mem.params.buf (lit ['L', 'O', 'A', 'D', 'D', 'O', 'N', 'E']) 8 = some false ∧
        ∃ buf p i, memcpy (malloc arg.maxBufSize) 0 mem.params.buf arg.maxBufSize = some buf ∧
          parseKey sdk mem.params.buf = some p ∧ threadId arg p.key = some i ∧
          r = (.check i (mem.newJob buf mem.params.clientSock mem.params.rand).1 none,
            { (mem.newJob buf mem.params.clientSock mem.params.rand).2 with
              params := { mem.params with buf := p.cipher } }, []) := by
  unfold messagePass at h
  simp only [Option.bind_eq_bind, Option.bind_eq_some_iff] at h
  obtain ⟨exit, hexit, h⟩ := h
  cases exit with
  | true =>
    refine .inl ⟨hexit, ?_⟩
    simp only [if_true] at h
    split at h <;> cases h <;> simp_all
  | false =>
    simp only [Bool.false_eq_true, if_false, Option.bind_eq_some_iff] at h
    obtain ⟨loadDone, hload, h⟩ := h
    cases loadDone with
    | true =>
      cases h
      exact .inr (.inl ⟨hexit, hload, rfl⟩)
    | false =>
      simp only [Bool.false_eq_true, if_false, Option.bind_eq_some_iff] at h
      obtain ⟨buf, hbuf, p, hp, i, hi, heq⟩ := h
      cases heq
      exact .inr (.inr ⟨hexit, hload, buf, p, i, hbuf, hp, hi, rfl⟩)

theorem RespPoint.out_outer {arg : Arg} {sdk : Sdk} {p : RespPoint} {mem : Globals}
    {r : RespPoint × Globals × List Shown} (h : p.mode = .outside)
    (houter : p.outer arg sdk mem = some r) : r.1.mode.Out := by
  cases p with
  | hot p =>
    cases p with
    | call callID data =>
      simp only [outer] at houter
      split at houter
      · rcases messagePass_cases houter with ⟨-, rfl⟩ | ⟨-, -, rfl⟩ | ⟨-, -, _, _, _, -, -, -, rfl⟩
        · dsimp only
          split <;> trivial
        · trivial
        · trivial
      · cases houter; trivial
    | left => cases houter; trivial
    | _ => cases h
  | quits i =>
    simp only [outer] at houter
    split at houter
    · obtain ⟨buf, -, heq⟩ := Option.bind_eq_some_iff.mp houter
      cases heq
      trivial
    · cases houter; trivial
  | check i job next =>
    simp only [outer] at houter
    split at houter <;> cases houter
    trivial
  | gone => cases houter; trivial
  | _ => cases h

/-- A worker answers a request, or it leaves its loop. -/
theorem WorkerPoint.outer_took_cases {arg : Arg} {sdk : Sdk} {t : Thread} {i : ℕ} {curJob : Job}
    {mem : Globals} {r : WorkerPoint × Globals × List Shown}
    (h : (took i curJob).outer arg sdk t mem = some r) :
    curJob.ptr ∈ mem.live ∧
      ((∃ out, request arg sdk mem.store curJob.rand curJob.buf = some (some out) ∧
          r = (.relock i curJob, { mem with store := out.store },
            (out.log.map Seen.event ++
              [Seen.answered i curJob out.cipher curJob.clientSock]).map Shown.seen)) ∨
        command curJob.buf = some .quit ∧ r = (.relockQuit i curJob, mem, []) ∨
        command curJob.buf = some .untyped ∧
          r = (.gone (some i), { mem with ended := t :: mem.ended },
            [.seen (.event (.print .untypedRequest))])) := by
  simp only [outer] at h
  split at h
  swap
  · cases h
  next hlive =>
  refine ⟨hlive, ?_⟩
  obtain ⟨c, hc, h⟩ := Option.bind_eq_some_iff.mp h
  cases c with
  | quit =>
    cases h
    exact .inr (.inl ⟨hc, rfl⟩)
  | untyped =>
    cases h
    exact .inr (.inr ⟨hc, rfl⟩)
  | _ =>
    obtain ⟨out?, hrequest, h⟩ := Option.bind_eq_some_iff.mp h
    obtain ⟨out, rfl, heq⟩ := Option.bind_eq_some_iff.mp h
    cases heq
    exact .inl ⟨out, hrequest, rfl⟩

theorem WorkerPoint.out_outer {arg : Arg} {sdk : Sdk} {t : Thread} {p : WorkerPoint} {mem : Globals}
    {r : WorkerPoint × Globals × List Shown} (h : p.mode = .outside)
    (houter : p.outer arg sdk t mem = some r) : r.1.mode.Out := by
  cases p with
  | took i curJob =>
    rcases (outer_took_cases houter).2 with ⟨out, -, rfl⟩ | ⟨-, rfl⟩ | ⟨-, rfl⟩ <;> trivial
  | destroy i => cases houter; trivial
  | gone i => cases houter; trivial
  | _ => cases h

end Modes

/-- The threads of the server. -/
def threads (arg : Arg) (sdk : Sdk) : Prog Lock Thread Stimulus Shown Globals ThreadPoint Guarded where
  mode := ThreadPoint.mode
  admits := ThreadPoint.admits
  entered := ThreadPoint.entered
  inner := ThreadPoint.inner
  left := fun _ => ThreadPoint.left
  outer := ThreadPoint.outer arg sdk
  within_entered := by
    intro k p h
    cases p with
    | main l => exact MainLoc.within_entered h
    | responder p => exact RespPoint.within_entered h
    | worker p => exact WorkerPoint.within_entered h
  within_inner := ThreadPoint.within_inner
  out_left := by
    intro t p mem r k h hleft
    cases p with
    | main l =>
      cases hleft
      exact MainLoc.out_left h
    | responder p =>
      obtain ⟨p', hp', rfl⟩ := Option.map_eq_some_iff.mp hleft
      exact RespPoint.out_left h hp'
    | worker p =>
      obtain ⟨r', hr', rfl⟩ := Option.map_eq_some_iff.mp hleft
      exact WorkerPoint.out_left h hr'
  out_outer := by
    intro t p mem stimulus r h houter
    cases p with
    | main l =>
      obtain ⟨r', hr', rfl⟩ := Option.map_eq_some_iff.mp houter
      exact MainLoc.out_outer h hr'
    | responder p =>
      obtain ⟨r', hr', rfl⟩ := Option.map_eq_some_iff.mp houter
      exact RespPoint.out_outer h hr'
    | worker p =>
      obtain ⟨r', hr', rfl⟩ := Option.map_eq_some_iff.mp houter
      exact WorkerPoint.out_outer h hr'

/-- The server when all threads are created. -/
def threadsInit (arg : Arg) : Conf Lock Thread Globals ThreadPoint Guarded where
  shared
    | .spin => HotCall.init ()
    | .global => (0 : ℕ)
    | .queue _ => (⟨[], .idle⟩ : JobQueue)
  env := ⟨enclaveInitValues arg, ⟨malloc arg.maxBufSize, 0, 0, 0⟩, 0, 0, [], [], []⟩
  loc
    | .main => .main ⟨0, 0, .select⟩
    | .responder => .responder (.hot .spin)
    | .worker n => .worker (if n < arg.numThreads then .start else .gone none)

/-- A thread moves `n` times, and nothing comes in. -/
def Thread.moves (t : Thread) (n : ℕ) : List (Thread × Stimulus) := List.replicate n (t, .nothing)

end ShieldStore
