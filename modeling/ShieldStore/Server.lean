import ShieldStore.Enclave
import ShieldStore.Lib.Run

/-!
# The server

The threads of the enclave: `enclave_message_pass`, which the responder runs for every
message that `main` hands in, and `enclave_worker_thread`.  Each worker has a queue of
jobs; the queues are locked, and a worker lets go of its lock while it serves a job.
So a worker moves in three steps, between which the others may move: it looks at the
front of its queue, it serves that job and sends the reply, and it pops the queue.

A job is an object of its own, `ptr` saying which.  The buffer of a job is served in
place and not read again, so that the copy in the queue is left as it was.  The random
counter block that an insert may draw comes with the message.

## Main definitions

* `enclaveMessagePass` — a message comes in.
* `takeFront`, `execute`, `popFront` — the three steps of a worker.
* `Act`, `serverStep` — the moves of the server.
-/

namespace ShieldStore

open Bytes Counter CMem

/-! ### States -/

/-- `struct job`. -/
structure Job where
  /-- Which object this is. -/
  ptr : ℕ
  buf : List UInt8
  clientSock : ℤ
  rand : Block
  deriving DecidableEq

/-- Where a worker is in its loop. -/
inductive Worker
  /-- At the top of the loop, with the lock or waiting for a signal. -/
  | ready
  /-- `cur_job` is the front of the queue, and the lock is free. -/
  | took (curJob : Job)
  /-- The job is served and the reply is sent. -/
  | replied (curJob : Job)
  /-- The thread has returned. -/
  | returned
  deriving DecidableEq

/-- The state the threads share, and where each worker is. -/
structure Server where
  store : Store
  queue : List (List Job)
  worker : List Worker
  exitCount : ℕ
  /-- The number of jobs allocated so far. -/
  allocs : ℕ
  deriving DecidableEq

/-- The server after `enclave_init_values`, with all workers started. -/
def Server.init (arg : Arg) : Server where
  store := enclaveInitValues arg
  queue := List.replicate arg.numThreads []
  worker := List.replicate arg.numThreads .ready
  exitCount := 0
  allocs := 0

/-- What can be seen of a move. -/
inductive Seen
  /-- A line of the log. -/
  | event (e : Event)
  /-- `message_return(cipher, max_buf_size, client_sock)` by the responder. -/
  | messageReturn (cipher : List UInt8) (clientSock : ℤ)
  /-- A job goes to the queue of a worker. -/
  | pushed (threadId : ℕ) (job : Job)
  /-- A worker has served a job and calls `message_return`. -/
  | answered (threadId : ℕ) (job : Job) (cipher : List UInt8) (clientSock : ℤ)
  /-- A worker pops the front of its queue. -/
  | popped (threadId : ℕ) (job : Job)
  deriving DecidableEq

/-! ### Messages -/

/-- `EcallParams`, with the counter block that an insert draws. -/
structure EcallParams where
  buf : List UInt8
  clientSock : ℤ
  numClients : ℕ
  rand : Block
  deriving DecidableEq

/-- `queue[i].push(new_job)`. -/
def Server.push (st : Server) (i : ℕ) (buf : List UInt8) (clientSock : ℤ) (rand : Block) :
    Option (Server × List Seen) := do
  let jobs ← st.queue[i]?
  let newJob : Job := ⟨st.allocs, buf, clientSock, rand⟩
  return ({ st with queue := st.queue.set i (jobs ++ [newJob]), allocs := st.allocs + 1 },
    [.pushed i newJob])

/-- The buffer of a quit job. -/
def quitBuf (arg : Arg) : Option (List UInt8) :=
  memcpy (malloc arg.maxBufSize) 0 (lit ['q', 'u', 'i', 't']) 4

/-- A quit job for one worker. -/
def pushQuit (arg : Arg) (acc : Server × List Seen) (i : ℕ) : Option (Server × List Seen) := do
  let buf ← quitBuf arg
  let (st, seen) ← acc.1.push i buf (-1) 0
  return (st, acc.2 ++ seen)

/-- The loop that sends a quit job to every worker. -/
def pushQuits (arg : Arg) (st : Server) : Option (Server × List Seen) :=
  (List.range arg.numThreads).foldlM (pushQuit arg) (st, [])

/-- `thread_id`: the worker of a key. -/
def threadId (arg : Arg) (key : List UInt8) : Option ℕ :=
  -- division by zero has no defined behaviour
  if arg.bucketSize / arg.numThreads = 0 then none
  else some (htHash arg key / (arg.bucketSize / arg.numThreads))

/-- `enclave_message_pass`. -/
def enclaveMessagePass (arg : Arg) (sdk : Sdk) (st : Server) (params : EcallParams) :
    Option (Server × List Seen) := do
  let cipher := params.buf
  if ← startsWith cipher (lit ['E', 'X', 'I', 'T']) (lit ['e', 'x', 'i', 't']) 4 then
    let st := { st with exitCount := st.exitCount + 1 }
    if st.exitCount = params.numClients then
      let (st, seen) ← pushQuits arg st
      return (st, .messageReturn cipher params.clientSock ::
        .event (.print .allThreadsFinished) :: seen)
    else return (st, [.messageReturn cipher params.clientSock])
  else if ← strncmp cipher (lit ['L', 'O', 'A', 'D', 'D', 'O', 'N', 'E']) 8 then
    return (st, [.event (.print .loadProcessDone), .messageReturn cipher params.clientSock])
  else
    let buf ← memcpy (malloc arg.maxBufSize) 0 cipher arg.maxBufSize
    let p ← parseKey sdk cipher
    let i ← threadId arg p.key
    st.push i buf params.clientSock params.rand

/-! ### Workers -/

/-- The worker looks at the front of its queue; if there is none, it waits. -/
def takeFront (st : Server) (i : ℕ) : Server :=
  match st.worker[i]?, st.queue[i]? with
  | some .ready, some (curJob :: _) => { st with worker := st.worker.set i (.took curJob) }
  | _, _ => st

/-- `queue[thread_id].pop()`, with the worker's next place in its loop.  Popping an
empty queue has no defined behaviour. -/
def Server.pop (st : Server) (i : ℕ) (next : Worker) : Option (Server × List Seen) :=
  match st.queue[i]? with
  | some (front :: jobs) =>
      some ({ st with queue := st.queue.set i jobs, worker := st.worker.set i next },
        [.popped i front])
  | _ => none

/-- The worker serves the job it has taken. -/
def execute (arg : Arg) (sdk : Sdk) (st : Server) (i : ℕ) : Option (Server × List Seen) :=
  match st.worker[i]? with
  | some (.took curJob) => do
      match ← command curJob.buf with
      | .get | .set | .append =>
          let r ← request arg sdk st.store curJob.rand curJob.buf
          let out ← r
          return ({ st with store := out.store, worker := st.worker.set i (.replied curJob) },
            out.log.map .event ++ [.answered i curJob out.cipher curJob.clientSock])
      | .quit => st.pop i .returned
      | .untyped =>
          -- the loop is left, with the job still in the queue
          return ({ st with worker := st.worker.set i .returned },
            [.event (.print .untypedRequest)])
  | _ => some (st, [])

/-- The worker pops its queue. -/
def popFront (st : Server) (i : ℕ) : Option (Server × List Seen) :=
  match st.worker[i]? with
  | some (.replied _) => st.pop i .ready
  | _ => some (st, [])

/-! ### Moves -/

/-- The moves of the server.  A worker that is not at the place the move starts from
stays where it is. -/
inductive Act
  | pass (params : EcallParams)
  | take (threadId : ℕ)
  | exec (threadId : ℕ)
  | pop (threadId : ℕ)
  deriving DecidableEq

/-- One move. -/
def serverStep (arg : Arg) (sdk : Sdk) (st : Server) : Act → Option (Server × List Seen)
  | .pass params => enclaveMessagePass arg sdk st params
  | .take i => some (takeFront st i, [])
  | .exec i => execute arg sdk st i
  | .pop i => popFront st i

end ShieldStore
