import Mathlib.Data.Finset.Card
import Mathlib.Data.Finset.Range
import ShieldStore.Shutdown
import ShieldStore.Steps

/-!
# What the server shows

The threads with their locks, compared with the server of `App` and `Server`, which
handles a message in one step and in which a worker moves in three.  Seen from outside
there is one thing that `App` does not have: `main` takes a message off its socket, and
the message reaches the enclave later, when the responder has found it in the `HotCall`.

A message counts as handled when the responder begins with it.  The jobs it makes are
pushed one by one after that, so that the queues here are behind by those that the
responder has still to push.

## Main definitions

* `Front`, `frontStep` — the server in big steps, and the message that `main` hands in.
* `Phase` — how far a message is, from `main` to the responder and back.
* `Queues`, `Crew` — the queues with what is still to be pushed, and the workers.
* `Sim` — a state of the threads, and the state in big steps that it stands for.

## Main results

* `Sim.step` — one section.
* `threads_refine_front` — whatever the threads show, the server in big steps can show.
-/

namespace ShieldStore

open Bytes Counter CMem Sections Function Run

/-! ### The server in big steps -/

/-- What is seen of it. -/
def visible (seen : List Seen) : List Shown :=
  seen.filterMap fun
    | .pushed _ _ | .popped _ _ => none
    | s => some (.seen s)

/-- The server, and the input that `main` has in its hands. -/
structure Front where
  app : App
  pending : Option Input
  deriving DecidableEq

/-- `main` at the head of its loop. -/
def Front.init (arg : Arg) : Front := ⟨App.init arg, none⟩

/-- The moves. -/
inductive FrontAct
  /-- `select` reports a descriptor. -/
  | receive (input : Input)
  /-- The input is handled, in the enclave if it is a message. -/
  | handle
  | take (threadId : ℕ)
  | exec (threadId : ℕ)
  | pop (threadId : ℕ)
  deriving DecidableEq

/-- A move of the server behind `main`. -/
def Front.serve (st : Front) (r : Server × List Seen) : Front × List Shown :=
  ({ st with app := { st.app with server := r.1 } }, visible r.2)

/-- One move.  What cannot be done is not done. -/
def frontStep (arg : Arg) (sdk : Sdk) (st : Front) : FrontAct → Option (Front × List Shown)
  | .receive input =>
      if st.pending = none ∧ st.app.place = .select then
        some ({ st with pending := some input }, [.received input])
      else some (st, [])
  | .handle =>
      match st.pending with
      | none => some (st, [])
      | some input => (selectStep arg sdk st.app input).map fun r => (⟨r.1, none⟩, visible r.2)
  | .take i => some (st.serve (takeFront st.app.server i, []))
  | .exec i => (execute arg sdk st.app.server i).map st.serve
  | .pop i => (popFront st.app.server i).map st.serve

/-! ### Messages -/

theorem readBuf_length (arg : Arg) (text : List UInt8) : arg.maxBufSize ≤ (readBuf arg text).length := by
  simp only [readBuf, List.length_append, List.length_replicate]
  omega

/-- `main` hands a message in, and looks at it once more when the call has returned. -/
theorem selectStep_afterCall {arg : Arg} {sdk : Sdk} {app : App} (hplace : app.place = .select)
    (sock : ℤ) (text : List UInt8) (rand : Block) :
    selectStep arg sdk app (.message sock text rand) =
      (enclaveMessagePass arg sdk app.server ⟨readBuf arg text, sock, app.numClients, rand⟩).bind
        fun r => (afterCall (readBuf arg text) app.numConnection).map fun a =>
          ({ app with server := r.1, numConnection := a.1, place := if a.2 then .left else .select },
            r.2) := by
  unfold selectStep afterCall
  rw [if_pos hplace]
  dsimp only
  cases enclaveMessagePass arg sdk app.server ⟨readBuf arg text, sock, app.numClients, rand⟩ with
  | none => rfl
  | some r =>
    cases strncmp (readBuf arg text) (lit ['L', 'O', 'A', 'D', 'D', 'O', 'N', 'E']) 9 with
    | none => rfl
    | some loadDone =>
      cases strncmp (readBuf arg text) (lit ['E', 'X', 'I', 'T']) 4 with
      | none => rfl
      | some exit => simp

/-- A message can be looked at. -/
theorem exists_afterCall {buf : List UInt8} (hbuf : 9 ≤ buf.length) (numConnection : ℤ) :
    ∃ a, afterCall buf numConnection = some a := by
  obtain ⟨loadDone, hload⟩ := exists_strncmp (t := lit ['L', 'O', 'A', 'D', 'D', 'O', 'N', 'E']) hbuf
    (by simp [lit])
  obtain ⟨exit, hexit⟩ := exists_strncmp (s := buf) (t := lit ['E', 'X', 'I', 'T']) (n := 4) (by omega)
    (by simp [lit])
  unfold afterCall
  simp [hload, hexit]

/-- A request may be cut, `main` does not see it. -/
theorem afterCall_request {sdk : Sdk} {buf : List UInt8} {p : ParsedKey}
    (hexit : startsWith buf (lit ['E', 'X', 'I', 'T']) (lit ['e', 'x', 'i', 't']) 4 = some false)
    (hload : strncmp buf (lit ['L', 'O', 'A', 'D', 'D', 'O', 'N', 'E']) 8 = some false)
    (hp : parseKey sdk buf = some p) (numConnection : ℤ) :
    afterCall buf numConnection = some (numConnection, false) ∧
      afterCall p.cipher numConnection = some (numConnection, false) := by
  -- `strtok_r` writes a terminator over a space, and over nothing else
  have hcut : Cut 0x20 buf p.cipher := by
    unfold parseKey at hp
    simp only [Option.bind_eq_bind, Option.bind_eq_some_iff] at hp
    obtain ⟨tok, htok, t, rfl, ⟨key, keySize⟩, -, heq⟩ := hp
    cases heq
    have hcut : Cut 0x20 (buf.take 4 ++ buf.drop 4) (buf.take 4 ++ t.text) :=
      List.rel_append (Cut.refl 0x20 (buf.take 4)) (cut_of_strtokR htok)
    rwa [List.take_append_drop] at hcut
  -- `main` compares one character more than the enclave
  have hload9 : ∀ {b : List UInt8}, strncmp b (lit ['L', 'O', 'A', 'D', 'D', 'O', 'N', 'E']) 8 = some false →
      strncmp b (lit ['L', 'O', 'A', 'D', 'D', 'O', 'N', 'E']) 9 = some false :=
    strncmp_of_le (by decide)
  have hexit4 : strncmp buf (lit ['E', 'X', 'I', 'T']) 4 = some false := by
    obtain ⟨exit, hexit', h⟩ := Option.bind_eq_some_iff.mp hexit
    cases exit with
    | false => exact hexit'
    | true => cases h
  have hexitCut := hcut.strncmp_eq (by decide) (by decide) hexit4
  have hloadCut := hcut.strncmp_eq (by decide) (by decide) hload
  unfold afterCall
  simp [hexit4, hexitCut, hload9 hload, hload9 hloadCut]

section Pass

variable (arg : Arg) (sdk : Sdk) (server : Server) {params : EcallParams}

theorem enclaveMessagePass_exit
    (hexit : startsWith params.buf (lit ['E', 'X', 'I', 'T']) (lit ['e', 'x', 'i', 't']) 4 = some true) :
    enclaveMessagePass arg sdk server params =
      if server.exitCount + 1 = params.numClients then
        (pushQuits arg { server with exitCount := server.exitCount + 1 }).map fun r =>
          (r.1, .messageReturn params.buf params.clientSock ::
            .event (.print .allThreadsFinished) :: r.2)
      else some ({ server with exitCount := server.exitCount + 1 },
        [.messageReturn params.buf params.clientSock]) := by
  unfold enclaveMessagePass
  simp only [hexit, Option.bind_eq_bind, Option.bind_some, if_true]
  split
  · cases pushQuits arg { server with exitCount := server.exitCount + 1 } <;> rfl
  · rfl

variable
  (hexit : startsWith params.buf (lit ['E', 'X', 'I', 'T']) (lit ['e', 'x', 'i', 't']) 4 = some false)

include hexit

theorem enclaveMessagePass_load
    (hload : strncmp params.buf (lit ['L', 'O', 'A', 'D', 'D', 'O', 'N', 'E']) 8 = some true) :
    enclaveMessagePass arg sdk server params = some (server,
      [.event (.print .loadProcessDone), .messageReturn params.buf params.clientSock]) := by
  unfold enclaveMessagePass
  simp [hexit, hload]

theorem enclaveMessagePass_request
    (hload : strncmp params.buf (lit ['L', 'O', 'A', 'D', 'D', 'O', 'N', 'E']) 8 = some false)
    {buf : List UInt8} {p : ParsedKey} {i : ℕ}
    (hbuf : memcpy (malloc arg.maxBufSize) 0 params.buf arg.maxBufSize = some buf)
    (hp : parseKey sdk params.buf = some p) (hi : threadId arg p.key = some i) :
    enclaveMessagePass arg sdk server params = server.push i buf params.clientSock params.rand := by
  unfold enclaveMessagePass
  simp [hexit, hload, hbuf, hp, hi]

end Pass

theorem threadId_lt {arg : Arg} (ha : arg.Threaded) {key : List UInt8} {i : ℕ}
    (h : threadId arg key = some i) : i < arg.numThreads := by
  unfold threadId at h
  rw [if_neg ha.perThread_pos.ne'] at h
  cases h
  exact (Pieces.forall_div_lt_iff ha.thread_pos (Nat.le_of_dvd ha.bucket_pos ha.thread_dvd_bucket)).mpr
    ha.thread_dvd_bucket _ (Arg.Valid.htHash_lt ha.bucket_pos key)

/-! ### Jobs that are still to be pushed -/

/-- The quit jobs for the workers `is`, as they will be allocated. -/
def quitJobs (buf : List UInt8) : ℕ → List ℕ → List (ℕ × Job)
  | _, [] => []
  | allocs, i :: is => (i, ⟨allocs, buf, -1, 0⟩) :: quitJobs buf (allocs + 1) is

/-- The workers that the loop over them has still to come to. -/
def restFrom (arg : Arg) : Option ℕ → List ℕ
  | some i => List.range' i (arg.numThreads - i)
  | none => []

/-- The workers whose quit jobs are still to be allocated. -/
def RespPoint.rest (arg : Arg) : RespPoint → List ℕ
  | .quits i => restFrom arg (some i)
  | .check _ _ next | .lock _ _ next => restFrom arg next
  | _ => []

/-- The jobs that the responder has still to push. -/
def RespPoint.pending (arg : Arg) (buf : List UInt8) (allocs : ℕ) : RespPoint → List (ℕ × Job)
  | .check i job next | .lock i job next => (i, job) :: quitJobs buf allocs (restFrom arg next)
  | p => quitJobs buf allocs (p.rest arg)

/-- The jobs for one worker. -/
def jobsFor (i : ℕ) (jobs : List (ℕ × Job)) : List Job :=
  (jobs.filter fun p => p.1 = i).map Prod.snd

@[simp] theorem jobsFor_nil (i : ℕ) : jobsFor i [] = [] := rfl

theorem jobsFor_cons (i : ℕ) (p : ℕ × Job) (jobs : List (ℕ × Job)) :
    jobsFor i (p :: jobs) = if p.1 = i then p.2 :: jobsFor i jobs else jobsFor i jobs := by
  unfold jobsFor
  rw [List.filter_cons]
  by_cases h : p.1 = i <;> simp [h]

theorem restFrom_of_lt {arg : Arg} {i : ℕ} (h : i < arg.numThreads) :
    restFrom arg (some i) = i :: restFrom arg (some (i + 1)) := by
  have hlen : arg.numThreads - i = arg.numThreads - (i + 1) + 1 := by omega
  simp only [restFrom]
  rw [hlen, List.range'_succ]

theorem restFrom_of_le {arg : Arg} {i : ℕ} (h : arg.numThreads ≤ i) : restFrom arg (some i) = [] := by
  simp [restFrom, h]

theorem restFrom_zero (arg : Arg) : restFrom arg (some 0) = List.range arg.numThreads := by
  simp [restFrom, List.range_eq_range']

theorem visible_append (seen new : List Seen) : visible (seen ++ new) = visible seen ++ visible new :=
  List.filterMap_append

/-- The loop over the workers, in big steps. -/
theorem exists_foldlM_pushQuit {arg : Arg} {buf : List UInt8} (hquit : quitBuf arg = some buf) :
    ∀ (is : List ℕ) (st : Server) (seen : List Seen), (∀ i ∈ is, i < st.queue.length) →
      ∃ queue new, is.foldlM (pushQuit arg) (st, seen) =
          some ({ st with queue, allocs := st.allocs + is.length }, seen ++ new) ∧ visible new = [] ∧
        queue.length = st.queue.length ∧
        ∀ i, queue[i]? = st.queue[i]?.map (· ++ jobsFor i (quitJobs buf st.allocs is)) := by
  intro is
  induction is with
  | nil =>
    intro st seen _
    exact ⟨st.queue, [], by simp, rfl, rfl, by simp [quitJobs]⟩
  | cons i is ih =>
    intro st seen hlt
    have hi := hlt i List.mem_cons_self
    have hpush : pushQuit arg (st, seen) i = some
        ({ st with
            queue := st.queue.set i (st.queue[i] ++ [⟨st.allocs, buf, -1, 0⟩])
            allocs := st.allocs + 1 },
          seen ++ [.pushed i ⟨st.allocs, buf, -1, 0⟩]) := by
      simp [pushQuit, hquit, Server.push, List.getElem?_eq_getElem hi]
    obtain ⟨queue, new, hrun, hnew, hlen, hqueue⟩ := ih
      { st with
          queue := st.queue.set i (st.queue[i] ++ [⟨st.allocs, buf, -1, 0⟩])
          allocs := st.allocs + 1 }
      (seen ++ [.pushed i ⟨st.allocs, buf, -1, 0⟩])
      (fun j hj => by simpa using hlt j (List.mem_cons_of_mem _ hj))
    refine ⟨queue, .pushed i ⟨st.allocs, buf, -1, 0⟩ :: new, ?_, ?_, by simpa using hlen, ?_⟩
    · rw [List.foldlM_cons, hpush, Option.bind_eq_bind, Option.bind_some, hrun]
      simp [Nat.add_comm, Nat.add_left_comm]
    · rw [← hnew]
      rfl
    · intro j
      rw [hqueue, quitJobs, jobsFor_cons]
      -- the queue of this worker has one job more, the others come later
      rcases eq_or_ne i j with rfl | hne
      · rw [List.getElem?_set_self hi, List.getElem?_eq_getElem hi]
        simp
      · simp [hne]

/-! ### How far a message is -/

/-- No call is under way, and the responder is looking for one if it has not been
stopped. -/
structure Rests (responder : RespPoint) (hotCall : HotCall Unit) : Prop where
  busy : hotCall.busy = false
  run : hotCall.runFunction = false
  responder : responder = .hot .spin ∨
    hotCall.keepPolling = false ∧ (responder = .hot .left ∨ responder = .gone)

/-- `main` waits for its call. -/
structure Called (main : MainLoc) (hotCall : HotCall Unit) : Prop where
  main : main.point = .request ⟨0, (), 0, .spinAgain⟩
  busy : hotCall.busy = true
  callID : hotCall.callID = 0
  polling : hotCall.keepPolling = true

/-- The counters of `main`. -/
structure Counters where
  numConnection : ℤ
  numClients : ℕ
  place : Place

/-- The counters before a message is handled. -/
def Counters.Before (k : Counters) (main : MainLoc) : Prop :=
  k = ⟨main.numConnection, main.numClients, .select⟩

/-- The counters after a message is handled, of which `main` does not know yet. -/
def Counters.After (k : Counters) (main : MainLoc) (buf : List UInt8) : Prop :=
  ∃ a, afterCall buf main.numConnection = some a ∧
    k = ⟨a.1, main.numClients, if a.2 then .left else .select⟩

/-- `main` has put its message where the responder finds it. -/
def Asked (arg : Arg) (main : MainLoc) (params : EcallParams) (pending : Option Input) : Prop :=
  ∃ sock text rand, pending = some (.message sock text rand) ∧
    params = ⟨readBuf arg text, sock, main.numClients, rand⟩

/-- The responder is at work on a message. -/
def RespPoint.Passing : RespPoint → Prop
  | .quits _ | .check _ _ _ | .lock _ _ _ | .hot .spinDone => True
  | _ => False

/-- `main` has left its loop. -/
def MainPoint.Gone : MainPoint → Prop
  | .stop .returned | .join _ | .done => True
  | _ => False

/-- How far a message is, from `main` to the responder and back. -/
inductive Phase (arg : Arg) (main : MainLoc) (responder : RespPoint) (hotCall : HotCall Unit)
    (params : EcallParams) (k : Counters) (pending : Option Input) : Prop
  | select (hmain : main.point = .select) (hrest : Rests responder hotCall)
      (hpoll : hotCall.keepPolling = true) (hk : k.Before main) (hpending : pending = none)
  | asks (hmain : main.point = .request ⟨0, (), 0, .spin⟩) (hrest : Rests responder hotCall)
      (hpoll : hotCall.keepPolling = true) (hk : k.Before main) (hasked : Asked arg main params pending)
  | waits (hcalled : Called main hotCall) (hrun : hotCall.runFunction = true)
      (hdone : hotCall.isDone = false)
      (hresponder : responder = .hot .spin ∨ responder = .hot (.call 0 ())) (hk : k.Before main)
      (hasked : Asked arg main params pending)
  | passes (hcalled : Called main hotCall) (hrun : hotCall.runFunction = true)
      (hdone : hotCall.isDone = false) (hresponder : responder.Passing)
      (hk : k.After main params.buf) (hpending : pending = none)
  | finished (hcalled : Called main hotCall) (hrun : hotCall.runFunction = false)
      (hdone : hotCall.isDone = true) (hresponder : responder = .hot .spin)
      (hk : k.After main params.buf) (hpending : pending = none)
  | returned {result : ℤ} (hmain : main.point = .returned result) (hrest : Rests responder hotCall)
      (hpoll : hotCall.keepPolling = true) (hk : k.After main params.buf) (hpending : pending = none)
  | closing (hmain : main.point = .stop .spin) (hrest : Rests responder hotCall)
      (hpoll : hotCall.keepPolling = true) (hk : k.place = .left) (hpending : pending = none)
  | gone (hmain : main.point.Gone) (hrest : Rests responder hotCall)
      (hpoll : hotCall.keepPolling = false) (hk : k.place = .left) (hpending : pending = none)
  | exited (hmain : main.point = .exited) (hrest : Rests responder hotCall)
      (hpoll : hotCall.keepPolling = true) (hk : k.place = .exited) (hpending : pending = none)

/-! ### The queues and the workers -/

/-- The queues, and what the responder has still to push. -/
structure Queues (arg : Arg) (buf : List UInt8) (queue : ℕ → JobQueue) (allocs : ℕ)
    (responder : RespPoint) (queue' : List (List Job)) (allocs' : ℕ) : Prop where
  length : queue'.length = arg.numThreads
  allocated : allocs' = allocs + (responder.rest arg).length
  jobs : ∀ i < arg.numThreads,
    queue'[i]? = some ((queue i).jobs ++ jobsFor i (responder.pending arg buf allocs))

/-- The number that a worker has taken. -/
def WorkerPoint.threadId : WorkerPoint → Option ℕ
  | .start | .readNum => none
  | .bumpNum i | .unlockGlobal i | .lock i | .top i _ | .wait i _ | .sleep i _ | .asleep i | .woke i
  | .unlock i _ _ | .took i _ | .relock i _ | .pop i _ | .relockQuit i _ | .popQuit i _
  | .unlockQuit i _ | .destroy i => some i
  | .gone i => i

/-- Where a worker is, between its sections. -/
inductive WorkerAt (workers : List Worker) (num : ℕ) : WorkerPoint → Prop
  | start : WorkerAt workers num .start
  | nobody : WorkerAt workers num (.gone none)
  | lock {i : ℕ} (hi : i < num) (h : workers[i]? = some .ready) : WorkerAt workers num (.lock i)
  | asleep {i : ℕ} (hi : i < num) (h : workers[i]? = some .ready) : WorkerAt workers num (.asleep i)
  | took {i : ℕ} {job : Job} (hi : i < num) (h : workers[i]? = some (.took job)) :
      WorkerAt workers num (.took i job)
  | relock {i : ℕ} {job : Job} (hi : i < num) (h : workers[i]? = some (.replied job)) :
      WorkerAt workers num (.relock i job)
  | relockQuit {i : ℕ} {job : Job} (hi : i < num) (h : workers[i]? = some (.took job))
      (hquit : command job.buf = some .quit) : WorkerAt workers num (.relockQuit i job)
  | destroy {i : ℕ} (hi : i < num) (h : workers[i]? = some .returned) :
      WorkerAt workers num (.destroy i)
  | gone {i : ℕ} (hi : i < num) (h : workers[i]? = some .returned) :
      WorkerAt workers num (.gone (some i))

/-- The workers. -/
structure Crew (arg : Arg) (num : ℕ) (worker : ℕ → WorkerPoint) (workers : List Worker) : Prop where
  length : workers.length = arg.numThreads
  nobody : ∀ n, arg.numThreads ≤ n → worker n = .gone none
  points : ∀ n, WorkerAt workers num (worker n)
  inj : ∀ {n n' i}, (worker n).threadId = some i → (worker n').threadId = some i → n = n'
  owner : ∀ i < num, ∃ n, (worker n).threadId = some i
  fresh : ∀ i, num ≤ i → i < arg.numThreads → workers[i]? = some .ready

def App.counters (app : App) : Counters := ⟨app.numConnection, app.numClients, app.place⟩

/-- A state of the threads, and the state in big steps that it stands for. -/
structure Sim (arg : Arg) (buf : List UInt8) (s : Snapshot) (st : Front) : Prop where
  store : st.app.server.store = s.mem.store
  exitCount : st.app.server.exitCount = s.mem.exitCount
  queues : Queues arg buf s.queue s.mem.allocs s.responder st.app.server.queue st.app.server.allocs
  crew : Crew arg s.num s.worker st.app.server.worker
  stage : Phase arg s.main s.responder s.hotCall s.mem.params st.app.counters st.pending

theorem Sim.init (arg : Arg) (buf : List UInt8) : Sim arg buf (Snapshot.init arg) (Front.init arg) where
  store := rfl
  exitCount := rfl
  queues := by
    constructor
    · simp [Front.init, App.init, Server.init]
    · rfl
    · intro i hi
      simp [Front.init, App.init, Server.init, Snapshot.init, RespPoint.pending, RespPoint.rest,
        quitJobs, hi]
  crew := by
    constructor
    · simp [Front.init, App.init, Server.init]
    · intro n hn
      simp [Snapshot.init, hn]
    · intro n
      by_cases hn : n < arg.numThreads
      · simpa [Snapshot.init, hn] using WorkerAt.start
      · simpa [Snapshot.init, hn] using WorkerAt.nobody
    · intro n n' i hn
      by_cases hlt : n < arg.numThreads <;> simp [Snapshot.init, hlt, WorkerPoint.threadId] at hn
    · intro i hi
      exact absurd hi (Nat.not_lt_zero i)
    · intro i _ hi
      simp [Front.init, App.init, Server.init, hi]
  stage := .select rfl ⟨rfl, rfl, .inl rfl⟩ rfl rfl rfl

/-! ### Moves in big steps -/

/-- The server in big steps goes from one state to another and shows `os`. -/
def Front.Goes (arg : Arg) (sdk : Sdk) (st : Front) (os : List Shown) (st' : Front) : Prop :=
  ∃ acts oss, run (frontStep arg sdk) st acts = some (st', oss) ∧ oss.flatten = os

section Goes

variable {arg : Arg} {sdk : Sdk} {st st₁ st₂ : Front} {os os' : List Shown}

theorem Front.Goes.refl : st.Goes arg sdk [] st := ⟨[], [], rfl, rfl⟩

theorem Front.Goes.one (act : FrontAct) (h : frontStep arg sdk st act = some (st₁, os)) :
    st.Goes arg sdk os st₁ :=
  ⟨[act], [os], run_cons_eq_some_iff.mpr ⟨_, h, rfl⟩, by simp⟩

theorem Front.Goes.trans (h : st.Goes arg sdk os st₁) (h' : st₁.Goes arg sdk os' st₂) :
    st.Goes arg sdk (os ++ os') st₂ := by
  obtain ⟨acts, oss, hrun, rfl⟩ := h
  obtain ⟨acts', oss', hrun', rfl⟩ := h'
  exact ⟨acts ++ acts', oss ++ oss', run_trans hrun hrun', List.flatten_append⟩

/-- `main` takes an input off its socket. -/
theorem Front.goes_receive (hpending : st.pending = none) (hplace : st.app.place = .select)
    (input : Input) : st.Goes arg sdk [.received input] { st with pending := some input } :=
  .one (.receive input) (if_pos ⟨hpending, hplace⟩)

/-- An input is handled. -/
theorem Front.goes_handle {input : Input} {app : App} {seen : List Seen}
    (hpending : st.pending = some input) (h : selectStep arg sdk st.app input = some (app, seen)) :
    st.Goes arg sdk (visible seen) ⟨app, none⟩ := by
  refine .one .handle ?_
  simp [frontStep, hpending, h]

/-- `main` takes an input and handles it. -/
theorem Front.goes_input (hpending : st.pending = none) {input : Input} {app : App} {seen : List Seen}
    (hplace : st.app.place = .select) (h : selectStep arg sdk st.app input = some (app, seen)) :
    st.Goes arg sdk (.received input :: visible seen) ⟨app, none⟩ :=
  (goes_receive hpending hplace input).trans
    (show Front.Goes arg sdk { st with pending := some input } _ _ from goes_handle rfl h)

/-- A worker serves its job. -/
theorem Front.goes_exec {i : ℕ} {server : Server} {seen : List Seen}
    (h : execute arg sdk st.app.server i = some (server, seen)) :
    st.Goes arg sdk (visible seen) { st with app := { st.app with server } } := by
  refine .one (.exec i) ?_
  rw [frontStep, h]
  rfl

/-- A worker pops its queue. -/
theorem Front.goes_pop {i : ℕ} {server : Server} {seen : List Seen}
    (h : popFront st.app.server i = some (server, seen)) :
    st.Goes arg sdk (visible seen) { st with app := { st.app with server } } := by
  refine .one (.pop i) ?_
  rw [frontStep, h]
  rfl

end Goes

/-! ### The workers -/

section Crew

variable {arg : Arg} {num : ℕ} {worker : ℕ → WorkerPoint} {workers workers' : List Worker}
  {p p' : WorkerPoint} {n i : ℕ}

theorem WorkerAt.lt (h : WorkerAt workers num p) (hid : p.threadId = some i) : i < num := by
  cases h <;> cases hid <;> assumption

theorem WorkerAt.frame (h : WorkerAt workers num p) {num' : ℕ} (hnum : num ≤ num')
    (hworkers : ∀ i, p.threadId = some i → workers'[i]? = workers[i]?) : WorkerAt workers' num' p := by
  cases h with
  | start => exact .start
  | nobody => exact .nobody
  | lock hi h => exact .lock (hi.trans_le hnum) ((hworkers _ rfl).trans h)
  | asleep hi h => exact .asleep (hi.trans_le hnum) ((hworkers _ rfl).trans h)
  | took hi h => exact .took (hi.trans_le hnum) ((hworkers _ rfl).trans h)
  | relock hi h => exact .relock (hi.trans_le hnum) ((hworkers _ rfl).trans h)
  | relockQuit hi h hquit => exact .relockQuit (hi.trans_le hnum) ((hworkers _ rfl).trans h) hquit
  | destroy hi h => exact .destroy (hi.trans_le hnum) ((hworkers _ rfl).trans h)
  | gone hi h => exact .gone (hi.trans_le hnum) ((hworkers _ rfl).trans h)

variable (h : Crew arg num worker workers)

include h

/-- A worker with a number is one of those that were created. -/
theorem Crew.lt_of_threadId (hid : (worker n).threadId = some i) : n < arg.numThreads := by
  by_contra hn
  rw [h.nobody n (Nat.le_of_not_lt hn)] at hid
  cases hid

/-- A worker goes on. -/
theorem Crew.move (hid : (worker n).threadId = some i) (hid' : p'.threadId = some i)
    (hlen : workers'.length = workers.length)
    (hworkers : ∀ i', i' ≠ i → workers'[i']? = workers[i']?) (hp : WorkerAt workers' num p') :
    Crew arg num (update worker n p') workers' := by
  have hn := h.lt_of_threadId hid
  have hi := (h.points n).lt hid
  -- no worker changes its number
  have hids : ∀ n', (update worker n p' n').threadId = (worker n').threadId := by
    intro n'
    rcases eq_or_ne n' n with rfl | hne
    · rw [update_self, hid, hid']
    · rw [update_of_ne hne]
  constructor
  · exact hlen.trans h.length
  · intro n' hn'
    rw [update_of_ne (by omega)]
    exact h.nobody n' hn'
  · intro n'
    rcases eq_or_ne n' n with rfl | hne
    · rwa [update_self]
    · rw [update_of_ne hne]
      -- the others do not look at this worker, for the numbers differ
      refine (h.points n').frame le_rfl fun i' hi' => hworkers i' ?_
      rintro rfl
      exact hne (h.inj hi' hid)
  · intro n₁ n₂ i' h₁ h₂
    rw [hids] at h₁ h₂
    exact h.inj h₁ h₂
  · intro i' hi'
    obtain ⟨n', hn'⟩ := h.owner i' hi'
    exact ⟨n', (hids n').trans hn'⟩
  · intro i' hnum hlt
    rw [hworkers i' (by omega)]
    exact h.fresh i' hnum hlt

/-- As long as a worker has not started, a number is left for it. -/
theorem Crew.num_lt (hstart : worker n = .start) : num < arg.numThreads := by
  have hn : n < arg.numThreads := by
    by_contra hn
    rw [h.nobody n (Nat.le_of_not_lt hn)] at hstart
    cases hstart
  by_contra hle
  have howner : ∀ i, ∃ n', i < arg.numThreads → (worker n').threadId = some i := by
    intro i
    by_cases hi : i < arg.numThreads
    · obtain ⟨n', hn'⟩ := h.owner i (by omega)
      exact ⟨n', fun _ => hn'⟩
    · exact ⟨0, fun hlt => absurd hlt hi⟩
  choose owner howner using howner
  -- the owners of the numbers are all different, and none of them is the worker
  have hcard : (Finset.range arg.numThreads).card ≤ ((Finset.range arg.numThreads).erase n).card := by
    apply Finset.card_le_card_of_injOn owner
    · intro i hi
      have hid := howner i (Finset.mem_range.mp hi)
      refine Finset.mem_coe.mpr (Finset.mem_erase.mpr ⟨?_, Finset.mem_range.mpr (h.lt_of_threadId hid)⟩)
      rintro heq
      rw [heq, hstart] at hid
      cases hid
    · intro i hi j hj heq
      have hid := howner i (Finset.mem_range.mp hi)
      have hjd := howner j (Finset.mem_range.mp hj)
      rw [heq, hjd] at hid
      exact (Option.some.inj hid).symm
  rw [Finset.card_erase_of_mem (Finset.mem_range.mpr hn), Finset.card_range] at hcard
  omega

/-- A worker starts. -/
theorem Crew.start (hstart : worker n = .start) :
    Crew arg (num + 1) (update worker n (.lock num)) workers := by
  have hlt := h.num_lt hstart
  constructor
  · exact h.length
  · intro n' hn'
    rcases eq_or_ne n' n with rfl | hne
    · rw [h.nobody n' hn'] at hstart
      cases hstart
    · rw [update_of_ne hne]
      exact h.nobody n' hn'
  · intro n'
    rcases eq_or_ne n' n with rfl | hne
    · rw [update_self]
      exact .lock (Nat.lt_succ_self num) (h.fresh num le_rfl hlt)
    · rw [update_of_ne hne]
      exact (h.points n').frame (Nat.le_succ num) fun _ _ => rfl
  · -- the number of the worker is a new one
    have hnew : ∀ {n' i}, n' ≠ n → (worker n').threadId = some i → i ≠ num :=
      fun _ hid => ((h.points _).lt hid).ne
    intro n₁ n₂ i h₁ h₂
    rcases eq_or_ne n₁ n with rfl | hne₁
    · rcases eq_or_ne n₂ n₁ with rfl | hne₂
      · rfl
      · rw [update_self] at h₁
        rw [update_of_ne hne₂] at h₂
        cases h₁
        exact absurd rfl (hnew hne₂ h₂)
    · rw [update_of_ne hne₁] at h₁
      rcases eq_or_ne n₂ n with rfl | hne₂
      · rw [update_self] at h₂
        cases h₂
        exact absurd rfl (hnew hne₁ h₁)
      · rw [update_of_ne hne₂] at h₂
        exact h.inj h₁ h₂
  · intro i hi
    -- the numbers given out so far, and the new one
    rcases Nat.lt_succ_iff_lt_or_eq.mp hi with hi | rfl
    · obtain ⟨n', hn'⟩ := h.owner i hi
      have hne : n' ≠ n := by
        rintro rfl
        rw [hstart] at hn'
        cases hn'
      exact ⟨n', by rwa [update_of_ne hne]⟩
    · exact ⟨n, by rw [update_self]; rfl⟩
  · intro i hi hi'
    exact h.fresh i (by omega) hi'

end Crew

/-! ### The queues -/

section Queues

variable {arg : Arg} {buf : List UInt8} {queue : ℕ → JobQueue} {allocs allocs' : ℕ}
  {responder : RespPoint} {queue' : List (List Job)} {i : ℕ}
  (h : Queues arg buf queue allocs responder queue' allocs')

include h

/-- The condition variables do not matter. -/
theorem Queues.setCond (i : ℕ) (cond : Cond) :
    Queues arg buf (update queue i { queue i with cond }) allocs responder queue' allocs' := by
  refine ⟨h.length, h.allocated, fun i' hi' => ?_⟩
  rw [h.jobs i' hi']
  rcases eq_or_ne i' i with rfl | hne
  · rw [update_self]
  · rw [update_of_ne hne]

/-- The responder goes on, with the same jobs still to be pushed. -/
theorem Queues.goto {responder' : RespPoint} {allocs₁ : ℕ}
    (hallocs : allocs₁ + (responder'.rest arg).length = allocs + (responder.rest arg).length)
    (hpending : responder'.pending arg buf allocs₁ = responder.pending arg buf allocs) :
    Queues arg buf queue allocs₁ responder' queue' allocs' :=
  ⟨h.length, h.allocated.trans hallocs.symm, fun i hi => by rw [hpending]; exact h.jobs i hi⟩

/-- A worker pops its queue. -/
theorem Queues.pop (hi : i < arg.numThreads) {front : Job} {jobs : List Job}
    (hjobs : (queue i).jobs = front :: jobs) :
    ∃ rest, queue'[i]? = some (front :: rest) ∧
      Queues arg buf (update queue i { queue i with jobs }) allocs responder (queue'.set i rest)
        allocs' := by
  have hqueue := h.jobs i hi
  rw [hjobs, List.cons_append] at hqueue
  refine ⟨_, hqueue, ?_, h.allocated, ?_⟩
  · rw [List.length_set]
    exact h.length
  · intro i' hi'
    rcases eq_or_ne i' i with rfl | hne
    · rw [update_self, List.getElem?_set_self (h.length ▸ hi)]
    · rw [update_of_ne hne, List.getElem?_set_ne hne.symm]
      exact h.jobs i' hi'

end Queues

/-- The responder pushes a job. -/
theorem Queues.push {arg : Arg} {buf : List UInt8} {queue : ℕ → JobQueue} {allocs allocs' i : ℕ}
    {job : Job} {next : Option ℕ} {queue' : List (List Job)} {cond : Cond}
    (h : Queues arg buf queue allocs (.lock i job next) queue' allocs') :
    Queues arg buf (update queue i ⟨(queue i).jobs ++ [job], cond⟩) allocs (afterPush next) queue'
      allocs' := by
  have hrest : (afterPush next).rest arg = restFrom arg next := by cases next <;> rfl
  have hpending : (afterPush next).pending arg buf allocs = quitJobs buf allocs (restFrom arg next) := by
    cases next <;> rfl
  refine ⟨h.length, h.allocated.trans (by rw [hrest]; rfl), ?_⟩
  intro i' hi'
  have hqueue := h.jobs i' hi'
  rw [RespPoint.pending, jobsFor_cons] at hqueue
  rw [hqueue, hpending]
  rcases eq_or_ne i i' with rfl | hne
  · simp
  · simp [hne, hne.symm]

/-! ### The steps of `main` -/

section Main

variable {arg : Arg} {buf : List UInt8} {sdk : Sdk} {s : Snapshot} {st : Front} {stimulus : Stimulus}
  {r : MainLoc × Globals × List Shown} (h : Sim arg buf s st)

include h

/-- `main` is at `select`. -/
theorem Sim.select (hmain : s.main.point = .select) (hrest : Rests s.responder s.hotCall)
    (hpoll : s.hotCall.keepPolling = true) (hk : st.app.counters.Before s.main)
    (hpending : st.pending = none) (houter : s.main.outer arg s.mem stimulus = some r) :
    ∃ st', st.Goes arg sdk r.2.2 st' ∧ Sim arg buf { s with main := r.1, mem := r.2.1 } st' := by
  obtain ⟨hconn, hclients, hplace⟩ : st.app.numConnection = s.main.numConnection ∧
      st.app.numClients = s.main.numClients ∧ st.app.place = .select := by
    simpa [Counters.Before, App.counters] using hk
  -- `select` does not return, and nothing moves
  have hstay : s.main.outer arg s.mem stimulus = some (s.main, s.mem, []) →
      ∃ st', st.Goes arg sdk r.2.2 st' ∧ Sim arg buf { s with main := r.1, mem := r.2.1 } st' := by
    intro hsame
    obtain rfl := Option.some.inj (hsame.symm.trans houter)
    exact ⟨st, .refl, h⟩
  cases stimulus with
  | nothing => exact hstay (by simp [MainLoc.outer, hmain])
  | wake => exact hstay (by simp [MainLoc.outer, hmain])
  | input input =>
    cases input with
    | accept =>
      simp only [MainLoc.outer, hmain, Option.some.injEq] at houter
      subst houter
      refine ⟨_, Front.goes_input hpending hplace (selectStep_accept hplace), ?_⟩
      refine ⟨h.store, h.exitCount, h.queues, h.crew, .select rfl hrest hpoll ?_ rfl⟩
      simp [Counters.Before, App.counters, hconn, hclients, hplace]
    | message sock text rand =>
      simp only [MainLoc.outer, hmain, Option.some.injEq] at houter
      subst houter
      -- a message is received here and handled when the responder has it
      refine ⟨_, Front.goes_receive hpending hplace (.message sock text rand), ?_⟩
      exact ⟨h.store, h.exitCount, h.queues, h.crew,
        .asks rfl hrest hpoll hk ⟨sock, text, rand, rfl, rfl⟩⟩
    | hangup =>
      simp only [MainLoc.outer, hmain, Option.some.injEq] at houter
      subst houter
      have hstep : selectStep arg sdk st.app .hangup = some ({ st.app with place := .exited }, []) :=
        if_pos hplace
      refine ⟨_, Front.goes_input hpending hplace hstep, ?_⟩
      exact ⟨h.store, h.exitCount, h.queues, h.crew, .exited rfl hrest hpoll rfl rfl⟩

/-- `main` is behind its call. -/
theorem Sim.returned {result : ℤ} (hmain : s.main.point = .returned result)
    (hrest : Rests s.responder s.hotCall) (hpoll : s.hotCall.keepPolling = true)
    (hk : st.app.counters.After s.main s.mem.params.buf) (hpending : st.pending = none)
    (houter : s.main.outer arg s.mem stimulus = some r) :
    ∃ st', st.Goes arg sdk r.2.2 st' ∧ Sim arg buf { s with main := r.1, mem := r.2.1 } st' := by
  obtain ⟨⟨numConnection, leaves⟩, ha, hk⟩ := hk
  simp only [MainLoc.outer, hmain, ha, Option.bind_eq_bind, Option.bind_some, Option.pure_def,
    Option.some.injEq] at houter
  subst houter
  refine ⟨st, .refl, h.store, h.exitCount, h.queues, h.crew, ?_⟩
  cases leaves with
  | false => exact .select rfl hrest hpoll hk hpending
  | true => exact .closing rfl hrest hpoll (congrArg Counters.place hk) hpending

/-- `main` joins the threads. -/
theorem Sim.join (hmain : s.main.point.Gone) (hrest : Rests s.responder s.hotCall)
    (hpoll : s.hotCall.keepPolling = false) (hk : st.app.counters.place = .left)
    (hpending : st.pending = none) (houter : s.main.outer arg s.mem stimulus = some r) :
    ∃ st', st.Goes arg sdk r.2.2 st' ∧ Sim arg buf { s with main := r.1, mem := r.2.1 } st' := by
  -- whether a thread has ended is not seen in the big steps
  obtain ⟨point, rfl, hgone⟩ : ∃ point, r = ({ s.main with point }, s.mem, []) ∧ point.Gone := by
    cases hpoint : s.main.point with
    | stop p =>
      simp only [MainLoc.outer, hpoint, Option.some.injEq] at houter
      exact ⟨_, houter.symm, trivial⟩
    | join i =>
      simp only [MainLoc.outer, hpoint] at houter
      split at houter
      · split at houter
        · exact ⟨_, (Option.some.inj houter).symm, trivial⟩
        · refine ⟨.join i, ?_, trivial⟩
          rw [← Option.some.inj houter, ← hpoint]
      · exact ⟨_, (Option.some.inj houter).symm, trivial⟩
    | done =>
      simp only [MainLoc.outer, hpoint, Option.some.injEq] at houter
      exact ⟨.done, by rw [← houter, ← hpoint], trivial⟩
    | _ => rw [hpoint] at hmain; exact hmain.elim
  exact ⟨st, .refl, h.store, h.exitCount, h.queues, h.crew, .gone hgone hrest hpoll hk hpending⟩

/-- A step of `main` outside of its sections. -/
theorem Sim.main (hmode : s.main.mode = .outside)
    (houter : s.main.outer arg s.mem stimulus = some r) :
    ∃ st', st.Goes arg sdk r.2.2 st' ∧ Sim arg buf { s with main := r.1, mem := r.2.1 } st' := by
  have hcalled : ¬ Called s.main s.hotCall := by
    intro hcalled
    simp [MainLoc.mode, hcalled.main, Requester.mode] at hmode
  -- where `main` stands tells how far the message is
  cases h.stage with
  | select hmain hrest hpoll hk hpending => exact h.select hmain hrest hpoll hk hpending houter
  | returned hmain hrest hpoll hk hpending => exact h.returned hmain hrest hpoll hk hpending houter
  | gone hmain hrest hpoll hk hpending => exact h.join hmain hrest hpoll hk hpending houter
  | exited hmain =>
    simp only [MainLoc.outer, hmain, Option.some.injEq] at houter
    subst houter
    exact ⟨st, .refl, h⟩
  | asks hmain => simp [MainLoc.mode, hmain, Requester.mode] at hmode
  | closing hmain => simp [MainLoc.mode, hmain, Stopper.mode] at hmode
  | waits hc => exact absurd hc hcalled
  | passes hc => exact absurd hc hcalled
  | finished hc => exact absurd hc hcalled

end Main

/-! ### The steps of the responder -/

section Responder

variable {arg : Arg} {buf : List UInt8} {sdk : Sdk} {s : Snapshot} {st : Front}
  {r : RespPoint × Globals × List Shown} (h : Sim arg buf s st)

include h

/-- The responder begins with a message, which counts as handled from then on. -/
theorem Sim.pass (ha : arg.Threaded) (hlen : 9 ≤ arg.maxBufSize) (hquit : quitBuf arg = some buf)
    (hcalled : Called s.main s.hotCall)
    (hrun : s.hotCall.runFunction = true) (hdone : s.hotCall.isDone = false)
    (hresponder : s.responder = .hot (.call 0 ())) (hk : st.app.counters.Before s.main)
    (hasked : Asked arg s.main s.mem.params st.pending) (hpass : messagePass arg sdk s.mem = some r) :
    ∃ st', st.Goes arg sdk r.2.2 st' ∧ Sim arg buf { s with responder := r.1, mem := r.2.1 } st' := by
  obtain ⟨hconn, hclients, hplace⟩ : st.app.numConnection = s.main.numConnection ∧
      st.app.numClients = s.main.numClients ∧ st.app.place = .select := by
    simpa [Counters.Before, App.counters] using hk
  obtain ⟨sock, text, rand, hpending, hparams⟩ := hasked
  obtain ⟨a, ha'⟩ := exists_afterCall (hlen.trans (readBuf_length arg text)) st.app.numConnection
  have hbufEq : s.mem.params.buf = readBuf arg text := congrArg EcallParams.buf hparams
  have hqueues := h.queues
  rw [hresponder] at hqueues
  -- what is handled, if the enclave has passed the message on
  have hhandle : ∀ {server : Server} {seen : List Seen},
      enclaveMessagePass arg sdk st.app.server s.mem.params = some (server, seen) →
      st.Goes arg sdk (visible seen)
        ⟨{ st.app with server, numConnection := a.1, place := if a.2 then .left else .select }, none⟩ := by
    intro server seen hserver
    rw [hparams, ← hclients] at hserver
    refine Front.goes_handle hpending ?_
    rw [selectStep_afterCall hplace, hserver, Option.bind_some, ha', Option.map_some]
  have hafter : ∀ server : Server, Counters.After
      (App.counters { st.app with server, numConnection := a.1, place := if a.2 then .left else .select })
      s.main s.mem.params.buf := by
    intro server
    refine ⟨a, ?_, ?_⟩
    · rw [hbufEq, ← hconn]
      exact ha'
    · simp [App.counters, hclients]
  rcases messagePass_cases hpass with ⟨hexit, rfl⟩ | ⟨hexit, hload, rfl⟩ |
    ⟨hexit, hload, buf', p, i, hbuf', hp, hi, rfl⟩
  · -- an `EXIT`
    have henclave := enclaveMessagePass_exit arg sdk st.app.server hexit
    rw [h.exitCount] at henclave
    by_cases hall : s.mem.exitCount + 1 = s.mem.params.numClients
    · obtain ⟨queue, new, hpush, hnew, hlength, hjobs⟩ := exists_foldlM_pushQuit hquit
        (List.range arg.numThreads) { st.app.server with exitCount := s.mem.exitCount + 1 } []
        (by simp [hqueues.length])
      rw [if_pos hall, pushQuits, hpush, Option.map_some] at henclave
      have hgoes := hhandle henclave
      rw [show visible (.messageReturn s.mem.params.buf s.mem.params.clientSock ::
        .event (.print .allThreadsFinished) :: ([] ++ new)) =
          [.seen (.messageReturn s.mem.params.buf s.mem.params.clientSock),
            .seen (.event (.print .allThreadsFinished))] ++ visible new from rfl, hnew] at hgoes
      simp only [if_pos hall]
      refine ⟨_, hgoes, h.store, rfl, ?_, h.crew, .passes hcalled hrun hdone trivial (hafter _) rfl⟩
      have hallocs : st.app.server.allocs = s.mem.allocs := hqueues.allocated
      refine ⟨hlength.trans hqueues.length, ?_, ?_⟩
      · show st.app.server.allocs + _ = s.mem.allocs + (restFrom arg (some 0)).length
        rw [hallocs, restFrom_zero]
      · intro i hi
        have hold : st.app.server.queue[i]? = some ((s.queue i).jobs ++ []) := hqueues.jobs i hi
        show queue[i]? = some ((s.queue i).jobs ++ jobsFor i (quitJobs buf s.mem.allocs (restFrom arg (some 0))))
        rw [hjobs i, hold, hallocs, restFrom_zero]
        simp
    · rw [if_neg hall] at henclave
      simp only [if_neg hall]
      refine ⟨_, hhandle henclave, h.store, ?_, ?_, h.crew,
        .passes hcalled hrun hdone trivial (hafter _) rfl⟩
      · rfl
      · exact hqueues.goto rfl rfl
  · -- a `LOADDONE`
    refine ⟨_, hhandle (enclaveMessagePass_load arg sdk st.app.server hexit hload), h.store, h.exitCount, ?_, h.crew,
      .passes hcalled hrun hdone trivial (hafter _) rfl⟩
    exact hqueues.goto rfl rfl
  · -- a request
    have hlt := threadId_lt ha hi
    have henclave := enclaveMessagePass_request arg sdk st.app.server hexit hload hbuf' hp hi
    have hallocs : st.app.server.allocs = s.mem.allocs := hqueues.allocated
    have hold : st.app.server.queue[i]? = some ((s.queue i).jobs ++ []) := hqueues.jobs i hlt
    obtain ⟨hread, hcut⟩ := afterCall_request hexit hload hp s.main.numConnection
    rw [hbufEq, ← hconn, ha'] at hread
    cases hread
    rw [Server.push, hold] at henclave
    refine ⟨_, hhandle henclave, h.store, h.exitCount, ?_, h.crew,
      .passes hcalled hrun hdone trivial ⟨_, hcut, ?_⟩ rfl⟩
    · refine ⟨?_, ?_, ?_⟩
      · rw [List.length_set]
        exact hqueues.length
      · exact congrArg (· + 1) hallocs
      · intro i' hi'
        show (st.app.server.queue.set i _)[i']? = some ((s.queue i').jobs ++
          jobsFor i' [(i, (s.mem.newJob buf' s.mem.params.clientSock s.mem.params.rand).1)])
        rw [jobsFor_cons]
        rcases eq_or_ne i i' with rfl | hne
        · rw [List.getElem?_set_self (hqueues.length ▸ hlt)]
          simp [Globals.newJob, hallocs]
        · have hold' : st.app.server.queue[i']? = some ((s.queue i').jobs ++ []) := hqueues.jobs i' hi'
          rw [List.getElem?_set_ne hne, hold']
          simp [hne]
    · simp [App.counters, hconn, hclients]

/-- While the responder is at work on a message, the message is passed on. -/
theorem Sim.passing (hresponder : s.responder.Passing) :
    Called s.main s.hotCall ∧ s.hotCall.runFunction = true ∧ s.hotCall.isDone = false ∧
      st.app.counters.After s.main s.mem.params.buf ∧ st.pending = none := by
  have hrests : ¬ Rests s.responder s.hotCall := by
    intro hrest
    rcases hrest.responder with heq | ⟨-, heq | heq⟩ <;> rw [heq] at hresponder <;> exact hresponder
  cases h.stage with
  | passes hcalled hrun hdone _ hk hpending => exact ⟨hcalled, hrun, hdone, hk, hpending⟩
  | waits _ _ _ heq => rcases heq with heq | heq <;> rw [heq] at hresponder <;> exact hresponder.elim
  | finished _ _ _ heq => rw [heq] at hresponder; exact hresponder.elim
  | select _ hrest => exact absurd hrest hrests
  | asks _ hrest => exact absurd hrest hrests
  | returned _ hrest => exact absurd hrest hrests
  | closing _ hrest => exact absurd hrest hrests
  | gone _ hrest => exact absurd hrest hrests
  | exited _ hrest => exact absurd hrest hrests

/-- The responder goes on with a message. -/
theorem Sim.goto {responder' : RespPoint} {mem : Globals} (hresponder : s.responder.Passing)
    (hresponder' : responder'.Passing) (hstore : mem.store = s.mem.store)
    (hcount : mem.exitCount = s.mem.exitCount) (hparams : mem.params = s.mem.params)
    (hqueues : Queues arg buf s.queue mem.allocs responder' st.app.server.queue st.app.server.allocs) :
    Sim arg buf { s with responder := responder', mem } st := by
  obtain ⟨hcalled, hrun, hdone, hk, hpending⟩ := h.passing hresponder
  refine ⟨h.store.trans hstore.symm, h.exitCount.trans hcount.symm, hqueues, h.crew, ?_⟩
  exact .passes hcalled hrun hdone hresponder' (by rw [hparams]; exact hk) hpending

/-- The responder has been stopped. -/
theorem Sim.stopped {ended : List Thread} (hresponder : s.responder = .hot .left) :
    Sim arg buf { s with responder := .gone, mem := { s.mem with ended } } st := by
  have hqueues := h.queues
  rw [hresponder] at hqueues
  -- it rests in another place
  have hrests : Rests s.responder s.hotCall → Rests .gone s.hotCall := by
    intro hrest
    refine ⟨hrest.busy, hrest.run, .inr ⟨?_, .inr rfl⟩⟩
    rcases hrest.responder with heq | ⟨hpoll, -⟩
    · rw [hresponder] at heq
      cases heq
    · exact hpoll
  refine ⟨h.store, h.exitCount, hqueues.goto rfl rfl, h.crew, ?_⟩
  cases h.stage with
  | select hmain hrest hpoll hk hpending => exact .select hmain (hrests hrest) hpoll hk hpending
  | asks hmain hrest hpoll hk hasked => exact .asks hmain (hrests hrest) hpoll hk hasked
  | returned hmain hrest hpoll hk hpending => exact .returned hmain (hrests hrest) hpoll hk hpending
  | closing hmain hrest hpoll hk hpending => exact .closing hmain (hrests hrest) hpoll hk hpending
  | gone hmain hrest hpoll hk hpending => exact .gone hmain (hrests hrest) hpoll hk hpending
  | exited hmain hrest hpoll hk hpending => exact .exited hmain (hrests hrest) hpoll hk hpending
  | waits _ _ _ heq => rcases heq with heq | heq <;> rw [hresponder] at heq <;> cases heq
  | passes _ _ _ heq => rw [hresponder] at heq; exact heq.elim
  | finished _ _ _ heq => rw [hresponder] at heq; cases heq

/-- A step of the responder outside of its sections. -/
theorem Sim.responder (ha : arg.Threaded) (hlen : 9 ≤ arg.maxBufSize) (hquit : quitBuf arg = some buf)
    (hmode : s.responder.mode = .outside) (houter : s.responder.outer arg sdk s.mem = some r) :
    ∃ st', st.Goes arg sdk r.2.2 st' ∧ Sim arg buf { s with responder := r.1, mem := r.2.1 } st' := by
  have hqueues := h.queues
  cases hresponder : s.responder with
  | hot p =>
    cases p with
    | call callID data =>
      cases h.stage with
      | waits hcalled hrun hdone heq hk hasked =>
        rcases heq with heq | heq
        · rw [hresponder] at heq
          cases heq
        · rw [heq] at houter
          exact h.pass ha hlen hquit hcalled hrun hdone heq hk hasked houter
      | passes _ _ _ heq => rw [hresponder] at heq; exact heq.elim
      | finished _ _ _ heq => rw [hresponder] at heq; cases heq
      | _ hmain hrest =>
        rcases hrest.responder with heq | ⟨-, heq | heq⟩ <;> rw [hresponder] at heq <;> cases heq
    | left =>
      rw [hresponder] at houter
      cases houter
      exact ⟨st, .refl, h.stopped hresponder⟩
    | _ => rw [hresponder] at hmode; cases hmode
  | quits i =>
    have hpassing : s.responder.Passing := by rw [hresponder]; trivial
    rw [hresponder] at houter hqueues
    simp only [RespPoint.outer] at houter
    split at houter
    · next hi =>
      -- the next quit job was one still to be made, and is now in hand
      obtain ⟨buf', hbuf', heq⟩ := Option.bind_eq_some_iff.mp houter
      obtain rfl := Option.some.inj (hquit.symm.trans hbuf')
      cases heq
      refine ⟨st, .refl, h.goto hpassing trivial rfl rfl rfl (hqueues.goto ?_ ?_)⟩
      · simp only [RespPoint.rest, restFrom_of_lt hi, List.length_cons, Globals.newJob]
        omega
      · simp only [RespPoint.pending, RespPoint.rest, restFrom_of_lt hi, quitJobs]
        rfl
    · next hi =>
      cases houter
      -- no worker is left, and nothing is in hand
      refine ⟨st, .refl, h.goto hpassing trivial rfl rfl rfl (hqueues.goto ?_ ?_)⟩
      · simp [RespPoint.rest, restFrom_of_le (Nat.le_of_not_lt hi)]
      · simp [RespPoint.pending, RespPoint.rest, restFrom_of_le (Nat.le_of_not_lt hi)]
  | check i job next =>
    have hpassing : s.responder.Passing := by rw [hresponder]; trivial
    rw [hresponder] at houter hqueues
    simp only [RespPoint.outer] at houter
    split at houter <;> cases houter
    exact ⟨st, .refl, h.goto hpassing trivial rfl rfl rfl (hqueues.goto rfl rfl)⟩
  | gone =>
    rw [hresponder] at houter
    cases houter
    exact ⟨st, .refl, by rw [← hresponder]; exact h⟩
  | _ => rw [hresponder] at hmode; cases hmode

/-- The responder pushes a job. -/
theorem Sim.push {i : ℕ} {job : Job} {next : Option ℕ} (hresponder : s.responder = .lock i job next) :
    Sim arg buf
      { s with
        responder := afterPush next
        queue := update s.queue i ⟨(s.queue i).jobs ++ [job], (s.queue i).cond.signal⟩ } st := by
  obtain ⟨hcalled, hrun, hdone, hk, hpending⟩ := h.passing (by rw [hresponder]; trivial)
  have hqueues := h.queues
  rw [hresponder] at hqueues
  refine ⟨h.store, h.exitCount, hqueues.push, h.crew, .passes hcalled hrun hdone ?_ hk hpending⟩
  cases next <;> trivial

end Responder

/-! ### The sections at the `HotCall` -/

section Hot

variable {arg : Arg} {buf : List UInt8} {sdk : Sdk} {s : Snapshot} {st : Front}
  {r : Requester Unit} (h : Sim arg buf s st)

include h

/-- `main` makes its call. -/
theorem Sim.asks (hmain : s.main.point = .request r) (hpoint : r.point = .spin) :
    s.main.point = .request ⟨0, (), 0, .spin⟩ ∧ Rests s.responder s.hotCall ∧
      s.hotCall.keepPolling = true ∧ st.app.counters.Before s.main ∧
      Asked arg s.main s.mem.params st.pending := by
  have hcalled : ¬ Called s.main s.hotCall := by
    intro hcalled
    rw [hcalled.main, MainPoint.request.injEq] at hmain
    rw [← hmain] at hpoint
    cases hpoint
  cases h.stage with
  | asks hmain' hrest hpoll hk hasked => exact ⟨hmain', hrest, hpoll, hk, hasked⟩
  | waits hc => exact absurd hc hcalled
  | passes hc => exact absurd hc hcalled
  | finished hc => exact absurd hc hcalled
  | gone hgone => rw [hmain] at hgone; exact hgone.elim
  | _ hmain' => rw [hmain'] at hmain; cases hmain

/-- The call of `main` returns. -/
theorem Sim.overs (hmain : s.main.point = .request r) (hpoint : r.point = .spinAgain)
    (hdone : s.hotCall.isDone = true) :
    Called s.main s.hotCall ∧ s.hotCall.runFunction = false ∧ s.responder = .hot .spin ∧
      st.app.counters.After s.main s.mem.params.buf ∧ st.pending = none := by
  cases h.stage with
  | finished hcalled hrun _ hresponder hk hpending => exact ⟨hcalled, hrun, hresponder, hk, hpending⟩
  | waits _ _ hdone' => rw [hdone] at hdone'; cases hdone'
  | passes _ _ hdone' => rw [hdone] at hdone'; cases hdone'
  | gone hgone => rw [hmain] at hgone; exact hgone.elim
  | asks hmain' =>
    rw [hmain, MainPoint.request.injEq] at hmain'
    rw [hmain'] at hpoint
    cases hpoint
  | _ hmain' => rw [hmain'] at hmain; cases hmain

/-- `main` stops the responder. -/
theorem Sim.stop (hmain : s.main.point = .stop .spin) :
    Sim arg buf
      { s with
        main := { s.main with point := .stop .returned }
        hotCall := { s.hotCall with keepPolling := false } } st := by
  have hcalled : ¬ Called s.main s.hotCall := by
    intro hcalled
    rw [hcalled.main] at hmain
    cases hmain
  refine ⟨h.store, h.exitCount, h.queues, h.crew, ?_⟩
  -- only behind the loop does `main` stop the responder
  cases h.stage with
  | closing _ hrest hpoll hk hpending =>
    refine .gone trivial ⟨hrest.busy, hrest.run, ?_⟩ rfl hk hpending
    rcases hrest.responder with hresponder | ⟨-, hresponder⟩
    · exact .inl hresponder
    · exact .inr ⟨rfl, hresponder⟩
  | waits hc => exact absurd hc hcalled
  | passes hc => exact absurd hc hcalled
  | finished hc => exact absurd hc hcalled
  | gone hgone => rw [hmain] at hgone; exact hgone.elim
  | _ hmain' => rw [hmain'] at hmain; cases hmain

/-- The responder looks for a call. -/
theorem Sim.poll (hresponder : s.responder = .hot .spin) :
    Sim arg buf { s with responder := .hot (pollNext s.hotCall) } st := by
  have hqueues := h.queues
  rw [hresponder] at hqueues
  have hgoto : ∀ p : Responder Unit, Queues arg buf s.queue s.mem.allocs (.hot p)
      st.app.server.queue st.app.server.allocs := fun p => hqueues.goto rfl rfl
  -- there is no call, and it polls on
  have hspin : s.hotCall.keepPolling = true → s.hotCall.runFunction = false →
      Sim arg buf { s with responder := .hot (pollNext s.hotCall) } st := by
    intro hpoll hrun
    have hnext : RespPoint.hot (pollNext s.hotCall) = s.responder := by
      simp [pollNext, hpoll, hrun, hresponder]
    rw [hnext]
    exact h
  cases h.stage with
  | waits hcalled hrun hdone _ hk hasked =>
    have hnext : pollNext s.hotCall = .call 0 () := by
      simp [pollNext, hcalled.polling, hrun, hcalled.callID]
    rw [hnext]
    exact ⟨h.store, h.exitCount, hgoto _, h.crew, .waits hcalled hrun hdone (.inr rfl) hk hasked⟩
  | passes _ _ _ heq => rw [hresponder] at heq; exact heq.elim
  | finished hcalled hrun => exact hspin hcalled.polling hrun
  | gone hmain hrest hpoll hk hpending =>
    have hnext : pollNext s.hotCall = .left := by simp [pollNext, hpoll]
    rw [hnext]
    exact ⟨h.store, h.exitCount, hgoto _, h.crew,
      .gone hmain ⟨hrest.busy, hrest.run, .inr ⟨hpoll, .inl rfl⟩⟩ hpoll hk hpending⟩
  | _ _ hrest hpoll => exact hspin hpoll hrest.run

/-- The responder says that the call is done. -/
theorem Sim.done (hresponder : s.responder = .hot .spinDone) :
    Sim arg buf
      { s with
        responder := .hot .spin
        hotCall := { s.hotCall with isDone := true, runFunction := false } } st := by
  obtain ⟨hcalled, hrun, hdone, hk, hpending⟩ := h.passing (by rw [hresponder]; trivial)
  have hqueues := h.queues
  rw [hresponder] at hqueues
  exact ⟨h.store, h.exitCount, hqueues.goto rfl rfl, h.crew,
    .finished ⟨hcalled.main, hcalled.busy, hcalled.callID, hcalled.polling⟩ rfl rfl rfl hk hpending⟩

end Hot

/-! ### The steps of the workers -/

section Workers

variable {arg : Arg} {buf : List UInt8} {sdk : Sdk} {s : Snapshot} {st : Front} {n i : ℕ}

theorem Globals.freeJob_eq_some {mem mem' : Globals} {job : Job} (h : mem.freeJob (some job) = some mem') :
    job.ptr ∈ mem.live ∧ mem' = { mem with live := mem.live.erase job.ptr } := by
  simp only [freeJob] at h
  split at h
  · next hlive => exact ⟨hlive, (Option.some.inj h).symm⟩
  · cases h

theorem visible_answer (log : List Event) (i : ℕ) (job : Job) (cipher : List UInt8) (sock : ℤ) :
    visible (log.map Seen.event ++ [.answered i job cipher sock]) =
      (log.map Seen.event ++ [Seen.answered i job cipher sock]).map Shown.seen := by
  rw [visible_append, List.map_append]
  congr 1
  unfold visible
  rw [List.filterMap_map, List.map_map, ← List.filterMap_eq_map]
  rfl

variable (h : Sim arg buf s st)

include h

variable (sdk) in
/-- A worker that is ready looks at its queue. -/
theorem Sim.head (hworker : s.worker n = .lock i) :
    ∃ st', st.Goes arg sdk [] st' ∧ Sim arg buf
      { s with
        worker := update s.worker n (loopHead i (s.queue i)).1
        queue := update s.queue i (loopHead i (s.queue i)).2 } st' := by
  have hid : (s.worker n).threadId = some i := by rw [hworker]; rfl
  have hpoint := h.crew.points n
  rw [hworker] at hpoint
  cases hpoint with
  | lock hi hready =>
    cases hjobs : (s.queue i).jobs with
    | nil =>
      -- it waits
      have hhead : loopHead i (s.queue i) = (.asleep i, { s.queue i with cond := .waiting }) := by
        simp [loopHead, hjobs]
      rw [hhead]
      exact ⟨st, .refl, h.store, h.exitCount, h.queues.setCond i .waiting,
        h.crew.move hid rfl rfl (fun _ _ => rfl) (.asleep hi hready), h.stage⟩
    | cons curJob jobs =>
      have hhead : loopHead i (s.queue i) = (.took i curJob, s.queue i) := by simp [loopHead, hjobs]
      have hlt : i < st.app.server.worker.length := (List.getElem?_eq_some_iff.mp hready).1
      have hqueue := h.queues.jobs i (h.crew.length ▸ hlt)
      rw [hjobs, List.cons_append] at hqueue
      have htake : takeFront st.app.server i =
          { st.app.server with worker := st.app.server.worker.set i (.took curJob) } := by
        simp [takeFront, hready, hqueue]
      rw [hhead, update_eq_self]
      refine ⟨_, .one (.take i) rfl, ?_⟩
      rw [htake]
      exact ⟨h.store, h.exitCount, h.queues, h.crew.move hid rfl List.length_set
        (fun i' hne => List.getElem?_set_ne hne.symm) (.took hi (List.getElem?_set_self hlt)), h.stage⟩

/-- A worker wakes up. -/
theorem Sim.wake (hworker : s.worker n = .asleep i) :
    ∃ st', st.Goes arg sdk [] st' ∧ Sim arg buf
      { s with
        worker := update s.worker n (loopHead i { s.queue i with cond := .idle }).1
        queue := update s.queue i (loopHead i { s.queue i with cond := .idle }).2 } st' := by
  have hid : (s.worker n).threadId = some i := by rw [hworker]; rfl
  have hpoint := h.crew.points n
  rw [hworker] at hpoint
  cases hpoint with
  | asleep hi hready =>
    -- it takes its lock back, and then goes on as from the start
    have hawake : Sim arg buf
        { s with
          worker := update s.worker n (.lock i)
          queue := update s.queue i { s.queue i with cond := .idle } } st :=
      ⟨h.store, h.exitCount, h.queues.setCond i .idle,
        h.crew.move hid rfl rfl (fun _ _ => rfl) (.lock hi hready), h.stage⟩
    obtain ⟨st', hgoes, hsim⟩ := hawake.head sdk (n := n) (i := i) (update_self _ _ _)
    simp only [update_self, update_idem] at hsim
    exact ⟨st', hgoes, hsim⟩

/-- A worker has answered, pops its job and looks at its queue. -/
theorem Sim.pop {curJob front : Job} {jobs : List Job} {mem : Globals}
    (hworker : s.worker n = .relock i curJob) (hjobs : (s.queue i).jobs = front :: jobs)
    (hfree : s.mem.freeJob (some curJob) = some mem) :
    ∃ st', st.Goes arg sdk [] st' ∧ Sim arg buf
      { s with
        worker := update s.worker n (loopHead i { s.queue i with jobs }).1
        queue := update s.queue i (loopHead i { s.queue i with jobs }).2
        mem } st' := by
  have hid : (s.worker n).threadId = some i := by rw [hworker]; rfl
  obtain ⟨-, rfl⟩ := Globals.freeJob_eq_some hfree
  have hpoint := h.crew.points n
  rw [hworker] at hpoint
  cases hpoint with
  | relock hi hreplied =>
    have hlt : i < st.app.server.worker.length := (List.getElem?_eq_some_iff.mp hreplied).1
    obtain ⟨rest, hqueue, hqueues⟩ := h.queues.pop (h.crew.length ▸ hlt) hjobs
    have hpop : popFront st.app.server i = some
        ({ st.app.server with
            queue := st.app.server.queue.set i rest
            worker := st.app.server.worker.set i .ready }, [.popped i front]) := by
      simp [popFront, hreplied, Server.pop, hqueue]
    -- the job is gone in both, before the queue is looked at
    have hpopped : Sim arg buf
        { s with
          worker := update s.worker n (.lock i)
          queue := update s.queue i { s.queue i with jobs }
          mem := { s.mem with live := s.mem.live.erase curJob.ptr } }
        { st with app := { st.app with server :=
          { st.app.server with
            queue := st.app.server.queue.set i rest
            worker := st.app.server.worker.set i .ready } } } :=
      ⟨h.store, h.exitCount, hqueues, h.crew.move hid rfl List.length_set
        (fun i' hne => List.getElem?_set_ne hne.symm) (.lock hi (List.getElem?_set_self hlt)), h.stage⟩
    obtain ⟨st', hgoes, hsim⟩ := hpopped.head sdk (n := n) (i := i) (update_self _ _ _)
    simp only [update_self, update_idem] at hsim
    exact ⟨st', (Front.goes_pop hpop).trans hgoes, hsim⟩

/-- A worker pops its quit job. -/
theorem Sim.quit {curJob front : Job} {jobs : List Job} {mem : Globals}
    (hworker : s.worker n = .relockQuit i curJob) (hjobs : (s.queue i).jobs = front :: jobs)
    (hfree : s.mem.freeJob (some curJob) = some mem) :
    ∃ st', st.Goes arg sdk [] st' ∧ Sim arg buf
      { s with
        worker := update s.worker n (.destroy i)
        queue := update s.queue i { s.queue i with jobs }
        mem } st' := by
  have hid : (s.worker n).threadId = some i := by rw [hworker]; rfl
  obtain ⟨-, rfl⟩ := Globals.freeJob_eq_some hfree
  have hpoint := h.crew.points n
  rw [hworker] at hpoint
  cases hpoint with
  | relockQuit hi htook hquit =>
    have hlt : i < st.app.server.worker.length := (List.getElem?_eq_some_iff.mp htook).1
    obtain ⟨rest, hqueue, hqueues⟩ := h.queues.pop (h.crew.length ▸ hlt) hjobs
    -- in big steps a worker takes its quit job and returns at once
    have hexec : execute arg sdk st.app.server i = some
        ({ st.app.server with
            queue := st.app.server.queue.set i rest
            worker := st.app.server.worker.set i .returned }, [.popped i front]) := by
      simp [execute, htook, hquit, Server.pop, hqueue]
    exact ⟨_, Front.goes_exec hexec, h.store, h.exitCount, hqueues, h.crew.move hid rfl List.length_set
      (fun i' hne => List.getElem?_set_ne hne.symm) (.destroy hi (List.getElem?_set_self hlt)), h.stage⟩

/-- A step of a worker outside of its sections. -/
theorem Sim.worker {r : WorkerPoint × Globals × List Shown} (hmode : (s.worker n).mode = .outside)
    (houter : (s.worker n).outer arg sdk (.worker n) s.mem = some r) :
    ∃ st', st.Goes arg sdk r.2.2 st' ∧ Sim arg buf
      { s with worker := update s.worker n r.1, mem := r.2.1 } st' := by
  have hpoint := h.crew.points n
  cases hworker : s.worker n with
  | took i curJob =>
    have hid : (s.worker n).threadId = some i := by rw [hworker]; rfl
    rw [hworker] at hpoint houter
    cases hpoint with
    | took hi htook =>
      have hlt : i < st.app.server.worker.length := (List.getElem?_eq_some_iff.mp htook).1
      rcases (WorkerPoint.outer_took_cases houter).2 with ⟨out, hrequest, rfl⟩ | ⟨hquit, rfl⟩ |
        ⟨huntyped, rfl⟩
      · -- it answers
        rw [← h.store] at hrequest
        have hgoes := Front.goes_exec (execute_of_request htook hrequest)
        rw [visible_answer] at hgoes
        exact ⟨_, hgoes, rfl, h.exitCount, h.queues, h.crew.move hid rfl List.length_set
          (fun i' hne => List.getElem?_set_ne hne.symm) (.relock hi (List.getElem?_set_self hlt)),
          h.stage⟩
      · -- it has still to pop its quit job
        exact ⟨st, .refl, h.store, h.exitCount, h.queues,
          h.crew.move hid rfl rfl (fun _ _ => rfl) (.relockQuit hi htook hquit), h.stage⟩
      · -- it leaves its loop
        have hexec : execute arg sdk st.app.server i = some
            ({ st.app.server with worker := st.app.server.worker.set i .returned },
              [.event (.print .untypedRequest)]) := by
          simp [execute, htook, huntyped]
        exact ⟨_, Front.goes_exec hexec, h.store, h.exitCount, h.queues, h.crew.move hid rfl List.length_set
          (fun i' hne => List.getElem?_set_ne hne.symm) (.gone hi (List.getElem?_set_self hlt)),
          h.stage⟩
  | destroy i =>
    have hid : (s.worker n).threadId = some i := by rw [hworker]; rfl
    rw [hworker] at hpoint houter
    cases houter
    cases hpoint with
    | destroy hi hreturned =>
      exact ⟨st, .refl, h.store, h.exitCount, h.queues,
        h.crew.move hid rfl rfl (fun _ _ => rfl) (.gone hi hreturned), h.stage⟩
  | gone i =>
    rw [hworker] at houter
    cases houter
    refine ⟨st, .refl, ?_⟩
    rw [← hworker, update_eq_self]
    exact h
  | _ => rw [hworker] at hmode; cases hmode

end Workers

/-! ### Runs -/

/-- **One section.** -/
theorem Sim.step {arg : Arg} {buf : List UInt8} {sdk : Sdk} {s s' : Snapshot} {st : Front}
    {m : Thread × Stimulus} {os : List Shown} (ha : arg.Threaded) (hlen : 9 ≤ arg.maxBufSize)
    (hquit : quitBuf arg = some buf) (h : Sim arg buf s st) (hstep : s.Step arg sdk m s' os) :
    ∃ st', st.Goes arg sdk os st' ∧ Sim arg buf s' st' := by
  cases hstep with
  | main hmode houter => exact h.main hmode houter
  | busy hmain hpoint hbusy =>
    -- nobody else makes calls
    rw [(h.asks hmain hpoint).2.1.busy] at hbusy
    cases hbusy
  | call hmain hpoint hbusy =>
    obtain ⟨hmain', hrest, hpoll, hk, hasked⟩ := h.asks hmain hpoint
    rw [hmain', MainPoint.request.injEq] at hmain
    subst hmain
    refine ⟨st, .refl, h.store, h.exitCount, h.queues, h.crew,
      .waits ⟨rfl, rfl, rfl, hpoll⟩ rfl rfl ?_ hk hasked⟩
    rcases hrest.responder with hresponder | ⟨hstopped, -⟩
    · exact .inl hresponder
    · rw [hpoll] at hstopped
      cases hstopped
  | awaits => exact ⟨st, .refl, h⟩
  | returns hmain hpoint hdone =>
    obtain ⟨hcalled, hrun, hresponder, hk, hpending⟩ := h.overs hmain hpoint hdone
    exact ⟨st, .refl, h.store, h.exitCount, h.queues, h.crew,
      .returned rfl ⟨rfl, hrun, .inl hresponder⟩ hcalled.polling hk hpending⟩
  | stop hmain => exact ⟨st, .refl, h.stop hmain⟩
  | responder hmode houter => exact h.responder ha hlen hquit hmode houter
  | poll hresponder => exact ⟨st, .refl, h.poll hresponder⟩
  | done hresponder => exact ⟨st, .refl, h.done hresponder⟩
  | push hresponder => exact ⟨st, .refl, h.push hresponder⟩
  | worker hmode houter => exact h.worker hmode houter
  | start hworker =>
    exact ⟨st, .refl, h.store, h.exitCount, h.queues, h.crew.start hworker, h.stage⟩
  | head hworker => exact h.head sdk hworker
  | wake hworker => exact h.wake hworker
  | pop hworker hjobs hfree => exact h.pop hworker hjobs hfree
  | quit hworker hjobs hfree => exact h.quit hworker hjobs hfree

theorem threadsInit_out (arg : Arg) (sdk : Sdk) (t : Thread) :
    ((threads arg sdk).mode ((threadsInit arg).loc t)).Out := by
  cases t with
  | worker n =>
    show (WorkerPoint.mode (if n < arg.numThreads then .start else .gone none)).Out
    split <;> trivial
  | _ => trivial

section Runs

variable {arg : Arg} {buf : List UInt8} {sdk : Sdk} (ha : arg.Threaded) (hlen : 9 ≤ arg.maxBufSize)
  (hquit : quitBuf arg = some buf)

include ha hlen hquit

/-- Runs of whole sections. -/
theorem Sim.of_reaches {ms : List (Thread × Stimulus)}
    {c : Conf Lock Thread Globals ThreadPoint Guarded} {os : List Shown}
    (h : (threads arg sdk).Reaches (threadsInit arg) ms c os) :
    ∃ s st, c = s.conf ∧ (Front.init arg).Goes arg sdk os st ∧ Sim arg buf s st := by
  obtain ⟨s, rfl, st, hgoes, hsim⟩ := Snapshot.induct (fun _ => True)
    (motive := fun s os => ∃ st, (Front.init arg).Goes arg sdk os st ∧ Sim arg buf s st)
    ⟨Front.init arg, .refl, Sim.init arg buf⟩
    (fun {s₁ s₂ m os os'} ⟨st, hgoes, hsim⟩ _ hstep => by
      obtain ⟨st', hgoes', hsim'⟩ := hsim.step ha hlen hquit hstep
      exact ⟨st', hgoes.trans hgoes', hsim'⟩) h fun _ _ => trivial
  exact ⟨s, st, rfl, hgoes, hsim⟩

/-- Runs of the threads. -/
theorem Sim.of_run {ms : List (Thread × Stimulus)} {σ : State Lock Thread Globals ThreadPoint Guarded}
    {oss : List (List Shown)} (h : run (threads arg sdk).step (threadsInit arg).calm ms = some (σ, oss)) :
    ∃ s st, Reduces (threads arg sdk) (fun _ => True) σ s.conf ∧
      (Front.init arg).Goes arg sdk oss.flatten st ∧ Sim arg buf s st := by
  obtain ⟨ms', c, -, hreaches, hred⟩ := Prog.exists_reaches (fun _ => True) (threadsInit_out arg sdk)
    (fun _ _ => trivial) h
  obtain ⟨s, st, rfl, hgoes, hsim⟩ := Sim.of_reaches ha hlen hquit hreaches
  exact ⟨s, st, hred, hgoes, hsim⟩

end Runs

/-- No lock is taken when all threads are outside of their sections. -/
theorem Sim.owner_eq_none {arg : Arg} {buf : List UInt8} {sdk : Sdk} {s : Snapshot} {st : Front}
    {σ : State Lock Thread Globals ThreadPoint Guarded} (h : Sim arg buf s st)
    (hred : Reduces (threads arg sdk) (fun _ => True) σ s.conf) (hmain : (σ.loc .main).mode.Out)
    (hresponder : (σ.loc .responder).mode.Out)
    (hworker : ∀ n < arg.numThreads, (σ.loc (.worker n)).mode.Out) (k : Lock) : σ.owner k = none := by
  cases hown : σ.owner k with
  | none => rfl
  | some t =>
    cases t with
    | main => exact absurd hown (hred.owner_ne_of_out hmain k)
    | responder => exact absurd hown (hred.owner_ne_of_out hresponder k)
    | worker n =>
      by_cases hn : n < arg.numThreads
      · exact absurd hown (hred.owner_ne_of_out (hworker n hn) k)
      · -- there is no such worker
        have hmode : (threads arg sdk).mode (s.conf.loc (.worker n)) = .outside := by
          show (s.worker n).mode = .outside
          rw [h.crew.nobody n (Nat.le_of_not_lt hn)]
          rfl
        exact absurd hown ((hred.loc_of_outside hmode).2 k)

/-- **The threads refine the server in big steps.**  Whatever `main`, the responder and
the workers do with their locks, condition variables and the `HotCall` between them, all
that is seen of it, in its order, could be seen of the server that handles a message in
one step and whose workers move in three. -/
theorem threads_refine_front (arg : Arg) (sdk : Sdk) (ha : arg.Threaded) (hlen : 9 ≤ arg.maxBufSize)
    (ms : List (Thread × Stimulus)) (σ : State Lock Thread Globals ThreadPoint Guarded)
    (oss : List (List Shown))
    (hrun : run (threads arg sdk).step (threadsInit arg).calm ms = some (σ, oss)) :
    ∃ acts st oss', run (frontStep arg sdk) (Front.init arg) acts = some (st, oss') ∧
      oss'.flatten = oss.flatten := by
  obtain ⟨buf, hquit, -⟩ := exists_quitBuf ((show 4 ≤ 9 by decide).trans hlen)
  obtain ⟨s, st, -, ⟨acts, oss', hrun', hflatten⟩, -⟩ := Sim.of_run ha hlen hquit hrun
  exact ⟨acts, st, oss', hrun', hflatten⟩

/-- A client connects and asks for a key: `main` makes the call, and the responder pushes
the job. -/
def getRun : List (Thread × Stimulus) :=
  [(.main, .input .accept), (.main, .input (.message 4 (Req.text ⟨.get [0x61], false, 0⟩) 0))] ++
    Thread.main.moves 8 ++ Thread.responder.moves 12

/-- Two clients connect, and send a request each.  Both requests are in the queue before
the worker takes the first. -/
def overlappingRun : List (Thread × Stimulus) :=
  [(.main, .input .accept), (.main, .input .accept),
      (.main, .input (.message 4 (Req.text ⟨.set [0x61] [0x31], false, 0⟩) 0))] ++
    Thread.main.moves 8 ++ Thread.responder.moves 16 ++ Thread.main.moves 5 ++
    [(.main, .input (.message 5 (Req.text ⟨.get [0x61], false, 0⟩) 0))] ++
    Thread.main.moves 8 ++ Thread.responder.moves 12

/-- There is no such key: the worker says so, and sends the message back. -/
theorem threads_refine_front_get :
    ∃ acts st oss', run (frontStep ⟨1, 32, 1, 1, false, false⟩ Sdk.aes)
        (Front.init ⟨1, 32, 1, 1, false, false⟩) acts = some (st, oss') ∧
      oss'.flatten = [.received .accept, .received (.message 4 (Req.text ⟨.get [0x61], false, 0⟩) 0),
        .seen (.event (.print .getFailed)),
        .seen (.answered 0 ⟨0, [0x47, 0x45, 0x54, 0x20, 0x61] ++ List.replicate 27 0, 4, 0⟩
          ([0x47, 0x45, 0x54, 0x20, 0x61] ++ List.replicate 27 0) 4)] := by
  have hshown : (run (threads ⟨1, 32, 1, 1, false, false⟩ Sdk.aes).step
      (threadsInit ⟨1, 32, 1, 1, false, false⟩).calm
      ((Thread.worker 0).moves 4 ++ getRun ++ (Thread.worker 0).moves 4)).map (fun r => r.2.flatten) =
      some [.received .accept, .received (.message 4 (Req.text ⟨.get [0x61], false, 0⟩) 0),
        .seen (.event (.print .getFailed)),
        .seen (.answered 0 ⟨0, [0x47, 0x45, 0x54, 0x20, 0x61] ++ List.replicate 27 0, 4, 0⟩
          ([0x47, 0x45, 0x54, 0x20, 0x61] ++ List.replicate 27 0) 4)] := by
    decide +kernel
  obtain ⟨⟨σ, oss⟩, hrun, hflatten⟩ := Option.map_eq_some_iff.mp hshown
  rw [← hflatten]
  exact threads_refine_front ⟨1, 32, 1, 1, false, false⟩ Sdk.aes (by decide) (by decide) _ σ oss hrun

end ShieldStore
