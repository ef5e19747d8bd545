import ShieldStore.Layout
import ShieldStore.Locality
import ShieldStore.Refinement
import ShieldStore.Server

/-!
# Workers

The workers serve their queues at the same time, and share the table, the MAC buffers
and the roots without a lock.  The keys of a group all go to one worker, so that no two
workers touch the same group; and a worker serves its keys in the order in which they
came.  So whatever the order of the moves, the store and the replies are those of
serving, one after the other, the requests that have been served so far, in the order
in which they were dispatched.

## Main definitions

* `Move` — the moves of a server that is sent requests only.
* `Dispatched` — a request that was dispatched, with the reply if it was served.
* `Serial` — a state in which all is as if the requests had been served in order.

## Main results

* `keyThread_eq_of_keyGroup` — the keys of a group go to one worker.
* `Serial.step` — one move.
* `workers_serial` — every interleaving.
-/

namespace ShieldStore

open Bytes Counter CMem Run Lists

/-! ### The worker of a key -/

/-- The workers share the buckets evenly. -/
structure Arg.Threaded (arg : Arg) : Prop extends arg.Valid where
  thread_pos : 0 < arg.numThreads
  thread_dvd_bucket : arg.numThreads ∣ arg.bucketSize

instance (arg : Arg) : Decidable arg.Threaded :=
  decidable_of_iff (arg.Valid ∧ 0 < arg.numThreads ∧ arg.numThreads ∣ arg.bucketSize)
    ⟨fun ⟨h₁, h₂, h₃⟩ => ⟨h₁, h₂, h₃⟩, fun h => ⟨h.toValid, h.thread_pos, h.thread_dvd_bucket⟩⟩

/-- The workers share the roots evenly. -/
structure Arg.Shared (arg : Arg) : Prop extends arg.Valid where
  thread_pos : 0 < arg.numThreads
  thread_dvd : arg.numThreads ∣ arg.treeRootSize

instance (arg : Arg) : Decidable arg.Shared :=
  decidable_of_iff (arg.Valid ∧ 0 < arg.numThreads ∧ arg.numThreads ∣ arg.treeRootSize)
    ⟨fun ⟨h₁, h₂, h₃⟩ => ⟨h₁, h₂, h₃⟩, fun h => ⟨h.toValid, h.thread_pos, h.thread_dvd⟩⟩

/-- The worker of a key. -/
def keyThread (arg : Arg) (k : List UInt8) : ℕ :=
  htHash arg (cstr k) / (arg.bucketSize / arg.numThreads)

theorem Arg.Shared.threaded {arg : Arg} (ha : arg.Shared) : arg.Threaded :=
  ⟨ha.toValid, ha.thread_pos, ha.thread_dvd.trans ha.root_dvd⟩

section Threads

variable {arg : Arg} (ha : arg.Threaded)

include ha

theorem Arg.Threaded.perThread_pos : 0 < arg.bucketSize / arg.numThreads :=
  Nat.div_pos (Nat.le_of_dvd ha.bucket_pos ha.thread_dvd_bucket) ha.thread_pos

theorem keyThread_lt (k : List UInt8) : keyThread arg k < arg.numThreads :=
  (Pieces.forall_div_lt_iff ha.thread_pos (Nat.le_of_dvd ha.bucket_pos ha.thread_dvd_bucket)).mpr
    ha.thread_dvd_bucket _ (Arg.Valid.htHash_lt ha.bucket_pos (cstr k))

theorem threadId_cstr (k : List UInt8) : threadId arg (cstr k) = some (keyThread arg k) :=
  if_neg ha.perThread_pos.ne'

end Threads

/-- **The keys of a group go to one worker.** -/
theorem keyThread_eq_of_keyGroup {arg : Arg} (ha : arg.Shared) {k k' : List UInt8}
    (h : keyGroup arg k = keyGroup arg k') : keyThread arg k = keyThread arg k' := by
  have hthread := ha.threaded
  have hgroups := (forall_bucketThread_eq_iff ha.thread_pos
    (Nat.le_of_dvd ha.bucket_pos hthread.thread_dvd_bucket) ha.root_pos hthread.thread_dvd_bucket
    ha.root_dvd).mpr ha.thread_dvd
  have heq := hgroups _ (Arg.Valid.htHash_lt ha.bucket_pos _) _ (Arg.Valid.htHash_lt ha.bucket_pos _) h
  rw [← threadId_eq, ← threadId_eq, threadId_cstr hthread, threadId_cstr hthread] at heq
  exact Option.some.inj heq

/-! ### What fits in order fits in every order -/

section Order

variable {arg : Arg} {reqs qs : List Req}
  (hlane : ∀ i, qs.filter (fun q => keyThread arg q.op.key = i) <+:
    reqs.filter fun q => keyThread arg q.op.key = i)

include hlane

theorem subset_of_lanes : qs ⊆ reqs := by
  intro q hq
  have hmem : q ∈ qs.filter fun q' => keyThread arg q'.op.key = keyThread arg q.op.key :=
    List.mem_filter.mpr ⟨hq, by simp⟩
  exact (List.mem_filter.mp ((hlane _).subset hmem)).1

/-- Requests that every worker takes in the order of `reqs` give a key no value that it
does not have at some time in `reqs`. -/
theorem exists_after_eq {p : List Req} (hp : p <+: qs) (k : List UInt8) :
    ∃ p', p' <+: reqs ∧ StringMap.after p' k = StringMap.after p k := by
  have hkey : ∀ l : List Req, (l.filter fun q => keyThread arg q.op.key = keyThread arg k).filter
      (fun q => q.op.key = k) = l.filter fun q => q.op.key = k := by
    intro l
    rw [List.filter_filter]
    refine List.filter_congr fun q _ => ?_
    by_cases hq : q.op.key = k
    · simp [hq]
    · simp [hq]
  have hpre := (hlane (keyThread arg k)).filter fun q => q.op.key = k
  rw [hkey, hkey] at hpre
  obtain ⟨p', hp', heq⟩ := exists_prefix_filter ((hp.filter _).trans hpre)
  refine ⟨p', hp', ?_⟩
  rw [← after_filter_key k p', heq, after_filter_key]

/-- The records have room in every such order. -/
theorem room_of_lanes
    (hfit : ∀ p, p <+: reqs → ∀ k v, StringMap.after p k = some v → v.length + 1 ≤ arg.maxBufSize)
    (hslots : arg.macOpt = true → ∀ b, (bucketKeys arg b reqs).length ≤ macSlots) :
    ∀ p, p <+: qs → (Recs.after arg p).Room arg := by
  intro p hp
  refine room_of_subset (List.Subset.trans hp.subset (subset_of_lanes hlane)) (fun k v hv => ?_) hslots
  obtain ⟨p', hp', heq⟩ := exists_after_eq hlane hp k
  exact hfit p' hp' k v (heq.trans hv)

end Order

/-! ### Moves -/

/-- The moves of a server that is sent requests only: a request comes in on a socket, or
a worker moves. -/
inductive Move
  | dispatch (req : Req) (clientSock : ℤ) (numClients : ℕ)
  | take (threadId : ℕ)
  | exec (threadId : ℕ)
  | pop (threadId : ℕ)
  deriving DecidableEq

/-- The move of the server. -/
def Move.act (arg : Arg) : Move → Act
  | .dispatch req clientSock numClients => .pass ⟨req.buf arg, clientSock, numClients, req.rand⟩
  | .take i => .take i
  | .exec i => .exec i
  | .pop i => .pop i

/-- The request that comes in. -/
def Move.req : Move → Option Req
  | .dispatch req _ _ => some req
  | _ => none

/-- The request that comes in, and its socket. -/
def Move.message : Move → Option (Req × ℤ)
  | .dispatch req clientSock _ => some (req, clientSock)
  | _ => none

/-! ### What can be seen -/

/-- The jobs that were pushed, each with its worker. -/
def pushedJobs (seen : List Seen) : List (ℕ × Job) :=
  seen.filterMap fun
    | .pushed i job => some (i, job)
    | _ => none

/-- The answers, each with its worker, its job and its socket. -/
def sentAnswers (seen : List Seen) : List (ℕ × Job × List UInt8 × ℤ) :=
  seen.filterMap fun
    | .answered i job cipher clientSock => some (i, job, cipher, clientSock)
    | _ => none

/-- The jobs that a worker has answered, in its order. -/
def answeredBy (i : ℕ) (seen : List Seen) : List Job :=
  ((sentAnswers seen).filter fun a => a.1 = i).map fun a => a.2.1

/-- The jobs that were pushed for a worker. -/
def pushedTo (i : ℕ) (seen : List Seen) : List Job :=
  ((pushedJobs seen).filter fun p => p.1 = i).map Prod.snd

/-- The jobs that a worker has popped. -/
def poppedBy (i : ℕ) (seen : List Seen) : List Job :=
  seen.filterMap fun
    | .popped i' job => if i' = i then some job else none
    | _ => none

/-- A request that was dispatched: its job, and the reply with what was printed if it
was served. -/
structure Dispatched where
  req : Req
  job : Job
  reply : Option (List UInt8 × List Event)
  deriving DecidableEq

/-- The requests that were served, in the order in which they were dispatched. -/
def servedReqs (hist : List Dispatched) : List Req := hist.filterMap fun d => d.reply.map fun _ => d.req

/-- The answer to a request, if it was served: on its own socket. -/
def Dispatched.answer (arg : Arg) (d : Dispatched) : Option (ℕ × Job × List UInt8 × ℤ) :=
  d.reply.map fun r => (keyThread arg d.req.op.key, d.job, r.1, d.job.clientSock)

/-- All is as if the requests served so far had been served in the order in which they
were dispatched. -/
structure Serial (arg : Arg) (sdk : Sdk) (moves : List Move) (st : Server) (seen : List Seen)
    (hist : List Dispatched) : Prop where
  /-- The messages, in the order in which they came in. -/
  messages : hist.map (fun d => (d.req, d.job.clientSock)) = moves.filterMap Move.message
  jobs : ∀ d ∈ hist, d.job.buf = d.req.buf arg ∧ d.job.rand = d.req.rand
  /-- Every message is a job of its own. -/
  ptrs : hist.map (·.job.ptr) = List.range hist.length
  pushed : pushedJobs seen = hist.map fun d => (keyThread arg d.req.op.key, d.job)
  /-- A worker answers its jobs in the order in which they came in. -/
  fifo : ∀ i, answeredBy i seen <+: pushedTo i seen
  /-- What a worker pops is what it has answered, but for the job it has in its hands. -/
  popped : ∀ i, ∃ held, answeredBy i seen = poppedBy i seen ++ held ∧ held.length ≤ 1
  /-- Every request that was served is answered once, on its socket. -/
  answers : (sentAnswers seen).Perm (hist.filterMap (Dispatched.answer arg))
  /-- The replies and the store are those of serving the requests in order. -/
  serial : run (replyStep arg sdk) (enclaveInitValues arg) (servedReqs hist) =
    some (st.store, hist.filterMap Dispatched.reply)

/-! ### The queue of a worker -/

/-- The job that a worker has answered and not yet popped. -/
def Worker.held : Worker → List Job
  | .replied curJob => [curJob]
  | _ => []

/-- The requests of a worker.  Those in `done` were served, those in `todo` were not,
and the queue holds the job in the worker's hands and what is to do. -/
structure Lane (arg : Arg) (hist : List Dispatched) (i : ℕ) (queue : List Job) (w : Worker)
    (answered popped : List Job) (done todo : List Dispatched) : Prop where
  split : hist.filter (fun d => keyThread arg d.req.op.key = i) = done ++ todo
  served : ∀ d ∈ done, d.reply.isSome = true
  waiting : ∀ d ∈ todo, d.reply = none
  queue : queue = w.held ++ todo.map Dispatched.job
  answered : answered = done.map Dispatched.job
  popped : popped ++ w.held = done.map Dispatched.job
  took : ∀ curJob, w = .took curJob → (todo.map Dispatched.job).head? = some curJob
  alive : w ≠ .returned

/-- The invariant of every interleaving. -/
structure Inv (arg : Arg) (sdk : Sdk) (moves : List Move) (st : Server) (seen : List Seen)
    (hist : List Dispatched) : Prop where
  messages : hist.map (fun d => (d.req, d.job.clientSock)) = moves.filterMap Move.message
  jobs : ∀ d ∈ hist, d.job.buf = d.req.buf arg ∧ d.job.rand = d.req.rand
  ptrs : hist.map (·.job.ptr) = List.range hist.length
  allocs : st.allocs = hist.length
  pushed : pushedJobs seen = hist.map fun d => (keyThread arg d.req.op.key, d.job)
  answers : (sentAnswers seen).Perm (hist.filterMap (Dispatched.answer arg))
  serial : run (replyStep arg sdk) (enclaveInitValues arg) (servedReqs hist) =
    some (st.store, hist.filterMap Dispatched.reply)
  lanes : ∀ i < arg.numThreads, ∃ queue w done todo, st.queue[i]? = some queue ∧
    st.worker[i]? = some w ∧
    Lane arg hist i queue w (answeredBy i seen) (poppedBy i seen) done todo
  others : ∀ i, arg.numThreads ≤ i → st.worker[i]? = none ∧
    answeredBy i seen = [] ∧ poppedBy i seen = []

section Seen

variable (seen new : List Seen)

@[simp] theorem pushedJobs_append : pushedJobs (seen ++ new) = pushedJobs seen ++ pushedJobs new :=
  List.filterMap_append

@[simp] theorem sentAnswers_append :
    sentAnswers (seen ++ new) = sentAnswers seen ++ sentAnswers new := List.filterMap_append

@[simp] theorem answeredBy_append (i : ℕ) :
    answeredBy i (seen ++ new) = answeredBy i seen ++ answeredBy i new := by
  simp [answeredBy]

@[simp] theorem poppedBy_append (i : ℕ) :
    poppedBy i (seen ++ new) = poppedBy i seen ++ poppedBy i new :=
  List.filterMap_append

@[simp] theorem sentAnswers_pushed (i : ℕ) (job : Job) : sentAnswers [.pushed i job] = [] := rfl

@[simp] theorem answeredBy_nil (i : ℕ) : answeredBy i [] = [] := rfl

@[simp] theorem answeredBy_pushed (i i' : ℕ) (job : Job) : answeredBy i [.pushed i' job] = [] := rfl

@[simp] theorem answeredBy_popped (i i' : ℕ) (job : Job) : answeredBy i [.popped i' job] = [] := rfl

@[simp] theorem poppedBy_popped (i i' : ℕ) (job : Job) :
    poppedBy i [.popped i' job] = if i' = i then [job] else [] := by
  unfold poppedBy
  rw [List.filterMap_cons]
  split <;> simp_all

@[simp] theorem poppedBy_nil (i : ℕ) : poppedBy i [] = [] := rfl

@[simp] theorem poppedBy_pushed (i i' : ℕ) (job : Job) : poppedBy i [.pushed i' job] = [] := rfl

@[simp] theorem pushedJobs_events (log : List Event) : pushedJobs (log.map Seen.event) = [] := by
  simp [pushedJobs, List.filterMap_map]

@[simp] theorem sentAnswers_events (log : List Event) : sentAnswers (log.map Seen.event) = [] := by
  simp [sentAnswers, List.filterMap_map]

@[simp] theorem answeredBy_events (i : ℕ) (log : List Event) :
    answeredBy i (log.map Seen.event) = [] := by
  simp [answeredBy]

@[simp] theorem poppedBy_events (i : ℕ) (log : List Event) : poppedBy i (log.map Seen.event) = [] := by
  simp [poppedBy, List.filterMap_map]

@[simp] theorem answeredBy_answered (i i' : ℕ) (job : Job) (cipher : List UInt8) (clientSock : ℤ) :
    answeredBy i [.answered i' job cipher clientSock] = if i' = i then [job] else [] := by
  show (([(i', job, cipher, clientSock)] : List (ℕ × Job × List UInt8 × ℤ)).filter
    fun a => a.1 = i).map (fun a => a.2.1) = _
  rw [List.filter_cons]
  split <;> simp_all

end Seen

/-- In the invariant, all is as if the requests had been served in order. -/
theorem Inv.toSerial {arg : Arg} {sdk : Sdk} {moves : List Move} {st : Server} {seen : List Seen}
    {hist : List Dispatched} (h : Inv arg sdk moves st seen hist) :
    Serial arg sdk moves st seen hist where
  messages := h.messages
  jobs := h.jobs
  ptrs := h.ptrs
  pushed := h.pushed
  answers := h.answers
  serial := h.serial
  fifo := by
    intro i
    rcases Nat.lt_or_ge i arg.numThreads with hi | hi
    · obtain ⟨queue, w, done, todo, -, -, lane⟩ := h.lanes i hi
      -- what was pushed is what is served and what is still to do
      have hpushed : pushedTo i seen = (done ++ todo).map Dispatched.job := by
        rw [pushedTo, h.pushed, List.filter_map, List.map_map, ← lane.split]
        rfl
      rw [hpushed, lane.answered, List.map_append]
      exact List.prefix_append _ _
    · rw [(h.others i hi).2.1]
      exact List.nil_prefix
  popped := by
    intro i
    rcases Nat.lt_or_ge i arg.numThreads with hi | hi
    · obtain ⟨queue, w, done, todo, -, -, lane⟩ := h.lanes i hi
      refine ⟨w.held, lane.answered.trans lane.popped.symm, ?_⟩
      cases w <;> simp [Worker.held]
    · exact ⟨[], by simp [(h.others i hi).2], by simp⟩

/-! ### A request comes in -/

theorem strncmp_exit {arg : Arg} (q : Req) (n : ℕ) :
    strncmp (q.buf arg) (lit ['E', 'X', 'I', 'T']) (n + 1) = some false := by
  obtain ⟨op, lower, rand⟩ := q
  cases op <;> cases lower <;> simp [Req.buf, Req.text, Op.verb, strncmp, lit]

theorem startsWith_exit {arg : Arg} (q : Req) :
    startsWith (q.buf arg) (lit ['E', 'X', 'I', 'T']) (lit ['e', 'x', 'i', 't']) 4 = some false := by
  obtain ⟨op, lower, rand⟩ := q
  cases op <;> cases lower <;> simp [Req.buf, Req.text, Op.verb, startsWith, strncmp, lit]

theorem strncmp_loaddone {arg : Arg} (q : Req) (n : ℕ) :
    strncmp (q.buf arg) (lit ['L', 'O', 'A', 'D', 'D', 'O', 'N', 'E']) (n + 1) = some false := by
  obtain ⟨op, lower, rand⟩ := q
  cases op <;> cases lower <;> simp [Req.buf, Req.text, Op.verb, strncmp, lit]

/-- A request goes to the queue of its worker. -/
theorem enclaveMessagePass_req {arg : Arg} (sdk : Sdk) (hbuf : arg.maxBufSize < 2 ^ 32) {q : Req}
    (hq : q.WellFormed arg) (st : Server) (clientSock : ℤ) (numClients : ℕ) :
    enclaveMessagePass arg sdk st ⟨q.buf arg, clientSock, numClients, q.rand⟩ =
      (threadId arg (cstr q.op.key)).bind fun i => st.push i (q.buf arg) clientSock q.rand := by
  have hcopy := memcpy_copy hq.length_buf
  obtain ⟨temp, hkey, -⟩ := parseKey_buf sdk hbuf hq
  unfold enclaveMessagePass
  simp only [startsWith_exit, strncmp_loaddone, hcopy, hkey, Option.bind_eq_bind,
    Option.bind_some, Bool.false_eq_true, if_false]

/-- Only a dispatch brings a message. -/
theorem messages_concat {m : Move} (hm : m.message = none) (moves : List Move) :
    (moves ++ [m]).filterMap Move.message = moves.filterMap Move.message := by
  simp [hm]

section Push

variable {arg : Arg} {hist : List Dispatched} {i : ℕ} {queue answered popped : List Job} {w : Worker}
  {done todo : List Dispatched} {d : Dispatched}
  (lane : Lane arg hist i queue w answered popped done todo)

include lane

/-- The queue of a worker that has one more request to serve. -/
theorem Lane.push (hd : keyThread arg d.req.op.key = i) (hwaits : d.reply = none) :
    Lane arg (hist ++ [d]) i (queue ++ [d.job]) w answered popped done (todo ++ [d]) where
  split := by
    rw [List.filter_append, lane.split, List.filter_cons_of_pos (by exact decide_eq_true hd),
      List.filter_nil, List.append_assoc]
  served := lane.served
  waiting := by
    intro d' hd'
    rcases List.mem_append.mp hd' with hd' | hd'
    · exact lane.waiting d' hd'
    · rw [List.mem_singleton] at hd'
      rw [hd', hwaits]
  queue := by
    rw [lane.queue, List.map_append, List.append_assoc]
    rfl
  answered := lane.answered
  popped := lane.popped
  took := by
    intro curJob hw
    have htook := lane.took curJob hw
    cases todo with
    | nil => cases htook
    | cons d todo => exact htook
  alive := lane.alive

/-- A request for another worker. -/
theorem Lane.push_other (hd : keyThread arg d.req.op.key ≠ i) :
    Lane arg (hist ++ [d]) i queue w answered popped done todo where
  split := by
    rw [List.filter_append, lane.split,
      List.filter_cons_of_neg (by exact fun h => hd (of_decide_eq_true h)), List.filter_nil,
      List.append_nil]
  served := lane.served
  waiting := lane.waiting
  queue := lane.queue
  answered := lane.answered
  popped := lane.popped
  took := lane.took
  alive := lane.alive

end Push

section Moves

variable {arg : Arg} {sdk : Sdk} {moves : List Move} {st : Server} {seen : List Seen}
  {hist : List Dispatched} (ha : arg.Shared) (h : Inv arg sdk moves st seen hist)

include h

theorem Inv.lt_of_worker {i : ℕ} {w : Worker} (hw : st.worker[i]? = some w) :
    i < arg.numThreads := by
  by_contra hlt
  rw [(h.others i (by omega)).1] at hw
  cases hw

include ha in
theorem Inv.dispatch {q : Req} (hq : q.WellFormed arg) (clientSock : ℤ) (numClients : ℕ) :
    ∃ st' new hist', serverStep arg sdk st (Move.act arg (.dispatch q clientSock numClients)) =
        some (st', new) ∧
      Inv arg sdk (moves ++ [.dispatch q clientSock numClients]) st' (seen ++ new) hist' := by
  obtain ⟨queue, w, done, todo, hqueue, hworker, lane⟩ := h.lanes _ (keyThread_lt ha.threaded q.op.key)
  have hstep : serverStep arg sdk st (Move.act arg (.dispatch q clientSock numClients)) =
      st.push (keyThread arg q.op.key) (q.buf arg) clientSock q.rand := by
    have hpass := enclaveMessagePass_req sdk ha.buf_lt_pow hq st clientSock numClients
    rw [threadId_cstr ha.threaded, Option.bind_some] at hpass
    exact hpass
  rw [hstep, Server.push, hqueue]
  refine ⟨_, _, hist ++ [⟨q, ⟨st.allocs, q.buf arg, clientSock, q.rand⟩, none⟩], rfl, ?_⟩
  constructor
  · rw [List.map_append, h.messages, List.filterMap_append]
    rfl
  · intro d hd
    rcases List.mem_append.mp hd with hd | hd
    · exact h.jobs d hd
    · rw [List.mem_singleton] at hd
      subst hd
      exact ⟨rfl, rfl⟩
  · rw [List.map_append, h.ptrs, List.length_append, List.length_singleton, List.range_succ,
      List.map_singleton, h.allocs]
  · rw [List.length_append, List.length_singleton]
    exact congrArg (· + 1) h.allocs
  · rw [pushedJobs_append, h.pushed, List.map_append]
    rfl
  · rw [sentAnswers_append, sentAnswers_pushed, List.append_nil, List.filterMap_append]
    show (sentAnswers seen).Perm (hist.filterMap (Dispatched.answer arg) ++ [])
    rw [List.append_nil]
    exact h.answers
  · rw [servedReqs, List.filterMap_append, List.filterMap_append]
    simpa [servedReqs] using h.serial
  · intro i hi
    rw [answeredBy_append, poppedBy_append, answeredBy_pushed, poppedBy_pushed, List.append_nil,
      List.append_nil]
    rcases eq_or_ne (keyThread arg q.op.key) i with rfl | hne
    · -- the worker of the key has one more job to do
      refine ⟨queue ++ [⟨st.allocs, q.buf arg, clientSock, q.rand⟩], w, done,
        todo ++ [⟨q, ⟨st.allocs, q.buf arg, clientSock, q.rand⟩, none⟩], ?_, hworker, ?_⟩
      · exact List.getElem?_set_self (List.getElem?_eq_some_iff.mp hqueue).1
      · exact lane.push rfl rfl
    · obtain ⟨queue', w', done', todo', hqueue', hworker', lane'⟩ := h.lanes i hi
      refine ⟨queue', w', done', todo', (List.getElem?_set_ne hne).trans hqueue', hworker', ?_⟩
      exact lane'.push_other hne
  · intro i hi
    simpa using h.others i hi

/-- A worker that stays where it is. -/
theorem Inv.stay {m : Move} (hm : m.message = none) :
    Inv arg sdk (moves ++ [m]) st (seen ++ []) hist := by
  rw [List.append_nil]
  exact ⟨h.messages.trans (messages_concat hm moves).symm, h.jobs, h.ptrs, h.allocs, h.pushed, h.answers, h.serial,
      h.lanes, h.others⟩

/-- A worker looks at the front of its queue. -/
theorem Inv.take (i : ℕ) :
    Inv arg sdk (moves ++ [.take i]) (takeFront st i) (seen ++ []) hist := by
  have hmoves := messages_concat (m := .take i) rfl moves
  rw [List.append_nil]
  unfold takeFront
  split
  · next curJob jobs hready hjobs =>
    have hi : i < st.worker.length := (List.getElem?_eq_some_iff.mp hready).1
    refine ⟨h.messages.trans hmoves.symm, h.jobs, h.ptrs, h.allocs, h.pushed, h.answers, h.serial,
      ?_, ?_⟩
    · intro i' hi'
      obtain ⟨queue, w, done, todo, hqueue, hworker, lane⟩ := h.lanes i' hi'
      rcases eq_or_ne i i' with rfl | hne
      -- the front of the queue is the first request that is still to do
      · obtain rfl : queue = curJob :: jobs := Option.some.inj (hqueue.symm.trans hjobs)
        obtain rfl : w = .ready := Option.some.inj (hworker.symm.trans hready)
        have htodo : curJob :: jobs = todo.map Dispatched.job := lane.queue
        refine ⟨_, .took curJob, done, todo, hqueue, List.getElem?_set_self hi, lane.split,
          lane.served, lane.waiting, lane.queue, lane.answered, lane.popped, ?_, by simp⟩
        rintro _ ⟨⟩
        rw [← htodo]
        rfl
      · exact ⟨queue, w, done, todo, hqueue, (List.getElem?_set_ne hne).trans hworker, lane⟩
    · intro i' hi'
      obtain ⟨hnone, hrest⟩ := h.others i' hi'
      exact ⟨getElem?_set_eq_none hnone _ _, hrest⟩
  · exact List.append_nil seen ▸ h.stay rfl

/-- A worker pops its queue. -/
theorem Inv.pop (i : ℕ) :
    ∃ st' new, popFront st i = some (st', new) ∧
      Inv arg sdk (moves ++ [.pop i]) st' (seen ++ new) hist := by
  have hmoves := messages_concat (m := .pop i) rfl moves
  unfold popFront
  split
  · next curJob hreplied =>
    have hi := h.lt_of_worker hreplied
    obtain ⟨queue, w, done, todo, hqueue, hworker, lane⟩ := h.lanes i hi
    obtain rfl : w = .replied curJob := Option.some.inj (hworker.symm.trans hreplied)
    -- a worker that has replied still has its job at the front
    have hfront : queue = curJob :: todo.map Dispatched.job := lane.queue
    rw [Server.pop, hqueue, hfront]
    refine ⟨_, _, rfl, h.messages.trans hmoves.symm, h.jobs, h.ptrs, h.allocs, ?_, ?_, h.serial,
      ?_, ?_⟩
    · simpa [pushedJobs] using h.pushed
    · simpa [sentAnswers] using h.answers
    · intro i' hi'
      rw [answeredBy_append, poppedBy_append]
      rcases eq_or_ne i i' with rfl | hne
      · refine ⟨_, .ready, done, todo, List.getElem?_set_self (List.getElem?_eq_some_iff.mp hqueue).1,
          List.getElem?_set_self (List.getElem?_eq_some_iff.mp hreplied).1, lane.split, lane.served,
          lane.waiting, rfl, by simpa using lane.answered, ?_, by simp, by simp⟩
        simpa [Worker.held] using lane.popped
      · obtain ⟨queue', w', done', todo', hqueue', hworker', lane'⟩ := h.lanes i' hi'
        exact ⟨queue', w', done', todo', (List.getElem?_set_ne hne).trans hqueue',
          (List.getElem?_set_ne hne).trans hworker', lane'.split, lane'.served, lane'.waiting,
          lane'.queue, by simpa using lane'.answered, by simpa [hne] using lane'.popped, lane'.took,
          lane'.alive⟩
    · intro i' hi'
      obtain ⟨hnone, hanswered, hpopped⟩ := h.others i' hi'
      refine ⟨getElem?_set_eq_none hnone _ _, by simpa using hanswered, ?_⟩
      rw [poppedBy_append, hpopped, poppedBy_popped, if_neg (by omega)]
      rfl
  · exact ⟨st, [], rfl, h.stay rfl⟩

end Moves

/-! ### A worker serves a job -/

theorem servedReqs_filter (arg : Arg) (hist : List Dispatched) (i : ℕ) :
    (servedReqs hist).filter (fun q => keyThread arg q.op.key = i) =
      servedReqs (hist.filter fun d => keyThread arg d.req.op.key = i) := by
  unfold servedReqs
  rw [List.filter_filterMap, List.filterMap_filter]
  refine List.filterMap_congr fun d _ => ?_
  cases d.reply with
  | none => simp
  | some r =>
    by_cases hi : keyThread arg d.req.op.key = i
    · simp [hi, Option.filter]
    · simp [hi, Option.filter]

theorem servedReqs_append (hist hist' : List Dispatched) :
    servedReqs (hist ++ hist') = servedReqs hist ++ servedReqs hist' := List.filterMap_append

/-- The requests of a worker that were served. -/
theorem Lane.servedReqs_eq {arg : Arg} {hist : List Dispatched} {i : ℕ} {queue : List Job} {w : Worker}
    {answered popped : List Job} {done todo : List Dispatched}
    (lane : Lane arg hist i queue w answered popped done todo) :
    (servedReqs hist).filter (fun q => keyThread arg q.op.key = i) = done.map Dispatched.req := by
  rw [servedReqs_filter, lane.split, servedReqs_append]
  have hdone : servedReqs done = done.map Dispatched.req := by
    rw [servedReqs, ← List.filterMap_eq_map]
    refine List.filterMap_congr fun d hd => ?_
    obtain ⟨r, hr⟩ := Option.isSome_iff_exists.mp (lane.served d hd)
    simp [hr]
  have htodo : servedReqs todo = [] := by
    rw [servedReqs, List.filterMap_eq_nil_iff]
    intro d hd
    rw [lane.waiting d hd]
    rfl
  rw [hdone, htodo, List.append_nil]

/-- A request with the reply it got. -/
def Dispatched.serve (d : Dispatched) (out : Outcome) : Dispatched :=
  { d with reply := some (out.cipher, out.log) }

@[simp] theorem req_serve (d : Dispatched) (out : Outcome) : (d.serve out).req = d.req := rfl

@[simp] theorem job_serve (d : Dispatched) (out : Outcome) : (d.serve out).job = d.job := rfl

theorem length_filterMap_reply (hist : List Dispatched) :
    (hist.filterMap Dispatched.reply).length = (servedReqs hist).length := by
  unfold servedReqs
  induction hist with
  | nil => rfl
  | cons d hist ih =>
    rw [List.filterMap_cons, List.filterMap_cons]
    cases d.reply with
    | none => exact ih
    | some r => exact congrArg (· + 1) ih

section Served

variable {arg : Arg} {l₁ l₂ : List Dispatched} {d : Dispatched} (out : Outcome)

/-- A request that is served has one more answer, wherever it was dispatched. -/
theorem perm_answer_serve (hnone : d.reply = none) {sent : List (ℕ × Job × List UInt8 × ℤ)}
    (hperm : sent.Perm ((l₁ ++ d :: l₂).filterMap (Dispatched.answer arg))) :
    (sent ++ [(keyThread arg d.req.op.key, d.job, out.cipher, d.job.clientSock)]).Perm
      ((l₁ ++ d.serve out :: l₂).filterMap (Dispatched.answer arg)) := by
  have hbefore : (l₁ ++ d :: l₂).filterMap (Dispatched.answer arg) =
      l₁.filterMap (Dispatched.answer arg) ++ l₂.filterMap (Dispatched.answer arg) := by
    rw [List.filterMap_append, List.filterMap_cons]
    simp [Dispatched.answer, hnone]
  have hafter : (l₁ ++ d.serve out :: l₂).filterMap (Dispatched.answer arg) =
      l₁.filterMap (Dispatched.answer arg) ++
        (keyThread arg d.req.op.key, d.job, out.cipher, d.job.clientSock) ::
          l₂.filterMap (Dispatched.answer arg) := by
    rw [List.filterMap_append, List.filterMap_cons]
    rfl
  rw [hbefore] at hperm
  rw [hafter]
  exact ((List.perm_append_singleton _ _).trans (hperm.cons _)).trans List.perm_middle.symm

/-- A request that is served moves to where it was dispatched, past requests of other
groups. -/
theorem run_serve (ha : arg.Valid) {sdk : Sdk} (hwf : ∀ d' ∈ l₁ ++ d :: l₂, d'.req.WellFormed arg)
    (hnone : d.reply = none)
    (hother : ∀ d' ∈ l₂, d'.reply ≠ none → keyGroup arg d'.req.op.key ≠ keyGroup arg d.req.op.key)
    {s : Store} (hout : serve arg sdk s d.req = some out)
    (hrun : run (replyStep arg sdk) (enclaveInitValues arg) (servedReqs (l₁ ++ d :: l₂)) =
      some (s, (l₁ ++ d :: l₂).filterMap Dispatched.reply)) :
    run (replyStep arg sdk) (enclaveInitValues arg) (servedReqs (l₁ ++ d.serve out :: l₂)) =
      some (out.store, (l₁ ++ d.serve out :: l₂).filterMap Dispatched.reply) := by
  have hreqs : servedReqs (l₁ ++ d :: l₂) = servedReqs l₁ ++ servedReqs l₂ := by
    rw [servedReqs_append]
    simp [servedReqs, hnone]
  have hreplies : (l₁ ++ d :: l₂).filterMap Dispatched.reply =
      l₁.filterMap Dispatched.reply ++ l₂.filterMap Dispatched.reply := by
    rw [List.filterMap_append]
    simp [hnone]
  have hreqs' : servedReqs (l₁ ++ d.serve out :: l₂) = servedReqs l₁ ++ d.req :: servedReqs l₂ := by
    rw [servedReqs_append]
    rfl
  have hreplies' : (l₁ ++ d.serve out :: l₂).filterMap Dispatched.reply =
      l₁.filterMap Dispatched.reply ++ (out.cipher, out.log) :: l₂.filterMap Dispatched.reply := by
    rw [List.filterMap_append]
    rfl
  rw [hreqs, hreplies] at hrun
  rw [hreqs', hreplies']
  -- the requests behind it are of other groups, and its own may come before them
  refine (local_replyStep ha sdk).run_insert_append (hwf d (by simp)) ?_
    (length_filterMap_reply l₁) hrun ?_
  · intro q hq
    obtain ⟨d', hd', hreply⟩ := List.mem_filterMap.mp hq
    obtain ⟨r, hr, rfl⟩ := Option.map_eq_some_iff.mp hreply
    exact ⟨hwf d' (by simp [hd']), hother d' hd' (by simp [hr])⟩
  · rw [replyStep, hout]
    rfl

/-- The queue of a worker that has served its next request. -/
theorem Lane.serve {i : ℕ} {queue answered popped : List Job} {done rest : List Dispatched}
    (lane : Lane arg (l₁ ++ d :: l₂) i queue (.took d.job) answered popped done (d :: rest))
    (hd : keyThread arg d.req.op.key = i)
    (hl₁ : l₁.filter (fun d => keyThread arg d.req.op.key = i) = done)
    (hl₂ : l₂.filter (fun d => keyThread arg d.req.op.key = i) = rest) :
    Lane arg (l₁ ++ d.serve out :: l₂) i queue (.replied d.job) (answered ++ [d.job]) popped
      (done ++ [d.serve out]) rest where
  split := by
    rw [List.filter_append, List.filter_cons_of_pos (by exact decide_eq_true hd), hl₁, hl₂]
    simp
  served := by
    intro d' hd'
    rcases List.mem_append.mp hd' with hd' | hd'
    · exact lane.served d' hd'
    · rw [List.mem_singleton] at hd'
      rw [hd']
      rfl
  waiting := fun d' hd' => lane.waiting d' (List.mem_cons_of_mem _ hd')
  queue := lane.queue
  answered := by
    rw [lane.answered, List.map_append]
    rfl
  popped := by
    have hpopped := lane.popped
    simp only [Worker.held, List.append_nil] at hpopped
    rw [hpopped, List.map_append]
    rfl
  took := by
    intro _ hw
    cases hw
  alive := by simp

/-- The queues of the other workers. -/
theorem Lane.serve_other {i : ℕ} {queue answered popped : List Job} {w : Worker}
    {done todo : List Dispatched}
    (lane : Lane arg (l₁ ++ d :: l₂) i queue w answered popped done todo)
    (hd : keyThread arg d.req.op.key ≠ i) :
    Lane arg (l₁ ++ d.serve out :: l₂) i queue w answered popped done todo where
  split := by
    rw [← lane.split, List.filter_append, List.filter_append,
      List.filter_cons_of_neg (by exact fun h => hd (of_decide_eq_true h)),
      List.filter_cons_of_neg (by exact fun h => hd (of_decide_eq_true h))]
  served := lane.served
  waiting := lane.waiting
  queue := lane.queue
  answered := lane.answered
  popped := lane.popped
  took := lane.took
  alive := lane.alive

end Served

section Exec

variable {arg : Arg} {sdk : Sdk} {moves : List Move} {st : Server} {seen : List Seen}
  {hist : List Dispatched} (ha : arg.Shared) (h : Inv arg sdk moves st seen hist)

include h

theorem Inv.reqs : hist.map Dispatched.req = moves.filterMap Move.req := by
  have heq := congrArg (List.map Prod.fst) h.messages
  rw [List.map_map, List.map_filterMap] at heq
  refine Eq.trans heq (List.filterMap_congr fun m _ => ?_)
  cases m <;> rfl

include ha

/-- Every worker has served its requests in their order, and the next one is the next. -/
theorem Inv.lanes_prefix {i : ℕ} {queue : List Job} {w : Worker} {answered popped : List Job}
    {done rest : List Dispatched} {d : Dispatched}
    (lane : Lane arg hist i queue w answered popped done (d :: rest)) (i' : ℕ) :
    (servedReqs hist ++ [d.req]).filter (fun q => keyThread arg q.op.key = i') <+:
      (moves.filterMap Move.req).filter fun q => keyThread arg q.op.key = i' := by
  obtain ⟨-, -, -, -, hd, -⟩ := exists_split_of_filter lane.split
  rw [decide_eq_true_eq] at hd
  have hreqs : (hist.map Dispatched.req).filter (fun q => keyThread arg q.op.key = i') =
      (hist.filter fun d => keyThread arg d.req.op.key = i').map Dispatched.req := by
    rw [List.filter_map]
    rfl
  rw [← h.reqs, hreqs, List.filter_append]
  -- the worker itself has one request more, the others have what they had
  rcases eq_or_ne i i' with rfl | hne
  · rw [lane.servedReqs_eq, lane.split, List.map_append, List.map_cons,
      List.filter_cons_of_pos (by simpa using hd), List.filter_nil]
    exact (List.prefix_append_right_inj _).mpr (List.cons_prefix_cons.mpr ⟨rfl, List.nil_prefix⟩)
  · rw [List.filter_cons_of_neg (by simpa [hd] using hne), List.filter_nil, List.append_nil]
    rcases Nat.lt_or_ge i' arg.numThreads with hi' | hi'
    · obtain ⟨_, _, done', todo', -, -, lane'⟩ := h.lanes i' hi'
      rw [lane'.servedReqs_eq, lane'.split, List.map_append]
      exact List.prefix_append _ _
    · have hnone : hist.filter (fun d => keyThread arg d.req.op.key = i') = [] := by
        rw [List.filter_eq_nil_iff]
        intro d' _ heq
        rw [decide_eq_true_eq] at heq
        have := keyThread_lt ha.threaded d'.req.op.key
        omega
      rw [servedReqs_filter, hnone]
      exact List.nil_prefix

variable (hqs : ∀ q ∈ moves.filterMap Move.req, q.WellFormed arg)
  (hfit : ∀ p, p <+: moves.filterMap Move.req → ∀ k v, StringMap.after p k = some v →
    v.length + 1 ≤ arg.maxBufSize)
  (hslots : arg.macOpt = true → ∀ b, (bucketKeys arg b (moves.filterMap Move.req)).length ≤ macSlots)

include hqs hfit hslots

/-- The next request of a worker can be served. -/
theorem Inv.exists_serve {i : ℕ} {queue : List Job} {w : Worker} {answered popped : List Job}
    {done rest : List Dispatched} {d : Dispatched}
    (lane : Lane arg hist i queue w answered popped done (d :: rest)) :
    ∃ out, serve arg sdk st.store d.req = some out := by
  have hlane := h.lanes_prefix ha lane
  have hroom := room_of_lanes hlane hfit hslots
  have hsub := subset_of_lanes hlane
  obtain ⟨s, outs, hrun, hholds, -⟩ := exists_run_serveStep sdk ha.toValid
    (fun q hq => hqs q (hsub (List.mem_append_left _ hq)))
    (fun p hp => hroom p (hp.trans (List.prefix_append _ _)))
  -- the store is the one that serving in order leads to, which has room for the next
  have hserial := h.serial
  rw [@run_map_out _ _ _ _ (serveStep arg sdk) _ (fun out => (out.cipher, out.log))
    (fun s q => by rw [replyStep, serveStep, Option.map_map]; rfl), hrun, Option.map_some,
    Option.some.injEq, Prod.mk.injEq] at hserial
  rw [← hserial.1]
  have hnext := hroom _ (List.prefix_refl _)
  rw [Recs.after, List.foldl_append] at hnext
  obtain ⟨out, hout, -⟩ := serve_spec ha.toValid hholds (hqs _ (hsub (by simp))) hnext
  exact ⟨out, hout⟩

omit h hfit hslots hqs ha in
/-- A worker answers a job that it can serve. -/
theorem execute_of_request {i : ℕ} {job : Job} {out : Outcome}
    (hworker : st.worker[i]? = some (.took job))
    (h : request arg sdk st.store job.rand job.buf = some (some out)) :
    execute arg sdk st i =
      some ({ st with store := out.store, worker := st.worker.set i (.replied job) },
        out.log.map Seen.event ++ [.answered i job out.cipher job.clientSock]) := by
  have hc := h
  unfold request at hc
  simp only [Option.bind_eq_bind, Option.bind_eq_some_iff] at hc
  obtain ⟨c, hc, hout⟩ := hc
  unfold execute
  cases c with
  | quit => cases hout
  | untyped => cases hout
  | _ => simp [hworker, hc, h]

/-- A worker serves the job it has taken.  Its request moves in the history to where it
was dispatched, past requests of other workers. -/
theorem Inv.exec (i : ℕ) :
    ∃ st' new hist', execute arg sdk st i = some (st', new) ∧
      Inv arg sdk (moves ++ [.exec i]) st' (seen ++ new) hist' := by
  by_cases htook : ∃ curJob, st.worker[i]? = some (.took curJob)
  swap
  · refine ⟨st, [], hist, ?_, h.stay rfl⟩
    unfold execute
    split
    · next curJob hcur => exact absurd ⟨curJob, hcur⟩ htook
    · rfl
  obtain ⟨curJob, hcur⟩ := htook
  have hi := h.lt_of_worker hcur
  obtain ⟨queue, w, done, todo, hqueue, hworker, lane⟩ := h.lanes i hi
  obtain rfl : w = .took curJob := Option.some.inj (hworker.symm.trans hcur)
  obtain ⟨d, rest, rfl, rfl⟩ : ∃ d rest, todo = d :: rest ∧ d.job = curJob := by
    have hhead := lane.took curJob rfl
    cases todo with
    | nil => cases hhead
    | cons d rest => exact ⟨d, rest, rfl, Option.some.inj hhead⟩
  obtain ⟨out, hout⟩ := h.exists_serve ha hqs hfit hslots lane
  obtain ⟨l₁, l₂, rfl, hl₁, hd, hl₂⟩ := exists_split_of_filter lane.split
  rw [decide_eq_true_eq] at hd
  have hwf : ∀ d' ∈ l₁ ++ d :: l₂, d'.req.WellFormed arg := by
    intro d' hd'
    refine hqs _ ?_
    rw [← h.reqs]
    exact List.mem_map_of_mem hd'
  obtain ⟨hbuf, hrand⟩ := h.jobs d (by simp)
  have hmoves := messages_concat (m := .exec i) rfl moves
  have hrequest : request arg sdk st.store d.job.rand d.job.buf = some (some out) := by
    rw [hbuf, hrand]
    exact Option.join_eq_some_iff.mp hout
  subst hd
  refine ⟨_, _, l₁ ++ d.serve out :: l₂, execute_of_request hcur hrequest, ?_⟩
  constructor
  · rw [hmoves, ← h.messages, List.map_append, List.map_append, List.map_cons, List.map_cons]
    rfl
  · intro d' hd'
    rcases List.mem_append.mp hd' with hd' | hd'
    · exact h.jobs d' (List.mem_append_left _ hd')
    · rcases List.mem_cons.mp hd' with rfl | hd'
      · exact ⟨hbuf, hrand⟩
      · exact h.jobs d' (List.mem_append_right _ (List.mem_cons_of_mem _ hd'))
  · simpa using h.ptrs
  · simpa using h.allocs
  · rw [pushedJobs_append, pushedJobs_append, pushedJobs_events, h.pushed]
    simp [pushedJobs]
  · rw [sentAnswers_append, sentAnswers_append, sentAnswers_events]
    exact perm_answer_serve out (lane.waiting d (by simp)) h.answers
  · refine run_serve out ha.toValid hwf (lane.waiting d (by simp)) ?_ hout h.serial
    intro d' hd' hreply hgroup
    -- a later request of the same worker is still waiting
    refine hreply (lane.waiting d' (List.mem_cons_of_mem _ ?_))
    rw [← hl₂, List.mem_filter, decide_eq_true_eq]
    exact ⟨hd', keyThread_eq_of_keyGroup ha hgroup⟩
  · intro i' hi'
    rcases eq_or_ne (keyThread arg d.req.op.key) i' with rfl | hne
    · refine ⟨queue, .replied d.job, done ++ [d.serve out], rest, hqueue,
        List.getElem?_set_self (List.getElem?_eq_some_iff.mp hcur).1, ?_⟩
      simpa [poppedBy] using lane.serve out rfl hl₁ hl₂
    · obtain ⟨queue', w', done', todo', hqueue', hworker', lane'⟩ := h.lanes i' hi'
      refine ⟨queue', w', done', todo', hqueue', (List.getElem?_set_ne hne).trans hworker', ?_⟩
      simpa [hne, poppedBy] using lane'.serve_other out hne
  · intro i' hi'
    obtain ⟨hnone, hanswered, hpopped⟩ := h.others i' hi'
    refine ⟨getElem?_set_eq_none hnone _ _, ?_, ?_⟩
    · rw [answeredBy_append, hanswered, answeredBy_append, answeredBy_events, answeredBy_answered,
        if_neg (by omega)]
      rfl
    · rw [poppedBy_append, hpopped, poppedBy_append, poppedBy_events]
      rfl

end Exec

/-! ### Every interleaving -/

theorem Inv.init {arg : Arg} (sdk : Sdk) : Inv arg sdk [] (Server.init arg) [] [] := by
  refine ⟨rfl, by simp, rfl, rfl, rfl, List.Perm.refl _, rfl, ?_, ?_⟩
  · intro i hi
    refine ⟨[], .ready, [], [], ?_, ?_, ?_⟩
    · exact List.getElem?_replicate_of_lt hi
    · exact List.getElem?_replicate_of_lt hi
    · constructor <;> simp [Worker.held]
  · intro i hi
    refine ⟨?_, rfl, rfl⟩
    rw [List.getElem?_eq_none_iff]
    simpa [Server.init] using hi

/-- **One move** of a server that is sent requests only. -/
theorem Inv.step {arg : Arg} {sdk : Sdk} {moves : List Move} {st : Server} {seen : List Seen}
    {hist : List Dispatched} (ha : arg.Shared) (h : Inv arg sdk moves st seen hist) (m : Move)
    (hqs : ∀ q ∈ (moves ++ [m]).filterMap Move.req, q.WellFormed arg)
    (hfit : ∀ p, p <+: (moves ++ [m]).filterMap Move.req → ∀ k v, StringMap.after p k = some v →
      v.length + 1 ≤ arg.maxBufSize)
    (hslots : arg.macOpt = true → ∀ b,
      (bucketKeys arg b ((moves ++ [m]).filterMap Move.req)).length ≤ macSlots) :
    ∃ st' new hist', serverStep arg sdk st (m.act arg) = some (st', new) ∧
      Inv arg sdk (moves ++ [m]) st' (seen ++ new) hist' := by
  rw [List.filterMap_append] at hqs hfit hslots
  cases m with
  | dispatch q clientSock numClients =>
    exact h.dispatch ha (hqs q (List.mem_append_right _ (List.mem_singleton_self q))) clientSock
      numClients
  | take i => exact ⟨_, _, hist, rfl, h.take i⟩
  | pop i =>
    obtain ⟨st', new, hstep, hinv⟩ := h.pop i
    exact ⟨st', new, hist, hstep, hinv⟩
  | exec i =>
    rw [show [Move.exec i].filterMap Move.req = [] from rfl, List.append_nil] at hqs hfit hslots
    exact h.exec ha hqs hfit hslots i

/-- **Every interleaving is as good as one after the other.**  Whatever the order in
which requests come in and workers move, the server's behaviour is defined, and in the
state it reaches the store and the replies are those of serving the requests that were
served so far in the order in which they were dispatched. -/
theorem workers_serial {arg : Arg} (sdk : Sdk) (ha : arg.Shared) {moves : List Move}
    (hqs : ∀ q ∈ moves.filterMap Move.req, q.WellFormed arg)
    (hfit : ∀ p, p <+: moves.filterMap Move.req → ∀ k v, StringMap.after p k = some v →
      v.length + 1 ≤ arg.maxBufSize)
    (hslots : arg.macOpt = true → ∀ b,
      (bucketKeys arg b (moves.filterMap Move.req)).length ≤ macSlots) :
    ∃ st seen hist, run (serverStep arg sdk) (Server.init arg) (moves.map (Move.act arg)) =
        some (st, seen) ∧ Serial arg sdk moves st seen.flatten hist := by
  -- the moves one by one, with all that the invariant says
  suffices hinv : ∃ st seen hist,
      run (serverStep arg sdk) (Server.init arg) (moves.map (Move.act arg)) = some (st, seen) ∧
        Inv arg sdk moves st seen.flatten hist by
    obtain ⟨st, seen, hist, hrun, hinv⟩ := hinv
    exact ⟨st, seen, hist, hrun, hinv.toSerial⟩
  induction moves using List.reverseRecOn with
  | nil => exact ⟨_, _, [], rfl, Inv.init sdk⟩
  | append_singleton moves m ih =>
    have hpre : moves.filterMap Move.req <+: (moves ++ [m]).filterMap Move.req := by
      rw [List.filterMap_append]
      exact List.prefix_append _ _
    obtain ⟨st, seen, hist, hrun, hinv⟩ := ih (fun q hq => hqs q (hpre.subset hq))
      (fun p hp => hfit p (hp.trans hpre)) (fun hmac b =>
        (length_bucketKeys_le hpre.subset b).trans (hslots hmac b))
    obtain ⟨st', new, hist', hstep, hinv'⟩ := hinv.step ha m hqs hfit hslots
    refine ⟨st', seen ++ [new], hist', ?_, by simpa using hinv'⟩
    rw [List.map_append]
    exact run_concat_eq_some_iff.mpr ⟨st, seen, new, hrun, hstep, rfl⟩

/-- Two workers, of which the second serves its request first. -/
theorem workers_serial_two :
    ∃ st seen hist, run (serverStep ⟨2, 32, 2, 2, false, false⟩ Sdk.aes)
        (Server.init ⟨2, 32, 2, 2, false, false⟩)
        ([Move.dispatch ⟨.set [0x6b] [0x76], false, 1⟩ 4 2, .dispatch ⟨.set [0x6c] [0x77], false, 2⟩ 5 2,
          .take 0, .take 1, .exec 1, .exec 0, .pop 1, .pop 0].map
            (Move.act ⟨2, 32, 2, 2, false, false⟩)) = some (st, seen) ∧
      Serial ⟨2, 32, 2, 2, false, false⟩ Sdk.aes
        [Move.dispatch ⟨.set [0x6b] [0x76], false, 1⟩ 4 2, .dispatch ⟨.set [0x6c] [0x77], false, 2⟩ 5 2,
          .take 0, .take 1, .exec 1, .exec 0, .pop 1, .pop 0] st seen.flatten hist :=
  workers_serial Sdk.aes (by decide) (by decide) (fits_of_sum_le (by decide)) (fun h => by cases h)

end ShieldStore
