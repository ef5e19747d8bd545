import ShieldStore.Front

/-!
# Sessions

What clients do from the first connection to the last `EXIT`, against the server in big
steps.  The workers are sent quit jobs behind all requests, so that the server is at any
time one that was sent requests only, with a quit job at the end of every queue when they
have been sent.

## Main definitions

* `Orderly` — the clients send what fits, and the quit jobs are sent when `main` leaves.
* `Stripped` — a server without its quit jobs.
* `Session` — the state of the server, and what the clients have sent and got so far.

## Main results

* `InSession.step` — one move.
* `InSession.run` — every run.
-/

namespace ShieldStore

open Bytes Counter CMem Function Run

/-! ### What clients do -/

/-- The request of an event, and its socket. -/
def ClientEvent.message : ClientEvent → Option (Req × ℤ)
  | .request sock req => some (req, sock)
  | _ => none

/-- The requests, in their order. -/
def requests (es : List ClientEvent) : List Req := (es.filterMap ClientEvent.message).map Prod.fst

/-- The clients send what fits, and quit jobs are sent only when `main` leaves its loop:
the `EXIT` that makes them as many as the clients there ever were at once is the one that
closes the last connection. -/
structure Orderly (arg : Arg) (es : List ClientEvent) : Prop where
  ok : ∀ e ∈ es, e.Ok arg
  fit : ∀ p, p <+: requests es → ∀ k v, StringMap.after p k = some v → v.length + 1 ≤ arg.maxBufSize
  slots : arg.macOpt = true → ∀ b, (bucketKeys arg b (requests es)).length ≤ macSlots
  fires : ∀ p, p <+: es → fires p = true → closing p = true

theorem requests_mono {p es : List ClientEvent} (h : p <+: es) : requests p <+: requests es :=
  (h.filterMap _).map _

theorem Orderly.mono {arg : Arg} {p es : List ClientEvent} (h : Orderly arg es) (hp : p <+: es) :
    Orderly arg p where
  ok := fun e he => h.ok e (hp.subset he)
  fit := fun q hq => h.fit q (hq.trans (requests_mono hp))
  slots := fun hmac b => (length_bucketKeys_le (requests_mono hp).subset b).trans (h.slots hmac b)
  fires := fun q hq => h.fires q (hq.trans hp)

theorem Orderly.wellFormed {arg : Arg} {es : List ClientEvent} (h : Orderly arg es) :
    ∀ q ∈ requests es, q.WellFormed arg := by
  intro q hq
  obtain ⟨m, hm, rfl⟩ := List.mem_map.mp hq
  obtain ⟨e, he, heq⟩ := List.mem_filterMap.mp hm
  have hok := h.ok e he
  cases e with
  | request sock req =>
    cases heq
    exact hok.1
  | _ => cases heq

/-- A session that is orderly as it stands: its values fit together, and no MAC buffer
has to have room. -/
theorem orderly_of_inits {arg : Arg} {es : List ClientEvent} (hok : ∀ e ∈ es, e.Ok arg)
    (hsum : ((requests es).map fun q => q.op.val.length).sum + 1 ≤ arg.maxBufSize)
    (hmac : arg.macOpt = false) (hinits : ∀ p ∈ es.inits, fires p = true → closing p = true) :
    Orderly arg es where
  ok := hok
  fit := fits_of_sum_le hsum
  slots := by simp [hmac]
  fires := fun p hp => hinits p ((List.mem_inits _ _).mpr hp)

/-- Two clients connect, one of which sets the key that the other asks for. -/
def overlappingSession : List ClientEvent :=
  [.accept, .accept, .request 4 ⟨.set [0x61] [0x31], false, 0⟩, .request 5 ⟨.get [0x61], false, 0⟩]

theorem orderly_overlapping : Orderly ⟨1, 32, 1, 1, false, false⟩ overlappingSession :=
  orderly_of_inits (by decide) (by decide) rfl (by decide)

/-- The inputs that were received. -/
def receivedInputs (os : List Shown) : List Input :=
  os.filterMap fun
    | .received input => some input
    | _ => none

/-- The answers that were sent, each with its worker, its job and its socket. -/
def shownAnswers (os : List Shown) : List (ℕ × Job × List UInt8 × ℤ) :=
  os.filterMap fun
    | .seen (.answered i job cipher clientSock) => some (i, job, cipher, clientSock)
    | _ => none

theorem receivedInputs_append (os os' : List Shown) :
    receivedInputs (os ++ os') = receivedInputs os ++ receivedInputs os' := List.filterMap_append

theorem shownAnswers_append (os os' : List Shown) :
    shownAnswers (os ++ os') = shownAnswers os ++ shownAnswers os' := List.filterMap_append

theorem receivedInputs_visible (seen : List Seen) : receivedInputs (visible seen) = [] := by
  unfold receivedInputs visible
  rw [List.filterMap_filterMap, List.filterMap_eq_nil_iff]
  intro s _
  cases s <;> rfl

theorem shownAnswers_visible (seen : List Seen) : shownAnswers (visible seen) = sentAnswers seen := by
  unfold shownAnswers visible sentAnswers
  rw [List.filterMap_filterMap]
  refine List.filterMap_congr fun s _ => ?_
  cases s <;> rfl

/-! ### A server without its quit jobs -/

/-- A queue and its worker, and what they are without the quit job. -/
inductive Ending : List Job → Worker → List Job → Worker → Prop
  | behind {queue : List Job} {w : Worker} {quit : Job} (hquit : command quit.buf = some .quit) :
      Ending (queue ++ [quit]) w queue w
  | took {quit : Job} (hquit : command quit.buf = some .quit) : Ending [quit] (.took quit) [] .ready
  | returned : Ending [] .returned [] .ready

/-- A worker of two servers, of which the first has quit jobs. -/
def LaneEnds (real sv : Server) (i : ℕ) : Prop :=
  ∃ queue w queue' w', real.queue[i]? = some queue ∧ real.worker[i]? = some w ∧
    sv.queue[i]? = some queue' ∧ sv.worker[i]? = some w' ∧ Ending queue w queue' w'

/-- A server without its quit jobs.  Before they are sent it is the same but for
`exit_count`. -/
inductive Stripped (arg : Arg) (real sv : Server) : Bool → Prop
  | before (h : real = { sv with exitCount := real.exitCount }) : Stripped arg real sv false
  | after (hstore : real.store = sv.store) (hlanes : ∀ i < arg.numThreads, LaneEnds real sv i)
      (hothers : ∀ i, arg.numThreads ≤ i → real.worker[i]? = none ∧ sv.worker[i]? = none) :
      Stripped arg real sv true

theorem Stripped.store {arg : Arg} {real sv : Server} {fired : Bool} (h : Stripped arg real sv fired) :
    real.store = sv.store := by
  cases h with
  | before h => rw [h]
  | after hstore => exact hstore

section Lanes

variable {real real' sv sv' : Server} {i j : ℕ}

/-- The other workers. -/
theorem LaneEnds.frame (h : LaneEnds real sv j) (hqueue : real'.queue[j]? = real.queue[j]?)
    (hworker : real'.worker[j]? = real.worker[j]?) (hqueue' : sv'.queue[j]? = sv.queue[j]?)
    (hworker' : sv'.worker[j]? = sv.worker[j]?) : LaneEnds real' sv' j := by
  obtain ⟨queue, w, queue', w', h₁, h₂, h₃, h₄, hending⟩ := h
  exact ⟨queue, w, queue', w', hqueue.trans h₁, hworker.trans h₂, hqueue'.trans h₃, hworker'.trans h₄,
    hending⟩

end Lanes

theorem takeFront_worker_of_ne (st : Server) {i j : ℕ} (hne : i ≠ j) :
    (takeFront st i).worker[j]? = st.worker[j]? := by
  unfold takeFront
  split
  · exact List.getElem?_set_ne hne
  · rfl

theorem takeFront_queue (st : Server) (i : ℕ) : (takeFront st i).queue = st.queue := by
  unfold takeFront
  split <;> rfl

theorem takeFront_store (st : Server) (i : ℕ) : (takeFront st i).store = st.store := by
  unfold takeFront
  split <;> rfl

theorem takeFront_ready {st : Server} {i : ℕ} {curJob : Job} {jobs : List Job}
    (hready : st.worker[i]? = some .ready) (hqueue : st.queue[i]? = some (curJob :: jobs)) :
    takeFront st i = { st with worker := st.worker.set i (.took curJob) } := by
  simp [takeFront, hready, hqueue]

theorem takeFront_nil {st : Server} {i : ℕ} (hqueue : st.queue[i]? = some []) : takeFront st i = st := by
  unfold takeFront
  split
  · next h => rw [hqueue] at h; cases h
  · rfl

theorem takeFront_busy {st : Server} {i : ℕ} {w : Worker} (hworker : st.worker[i]? = some w)
    (hw : w ≠ .ready) : takeFront st i = st := by
  unfold takeFront
  split
  · next h _ =>
    rw [hworker] at h
    cases h
    exact absurd rfl hw
  · rfl

/-- A worker looks at its queue. -/
theorem Stripped.take {arg : Arg} {real sv : Server} {fired : Bool} (h : Stripped arg real sv fired)
    (i : ℕ) : Stripped arg (takeFront real i) (takeFront sv i) fired := by
  cases h with
  | before h =>
    rw [h]
    refine .before ?_
    unfold takeFront
    dsimp only
    split <;> rfl
  | after hstore hlanes hothers =>
    refine .after ?_ ?_ ?_
    · rw [takeFront_store, takeFront_store, hstore]
    · intro j hj
      rcases eq_or_ne i j with rfl | hne
      · obtain ⟨queue, w, queue', w', hqueue, hw, hqueue', hw', hending⟩ := hlanes i hj
        have hlt := (List.getElem?_eq_some_iff.mp hw).1
        have hlt' := (List.getElem?_eq_some_iff.mp hw').1
        cases hending with
        | behind hquit =>
          by_cases hready : w = .ready
          · subst hready
            cases queue' with
            | nil =>
              -- the quit job is the next one
              rw [takeFront_ready hw hqueue, takeFront_nil hqueue']
              exact ⟨_, _, _, _, hqueue, List.getElem?_set_self hlt, hqueue', hw', .took hquit⟩
            | cons curJob jobs =>
              rw [takeFront_ready hw hqueue, takeFront_ready hw' hqueue']
              exact ⟨_, _, _, _, hqueue, List.getElem?_set_self hlt, hqueue',
                List.getElem?_set_self hlt', .behind hquit⟩
          · rw [takeFront_busy hw hready, takeFront_busy hw' hready]
            exact ⟨_, _, _, _, hqueue, hw, hqueue', hw', .behind hquit⟩
        | took hquit =>
          rw [takeFront_busy hw (by simp), takeFront_nil hqueue']
          exact ⟨_, _, _, _, hqueue, hw, hqueue', hw', .took hquit⟩
        | returned =>
          rw [takeFront_nil hqueue, takeFront_nil hqueue']
          exact ⟨_, _, _, _, hqueue, hw, hqueue', hw', .returned⟩
      · exact (hlanes j hj).frame (by rw [takeFront_queue]) (takeFront_worker_of_ne real hne)
          (by rw [takeFront_queue]) (takeFront_worker_of_ne sv hne)
    · intro j hj
      obtain ⟨hreal, hsv⟩ := hothers j hj
      unfold takeFront
      constructor
      · split
        · exact Lists.getElem?_set_eq_none hreal _ _
        · exact hreal
      · split
        · exact Lists.getElem?_set_eq_none hsv _ _
        · exact hsv

/-! ### `exit_count` is of no concern to the workers -/

theorem push_exitCount (sv : Server) (exitCount i : ℕ) (buf : List UInt8) (clientSock : ℤ) (rand : Block) :
    ({ sv with exitCount } : Server).push i buf clientSock rand =
      (sv.push i buf clientSock rand).map fun r => ({ r.1 with exitCount }, r.2) := by
  unfold Server.push
  cases sv.queue[i]? <;> rfl

theorem pop_exitCount (sv : Server) (exitCount i : ℕ) (next : Worker) :
    ({ sv with exitCount } : Server).pop i next =
      (sv.pop i next).map fun r => ({ r.1 with exitCount }, r.2) := by
  unfold Server.pop
  dsimp only
  split <;> rfl

theorem popFront_exitCount (sv : Server) (exitCount i : ℕ) :
    popFront { sv with exitCount } i = (popFront sv i).map fun r => ({ r.1 with exitCount }, r.2) := by
  unfold popFront
  dsimp only
  split
  · exact pop_exitCount sv exitCount i .ready
  · rfl

theorem execute_exitCount (arg : Arg) (sdk : Sdk) (sv : Server) (exitCount i : ℕ) :
    execute arg sdk { sv with exitCount } i =
      (execute arg sdk sv i).map fun r => ({ r.1 with exitCount }, r.2) := by
  unfold execute
  dsimp only
  split
  · next curJob _ =>
    cases command curJob.buf with
    | none => rfl
    | some c =>
      cases c with
      | quit => exact pop_exitCount sv exitCount i .returned
      | untyped => rfl
      | _ =>
        cases request arg sdk sv.store curJob.rand curJob.buf with
        | none => rfl
        | some r => cases r <;> rfl
  · rfl

/-! ### What a worker leaves alone -/

/-- The counter of `EXIT`s and the number of queues are what they were. -/
def Server.SameFront (st st' : Server) : Prop :=
  st'.exitCount = st.exitCount ∧ st'.queue.length = st.queue.length

theorem pop_sameFront {st st' : Server} {i : ℕ} {next : Worker} {new : List Seen}
    (h : st.pop i next = some (st', new)) : st.SameFront st' := by
  unfold Server.pop at h
  split at h
  · cases h
    exact ⟨rfl, List.length_set⟩
  · cases h

theorem popFront_sameFront {st st' : Server} {i : ℕ} {new : List Seen}
    (h : popFront st i = some (st', new)) : st.SameFront st' := by
  unfold popFront at h
  split at h
  · exact pop_sameFront h
  · cases h
    exact ⟨rfl, rfl⟩

theorem execute_sameFront {arg : Arg} {sdk : Sdk} {st st' : Server} {i : ℕ} {new : List Seen}
    (h : execute arg sdk st i = some (st', new)) : st.SameFront st' := by
  unfold execute at h
  split at h
  · simp only [Option.bind_eq_bind, Option.bind_eq_some_iff] at h
    obtain ⟨c, -, h⟩ := h
    cases c with
    | quit => exact pop_sameFront h
    | untyped =>
      cases h
      exact ⟨rfl, rfl⟩
    | _ =>
      simp only [Option.bind_eq_some_iff] at h
      obtain ⟨_, -, _, -, heq⟩ := h
      cases heq
      exact ⟨rfl, rfl⟩
  · cases h
    exact ⟨rfl, rfl⟩

theorem execute_idle {arg : Arg} {sdk : Sdk} {st : Server} {i : ℕ}
    (h : ∀ curJob, st.worker[i]? ≠ some (.took curJob)) : execute arg sdk st i = some (st, []) := by
  unfold execute
  split
  · next curJob hcur => exact absurd hcur (h curJob)
  · rfl

theorem popFront_idle {st : Server} {i : ℕ} (h : ∀ curJob, st.worker[i]? ≠ some (.replied curJob)) :
    popFront st i = some (st, []) := by
  unfold popFront
  split
  · next curJob hcur => exact absurd hcur (h curJob)
  · rfl

/-! ### The workers with their quit jobs -/

section Serve

variable {arg : Arg} {sdk : Sdk} {moves : List Move} {real sv : Server} {seen : List Seen}
  {hist : List Dispatched} {fired : Bool} (hinv : Inv arg sdk moves sv seen hist)
  (hstripped : Stripped arg real sv fired)

include hinv

/-- A job that a worker has taken is a request that it can serve. -/
theorem Inv.exists_request (ha : arg.Shared)
    (hqs : ∀ q ∈ moves.filterMap Move.req, q.WellFormed arg)
    (hfit : ∀ p, p <+: moves.filterMap Move.req → ∀ k v, StringMap.after p k = some v →
      v.length + 1 ≤ arg.maxBufSize)
    (hslots : arg.macOpt = true → ∀ b, (bucketKeys arg b (moves.filterMap Move.req)).length ≤ macSlots)
    {i : ℕ} {curJob : Job} (hcur : sv.worker[i]? = some (.took curJob)) :
    ∃ out, request arg sdk sv.store curJob.rand curJob.buf = some (some out) := by
  obtain ⟨queue, w, done, todo, -, hworker, lane⟩ := hinv.lanes i (hinv.lt_of_worker hcur)
  obtain rfl : w = .took curJob := Option.some.inj (hworker.symm.trans hcur)
  have hhead := lane.took curJob rfl
  cases todo with
  | nil => cases hhead
  | cons d rest =>
    obtain rfl : d.job = curJob := Option.some.inj hhead
    obtain ⟨out, hout⟩ := hinv.exists_serve ha hqs hfit hslots lane
    -- the job is that of a request that was dispatched
    have hmem : d ∈ hist := by
      have hd : d ∈ hist.filter fun d => keyThread arg d.req.op.key = i := by
        rw [lane.split]
        simp
      exact (List.mem_filter.mp hd).1
    obtain ⟨hbuf, hrand⟩ := hinv.jobs d hmem
    refine ⟨out, ?_⟩
    rw [hbuf, hrand]
    exact Option.join_eq_some_iff.mp hout

include hstripped

/-- A worker serves its job.  A quit job is none of the stripped server's. -/
theorem Stripped.exec {i : ℕ}
    (hserves : ∀ curJob, sv.worker[i]? = some (.took curJob) →
      ∃ out, request arg sdk sv.store curJob.rand curJob.buf = some (some out)) :
    ∃ real' sv' new new', execute arg sdk real i = some (real', new') ∧
      execute arg sdk sv i = some (sv', new) ∧ Stripped arg real' sv' fired ∧
      sentAnswers new' = sentAnswers new := by
  by_cases htook : ∃ curJob, sv.worker[i]? = some (.took curJob)
  · obtain ⟨curJob, hcur⟩ := htook
    obtain ⟨out, hout⟩ := hserves curJob hcur
    have hsv := execute_of_request hcur hout
    cases hstripped with
    | before h =>
      have hreal := execute_exitCount arg sdk sv real.exitCount i
      rw [← h, hsv] at hreal
      exact ⟨_, _, _, _, hreal, hsv, .before rfl, rfl⟩
    | after hstore hlanes hothers =>
      have hi := hinv.lt_of_worker hcur
      obtain ⟨queue, w, queue', w', hqueue, hw, hqueue', hw', hending⟩ := hlanes i hi
      obtain rfl : w' = .took curJob := Option.some.inj (hw'.symm.trans hcur)
      cases hending with
      | behind hquit =>
        rw [← hstore] at hout
        refine ⟨_, _, _, _, execute_of_request hw hout, hsv, .after rfl ?_ ?_, rfl⟩
        · intro j hj
          rcases eq_or_ne i j with rfl | hne
          · exact ⟨_, _, _, _, hqueue, List.getElem?_set_self (List.getElem?_eq_some_iff.mp hw).1, hqueue',
              List.getElem?_set_self (List.getElem?_eq_some_iff.mp hw').1, .behind hquit⟩
          · exact (hlanes j hj).frame rfl (List.getElem?_set_ne hne) rfl (List.getElem?_set_ne hne)
        · intro j hj
          obtain ⟨hreal, hother⟩ := hothers j hj
          exact ⟨Lists.getElem?_set_eq_none hreal _ _, Lists.getElem?_set_eq_none hother _ _⟩
  · have hidle : ∀ curJob, sv.worker[i]? ≠ some (.took curJob) := fun curJob h => htook ⟨curJob, h⟩
    have hsv : execute arg sdk sv i = some (sv, []) := execute_idle hidle
    cases hstripped with
    | before h =>
      have hreal := execute_exitCount arg sdk sv real.exitCount i
      rw [← h, hsv] at hreal
      exact ⟨_, _, _, _, hreal, hsv, .before rfl, rfl⟩
    | after hstore hlanes hothers =>
      rcases Nat.lt_or_ge i arg.numThreads with hi | hi
      · obtain ⟨queue, w, queue', w', hqueue, hw, hqueue', hw', hending⟩ := hlanes i hi
        cases hending with
        | behind hquit =>
          refine ⟨real, sv, [], [], execute_idle ?_, hsv, .after hstore hlanes hothers, rfl⟩
          intro curJob hcur
          exact hidle curJob (hw'.trans (hw.symm.trans hcur))
        | @took quit hquit =>
          -- the worker returns
          have hreal : execute arg sdk real i = some
              ({ real with
                  queue := real.queue.set i []
                  worker := real.worker.set i .returned }, [.popped i quit]) := by
            simp [execute, hw, hquit, Server.pop, hqueue]
          refine ⟨_, sv, [], _, hreal, hsv, .after hstore ?_ ?_, rfl⟩
          · intro j hj
            rcases eq_or_ne i j with rfl | hne
            · exact ⟨_, _, _, _, List.getElem?_set_self (List.getElem?_eq_some_iff.mp hqueue).1,
                List.getElem?_set_self (List.getElem?_eq_some_iff.mp hw).1, hqueue', hw', .returned⟩
            · exact (hlanes j hj).frame (List.getElem?_set_ne hne) (List.getElem?_set_ne hne) rfl rfl
          · intro j hj
            obtain ⟨hnone, hother⟩ := hothers j hj
            exact ⟨Lists.getElem?_set_eq_none hnone _ _, hother⟩
        | returned =>
          refine ⟨real, sv, [], [], execute_idle ?_, hsv, .after hstore hlanes hothers, rfl⟩
          rw [hw]
          simp
      · refine ⟨real, sv, [], [], execute_idle ?_, hsv, .after hstore hlanes hothers, rfl⟩
        rw [(hothers i hi).1]
        simp

/-- A worker pops its queue. -/
theorem Stripped.pop (i : ℕ) :
    ∃ real' sv' new new', popFront real i = some (real', new') ∧
      popFront sv i = some (sv', new) ∧ Stripped arg real' sv' fired ∧
      sentAnswers new' = sentAnswers new := by
  obtain ⟨sv', new, hsv, -⟩ := hinv.pop i
  -- before the quit jobs are sent the two servers differ in the counter only
  cases hstripped with
  | before h =>
    have hreal := popFront_exitCount sv real.exitCount i
    rw [← h, hsv] at hreal
    exact ⟨_, _, _, _, hreal, hsv, .before rfl, rfl⟩
  | after hstore hlanes hothers =>
    by_cases hreplied : ∃ curJob, sv.worker[i]? = some (.replied curJob)
    · obtain ⟨curJob, hcur⟩ := hreplied
      obtain ⟨queue, w, queue', w', hqueue, hw, hqueue', hw', hending⟩ :=
        hlanes i (hinv.lt_of_worker hcur)
      obtain rfl : w' = .replied curJob := Option.some.inj (hw'.symm.trans hcur)
      obtain ⟨queue₁, w₁, done, todo, hqueue₁, hw₁, lane⟩ := hinv.lanes i (hinv.lt_of_worker hcur)
      obtain rfl : w₁ = .replied curJob := Option.some.inj (hw₁.symm.trans hcur)
      obtain rfl : queue' = curJob :: todo.map Dispatched.job :=
        (Option.some.inj (hqueue'.symm.trans hqueue₁)).trans lane.queue
      -- what lies behind the requests in the real queue is a quit job
      cases hending with
      | @behind _ _ quit hquit =>
        have hreal : popFront real i = some
            ({ real with
                queue := real.queue.set i (todo.map Dispatched.job ++ [quit])
                worker := real.worker.set i .ready }, [.popped i curJob]) := by
          simp [popFront, hw, Server.pop, hqueue]
        have hsv' : popFront sv i = some
            ({ sv with
                queue := sv.queue.set i (todo.map Dispatched.job)
                worker := sv.worker.set i .ready }, [.popped i curJob]) := by
          simp [popFront, hw', Server.pop, hqueue']
        refine ⟨_, _, _, _, hreal, hsv', .after hstore ?_ ?_, rfl⟩
        · intro j hj
          rcases eq_or_ne i j with rfl | hne
          · exact ⟨_, _, _, _, List.getElem?_set_self (List.getElem?_eq_some_iff.mp hqueue).1,
              List.getElem?_set_self (List.getElem?_eq_some_iff.mp hw).1,
              List.getElem?_set_self (List.getElem?_eq_some_iff.mp hqueue').1,
              List.getElem?_set_self (List.getElem?_eq_some_iff.mp hw').1, .behind hquit⟩
          · exact (hlanes j hj).frame (List.getElem?_set_ne hne) (List.getElem?_set_ne hne)
              (List.getElem?_set_ne hne) (List.getElem?_set_ne hne)
        · intro j hj
          obtain ⟨hnone, hother⟩ := hothers j hj
          exact ⟨Lists.getElem?_set_eq_none hnone _ _, Lists.getElem?_set_eq_none hother _ _⟩
    · refine ⟨real, sv, [], [], popFront_idle ?_,
        popFront_idle fun curJob h => hreplied ⟨curJob, h⟩, .after hstore hlanes hothers, rfl⟩
      intro curJob hcur
      rcases Nat.lt_or_ge i arg.numThreads with hi | hi
      · obtain ⟨queue, w, queue', w', hqueue, hw, hqueue', hw', hending⟩ := hlanes i hi
        obtain rfl : w = .replied curJob := Option.some.inj (hw.symm.trans hcur)
        cases hending with
        | behind => exact hreplied ⟨curJob, hw'⟩
      · rw [(hothers i hi).1] at hcur
        cases hcur

end Serve

/-! ### The quit jobs are sent -/

theorem jobsFor_quitJobs_of_notMem {i : ℕ} (buf : List UInt8) :
    ∀ {is : List ℕ} {allocs : ℕ}, i ∉ is → jobsFor i (quitJobs buf allocs is) = [] := by
  intro is
  induction is with
  | nil => intro allocs _; rfl
  | cons j is ih =>
    intro allocs hi
    rw [List.mem_cons, not_or] at hi
    rw [quitJobs, jobsFor_cons, if_neg fun heq => hi.1 heq.symm]
    exact ih hi.2

/-- Every worker is sent one. -/
theorem exists_jobsFor_quitJobs {i : ℕ} (buf : List UInt8) :
    ∀ {is : List ℕ} (allocs : ℕ), is.Nodup → i ∈ is →
      ∃ quit : Job, jobsFor i (quitJobs buf allocs is) = [quit] ∧ quit.buf = buf := by
  intro is
  induction is with
  | nil => intro allocs _ hi; cases hi
  | cons j is ih =>
    intro allocs hnodup hi
    rw [List.nodup_cons] at hnodup
    rw [quitJobs, jobsFor_cons]
    rcases List.mem_cons.mp hi with rfl | hi
    · rw [if_pos rfl, jobsFor_quitJobs_of_notMem buf hnodup.1]
      exact ⟨_, rfl, rfl⟩
    · have hne : j ≠ i := by
        rintro rfl
        exact hnodup.1 hi
      rw [if_neg hne]
      exact ih _ hnodup.2 hi

/-- The quit jobs go behind all requests. -/
theorem Stripped.fire {arg : Arg} {sdk : Sdk} {moves : List Move} {real sv : Server} {seen : List Seen}
    {hist : List Dispatched} (h : Stripped arg real sv false) (hinv : Inv arg sdk moves sv seen hist)
    (hbuf : 4 ≤ arg.maxBufSize) (hlen : real.queue.length = arg.numThreads) :
    ∃ real' new, pushQuits arg real = some (real', new) ∧ Stripped arg real' sv true ∧
      sentAnswers new = [] := by
  obtain ⟨buf, hquit, hcommand⟩ := exists_quitBuf hbuf
  obtain ⟨queue, new, hpush, hnew, -, hqueue⟩ := exists_foldlM_pushQuit hquit (List.range arg.numThreads)
    real [] (fun i hi => hlen.symm ▸ List.mem_range.mp hi)
  refine ⟨_, _, hpush, ?_, ?_⟩
  · cases h with
    | before h =>
      refine .after (by rw [h]) ?_ ?_
      · intro i hi
        obtain ⟨queue', w, done, todo, hqueue', hw, -⟩ := hinv.lanes i hi
        obtain ⟨quit, hjobs, hbuf'⟩ := exists_jobsFor_quitJobs buf real.allocs List.nodup_range
          (List.mem_range.mpr hi)
        -- a quit job comes last
        have hends : Ending (queue' ++ [quit]) w queue' w := .behind (by rw [hbuf', hcommand])
        refine ⟨_, _, _, _, ?_, ?_, hqueue', hw, hends⟩
        · show queue[i]? = _
          rw [hqueue i, hjobs, h, hqueue']
          rfl
        · show real.worker[i]? = _
          rw [h]
          exact hw
      · intro i hi
        have hnone := (hinv.others i hi).1
        refine ⟨?_, hnone⟩
        show real.worker[i]? = none
        rw [h]
        exact hnone
  · rw [List.nil_append, ← shownAnswers_visible, hnew]
    rfl

/-! ### An event is handled -/

/-- `main` has the server that the enclave leaves. -/
theorem enclaveMessagePass_of_selectStep {arg : Arg} {sdk : Sdk} {app app' : App} {sock : ℤ}
    {text : List UInt8} {rand : Block} {seen : List Seen} (hplace : app.place = .select)
    (h : selectStep arg sdk app (.message sock text rand) = some (app', seen)) :
    enclaveMessagePass arg sdk app.server ⟨readBuf arg text, sock, app.numClients, rand⟩ =
      some (app'.server, seen) := by
  rw [selectStep_afterCall hplace, Option.bind_eq_some_iff] at h
  obtain ⟨r, hr, h⟩ := h
  obtain ⟨a, -, heq⟩ := Option.map_eq_some_iff.mp h
  cases heq
  exact hr

section Event

variable {arg : Arg} {sdk : Sdk} {app app' : App} {hs : List ClientEvent} {moves : List Move}
  {sv : Server} {seen : List Seen} {hist : List Dispatched} (htracks : Tracks arg hs app)
  (hopen : closing hs = false) (hinv : Inv arg sdk moves sv seen hist)
  (hstripped : Stripped arg app.server sv false)

include htracks in
theorem Tracks.fires_exit (sock : ℤ) (rest : List UInt8) :
    fires (hs ++ [.exit sock rest]) = decide (app.server.exitCount + 1 = app.numClients) := by
  have hcount : ShieldStore.exits (hs ++ [.exit sock rest]) = app.server.exitCount + 1 := by
    rw [exits_concat, ← htracks.exits]
    rfl
  rw [fires, endsInExit_concat, peak_concat_of_isAccept rfl, ← htracks.clients, hcount]
  simp only [ClientEvent.isExit, Bool.true_and, decide_eq_decide]
  omega

include htracks hopen hinv hstripped

/-- **An event, seen from the server without quit jobs.**  Only a request is news to it. -/
theorem Stripped.event (ha : arg.Shared) {e : ClientEvent} (he : e.Ok arg) {new' : List Seen}
    (hstep : selectStep arg sdk app e.input = some (app', new')) :
    ∃ moves' sv' new hist', Inv arg sdk (moves ++ moves') sv' (seen ++ new) hist' ∧
      moves'.filterMap Move.message = [e].filterMap ClientEvent.message ∧
      Stripped arg app'.server sv' (fires (hs ++ [e])) ∧ sentAnswers new' = sentAnswers new := by
  have hplace := htracks.place_eq hopen
  have hsame : Inv arg sdk (moves ++ []) sv (seen ++ []) hist := by
    rw [List.append_nil, List.append_nil]
    exact hinv
  cases e with
  | accept =>
    rw [ClientEvent.input, selectStep_accept hplace, Option.some.injEq, Prod.mk.injEq] at hstep
    obtain ⟨rfl, rfl⟩ := hstep
    refine ⟨[], sv, [], hist, hsame, rfl, ?_, rfl⟩
    rw [show fires (hs ++ [.accept]) = false by simp [fires, ClientEvent.isExit]]
    exact hstripped
  | request sock req =>
    have hpass := enclaveMessagePass_of_selectStep hplace hstep
    obtain ⟨sv', new, hist', hdispatch, hinv'⟩ := hinv.dispatch ha he.1 sock app.numClients
    refine ⟨[.dispatch req sock app.numClients], sv', new, hist', hinv', rfl, ?_, ?_⟩ <;>
    cases hstripped with
    | before h =>
      -- both servers push the same job
      have hsv := enclaveMessagePass_req sdk ha.buf_lt_pow he.1 sv sock app.numClients
      have hreal := enclaveMessagePass_req sdk ha.buf_lt_pow he.1 app.server sock app.numClients
      rw [threadId_cstr ha.threaded, Option.bind_some] at hsv hreal
      have hpush := push_exitCount sv app.server.exitCount (keyThread arg req.op.key) (req.buf arg)
        sock req.rand
      rw [← h, ← hreal, ← hsv] at hpush
      have heq : enclaveMessagePass arg sdk app.server ⟨req.buf arg, sock, app.numClients, req.rand⟩ =
          some ({ sv' with exitCount := app.server.exitCount }, new) := by
        rw [hpush, show enclaveMessagePass arg sdk sv ⟨req.buf arg, sock, app.numClients, req.rand⟩ =
          some (sv', new) from hdispatch]
        rfl
      obtain ⟨hserver, rfl⟩ := Prod.mk.inj (Option.some.inj (hpass.symm.trans heq))
      first
      | rfl
      | rw [show fires (hs ++ [.request sock req]) = false by simp [fires, ClientEvent.isExit], hserver]
        exact .before rfl
  | loadDone sock =>
    have hpass := enclaveMessagePass_of_selectStep hplace hstep
    have hload : enclaveMessagePass arg sdk app.server
        ⟨readBuf arg (lit ['L', 'O', 'A', 'D', 'D', 'O', 'N', 'E']), sock, app.numClients, 0⟩ =
          some (app.server, [.event (.print .loadProcessDone),
            .messageReturn (readBuf arg (lit ['L', 'O', 'A', 'D', 'D', 'O', 'N', 'E'])) sock]) :=
      enclaveMessagePass_load arg sdk app.server (by simp [readBuf, lit, startsWith, strncmp])
        (by simp [readBuf, lit, strncmp])
    obtain ⟨hserver, rfl⟩ := Prod.mk.inj (Option.some.inj (hpass.symm.trans hload))
    refine ⟨[], sv, [], hist, hsame, rfl, ?_, rfl⟩
    rw [show fires (hs ++ [.loadDone sock]) = false by simp [fires, ClientEvent.isExit], hserver]
    exact hstripped
  | exit sock rest =>
    have hpass := enclaveMessagePass_of_selectStep hplace hstep
    rw [enclaveMessagePass_exit arg sdk app.server (by simp [readBuf, lit, startsWith, strncmp])] at hpass
    rw [htracks.fires_exit]
    have hcounted : Stripped arg { app.server with exitCount := app.server.exitCount + 1 } sv false := by
      cases hstripped with
      | before h =>
        refine .before ?_
        rw [h]
    by_cases hall : app.server.exitCount + 1 = app.numClients
    · obtain ⟨real', new, hpush, hstripped', hnew⟩ := hcounted.fire hinv
        ((Nat.le_add_right 4 _).trans he) htracks.queues
      rw [if_pos hall, hpush] at hpass
      obtain ⟨hserver, rfl⟩ := Prod.mk.inj (Option.some.inj hpass)
      refine ⟨[], sv, [], hist, hsame, rfl, ?_, ?_⟩
      · rw [decide_eq_true hall, ← hserver]
        exact hstripped'
      · exact hnew
    · rw [if_neg hall] at hpass
      obtain ⟨hserver, rfl⟩ := Prod.mk.inj (Option.some.inj hpass)
      refine ⟨[], sv, [], hist, hsame, rfl, ?_, rfl⟩
      rw [decide_eq_false hall, ← hserver]
      exact hcounted

end Event

/-! ### Sessions -/

/-- The server after the events `hs` of a session `es`, what the clients have got, and
the server `sv` without quit jobs that it is. -/
structure Session (arg : Arg) (sdk : Sdk) (es : List ClientEvent) (os : List Shown) (st : Front)
    (hs : List ClientEvent) (moves : List Move) (sv : Server) (seen : List Seen)
    (hist : List Dispatched) : Prop where
  tracks : Tracks arg hs st.app
  inv : Inv arg sdk moves sv seen hist
  messages : moves.filterMap Move.message = hs.filterMap ClientEvent.message
  stripped : Stripped arg st.app.server sv (fires hs)
  /-- What `main` has in its hands is the next event. -/
  events : (st.pending = none ∧ hs <+: es) ∨
    ∃ e, st.pending = some e.input ∧ hs ++ [e] <+: es ∧ st.app.place = .select
  received : receivedInputs os = hs.map ClientEvent.input ++ st.pending.toList
  answers : shownAnswers os = sentAnswers seen

/-- The server is somewhere in the session `es`, and has shown `os`. -/
def InSession (arg : Arg) (sdk : Sdk) (es : List ClientEvent) (os : List Shown) (st : Front) : Prop :=
  ∃ hs moves sv seen hist, Session arg sdk es os st hs moves sv seen hist

theorem InSession.init (arg : Arg) (sdk : Sdk) (es : List ClientEvent) :
    InSession arg sdk es [] (Front.init arg) :=
  ⟨[], [], Server.init arg, [], [], Tracks.init arg, Inv.init sdk, rfl, .before rfl,
    .inl ⟨rfl, List.nil_prefix⟩, rfl, rfl⟩

section Session

variable {arg : Arg} {sdk : Sdk} {es : List ClientEvent} {os : List Shown} {st : Front}
  {hs : List ClientEvent} {moves : List Move} {sv : Server} {seen : List Seen}
  {hist : List Dispatched} (h : Session arg sdk es os st hs moves sv seen hist)

include h

theorem Session.handled : hs <+: es := by
  rcases h.events with ⟨-, hs⟩ | ⟨e, -, hs, -⟩
  · exact hs
  · exact (List.prefix_append _ _).trans hs

theorem Session.reqs : moves.filterMap Move.req = requests hs := by
  rw [requests, ← h.messages, List.map_filterMap]
  refine List.filterMap_congr fun m _ => ?_
  cases m <;> rfl

/-- What a worker has taken it can serve. -/
theorem Session.exists_request (ha : arg.Shared) (ho : Orderly arg es) {i : ℕ} {curJob : Job}
    (hcur : sv.worker[i]? = some (.took curJob)) :
    ∃ out, request arg sdk sv.store curJob.rand curJob.buf = some (some out) := by
  have ho := ho.mono h.handled
  apply h.inv.exists_request ha _ _ _ hcur <;> rw [h.reqs]
  · exact ho.wellFormed
  · exact ho.fit
  · exact ho.slots

theorem Session.exec (ha : arg.Shared) (ho : Orderly arg es) (i : ℕ) :
    ∃ sv' new hist', execute arg sdk sv i = some (sv', new) ∧
      Inv arg sdk (moves ++ [.exec i]) sv' (seen ++ new) hist' := by
  have ho := ho.mono h.handled
  apply h.inv.exec ha _ _ _ i <;> rw [h.reqs]
  · exact ho.wellFormed
  · exact ho.fit
  · exact ho.slots

/-- A worker moves. -/
theorem Session.serve {m : Move} {real sv' : Server} {new new' : List Seen} {hist' : List Dispatched}
    (hm : m.message = none) (hinv : Inv arg sdk (moves ++ [m]) sv' (seen ++ new) hist')
    (hstripped : Stripped arg real sv' (fires hs)) (hsame : st.app.server.SameFront real)
    (hnew : sentAnswers new' = sentAnswers new) :
    Session arg sdk es (os ++ visible new') { st with app := { st.app with server := real } } hs
      (moves ++ [m]) sv' (seen ++ new) hist' where
  tracks := ⟨h.tracks.conns, h.tracks.clients, hsame.1.trans h.tracks.exits,
    hsame.2.trans h.tracks.queues, h.tracks.place⟩
  inv := hinv
  messages := (messages_concat hm moves).trans h.messages
  stripped := hstripped
  events := h.events
  received := by
    rw [receivedInputs_append, receivedInputs_visible, List.append_nil]
    exact h.received
  answers := by rw [shownAnswers_append, shownAnswers_visible, sentAnswers_append, h.answers, hnew]

/-- `main` takes the next event off its socket. -/
theorem Session.receive {input : Input} (hpending : st.pending = none) (hplace : st.app.place = .select)
    (hnext : receivedInputs os ++ [input] <+: es.map ClientEvent.input) :
    Session arg sdk es (os ++ [.received input]) { st with pending := some input } hs moves sv seen
      hist := by
  obtain ⟨t, rfl⟩ := h.handled
  have hreceived := h.received
  rw [hpending, Option.toList_none, List.append_nil] at hreceived
  rw [hreceived, List.map_append, List.prefix_append_right_inj] at hnext
  -- the event received is the next one of the session
  cases t with
  | nil => exact absurd hnext (by simp)
  | cons e t =>
    rw [List.map_cons, List.cons_prefix_cons] at hnext
    obtain ⟨rfl, -⟩ := hnext
    refine ⟨h.tracks, h.inv, h.messages, h.stripped, .inr ⟨e, rfl, ?_, hplace⟩, ?_, ?_⟩
    · rw [List.prefix_append_right_inj, List.cons_prefix_cons]
      exact ⟨rfl, List.nil_prefix⟩
    · rw [receivedInputs_append, hreceived]
      rfl
    · rw [shownAnswers_append, h.answers]
      exact List.append_nil _

/-- `main` handles the event that it has in its hands. -/
theorem Session.handle (ha : arg.Shared) (ho : Orderly arg es) {input : Input}
    (hpending : st.pending = some input) :
    ∃ app new, selectStep arg sdk st.app input = some (app, new) ∧
      InSession arg sdk es (os ++ visible new) ⟨app, none⟩ := by
  rcases h.events with ⟨hnone, -⟩ | ⟨e, hsome, hnext, hplace⟩
  · rw [hpending] at hnone
    cases hnone
  obtain rfl : input = e.input := Option.some.inj (hpending.symm.trans hsome)
  have hopen : closing hs = false := by
    have := h.tracks.place
    rw [hplace] at this
    by_contra hne
    rw [Bool.not_eq_false] at hne
    rw [hne] at this
    cases this
  -- no quit job has been sent, for `main` has not left
  have hfires : fires hs = false := by
    by_contra hne
    rw [Bool.not_eq_false] at hne
    rw [ho.fires hs h.handled hne] at hopen
    cases hopen
  have hstripped := h.stripped
  rw [hfires] at hstripped
  have hok := ho.ok e (hnext.subset (by simp))
  obtain ⟨app, new, hstep, htracks, -⟩ := h.tracks.step sdk hopen ha.buf_lt_pow hok
  obtain ⟨moves', sv', new', hist', hinv, hmessages, hstripped, hanswers⟩ :=
    hstripped.event h.tracks hopen h.inv ha hok hstep
  refine ⟨app, new, hstep, hs ++ [e], moves ++ moves', sv', seen ++ new', hist', htracks, hinv, ?_,
    hstripped, .inl ⟨rfl, hnext⟩, ?_, ?_⟩
  · rw [List.filterMap_append, List.filterMap_append, h.messages, hmessages]
  · have hreceived := h.received
    rw [hpending] at hreceived
    rw [receivedInputs_append, receivedInputs_visible, hreceived]
    simp
  · rw [shownAnswers_append, shownAnswers_visible, sentAnswers_append, h.answers, hanswers]

end Session

/-- **One move.**  It is defined, and the server stays in the session. -/
theorem InSession.step {arg : Arg} {sdk : Sdk} {es : List ClientEvent} {os : List Shown} {st : Front}
    (ha : arg.Shared) (ho : Orderly arg es) (h : InSession arg sdk es os st) (act : FrontAct)
    (hnext : ∀ input, act = .receive input → st.pending = none → st.app.place = .select →
      receivedInputs os ++ [input] <+: es.map ClientEvent.input) :
    ∃ st' os', frontStep arg sdk st act = some (st', os') ∧ InSession arg sdk es (os ++ os') st' := by
  have hstay : InSession arg sdk es (os ++ []) st := by
    rw [List.append_nil]
    exact h
  obtain ⟨hs, moves, sv, seen, hist, h⟩ := h
  -- `main`, and then the three moves of a worker
  cases act with
  | receive input =>
    by_cases hready : st.pending = none ∧ st.app.place = .select
    · exact ⟨_, _, if_pos hready, _, _, _, _, _,
        h.receive hready.1 hready.2 (hnext input rfl hready.1 hready.2)⟩
    · exact ⟨_, _, if_neg hready, hstay⟩
  | handle =>
    cases hpending : st.pending with
    | none =>
      refine ⟨st, [], ?_, hstay⟩
      rw [frontStep, hpending]
    | some input =>
      obtain ⟨app, new, hstep, hin⟩ := h.handle ha ho hpending
      refine ⟨_, _, ?_, hin⟩
      rw [frontStep, hpending]
      show (selectStep arg sdk st.app input).map _ = _
      rw [hstep]
      rfl
  | take i =>
    have hsame : st.app.server.SameFront (takeFront st.app.server i) := by
      refine ⟨?_, by rw [takeFront_queue]⟩
      unfold takeFront
      split <;> rfl
    exact ⟨_, _, rfl, _, _, _, _, _, h.serve rfl (h.inv.take i) (h.stripped.take i) hsame rfl⟩
  | exec i =>
    obtain ⟨real, sv', new, new', hreal, hsv, hstripped, hanswers⟩ :=
      Stripped.exec h.inv h.stripped (i := i) fun curJob hcur => h.exists_request ha ho hcur
    obtain ⟨sv₁, new₁, hist', hexec, hinv⟩ := h.exec ha ho i
    obtain ⟨rfl, rfl⟩ := Prod.mk.inj (Option.some.inj (hsv.symm.trans hexec))
    refine ⟨_, _, ?_, _, _, _, _, _, h.serve (m := .exec i) rfl hinv hstripped
      (execute_sameFront hreal) hanswers⟩
    rw [frontStep, hreal]
    rfl
  | pop i =>
    obtain ⟨real, sv', new, new', hreal, hsv, hstripped, hanswers⟩ := Stripped.pop h.inv h.stripped i
    obtain ⟨sv₁, new₁, hpop, hinv⟩ := h.inv.pop i
    obtain ⟨rfl, rfl⟩ := Prod.mk.inj (Option.some.inj (hsv.symm.trans hpop))
    refine ⟨_, _, ?_, _, _, _, _, _, h.serve (m := .pop i) rfl hinv hstripped
      (popFront_sameFront hreal) hanswers⟩
    rw [frontStep, hreal]
    rfl

/-- **Every run** goes on in the session. -/
theorem InSession.run {arg : Arg} {sdk : Sdk} {es : List ClientEvent} {os : List Shown} {st : Front}
    (ha : arg.Shared) (ho : Orderly arg es) (h : InSession arg sdk es os st) {acts : List FrontAct}
    {st' : Front} {oss : List (List Shown)} (hrun : Run.run (frontStep arg sdk) st acts = some (st', oss))
    (hreceived : receivedInputs (os ++ oss.flatten) <+: es.map ClientEvent.input) :
    InSession arg sdk es (os ++ oss.flatten) st' := by
  induction acts using List.reverseRecOn generalizing st' oss with
  | nil =>
    cases hrun
    rw [List.flatten_nil, List.append_nil]
    exact h
  | append_singleton acts act ih =>
    obtain ⟨st₁, oss₁, os₁, hrun₁, hstep, rfl⟩ := run_concat_eq_some_iff.mp hrun
    rw [List.flatten_append, List.flatten_singleton, ← List.append_assoc] at hreceived ⊢
    have hearlier := hreceived
    rw [receivedInputs_append] at hearlier
    have hin := ih hrun₁ ((List.prefix_append _ _).trans hearlier)
    obtain ⟨st₂, os₂, hstep', hin'⟩ := hin.step ha ho act (by
      -- what is received next is in the session, as all that is received is
      rintro input rfl hpending hplace
      have hreceive : frontStep arg sdk st₁ (.receive input) =
        some ({ st₁ with pending := some input }, [.received input]) := if_pos ⟨hpending, hplace⟩
      rw [hreceive] at hstep
      cases hstep
      exact hearlier)
    obtain ⟨rfl, rfl⟩ := Prod.mk.inj (Option.some.inj (hstep.symm.trans hstep'))
    exact hin'

/-- Every run from the start. -/
theorem InSession.of_run {arg : Arg} {sdk : Sdk} {es : List ClientEvent} (ha : arg.Shared)
    (ho : Orderly arg es) {acts : List FrontAct} {st : Front} {oss : List (List Shown)}
    (hrun : Run.run (frontStep arg sdk) (Front.init arg) acts = some (st, oss))
    (hreceived : receivedInputs oss.flatten <+: es.map ClientEvent.input) :
    InSession arg sdk es oss.flatten st :=
  (InSession.init arg sdk es).run ha ho hrun hreceived

end ShieldStore
