import Mathlib.Data.Fintype.EquivFin
import ShieldStore.Progress

/-!
# When nothing is left to do

All work can be done, and what that means for the clients and for `main`: all requests
that were received have been answered, and `main` returns if the workers were told to
quit.

## Main results

* `threads_answered` — **every request that was received can be answered.**
* `threads_shutdown` — **`main` can return exactly if the quit jobs are sent.**
* `threads_joined` — **`main` returns last.**
-/

namespace ShieldStore

open Bytes Counter CMem Sections Function Run Linear

/-! ### The workers when nothing is left to do -/

section Settled

variable {arg : Arg} {buf : List UInt8} {sdk : Sdk} {es : List ClientEvent} {os : List Shown}
  {s : Snapshot} {st : Front} (h : Sound arg buf sdk es os s st)

include h

/-- Every number belongs to a worker. -/
theorem Sound.exists_owner {i : ℕ} (hi : i < arg.numThreads) : ∃ n, (s.worker n).threadId = some i := by
  rcases h.up i hi with hready | ⟨n, hn⟩
  · exact h.sim.crew.owner i (h.tidy.manned i hready)
  · exact ⟨n, by rw [hn]; rfl⟩

/-- Every worker has a number. -/
theorem Sound.exists_threadId {n : ℕ} (hn : n < arg.numThreads) :
    ∃ i < arg.numThreads, (s.worker n).threadId = some i := by
  have howner : ∀ i : Fin arg.numThreads, ∃ n : Fin arg.numThreads, (s.worker n).threadId = some i.val := by
    intro i
    obtain ⟨n, hid⟩ := h.exists_owner i.isLt
    exact ⟨⟨n, h.sim.crew.lt_of_threadId hid⟩, hid⟩
  choose owner howner using howner
  have hinj : Injective owner := by
    intro i j heq
    have hid := howner i
    rw [heq, howner j, Option.some.injEq] at hid
    exact Fin.ext hid.symm
  -- there are as many workers as numbers
  obtain ⟨i, hi⟩ := Finite.surjective_of_injective hinj ⟨n, hn⟩
  refine ⟨i, i.isLt, ?_⟩
  rw [← howner i, hi]

/-- A worker that has nothing to do sleeps on an empty queue, or has returned. -/
theorem Sound.worker_of_work (hwork : s.work arg = 0) {n i : ℕ} (hid : (s.worker n).threadId = some i) :
    s.worker n = .asleep i ∧ (s.queue i).jobs = [] ∨ s.worker n = .gone (some i) := by
  have hn := h.sim.crew.lt_of_threadId hid
  have hrank : (s.worker n).rank s.queue = 0 :=
    Finset.sum_eq_zero_iff.mp hwork n (Finset.mem_range.mpr hn)
  have hpoint := h.sim.crew.points n
  -- who is at work on a job has it in the queue
  have hholds : ∀ i' job, (s.worker n).holds = some (i', job) → 0 < (s.queue i').jobs.length := by
    intro i' job hholds
    obtain ⟨rest, hjobs⟩ := h.heap.front hholds
    rw [hjobs]
    exact Nat.succ_pos _
  cases hworker : s.worker n with
  | lock i' | destroy i' =>
    rw [hworker, WorkerPoint.rank] at hrank
    omega
  | asleep i' =>
    rw [hworker] at hid hrank
    cases hid
    exact .inl ⟨rfl, by simpa [WorkerPoint.rank] using hrank⟩
  | took i' job | relock i' job | relockQuit i' job =>
    have hpos := hholds i' job (by rw [hworker]; rfl)
    rw [hworker, WorkerPoint.rank] at hrank
    omega
  | gone i' =>
    rw [hworker] at hid
    exact .inr (congrArg _ hid)
  | start =>
    rw [hworker] at hid
    cases hid
  | _ => rw [hworker] at hpoint; cases hpoint

/-- When `main` and the responder rest, no message is under way. -/
theorem Sound.pending_of_frontRests (hrests : s.FrontRests) :
    st.pending = none ∧ s.responder.pending arg buf s.mem.allocs = [] ∧ s.responder.inHand = [] := by
  have hrest : Rests s.responder s.hotCall → st.pending = none → st.pending = none ∧
      s.responder.pending arg buf s.mem.allocs = [] ∧ s.responder.inHand = [] := by
    intro hrest hpending
    rcases hrest.responder with heq | ⟨-, heq | heq⟩ <;> exact ⟨hpending, by rw [heq]; exact ⟨rfl, rfl⟩⟩
  cases h.sim.stage with
  | asks hmain | returned hmain | closing hmain => simp [Snapshot.FrontRests, hmain] at hrests
  | waits hcalled | passes hcalled | finished hcalled => simp [Snapshot.FrontRests, hcalled.main] at hrests
  | select _ hr _ _ hpending | gone _ hr _ _ hpending | exited _ hr _ _ hpending => exact hrest hr hpending

/-- When nothing is left to do, the queues are empty. -/
theorem Sound.queue_of_settled (hrests : s.FrontRests) (hwork : s.work arg = 0) {i : ℕ}
    (hi : i < arg.numThreads) :
    st.app.server.queue[i]? = some [] ∧
      ((st.app.server.worker[i]? = some .ready ∧ ∃ n, s.worker n = .asleep i) ∨
        st.app.server.worker[i]? = some .returned) := by
  obtain ⟨n, hid⟩ := h.exists_owner hi
  have hpoint := h.sim.crew.points n
  rcases h.worker_of_work hwork hid with ⟨hworker, hjobs⟩ | hworker
  · rw [h.sim.queues.jobs i hi, hjobs, (h.pending_of_frontRests hrests).2.1]
    rw [hworker] at hpoint
    cases hpoint with
    | asleep _ hready => exact ⟨rfl, .inl ⟨hready, n, hworker⟩⟩
  · rw [hworker] at hpoint
    cases hpoint with
    | gone _ hreturned => exact ⟨h.session.queue_of_returned hreturned, .inr hreturned⟩

end Settled

/-! ### What the clients have got -/

section Session

variable {arg : Arg} {sdk : Sdk} {es : List ClientEvent} {os : List Shown} {st : Front}
  {hs : List ClientEvent} {moves : List Move} {sv : Server} {seen : List Seen}
  {hist : List Dispatched} (h : Session arg sdk es os st hs moves sv seen hist)

include h

end Session

section Closing

variable {arg : Arg} {buf : List UInt8} {sdk : Sdk} {es : List ClientEvent} {os : List Shown}
  {s : Snapshot} {st : Front}

/-- All events have been handled. -/
theorem Session.handled_all {hs : List ClientEvent} {moves : List Move} {sv : Server} {seen : List Seen}
    {hist : List Dispatched} (h : Session arg sdk es os st hs moves sv seen hist)
    (hpending : st.pending = none) (hall : receivedInputs os = es.map ClientEvent.input) : hs = es := by
  refine h.handled.eq_of_length ?_
  rw [h.received, hpending, Option.toList_none, List.append_nil] at hall
  simpa using congrArg List.length hall

variable (h : Sound arg buf sdk es os s st)

include h

/-- Where `main` is when it has left its loop. -/
theorem Sound.main_of_closing (hrests : s.FrontRests) (hall : receivedInputs os = es.map ClientEvent.input)
    (hclosing : closing es = true) :
    ((∃ i, s.main.point = .join i) ∨ s.main.point = .done) ∧ s.responder = .gone := by
  -- in big steps the loop is left, since all that was received has been handled
  have hplace : st.app.place = .left := by
    obtain ⟨hs, moves, sv, seen, hist, hsession⟩ := h.session
    obtain rfl := hsession.handled_all (h.pending_of_frontRests hrests).1 hall
    rw [hsession.tracks.place, hclosing]
    rfl
  cases h.sim.stage with
  | select _ _ _ hk =>
    have hselect : st.app.place = .select := congrArg Counters.place hk
    rw [hplace] at hselect
    cases hselect
  | exited _ _ _ hk =>
    have hexited : st.app.place = .exited := hk
    rw [hplace] at hexited
    cases hexited
  | gone hgone =>
    cases hpoint : s.main.point with
    | join i => exact ⟨.inl ⟨i, rfl⟩, by simpa [Snapshot.FrontRests, hpoint] using hrests⟩
    | done => exact ⟨.inr rfl, by simpa [Snapshot.FrontRests, hpoint] using hrests⟩
    | stop p => simp [Snapshot.FrontRests, hpoint] at hrests
    | _ => rw [hpoint] at hgone; exact hgone.elim
  | asks hmain | returned hmain | closing hmain => simp [Snapshot.FrontRests, hmain] at hrests
  | waits hcalled | passes hcalled | finished hcalled => simp [Snapshot.FrontRests, hcalled.main] at hrests

/-- When nothing is left to do, no job is on the heap. -/
theorem Sound.live_of_settled (hrests : s.FrontRests) (hwork : s.work arg = 0) : s.mem.live = [] := by
  obtain ⟨-, hpending, hhand⟩ := h.pending_of_frontRests hrests
  -- neither the queues nor the responder have a job
  have hqueued : queued arg s.queue = [] := by
    refine List.flatMap_eq_nil_iff.mpr fun i hi => ?_
    have hi := List.mem_range.mp hi
    have hqueue := (h.queue_of_settled hrests hwork hi).1
    rw [h.sim.queues.jobs i hi, hpending, Option.some.injEq, List.append_eq_nil_iff] at hqueue
    exact hqueue.1
  have hlive := h.heap.live
  rw [Snapshot.jobs, hhand, hqueued] at hlive
  exact hlive.eq_nil

/-- When the quit jobs were sent and nothing is left to do, all threads have returned. -/
theorem Sound.ended_of_settled (hrests : s.FrontRests) (hwork : s.work arg = 0)
    (hall : receivedInputs os = es.map ClientEvent.input) (hclosing : closing es = true)
    (hfires : fires es = true) : ∀ j ≤ arg.numThreads, threadAt j ∈ s.mem.ended := by
  obtain ⟨hs, moves, sv, seen, hist, hsession⟩ := h.session
  obtain rfl := hsession.handled_all (h.pending_of_frontRests hrests).1 hall
  have hstripped := hsession.stripped
  rw [hfires] at hstripped
  intro j hj
  rw [h.tidy.ended]
  cases j with
  | zero => exact .inl ⟨rfl, (h.main_of_closing hrests hall hclosing).2⟩
  | succ n =>
    obtain ⟨i, hi, hid⟩ := h.exists_threadId (Nat.lt_of_succ_le hj)
    refine .inr ⟨n, i, rfl, ?_⟩
    rcases h.worker_of_work hwork hid with ⟨hworker, -⟩ | hworker
    · -- a worker with an empty queue, behind which there is no quit job
      have hpoint := h.sim.crew.points n
      rw [hworker] at hpoint
      have hqueue := (h.queue_of_settled hrests hwork hi).1
      cases hpoint with
      | asleep _ hready =>
        cases hstripped with
        | after hstore hlanes hothers =>
          obtain ⟨queue, w, queue', w', hqueue', hw, -, -, hending⟩ := hlanes i hi
          obtain rfl : queue = [] := Option.some.inj (hqueue'.symm.trans hqueue)
          obtain rfl : w = .ready := Option.some.inj (hw.symm.trans hready)
          generalize hnil : ([] : List Job) = queue at hending
          cases hending
          simp at hnil
    · exact hworker

end Closing

/-- What `main` has left to join. -/
def MainPoint.joins (arg : Arg) : MainPoint → ℕ
  | .join i => arg.numThreads + 1 - i + 1
  | _ => 0

section Joins

variable {arg : Arg} (sdk : Sdk) {a : Snapshot × List Shown}

/-- **`main` joins all threads**, when all have returned. -/
theorem exists_quiet_joined (hmain : (∃ i, a.1.main.point = .join i) ∨ a.1.main.point = .done)
    (hended : ∀ j ≤ arg.numThreads, threadAt j ∈ a.1.mem.ended) :
    ∃ b, Relation.ReflTransGen (Quiet arg sdk) a b ∧ b.1.mem = a.1.mem ∧ b.1.main.point = .done := by
  obtain ⟨b, hab, ⟨-, hmem⟩, hdone⟩ := exists_reflTransGen_of_lt (r := Quiet arg sdk)
    (fun b => ((∃ i, b.1.main.point = .join i) ∨ b.1.main.point = .done) ∧ b.1.mem = a.1.mem)
    (fun b => b.1.main.point = .done) (fun b => b.1.main.point.joins arg) (by
      rintro ⟨s, os⟩ ⟨hmain | hmain, hmem⟩ hne
      swap
      · exact absurd hmain hne
      obtain ⟨i, hmain⟩ := hmain
      dsimp only at hmain hmem hne ⊢
      have hmode : s.main.mode = .outside := by simp [MainLoc.mode, hmain]
      have hgo : ∀ point, s.main.outer arg s.mem .nothing = some ({ s.main with point }, s.mem, []) →
          Quiet arg sdk (s, os) ({ s with main := { s.main with point } }, os) :=
        fun point houter => ⟨.main, [], .main hmode houter, (List.append_nil os).symm⟩
      -- one more thread to join, or none
      by_cases hi : i ≤ arg.numThreads
      · have hthread : threadAt i ∈ s.mem.ended := hmem ▸ hended i hi
        refine ⟨_, hgo (.join (i + 1)) ?_, ⟨.inl ⟨_, rfl⟩, hmem⟩, ?_⟩
        · simp [MainLoc.outer, hmain, hi, hthread]
        · simp only [hmain, MainPoint.joins]
          omega
      · refine ⟨_, hgo .done ?_, ⟨.inr rfl, hmem⟩, ?_⟩
        · simp [MainLoc.outer, hmain, hi]
        · simp only [hmain, MainPoint.joins]
          omega) ⟨hmain, rfl⟩
  exact ⟨b, hab, hmem, hdone⟩

end Joins

/-- The quit jobs have been sent, and `main` can return. -/
theorem InService.exists_run_done {arg : Arg} {buf : List UInt8} {sdk : Sdk} {es : List ClientEvent}
    (ha : arg.Shared) (hlen : 9 ≤ arg.maxBufSize) (hquit : quitBuf arg = some buf) (ho : Orderly arg es)
    {s : Snapshot} {os : List Shown} (h : InService arg buf sdk es (s, os))
    {σ : State Lock Thread Globals ThreadPoint Guarded}
    (hred : Reduces (threads arg sdk) (fun _ => True) σ s.conf)
    (hall : receivedInputs os = es.map ClientEvent.input) (hclosing : closing es = true)
    (hfires : fires es = true) :
    ∃ (ms' : List (Thread × Stimulus)) (s' : Snapshot) (oss' : List (List Shown)),
      run (threads arg sdk).step σ ms' = some (s'.conf.calm, oss') ∧
      (∀ m ∈ ms', m.2 = .nothing) ∧ s'.main.point = .done ∧ s'.mem.live = [] := by
  obtain ⟨ms₁, s₁, oss₁, hrun₁, hms₁, ⟨st₁, hsound₁⟩, hrests, hwork⟩ :=
    h.exists_run_settled ha hlen hquit ho hred
  dsimp only at hsound₁
  have hall₁ : receivedInputs (os ++ oss₁.flatten) = es.map ClientEvent.input := by
    refine hsound₁.session.received.eq_of_length_le ?_
    rw [receivedInputs_append, hall, List.length_append]
    exact Nat.le_add_right _ _
  -- first all work is done, then `main` joins
  obtain ⟨⟨s₂, os₂⟩, hgoes, hmem, hdone⟩ := exists_quiet_joined sdk (a := (s₁, os ++ oss₁.flatten))
    (hsound₁.main_of_closing hrests hall₁ hclosing).1
    (hsound₁.ended_of_settled hrests hwork hall₁ hclosing hfires)
  obtain ⟨ms₂, os', hreaches, -, hms₂⟩ := exists_reaches_of_quiet hgoes
  obtain ⟨ns, oss₂, hrun₂, -, hsub⟩ := Prog.exists_run_of_reaches hreaches
  refine ⟨ms₁ ++ ns, s₂, oss₁ ++ oss₂, ?_, ?_, hdone, ?_⟩
  · exact run_trans hrun₁ hrun₂
  · intro m hm
    rcases List.mem_append.mp hm with hm | hm
    · exact hms₁ m hm
    · exact hms₂ m (hsub hm)
  · rw [hmem]
    exact hsound₁.live_of_settled hrests hwork

/-- The only client connects and exits. -/
theorem orderly_exit : Orderly ⟨1, 32, 1, 1, false, false⟩ [.accept, .exit 4 []] :=
  orderly_of_inits (by decide) (by decide) rfl (by decide)

/-- The worker has started, and the client's messages have been received. -/
theorem exists_run_exit :
    ∃ (σ₀ σ : State Lock Thread Globals ThreadPoint Guarded) (oss₀ oss : List (List Shown)),
      run (threads ⟨1, 32, 1, 1, false, false⟩ Sdk.aes).step (threadsInit ⟨1, 32, 1, 1, false, false⟩).calm
          (List.replicate 4 (.worker 0, .nothing)) = some (σ₀, oss₀) ∧
      run (threads ⟨1, 32, 1, 1, false, false⟩ Sdk.aes).step σ₀
          [(.main, .input .accept), (.main, .input (.message 4 [0x45, 0x58, 0x49, 0x54] 0))] = some (σ, oss) ∧
      receivedInputs oss₀.flatten = [] ∧ σ₀.env.ready = [0] ∧
      receivedInputs oss.flatten = [ClientEvent.accept, .exit 4 []].map ClientEvent.input :=
  ⟨_, _, _, _, rfl, rfl, rfl, rfl, rfl⟩

/-- **`main` returns last.**  When `main` has returned, so have the responder and every
worker, the workers had the numbers from `0` to `num_threads - 1` between them, and no
lock is taken. -/
theorem threads_joined (arg : Arg) (sdk : Sdk) (ha : arg.Threaded) (hlen : 9 ≤ arg.maxBufSize)
    (ms : List (Thread × Stimulus)) (σ : State Lock Thread Globals ThreadPoint Guarded)
    (oss : List (List Shown))
    (hrun : run (threads arg sdk).step (threadsInit arg).calm ms = some (σ, oss)) (l : MainLoc)
    (hmain : σ.loc .main = .main l) (hdone : l.point = .done) :
    (∀ k, σ.owner k = none) ∧ σ.loc .responder = .responder .gone ∧
      ∃ ids : ℕ → ℕ, Set.InjOn ids {n | n < arg.numThreads} ∧ ∀ n < arg.numThreads,
        ids n < arg.numThreads ∧ σ.loc (.worker n) = .worker (.gone (some (ids n))) := by
  obtain ⟨buf, hquit, -⟩ := exists_quitBuf ((show 4 ≤ 9 by decide).trans hlen)
  obtain ⟨s, st, hred, hsim, htidy⟩ := Tidy.of_run ha hlen hquit hrun
  have hout : (ThreadPoint.mode (σ.loc .main)).Out := by
    rw [hmain]
    simp [ThreadPoint.mode, MainLoc.mode, hdone, Mode.Out]
  have hloc := (hred.out .main (hred.owner_ne_of_out hout)).1
  rw [hmain] at hloc
  obtain rfl : l = s.main := ThreadPoint.main.inj hloc
  obtain ⟨hresponder, ids, hinj, hids⟩ := htidy.gone_of_joined hsim hdone
  have hresp : σ.loc .responder = .responder .gone := by
    have hmode : (threads arg sdk).mode (s.conf.loc .responder) = .outside := by
      show s.responder.mode = .outside
      rw [hresponder]
      rfl
    exact (hred.loc_of_outside hmode).1.trans (congrArg _ hresponder)
  have hworker : ∀ n < arg.numThreads, σ.loc (.worker n) = .worker (.gone (some (ids n))) := by
    intro n hn
    have hmode : (threads arg sdk).mode (s.conf.loc (.worker n)) = .outside := by
      show (s.worker n).mode = .outside
      rw [(hids n hn).2]
      rfl
    exact (hred.loc_of_outside hmode).1.trans (congrArg _ (hids n hn).2)
  -- all threads are outside of their sections
  refine ⟨hsim.owner_eq_none hred hout (by rw [hresp]; trivial) fun n hn => ?_, hresp, ids, hinj,
    fun n hn => ⟨(hids n hn).1, hworker n hn⟩⟩
  rw [hworker n hn]
  trivial

/-- The only client has connected and exited, and `main` has returned. -/
theorem threads_joined_exit :
    ∃ ms σ oss l,
      run (threads ⟨1, 32, 1, 1, false, false⟩ Sdk.aes).step (threadsInit ⟨1, 32, 1, 1, false, false⟩).calm
          ms = some (σ, oss) ∧
      σ.loc .main = .main l ∧ l.point = .done ∧ σ.loc .responder = .responder .gone := by
  obtain ⟨σ₀, σ, oss₀, oss, hstart, hrun, hquiet, hready, hall⟩ := exists_run_exit
  obtain ⟨buf, hquit, -⟩ := @exists_quitBuf ⟨1, 32, 1, 1, false, false⟩ (by decide)
  obtain ⟨s₀, st₀, hred₀, hsound₀⟩ := exists_sound (by decide) (by decide) hquit orderly_exit hstart hquiet
    (by rw [hready]; decide)
  have hall' : receivedInputs (oss₀.flatten ++ oss.flatten) =
      [ClientEvent.accept, .exit 4 []].map ClientEvent.input := by
    rw [receivedInputs_append, hquiet, hall]
    rfl
  obtain ⟨s, st, hred, hsound⟩ := hsound₀.run (by decide) (by decide) hquit orderly_exit hred₀ hrun
    (hall' ▸ List.prefix_refl _)
  obtain ⟨ms, s', oss', hrun', -, hdone, -⟩ := InService.exists_run_done (by decide) (by decide) hquit
    orderly_exit ⟨st, hsound⟩ hred hall' rfl rfl
  have hwhole := run_trans hstart (run_trans hrun hrun')
  exact ⟨_, _, _, s'.main, hwhole, rfl, hdone, (threads_joined ⟨1, 32, 1, 1, false, false⟩ Sdk.aes
    (by decide) (by decide) _ _ _ hwhole s'.main rfl hdone).2.1⟩

end ShieldStore
