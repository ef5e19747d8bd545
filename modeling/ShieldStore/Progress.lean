import Mathlib.Algebra.BigOperators.Group.Finset.Basic
import Mathlib.Algebra.Order.BigOperators.Group.Finset
import ShieldStore.Defined
import ShieldStore.Linear

/-!
# Everything gets done

`main` waits for the responder, the responder for the locks of the queues, the workers
for their condition variables, and at the end `main` waits for all of them.  None of
this can come to a stand with work still to do.

The argument has two parts, each with a measure of its own: `main` and the responder
bring the message that they are at to its end, and then the workers empty their queues.

## Main definitions

* `Quiet` — a step in which nothing comes in.
* `InService` — a state in a session.
* `Snapshot.front`, `Snapshot.work` — what `main` and the responder, and what the workers
  have left to do.

## Main results

* `InService.exists_settled` — all work can be done.
* `InService.exists_run_settled` — from anywhere, at the level of the locks.
-/

namespace ShieldStore

open Bytes Counter CMem Sections Function Run Linear

/-! ### Steps in which nothing comes in -/

/-- A step of the thread `t` in which nothing comes in and nobody wakes up without a
signal, and what is seen so far. -/
def QuietBy (arg : Arg) (sdk : Sdk) (t : Thread) (a b : Snapshot × List Shown) : Prop :=
  ∃ os, a.1.Step arg sdk (t, .nothing) b.1 os ∧ b.2 = a.2 ++ os

/-- Such a step of any thread. -/
def Quiet (arg : Arg) (sdk : Sdk) (a b : Snapshot × List Shown) : Prop := ∃ t, QuietBy arg sdk t a b

/-- Only `main` receives inputs, and only those that come in. -/
theorem Snapshot.Step.quiet {arg : Arg} {sdk : Sdk} {s s' : Snapshot} {m : Thread × Stimulus}
    {os : List Shown} (hstep : s.Step arg sdk m s' os)
    (hm : (∀ input, m.2 ≠ .input input) ∨ s.main.point ≠ .select) : receivedInputs os = [] := by
  have hseen : ∀ seen : List Seen, receivedInputs (seen.map Shown.seen) = [] := by
    intro seen
    simp [receivedInputs, List.filterMap_map]
  cases hstep with
  | @main stimulus r hmode houter =>
    cases hpoint : s.main.point with
    | select =>
      -- the only place at which inputs are received
      replace hm := hm.resolve_right (not_not_intro hpoint)
      simp only [MainLoc.outer, hpoint] at houter
      split at houter
      · exact absurd rfl (hm _)
      · exact absurd rfl (hm _)
      · exact absurd rfl (hm _)
      · cases houter
        rfl
    | returned result =>
      simp only [MainLoc.outer, hpoint] at houter
      obtain ⟨a, -, heq⟩ := Option.bind_eq_some_iff.mp houter
      cases heq
      rfl
    | join i =>
      simp only [MainLoc.outer, hpoint] at houter
      split at houter
      · split at houter <;> cases houter <;> rfl
      · cases houter
        rfl
    | _ =>
      simp only [MainLoc.outer, hpoint] at houter
      cases houter
      rfl
  | @responder stimulus r hmode houter =>
    cases hresponder : s.responder with
    | hot p =>
      rw [hresponder] at houter
      cases p with
      | call callID data =>
        simp only [RespPoint.outer] at houter
        split at houter
        · rcases messagePass_cases houter with ⟨-, rfl⟩ | ⟨-, -, rfl⟩ | ⟨-, -, _, _, _, -, -, -, rfl⟩
          · dsimp only
            split <;> rfl
          · rfl
          · rfl
        · cases houter
          rfl
      | _ => cases houter; rfl
    | quits i =>
      simp only [hresponder, RespPoint.outer] at houter
      split at houter
      · obtain ⟨buf, -, heq⟩ := Option.bind_eq_some_iff.mp houter
        cases heq
        rfl
      · cases houter
        rfl
    | check i job next =>
      simp only [hresponder, RespPoint.outer] at houter
      split at houter <;> cases houter
      rfl
    | _ => rw [hresponder] at houter; cases houter; rfl
  | @worker n stimulus r hmode houter =>
    cases hworker : s.worker n with
    | took i curJob =>
      rw [hworker] at houter
      rcases (WorkerPoint.outer_took_cases houter).2 with ⟨out, -, rfl⟩ | ⟨-, rfl⟩ | ⟨-, rfl⟩
      · exact hseen _
      · rfl
      · rfl
    | _ => rw [hworker] at houter; cases houter; rfl
  | _ => rfl

/-- What was received is the beginning of the session. -/
theorem InSession.received {arg : Arg} {sdk : Sdk} {es : List ClientEvent} {os : List Shown} {st : Front}
    (h : InSession arg sdk es os st) : receivedInputs os <+: es.map ClientEvent.input := by
  obtain ⟨hs, moves, sv, seen, hist, h⟩ := h
  rw [h.received]
  rcases h.events with ⟨hpending, hs⟩ | ⟨e, hpending, hs, -⟩
  · rw [hpending, Option.toList_none, List.append_nil]
    exact hs.map _
  · rw [hpending, Option.toList_some]
    simpa using hs.map ClientEvent.input

/-- A state in the session `es`, and what has been seen. -/
def InService (arg : Arg) (buf : List UInt8) (sdk : Sdk) (es : List ClientEvent)
    (a : Snapshot × List Shown) : Prop :=
  ∃ st, Sound arg buf sdk es a.2 a.1 st

section Quiet

variable {arg : Arg} {buf : List UInt8} {sdk : Sdk} {es : List ClientEvent} {a b : Snapshot × List Shown}

theorem InService.step (ha : arg.Shared) (hlen : 9 ≤ arg.maxBufSize) (hquit : quitBuf arg = some buf)
    (ho : Orderly arg es) {s : Snapshot} {os : List Shown} {m : Thread × Stimulus}
    (h : InService arg buf sdk es a) (hstep : a.1.Step arg sdk m s os)
    (hm : ∀ input, m.2 ≠ .input input) : InService arg buf sdk es (s, a.2 ++ os) := by
  obtain ⟨st, hsound⟩ := h
  apply hsound.step ha hlen hquit ho hstep
  rw [receivedInputs_append, hstep.quiet (.inl hm), List.append_nil]
  exact hsound.session.received

theorem InService.quiet (ha : arg.Shared) (hlen : 9 ≤ arg.maxBufSize) (hquit : quitBuf arg = some buf)
    (ho : Orderly arg es) (h : InService arg buf sdk es a) (hab : Quiet arg sdk a b) :
    InService arg buf sdk es b := by
  obtain ⟨t, os, hstep, hb⟩ := hab
  obtain ⟨s, os'⟩ := b
  obtain rfl : os' = a.2 ++ os := hb
  exact h.step ha hlen hquit ho hstep (by simp)

end Quiet

/-! ### `main` and the responder -/

/-- What the responder has left to do with a message. -/
def RespPoint.rank (arg : Arg) : RespPoint → ℕ
  | .hot .spin => 3 * arg.numThreads + 6
  | .hot (.call _ _) => 3 * arg.numThreads + 5
  | .check _ _ next => 3 * (restFrom arg next).length + 4
  | .lock _ _ next => 3 * (restFrom arg next).length + 3
  | .quits i => 3 * (restFrom arg (some i)).length + 2
  | .hot .spinDone | .hot .left => 1
  | _ => 0

/-- How far `main` is from its next message, or from its joins. -/
def Snapshot.stage (s : Snapshot) : ℕ :=
  match s.main.point with
  | .request r =>
      match r.point with
      | .spin => 6
      | _ => if s.hotCall.isDone = false then 5 else 4
  | .returned _ => 3
  | .stop .spin => 2
  | .stop _ => 1
  | _ => 0

/-- What `main` and the responder have left to do. -/
def Snapshot.front (arg : Arg) (s : Snapshot) : ℕ :=
  s.stage * (3 * arg.numThreads + 7) + s.responder.rank arg

/-- `main` waits for a message, or for threads of which the responder is none. -/
def Snapshot.FrontRests (s : Snapshot) : Prop :=
  match s.main.point with
  | .select | .exited => True
  | .join _ | .done => s.responder = .gone
  | _ => False

section Front

variable {arg : Arg} {buf : List UInt8} {sdk : Sdk} {es : List ClientEvent} {s s' : Snapshot}
  {os : List Shown} {a : Snapshot × List Shown}

/-- The responder gets on with its message. -/
theorem RespPoint.rank_outer {p : RespPoint} {mem : Globals} {r : RespPoint × Globals × List Shown}
    (hmode : p.mode = .outside) (hp : p ≠ .gone) (h : p.outer arg sdk mem = some r) :
    r.1.rank arg < p.rank arg := by
  cases p with
  | hot p =>
    cases p with
    | call callID data =>
      simp only [outer] at h
      split at h
      · rcases messagePass_cases h with ⟨-, rfl⟩ | ⟨-, -, rfl⟩ | ⟨-, -, _, _, _, -, -, -, rfl⟩
        · dsimp only
          split <;> simp [rank, restFrom_zero]
        · simp [rank]
        · simp [rank, restFrom]
      · cases h
        simp [rank]
    | left =>
      cases h
      simp [rank]
    | _ => cases hmode
  | quits i =>
    simp only [outer] at h
    split at h
    · next hi =>
      obtain ⟨buf, -, heq⟩ := Option.bind_eq_some_iff.mp h
      cases heq
      -- one quit job less to be sent
      simp only [rank, restFrom_of_lt hi, List.length_cons]
      omega
    · cases h
      simp [rank]
  | check i job next =>
    simp only [outer] at h
    split at h <;> cases h
    simp [rank]
  | gone => exact absurd rfl hp
  | _ => cases hmode

theorem rank_afterPush (arg : Arg) (i : ℕ) (job : Job) (next : Option ℕ) :
    (afterPush next).rank arg < (RespPoint.lock i job next).rank arg := by
  cases next <;> simp [afterPush, RespPoint.rank]

/-- The responder moves, but not to end its call. -/
theorem Snapshot.Step.front_responder (hstep : s.Step arg sdk (.responder, .nothing) s' os)
    (hspin : s.responder ≠ .hot .spin) (hdone : s.responder ≠ .hot .spinDone)
    (hgone : s.responder ≠ .gone) : s'.front arg < s.front arg := by
  have hsame : ∀ {p : RespPoint} {mem : Globals} {queue : ℕ → JobQueue}, p.rank arg < s.responder.rank arg →
      { s with responder := p, mem, queue }.front arg < s.front arg :=
    fun hlt => Nat.add_lt_add_left hlt _
  generalize hm : (Thread.responder, Stimulus.nothing) = m at hstep
  cases hstep with
  | responder hmode houter => exact hsame (RespPoint.rank_outer hmode hgone houter)
  | poll hresponder => exact absurd hresponder hspin
  | done hresponder => exact absurd hresponder hdone
  | push hresponder =>
    refine hsame ?_
    rw [hresponder]
    exact rank_afterPush arg _ _ _
  | _ => cases hm

/-- `main` behind a call. -/
theorem MainLoc.outer_returned {l : MainLoc} {mem : Globals} {stimulus : Stimulus} {result : ℤ}
    {r : MainLoc × Globals × List Shown} (hpoint : l.point = .returned result)
    (h : l.outer arg mem stimulus = some r) : r.1.point = .select ∨ r.1.point = .stop .spin := by
  simp only [outer, hpoint] at h
  obtain ⟨⟨numConnection, leaves⟩, -, heq⟩ := Option.bind_eq_some_iff.mp h
  cases heq
  cases leaves
  · exact .inl rfl
  · exact .inr rfl

/-- **`main` and the responder get on**, as long as they do not rest. -/
theorem InService.exists_quiet_front (ha : arg.Shared) (hquit : quitBuf arg = some buf)
    (ho : Orderly arg es) (h : InService arg buf sdk es a) (hrests : ¬ a.1.FrontRests) :
    ∃ b, Quiet arg sdk a b ∧ b.1.front arg < a.1.front arg := by
  obtain ⟨st, hsound⟩ := h
  obtain ⟨s, os⟩ := a
  dsimp only at hsound hrests
  have hquiet : ∀ {t s' os'}, s.Step arg sdk (t, .nothing) s' os' → s'.front arg < s.front arg →
      ∃ b, Quiet arg sdk (s, os) b ∧ b.1.front arg < s.front arg :=
    fun {t s' os'} hstep hlt => ⟨(s', os ++ os'), ⟨t, os', hstep, rfl⟩, hlt⟩
  -- `main` moves, and the responder stays where it is
  have hmain : ∀ {s' os'}, s.Step arg sdk (.main, .nothing) s' os' → s'.responder = s.responder →
      s'.stage < s.stage → ∃ b, Quiet arg sdk (s, os) b ∧ b.1.front arg < s.front arg := by
    intro s' os' hstep hresponder hlt
    refine hquiet hstep ?_
    rw [Snapshot.front, Snapshot.front, hresponder]
    exact Nat.add_lt_add_right (Nat.mul_lt_mul_of_pos_right hlt (Nat.succ_pos _)) _
  have hresp : (s.responder.mode = .outside ∨ ∃ k, s.responder.mode = .enter k) →
      s.responder ≠ .hot .spin → s.responder ≠ .hot .spinDone → s.responder ≠ .gone →
      ∃ b, Quiet arg sdk (s, os) b ∧ b.1.front arg < s.front arg := by
    intro hmode hspin hdone hgone
    obtain ⟨s', os', hstep⟩ := hsound.exists_step_responder ha ho hquit .nothing hmode
    exact hquiet hstep (hstep.front_responder hspin hdone hgone)
  cases hsound.sim.stage with
  | select hpoint | exited hpoint =>
    refine absurd ?_ hrests
    simp [Snapshot.FrontRests, hpoint]
  | asks hpoint hrest =>
    refine hmain (.call hpoint rfl hrest.busy) rfl ?_
    simp [Snapshot.stage, hpoint, Requester.goto, Requester.take]
  | waits hcalled hrun hdone hresponder =>
    rcases hresponder with hresponder | hresponder
    · refine hquiet (.poll hresponder) ?_
      have hnext : pollNext s.hotCall = .call s.hotCall.callID s.hotCall.data := by
        simp [pollNext, hcalled.polling, hrun]
      simp only [Snapshot.front, hresponder, hnext]
      exact Nat.add_lt_add_left (Nat.lt_succ_self _) _
    · exact hresp (by rw [hresponder]; exact .inl rfl) (by simp [hresponder]) (by simp [hresponder])
        (by simp [hresponder])
  | passes hcalled hrun hdone hpassing =>
    cases hresponder : s.responder with
    | hot p =>
      rw [hresponder] at hpassing
      cases p with
      | spinDone =>
        refine hquiet (.done hresponder) ?_
        -- `main` may return, which makes up for the way ahead of the responder
        simp [Snapshot.front, Snapshot.stage, hcalled.main, hdone, hresponder, RespPoint.rank]
        omega
      | _ => exact hpassing.elim
    | quits | check =>
      exact hresp (by rw [hresponder]; exact .inl rfl) (by simp [hresponder]) (by simp [hresponder])
        (by simp [hresponder])
    | lock =>
      exact hresp (by rw [hresponder]; exact .inr ⟨_, rfl⟩) (by simp [hresponder]) (by simp [hresponder])
        (by simp [hresponder])
    | _ => rw [hresponder] at hpassing; exact hpassing.elim
  | finished hcalled hrun hdone hresponder =>
    refine hmain (.returns hcalled.main rfl hdone) rfl ?_
    simp [Snapshot.stage, hcalled.main, hdone]
  | returned hpoint =>
    have hmode : s.main.mode = .outside := by simp [MainLoc.mode, hpoint]
    obtain ⟨s', os', hstep⟩ := hsound.exists_step_main .nothing (.inl hmode)
    cases id hstep with
    | main _ houter =>
      refine hmain hstep rfl ?_
      rcases MainLoc.outer_returned hpoint houter with hnext | hnext <;>
        simp [Snapshot.stage, hpoint, hnext]
    | busy hpoint' | call hpoint' | awaits hpoint' | returns hpoint' | stop hpoint' =>
      rw [hpoint] at hpoint'
      cases hpoint'
  | closing hpoint =>
    refine hmain (.stop hpoint) rfl ?_
    simp [Snapshot.stage, hpoint]
  | gone hgone hrest hpoll =>
    -- the responder leaves its loop
    have hleaves : s.responder ≠ .gone → ∃ b, Quiet arg sdk (s, os) b ∧ b.1.front arg < s.front arg := by
      intro hne
      rcases hrest.responder with hresponder | ⟨-, hresponder | hresponder⟩
      · refine hquiet (.poll hresponder) ?_
        have hnext : pollNext s.hotCall = .left := by simp [pollNext, hpoll]
        simp only [Snapshot.front, hresponder, hnext, RespPoint.rank]
        exact Nat.add_lt_add_left (by omega) _
      · exact hresp (by rw [hresponder]; exact .inl rfl) (by simp [hresponder]) (by simp [hresponder]) hne
      · exact absurd hresponder hne
    cases hpoint : s.main.point with
    | stop p =>
      rw [hpoint] at hgone
      cases p with
      | returned =>
        have houter : s.main.outer arg s.mem .nothing = some ({ s.main with point := .join 0 }, s.mem, []) := by
          simp only [MainLoc.outer, hpoint]
        refine hmain (.main (by simp [MainLoc.mode, hpoint, Stopper.mode]) houter) rfl ?_
        simp [Snapshot.stage, hpoint]
      | _ => exact hgone.elim
    | join i | done => exact hleaves (by simpa [Snapshot.FrontRests, hpoint] using hrests)
    | _ => rw [hpoint] at hgone; exact hgone.elim

/-- The message under way can be brought to its end. -/
theorem InService.exists_frontRests (ha : arg.Shared) (hlen : 9 ≤ arg.maxBufSize)
    (hquit : quitBuf arg = some buf) (ho : Orderly arg es) (h : InService arg buf sdk es a) :
    ∃ b, Relation.ReflTransGen (Quiet arg sdk) a b ∧ InService arg buf sdk es b ∧ b.1.FrontRests := by
  refine exists_reflTransGen_of_lt _ (fun a => a.1.FrontRests) (fun a => a.1.front arg) ?_ h
  intro a h hrests
  obtain ⟨b, hab, hlt⟩ := h.exists_quiet_front ha hquit ho hrests
  exact ⟨b, hab, h.quiet ha hlen hquit ho hab, hlt⟩

end Front

/-! ### The workers -/

/-- What a worker has left to do. -/
def WorkerPoint.rank (queue : ℕ → JobQueue) : WorkerPoint → ℕ
  | .lock i => 4 * (queue i).jobs.length + 1
  | .asleep i => 4 * (queue i).jobs.length
  | .took i _ => 4 * (queue i).jobs.length - 1
  | .relock i _ | .relockQuit i _ => 4 * (queue i).jobs.length - 2
  | .destroy _ => 1
  | _ => 0

/-- What the workers have left to do. -/
def Snapshot.work (arg : Arg) (s : Snapshot) : ℕ :=
  ∑ n ∈ Finset.range arg.numThreads, (s.worker n).rank s.queue

/-- What a worker has to do is in its own queue. -/
theorem WorkerPoint.rank_congr {p : WorkerPoint} {queue queue' : ℕ → JobQueue}
    (h : ∀ i, p.threadId = some i → queue' i = queue i) : p.rank queue' = p.rank queue := by
  cases p with
  | lock i | asleep i | took i | relock i | relockQuit i => rw [rank, rank, h i rfl]
  | _ => rfl

/-- At the head of its loop, a worker waits or has taken a job. -/
theorem rank_loopHead {i : ℕ} {q : JobQueue} {queue : ℕ → JobQueue} (hqueue : queue i = (loopHead i q).2) :
    (loopHead i q).1.rank queue = 4 * q.jobs.length - 1 := by
  unfold loopHead at hqueue ⊢
  split at hqueue <;> simp_all [WorkerPoint.rank]

section Workers

variable {arg : Arg} {buf : List UInt8} {sdk : Sdk} {es : List ClientEvent} {s s' : Snapshot}
  {os : List Shown} {a : Snapshot × List Shown}

/-- A worker that has something to do does some of it. -/
theorem InService.rank_worker (h : InService arg buf sdk es a) {n : ℕ} {s' : Snapshot}
    (hrank : 0 < (a.1.worker n).rank a.1.queue) (hstep : a.1.Step arg sdk (.worker n, .nothing) s' os) :
    s'.main = a.1.main ∧ s'.responder = a.1.responder ∧
      (s'.worker n).rank s'.queue < (a.1.worker n).rank a.1.queue ∧
      ∀ n' ≠ n, (s'.worker n').rank s'.queue = (a.1.worker n').rank a.1.queue := by
  obtain ⟨st, hsound⟩ := h
  obtain ⟨s, os'⟩ := a
  dsimp only at hsound hrank hstep ⊢
  -- the others have other queues
  have hothers : ∀ {i : ℕ} {p : WorkerPoint} {q : JobQueue}, (s.worker n).threadId = some i → ∀ n' ≠ n,
      (update s.worker n p n').rank (update s.queue i q) = (s.worker n').rank s.queue := by
    intro i p q hid n' hne
    rw [update_of_ne hne]
    refine WorkerPoint.rank_congr fun i' hi' => update_of_ne ?_ _ _
    rintro rfl
    exact hne (hsound.sim.crew.inj hi' hid)
  have hstay : ∀ {p : WorkerPoint}, ∀ n' ≠ n, (update s.worker n p n').rank s.queue =
      (s.worker n').rank s.queue := by
    intro p n' hne
    rw [update_of_ne hne]
  have hhead : ∀ {i : ℕ} {q : JobQueue}, (update s.worker n (loopHead i q).1 n).rank
      (update s.queue i (loopHead i q).2) = 4 * q.jobs.length - 1 := by
    intro i q
    rw [update_self]
    exact rank_loopHead (update_self _ _ _)
  generalize hm : (Thread.worker n, Stimulus.nothing) = m at hstep
  cases hstep with
  | @worker n' stimulus r hmode houter =>
    cases hm
    cases hworker : s.worker n with
    | took i curJob =>
      obtain ⟨rest, hjobs⟩ := hsound.heap.front (n := n) (by rw [hworker]; rfl)
      rw [hworker] at houter
      refine ⟨rfl, rfl, ?_, hstay⟩
      dsimp only
      rw [update_self]
      rcases (WorkerPoint.outer_took_cases houter).2 with ⟨out, -, rfl⟩ | ⟨-, rfl⟩ | ⟨-, rfl⟩ <;>
        simp only [WorkerPoint.rank, hjobs, List.length_cons] <;> omega
    | destroy i =>
      rw [hworker] at houter
      cases houter
      refine ⟨rfl, rfl, ?_, hstay⟩
      dsimp only
      rw [update_self]
      simp [WorkerPoint.rank]
    | gone i =>
      rw [hworker] at hrank
      exact absurd hrank (Nat.lt_irrefl 0)
    | _ => rw [hworker] at hmode; cases hmode
  | start hworker =>
    cases hm
    rw [hworker] at hrank
    exact absurd hrank (Nat.lt_irrefl 0)
  | @head _ _ i hworker =>
    cases hm
    refine ⟨rfl, rfl, ?_, hothers (by rw [hworker]; rfl)⟩
    dsimp only
    rw [hhead, hworker, WorkerPoint.rank]
    omega
  | @wake _ _ i hworker =>
    cases hm
    refine ⟨rfl, rfl, ?_, hothers (by rw [hworker]; rfl)⟩
    dsimp only
    rw [hworker] at hrank
    rw [hhead, hworker]
    simp only [WorkerPoint.rank] at hrank ⊢
    omega
  | @pop _ _ i curJob front jobs mem hworker hjobs hfree =>
    cases hm
    refine ⟨rfl, rfl, ?_, hothers (by rw [hworker]; rfl)⟩
    dsimp only
    rw [hhead, hworker, WorkerPoint.rank, hjobs, List.length_cons]
    show 4 * jobs.length - 1 < _
    omega
  | @quit _ _ i curJob front jobs mem hworker hjobs hfree =>
    cases hm
    refine ⟨rfl, rfl, ?_, hothers (by rw [hworker]; rfl)⟩
    dsimp only
    rw [update_self, hworker, WorkerPoint.rank, WorkerPoint.rank, hjobs, List.length_cons]
    omega
  | _ => cases hm

/-- A worker that has something to do can move. -/
theorem InService.exists_quiet_worker (ha : arg.Shared) (ho : Orderly arg es)
    (h : InService arg buf sdk es a) {n : ℕ} (hrank : 0 < (a.1.worker n).rank a.1.queue) :
    ∃ s' os', a.1.Step arg sdk (.worker n, .nothing) s' os' := by
  obtain ⟨st, hsound⟩ := h
  apply hsound.exists_step_worker ha ho n .nothing
  · have hpoint := hsound.sim.crew.points n
    cases hworker : a.1.worker n with
    | took i curJob | destroy i | gone i => exact .inl rfl
    | lock i | asleep i | relock i curJob | relockQuit i curJob | start => exact .inr ⟨_, rfl⟩
    | _ => rw [hworker] at hpoint; cases hpoint
  · intro i hasleep
    rcases hsound.tidy.wakes n i hasleep with hcond | ⟨-, hjobs⟩
    · exact .inl hcond
    · rw [hasleep, WorkerPoint.rank, hjobs] at hrank
      exact absurd hrank (Nat.lt_irrefl 0)

/-- **The workers get on.** -/
theorem InService.exists_quiet_work (ha : arg.Shared) (ho : Orderly arg es)
    (h : InService arg buf sdk es a) (hwork : a.1.work arg ≠ 0) :
    ∃ b n, QuietBy arg sdk (.worker n) a b ∧ b.1.main = a.1.main ∧ b.1.responder = a.1.responder ∧
      b.1.work arg < a.1.work arg := by
  obtain ⟨n, hn, hrank⟩ : ∃ n ∈ Finset.range arg.numThreads, 0 < (a.1.worker n).rank a.1.queue := by
    by_contra hnone
    push Not at hnone
    exact hwork (Finset.sum_eq_zero fun n hn => Nat.le_zero.mp (hnone n hn))
  obtain ⟨s', os', hstep⟩ := h.exists_quiet_worker ha ho hrank
  obtain ⟨hmain, hresponder, hlt, hothers⟩ := h.rank_worker hrank hstep
  refine ⟨(s', a.2 ++ os'), n, ⟨os', hstep, rfl⟩, hmain, hresponder, ?_⟩
  refine Finset.sum_lt_sum (fun n' _ => ?_) ⟨n, hn, hlt⟩
  rcases eq_or_ne n' n with rfl | hne
  · exact hlt.le
  · exact (hothers n' hne).le

/-- **All work can be done**, without any new input. -/
theorem InService.exists_settled (ha : arg.Shared) (hlen : 9 ≤ arg.maxBufSize)
    (hquit : quitBuf arg = some buf) (ho : Orderly arg es) (h : InService arg buf sdk es a) :
    ∃ b, Relation.ReflTransGen (Quiet arg sdk) a b ∧ InService arg buf sdk es b ∧ b.1.FrontRests ∧
      b.1.work arg = 0 := by
  obtain ⟨b, hab, hb, hrests⟩ := h.exists_frontRests ha hlen hquit ho
  obtain ⟨c, hbc, ⟨hc, hcrests⟩, hwork⟩ := exists_reflTransGen_of_lt (r := Quiet arg sdk)
    (fun a => InService arg buf sdk es a ∧ a.1.FrontRests) (fun a => a.1.work arg = 0)
    (fun a => a.1.work arg) (by
      rintro a ⟨h, hrests⟩ hwork
      obtain ⟨b, n, hab, hmain, hresponder, hlt⟩ := h.exists_quiet_work ha ho hwork
      refine ⟨b, ⟨_, hab⟩, ⟨h.quiet ha hlen hquit ho ⟨_, hab⟩, ?_⟩, hlt⟩
      rw [Snapshot.FrontRests, hmain, hresponder]
      exact hrests) ⟨hb, hrests⟩
  exact ⟨c, hab.trans hbc, hc, hcrests, hwork⟩

end Workers

/-! ### From steps to runs -/

section Runs

variable {arg : Arg} {buf : List UInt8} {sdk : Sdk} {es : List ClientEvent} {s : Snapshot}
  {os : List Shown} {a b : Snapshot × List Shown} {σ : State Lock Thread Globals ThreadPoint Guarded}

/-- The way on as a run of whole sections. -/
theorem exists_reaches_of_quiet (h : Relation.ReflTransGen (Quiet arg sdk) a b) :
    ∃ ms os, (threads arg sdk).Reaches a.1.conf ms b.1.conf os ∧ b.2 = a.2 ++ os ∧
      ∀ m ∈ ms, m.2 = .nothing := by
  induction h with
  | refl => exact ⟨[], [], .refl, (List.append_nil _).symm, by simp⟩
  | tail _ hstep ih =>
    obtain ⟨ms, os, hreaches, hos, hms⟩ := ih
    obtain ⟨t, os', hstep, hos'⟩ := hstep
    refine ⟨ms ++ [(t, .nothing)], os ++ os', .step hreaches hstep.atomic, ?_, ?_⟩
    · rw [hos', hos, List.append_assoc]
    · intro m hm
      rcases List.mem_append.mp hm with hm | hm
      · exact hms m hm
      · rw [List.mem_singleton.mp hm]

/-- An input does not help anybody to a lock. -/
theorem admits_nothing {k : Lock} {p : ThreadPoint} {x : Guarded k} {input : Input}
    (h : p.admits k x (.input input) = true) : p.admits k x .nothing = true := by
  cases k with
  | queue i =>
    cases p with
    | worker p =>
      cases p with
      | asleep i' => simpa [ThreadPoint.admits] using h
      | _ => rfl
    | _ => rfl
  | _ => rfl

/-- The sections under way could have been entered without an input. -/
theorem reduces_quiet (h : Reduces (threads arg sdk) (fun _ => True) σ s.conf) :
    Reduces (threads arg sdk) (fun m => ∀ input, m.2 ≠ .input input) σ s.conf where
  env := h.env
  out := h.out
  free := h.free
  held := by
    intro k t hown
    obtain ⟨hmode, ⟨stimulus, -, hadmits⟩, hrest⟩ := h.held k t hown
    refine ⟨hmode, ?_, hrest⟩
    cases stimulus with
    | input input => exact ⟨.nothing, by simp, admits_nothing hadmits⟩
    | nothing => exact ⟨.nothing, by simp, hadmits⟩
    | wake => exact ⟨.wake, by simp, hadmits⟩

/-- The threads. -/
def crewOf (arg : Arg) : List Thread :=
  .main :: .responder :: (List.range arg.numThreads).map .worker

theorem Sound.mem_crewOf {st : Front} (h : Sound arg buf sdk es os s st) {k : Lock} {t : Thread}
    (hmode : (threads arg sdk).mode (s.conf.loc t) = .enter k) : t ∈ crewOf arg := by
  cases t with
  | main | responder => simp [crewOf]
  | worker n =>
    change (s.worker n).mode = .enter k at hmode
    by_cases hn : n < arg.numThreads
    · simp [crewOf, hn]
    · rw [h.sim.crew.nobody n (Nat.le_of_not_lt hn)] at hmode
      cases hmode

variable (ha : arg.Shared) (hlen : 9 ≤ arg.maxBufSize) (hquit : quitBuf arg = some buf)
  (ho : Orderly arg es)

include ha hlen hquit ho

/-- The sections under way are brought to their end. -/
theorem InService.exists_calm (h : InService arg buf sdk es (s, os))
    (hred : Reduces (threads arg sdk) (fun _ => True) σ s.conf) :
    ∃ ns s' oss, run (threads arg sdk).step σ ns = some (s'.conf.calm, oss) ∧
      (∀ m ∈ ns, m.2 = .nothing) ∧ InService arg buf sdk es (s', os ++ oss.flatten) := by
  let ok : Thread × Stimulus → Prop := fun m => ∀ input, m.2 ≠ .input input
  let I : Conf Lock Thread Globals ThreadPoint Guarded → Prop := fun c =>
    ∃ s os, c = s.conf ∧ InService arg buf sdk es (s, os)
  have hsafe : ∀ c, I c → Safe (threads arg sdk) ok c := by
    rintro c ⟨s, os, rfl, st, hsound⟩
    have hsafe := hsound.safe ha ho hquit
    exact ⟨fun m _ => hsafe.outer m trivial, fun t k i _ => hsafe.ends t k i trivial⟩
  have hI : ∀ {c m c' os}, I c → ok m → (threads arg sdk).AtomicStep c m c' os → I c' := by
    rintro c m c' os' ⟨s, os, rfl, hs⟩ hm hatomic
    obtain ⟨s', hstep, rfl⟩ := atomicStep_iff.mp hatomic
    exact ⟨s', _, rfl, hs.step ha hlen hquit ho hstep hm⟩
  obtain ⟨ns, ms, c, oss, hrun, hns, hms, hreaches, -⟩ :=
    Prog.exists_run_calm hsafe hI Stimulus.nothing (crewOf arg) (fun _ _ input => by simp)
      ⟨s, os, rfl, h⟩ (reduces_quiet hred) fun k t hown => by
        obtain ⟨st, hsound⟩ := h
        exact hsound.mem_crewOf (hred.held k t hown).1
  obtain ⟨s', rfl, hs'⟩ := Snapshot.induct ok
    (motive := fun s' os' => InService arg buf sdk es (s', os ++ os'))
    (by rw [List.append_nil]; exact h)
    (fun {s₁ s₂ m os₁ os₂} hs₁ hm hstep => by
      rw [← List.append_assoc]
      exact hs₁.step ha hlen hquit ho hstep hm)
    hreaches hms
  exact ⟨ns, s', oss, hrun, fun m hm => (hns m hm).2, hs'⟩

/-- **All work can be done**, from anywhere. -/
theorem InService.exists_run_settled (h : InService arg buf sdk es (s, os))
    (hred : Reduces (threads arg sdk) (fun _ => True) σ s.conf) :
    ∃ ns s' oss, run (threads arg sdk).step σ ns = some (s'.conf.calm, oss) ∧
      (∀ m ∈ ns, m.2 = .nothing) ∧ InService arg buf sdk es (s', os ++ oss.flatten) ∧ s'.FrontRests ∧
      s'.work arg = 0 := by
  obtain ⟨ns₁, s₁, oss₁, hrun₁, hns₁, hs₁⟩ := h.exists_calm ha hlen hquit ho hred
  obtain ⟨⟨s₂, os₂⟩, hgoes, hs₂, hrests, hwork⟩ := hs₁.exists_settled ha hlen hquit ho
  obtain ⟨ms, os', hreaches, hos₂, hms⟩ := exists_reaches_of_quiet hgoes
  obtain ⟨ns₂, oss₂, hrun₂, hflatten, hsub⟩ := Prog.exists_run_of_reaches hreaches
  refine ⟨ns₁ ++ ns₂, s₂, oss₁ ++ oss₂, ?_, ?_, ?_, hrests, hwork⟩
  · exact run_trans hrun₁ hrun₂
  · intro m hm
    rcases List.mem_append.mp hm with hm | hm
    · exact hns₁ m hm
    · exact hms m (hsub hm)
  · rw [List.flatten_append, hflatten, ← List.append_assoc, ← hos₂]
    exact hs₂

end Runs

end ShieldStore
