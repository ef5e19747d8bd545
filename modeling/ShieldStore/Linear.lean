import ShieldStore.Lib.Linear
import ShieldStore.Session

/-!
# The store as clients see it

A client calls the store with the message that `main` takes off its socket, and the call
returns with the reply that a worker sends.  The calls of different clients overlap, and
those of different workers are served at the same time.

## Main definitions

* `history` — calls and returns, in the order in which they are seen.

## Main results

* `threads_linearizable` — **the store is linearizable**, with the threads running at the
  level of their locks.
-/

namespace ShieldStore

open Bytes Counter CMem Sections Function Run Linear

/-- The calls and returns of a session `es`.  The next request to be received is call
`n`; a reply is that to the request whose job it is. -/
def history : List ClientEvent → ℕ → List Shown → List (Linear.Event (Req × ℤ) (List UInt8 × ℤ))
  | _, _, [] => []
  | es, n, .received _ :: os =>
      match es with
      | [] => history [] n os
      | e :: es =>
        match e.message with
        | some m => .call n m :: history es (n + 1) os
        | none => history es n os
  | es, n, .seen s :: os =>
      match s with
      | .answered _ job cipher clientSock => .ret job.ptr (cipher, clientSock) :: history es n os
      | _ => history es n os

/-- The requests that have been received. -/
def called (es : List ClientEvent) (os : List Shown) : List (Req × ℤ) :=
  (es.take (receivedInputs os).length).filterMap ClientEvent.message

/-! ### Calls and returns of a history -/

theorem called_received_cons (e : ClientEvent) (es : List ClientEvent) (input : Input) (os : List Shown) :
    called (e :: es) (.received input :: os) = e.message.toList ++ called es os := by
  show ((e :: es).take ((receivedInputs os).length + 1)).filterMap ClientEvent.message = _
  rw [List.take_succ_cons, List.filterMap_cons]
  cases e.message <;> rfl

theorem called_seen (es : List ClientEvent) (s : Seen) (os : List Shown) :
    called es (.seen s :: os) = called es os := by
  have hreceived : receivedInputs (.seen s :: os) = receivedInputs os := by
    cases s <;> rfl
  rw [called, hreceived, called]

theorem called_of_quiet {es : List ClientEvent} {os : List Shown} (h : receivedInputs os = []) :
    called es os = [] := by
  rw [called, h]
  rfl

theorem history_append : ∀ (os os' : List Shown) (es : List ClientEvent) (n : ℕ),
    history es n (os ++ os') = history es n os ++
      history (es.drop (receivedInputs os).length) (n + (called es os).length) os' := by
  intro os os'
  induction os with
  | nil => intro es n; simp [history, receivedInputs, called]
  | cons o os ih =>
    intro es n
    cases o with
    | received input =>
      have hreceived : receivedInputs (.received input :: os) = input :: receivedInputs os := rfl
      cases es with
      | nil =>
        simp only [List.cons_append, history]
        rw [ih]
        simp [called]
      | cons e es =>
        rw [called_received_cons, hreceived, List.length_cons, List.drop_succ_cons]
        simp only [List.cons_append, history]
        -- only a message that is a request is a call, and takes a number
        cases e.message with
        | none => exact ih es n
        | some m =>
          have hlen : n + (called es os).length + 1 = n + 1 + (called es os).length := by omega
          show _ :: history es (n + 1) (os ++ os') = _ :: (history es (n + 1) os ++
            history _ (n + ((called es os).length + 1)) os')
          rw [ih es (n + 1), ← Nat.add_assoc, hlen]
    | seen s =>
      have hreceived : receivedInputs (.seen s :: os) = receivedInputs os := by
        cases s <;> rfl
      rw [called_seen, hreceived]
      cases s <;> simp [history, ih]

/-- Calls are numbered from `n` on. -/
theorem calls_history : ∀ (os : List Shown) (es : List ClientEvent) (n : ℕ),
    calls (history es n os) = List.range' n (called es os).length := by
  intro os
  -- by induction on what is seen, with the events left and the next number free
  induction os with
  | nil => intro es n; simp [history, calls, called, receivedInputs]
  | cons o os ih =>
    intro es n
    cases o with
    | received input =>
      cases es with
      | nil =>
        rw [history, ih]
        simp [called]
      | cons e es =>
        rw [called_received_cons, history]
        cases e.message with
        | none => exact ih es n
        | some m =>
          show n :: calls (history es (n + 1) os) = _
          rw [ih, Option.toList_some, List.singleton_append, List.length_cons, List.range'_succ]
    | seen s =>
      rw [called_seen]
      cases s <;> exact ih es n

theorem mem_history_call : ∀ {os : List Shown} {es : List ClientEvent} {n k : ℕ} {m : Req × ℤ},
    (called es os)[k]? = some m → .call (n + k) m ∈ history es n os := by
  intro os
  induction os with
  | nil => intro es n k m hk; simp [called, receivedInputs] at hk
  | cons o os ih =>
    intro es n k m hk
    cases o with
    | received input =>
      cases es with
      | nil => simp [called] at hk
      | cons e es =>
        rw [called_received_cons] at hk
        rw [history]
        cases he : e.message with
        | none =>
          rw [he] at hk
          exact ih hk
        | some m' =>
          rw [he, Option.toList_some, List.singleton_append] at hk
          -- the first call, or one of those behind it
          cases k with
          | zero =>
            obtain rfl : m' = m := Option.some.inj hk
            exact List.mem_cons_self
          | succ k =>
            have hmem := ih (n := n + 1) (k := k) hk
            rw [Nat.add_right_comm] at hmem
            exact List.mem_cons_of_mem _ hmem
    | seen s =>
      rw [called_seen] at hk
      have hmem := ih (n := n) hk
      cases s <;> first
        | exact hmem
        | exact List.mem_cons_of_mem _ hmem

theorem mem_history_ret : ∀ {os : List Shown} {es : List ClientEvent} {n k : ℕ} {r : List UInt8 × ℤ},
    .ret k r ∈ history es n os → ∃ i job, (i, job, r.1, r.2) ∈ shownAnswers os ∧ job.ptr = k := by
  intro os
  induction os with
  | nil => intro es n k r hmem; cases hmem
  | cons o os ih =>
    intro es n k r hmem
    cases o with
    | received input =>
      cases es with
      | nil => exact ih hmem
      | cons e es =>
        rw [history] at hmem
        cases he : e.message with
        | none =>
          rw [he] at hmem
          exact ih hmem
        | some m =>
          rw [he] at hmem
          rcases List.mem_cons.mp hmem with heq | hmem
          · cases heq
          · exact ih hmem
    | seen s =>
      cases s with
      -- a return is the answer to a job
      | answered i job cipher clientSock =>
        rcases List.mem_cons.mp hmem with heq | hmem
        · cases heq
          exact ⟨i, job, List.mem_cons_self, rfl⟩
        · obtain ⟨i', job', hmem', hptr⟩ := ih hmem
          exact ⟨i', job', List.mem_cons_of_mem _ hmem', hptr⟩
      | _ => exact ih hmem

/-! ### The order -/

/-- The calls that were served, in the order in which they came in. -/
def linearization (hist : List Dispatched) : List (ℕ × (Req × ℤ) × (List UInt8 × ℤ)) :=
  hist.filterMap fun d => d.reply.map fun r =>
    (d.job.ptr, (d.req, d.job.clientSock), (r.1, d.job.clientSock))

theorem mem_linearization {hist : List Dispatched} {c : ℕ × (Req × ℤ) × (List UInt8 × ℤ)}
    (hc : c ∈ linearization hist) : ∃ d ∈ hist, ∃ r, d.reply = some r ∧
      c = (d.job.ptr, (d.req, d.job.clientSock), (r.1, d.job.clientSock)) := by
  obtain ⟨d, hd, hmap⟩ := List.mem_filterMap.mp hc
  obtain ⟨r, hr, rfl⟩ := Option.map_eq_some_iff.mp hmap
  exact ⟨d, hd, r, hr, rfl⟩

theorem linearization_reqs (hist : List Dispatched) :
    (linearization hist).map (fun c => c.2.1.1) = servedReqs hist := by
  unfold linearization servedReqs
  rw [List.map_filterMap]
  refine List.filterMap_congr fun d _ => ?_
  rw [Option.map_map]
  rfl

theorem linearization_replies (hist : List Dispatched) :
    (linearization hist).map (fun c => c.2.2.1) = (hist.filterMap Dispatched.reply).map Prod.fst := by
  unfold linearization
  rw [List.map_filterMap, List.map_filterMap]
  refine List.filterMap_congr fun d _ => ?_
  rw [Option.map_map]
  rfl

/-- Calls come in the order of their numbers. -/
theorem linearization_increasing {hist : List Dispatched}
    (hptrs : hist.map (·.job.ptr) = List.range hist.length) :
    ((linearization hist).map Prod.fst).Pairwise (· < ·) := by
  have hsub : ((linearization hist).map Prod.fst).Sublist (hist.map (·.job.ptr)) := by
    unfold linearization
    rw [List.map_filterMap, ← List.filterMap_eq_map]
    clear hptrs
    induction hist with
    | nil => exact .slnil
    | cons d hist ih =>
      rw [List.filterMap_cons, List.filterMap_cons]
      cases d.reply with
      | none => exact ih.cons _
      | some r => exact ih.cons_cons _
  rw [hptrs] at hsub
  exact List.pairwise_lt_range.sublist hsub

/-- Every worker has served its requests in their order. -/
theorem Inv.served_lanes {arg : Arg} {sdk : Sdk} {moves : List Move} {st : Server} {seen : List Seen}
    {hist : List Dispatched} (h : Inv arg sdk moves st seen hist) (ha : arg.Shared) (i : ℕ) :
    (servedReqs hist).filter (fun q => keyThread arg q.op.key = i) <+:
      (moves.filterMap Move.req).filter fun q => keyThread arg q.op.key = i := by
  have hreqs : (hist.map Dispatched.req).filter (fun q => keyThread arg q.op.key = i) =
      (hist.filter fun d => keyThread arg d.req.op.key = i).map Dispatched.req := by
    rw [List.filter_map]
    rfl
  rw [← h.reqs, hreqs]
  -- there are no keys for the threads behind the last one
  rcases Nat.lt_or_ge i arg.numThreads with hi | hi
  · obtain ⟨_, _, done, todo, -, -, lane⟩ := h.lanes i hi
    rw [lane.servedReqs_eq, lane.split, List.map_append]
    exact List.prefix_append _ _
  · have hnone : hist.filter (fun d => keyThread arg d.req.op.key = i) = [] := by
      rw [List.filter_eq_nil_iff]
      intro d _ heq
      rw [decide_eq_true_eq] at heq
      have := keyThread_lt ha.threaded d.req.op.key
      omega
    rw [servedReqs_filter, hnone]
    exact List.nil_prefix

section Session

variable {arg : Arg} {sdk : Sdk} {es : List ClientEvent} {os : List Shown} {st : Front}
  {hs : List ClientEvent} {moves : List Move} {sv : Server} {seen : List Seen}
  {hist : List Dispatched} (h : Session arg sdk es os st hs moves sv seen hist)

include h

/-- A request that was dispatched has been called. -/
theorem Session.call_of_mem {d : Dispatched} (hd : d ∈ hist) :
    .call d.job.ptr (d.req, d.job.clientSock) ∈ history es 0 os := by
  obtain ⟨k, hk, rfl⟩ := List.getElem_of_mem hd
  have hptr : (hist[k]).job.ptr = k := by
    have hat := congrArg (·[k]?) h.inv.ptrs
    simpa [hk] using hat
  have hmessage : (hs.filterMap ClientEvent.message)[k]? = some ((hist[k]).req, (hist[k]).job.clientSock) := by
    rw [← h.messages, ← h.inv.messages]
    simp [hk]
  -- the events that were handled are among those received
  have htake : hs <+: es.take (receivedInputs os).length := by
    have hlen : hs.length ≤ (receivedInputs os).length := by
      rw [h.received]
      simp
    exact List.prefix_take_iff.mpr ⟨h.handled, hlen⟩
  obtain ⟨rest, hrest⟩ : hs.filterMap ClientEvent.message <+: called es os := htake.filterMap _
  have hcalled : (called es os)[k]? = some ((hist[k]).req, (hist[k]).job.clientSock) := by
    rw [← hrest, List.getElem?_append_left (List.getElem?_eq_some_iff.mp hmessage).1, hmessage]
  have hcall := mem_history_call (n := 0) hcalled
  rw [Nat.zero_add] at hcall
  rwa [hptr]

/-- A reply is that to the request whose job it is. -/
theorem Session.exists_of_ret {k : ℕ} {r : List UInt8 × ℤ} (hret : .ret k r ∈ history es 0 os) :
    ∃ d ∈ hist, d.job.ptr = k ∧ ∃ log, d.reply = some (r.1, log) ∧ d.job.clientSock = r.2 := by
  obtain ⟨i, job, hmem, rfl⟩ := mem_history_ret hret
  rw [h.answers] at hmem
  obtain ⟨d, hd, hanswer⟩ := List.mem_filterMap.mp (h.inv.answers.subset hmem)
  obtain ⟨⟨cipher, log⟩, hreply, heq⟩ := Option.map_eq_some_iff.mp hanswer
  simp only [Prod.mk.injEq] at heq
  obtain ⟨-, hjob, rfl, hsock⟩ := heq
  exact ⟨d, hd, congrArg Job.ptr hjob, log, hreply, hsock⟩

/-- The replies are those of the map. -/
theorem Session.legal (ha : arg.Shared) (ho : Orderly arg es) :
    (linearization hist).map (fun c => c.2.2) =
      (runTotal (fun (m : StringMap) q => m.step q.1.op) (fun m q => (m.reply arg q.1, q.2)) .empty
        ((linearization hist).map fun c => c.2.1)).2 := by
  have ho := ho.mono h.handled
  have hlanes := h.inv.served_lanes ha
  rw [h.reqs] at hlanes
  -- the requests that were served, one after the other
  obtain ⟨s, outs, hrun, -, houts⟩ := exists_run_serveStep sdk ha.toValid
    (fun q hq => ho.wellFormed q (subset_of_lanes hlanes hq))
    (room_of_lanes hlanes ho.fit ho.slots)
  have hserial := h.inv.serial
  rw [@run_map_out _ _ _ _ (serveStep arg sdk) _ (fun out => (out.cipher, out.log))
    (fun s q => by rw [replyStep, serveStep, Option.map_map]; rfl), hrun, Option.map_some,
    Option.some.injEq, Prod.mk.injEq] at hserial
  have hciphers : (linearization hist).map (fun c => c.2.2.1) =
      (runTotal (Recs.step arg) (fun R q => (R.map arg).reply arg q) .empty (servedReqs hist)).2 := by
    rw [linearization_replies, ← hserial.2, ← houts, List.map_map]
    rfl
  have hsim := runTotal_sim (Recs.step arg) (fun R q => (R.map arg).reply arg q)
    (fun (m : StringMap) (q : Req × ℤ) => m.step q.1.op)
    (fun m (q : Req × ℤ) => (m.reply arg q.1, q.2)) (Recs.map arg) Prod.fst
    (fun cipher q => (cipher, q.2)) (fun R q => map_step arg R q.1) (fun _ _ => rfl)
    ((linearization hist).map fun c => c.2.1) .empty
  refine Eq.trans ?_ hsim.symm
  rw [List.map_map, show (Prod.fst ∘ fun c : ℕ × (Req × ℤ) × (List UInt8 × ℤ) => c.2.1) =
    fun c => c.2.1.1 from rfl, linearization_reqs, ← hciphers, List.zipWith_map, List.zipWith_self]
  refine List.map_congr_left fun c hc => ?_
  obtain ⟨d, -, r, -, rfl⟩ := mem_linearization hc
  rfl

end Session

/-! ### Every run -/

/-- Nothing is received and answered in one move. -/
theorem frontStep_quiet {arg : Arg} {sdk : Sdk} {st st' : Front} {act : FrontAct} {os : List Shown}
    (h : frontStep arg sdk st act = some (st', os)) : receivedInputs os = [] ∨ shownAnswers os = [] := by
  cases act with
  | receive input =>
    rw [frontStep] at h
    split at h <;> cases h
    · exact .inr rfl
    · exact .inl rfl
  | handle =>
    rw [frontStep] at h
    split at h
    · cases h
      exact .inl rfl
    · obtain ⟨r, -, heq⟩ := Option.map_eq_some_iff.mp h
      cases heq
      exact .inl (receivedInputs_visible _)
  | take i =>
    cases h
    exact .inl rfl
  | exec i | pop i =>
    obtain ⟨r, -, heq⟩ := Option.map_eq_some_iff.mp h
    cases heq
    exact .inl (receivedInputs_visible _)

section Front

variable {arg : Arg} {sdk : Sdk} {es : List ClientEvent} (ha : arg.Shared) (ho : Orderly arg es)

include ha ho

/-- No call returns before it has started. -/
theorem history_causal {acts : List FrontAct} {st : Front} {oss : List (List Shown)}
    (hrun : run (frontStep arg sdk) (Front.init arg) acts = some (st, oss))
    (hreceived : receivedInputs oss.flatten <+: es.map ClientEvent.input) :
    Causal (history es 0 oss.flatten) := by
  induction acts using List.reverseRecOn generalizing st oss with
  | nil =>
    cases hrun
    exact Causal.nil
  | append_singleton acts act ih =>
    obtain ⟨hs, moves, sv, seen, hist, h⟩ := InSession.of_run ha ho hrun hreceived
    obtain ⟨st₁, oss₁, os, hrun₁, hstep, rfl⟩ := run_concat_eq_some_iff.mp hrun
    rw [List.flatten_append, List.flatten_singleton] at h hreceived ⊢
    have hearlier : receivedInputs oss₁.flatten <+: es.map ClientEvent.input := by
      rw [receivedInputs_append] at hreceived
      exact (List.prefix_append _ _).trans hreceived
    rw [history_append]
    refine (ih hrun₁ hearlier).append fun n r hret => ?_
    rcases frontStep_quiet hstep with hquiet | hquiet
    · -- the call is an earlier one, for none starts in this move
      obtain ⟨d, hd, rfl, -⟩ := h.exists_of_ret (by
        rw [history_append]
        exact List.mem_append_right _ hret)
      have hcall := h.call_of_mem hd
      rw [history_append] at hcall
      rcases List.mem_append.mp hcall with hcall | hcall
      · exact ⟨_, hcall⟩
      · have hnum := mem_calls hcall
        rw [calls_history, called_of_quiet hquiet] at hnum
        cases hnum
    · obtain ⟨i, job, hmem, -⟩ := mem_history_ret hret
      rw [hquiet] at hmem
      cases hmem

/-- The history of the server in big steps. -/
theorem exists_linearization {acts : List FrontAct} {st : Front} {oss : List (List Shown)}
    (hrun : run (frontStep arg sdk) (Front.init arg) acts = some (st, oss))
    (hreceived : receivedInputs oss.flatten <+: es.map ClientEvent.input) :
    ∃ l, Linearization (fun (m : StringMap) q => m.step q.1.op) (fun m q => (m.reply arg q.1, q.2))
      .empty (history es 0 oss.flatten) l := by
  obtain ⟨hs, moves, sv, seen, hist, h⟩ := InSession.of_run ha ho hrun hreceived
  refine ⟨linearization hist, .of_increasing ?_ (history_causal ha ho hrun hreceived)
    (linearization_increasing h.inv.ptrs) ?_ ?_ (h.legal ha ho)⟩
  · rw [Numbered, calls_history]
    exact List.pairwise_lt_range'
  · intro c hc
    obtain ⟨d, hd, r, -, rfl⟩ := mem_linearization hc
    exact h.call_of_mem hd
  · intro n r hret
    obtain ⟨d, hd, rfl, log, hreply, hsock⟩ := h.exists_of_ret hret
    refine ⟨(d.req, d.job.clientSock), List.mem_filterMap.mpr ⟨d, hd, ?_⟩⟩
    rw [hreply, hsock]
    rfl

end Front

/-- **The store is linearizable.**  Clients keep to an orderly session, the workers share
the groups between them, and `main`, the responder and the workers do what they do, in any
order down to their locks.  The requests can be put
in an order in which a map of strings, taking them one after the other, gives every reply
that was sent, on the socket of its request; and no request comes before one that had
been answered when it was received. -/
theorem threads_linearizable (arg : Arg) (sdk : Sdk) (ha : arg.Shared) (hlen : 9 ≤ arg.maxBufSize)
    (es : List ClientEvent) (ho : Orderly arg es) (ms : List (Thread × Stimulus))
    (σ : State Lock Thread Globals ThreadPoint Guarded) (oss : List (List Shown))
    (hrun : run (threads arg sdk).step (threadsInit arg).calm ms = some (σ, oss))
    (hreceived : receivedInputs oss.flatten <+: es.map ClientEvent.input) :
    ∃ l, Linearization (fun (m : StringMap) q => m.step q.1.op) (fun m q => (m.reply arg q.1, q.2))
      .empty (history es 0 oss.flatten) l := by
  obtain ⟨buf, hquit, -⟩ := exists_quitBuf ((show 4 ≤ 9 by decide).trans hlen)
  obtain ⟨s, st, -, ⟨acts, oss', hrun', hflatten⟩, -⟩ := Sim.of_run ha.threaded hlen hquit hrun
  rw [← hflatten] at hreceived ⊢
  exact exists_linearization ha ho hrun' hreceived

/-- Two requests for one key overlap.  The one that was received first is served first, and
the other has its value. -/
theorem threads_linearizable_overlapping :
    ∃ (σ : State Lock Thread Globals ThreadPoint Guarded) (oss : List (List Shown)),
      run (threads ⟨1, 32, 1, 1, false, false⟩ Sdk.aes).step (threadsInit ⟨1, 32, 1, 1, false, false⟩).calm
          ((Thread.worker 0).moves 4 ++ overlappingRun ++ (Thread.worker 0).moves 9) = some (σ, oss) ∧
      history overlappingSession 0 oss.flatten =
        [.call 0 (⟨.set [0x61] [0x31], false, 0⟩, 4), .call 1 (⟨.get [0x61], false, 0⟩, 5),
          .ret 0 (0x61 :: List.replicate 31 0, 4), .ret 1 (0x31 :: List.replicate 31 0, 5)] ∧
      ∃ l, Linearization (fun (m : StringMap) q => m.step q.1.op)
        (fun m q => (m.reply ⟨1, 32, 1, 1, false, false⟩ q.1, q.2)) .empty
        (history overlappingSession 0 oss.flatten) l := by
  have hshown : (run (threads ⟨1, 32, 1, 1, false, false⟩ Sdk.aes).step
      (threadsInit ⟨1, 32, 1, 1, false, false⟩).calm
      ((Thread.worker 0).moves 4 ++ overlappingRun ++ (Thread.worker 0).moves 9)).map
        (fun r => (receivedInputs r.2.flatten, history overlappingSession 0 r.2.flatten)) =
      some (overlappingSession.map ClientEvent.input,
        [.call 0 (⟨.set [0x61] [0x31], false, 0⟩, 4), .call 1 (⟨.get [0x61], false, 0⟩, 5),
          .ret 0 (0x61 :: List.replicate 31 0, 4), .ret 1 (0x31 :: List.replicate 31 0, 5)]) := by
    decide +kernel
  obtain ⟨⟨σ, oss⟩, hrun, heq⟩ := Option.map_eq_some_iff.mp hshown
  obtain ⟨hreceived, hhistory⟩ := Prod.mk.inj heq
  exact ⟨σ, oss, hrun, hhistory, threads_linearizable ⟨1, 32, 1, 1, false, false⟩ Sdk.aes (by decide)
    (by decide) overlappingSession orderly_overlapping _ σ oss hrun (hreceived ▸ List.prefix_refl _)⟩

end ShieldStore
