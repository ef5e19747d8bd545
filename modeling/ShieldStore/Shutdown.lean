import ShieldStore.App
import ShieldStore.Workers

/-!
# Shutdown

The end of a server is decided twice.  The enclave sends the workers their quit jobs at
the `EXIT` that makes `exit_count` the number of clients, which `main` takes to be the
most connections that were ever open at a time.  `main` leaves its loop, and joins the
workers, at the `EXIT` that closes the last connection.  The two agree on a sequence of
events just when, at every `EXIT`, the `EXIT`s so far are as many as the connections at
their peak exactly if no connection is open any more.

## Main definitions

* `ClientEvent` — what clients do.
* `conns`, `peak`, `exits` — connections and `EXIT`s, counted on the events alone.
* `closing`, `fires` — `main` leaves its loop; the enclave sends the quit jobs.
* `Agrees` — the quit jobs that were sent, and where `main` is.

## Main results

* `Tracks.step` — one event.
* `exists_run_tracks` — every sequence of events.
* `shutdown_agrees_iff` — when the two agree.
* `agrees_of_no_load` — they do for clients that do not load and connect in time.
-/

namespace ShieldStore

open Bytes Counter CMem Run

/-! ### Events -/

/-- What clients do.  A message that starts with `EXIT` may have more to it. -/
inductive ClientEvent
  | accept
  | request (sock : ℤ) (req : Req)
  | loadDone (sock : ℤ)
  | exit (sock : ℤ) (rest : List UInt8)
  deriving DecidableEq

namespace ClientEvent

/-- What `main` sees of an event. -/
def input : ClientEvent → Input
  | accept => .accept
  | request sock req => .message sock req.text req.rand
  | loadDone sock => .message sock (lit ['L', 'O', 'A', 'D', 'D', 'O', 'N', 'E']) 0
  | exit sock rest => .message sock ([0x45, 0x58, 0x49, 0x54] ++ rest) 0

/-- The message fits the buffer, and a request has a worker. -/
def Ok (arg : Arg) : ClientEvent → Prop
  | accept => True
  | request _ req => req.WellFormed arg ∧
      (threadId arg (cstr req.op.key)).any (· < arg.numThreads) = true
  | loadDone _ => 9 ≤ arg.maxBufSize
  | exit _ rest => 4 + rest.length ≤ arg.maxBufSize

instance (arg : Arg) (e : ClientEvent) : Decidable (e.Ok arg) := by
  cases e <;> unfold Ok <;> infer_instance

def isAccept : ClientEvent → Bool
  | accept => true
  | _ => false

def isLoadDone : ClientEvent → Bool
  | loadDone _ => true
  | _ => false

def isExit : ClientEvent → Bool
  | exit _ _ => true
  | _ => false

end ClientEvent

/-- The number of `EXIT`s. -/
def exits (es : List ClientEvent) : ℕ := es.countP ClientEvent.isExit

/-- The number of open connections. -/
def conns (es : List ClientEvent) : ℤ :=
  es.countP ClientEvent.isAccept - es.countP ClientEvent.isLoadDone - exits es

/-- The most connections that were ever open at a time. -/
def peak (es : List ClientEvent) : ℤ := (es.inits.map conns).foldl max 0

/-- The last event is an `EXIT`. -/
def endsInExit (es : List ClientEvent) : Bool := es.getLast?.any ClientEvent.isExit

/-- The last event is the `EXIT` that closes the last connection. -/
def closing (es : List ClientEvent) : Bool := endsInExit es && conns es = 0

/-- The last event is an `EXIT` that makes them as many as the clients. -/
def fires (es : List ClientEvent) : Bool := endsInExit es && exits es = peak es

/-- Every event is handled by `main` in its loop: no event but the last can be the
`EXIT` that closes the last connection. -/
def Handled (es : List ClientEvent) : Prop := ∀ p, p <+: es → p ≠ es → closing p = false

instance (es : List ClientEvent) : Decidable (Handled es) :=
  decidable_of_iff (∀ p ∈ es.inits, p ≠ es → closing p = false) (by simp [Handled])

/-- A quit job for every worker, at every event that fires. -/
def firedQuits (n : ℕ) (es : List ClientEvent) : List ℕ :=
  (es.inits.filter fires).flatMap fun _ => List.range n

/-- The workers that are sent a quit job. -/
def quitThreads (seen : List Seen) : List ℕ :=
  ((pushedJobs seen).filter fun p => command p.2.buf = some .quit).map Prod.fst

/-- After `es`, every worker was sent one quit job if the last event is the `EXIT` that
closes the last connection, and else none was; and `main` has left its loop just then. -/
structure Agrees (arg : Arg) (es : List ClientEvent) (app : App) (seen : List Seen) : Prop where
  conns : app.numConnection = conns es
  quits : quitThreads seen = if closing es then List.range arg.numThreads else []
  left : app.place = .left ↔ closing es = true

/-! ### Counting -/

section Counting

variable (es : List ClientEvent) (e : ClientEvent)

@[simp] theorem endsInExit_concat : endsInExit (es ++ [e]) = e.isExit := by
  simp [endsInExit]

theorem inits_concat : (es ++ [e]).inits = es.inits ++ [es ++ [e]] := by
  simp [List.inits_append]

theorem peak_concat : peak (es ++ [e]) = max (peak es) (conns (es ++ [e])) := by
  simp [peak]

theorem exits_concat : exits (es ++ [e]) = exits es + e.isExit.toNat := by
  cases e <;> simp [exits, ClientEvent.isExit]

theorem conns_concat : conns (es ++ [e]) = conns es + e.isAccept.toNat - e.isLoadDone.toNat
    - e.isExit.toNat := by
  unfold conns
  rw [exits_concat]
  cases e <;> simp [ClientEvent.isExit, ClientEvent.isAccept, ClientEvent.isLoadDone] <;> omega

theorem conns_le_peak : conns es ≤ peak es := by
  induction es using List.reverseRecOn with
  | nil => decide
  | append_singleton es e _ =>
    rw [peak_concat]
    exact le_max_right _ _

variable {es e} in
/-- Only a new connection can raise the peak. -/
theorem peak_concat_of_isAccept (he : e.isAccept = false) : peak (es ++ [e]) = peak es := by
  have hle := conns_le_peak es
  rw [peak_concat, max_eq_left]
  rw [conns_concat, he, Bool.toNat_false]
  omega

theorem firedQuits_concat (n : ℕ) : firedQuits n (es ++ [e]) =
    firedQuits n es ++ if fires (es ++ [e]) then List.range n else [] := by
  unfold firedQuits
  rw [inits_concat, List.filter_append, List.flatMap_append, List.filter_cons]
  split <;> simp

end Counting

/-! ### Quit jobs -/

@[simp] theorem quitThreads_nil : quitThreads [] = [] := rfl

@[simp] theorem quitThreads_append (seen new : List Seen) :
    quitThreads (seen ++ new) = quitThreads seen ++ quitThreads new := by
  simp [quitThreads]

theorem quitThreads_pushed (i : ℕ) (job : Job) :
    quitThreads [.pushed i job] = if command job.buf = some .quit then [i] else [] := by
  show (([(i, job)] : List (ℕ × Job)).filter fun p => command p.2.buf = some .quit).map Prod.fst = _
  rw [List.filter_cons]
  split <;> simp_all

/-- A worker takes the buffer of a quit job for what it is. -/
theorem exists_quitBuf {arg : Arg} (hbuf : 4 ≤ arg.maxBufSize) :
    ∃ buf, quitBuf arg = some buf ∧ command buf = some .quit := by
  refine ⟨_, memcpy_malloc hbuf (by simp [lit]), ?_⟩
  simp [lit, command, startsWith, strncmp]

/-- The loop over the workers, from any of them on. -/
theorem foldlM_pushQuit {arg : Arg} (hbuf : 4 ≤ arg.maxBufSize) :
    ∀ (is : List ℕ) (st : Server) (seen : List Seen), (∀ i ∈ is, i < st.queue.length) →
      ∃ st' seen', is.foldlM (pushQuit arg) (st, seen) = some (st', seen') ∧
        st'.queue.length = st.queue.length ∧ st'.exitCount = st.exitCount ∧
        quitThreads seen' = quitThreads seen ++ is := by
  obtain ⟨buf, hquit, hcmd⟩ := exists_quitBuf hbuf
  intro is
  induction is with
  | nil =>
    intro st seen _
    exact ⟨st, seen, rfl, rfl, rfl, by simp⟩
  | cons i is ih =>
    intro st seen hlt
    have hi := hlt i List.mem_cons_self
    have hpush : pushQuit arg (st, seen) i = some
        ({ st with
            queue := st.queue.set i (st.queue[i] ++ [⟨st.allocs, buf, -1, 0⟩])
            allocs := st.allocs + 1 },
          seen ++ [.pushed i ⟨st.allocs, buf, -1, 0⟩]) := by
      simp [pushQuit, hquit, Server.push, List.getElem?_eq_getElem hi]
    -- the queues stay as many as they are, for the workers that follow
    obtain ⟨st', seen', hrun, hqueue, hcount, hquits⟩ := ih
      { st with
          queue := st.queue.set i (st.queue[i] ++ [⟨st.allocs, buf, -1, 0⟩])
          allocs := st.allocs + 1 }
      (seen ++ [.pushed i ⟨st.allocs, buf, -1, 0⟩])
      (fun j hj => by simpa using hlt j (List.mem_cons_of_mem _ hj))
    refine ⟨st', seen', ?_, by simpa using hqueue, hcount, ?_⟩
    · rw [List.foldlM_cons, hpush]
      exact hrun
    · rw [hquits, quitThreads_append, quitThreads_pushed, if_pos hcmd, List.append_assoc]
      rfl

/-- The enclave sends one quit job to every worker. -/
theorem exists_pushQuits {arg : Arg} (hbuf : 4 ≤ arg.maxBufSize) {s : Server}
    (hlen : s.queue.length = arg.numThreads) :
    ∃ st' seen, pushQuits arg s = some (st', seen) ∧ st'.queue.length = arg.numThreads ∧
      st'.exitCount = s.exitCount ∧ quitThreads seen = List.range arg.numThreads := by
  obtain ⟨st', seen, hrun, hqueue, hcount, hquits⟩ :=
    foldlM_pushQuit hbuf (List.range arg.numThreads) s [] fun i hi => by simpa [hlen] using hi
  exact ⟨st', seen, hrun, hqueue.trans hlen, hcount, by simpa using hquits⟩

/-- The enclave counts an `EXIT`, and sends the quit jobs if that makes the number of
clients. -/
theorem exists_enclaveMessagePass_exit {arg : Arg} (sdk : Sdk) (hbuf : 4 ≤ arg.maxBufSize)
    {st : Server} (hlen : st.queue.length = arg.numThreads) (sock : ℤ) (rest : List UInt8) (n : ℕ) :
    ∃ st' seen, enclaveMessagePass arg sdk st
        ⟨readBuf arg ([0x45, 0x58, 0x49, 0x54] ++ rest), sock, n, 0⟩ = some (st', seen) ∧
      st'.exitCount = st.exitCount + 1 ∧ st'.queue.length = arg.numThreads ∧
      quitThreads seen = if st.exitCount + 1 = n then List.range arg.numThreads else [] := by
  have hexit : startsWith (readBuf arg ([0x45, 0x58, 0x49, 0x54] ++ rest)) (lit ['E', 'X', 'I', 'T'])
      (lit ['e', 'x', 'i', 't']) 4 = some true := by
    simp [readBuf, lit, startsWith, strncmp]
  unfold enclaveMessagePass
  simp only [hexit, Option.bind_eq_bind, Option.bind_some, if_true]
  by_cases hn : st.exitCount + 1 = n
  · obtain ⟨st', seen, hpush, hqueue, hcount, hquits⟩ :=
      exists_pushQuits hbuf (s := { st with exitCount := st.exitCount + 1 }) hlen
    simp only [if_pos hn, hpush, Option.bind_some]
    exact ⟨_, _, rfl, hcount, hqueue, hquits⟩
  · simp only [if_neg hn]
    exact ⟨_, _, rfl, rfl, hlen, rfl⟩

/-! ### One event -/

/-- What the counters of `main` and of the enclave hold after `es`. -/
structure Tracks (arg : Arg) (es : List ClientEvent) (app : App) : Prop where
  conns : app.numConnection = conns es
  clients : (app.numClients : ℤ) = peak es
  exits : app.server.exitCount = exits es
  queues : app.server.queue.length = arg.numThreads
  place : app.place = if closing es then .left else .select

theorem Tracks.init (arg : Arg) : Tracks arg [] (App.init arg) where
  conns := rfl
  clients := rfl
  exits := rfl
  queues := by simp [App.init, Server.init]
  place := rfl

section Step

variable {arg : Arg} {sdk : Sdk} {app : App}

/-- `main` accepts a client. -/
theorem selectStep_accept (hplace : app.place = .select) :
    selectStep arg sdk app .accept =
      some ({ app with
        numConnection := app.numConnection + 1
        numClients := if app.numConnection + 1 > app.numClients then (app.numConnection + 1).toNat
          else app.numClients }, []) :=
  if_pos hplace

/-- `main` handles a message. -/
theorem selectStep_message (hplace : app.place = .select) {sock : ℤ} {text : List UInt8}
    {rand : Block} {server : Server} {seen : List Seen} {loadDone exit : Bool}
    (hpass : enclaveMessagePass arg sdk app.server ⟨readBuf arg text, sock, app.numClients, rand⟩ =
      some (server, seen))
    (hload : strncmp (readBuf arg text) (lit ['L', 'O', 'A', 'D', 'D', 'O', 'N', 'E']) 9 =
      some loadDone)
    (hexit : strncmp (readBuf arg text) (lit ['E', 'X', 'I', 'T']) 4 = some exit) :
    selectStep arg sdk app (.message sock text rand) =
      some ({ app with
        server
        numConnection := app.numConnection - loadDone.toNat - exit.toNat
        place := if exit ∧ app.numConnection - loadDone.toNat - exit.toNat = 0 then .left
          else .select }, seen) := by
  unfold selectStep
  rw [if_pos hplace]
  simp only [hpass, hload, hexit, Option.bind_eq_bind, Option.bind_some]
  cases loadDone <;> cases exit <;> simp

variable {es : List ClientEvent} {e : ClientEvent} (h : Tracks arg es app)
  (hopen : closing es = false)

include h hopen

theorem Tracks.place_eq : app.place = .select := by
  rw [h.place, hopen]
  rfl

/-- After a message, the counters of `main` are right if those of the enclave are. -/
theorem Tracks.message {sock : ℤ} {text : List UInt8} {rand : Block} {server : Server}
    {seen : List Seen} (hinput : e.input = .message sock text rand) (haccept : e.isAccept = false)
    (hpass : enclaveMessagePass arg sdk app.server ⟨readBuf arg text, sock, app.numClients, rand⟩ =
      some (server, seen))
    (hload : strncmp (readBuf arg text) (lit ['L', 'O', 'A', 'D', 'D', 'O', 'N', 'E']) 9 =
      some e.isLoadDone)
    (hexit : strncmp (readBuf arg text) (lit ['E', 'X', 'I', 'T']) 4 = some e.isExit)
    (hcount : server.exitCount = ShieldStore.exits (es ++ [e]))
    (hqueue : server.queue.length = arg.numThreads) :
    ∃ app', selectStep arg sdk app e.input = some (app', seen) ∧ Tracks arg (es ++ [e]) app' := by
  have hconns : app.numConnection - e.isLoadDone.toNat - e.isExit.toNat =
      ShieldStore.conns (es ++ [e]) := by
    rw [conns_concat, haccept, h.conns]
    simp
  refine ⟨_, hinput ▸ selectStep_message (h.place_eq hopen) hpass hload hexit, ?_⟩
  constructor
  · exact hconns
  · rw [peak_concat_of_isAccept haccept]
    exact h.clients
  · exact hcount
  · exact hqueue
  · simp [closing, hconns]

variable (sdk) in
/-- **One event**: the counters are right after it, and the workers are sent their quit
jobs if it is an `EXIT` that makes them as many as the clients. -/
theorem Tracks.step (hbuf : arg.maxBufSize < 2 ^ 32) (he : e.Ok arg) :
    ∃ app' seen, selectStep arg sdk app e.input = some (app', seen) ∧ Tracks arg (es ++ [e]) app' ∧
      quitThreads seen = if fires (es ++ [e]) then List.range arg.numThreads else [] := by
  cases e with
  | accept =>
    refine ⟨_, _, selectStep_accept (h.place_eq hopen), ?_, ?_⟩
    · have hconns : app.numConnection + 1 = ShieldStore.conns (es ++ [.accept]) := by
        rw [conns_concat, h.conns]
        simp [ClientEvent.isAccept, ClientEvent.isLoadDone, ClientEvent.isExit]
      constructor
      · exact hconns
      -- the peak moves with the connections, or stays
      · have hclients := h.clients
        have := h.conns
        rw [peak_concat, ← hconns, ← hclients]
        dsimp only
        split <;> omega
      · rw [exits_concat]
        exact h.exits
      · exact h.queues
      · simpa [closing, ClientEvent.isExit] using h.place_eq hopen
    · simp [fires, ClientEvent.isExit]
  | request sock req =>
    obtain ⟨hreq, hthread⟩ := he
    obtain ⟨i, hi, hlt⟩ := (Option.any_eq_true _ _).mp hthread
    rw [decide_eq_true_eq, ← h.queues] at hlt
    have hpass := enclaveMessagePass_req sdk hbuf hreq app.server sock app.numClients
    rw [hi, Option.bind_some, Server.push, List.getElem?_eq_getElem hlt] at hpass
    obtain ⟨app', hstep, htracks⟩ := h.message (e := .request sock req) hopen rfl rfl hpass
      (strncmp_loaddone req 8) (strncmp_exit req 3) (by rw [exits_concat]; exact h.exits) (by simpa using h.queues)
    refine ⟨app', _, hstep, htracks, ?_⟩
    -- the job that is pushed is a request, and no quit job
    rw [quitThreads_pushed, if_neg]
    · simp [fires, ClientEvent.isExit]
    · show command (req.buf arg) ≠ _
      rw [command_buf hreq]
      cases req.op <;> simp [Op.command]
  | loadDone sock =>
    have hpass : enclaveMessagePass arg sdk app.server
        ⟨readBuf arg (lit ['L', 'O', 'A', 'D', 'D', 'O', 'N', 'E']), sock, app.numClients, 0⟩ =
          some (app.server, [.event (.print .loadProcessDone),
            .messageReturn (readBuf arg (lit ['L', 'O', 'A', 'D', 'D', 'O', 'N', 'E'])) sock]) := by
      simp [enclaveMessagePass, readBuf, lit, startsWith, strncmp]
    obtain ⟨app', hstep, htracks⟩ := h.message (e := .loadDone sock) hopen rfl rfl hpass
      (by simp [readBuf, lit, strncmp, ClientEvent.isLoadDone])
      (by simp [readBuf, lit, strncmp, ClientEvent.isExit])
      (by rw [exits_concat]; exact h.exits) h.queues
    exact ⟨app', _, hstep, htracks, by simp [fires, ClientEvent.isExit, quitThreads, pushedJobs]⟩
  | exit sock rest =>
    have hlen : 4 ≤ arg.maxBufSize := (Nat.le_add_right 4 _).trans he
    have hcount : app.server.exitCount + 1 = ShieldStore.exits (es ++ [.exit sock rest]) := by
      rw [exits_concat, h.exits]
      rfl
    -- the enclave compares its count with the peak that `main` hands in
    have hfires : fires (es ++ [.exit sock rest]) =
        decide (app.server.exitCount + 1 = app.numClients) := by
      rw [fires, endsInExit_concat, peak_concat_of_isAccept rfl, ← h.clients, ← hcount]
      simp only [ClientEvent.isExit, Bool.true_and, decide_eq_decide]
      omega
    obtain ⟨server, seen, hpass, hexits, hqueue, hquits⟩ :=
      exists_enclaveMessagePass_exit sdk hlen h.queues sock rest app.numClients
    obtain ⟨app', hstep, htracks⟩ := h.message (e := .exit sock rest) hopen rfl rfl hpass
      (by simp [readBuf, lit, strncmp, ClientEvent.isLoadDone])
      (by simp [readBuf, lit, strncmp, ClientEvent.isExit]) (hexits.trans hcount) hqueue
    refine ⟨app', seen, hstep, htracks, ?_⟩
    rw [hquits, hfires]
    simp

end Step

/-! ### Every sequence of events -/

theorem Handled.of_prefix {es p : List ClientEvent} (h : Handled es) (hp : p <+: es) : Handled p := by
  intro q hq hne
  refine h q (hq.trans hp) ?_
  rintro rfl
  exact hne (hq.eq_of_length_le hp.length_le)

theorem Handled.closing_eq {es p : List ClientEvent} {e : ClientEvent} (h : Handled es)
    (hp : p ++ [e] <+: es) : closing p = false :=
  h.of_prefix hp p (List.prefix_append p [e]) (by simp)

section Run

variable {arg : Arg} {es : List ClientEvent} (hbuf : arg.maxBufSize < 2 ^ 32)
  (hes : ∀ e ∈ es, e.Ok arg) (hrun : Handled es)

include hbuf hes hrun

/-- **Every sequence of events**: the counters are right, and the workers were sent their
quit jobs once for every `EXIT` that made them as many as the clients. -/
theorem exists_run_tracks (sdk : Sdk) :
    ∃ app seens, run (selectStep arg sdk) (App.init arg) (es.map ClientEvent.input) =
        some (app, seens) ∧ Tracks arg es app ∧
      quitThreads seens.flatten = firedQuits arg.numThreads es := by
  induction es using List.reverseRecOn with
  | nil => exact ⟨_, _, rfl, Tracks.init arg, rfl⟩
  | append_singleton p e ih =>
    obtain ⟨app, seens, hr, htracks, hquits⟩ := ih (fun e' he' => hes e' (by simp [he']))
      (hrun.of_prefix (List.prefix_append p [e]))
    obtain ⟨app', seen, hstep, htracks', hnew⟩ := htracks.step sdk
      (hrun.closing_eq (List.prefix_refl _)) hbuf (hes e (by simp))
    refine ⟨app', seens ++ [seen], ?_, htracks', ?_⟩
    · rw [List.map_append]
      exact run_concat_eq_some_iff.mpr ⟨app, seens, seen, hr, hstep, rfl⟩
    · rw [List.flatten_append, quitThreads_append, hquits, firedQuits_concat, List.flatten_singleton,
        hnew]

end Run

/-- Sending quit jobs once for every event that fires is sending them just once, at the
event that closes the last connection, when the events that fire are those. -/
theorem quits_eq_iff {es : List ClientEvent} {n : ℕ} (hn : 0 < n) (hrun : Handled es) :
    (∀ p, p <+: es → firedQuits n p = if closing p then List.range n else []) ↔
      ∀ p, p <+: es → fires p = closing p := by
  have hrange : List.range n ≠ [] := by simp; omega
  constructor
  · intro h p hp
    induction p using List.reverseRecOn with
    | nil => rfl
    | append_singleton p e _ =>
      have hbefore := h p ((List.prefix_append p [e]).trans hp)
      have hafter := h (p ++ [e]) hp
      rw [firedQuits_concat, hbefore, hrun.closing_eq hp] at hafter
      -- quit jobs that were sent before, and once more, would be twice the list
      cases hf : fires (p ++ [e]) <;> cases hc : closing (p ++ [e]) <;> simp_all
  · intro h p hp
    induction p using List.reverseRecOn with
    | nil => rfl
    | append_singleton p e ih =>
      rw [firedQuits_concat, ih ((List.prefix_append p [e]).trans hp), hrun.closing_eq hp, h _ hp]
      simp

section Agreement

variable {arg : Arg} (sdk : Sdk) {es : List ClientEvent} (hthreads : 0 < arg.numThreads)
  (hbuf : arg.maxBufSize < 2 ^ 32) (hes : ∀ e ∈ es, e.Ok arg) (hrun : Handled es)

include hthreads hbuf hes hrun

/-- The two decisions agree if the events that fire are those that close. -/
theorem agrees_iff_fires :
    (∀ p, p <+: es → ∃ app seens,
        run (selectStep arg sdk) (App.init arg) (p.map ClientEvent.input) = some (app, seens) ∧
        Agrees arg p app seens.flatten) ↔ ∀ p, p <+: es → fires p = closing p := by
  rw [← quits_eq_iff hthreads hrun]
  refine forall_congr' fun p => imp_congr_right fun hp => ?_
  obtain ⟨app, seens, hr, htracks, hquits⟩ := exists_run_tracks hbuf
    (fun e he => hes e (hp.subset he)) (hrun.of_prefix hp) sdk
  rw [← hquits]
  constructor
  · rintro ⟨app', seens', hr', h⟩
    rw [hr, Option.some.injEq, Prod.mk.injEq] at hr'
    obtain ⟨rfl, rfl⟩ := hr'
    exact h.quits
  · intro h
    refine ⟨app, seens, hr, htracks.conns, h, ?_⟩
    rw [htracks.place]
    cases closing p <;> simp

end Agreement

/-- What it takes for an `EXIT` to fire just when it closes. -/
theorem fires_eq_closing_iff {p : List ClientEvent} : fires p = closing p ↔
    (endsInExit p = true → ((exits p : ℤ) = peak p ↔ conns p = 0)) := by
  unfold fires closing
  cases endsInExit p <;> simp

/-- **When the two decisions agree.**  The quit jobs are sent to all workers, once, at the
`EXIT` that closes the last connection and at no other event, just when at every `EXIT`
the `EXIT`s so far are as many as the connections at their peak exactly if no connection
is open any more. -/
theorem shutdown_agrees_iff (arg : Arg) (sdk : Sdk) (es : List ClientEvent)
    (hthreads : 0 < arg.numThreads) (hbuf : arg.maxBufSize < 2 ^ 32)
    (hes : ∀ e ∈ es, e.Ok arg) (hrun : Handled es) :
    (∀ p, p <+: es → ∃ app seens,
        run (selectStep arg sdk) (App.init arg) (p.map ClientEvent.input) = some (app, seens) ∧
        Agrees arg p app seens.flatten) ↔
      ∀ p, p <+: es → endsInExit p = true → ((exits p : ℤ) = peak p ↔ conns p = 0) := by
  rw [agrees_iff_fires sdk hthreads hbuf hes hrun]
  exact forall_congr' fun p => imp_congr_right fun _ => fires_eq_closing_iff

/-- Two clients connect, one after the other has sent a request, and both exit. -/
theorem shutdown_agrees_iff_two :
    Handled [.accept, .request 4 ⟨.get [0x6b], false, 0⟩, .accept, .exit 4 [], .exit 5 []] ∧
    ∀ p, p <+: [ClientEvent.accept, .request 4 ⟨.get [0x6b], false, 0⟩, .accept, .exit 4 [],
        .exit 5 []] → ∃ app seens,
      run (selectStep ⟨2, 32, 2, 2, false, false⟩ Sdk.aes) (App.init ⟨2, 32, 2, 2, false, false⟩)
          (p.map ClientEvent.input) = some (app, seens) ∧
        Agrees ⟨2, 32, 2, 2, false, false⟩ p app seens.flatten := by
  refine ⟨by decide,
    (shutdown_agrees_iff _ Sdk.aes _ (by decide) (by decide) (by decide) (by decide)).mpr ?_⟩
  have hexits : ∀ p ∈ [ClientEvent.accept, .request 4 ⟨.get [0x6b], false, 0⟩, .accept, .exit 4 [],
      .exit 5 []].inits, endsInExit p = true → ((exits p : ℤ) = peak p ↔ conns p = 0) := by
    decide
  exact fun p hp => hexits p ((List.mem_inits _ _).mpr hp)

/-- **The two decisions can differ** both ways.  Two clients that load at the same time
count as clients when one client runs after them: `main` leaves its loop with no quit job
sent.  And when a client connects after another has left, the quit jobs are sent while it
is still connected. -/
theorem shutdown_differs :
    (run (selectStep ⟨1, 32, 1, 1, false, false⟩ Sdk.aes) (App.init ⟨1, 32, 1, 1, false, false⟩)
        ([ClientEvent.accept, .accept, .loadDone 4, .loadDone 5, .accept, .exit 4 []].map
          ClientEvent.input)).map
      (fun r => (r.1.place, r.1.numConnection, quitThreads r.2.flatten)) = some (.left, 0, []) ∧
    (run (selectStep ⟨1, 32, 1, 1, false, false⟩ Sdk.aes) (App.init ⟨1, 32, 1, 1, false, false⟩)
        ([ClientEvent.accept, .accept, .exit 4 [], .accept, .exit 5 []].map
          ClientEvent.input)).map
      (fun r => (r.1.place, r.1.numConnection, quitThreads r.2.flatten)) =
        some (.select, 1, [0]) := by
  decide +kernel

/-- Among clients that do not load, and all connect before one of them exits, the peak
is the number of clients. -/
theorem conns_eq_of_no_load {es : List ClientEvent} (hload : ∀ e ∈ es, e.isLoadDone = false)
    (hlate : ∀ p, p ++ [.accept] <+: es → exits p = 0) :
    ∀ p, p <+: es → conns p = peak p - exits p := by
  intro p hp
  induction p using List.reverseRecOn with
  | nil => rfl
  | append_singleton p e ih =>
    have hp' := ih ((List.prefix_append p [e]).trans hp)
    have he := hload e (hp.subset (by simp))
    cases e with
    | accept =>
      -- nobody has left yet, so that the peak is reached anew
      have := hlate p hp
      rw [peak_concat, conns_concat, exits_concat]
      simp only [ClientEvent.isAccept, ClientEvent.isLoadDone, ClientEvent.isExit,
        Bool.toNat_true, Bool.toNat_false]
      omega
    | loadDone sock => exact absurd he (by simp [ClientEvent.isLoadDone])
    | request sock req =>
      rw [peak_concat_of_isAccept rfl, conns_concat, exits_concat, hp']
      simp [ClientEvent.isAccept, ClientEvent.isLoadDone, ClientEvent.isExit]
    | exit sock rest =>
      rw [peak_concat_of_isAccept rfl, conns_concat, exits_concat, hp']
      simp [ClientEvent.isAccept, ClientEvent.isLoadDone, ClientEvent.isExit]
      omega

/-- **Plain sessions shut down.**  With clients that do not load, and all connect before
one of them exits, every worker is sent its quit job when the last client exits. -/
theorem agrees_of_no_load {arg : Arg} (sdk : Sdk) {es : List ClientEvent}
    (hthreads : 0 < arg.numThreads) (hbuf : arg.maxBufSize < 2 ^ 32) (hes : ∀ e ∈ es, e.Ok arg)
    (hrun : Handled es) (hload : ∀ e ∈ es, e.isLoadDone = false)
    (hlate : ∀ p, p ++ [.accept] <+: es → exits p = 0) :
    ∀ p, p <+: es → ∃ app seens,
      run (selectStep arg sdk) (App.init arg) (p.map ClientEvent.input) = some (app, seens) ∧
      Agrees arg p app seens.flatten := by
  refine (agrees_iff_fires sdk hthreads hbuf hes hrun).mpr fun p hp => ?_
  refine fires_eq_closing_iff.mpr fun _ => ?_
  have hconns := conns_eq_of_no_load hload hlate p hp
  omega

end ShieldStore
