import ShieldStore.Lib.Sections

/-!
# Calls into the enclave

`Common/hot_calls.h`: a thread outside of the enclave has a function run inside without
entering it.  It writes the call into a `HotCall` that both sides share, under a spin
lock, and waits; the responder inside polls the `HotCall`, runs the function and says
that it is done.

The points of the threads are the lines of the header at which they touch the `HotCall`,
so that any two threads may move between any two accesses.  Any number of threads may
make calls, one after the other each.

## Main definitions

* `Requester`, `Responder`, `Stopper` — `HotCall_requestCall`, `HotCall_waitForCall` and
  `StopResponder`, line by line.
* `hotCalls` — all of them at work on one `HotCall`.
* `syncStep` — calls as they should be: a call that is made is run once, by a responder
  that runs one at a time, and returns behind that; or it is given up and not run.

## Main results

* `HotInv.step` — one step, or one critical section.
* `hotCalls_sync` — every run is one of such calls.
* `hotCalls_returns` — the calls under way can return.
-/

namespace ShieldStore

open Sections Function Run

variable {δ : Type}

/-! ### The three functions -/

/-- `HotCall`, without the lock. -/
structure HotCall (δ : Type) where
  data : δ
  callID : ℕ
  keepPolling : Bool
  runFunction : Bool
  isDone : Bool
  busy : Bool
  deriving DecidableEq

/-- `HOTCALL_INITIALIZER`. -/
def HotCall.init (null : δ) : HotCall δ := ⟨null, 0, true, false, false, false⟩

/-- `MAX_RETRIES`. -/
def maxRetries : ℕ := 10

/-- Where a thread is in `HotCall_requestCall`. -/
inductive RequestPoint
  | spin
  | testBusy
  | setBusy
  | setIsDone
  | setRunFunction
  | setCallID
  | setData
  | unlockTaken
  | unlockBusy
  | spinAgain
  | testIsDone
  | clearBusy
  | unlockDone
  | unlockWaiting
  deriving DecidableEq

/-- A thread in `HotCall_requestCall(hotCall, callID, data)`. -/
structure Requester (δ : Type) where
  callID : ℕ
  data : δ
  numRetries : ℕ
  point : RequestPoint
  deriving DecidableEq

namespace Requester

/-- The thread goes on to another line. -/
def goto (r : Requester δ) (point : RequestPoint) : Requester δ := { r with point }

def mode {κ : Type} (k : κ) (r : Requester δ) : Mode κ :=
  match r.point with
  | .spin | .spinAgain => .enter k
  | .unlockTaken | .unlockBusy | .unlockDone | .unlockWaiting => .leave k
  | _ => .inside k

def entered (r : Requester δ) : Requester δ :=
  match r.point with
  | .spin => r.goto .testBusy
  | _ => r.goto .testIsDone

def inner (r : Requester δ) (hotCall : HotCall δ) : Requester δ × HotCall δ :=
  match r.point with
  | .testBusy => if hotCall.busy = false then (r.goto .setBusy, hotCall) else (r.goto .unlockBusy, hotCall)
  | .setBusy => (r.goto .setIsDone, { hotCall with busy := true })
  | .setIsDone => (r.goto .setRunFunction, { hotCall with isDone := false })
  | .setRunFunction => (r.goto .setCallID, { hotCall with runFunction := true })
  | .setCallID => (r.goto .setData, { hotCall with callID := r.callID })
  | .setData => (r.goto .unlockTaken, { hotCall with data := r.data })
  | .testIsDone =>
      if hotCall.isDone = true then (r.goto .clearBusy, hotCall) else (r.goto .unlockWaiting, hotCall)
  | .clearBusy => (r.goto .unlockDone, { hotCall with busy := false })
  | _ => (r, hotCall)

/-- Behind a section the thread goes on, or the call returns. -/
def left (r : Requester δ) : Requester δ ⊕ ℤ :=
  match r.point with
  | .unlockBusy =>
      if r.numRetries + 1 > maxRetries then .inr (-1)
      else .inl { r with numRetries := r.numRetries + 1, point := .spin }
  | .unlockDone => .inr r.numRetries
  | _ => .inl (r.goto .spinAgain)

variable {κ : Type} {k k' : κ}

theorem within_entered {r : Requester δ} (h : r.mode k = .enter k') : (r.entered.mode k).Within k' := by
  obtain ⟨callID, data, numRetries, point⟩ := r
  cases point <;> cases h <;> rfl

theorem within_inner {r : Requester δ} (h : r.mode k = .inside k') (hotCall : HotCall δ) :
    ((r.inner hotCall).1.mode k).Within k' := by
  obtain ⟨callID, data, numRetries, point⟩ := r
  cases point <;> cases h <;> first
    | rfl
    | (simp only [inner]; split <;> rfl)

theorem mode_left {r r' : Requester δ} (h : r.left = .inl r') : r'.mode k = .enter k := by
  obtain ⟨callID, data, numRetries, point⟩ := r
  cases point with
  | unlockDone => cases h
  | unlockBusy =>
    simp only [left] at h
    split at h <;> cases h
    rfl
  | _ => cases h; rfl

end Requester

/-- Where the responder is in `HotCall_waitForCall`. -/
inductive Responder (δ : Type)
  | spin
  | testKeepPolling
  | testRunFunction
  | readCallID
  | readData (callID : ℕ)
  | unlockCall (callID : ℕ) (data : δ)
  /-- Behind the lock, where the callback is looked up. -/
  | call (callID : ℕ) (data : δ)
  | spinDone
  | setIsDone
  | clearRunFunction
  | unlock
  | unlockStop
  /-- It has returned. -/
  | left
  deriving DecidableEq

namespace Responder

def mode {κ : Type} (k : κ) : Responder δ → Mode κ
  | .spin | .spinDone => .enter k
  | .unlockCall _ _ | .unlock | .unlockStop => .leave k
  | .call _ _ | .left => .outside
  | _ => .inside k

def entered : Responder δ → Responder δ
  | .spin => .testKeepPolling
  | _ => .setIsDone

def inner : Responder δ → HotCall δ → Responder δ × HotCall δ
  | .testKeepPolling, hotCall =>
      (if hotCall.keepPolling = true then .testRunFunction else .unlockStop, hotCall)
  | .testRunFunction, hotCall => (if hotCall.runFunction = true then .readCallID else .unlock, hotCall)
  | .readCallID, hotCall => (.readData hotCall.callID, hotCall)
  | .readData callID, hotCall => (.unlockCall callID hotCall.data, hotCall)
  | .setIsDone, hotCall => (.clearRunFunction, { hotCall with isDone := true })
  | .clearRunFunction, hotCall => (.unlock, { hotCall with runFunction := false })
  | p, hotCall => (p, hotCall)

/-- Behind a section. -/
def next : Responder δ → Responder δ
  | .unlockCall callID data => .call callID data
  | .unlockStop => .left
  | _ => .spin

variable {κ : Type} {k k' : κ}

theorem within_entered {p : Responder δ} (h : p.mode k = .enter k') : (p.entered.mode k).Within k' := by
  cases p <;> cases h <;> rfl

theorem within_inner {p : Responder δ} (h : p.mode k = .inside k') (hotCall : HotCall δ) :
    ((p.inner hotCall).1.mode k).Within k' := by
  cases p <;> cases h <;> first
    | rfl
    | (simp only [inner]; split <;> rfl)

theorem out_next {p : Responder δ} : (p.next.mode k).Out := by
  cases p <;> trivial

end Responder

/-- Where a thread is in `StopResponder`. -/
inductive Stopper
  | spin
  | clearKeepPolling
  | unlock
  | returned
  deriving DecidableEq

namespace Stopper

def mode {κ : Type} (k : κ) : Stopper → Mode κ
  | .spin => .enter k
  | .clearKeepPolling => .inside k
  | .unlock => .leave k
  | .returned => .outside

def inner : Stopper → HotCall δ → Stopper × HotCall δ
  | .clearKeepPolling, hotCall => (.unlock, { hotCall with keepPolling := false })
  | p, hotCall => (p, hotCall)

theorem within_inner {κ : Type} {k k' : κ} {p : Stopper} (h : p.mode k = .inside k') (hotCall : HotCall δ) :
    ((p.inner hotCall).1.mode k).Within k' := by
  cases p <;> cases h
  rfl

end Stopper

/-! ### All threads -/

/-- The threads. -/
inductive Party
  | responder
  | stopper
  | requester (t : ℕ)
  deriving DecidableEq

/-- Where a thread is. -/
inductive HotPoint (δ : Type)
  /-- A requester that makes no call. -/
  | idle (t : ℕ)
  | request (t : ℕ) (r : Requester δ)
  | respond (p : Responder δ)
  /-- The responder is in `callbacks[callID](data)`. -/
  | running (callID : ℕ) (data : δ)
  | stop (p : Stopper)
  deriving DecidableEq

/-- What can be seen. -/
inductive HotEvent (δ : Type)
  /-- A requester makes a call. -/
  | start (t : ℕ) (callID : ℕ) (data : δ)
  | callback (callID : ℕ) (data : δ)
  | callbackDone (callID : ℕ) (data : δ)
  /-- The call returns to the requester. -/
  | returned (t : ℕ) (result : ℤ)
  deriving DecidableEq

namespace HotPoint

def mode : HotPoint δ → Mode Unit
  | .idle _ | .running _ _ => .outside
  | .request _ r => r.mode ()
  | .respond p => p.mode ()
  | .stop p => p.mode ()

def entered : HotPoint δ → HotPoint δ
  | .request t r => .request t r.entered
  | .respond p => .respond p.entered
  | .stop _ => .stop .clearKeepPolling
  | p => p

def inner : HotPoint δ → HotCall δ → HotPoint δ × HotCall δ
  | .request t r, hotCall => (.request t (r.inner hotCall).1, (r.inner hotCall).2)
  | .respond p, hotCall => (.respond (p.inner hotCall).1, (p.inner hotCall).2)
  | .stop p, hotCall => (.stop (p.inner hotCall).1, (p.inner hotCall).2)
  | p, hotCall => (p, hotCall)

def left : HotPoint δ → HotPoint δ × List (HotEvent δ)
  | .request t r =>
      match r.left with
      | .inl r => (.request t r, [])
      | .inr result => (.idle t, [.returned t result])
  | .respond p => (.respond p.next, [])
  | .stop _ => (.stop .returned, [])
  | p => (p, [])

/-- A step outside of the critical sections.  `call` is the call that a requester makes
next, if it makes one; the table has `numEntries` callbacks. -/
def outer (numEntries : ℕ) (call : Option (ℕ × δ)) : HotPoint δ → HotPoint δ × List (HotEvent δ)
  | .idle t =>
      match call with
      | some (callID, data) => (.request t ⟨callID, data, 0, .spin⟩, [.start t callID data])
      | none => (.idle t, [])
  | .respond (.call callID data) =>
      if callID < numEntries then (.running callID data, [.callback callID data])
      else (.respond .spinDone, [])
  | .running callID data => (.respond .spinDone, [.callbackDone callID data])
  | p => (p, [])

end HotPoint

/-- Requesters, the responder and a thread that stops it, at work on one `HotCall`. -/
def hotCalls (numEntries : ℕ) :
    Prog Unit Party (Option (ℕ × δ)) (HotEvent δ) Unit (HotPoint δ) fun _ => HotCall δ where
  mode := HotPoint.mode
  admits := fun _ _ _ _ => true
  entered := HotPoint.entered
  inner := fun _ p hotCall => some (p.inner hotCall)
  left := fun _ p _ => some (p.left.1, (), p.left.2)
  outer := fun _ p _ call => some ((p.outer numEntries call).1, (), (p.outer numEntries call).2)
  within_entered := by
    intro _ p hmode
    cases p with
    | request t r => exact Requester.within_entered hmode
    | respond p => exact Responder.within_entered hmode
    | stop p => cases p <;> cases hmode; rfl
    | _ => cases hmode
  within_inner := by
    rintro _ p hotCall _ hmode ⟨⟩
    cases p with
    | request t r => exact Requester.within_inner hmode hotCall
    | respond p => exact Responder.within_inner hmode hotCall
    | stop p => exact Stopper.within_inner hmode hotCall
    | _ => cases hmode
  out_left := by
    rintro _ p _ _ _ hmode ⟨⟩
    cases p with
    | request t r =>
      simp only [HotPoint.left]
      split
      · next r' hleft =>
        simp only [HotPoint.mode, Requester.mode_left hleft]
        trivial
      · trivial
    | respond p => exact Responder.out_next
    | stop p => trivial
    | _ => cases hmode
  out_outer := by
    rintro _ p _ call _ hmode ⟨⟩
    cases p with
    | request t r =>
      obtain ⟨callID, data, numRetries, point⟩ := r
      cases point <;> cases hmode
    | respond p =>
      cases p with
      | call callID data =>
        simp only [HotPoint.outer]
        split <;> trivial
      | left => trivial
      | _ => cases hmode
    | stop p => cases p <;> trivial
    | idle t => cases call <;> trivial
    | running callID data => trivial

/-- No call was made yet. -/
def hotInit (null : δ) : Conf Unit Party Unit (HotPoint δ) fun _ => HotCall δ where
  shared := fun _ => HotCall.init null
  env := ()
  loc
    | .responder => .respond .spin
    | .stopper => .stop .spin
    | .requester t => .idle t

/-! ### Calls as they should be -/

/-- A call as its requester sees it. -/
inductive CallState (δ : Type)
  | idle
  | started (callID : ℕ) (data : δ)
  | running (callID : ℕ) (data : δ)
  | served (callID : ℕ) (data : δ)
  deriving DecidableEq

/-- The calls of all requesters, and whose call the responder runs. -/
structure Sync (δ : Type) where
  who : ℕ → CallState δ
  current : Option ℕ

/-- No call was made yet. -/
def Sync.init : Sync δ := ⟨fun _ => .idle, none⟩

/-- A requester whose call the responder does not run goes on. -/
def Sync.set (sync : Sync δ) (t : ℕ) (state : CallState δ) : Sync δ :=
  { sync with who := update sync.who t state }

/-- A call may return `result` in a state.  It is given up before it is run, or it was
run; if there is no callback for it, it returns as if it had been run. -/
def CallState.returns (numEntries : ℕ) (result : ℤ) : CallState δ → Prop
  | .started callID _ => result = -1 ∨ numEntries ≤ callID ∧ 0 ≤ result ∧ result ≤ maxRetries
  | .served _ _ => 0 ≤ result ∧ result ≤ maxRetries
  | _ => False

instance (numEntries : ℕ) (result : ℤ) (state : CallState δ) :
    Decidable (state.returns numEntries result) := by
  cases state <;> unfold CallState.returns <;> infer_instance

/-- An event, of the call of requester `t`. -/
def syncStep [DecidableEq δ] (numEntries : ℕ) (sync : Sync δ) (t : ℕ) : HotEvent δ → Option (Sync δ)
  | .start t' callID data =>
      if t' = t ∧ sync.who t = .idle then some (sync.set t (.started callID data)) else none
  | .callback callID data =>
      if sync.who t = .started callID data ∧ callID < numEntries ∧ sync.current = none then
        some ⟨update sync.who t (.running callID data), some t⟩
      else none
  | .callbackDone callID data =>
      if sync.who t = .running callID data ∧ sync.current = some t then
        some ⟨update sync.who t (.served callID data), none⟩
      else none
  | .returned t' result =>
      if t' = t ∧ (sync.who t).returns numEntries result then some (sync.set t .idle) else none

/-- The events, each with the requester whose call it is of, one after the other. -/
def syncRun [DecidableEq δ] (numEntries : ℕ) (log : List (ℕ × HotEvent δ)) : Option (Sync δ) :=
  log.foldlM (fun sync e => syncStep numEntries sync e.1 e.2) .init

/-! ### The critical sections -/

section Sections

variable {numEntries : ℕ} {hotCall : HotCall δ} {b : HotPoint δ × HotCall δ}

/-- The `HotCall` that holds a call. -/
def Requester.take (r : Requester δ) (hotCall : HotCall δ) : HotCall δ :=
  ⟨r.data, r.callID, hotCall.keepPolling, true, false, true⟩

theorem section_request {t : ℕ} {r : Requester δ} (hpoint : r.point = .spin)
    (h : (hotCalls numEntries).Section () ((HotPoint.request t r).entered, hotCall) b) :
    hotCall.busy = true ∧ b = (.request t (r.goto .unlockBusy), hotCall) ∨
      hotCall.busy = false ∧ b = (.request t (r.goto .unlockTaken), r.take hotCall) := by
  obtain ⟨callID, data, numRetries, point⟩ := r
  obtain rfl : point = .spin := hpoint
  obtain ⟨data', callID', keepPolling, runFunction, isDone, busy⟩ := hotCall
  cases busy
  · refine .inr ⟨rfl, h.unique ?_⟩
    exact .inside rfl rfl (.inside rfl rfl (.inside rfl rfl (.inside rfl rfl (.inside rfl rfl
      (.inside rfl rfl (.leave rfl))))))
  · exact .inl ⟨rfl, h.unique (.inside rfl rfl (.leave rfl))⟩

theorem section_await {t : ℕ} {r : Requester δ} (hpoint : r.point = .spinAgain)
    (h : (hotCalls numEntries).Section () ((HotPoint.request t r).entered, hotCall) b) :
    hotCall.isDone = true ∧ b = (.request t (r.goto .unlockDone), { hotCall with busy := false }) ∨
      hotCall.isDone = false ∧ b = (.request t (r.goto .unlockWaiting), hotCall) := by
  obtain ⟨callID, data, numRetries, point⟩ := r
  obtain rfl : point = .spinAgain := hpoint
  obtain ⟨data', callID', keepPolling, runFunction, isDone, busy⟩ := hotCall
  cases isDone
  · exact .inr ⟨rfl, h.unique (.inside rfl rfl (.leave rfl))⟩
  · exact .inl ⟨rfl, h.unique (.inside rfl rfl (.inside rfl rfl (.leave rfl)))⟩

theorem section_poll
    (h : (hotCalls numEntries).Section () ((HotPoint.respond .spin).entered, hotCall) b) :
    b.2 = hotCall ∧ (hotCall.keepPolling = false ∧ b.1 = .respond .unlockStop ∨ hotCall.runFunction = false ∧ b.1 = .respond .unlock ∨
      hotCall.runFunction = true ∧ b.1 = .respond (.unlockCall hotCall.callID hotCall.data)) := by
  obtain ⟨data, callID, keepPolling, runFunction, isDone, busy⟩ := hotCall
  cases keepPolling
  · obtain rfl := h.unique (.inside rfl rfl (.leave rfl))
    exact ⟨rfl, .inl ⟨rfl, rfl⟩⟩
  cases runFunction
  · obtain rfl := h.unique (.inside rfl rfl (.inside rfl rfl (.leave rfl)))
    exact ⟨rfl, .inr (.inl ⟨rfl, rfl⟩)⟩
  · obtain rfl := h.unique (.inside rfl rfl (.inside rfl rfl (.inside rfl rfl (.inside rfl rfl
      (.leave rfl)))))
    exact ⟨rfl, .inr (.inr ⟨rfl, rfl⟩)⟩

theorem section_done
    (h : (hotCalls numEntries).Section () ((HotPoint.respond .spinDone).entered, hotCall) b) :
    b = (.respond .unlock, { hotCall with isDone := true, runFunction := false }) :=
  h.unique (.inside rfl rfl (.inside rfl rfl (.leave rfl)))

theorem section_stop
    (h : (hotCalls numEntries).Section () ((HotPoint.stop .spin).entered, hotCall) b) :
    b = (.stop .unlock, { hotCall with keepPolling := false }) :=
  h.unique (.inside rfl rfl (.leave rfl))

end Sections

/-! ### What holds between the sections -/

/-- The responder is not at work on a call. -/
def Polls (p : HotPoint δ) : Prop := p = .respond .spin ∨ p = .respond .left

/-- The call `callID` with `data` of requester `t` is the one in the `HotCall`: it waits
for the responder, or it is run, or it is over. -/
inductive Stage (numEntries : ℕ) (hotCall : HotCall δ) (p : HotPoint δ) (sync : Sync δ) (t : ℕ) : Prop
  | waits (hrun : hotCall.runFunction = true) (hdone : hotCall.isDone = false)
      (hcurrent : sync.current = none)
      (hwho : sync.who t = .started hotCall.callID hotCall.data)
      (hp : Polls p ∨ p = .respond (.call hotCall.callID hotCall.data))
  | runs (hrun : hotCall.runFunction = true) (hdone : hotCall.isDone = false)
      (hcurrent : sync.current = some t)
      (hwho : sync.who t = .running hotCall.callID hotCall.data)
      (hp : p = .running hotCall.callID hotCall.data)
  | ran (hrun : hotCall.runFunction = true) (hdone : hotCall.isDone = false)
      (hcurrent : sync.current = none) (hwho : (sync.who t).returns numEntries 0)
      (hp : p = .respond .spinDone)
  | finished (hrun : hotCall.runFunction = false) (hdone : hotCall.isDone = true)
      (hcurrent : sync.current = none) (hwho : (sync.who t).returns numEntries 0)
      (hp : Polls p)

/-- Where a requester may be. -/
inductive Asks (hotCall : HotCall δ) (sync : Sync δ) (t : ℕ) : HotPoint δ → Prop
  | idle (hwho : sync.who t = .idle) : Asks hotCall sync t (.idle t)
  | spin {r : Requester δ} (hpoint : r.point = .spin) (hretries : r.numRetries ≤ maxRetries)
      (hwho : sync.who t = .started r.callID r.data) : Asks hotCall sync t (.request t r)
  | awaits {r : Requester δ} (hpoint : r.point = .spinAgain) (hretries : r.numRetries ≤ maxRetries)
      (hbusy : hotCall.busy = true) : Asks hotCall sync t (.request t r)

/-- The requester waits for its call. -/
def Awaits (p : HotPoint δ) : Prop := ∃ t r, p = .request t r ∧ r.point = .spinAgain

/-- The invariant. -/
structure HotInv (numEntries : ℕ) (c : Conf Unit Party Unit (HotPoint δ) fun _ => HotCall δ)
    (sync : Sync δ) : Prop where
  asks : ∀ t, Asks (c.shared ()) sync t (c.loc (.requester t))
  unique : ∀ t t', Awaits (c.loc (.requester t)) → Awaits (c.loc (.requester t')) → t = t'
  free : (c.shared ()).busy = false →
    (c.shared ()).runFunction = false ∧ sync.current = none ∧ Polls (c.loc .responder)
  busy : (c.shared ()).busy = true → ∃ t, Awaits (c.loc (.requester t)) ∧
    Stage numEntries (c.shared ()) (c.loc .responder) sync t
  stopper : c.loc .stopper = .stop .spin ∧ (c.shared ()).keepPolling = true ∨
    c.loc .stopper = .stop .returned
  stopped : c.loc .responder = .respond .left → (c.shared ()).keepPolling = false

theorem HotInv.init (numEntries : ℕ) (null : δ) : HotInv numEntries (hotInit null) .init where
  asks := fun t => .idle rfl
  unique := by
    rintro t t' ⟨_, _, hp, -⟩
    cases hp
  free := fun _ => ⟨rfl, rfl, .inl rfl⟩
  busy := by
    intro hbusy
    cases hbusy
  stopper := .inl ⟨rfl, rfl⟩
  stopped := by
    intro hp
    cases hp

section Frame

variable {numEntries t : ℕ} {hotCall hotCall' : HotCall δ} {sync sync' : Sync δ} {p : HotPoint δ}

/-- A requester does not see what the others do, but that the `HotCall` is free. -/
theorem Asks.frame (h : Asks hotCall sync t p) (hwho : sync'.who t = sync.who t)
    (hbusy : Awaits p → hotCall.busy = true → hotCall'.busy = true) : Asks hotCall' sync' t p := by
  cases h with
  | idle h => exact .idle (hwho.trans h)
  | spin hpoint hretries h => exact .spin hpoint hretries (hwho.trans h)
  | awaits hpoint hretries h => exact .awaits hpoint hretries (hbusy ⟨t, _, rfl, hpoint⟩ h)

/-- The call in the `HotCall` does not see what the other requesters do. -/
theorem Stage.frame (h : Stage numEntries hotCall p sync t) (hwho : sync'.who t = sync.who t)
    (hcurrent : sync'.current = sync.current) : Stage numEntries hotCall p sync' t := by
  cases h with
  | waits h₁ h₂ h₃ h₄ h₅ => exact .waits h₁ h₂ (hcurrent.trans h₃) (hwho.trans h₄) h₅
  | runs h₁ h₂ h₃ h₄ h₅ => exact .runs h₁ h₂ (hcurrent.trans h₃) (hwho.trans h₄) h₅
  | ran h₁ h₂ h₃ h₄ h₅ => exact .ran h₁ h₂ (hcurrent.trans h₃) (hwho ▸ h₄) h₅
  | finished h₁ h₂ h₃ h₄ h₅ => exact .finished h₁ h₂ (hcurrent.trans h₃) (hwho ▸ h₄) h₅

theorem not_awaits_of_spin {r : Requester δ} (h : r.point = .spin) : ¬ Awaits (.request t r) := by
  rintro ⟨_, r', hp, hpoint⟩
  cases hp
  rw [h] at hpoint
  cases hpoint

theorem not_awaits_idle : ¬ Awaits (.idle t : HotPoint δ) := by
  rintro ⟨_, _, hp, -⟩
  cases hp

theorem not_polls_call {callID : ℕ} {data : δ} : ¬ Polls (.respond (.call callID data)) := by
  rintro (h | h) <;> cases h

theorem not_polls_running {callID : ℕ} {data : δ} : ¬ Polls (.running callID data) := by
  rintro (h | h) <;> cases h

theorem not_polls_spinDone : ¬ Polls (.respond .spinDone : HotPoint δ) := by
  rintro (h | h) <;> cases h

end Frame

section Steps

variable {numEntries : ℕ} {c : Conf Unit Party Unit (HotPoint δ) fun _ => HotCall δ} {sync : Sync δ}
  (h : HotInv numEntries c sync)

/-- A conf in which one thread has moved on. -/
def moved (c : Conf Unit Party Unit (HotPoint δ) fun _ => HotCall δ) (party : Party)
    (p : HotPoint δ) (hotCall : HotCall δ) : Conf Unit Party Unit (HotPoint δ) fun _ => HotCall δ :=
  ⟨update c.shared () hotCall, (), update c.loc party p⟩

@[simp] theorem shared_moved (party : Party) (p : HotPoint δ) (hotCall : HotCall δ) :
    (moved c party p hotCall).shared () = hotCall := by
  simp [moved]

@[simp] theorem loc_moved_self (party : Party) (p : HotPoint δ) (hotCall : HotCall δ) :
    (moved c party p hotCall).loc party = p := update_self _ _ _

theorem loc_moved_of_ne {party party' : Party} (hne : party' ≠ party) (p : HotPoint δ)
    (hotCall : HotCall δ) : (moved c party p hotCall).loc party' = c.loc party' := update_of_ne hne _ _

include h

/-- A thread that has moved on to where it was. -/
theorem HotInv.stay {party : Party} {p : HotPoint δ} (hp : c.loc party = p) :
    HotInv numEntries (moved c party p (c.shared ())) sync := by
  have hsame : moved c party p (c.shared ()) = c := by
    rw [← hp]
    simp [moved]
  rw [hsame]
  exact h

/-- A requester that has no call in the `HotCall` goes on and still has none. -/
theorem HotInv.requester {t : ℕ} {p : HotPoint δ} {state : CallState δ}
    (hnot : ¬ Awaits (c.loc (.requester t))) (hp : Asks (c.shared ()) (sync.set t state) t p)
    (hpnot : ¬ Awaits p) :
    HotInv numEntries (moved c (.requester t) p (c.shared ())) (sync.set t state) := by
  have hloc : ∀ {t'}, t' ≠ t → (moved c (.requester t) p (c.shared ())).loc (.requester t') =
      c.loc (.requester t') := fun hne => loc_moved_of_ne (by simpa using hne) _ _
  have hresponder : (moved c (.requester t) p (c.shared ())).loc .responder = c.loc .responder :=
    loc_moved_of_ne (by simp) _ _
  constructor
  · intro t'
    rcases eq_or_ne t' t with rfl | hne
    · simpa using hp
    · rw [hloc hne, shared_moved]
      exact (h.asks t').frame (update_of_ne hne _ _) fun _ hbusy => hbusy
  · intro t₁ t₂ h₁ h₂
    have hne₁ : t₁ ≠ t := by
      rintro rfl
      exact hpnot (by simpa using h₁)
    have hne₂ : t₂ ≠ t := by
      rintro rfl
      exact hpnot (by simpa using h₂)
    rw [hloc hne₁] at h₁
    rw [hloc hne₂] at h₂
    exact h.unique t₁ t₂ h₁ h₂
  · rw [shared_moved, hresponder]
    exact h.free
  · rw [shared_moved, hresponder]
    intro hbusy
    obtain ⟨t', hawaits, hstage⟩ := h.busy hbusy
    -- the one whose call it is waits, and this one does not
    have hne : t' ≠ t := by
      rintro rfl
      exact hnot hawaits
    exact ⟨t', by rwa [hloc hne], hstage.frame (update_of_ne hne _ _) rfl⟩
  · rw [loc_moved_of_ne (by simp), shared_moved]
    exact h.stopper
  · rw [hresponder, shared_moved]
    exact h.stopped

/-- The responder, or the call in the `HotCall`, goes on. -/
theorem HotInv.responder {p : HotPoint δ} {hotCall : HotCall δ} {sync' : Sync δ}
    (hbusy : hotCall.busy = (c.shared ()).busy)
    (hpolling : hotCall.keepPolling = (c.shared ()).keepPolling)
    (hstopped : p = .respond .left → hotCall.keepPolling = false)
    (hfree : hotCall.busy = false → hotCall.runFunction = false ∧ sync'.current = none ∧ Polls p)
    (hwho : ∀ t, ¬ Awaits (c.loc (.requester t)) → sync'.who t = sync.who t)
    (hstage : ∀ t, Awaits (c.loc (.requester t)) →
      Stage numEntries (c.shared ()) (c.loc .responder) sync t → Stage numEntries hotCall p sync' t) :
    HotInv numEntries (moved c .responder p hotCall) sync' := by
  have hloc : ∀ t, (moved c .responder p hotCall).loc (.requester t) = c.loc (.requester t) :=
    fun t => loc_moved_of_ne (by simp) _ _
  constructor
  · intro t
    rw [hloc, shared_moved]
    by_cases hawaits : Awaits (c.loc (.requester t))
    · -- a requester that waits does not look at its call
      obtain ⟨t', r, hr, hpoint⟩ := hawaits
      have hasks := h.asks t
      rw [hr] at hasks ⊢
      cases hasks with
      | spin hspin => rw [hspin] at hpoint; cases hpoint
      | awaits hpoint hretries hb => exact .awaits hpoint hretries (hbusy.trans hb)
    · exact (h.asks t).frame (hwho t hawaits) fun _ hb => hbusy.trans hb
  · intro t t'
    rw [hloc, hloc]
    exact h.unique t t'
  · rw [shared_moved, loc_moved_self]
    exact hfree
  · rw [shared_moved, loc_moved_self]
    intro hb
    obtain ⟨t, hawaits, hst⟩ := h.busy (hbusy.symm.trans hb)
    exact ⟨t, by rwa [hloc], hstage t hawaits hst⟩
  · rw [loc_moved_of_ne (by simp), shared_moved, hpolling]
    exact h.stopper
  · rw [loc_moved_self, shared_moved]
    exact hstopped

/-- A requester writes its call into the `HotCall`. -/
theorem HotInv.take {t : ℕ} {r : Requester δ} (hloc : c.loc (.requester t) = .request t r)
    (hpoint : r.point = .spin) (hfree : (c.shared ()).busy = false) :
    HotInv numEntries
      (moved c (.requester t) (.request t (r.goto .spinAgain)) (r.take (c.shared ()))) sync := by
  have hother : ∀ {t'}, t' ≠ t → (moved c (.requester t) (.request t (r.goto .spinAgain))
      (r.take (c.shared ()))).loc (.requester t') = c.loc (.requester t') :=
    fun hne => loc_moved_of_ne (by simpa using hne) _ _
  -- nobody else waits, since the `HotCall` was free
  have hnone : ∀ t', ¬ Awaits (c.loc (.requester t')) := by
    rintro t' ⟨t₁, r₁, hr, hpoint₁⟩
    have hasks := h.asks t'
    rw [hr] at hasks
    cases hasks with
    | spin hspin => rw [hspin] at hpoint₁; cases hpoint₁
    | awaits _ _ hbusy => rw [hfree] at hbusy; cases hbusy
  obtain ⟨-, hcurrent, hpolls⟩ := h.free hfree
  have hasks := h.asks t
  rw [hloc] at hasks
  cases hasks with
  | awaits hpoint' => rw [hpoint] at hpoint'; cases hpoint'
  | spin _ hretries hwho =>
    constructor
    · intro t'
      rcases eq_or_ne t' t with rfl | hne
      · rw [loc_moved_self]
        exact .awaits rfl hretries rfl
      · rw [hother hne]
        exact (h.asks t').frame rfl fun hawaits => absurd hawaits (hnone t')
    · intro t₁ t₂ h₁ h₂
      have heq : ∀ {t'}, Awaits ((moved c (.requester t) (.request t (r.goto .spinAgain))
          (r.take (c.shared ()))).loc (.requester t')) → t' = t := by
        intro t' h'
        by_contra hne
        rw [hother hne] at h'
        exact hnone t' h'
      rw [heq h₁, heq h₂]
    · intro hbusy
      cases hbusy
    · intro _
      refine ⟨t, by rw [loc_moved_self]; exact ⟨t, _, rfl, rfl⟩, ?_⟩
      rw [shared_moved, loc_moved_of_ne (by simp)]
      exact .waits rfl rfl hcurrent hwho (.inl hpolls)
    · rw [loc_moved_of_ne (by simp), shared_moved]
      exact h.stopper
    · rw [loc_moved_of_ne (by simp), shared_moved]
      exact h.stopped

/-- The call of a requester that waits. -/
theorem HotInv.stage_of_awaits {t : ℕ} (hawaits : Awaits (c.loc (.requester t))) :
    Stage numEntries (c.shared ()) (c.loc .responder) sync t := by
  obtain ⟨t₁, r, hr, hpoint⟩ := hawaits
  have hasks := h.asks t
  rw [hr] at hasks
  cases hasks with
  | spin hspin => rw [hspin] at hpoint; cases hpoint
  | awaits _ _ hbusy =>
    obtain ⟨t', hawaits', hstage⟩ := h.busy hbusy
    obtain rfl := h.unique t t' ⟨t, r, hr, hpoint⟩ hawaits'
    exact hstage

/-- A call that is over returns. -/
theorem HotInv.finish {t : ℕ} (hawaits : Awaits (c.loc (.requester t)))
    (hdone : (c.shared ()).isDone = true) :
    HotInv numEntries (moved c (.requester t) (.idle t) { c.shared () with busy := false })
      (sync.set t .idle) := by
  have hother : ∀ {t'}, t' ≠ t → (moved c (.requester t) (.idle t)
      { c.shared () with busy := false }).loc (.requester t') = c.loc (.requester t') :=
    fun hne => loc_moved_of_ne (by simpa using hne) _ _
  -- there is one call at a time
  have hone : ∀ {t'}, t' ≠ t → ¬ Awaits (c.loc (.requester t')) :=
    fun hne hawaits' => hne (h.unique _ _ hawaits' hawaits)
  constructor
  · intro t'
    rcases eq_or_ne t' t with rfl | hne
    · rw [loc_moved_self]
      exact .idle (update_self _ _ _)
    · rw [hother hne]
      exact (h.asks t').frame (update_of_ne hne _ _) fun hawaits' => absurd hawaits' (hone hne)
  · intro t₁ t₂ h₁
    rcases eq_or_ne t₁ t with rfl | hne
    · rw [loc_moved_self] at h₁
      exact absurd h₁ not_awaits_idle
    · rw [hother hne] at h₁
      exact absurd h₁ (hone hne)
  · intro _
    rw [shared_moved, loc_moved_of_ne (by simp)]
    have hstage := h.stage_of_awaits hawaits
    -- of the stages of a call only the last has `isDone`
    cases hstage with
    | finished hrun _ hcurrent _ hp => exact ⟨hrun, hcurrent, hp⟩
    | waits _ hnot => rw [hdone] at hnot; cases hnot
    | runs _ hnot => rw [hdone] at hnot; cases hnot
    | ran _ hnot => rw [hdone] at hnot; cases hnot
  · intro hbusy
    rw [shared_moved] at hbusy
    cases hbusy
  · rw [loc_moved_of_ne (by simp), shared_moved]
    exact h.stopper
  · rw [loc_moved_of_ne (by simp), shared_moved]
    exact h.stopped

/-- The responder is stopped. -/
theorem HotInv.stop :
    HotInv numEntries (moved c .stopper (.stop .returned) { c.shared () with keepPolling := false })
      sync := by
  have hloc : ∀ {party : Party}, party ≠ .stopper → (moved c .stopper (.stop .returned)
      { c.shared () with keepPolling := false }).loc party = c.loc party :=
    fun hne => loc_moved_of_ne hne _ _
  constructor
  · intro t
    rw [hloc (by simp), shared_moved]
    exact (h.asks t).frame rfl fun _ hbusy => hbusy
  · intro t t'
    rw [hloc (by simp), hloc (by simp)]
    exact h.unique t t'
  · rw [hloc (by simp), shared_moved]
    exact h.free
  · rw [hloc (by simp), shared_moved]
    intro hbusy
    obtain ⟨t, hawaits, hstage⟩ := h.busy hbusy
    refine ⟨t, by rwa [hloc (by simp)], ?_⟩
    -- no stage of a call depends on the flag
    cases hstage with
    | waits h₁ h₂ h₃ h₄ h₅ => exact .waits h₁ h₂ h₃ h₄ h₅
    | runs h₁ h₂ h₃ h₄ h₅ => exact .runs h₁ h₂ h₃ h₄ h₅
    | ran h₁ h₂ h₃ h₄ h₅ => exact .ran h₁ h₂ h₃ h₄ h₅
    | finished h₁ h₂ h₃ h₄ h₅ => exact .finished h₁ h₂ h₃ h₄ h₅
  · exact .inr (loc_moved_self _ _ _)
  · intro _
    rw [shared_moved]

end Steps

/-- What a step can do. -/
theorem hotCalls_cases {numEntries : ℕ} {c c' : Conf Unit Party Unit (HotPoint δ) fun _ => HotCall δ}
    {m : Party × Option (ℕ × δ)} {os : List (HotEvent δ)}
    (h : (hotCalls numEntries).AtomicStep c m c' os) :
    (c.loc m.1).mode = .outside ∧ c' = moved c m.1 ((c.loc m.1).outer numEntries m.2).1 (c.shared ()) ∧
        os = ((c.loc m.1).outer numEntries m.2).2 ∨
      (c.loc m.1).mode = .enter () ∧ ∃ b : HotPoint δ × HotCall δ,
        (hotCalls numEntries).Section () ((c.loc m.1).entered, c.shared ()) b ∧
          c' = moved c m.1 b.1.left.1 b.2 ∧ os = b.1.left.2 := by
  cases h with
  | outer hmode houter =>
    cases houter
    refine .inl ⟨hmode, ?_, rfl⟩
    simp [moved]
  | whole hmode _ hsection hleft =>
    cases hleft
    exact .inr ⟨hmode, _, hsection, rfl, rfl⟩

section Step

variable [DecidableEq δ] {numEntries : ℕ}
  {c c' : Conf Unit Party Unit (HotPoint δ) fun _ => HotCall δ} {sync : Sync δ}
  {m : Party × Option (ℕ × δ)} {os : List (HotEvent δ)}

/-- The events are those of calls as they should be, and lead on to where all is as it
should be. -/
def Follows (numEntries : ℕ) (sync : Sync δ) (os : List (HotEvent δ))
    (c' : Conf Unit Party Unit (HotPoint δ) fun _ => HotCall δ) : Prop :=
  ∃ (log : List (ℕ × HotEvent δ)) (sync' : Sync δ), log.map Prod.snd = os ∧
    log.foldlM (fun sync e => syncStep numEntries sync e.1 e.2) sync = some sync' ∧
    HotInv numEntries c' sync'

theorem Follows.silent (h : HotInv numEntries c' sync) : Follows numEntries sync [] c' :=
  ⟨[], sync, rfl, rfl, h⟩

theorem Follows.event {t : ℕ} {e : HotEvent δ} {sync' : Sync δ}
    (hstep : syncStep numEntries sync t e = some sync') (h : HotInv numEntries c' sync') :
    Follows numEntries sync [e] c' :=
  ⟨[(t, e)], sync', rfl, by simp [hstep], h⟩

/-- A requester moves. -/
theorem HotInv.step_requester {t : ℕ} (h : HotInv numEntries c sync)
    (hstep : (hotCalls numEntries).AtomicStep c (.requester t, m.2) c' os) :
    Follows numEntries sync os c' := by
  have hasks := h.asks t
  generalize hloc : c.loc (.requester t) = p at hasks
  cases hasks with
  | idle hwho =>
    rcases hotCalls_cases hstep with ⟨-, rfl, rfl⟩ | ⟨hmode, -⟩
    · rw [hloc]
      rcases m.2 with _ | ⟨callID, data⟩
      · exact .silent (h.stay hloc)
      refine .event (t := t) (if_pos ⟨rfl, hwho⟩) (h.requester ?_ ?_ ?_)
      · rw [hloc]
        exact not_awaits_idle
      · exact .spin rfl (Nat.zero_le _) (update_self _ _ _)
      · exact not_awaits_of_spin rfl
    · rw [hloc] at hmode
      cases hmode
  | @spin r hpoint hretries hwho =>
    have hnot : ¬ Awaits (c.loc (.requester t)) := hloc ▸ not_awaits_of_spin hpoint
    rcases hotCalls_cases hstep with ⟨hmode, -⟩ | ⟨-, b, hsection, rfl, rfl⟩
    · rw [hloc] at hmode
      simp [HotPoint.mode, Requester.mode, hpoint] at hmode
    rw [hloc] at hsection
    rcases section_request hpoint hsection with ⟨-, rfl⟩ | ⟨hfree, rfl⟩
    · -- the `HotCall` is busy: the call is made again, or given up
      by_cases hlast : r.numRetries + 1 > maxRetries
      · have hleft : (HotPoint.request t (r.goto .unlockBusy)).left = (.idle t, [.returned t (-1)]) := by
          simp [HotPoint.left, Requester.left, Requester.goto, hlast]
        rw [hleft]
        have hreturns : (sync.who t).returns numEntries (-1) := hwho ▸ .inl rfl
        exact .event (t := t) (if_pos ⟨rfl, hreturns⟩)
          (h.requester hnot (.idle (update_self _ _ _)) not_awaits_idle)
      · have hleft : (HotPoint.request t (r.goto .unlockBusy)).left =
            (.request t ⟨r.callID, r.data, r.numRetries + 1, .spin⟩, []) := by
          simp [HotPoint.left, Requester.left, Requester.goto, hlast]
        rw [hleft]
        have hsame : sync.set t (.started r.callID r.data) = sync := by
          rw [← hwho, Sync.set, update_eq_self]
        refine .silent (hsame ▸ h.requester hnot ?_ (not_awaits_of_spin rfl))
        exact .spin rfl (Nat.le_of_not_lt hlast) (update_self _ _ _)
    · exact .silent (h.take (r := r) hloc hpoint hfree)
  | @awaits r hpoint hretries hbusy =>
    have hawaits : Awaits (c.loc (.requester t)) := ⟨t, r, hloc, hpoint⟩
    rcases hotCalls_cases hstep with ⟨hmode, -⟩ | ⟨-, b, hsection, rfl, rfl⟩
    · rw [hloc] at hmode
      simp [HotPoint.mode, Requester.mode, hpoint] at hmode
    rw [hloc] at hsection
    rcases section_await hpoint hsection with ⟨hdone, rfl⟩ | ⟨-, rfl⟩
    · refine .event (t := t) (if_pos ⟨rfl, ?_⟩) (h.finish hawaits hdone)
      have hstage := h.stage_of_awaits hawaits
      cases hstage with
      | finished _ _ _ hwho _ =>
        -- the call was run, or there is no callback for it
        revert hwho
        cases sync.who t with
        | started callID data =>
          rintro (hneg | ⟨hentries, -⟩)
          · cases hneg
          · exact .inr ⟨hentries, by simp [Requester.goto], by simpa [Requester.goto] using hretries⟩
        | served callID data =>
          intro _
          exact ⟨by simp [Requester.goto], by simpa [Requester.goto] using hretries⟩
        | _ => exact id
      | waits _ hnot => rw [hdone] at hnot; cases hnot
      | runs _ hnot => rw [hdone] at hnot; cases hnot
      | ran _ hnot => rw [hdone] at hnot; cases hnot
    · -- nothing has changed
      have hgoto : (r.goto .unlockWaiting).goto .spinAgain = r := by
        rw [Requester.goto, Requester.goto, ← hpoint]
      exact .silent (h.stay (hloc.trans (congrArg (HotPoint.request t) hgoto.symm)))

omit [DecidableEq δ] in
/-- A responder that does not poll has a call. -/
theorem HotInv.busy_of_not_polls (h : HotInv numEntries c sync) (hnot : ¬ Polls (c.loc .responder)) :
    (c.shared ()).busy = true := by
  by_contra hfree
  rw [Bool.not_eq_true] at hfree
  exact hnot (h.free hfree).2.2

/-- The responder polls. -/
theorem HotInv.step_poll (h : HotInv numEntries c sync) (hp : c.loc .responder = .respond .spin)
    (hstep : (hotCalls numEntries).AtomicStep c (.responder, m.2) c' os) :
    Follows numEntries sync os c' := by
  rcases hotCalls_cases hstep with ⟨hmode, -⟩ | ⟨-, ⟨p, hotCall⟩, hsection, rfl, rfl⟩
  · rw [hp] at hmode
    cases hmode
  rw [hp] at hsection
  obtain ⟨rfl, ⟨hpolling, rfl⟩ | ⟨-, rfl⟩ | ⟨hrun, rfl⟩⟩ := section_poll hsection
  -- it has been told to stop, or finds nothing, or finds a call
  · refine .silent (h.responder rfl rfl (fun _ => hpolling) (fun hfree => ?_) (fun _ _ => rfl) fun t _ hstage => ?_)
    · obtain ⟨hrun, hcurrent, -⟩ := h.free hfree
      exact ⟨hrun, hcurrent, .inr rfl⟩
    · rw [hp] at hstage
      cases hstage with
      | waits h₁ h₂ h₃ h₄ _ => exact .waits h₁ h₂ h₃ h₄ (.inl (.inr rfl))
      | runs _ _ _ _ hp' => cases hp'
      | ran _ _ _ _ hp' => cases hp'
      | finished h₁ h₂ h₃ h₄ _ => exact .finished h₁ h₂ h₃ h₄ (.inr rfl)
  · exact .silent (h.stay hp)
  · refine .silent (h.responder rfl rfl (fun hleft => by cases hleft) (fun hfree => ?_) (fun _ _ => rfl) fun t _ hstage => ?_)
    · rw [(h.free hfree).1] at hrun
      cases hrun
    · rw [hp] at hstage
      cases hstage with
      | waits h₁ h₂ h₃ h₄ _ => exact .waits h₁ h₂ h₃ h₄ (.inr rfl)
      | runs _ _ _ _ hp' => cases hp'
      | ran _ _ _ _ hp' => cases hp'
      | finished hnot => rw [hrun] at hnot; cases hnot

/-- The responder has returned. -/
theorem HotInv.step_left (h : HotInv numEntries c sync) (hp : c.loc .responder = .respond .left)
    (hstep : (hotCalls numEntries).AtomicStep c (.responder, m.2) c' os) :
    Follows numEntries sync os c' := by
  rcases hotCalls_cases hstep with ⟨-, rfl, rfl⟩ | ⟨hmode, -⟩
  · rw [hp]
    exact .silent (h.stay hp)
  · rw [hp] at hmode
    cases hmode

/-- The responder looks up the callback. -/
theorem HotInv.step_call {callID : ℕ} {data : δ} (h : HotInv numEntries c sync)
    (hp : c.loc .responder = .respond (.call callID data))
    (hstep : (hotCalls numEntries).AtomicStep c (.responder, m.2) c' os) :
    Follows numEntries sync os c' := by
  rcases hotCalls_cases hstep with ⟨-, rfl, rfl⟩ | ⟨hmode, -⟩
  swap
  · rw [hp] at hmode
    cases hmode
  rw [hp]
  have hbusy := h.busy_of_not_polls (hp ▸ not_polls_call)
  obtain ⟨t, hawaits, hstage⟩ := h.busy hbusy
  rw [hp] at hstage
  cases hstage with
  | runs _ _ _ _ hp' => cases hp'
  | ran _ _ _ _ hp' => cases hp'
  | finished _ _ _ _ hp' => exact absurd hp' not_polls_call
  | waits hrun hdone hcurrent hwho hp' =>
    rcases hp' with hp' | hp'
    · exact absurd hp' not_polls_call
    cases hp'
    have honly : ∀ t', Awaits (c.loc (.requester t')) → t' = t := fun t' h' => h.unique _ _ h' hawaits
    -- a call outside of the table is done at once, and nothing is run
    by_cases hlt : (c.shared ()).callID < numEntries
    · have houter : (HotPoint.respond (.call (c.shared ()).callID (c.shared ()).data)).outer numEntries m.2 =
          (.running (c.shared ()).callID (c.shared ()).data,
            [.callback (c.shared ()).callID (c.shared ()).data]) := if_pos hlt
      rw [houter]
      refine .event (t := t) (if_pos ⟨hwho, hlt, hcurrent⟩)
        (h.responder rfl rfl (fun hleft => by cases hleft) (fun hfree => ?_) (fun t' hnot => ?_) fun t' h' _ => ?_)
      · rw [hbusy] at hfree
        cases hfree
      · refine update_of_ne ?_ _ _
        rintro rfl
        exact hnot hawaits
      · obtain rfl := honly t' h'
        exact .runs hrun hdone rfl (update_self _ _ _) rfl
    · have houter : (HotPoint.respond (.call (c.shared ()).callID (c.shared ()).data)).outer numEntries m.2 =
          (.respond .spinDone, []) := if_neg hlt
      rw [houter]
      refine .silent (h.responder rfl rfl (fun hleft => by cases hleft) (fun hfree => ?_) (fun _ _ => rfl) fun t' h' _ => ?_)
      · rw [hbusy] at hfree
        cases hfree
      · obtain rfl := honly t' h'
        exact .ran hrun hdone hcurrent
          (hwho ▸ .inr ⟨Nat.le_of_not_lt hlt, Int.le_refl _, Int.natCast_nonneg _⟩) rfl

/-- The callback returns. -/
theorem HotInv.step_running {callID : ℕ} {data : δ} (h : HotInv numEntries c sync)
    (hp : c.loc .responder = .running callID data)
    (hstep : (hotCalls numEntries).AtomicStep c (.responder, m.2) c' os) :
    Follows numEntries sync os c' := by
  rcases hotCalls_cases hstep with ⟨-, rfl, rfl⟩ | ⟨hmode, -⟩
  swap
  · rw [hp] at hmode
    cases hmode
  rw [hp]
  have hbusy := h.busy_of_not_polls (hp ▸ not_polls_running)
  obtain ⟨t, hawaits, hstage⟩ := h.busy hbusy
  rw [hp] at hstage
  cases hstage with
  | ran _ _ _ _ hp' => cases hp'
  | finished _ _ _ _ hp' => exact absurd hp' not_polls_running
  | waits _ _ _ _ hp' =>
    rcases hp' with hp' | hp'
    · exact absurd hp' not_polls_running
    · cases hp'
  | runs hrun hdone hcurrent hwho hp' =>
    cases hp'
    refine .event (t := t) (if_pos ⟨hwho, hcurrent⟩)
      (h.responder rfl rfl (fun hleft => by cases hleft) (fun hfree => ?_) (fun t' hnot => ?_) fun t' h' _ => ?_)
    · rw [hbusy] at hfree
      cases hfree
    · refine update_of_ne ?_ _ _
      rintro rfl
      exact hnot hawaits
    · obtain rfl := h.unique _ _ h' hawaits
      refine .ran hrun hdone rfl ?_ rfl
      simp only [update_self]
      exact ⟨Int.le_refl _, Int.natCast_nonneg _⟩

/-- The responder says that the call is done. -/
theorem HotInv.step_done (h : HotInv numEntries c sync) (hp : c.loc .responder = .respond .spinDone)
    (hstep : (hotCalls numEntries).AtomicStep c (.responder, m.2) c' os) :
    Follows numEntries sync os c' := by
  rcases hotCalls_cases hstep with ⟨hmode, -⟩ | ⟨-, b, hsection, rfl, rfl⟩
  · rw [hp] at hmode
    cases hmode
  rw [hp] at hsection
  obtain rfl := section_done hsection
  refine .silent (h.responder rfl rfl (fun hleft => by cases hleft) (fun hfree => ?_) (fun _ _ => rfl) fun t _ hstage => ?_)
  · exact absurd (hp ▸ (h.free hfree).2.2) not_polls_spinDone
  · rw [hp] at hstage
    cases hstage with
    | waits _ _ _ _ hp' =>
      rcases hp' with hp' | hp'
      · exact absurd hp' not_polls_spinDone
      · cases hp'
    | runs _ _ _ _ hp' => cases hp'
    | ran _ _ hcurrent hwho _ => exact .finished rfl rfl hcurrent hwho (.inl rfl)
    | finished _ _ _ _ hp' => exact absurd hp' not_polls_spinDone

/-- The responder moves. -/
theorem HotInv.step_responder (h : HotInv numEntries c sync)
    (hstep : (hotCalls numEntries).AtomicStep c (.responder, m.2) c' os) :
    Follows numEntries sync os c' := by
  -- where it can be, with and without a call
  have hplace : Polls (c.loc .responder) ∨ (∃ callID data, c.loc .responder = .respond (.call callID data)) ∨
      (∃ callID data, c.loc .responder = .running callID data) ∨ c.loc .responder = .respond .spinDone := by
    cases hbusy : (c.shared ()).busy with
    | false => exact .inl (h.free hbusy).2.2
    | true =>
      obtain ⟨t, -, hstage⟩ := h.busy hbusy
      cases hstage with
      | waits _ _ _ _ hp =>
        rcases hp with hp | hp
        · exact .inl hp
        · exact .inr (.inl ⟨_, _, hp⟩)
      | runs _ _ _ _ hp => exact .inr (.inr (.inl ⟨_, _, hp⟩))
      | ran _ _ _ _ hp => exact .inr (.inr (.inr hp))
      | finished _ _ _ _ hp => exact .inl hp
  rcases hplace with (hp | hp) | ⟨callID, data, hp⟩ | ⟨callID, data, hp⟩ | hp
  · exact h.step_poll hp hstep
  · exact h.step_left hp hstep
  · exact h.step_call hp hstep
  · exact h.step_running hp hstep
  · exact h.step_done hp hstep

/-- **One step**, or one critical section. -/
theorem HotInv.step (h : HotInv numEntries c sync)
    (hstep : (hotCalls numEntries).AtomicStep c m c' os) : Follows numEntries sync os c' := by
  obtain ⟨party, call⟩ := m
  cases party with
  | requester t => exact h.step_requester (m := (.requester t, call)) hstep
  | responder => exact h.step_responder (m := (.responder, call)) hstep
  | stopper =>
    rcases h.stopper with ⟨hp, -⟩ | hp
    · rcases hotCalls_cases hstep with ⟨hmode, -⟩ | ⟨-, b, hsection, rfl, rfl⟩
      · rw [hp] at hmode
        cases hmode
      rw [hp] at hsection
      obtain rfl := section_stop hsection
      exact .silent h.stop
    · rcases hotCalls_cases hstep with ⟨-, rfl, rfl⟩ | ⟨hmode, -⟩
      · rw [hp]
        exact .silent (h.stay hp)
      · rw [hp] at hmode
        cases hmode

end Step

/-! ### Runs -/

/-- Every section can be brought to its end. -/
theorem exists_section (numEntries : ℕ) {p : HotPoint δ} (hmode : p.mode = .enter ()) (hotCall : HotCall δ) :
    ∃ b, (hotCalls numEntries).Section () (p.entered, hotCall) b := by
  obtain ⟨data', callID', keepPolling, runFunction, isDone, busy⟩ := hotCall
  cases p with
  | request t r =>
    obtain ⟨callID, data, numRetries, point⟩ := r
    cases point with
    | spin =>
      cases busy
      · exact ⟨_, .inside rfl rfl (.inside rfl rfl (.inside rfl rfl (.inside rfl rfl (.inside rfl rfl
          (.inside rfl rfl (.leave rfl))))))⟩
      · exact ⟨_, .inside rfl rfl (.leave rfl)⟩
    | spinAgain =>
      cases isDone
      · exact ⟨_, .inside rfl rfl (.leave rfl)⟩
      · exact ⟨_, .inside rfl rfl (.inside rfl rfl (.leave rfl))⟩
    | _ => cases hmode
  | respond p =>
    cases p with
    | spin =>
      cases keepPolling
      · exact ⟨_, .inside rfl rfl (.leave rfl)⟩
      cases runFunction
      · exact ⟨_, .inside rfl rfl (.inside rfl rfl (.leave rfl))⟩
      · exact ⟨_, .inside rfl rfl (.inside rfl rfl (.inside rfl rfl (.inside rfl rfl (.leave rfl))))⟩
    | spinDone => exact ⟨_, .inside rfl rfl (.inside rfl rfl (.leave rfl))⟩
    | _ => cases hmode
  | stop p =>
    cases p with
    | spin => exact ⟨_, .inside rfl rfl (.leave rfl)⟩
    | _ => cases hmode
  | _ => cases hmode

theorem hotCalls_safe (numEntries : ℕ) (ok : Party × Option (ℕ × δ) → Prop)
    (c : Conf Unit Party Unit (HotPoint δ) fun _ => HotCall δ) : Safe (hotCalls numEntries) ok c where
  outer := fun _ _ _ => rfl
  ends := by
    intro _ _ _ _ hmode _
    obtain ⟨b, hb⟩ := exists_section numEntries hmode (c.shared ())
    exact ⟨b, hb, rfl⟩

theorem hotInit_out (numEntries : ℕ) (null : δ) (party : Party) :
    ((hotCalls numEntries).mode ((hotInit null).loc party)).Out := by
  cases party <;> trivial

/-- All is as it should be after a run of whole sections. -/
theorem HotInv.of_reaches [DecidableEq δ] {numEntries : ℕ} {null : δ}
    {c : Conf Unit Party Unit (HotPoint δ) fun _ => HotCall δ} {ms : List (Party × Option (ℕ × δ))}
    {os : List (HotEvent δ)} (hreaches : (hotCalls numEntries).Reaches (hotInit null) ms c os) :
    ∃ (log : List (ℕ × HotEvent δ)) (sync : Sync δ), log.map Prod.snd = os ∧
      syncRun numEntries log = some sync ∧ HotInv numEntries c sync := by
  refine hreaches.induct (fun _ => True)
    (motive := fun c os => ∃ (log : List (ℕ × HotEvent δ)) (sync : Sync δ), log.map Prod.snd = os ∧
      syncRun numEntries log = some sync ∧ HotInv numEntries c sync) ?_ ?_ (fun _ _ => trivial)
  · exact ⟨[], .init, rfl, rfl, .init numEntries null⟩
  · rintro c₁ c₂ m os os' ⟨log, sync, hlog, hsync, hinv⟩ - hstep
    obtain ⟨new, sync', hnew, hsync', hinv'⟩ := hinv.step hstep
    refine ⟨log ++ new, sync', by rw [List.map_append, hlog, hnew], ?_, hinv'⟩
    rw [syncRun, List.foldlM_append]
    exact Option.bind_eq_some_iff.mpr ⟨sync, hsync, hsync'⟩

/-- **Every run is one of calls as they should be.**  However the threads' accesses to the
`HotCall` are interleaved, the events of the run, each given to the requester whose call
it is of, are those of calls that are run once each, one at a time, between where they
are made and where they return, or that are given up and not run at all. -/
theorem hotCalls_sync [DecidableEq δ] (numEntries : ℕ) (null : δ) (ms : List (Party × Option (ℕ × δ))) :
    ∃ s oss, run (hotCalls numEntries).step (hotInit null).calm ms = some (s, oss) ∧
      ∃ log : List (ℕ × HotEvent δ), log.map Prod.snd = oss.flatten ∧
        (syncRun numEntries log).isSome = true := by
  obtain ⟨s, oss, hrun⟩ := Prog.exists_run_of_safe (I := fun _ => True)
    (fun c _ => hotCalls_safe numEntries (fun _ => True) c) (fun _ _ _ => trivial) trivial
    (hotInit_out numEntries null) ms (fun _ _ => trivial)
  obtain ⟨ms', c', -, hreaches, -⟩ := Prog.exists_reaches (fun _ => True)
    (hotInit_out numEntries null) (fun _ _ => trivial) hrun
  obtain ⟨log, sync, hlog, hsync, -⟩ := HotInv.of_reaches hreaches
  exact ⟨s, oss, hrun, log, hlog, by rw [hsync]; rfl⟩

/-! ### Calls return -/

section Returns

variable {numEntries : ℕ} {c c' c'' : Conf Unit Party Unit (HotPoint δ) fun _ => HotCall δ}

/-- Steps without a new call, and without `StopResponder`. -/
def Goes (numEntries : ℕ) (c c' : Conf Unit Party Unit (HotPoint δ) fun _ => HotCall δ) : Prop :=
  ∃ ms os, (hotCalls numEntries).Reaches c ms c' os ∧ ∀ m ∈ ms, m.2 = none ∧ m.1 ≠ .stopper

theorem Goes.refl : Goes numEntries c c := ⟨[], [], .refl, by simp⟩

theorem Goes.trans (h : Goes numEntries c c') (h' : Goes numEntries c' c'') : Goes numEntries c c'' := by
  obtain ⟨ms, os, hreaches, hms⟩ := h
  obtain ⟨ms', os', hreaches', hms'⟩ := h'
  refine ⟨ms ++ ms', os ++ os', hreaches.trans hreaches', fun m hm => ?_⟩
  rcases List.mem_append.mp hm with hm | hm
  · exact hms m hm
  · exact hms' m hm

theorem Goes.outer {party : Party} (hmode : (c.loc party).mode = .outside) (hparty : party ≠ .stopper) :
    Goes numEntries c (moved c party ((c.loc party).outer numEntries none).1 (c.shared ())) := by
  have hconf : moved c party ((c.loc party).outer numEntries none).1 (c.shared ()) =
      { c with env := (), loc := update c.loc party ((c.loc party).outer numEntries none).1 } := by
    simp [moved]
  rw [hconf]
  exact ⟨[(party, none)], _, (Prog.AtomicStep.outer (m := (party, none))
    (r := (((c.loc party).outer numEntries none).1, (), ((c.loc party).outer numEntries none).2))
    hmode rfl).reaches, by simpa using hparty⟩

theorem Goes.whole {party : Party} {b : HotPoint δ × HotCall δ} (hmode : (c.loc party).mode = .enter ())
    (hparty : party ≠ .stopper)
    (hsection : (hotCalls numEntries).Section () ((c.loc party).entered, c.shared ()) b) :
    Goes numEntries c (moved c party b.1.left.1 b.2) :=
  ⟨[(party, none)], _, (Prog.AtomicStep.whole (m := (party, none)) hmode rfl hsection rfl).reaches,
    by simpa using hparty⟩

/-- What stays as it is. -/
theorem Goes.keeps {t : ℕ} (h : Goes numEntries c c') :
    c'.loc .stopper = c.loc .stopper ∧
      (c.loc (.requester t) = .idle t → c'.loc (.requester t) = .idle t) := by
  obtain ⟨ms, os, hreaches, hms⟩ := h
  refine hreaches.induct (fun m => m.2 = none ∧ m.1 ≠ .stopper)
    (motive := fun c' _ => c'.loc .stopper = c.loc .stopper ∧
      (c.loc (.requester t) = .idle t → c'.loc (.requester t) = .idle t)) ⟨rfl, id⟩ ?_ hms
  -- an idle requester stays idle, for there is no new call
  rintro c₁ c₂ ⟨party, call⟩ _ _ ⟨hstopper, hidle⟩ ⟨hcall, hparty⟩ hstep
  obtain rfl : call = none := hcall
  have hother : ∀ {p : HotPoint δ} {hotCall}, (moved c₁ party p hotCall).loc .stopper = c.loc .stopper :=
    (loc_moved_of_ne hparty.symm _ _).trans hstopper
  rcases hotCalls_cases hstep with ⟨-, rfl, -⟩ | ⟨hmode, b, -, rfl, -⟩
  · refine ⟨hother, fun h => ?_⟩
    rcases eq_or_ne (.requester t) party with rfl | hne
    · rw [loc_moved_self, hidle h]
      rfl
    · rw [loc_moved_of_ne hne]
      exact hidle h
  · refine ⟨hother, fun h => ?_⟩
    rcases eq_or_ne (.requester t) party with rfl | hne
    · rw [hidle h] at hmode
      cases hmode
    · rw [loc_moved_of_ne hne]
      exact hidle h

theorem Goes.inv [DecidableEq δ] {sync : Sync δ} (h : Goes numEntries c c')
    (hinv : HotInv numEntries c sync) : ∃ sync', HotInv numEntries c' sync' := by
  obtain ⟨ms, os, hreaches, -⟩ := h
  refine hreaches.induct (fun _ => True)
    (motive := fun c' _ => ∃ sync', HotInv numEntries c' sync') ⟨sync, hinv⟩ ?_ (fun _ _ => trivial)
  rintro c₁ c₂ m _ _ ⟨sync', hinv'⟩ - hstep
  obtain ⟨-, sync'', -, -, hinv''⟩ := hinv'.step hstep
  exact ⟨sync'', hinv''⟩

/-- How far the responder is from the end of a call. -/
def stepsLeft : HotPoint δ → ℕ
  | .respond .spin => 4
  | .respond (.call _ _) => 3
  | .running _ _ => 2
  | .respond .spinDone => 1
  | _ => 0

variable {sync : Sync δ} {t : ℕ}

/-- The responder, which is not stopped, goes on with the call of a requester that
waits. -/
theorem HotInv.exists_goes (h : HotInv numEntries c sync) (hstop : c.loc .stopper = .stop .spin)
    (hawaits : Awaits (c.loc (.requester t))) (hdone : (c.shared ()).isDone = false) :
    ∃ p hotCall, Goes numEntries c (moved c .responder p hotCall) ∧
      (stepsLeft p < stepsLeft (c.loc .responder) ∨ hotCall.isDone = true) := by
  have hpolling : (c.shared ()).keepPolling = true := by
    rcases h.stopper with ⟨-, hpolling⟩ | hreturned
    · exact hpolling
    · rw [hstop] at hreturned
      cases hreturned
  -- a call that waits is found, run and reported, and each of these is a step
  cases h.stage_of_awaits hawaits with
  | finished _ hnot => rw [hdone] at hnot; cases hnot
  | waits hrun _ _ _ hp =>
    rcases hp with (hp | hp) | hp
    · have hmode : (c.loc .responder).mode = .enter () := hp ▸ rfl
      obtain ⟨b, hb⟩ := exists_section numEntries hmode (c.shared ())
      refine ⟨_, _, .whole hmode (by simp) hb, .inl ?_⟩
      rw [hp] at hb
      rcases section_poll hb with ⟨-, ⟨hnot, -⟩ | ⟨hnot, -⟩ | ⟨-, hcall⟩⟩
      · rw [hpolling] at hnot
        cases hnot
      · rw [hrun] at hnot
        cases hnot
      · rw [hcall, hp]
        exact Nat.lt_succ_self 3
    · rw [h.stopped hp] at hpolling
      cases hpolling
    · refine ⟨_, _, .outer (hp ▸ rfl) (by simp), .inl ?_⟩
      rw [hp]
      by_cases hlt : (c.shared ()).callID < numEntries
      · rw [show (HotPoint.respond (.call (c.shared ()).callID (c.shared ()).data)).outer numEntries none =
          (.running (c.shared ()).callID (c.shared ()).data,
            [.callback (c.shared ()).callID (c.shared ()).data]) from if_pos hlt]
        exact Nat.lt_succ_self 2
      · rw [show (HotPoint.respond (.call (c.shared ()).callID (c.shared ()).data)).outer numEntries none =
          (.respond .spinDone, []) from if_neg hlt]
        exact Nat.lt_of_lt_of_le (Nat.lt_succ_self 1) (Nat.le_succ 2)
  | runs _ _ _ _ hp =>
    refine ⟨_, _, .outer (hp ▸ rfl) (by simp), .inl ?_⟩
    rw [hp]
    exact Nat.lt_succ_self 1
  | ran _ _ _ _ hp =>
    have hmode : (c.loc .responder).mode = .enter () := hp ▸ rfl
    obtain ⟨b, hb⟩ := exists_section numEntries hmode (c.shared ())
    refine ⟨_, _, .whole hmode (by simp) hb, .inr ?_⟩
    rw [hp] at hb
    rw [section_done hb]

/-- The call of a requester that waits can be brought to its end. -/
theorem HotInv.exists_goes_done [DecidableEq δ] (h : HotInv numEntries c sync)
    (hstop : c.loc .stopper = .stop .spin) (hawaits : Awaits (c.loc (.requester t))) :
    ∃ c', Goes numEntries c c' ∧ Awaits (c'.loc (.requester t)) ∧ (c'.shared ()).isDone = true := by
  induction hn : stepsLeft (c.loc .responder) using Nat.strongRecOn generalizing c sync with
  | ind n ih =>
    cases hdone : (c.shared ()).isDone with
    | true => exact ⟨c, .refl, hawaits, hdone⟩
    | false =>
      obtain ⟨p, hotCall, hgoes, hless⟩ := h.exists_goes hstop hawaits hdone
      have hawaits₁ : Awaits ((moved c .responder p hotCall).loc (.requester t)) := by
        rwa [loc_moved_of_ne (by simp)]
      rcases hless with hless | hdone₁
      · obtain ⟨sync₁, h₁⟩ := hgoes.inv h
        obtain ⟨c', hgoes', hawaits', hdone'⟩ := ih (stepsLeft p) (hn ▸ hless) h₁
          ((hgoes.keeps (t := t)).1.trans hstop) hawaits₁ (by rw [loc_moved_self])
        exact ⟨c', hgoes.trans hgoes', hawaits', hdone'⟩
      · exact ⟨_, hgoes, hawaits₁, by rwa [shared_moved]⟩

/-- A call that waits can return. -/
theorem HotInv.exists_goes_free [DecidableEq δ] (h : HotInv numEntries c sync)
    (hstop : c.loc .stopper = .stop .spin) (hawaits : Awaits (c.loc (.requester t))) :
    ∃ c', Goes numEntries c c' ∧ c'.loc (.requester t) = .idle t ∧ (c'.shared ()).busy = false := by
  obtain ⟨c₁, hgoes, hawaits₁, hdone⟩ := h.exists_goes_done hstop hawaits
  obtain ⟨sync₁, h₁⟩ := hgoes.inv h
  obtain ⟨t', r, hloc, hpoint⟩ := hawaits₁
  have hasks := h₁.asks t
  rw [hloc] at hasks
  have hmode : (c₁.loc (.requester t)).mode = .enter () := by
    rw [hloc]
    simp [HotPoint.mode, Requester.mode, hpoint]
  obtain ⟨b, hb⟩ := exists_section numEntries hmode (c₁.shared ())
  have hgoes₁ := Goes.whole hmode (by simp) hb
  rw [hloc] at hb
  rcases section_await hpoint hb with ⟨-, rfl⟩ | ⟨hnot, -⟩
  · have hleft : (HotPoint.request t' (r.goto .unlockDone)).left =
        (.idle t', [.returned t' r.numRetries]) := rfl
    refine ⟨_, hgoes.trans hgoes₁, ?_, by rw [shared_moved]⟩
    rw [loc_moved_self, hleft]
    cases hasks <;> rfl
  · rw [hdone] at hnot
    cases hnot

/-- Every call can return. -/
theorem HotInv.exists_goes_idle [DecidableEq δ] (h : HotInv numEntries c sync)
    (hstop : c.loc .stopper = .stop .spin) (t : ℕ) :
    ∃ c', Goes numEntries c c' ∧ c'.loc (.requester t) = .idle t := by
  -- first the call in the `HotCall`, if there is one
  have hfree : ∃ c₁, Goes numEntries c c₁ ∧ (c₁.shared ()).busy = false := by
    cases hbusy : (c.shared ()).busy with
    | false => exact ⟨c, .refl, hbusy⟩
    | true =>
      obtain ⟨t', hawaits, -⟩ := h.busy hbusy
      obtain ⟨c₁, hgoes, -, hfree⟩ := h.exists_goes_free hstop hawaits
      exact ⟨c₁, hgoes, hfree⟩
  obtain ⟨c₁, hgoes, hfree⟩ := hfree
  obtain ⟨sync₁, h₁⟩ := hgoes.inv h
  have hstop₁ := (hgoes.keeps (t := t)).1.trans hstop
  have hasks := h₁.asks t
  generalize hloc : c₁.loc (.requester t) = p at hasks
  cases hasks with
  | idle => exact ⟨c₁, hgoes, hloc⟩
  | awaits _ _ hbusy => rw [hfree] at hbusy; cases hbusy
  | @spin r hpoint _ _ =>
    have hmode : (c₁.loc (.requester t)).mode = .enter () := by
      rw [hloc]
      simp [HotPoint.mode, Requester.mode, hpoint]
    obtain ⟨b, hb⟩ := exists_section numEntries hmode (c₁.shared ())
    have hgoes₁ := Goes.whole hmode (by simp) hb
    rw [hloc] at hb
    rcases section_request hpoint hb with ⟨hnot, -⟩ | ⟨-, rfl⟩
    · rw [hfree] at hnot
      cases hnot
    have h₂ := h₁.take (r := r) hloc hpoint hfree
    obtain ⟨c', hgoes', hidle, -⟩ := h₂.exists_goes_free (t := t)
      ((loc_moved_of_ne (by simp) _ _).trans hstop₁) (by rw [loc_moved_self]; exact ⟨t, _, rfl, rfl⟩)
    exact ⟨c', (hgoes.trans hgoes₁).trans hgoes', hidle⟩

/-- The calls of any number of requesters can return. -/
theorem exists_goes_all_idle [DecidableEq δ] (ts : List ℕ) :
    ∀ {c : Conf Unit Party Unit (HotPoint δ) fun _ => HotCall δ} {sync : Sync δ},
      HotInv numEntries c sync → c.loc .stopper = .stop .spin →
      ∃ c', Goes numEntries c c' ∧ ∀ t ∈ ts, c'.loc (.requester t) = .idle t := by
  induction ts with
  | nil =>
    intro c sync _ _
    exact ⟨c, .refl, by simp⟩
  | cons t ts ih =>
    intro c sync h hstop
    obtain ⟨c₁, hgoes, hidles⟩ := ih h hstop
    obtain ⟨sync₁, h₁⟩ := hgoes.inv h
    obtain ⟨c₂, hgoes', hidle⟩ := h₁.exists_goes_idle ((hgoes.keeps (t := t)).1.trans hstop) t
    refine ⟨c₂, hgoes.trans hgoes', fun t' ht' => ?_⟩
    rcases List.mem_cons.mp ht' with rfl | ht'
    · exact hidle
    · exact hgoes'.keeps.2 (hidles t' ht')

end Returns

/-- **Calls return.**  As long as `StopResponder` is not called, the calls that are under
way can all return, without any new call and without `StopResponder`: wherever the threads
are, some way on has all requesters idle. -/
theorem hotCalls_returns [DecidableEq δ] (numEntries : ℕ) (null : δ)
    {ms : List (Party × Option (ℕ × δ))} {s : State Unit Party Unit (HotPoint δ) fun _ => HotCall δ}
    {oss : List (List (HotEvent δ))}
    (hrun : run (hotCalls numEntries).step (hotInit null).calm ms = some (s, oss))
    (hstop : ∀ m ∈ ms, m.1 ≠ .stopper) :
    ∃ ns s' oss', run (hotCalls numEntries).step s ns = some (s', oss') ∧
      (∀ m ∈ ns, m.2 = none ∧ m.1 ≠ .stopper) ∧ ∀ t, s'.loc (.requester t) = .idle t := by
  -- the threads that have moved
  let parties := .responder :: ms.map Prod.fst
  have hstopper : Party.stopper ∉ parties := by
    simp only [parties, List.mem_cons, reduceCtorEq, List.mem_map, false_or, not_exists, not_and]
    exact hstop
  let ok : Party × Option (ℕ × δ) → Prop := fun m => m.1 ∈ parties
  let I : Conf Unit Party Unit (HotPoint δ) (fun _ => HotCall δ) → Prop := fun c =>
    (∃ sync, HotInv numEntries c sync) ∧ c.loc .stopper = .stop .spin ∧
      ∀ t, .requester t ∉ parties → c.loc (.requester t) = .idle t
  have hI : ∀ {c m c' os}, I c → ok m → (hotCalls numEntries).AtomicStep c m c' os → I c' := by
    rintro c m c' os ⟨⟨sync, hinv⟩, hspin, hidle⟩ hm hstep
    obtain ⟨-, sync', -, -, hinv'⟩ := hinv.step hstep
    refine ⟨⟨sync', hinv'⟩, ?_, fun t ht => ?_⟩
    · rw [hstep.loc_of_ne (ne_of_mem_of_not_mem hm hstopper).symm]
      exact hspin
    · rw [hstep.loc_of_ne (ne_of_mem_of_not_mem hm ht).symm]
      exact hidle t ht
  have hsafe : ∀ c, I c → Safe (hotCalls numEntries) ok c := fun c _ => hotCalls_safe numEntries ok c
  have hok : ∀ m ∈ ms, ok m := fun m hm => List.mem_cons_of_mem _ (List.mem_map_of_mem hm)
  obtain ⟨ms₁, c₁, hms₁, hreaches, hred⟩ := Prog.exists_reaches ok (hotInit_out numEntries null) hok hrun
  have hc₁ : I c₁ := hreaches.induct ok (motive := fun c _ => I c)
    ⟨⟨_, .init numEntries null⟩, rfl, fun _ _ => rfl⟩ (fun hc hm hstep => hI hc hm hstep) hms₁
  obtain ⟨ns, -, c₂, oss₂, hrun₂, hns, -, -, ⟨sync, hinv⟩, hspin, hidle⟩ :=
    Prog.exists_run_calm hsafe hI none parties (fun _ h => h) hc₁ hred fun k party hown => by
      obtain ⟨-, ⟨i, hi, -⟩, -⟩ := hred.held k party hown
      exact hi
  obtain ⟨c₃, hgoes, hidles⟩ := exists_goes_all_idle (parties.filterMap fun
    | .requester t => some t
    | _ => none) hinv hspin
  obtain ⟨ms₃, os₃, hreaches₃, hms₃⟩ := id hgoes
  obtain ⟨ns₃, oss₃, hrun₃, -, hsub⟩ := Prog.exists_run_of_reaches hreaches₃
  refine ⟨ns ++ ns₃, c₃.calm, oss₂ ++ oss₃, ?_, ?_, ?_⟩
  · exact run_trans hrun₂ hrun₃
  · intro m hm
    rcases List.mem_append.mp hm with hm | hm
    · exact ⟨(hns m hm).2, ne_of_mem_of_not_mem (hns m hm).1 hstopper⟩
    · exact hms₃ m (hsub hm)
  · intro t
    by_cases ht : .requester t ∈ parties
    · exact hidles t (List.mem_filterMap.mpr ⟨.requester t, ht, rfl⟩)
    · exact hgoes.keeps.2 (hidle t ht)

/-- Two requesters, of which one has its call taken while the other is refused. -/
theorem hotCalls_returns_two :
    ∃ s, (run (hotCalls 1).step (hotInit 0).calm
        [(.requester 0, some (0, 7)), (.requester 1, some (0, 8)), (.requester 0, none), (.requester 1, none),
          (.requester 0, none), (.requester 0, none)]).map Prod.fst = some s ∧
      ∃ ns s' oss', run (hotCalls 1).step s ns = some (s', oss') ∧
        (∀ m ∈ ns, m.2 = none ∧ m.1 ≠ .stopper) ∧ ∀ t, s'.loc (.requester t) = .idle t :=
  ⟨_, rfl, @hotCalls_returns ℕ _ 1 0 [(.requester 0, some (0, 7)), (.requester 1, some (0, 8)),
    (.requester 0, none), (.requester 1, none), (.requester 0, none), (.requester 0, none)] _ _ rfl
    (by decide)⟩

end ShieldStore
