import ShieldStore.Framing

/-!
# The clients

`client_load.c` and `client_run.c` differ in the name of the trace, in the field that says
how many lines of it are sent, and in the last message.  `file_to_memory` reads that many
lines and stores them in the rows of `inst`, one row a thread; `client_worker` sends the
row of its thread.

The variables `count` and `inst` have one cell a thread, and a row of `inst` has
`inst_size / num_threads` buffers: the allocation is of `8 * inst_size / num_threads`
bytes, and this many whole pointers fit into it.

## Main definitions

* `Loader` — the variables of `file_to_memory` and the part of the trace that is unread.
* `loadStep`, `fileToMemory` — a turn of its loop, and the whole.
* `clientLoop`, `clientWorker` — what a thread sends.
-/

namespace ShieldStore

open CMem

/-- The arguments of a client.  `instSize` is `load_inst_size` or `run_inst_size`. -/
structure ClientArg where
  numThreads : ℕ
  maxBufSize : ℕ
  instSize : ℕ
  deriving DecidableEq

/-! ### Reading the trace -/

/-- The variables of `file_to_memory`. -/
structure Loader where
  /-- What `fp` has not delivered yet. -/
  file : List UInt8
  setCount : ℕ
  threadId : ℕ
  count : List ℕ
  inst : List (List (List UInt8))
  deriving DecidableEq

/-- The variables in front of the loop. -/
def Loader.start (arg : ClientArg) (file : List UInt8) : Loader where
  file := file
  setCount := 0
  threadId := 0
  count := List.replicate arg.numThreads 0
  inst := List.replicate arg.numThreads
    (List.replicate (arg.instSize / arg.numThreads) (malloc arg.maxBufSize))

/-- `thread_id` after the test at the head of the loop. -/
def nextThread (arg : ClientArg) (setCount threadId : ℕ) : Option ℕ := do
  let share ← natDiv arg.instSize arg.numThreads
  let r ← natMod setCount share
  return if r = 0 ∧ setCount ≠ 0 then threadId + 1 else threadId

/-- `buf` after `memset`, `fgets` and the cut at its end, and what is left of the trace.
The inner `none` is the `exit` at the end of the trace. -/
def readLine (arg : ClientArg) (file : List UInt8) : Option (Option (List UInt8 × List UInt8)) :=
  match fgets arg.maxBufSize file with
  | none => some none
  | some (text, rest) => do
    let buf ← memcpy (List.replicate arg.maxBufSize 0) 0 (text ++ [0]) (text.length + 1)
    let len ← strlen buf
    -- the cell in front of an empty string is outside of `buf`
    if len = 0 then none else some (some (buf.set (len - 1) 0, rest))

/-- `memcpy(inst[thread_id][count[thread_id]++], buf, max_buf_size)`. -/
def Loader.put (arg : ClientArg) (st : Loader) (buf : List UInt8) : Option Loader := do
  let slot ← st.count[st.threadId]?
  let row ← st.inst[st.threadId]?
  let cell ← row[slot]?
  let cell ← memcpy cell 0 buf arg.maxBufSize
  return { st with
    count := st.count.set st.threadId (slot + 1)
    inst := st.inst.set st.threadId (row.set slot cell) }

/-- A turn of the loop; the inner `none` is the `exit`. -/
def loadStep (arg : ClientArg) (st : Loader) : Option (Option Loader) := do
  let threadId ← nextThread arg st.setCount st.threadId
  match ← readLine arg st.file with
  | none => return none
  | some (buf, rest) =>
    let st ← { st with threadId := threadId }.put arg buf
    return some { st with file := rest, setCount := st.setCount + 1 }

/-- The given number of turns. -/
def loadLoop (arg : ClientArg) : ℕ → Loader → Option (Option Loader)
  | 0, st => some (some st)
  | n + 1, st => do
    match ← loadStep arg st with
    | none => return none
    | some st => loadLoop arg n st

/-- `set_count` goes from 0 to `inst_size` by one a turn. -/
def fileToMemory (arg : ClientArg) (file : List UInt8) : Option (Option Loader) :=
  loadLoop arg arg.instSize (Loader.start arg file)

/-! ### Sending it -/

/-- The buffers that the loop of `client_worker` writes to its socket. -/
def clientLoop (arg : ClientArg) (inst : List (List (List UInt8))) (threadId : ℕ) :
    Option (List (List UInt8)) := do
  let share ← natDiv arg.instSize arg.numThreads
  (List.range share).mapM fun i => do
    let row ← inst[threadId]?
    let cell ← row[i]?
    strncpy cell arg.maxBufSize

/-- Everything that `client_worker` writes to its socket. -/
def clientWorker (arg : ClientArg) (bye : Goodbye) (inst : List (List (List UInt8)))
    (threadId : ℕ) : Option (List (List UInt8)) :=
  (clientLoop arg inst threadId).map (· ++ [bye.write])

end ShieldStore
