import ShieldStore.Server

/-!
# The select loop

The loop of `main` in `App/App.cpp`, outside of the enclave.  It accepts clients, reads
their messages into a buffer of `max_buf_size` bytes and hands each one to
`enclave_message_pass`.  It counts the open connections, and it leaves the loop, to join
the workers, when an `EXIT` has closed the last one.

One step handles one descriptor that `select` reports.  The check behind the `for` loop
comes with the message: it succeeds only behind an `EXIT`, which ends the `for` loop.
`enclave_message_pass` may cut a message behind its fourth byte, which turns no other
message into a `LOADDONE` or an `EXIT`; so the buffer is compared as it was read.

## Main definitions

* `Input` — what a descriptor that `select` reports is good for.
* `App` — the counters of `main`, and the server behind it.
* `selectStep` — one descriptor.
-/

namespace ShieldStore

open Bytes CMem

/-- What a descriptor that `select` reports is good for. -/
inductive Input
  /-- A client connects. -/
  | accept
  /-- `read` delivers bytes of a client, whose request may draw a counter block. -/
  | message (sock : ℤ) (text : List UInt8) (rand : Block)
  /-- `read` delivers nothing. -/
  | hangup
  deriving DecidableEq

/-- Where `main` is. -/
inductive Place
  | select
  /-- Behind the loop, where it joins the workers. -/
  | left
  /-- The process has ended. -/
  | exited
  deriving DecidableEq

/-- The counters of `main`, and the server. -/
structure App where
  server : Server
  numConnection : ℤ
  numClients : ℕ
  place : Place
  deriving DecidableEq

/-- `main` at the head of its loop. -/
def App.init (arg : Arg) : App := ⟨Server.init arg, 0, 0, .select⟩

/-- The buffer after `memset` and `read`. -/
def readBuf (arg : Arg) (text : List UInt8) : List UInt8 :=
  text ++ List.replicate (arg.maxBufSize - text.length) 0

/-- One descriptor. -/
def selectStep (arg : Arg) (sdk : Sdk) (app : App) (input : Input) : Option (App × List Seen) :=
  if app.place = .select then
    match input with
    | .accept =>
        let numConnection := app.numConnection + 1
        some ({ app with
          numConnection
          numClients :=
            if numConnection > app.numClients then numConnection.toNat else app.numClients }, [])
    | .message sock text rand => do
        let buf := readBuf arg text
        let (server, seen) ←
          enclaveMessagePass arg sdk app.server ⟨buf, sock, app.numClients, rand⟩
        let loadDone ← strncmp buf (lit ['L', 'O', 'A', 'D', 'D', 'O', 'N', 'E']) 9
        let numConnection := if loadDone then app.numConnection - 1 else app.numConnection
        let exit ← strncmp buf (lit ['E', 'X', 'I', 'T']) 4
        let numConnection := if exit then numConnection - 1 else numConnection
        return ({ app with
          server, numConnection
          place := if exit ∧ numConnection = 0 then .left else .select }, seen)
    | .hangup =>
        -- the descriptor is closed and stays in `master`, so that the next `select` fails
        some ({ app with place := .exited }, [])
  else some (app, [])

end ShieldStore
