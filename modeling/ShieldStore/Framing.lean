import ShieldStore.Shutdown
import ShieldStore.Messages

/-!
# Framing of requests

A client writes each request as `max_buf_size` bytes and waits for the reply; behind the
last one it writes `LOADDONE` or `EXIT` with the terminator.  `main` calls `read` once for
a descriptor that `select` reports, and takes what it gets for a message.  TCP keeps the
bytes in order but not the writes together, so what `main` passes to the enclave is what
the client wrote only if every request comes in a single read.

## Main definitions

* `Goodbye` — the last write of a client.
* `Read` — one read of the connection.
* `passes` — the buffers that `main` passes to `enclave_message_pass`.
* `Splits` — a write, cut into reads.

## Main results

* `framed_iff` — when the buffers are the client's requests.
-/

namespace ShieldStore

open Bytes CMem

/-! ### The client -/

/-- How a client takes its leave: `client_load.c` or `client_run.c`. -/
inductive Goodbye
  | loadDone
  | exit
  deriving DecidableEq

/-- The letters of the last message. -/
def Goodbye.letters : Goodbye → List UInt8
  | loadDone => ShieldStore.letters ['L', 'O', 'A', 'D', 'D', 'O', 'N', 'E']
  | exit => ShieldStore.letters ['E', 'X', 'I', 'T']

/-- The last write: 9 or 5 bytes. -/
def Goodbye.write (bye : Goodbye) : List UInt8 := bye.letters ++ [0]

/-! ### The server -/

/-- One read of the connection. -/
structure Read where
  /-- What the other clients and the workers do before it. -/
  meanwhile : App → App
  /-- The bytes that `read` delivers. -/
  text : List UInt8
  rand : Block

/-- `main` closes the connection behind this buffer. -/
def closes (buf : List UInt8) : Bool :=
  strncmp buf (lit ['L', 'O', 'A', 'D', 'D', 'O', 'N', 'E']) 9 = some true ∨
    strncmp buf (lit ['E', 'X', 'I', 'T']) 4 = some true

/-- The buffers that `main` passes to `enclave_message_pass` for a connection, until it
closes it. -/
def passes (arg : Arg) (sdk : Sdk) (sock : ℤ) : App → List Read → List (List UInt8)
  | _, [] => []
  | app, r :: reads =>
      readBuf arg r.text ::
        match selectStep arg sdk (r.meanwhile app) (.message sock r.text r.rand) with
        | some (app, _) => if closes (readBuf arg r.text) then [] else passes arg sdk sock app reads
        | none => []

/-- The reads that a write is cut into. -/
structure Splits (arg : Arg) (write : List UInt8) (reads : List Read) : Prop where
  bytes : (reads.map Read.text).flatten = write
  ne_nil : ∀ r ∈ reads, r.text ≠ []
  fits : ∀ r ∈ reads, r.text.length ≤ arg.maxBufSize

theorem Splits.reads_ne_nil {arg : Arg} {write : List UInt8} {reads : List Read}
    (h : Splits arg write reads) (hwrite : write ≠ []) : reads ≠ [] := by
  rintro rfl
  exact hwrite h.bytes.symm

/-- `main` is in its loop, and every worker has a queue. -/
structure Serving (arg : Arg) (app : App) : Prop where
  place : app.place = .select
  queues : app.server.queue.length = arg.numThreads

theorem serving_init (arg : Arg) : Serving arg (App.init arg) :=
  ⟨rfl, by simp [App.init, Server.init]⟩

/-! ### Buffers -/

section Buffers

variable {arg : Arg}

theorem readBuf_of_length {text : List UInt8} (h : text.length = arg.maxBufSize) :
    readBuf arg text = text := by
  unfold readBuf
  rw [h, Nat.sub_self, List.replicate_zero, List.append_nil]

theorem readBuf_concat_zero {text : List UInt8} (h : text.length + 1 ≤ arg.maxBufSize) :
    readBuf arg (text ++ [0]) = readBuf arg text := by
  have hrep : arg.maxBufSize - text.length = 1 + (arg.maxBufSize - (text.length + 1)) := by omega
  unfold readBuf
  rw [hrep, List.replicate_add, List.length_append, List.length_singleton, List.append_assoc]
  rfl

/-- What follows a read is zeros if the read alone gives the buffer. -/
theorem eq_zero_of_readBuf {text rest : List UInt8} (h : readBuf arg text = text ++ rest) :
    ∀ c ∈ rest, c = 0 := by
  unfold readBuf at h
  have hrest := List.append_cancel_left h
  intro c hc
  rw [← hrest] at hc
  exact (List.mem_replicate.mp hc).2

theorem Goodbye.letters_ne_zero (bye : Goodbye) : ∀ c ∈ bye.letters, c ≠ 0 := by
  cases bye <;> simp [Goodbye.letters, ShieldStore.letters]

/-- A request starts with a letter. -/
theorem head?_buf (q : Req) : ∃ c, c ≠ 0 ∧ (q.buf arg).head? = some c := by
  obtain ⟨op, lower, rand⟩ := q
  cases op <;> cases lower <;> exact ⟨_, by decide, rfl⟩

theorem Goodbye.head?_readBuf (bye : Goodbye) :
    ∃ c, c ≠ 0 ∧ (readBuf arg bye.letters).head? = some c := by
  cases bye <;> exact ⟨_, by decide, rfl⟩

/-- The first of the buffers to come starts with a letter. -/
theorem head?_expected (qs : List Req) (bye : Goodbye) {buf : List UInt8} {rest : List (List UInt8)}
    (h : buf :: rest = qs.map (Req.buf arg) ++ [readBuf arg bye.letters]) :
    ∃ c, c ≠ 0 ∧ buf.head? = some c := by
  cases qs with
  | nil =>
    obtain ⟨rfl, -⟩ := List.cons.inj h
    exact bye.head?_readBuf
  | cons q qs =>
    obtain ⟨rfl, -⟩ := List.cons.inj h
    exact head?_buf q

theorem closes_buf (q : Req) : closes (q.buf arg) = false := by
  unfold closes
  rw [strncmp_loaddone, strncmp_exit]
  rfl

end Buffers

/-! ### Reads -/

section Reads

variable {arg : Arg} (sdk : Sdk) (sock : ℤ) {app : App}

/-- A buffer that is a request leaves `main` in its loop. -/
theorem Serving.selectStep_req (h : Serving arg app) (hbuf : arg.maxBufSize < 2 ^ 32) {q : Req}
    (hq : q.WellFormed arg)
    (hthread : (threadId arg (cstr q.op.key)).any (· < arg.numThreads) = true) {text : List UInt8}
    (htext : readBuf arg text = q.buf arg) (rand : Block) :
    ∃ app' seen, selectStep arg sdk app (.message sock text rand) = some (app', seen) ∧
      Serving arg app' := by
  obtain ⟨i, hi, hlt⟩ := (Option.any_eq_true _ _).mp hthread
  have hlt : i < app.server.queue.length := by
    rw [h.queues]
    exact of_decide_eq_true hlt
  have hpass : enclaveMessagePass arg sdk app.server ⟨readBuf arg text, sock, app.numClients, rand⟩ =
      app.server.push i (q.buf arg) sock rand := by
    have hpass := @enclaveMessagePass_req arg sdk hbuf ⟨q.op, q.lower, rand⟩
      ⟨hq.word, hq.val_nul, hq.fits⟩ app.server sock app.numClients
    rw [hi, Option.bind_some] at hpass
    rw [htext]
    exact hpass
  -- the worker has a queue, so that the push is defined
  unfold Server.push at hpass
  rw [List.getElem?_eq_getElem hlt] at hpass
  refine ⟨_, _, selectStep_message h.place hpass (by rw [htext, strncmp_loaddone])
    (by rw [htext, strncmp_exit]), ?_⟩
  exact ⟨by simp, by simp [h.queues]⟩

/-- A read that is a request is passed, and `main` reads on. -/
theorem passes_req (h : Serving arg app) (hbuf : arg.maxBufSize < 2 ^ 32) {q : Req}
    (hq : q.WellFormed arg)
    (hthread : (threadId arg (cstr q.op.key)).any (· < arg.numThreads) = true) {r : Read}
    (hmeanwhile : ∀ app, Serving arg app → Serving arg (r.meanwhile app))
    (htext : readBuf arg r.text = q.buf arg) :
    ∃ app', Serving arg app' ∧ ∀ reads, passes arg sdk sock app (r :: reads) =
      q.buf arg :: passes arg sdk sock app' reads := by
  obtain ⟨app', seen, hstep, happ'⟩ :=
    (hmeanwhile app h).selectStep_req sdk sock hbuf hq hthread htext r.rand
  refine ⟨app', happ', fun reads => ?_⟩
  rw [passes, hstep, htext, closes_buf]
  rfl

/-- The terminator of the last message makes no difference to the buffer. -/
theorem Goodbye.readBuf_eq {arg : Arg} {bye : Goodbye} {text : List UInt8}
    (hfits : text.length ≤ arg.maxBufSize) (hwrite : text <+: bye.write)
    (hletters : bye.letters <+: text) : readBuf arg text = readBuf arg bye.letters := by
  obtain ⟨u, rfl⟩ := hletters
  obtain ⟨v, hv⟩ := hwrite
  rw [Goodbye.write, List.append_assoc] at hv
  have huv := List.append_cancel_left hv
  cases u with
  | nil => rw [List.append_nil]
  | cons c u =>
    obtain ⟨rfl, hrest⟩ := List.cons.inj huv
    obtain ⟨rfl, -⟩ := List.append_eq_nil_iff.mp hrest
    rw [List.length_append, List.length_singleton] at hfits
    exact readBuf_concat_zero hfits

/-- Behind the last message `main` closes the connection; or it has read behind the end of a
buffer that has no room for the terminator. -/
theorem Goodbye.stops {arg : Arg} {app : App} (hplace : app.place = .select) {bye : Goodbye}
    {text : List UInt8} (hfits : bye.letters.length ≤ arg.maxBufSize)
    (htext : readBuf arg text = readBuf arg bye.letters) (rand : Block) :
    closes (readBuf arg bye.letters) = true ∨
      selectStep arg sdk app (.message sock text rand) = none := by
  cases bye with
  | exit =>
    left
    simp [closes, readBuf, Goodbye.letters, ShieldStore.letters, lit, strncmp]
  | loadDone =>
    rcases Nat.lt_or_ge 8 arg.maxBufSize with hlt | hge
    · left
      have hrep : arg.maxBufSize - (Goodbye.letters .loadDone).length =
          (arg.maxBufSize - 9) + 1 := by
        show arg.maxBufSize - 8 = _
        omega
      unfold readBuf
      rw [hrep, List.replicate_succ]
      simp [closes, Goodbye.letters, ShieldStore.letters, lit, strncmp]
    · right
      -- nine characters are compared in a buffer of eight
      have hlen : (Goodbye.letters .loadDone).length = arg.maxBufSize := le_antisymm hfits hge
      rw [readBuf_of_length hlen] at htext
      have hnone : strncmp (readBuf arg text) (lit ['L', 'O', 'A', 'D', 'D', 'O', 'N', 'E']) 9 =
          none := by
        rw [htext]
        decide
      unfold selectStep
      simp only [hplace, if_true, Option.bind_eq_bind, hnone, Option.bind_none]
      cases enclaveMessagePass arg sdk app.server
        ⟨readBuf arg text, sock, app.numClients, rand⟩ <;> rfl

/-- A read with all letters of the last message is passed as that message, and nothing is
read behind it. -/
theorem passes_goodbye (h : Serving arg app) {bye : Goodbye} {r : Read}
    (hmeanwhile : ∀ app, Serving arg app → Serving arg (r.meanwhile app))
    (hfits : r.text.length ≤ arg.maxBufSize) (hwrite : r.text <+: bye.write)
    (hletters : bye.letters <+: r.text) (reads : List Read) :
    passes arg sdk sock app (r :: reads) = [readBuf arg bye.letters] := by
  have hbuf := Goodbye.readBuf_eq hfits hwrite hletters
  have hstop := Goodbye.stops sdk sock (hmeanwhile app h).place
    (hletters.length_le.trans hfits) hbuf r.rand
  rw [passes, hbuf]
  rcases hstop with hclose | hnone
  · rw [hclose]
    cases selectStep arg sdk (r.meanwhile app) (.message sock r.text r.rand) <;> rfl
  · rw [hnone]

/-- A read that gives the buffer of the last message has all of its letters. -/
theorem Goodbye.letters_isPrefix {arg : Arg} {bye : Goodbye} {text : List UInt8}
    (hwrite : text <+: bye.write) (h : readBuf arg text = readBuf arg bye.letters) :
    bye.letters <+: text := by
  rcases Nat.lt_or_ge text.length bye.letters.length with hlt | hge
  · -- the letter behind the read is not a zero
    have hget := congrArg (fun l => l[text.length]?) h
    simp only [readBuf, List.getElem?_append_right le_rfl, Nat.sub_self,
      List.getElem?_append_left hlt, List.getElem?_eq_getElem hlt] at hget
    have hmem := List.mem_of_getElem? hget
    exact absurd (List.mem_replicate.mp hmem).2 (bye.letters_ne_zero _ (List.getElem_mem hlt))
  · exact List.prefix_of_prefix_length_le (List.prefix_append _ _) hwrite hge

/-- The reads of the last message. -/
theorem passes_last_iff (h : Serving arg app) {bye : Goodbye} {last : List Read}
    (hlast : Splits arg bye.write last)
    (hmeanwhile : ∀ r ∈ last, ∀ app, Serving arg app → Serving arg (r.meanwhile app)) :
    passes arg sdk sock app last = [readBuf arg bye.letters] ↔
      ∃ r ∈ last.head?, bye.letters <+: r.text := by
  obtain ⟨r, more, rfl⟩ := List.exists_cons_of_ne_nil (hlast.reads_ne_nil (by simp [Goodbye.write]))
  have hwrite : r.text <+: bye.write := ⟨_, hlast.bytes⟩
  constructor
  · intro hpass
    rw [passes] at hpass
    exact ⟨r, rfl, Goodbye.letters_isPrefix hwrite (List.cons.inj hpass).1⟩
  · rintro ⟨r', hr', hletters⟩
    obtain rfl := Option.some.inj hr'
    exact passes_goodbye sdk sock h (hmeanwhile r (by simp)) (hlast.fits r (by simp)) hwrite hletters more

/-- If the first read of a request gives its buffer and the right buffers follow, there is no
other read of it: that would start with a zero, and no message does. -/
theorem Splits.single {q : Req} {r : Read} {more reads : List Read} {qs : List Req} {bye : Goodbye}
    (hsplit : Splits arg (q.buf arg) (r :: more)) (htext : readBuf arg r.text = q.buf arg)
    (hpass : passes arg sdk sock app (more ++ reads) =
      qs.map (Req.buf arg) ++ [readBuf arg bye.letters]) : more = [] := by
  cases more with
  | nil => rfl
  | cons r₂ more =>
    exfalso
    rw [List.cons_append, passes] at hpass
    obtain ⟨c, hc, hhead⟩ := head?_expected qs bye hpass
    have hbytes := hsplit.bytes
    rw [← htext, List.map_cons, List.map_cons, List.flatten_cons, List.flatten_cons] at hbytes
    obtain ⟨d, text, hd⟩ := List.exists_cons_of_ne_nil (hsplit.ne_nil r₂ (by simp))
    have hzero := eq_zero_of_readBuf hbytes.symm d (by simp [hd])
    rw [hd, readBuf, List.cons_append, List.head?_cons, Option.some.injEq] at hhead
    exact hc (hhead ▸ hzero)

end Reads

/-! ### When the buffers are the requests -/

/-- **Framing.**  A client writes requests and a last message, TCP cuts each write into reads,
and other clients and the workers go about their business in between.  The buffers that
`main` passes for the connection are the client's requests and its last message just when
every request comes in a single read, and the first read of the last message has all of
its letters. -/
theorem framed_iff {arg : Arg} (sdk : Sdk) (sock : ℤ) (hbuf : arg.maxBufSize < 2 ^ 32)
    {qs : List Req} (hqs : ∀ q ∈ qs, q.WellFormed arg)
    (hthread : ∀ q ∈ qs, (threadId arg (cstr q.op.key)).any (· < arg.numThreads) = true)
    (bye : Goodbye) {requests : List (List Read)} {last : List Read}
    (hrequests : List.Forall₂ (fun q => Splits arg (q.buf arg)) qs requests)
    (hlast : Splits arg bye.write last)
    (hmeanwhile : ∀ r ∈ requests.flatten ++ last, ∀ app, Serving arg app →
      Serving arg (r.meanwhile app)) {app : App} (happ : Serving arg app) :
    passes arg sdk sock app (requests.flatten ++ last) =
        qs.map (Req.buf arg) ++ [readBuf arg bye.letters] ↔
      (∀ reads ∈ requests, reads.length = 1) ∧ ∃ r ∈ last.head?, bye.letters <+: r.text := by
  induction hrequests generalizing app with
  | nil =>
    rw [List.flatten_nil, List.nil_append, List.map_nil, List.nil_append,
      passes_last_iff sdk sock happ hlast fun r hr => hmeanwhile r (by simp [hr])]
    simp
  | @cons q reads qs requests hsplit hrest ih =>
    have hq := hqs q (by simp)
    have hlen := hq.length_buf
    have hne : q.buf arg ≠ [] := by
      have := hq.fits
      rw [← List.length_pos_iff, hlen]
      omega
    -- by induction on the requests, with the first read of each apart
    obtain ⟨r, more, rfl⟩ := List.exists_cons_of_ne_nil (hsplit.reads_ne_nil hne)
    have ih := fun app happ => @ih (fun q hq => hqs q (by simp [hq]))
      (fun q hq => hthread q (by simp [hq]))
      (fun r hr => hmeanwhile r (by simp only [List.flatten_cons, List.mem_append] at hr ⊢; tauto))
      app happ
    have hread := fun htext => passes_req sdk sock happ hbuf hq (hthread q (by simp))
      (hmeanwhile r (by simp)) htext
    rw [List.flatten_cons, List.append_assoc, List.cons_append, List.map_cons, List.cons_append]
    constructor
    · intro h
      have htext : readBuf arg r.text = q.buf arg := by
        rw [passes] at h
        exact (List.cons.inj h).1
      obtain ⟨app', happ', hpass⟩ := hread htext
      rw [hpass] at h
      have h := (List.cons.inj h).2
      -- a second read would be passed as a buffer of its own
      obtain rfl := hsplit.single sdk sock htext h
      obtain ⟨hone, hletters⟩ := (ih app' happ').mp h
      exact ⟨List.forall_mem_cons.mpr ⟨rfl, hone⟩, hletters⟩
    · rintro ⟨hall, hletters⟩
      obtain ⟨hlen₁, hone⟩ := List.forall_mem_cons.mp hall
      obtain rfl : more = [] := by
        rwa [List.length_cons, Nat.add_eq_right, List.length_eq_zero_iff] at hlen₁
      have htext : readBuf arg r.text = q.buf arg := by
        have hbytes := hsplit.bytes
        rw [List.map_singleton, List.flatten_singleton] at hbytes
        rw [hbytes, readBuf_of_length hlen]
      obtain ⟨app', happ', hpass⟩ := hread htext
      rw [hpass, List.nil_append]
      exact congrArg _ ((ih app' happ').mpr ⟨hone, hletters⟩)

/-- One request in one read, and a last message whose terminator comes late. -/
theorem framed_iff_one :
    passes ⟨1, 16, 2, 1, true, true⟩ Sdk.aes 4 (App.init ⟨1, 16, 2, 1, true, true⟩)
        [⟨id, Req.buf ⟨1, 16, 2, 1, true, true⟩ ⟨.set [0x6b] [0x76], false, 0⟩, 0⟩,
          ⟨id, [0x45, 0x58, 0x49, 0x54], 0⟩, ⟨id, [0], 0⟩] =
      [Req.buf ⟨1, 16, 2, 1, true, true⟩ ⟨.set [0x6b] [0x76], false, 0⟩,
        readBuf ⟨1, 16, 2, 1, true, true⟩ [0x45, 0x58, 0x49, 0x54]] := by
  refine (@framed_iff ⟨1, 16, 2, 1, true, true⟩ Sdk.aes 4 (by decide)
    [⟨.set [0x6b] [0x76], false, 0⟩] (by decide) (by decide) .exit
    [[⟨id, Req.buf ⟨1, 16, 2, 1, true, true⟩ ⟨.set [0x6b] [0x76], false, 0⟩, 0⟩]]
    [⟨id, [0x45, 0x58, 0x49, 0x54], 0⟩, ⟨id, [0], 0⟩] ?_ ?_ ?_ _ (serving_init _)).mpr ?_
  · exact .cons ⟨rfl, by simp [Req.buf, Req.text, Op.verb], by simp; decide⟩ .nil
  · exact ⟨rfl, by simp, by simp⟩
  · simp
  · exact ⟨by simp, _, rfl, List.prefix_rfl⟩

/-- **A request in two reads.**  The first read is passed as a request of its own, without the
value, and so is the rest; there the enclave has no key to look for, and the last message
is not passed at all. -/
theorem not_framed :
    Splits ⟨1, 16, 2, 1, true, true⟩ (Req.buf ⟨1, 16, 2, 1, true, true⟩ ⟨.set [0x6b] [0x76], false, 0⟩)
        [⟨id, [0x53, 0x45, 0x54, 0x20, 0x6b, 0x20], 0⟩,
          ⟨id, [0x76, 0, 0, 0, 0, 0, 0, 0, 0, 0], 0⟩] ∧
      passes ⟨1, 16, 2, 1, true, true⟩ Sdk.aes 4 (App.init ⟨1, 16, 2, 1, true, true⟩)
          [⟨id, [0x53, 0x45, 0x54, 0x20, 0x6b, 0x20], 0⟩,
            ⟨id, [0x76, 0, 0, 0, 0, 0, 0, 0, 0, 0], 0⟩,
            ⟨id, [0x45, 0x58, 0x49, 0x54, 0], 0⟩] =
        [[0x53, 0x45, 0x54, 0x20, 0x6b, 0x20, 0, 0, 0, 0, 0, 0, 0, 0, 0, 0],
          [0x76, 0, 0, 0, 0, 0, 0, 0, 0, 0, 0, 0, 0, 0, 0, 0]] :=
  ⟨⟨rfl, by simp, by simp⟩, by decide +kernel⟩

end ShieldStore
