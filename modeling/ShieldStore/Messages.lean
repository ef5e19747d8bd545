import ShieldStore.App
import ShieldStore.Workers

/-!
# Messages

A client may send any bytes.  The message is tokenised twice in place, by
`enclave_message_pass`, which looks for the worker of its key, and by the worker that it
goes to; and the worker looks at its first letters.  This module says which messages a
server answers: those that say that a client has loaded its data, and those that start
with a command, have a key behind their first four bytes that ends within the buffer
and, for a command with a value, a terminator behind the key.  Any other message makes a
thread read past its buffer or through a null pointer, or stops a worker.

## Main definitions

* `KeyAt`, `IsRequest`, `Servable` — the messages that are answered, by their bytes.
* `Server.Idle` — all workers wait.
* `Responds` — a message is answered once, and all workers wait again.

## Main results

* `exists_request_iff` — the messages that a worker serves.
* `responds_iff_servable` — the messages that a server answers.
-/

namespace ShieldStore

open Bytes Counter CMem Run

/-! ### The bytes of a message -/

/-- The characters of a string literal. -/
def letters (text : List Char) : List UInt8 := text.map fun c => UInt8.ofNat c.toNat

/-- The buffer starts with a command, in capitals or not. -/
def Starts (a b : List Char) (buf : List UInt8) : Prop := letters a <+: buf ∨ letters b <+: buf

/-- The first letters of the messages that a worker serves. -/
def Command.Starts : Command → List UInt8 → Prop
  | .get => ShieldStore.Starts ['G', 'E', 'T'] ['g', 'e', 't']
  | .set => ShieldStore.Starts ['S', 'E', 'T'] ['s', 'e', 't']
  | .append => ShieldStore.Starts ['A', 'P', 'P'] ['a', 'p', 'p']
  | .quit | .untyped => fun _ => True

/-- Behind four bytes and spaces, the word `k` ends at `d`. -/
structure KeyAt (buf k : List UInt8) (d : UInt8) (rest : List UInt8) : Prop where
  split : ∃ pre n, pre.length = 4 ∧ buf = pre ++ (List.replicate n 0x20 ++ (k ++ d :: rest))
  word : IsWord 0x20 k
  ends : d = 0x20 ∨ d = 0

/-- The messages that a worker serves.  A key at the end of the text leaves an empty
value if `strtok_r` leaves its save pointer at the terminator. -/
def IsRequest (atEnd : SaveAtEnd) (buf : List UInt8) : Prop :=
  (Command.get.Starts buf ∧ ∃ k d rest, KeyAt buf k d rest) ∨
  ((Command.set.Starts buf ∨ Command.append.Starts buf) ∧
    ∃ k d rest, KeyAt buf k d rest ∧ (d = 0x20 ∧ 0 ∈ rest ∨ d = 0 ∧ atEnd = .terminator))

/-- The messages that are answered. -/
def Servable (atEnd : SaveAtEnd) (buf : List UInt8) : Prop :=
  letters ['L', 'O', 'A', 'D', 'D', 'O', 'N', 'E'] <+: buf ∨ IsRequest atEnd buf

/-- All workers wait for a job. -/
structure Server.Idle (arg : Arg) (st : Server) : Prop where
  queue : st.queue = List.replicate arg.numThreads []
  worker : st.worker = List.replicate arg.numThreads .ready

/-- A message is answered, by the responder or by a worker that takes it, sends one reply
on its socket and pops it; and all workers wait again. -/
def Responds (arg : Arg) (sdk : Sdk) (st : Server) (params : EcallParams) : Prop :=
  (∃ log : List Event, enclaveMessagePass arg sdk st params =
    some (st, log.map Seen.event ++ [.messageReturn params.buf params.clientSock])) ∨
  ∃ i job cipher st', ∃ log : List Event,
    run (serverStep arg sdk) st [.pass params, .take i, .exec i, .pop i] =
      some (st', [[.pushed i job], [],
        log.map Seen.event ++ [.answered i job cipher params.clientSock], [.popped i job]]) ∧
    st'.Idle arg

/-- Worker `i` of an idle server has taken the only job. -/
def Server.jobTaken (st : Server) (i : ℕ) (job : Job) : Server :=
  { st with
    queue := st.queue.set i [job]
    worker := st.worker.set i (.took job)
    allocs := st.allocs + 1 }

/-! ### Commands -/

theorem isPrefix_of_strncmp_lit {text : List Char} {buf : List UInt8} {n : ℕ}
    (hnul : (0 : UInt8) ∉ letters text) (hn : (letters text).length = n)
    (h : strncmp buf (lit text) n = some true) : letters text <+: buf := by
  subst hn
  exact isPrefix_of_strncmp hnul [0] h

theorem starts_of_startsWith {a b : List Char} {buf : List UInt8} {n : ℕ}
    (ha : (0 : UInt8) ∉ letters a ∧ (letters a).length = n)
    (hb : (0 : UInt8) ∉ letters b ∧ (letters b).length = n)
    (h : startsWith buf (lit a) (lit b) n = some true) : Starts a b buf := by
  unfold startsWith at h
  cases hc : strncmp buf (lit a) n with
  | none => simp [hc] at h
  | some c =>
    cases c with
    | true => exact Or.inl (isPrefix_of_strncmp_lit ha.1 ha.2 hc)
    | false =>
      simp only [hc, Option.bind_eq_bind, Option.bind_some, Bool.false_eq_true, if_false] at h
      exact Or.inr (isPrefix_of_strncmp_lit hb.1 hb.2 h)

/-- A worker goes by the first letters. -/
theorem starts_of_command {buf : List UInt8} {c : Command} (h : command buf = some c) :
    c.Starts buf := by
  unfold command at h
  simp only [Option.bind_eq_bind, Option.bind_eq_some_iff] at h
  obtain ⟨get, hget, h⟩ := h
  cases get with
  | true =>
    obtain rfl : Command.get = c := by simpa using h
    exact starts_of_startsWith (by decide) (by decide) hget
  | false =>
    simp only [Bool.false_eq_true, if_false, Option.bind_eq_some_iff] at h
    obtain ⟨set, hset, h⟩ := h
    cases set with
    | true =>
      obtain rfl : Command.set = c := by simpa using h
      exact starts_of_startsWith (by decide) (by decide) hset
    | false =>
      simp only [Bool.false_eq_true, if_false, Option.bind_eq_some_iff] at h
      obtain ⟨append, happend, h⟩ := h
      cases append with
      | true =>
        obtain rfl : Command.append = c := by simpa using h
        exact starts_of_startsWith (by decide) (by decide) happend
      | false =>
        simp only [Bool.false_eq_true, if_false, Option.bind_eq_some_iff] at h
        obtain ⟨quit, -, h⟩ := h
        cases quit with
        | true =>
          obtain rfl : Command.quit = c := by simpa using h
          trivial
        | false =>
          obtain rfl : Command.untyped = c := by simpa using h
          trivial

theorem command_of_starts {buf : List UInt8} {c : Command} (hquit : c ≠ .quit)
    (huntyped : c ≠ .untyped) (h : c.Starts buf) : command buf = some c := by
  cases c with
  | quit => exact absurd rfl hquit
  | untyped => exact absurd rfl huntyped
  | _ =>
    rcases h with ⟨t, rfl⟩ | ⟨t, rfl⟩ <;>
      simp [letters, command, startsWith, strncmp, lit]

/-! ### The key and the value -/

/-- Spaces in front of the key are skipped. -/
theorem parseKey_spaces {pre s : List UInt8} (sdk : Sdk) (hpre : pre.length = 4)
    (hs : s.head? ≠ some 0x20) (n : ℕ) :
    parseKey sdk (pre ++ (List.replicate n 0x20 ++ s)) =
      (parseKey sdk (pre ++ s)).map fun p =>
        { p with cipher := pre ++ (List.replicate n 0x20 ++ p.cipher.drop 4) } := by
  unfold parseKey
  rw [List.drop_left' hpre, List.take_left' hpre, List.drop_left' hpre, List.take_left' hpre,
    strtokR_lead hs]
  cases strtokR sdk.saveAtEnd 0x20 s with
  | none => rfl
  | some tok =>
    cases tok with
    | none => rfl
    | some t =>
      simp only [Option.map_some, Option.bind_eq_bind, Option.bind_some]
      cases copyString t.tok with
      | none => rfl
      | some key => simp [List.drop_left' hpre]

/-- A message with a token has a key. -/
theorem exists_keyAt {sdk : Sdk} {buf : List UInt8} {p : ParsedKey} (h : parseKey sdk buf = some p) :
    ∃ k d rest, KeyAt buf k d rest := by
  unfold parseKey at h
  simp only [Option.bind_eq_bind, Option.bind_eq_some_iff] at h
  obtain ⟨tok, htok, t, rfl, -⟩ := h
  obtain ⟨n, k, d, rest, hsplit, hword, hends⟩ := exists_of_strtokR_eq_some htok
  have hlen : 4 ≤ buf.length := by
    have := congrArg List.length hsplit
    simp only [List.length_drop, List.length_append, List.length_cons] at this
    omega
  refine ⟨k, d, rest, ⟨buf.take 4, n, List.length_take_of_le hlen, ?_⟩, hword, hends⟩
  rw [← hsplit, List.take_append_drop]

section KeyAt

variable {buf k rest : List UInt8} {d : UInt8} (h : KeyAt buf k d rest)

include h

theorem KeyAt.length_le : k.length + rest.length + 5 ≤ buf.length := by
  obtain ⟨pre, n, hpre, rfl⟩ := h.split
  simp only [List.length_append, List.length_cons, hpre]
  omega

/-- The key is read, and what is behind it is left for the value. -/
theorem KeyAt.parseKey_eq (sdk : Sdk) (hlen : k.length + 1 < 2 ^ 32) :
    ∃ cipher, parseKey sdk buf = some ⟨cipher, cstr k, strSize k,
      if d = 0 then sdk.saveAtEnd.pointer (0 :: rest) else some rest⟩ := by
  obtain ⟨pre, n, hpre, rfl⟩ := h.split
  have hhead : (k ++ d :: rest).head? ≠ some 0x20 := by
    obtain ⟨c, k', rfl⟩ := List.exists_cons_of_ne_nil h.word.ne_nil
    have hc := h.word.delim_notMem
    simp only [List.mem_cons, not_or] at hc
    simpa using Ne.symm hc.1
  rw [parseKey_spaces sdk hpre hhead]
  rcases h.ends with rfl | rfl
  · rw [parseKey_word sdk hpre h.word hlen]
    exact ⟨_, rfl⟩
  · rw [parseKey_word_nul sdk hpre h.word hlen]
    exact ⟨_, rfl⟩

omit h in
/-- A value is read if there is a terminator behind the key. -/
theorem exists_parseVal (atEnd : SaveAtEnd) (hlen : rest.length + 1 < 2 ^ 32)
    (hval : d = 0x20 ∧ 0 ∈ rest ∨ d = 0 ∧ atEnd = .terminator) :
    ∃ v, (0 : UInt8) ∉ v ∧ v.length ≤ rest.length ∧
      parseVal (if d = 0 then atEnd.pointer (0 :: rest) else some rest) =
        some (cstr v, strSize v) := by
  rcases hval with ⟨rfl, hnul⟩ | ⟨rfl, rfl⟩
  · have hsome : strlen rest ≠ none := fun hnone => strlen_eq_none_iff.mp hnone hnul
    obtain ⟨n, hn⟩ := Option.ne_none_iff_exists'.mp hsome
    obtain ⟨v, t, rfl, -, hv⟩ := exists_of_strlen_eq_some hn
    simp only [List.length_append, List.length_cons] at hlen
    exact ⟨v, hv, by simp, copyString_append_nul hv (by omega)⟩
  · refine ⟨[], by simp, by simp, ?_⟩
    exact @copyString_append_nul [] rest (by simp) (by simp)

/-- A value is read only then. -/
theorem KeyAt.terminator_of_parseVal {atEnd : SaveAtEnd} {val : List UInt8 × UInt32}
    (hval : parseVal (if d = 0 then atEnd.pointer (0 :: rest) else some rest) = some val) :
    d = 0x20 ∧ 0 ∈ rest ∨ d = 0 ∧ atEnd = .terminator := by
  rcases h.ends with rfl | rfl
  · refine Or.inl ⟨rfl, ?_⟩
    by_contra hnul
    have hnone := strlen_eq_none_iff.mpr hnul
    simp [parseVal, copyString, hnone] at hval
  · cases atEnd with
    | terminator => exact Or.inr ⟨rfl, rfl⟩
    | null => simp [parseVal, SaveAtEnd.pointer] at hval

end KeyAt

/-- A request starts with a command and has a key. -/
theorem IsRequest.keyAt {atEnd : SaveAtEnd} {buf : List UInt8} (h : IsRequest atEnd buf) :
    (Command.get.Starts buf ∨ Command.set.Starts buf ∨ Command.append.Starts buf) ∧
      ∃ k d rest, KeyAt buf k d rest := by
  rcases h with ⟨hstart, hkey⟩ | ⟨hstart, k, d, rest, hkey, -⟩
  · exact ⟨Or.inl hstart, hkey⟩
  · exact ⟨Or.inr hstart, k, d, rest, hkey⟩

/-! ### What a worker serves -/

/-- The message matters to a `GET` only as the reply to a miss. -/
theorem exists_getKeyVal {arg : Arg} {sdk : Sdk} {s : Store} {cipher key : List UInt8}
    {keySize : UInt32} {out : Outcome} (h : getKeyVal arg sdk s cipher key keySize = some out)
    (cipher' : List UInt8) : ∃ out', getKeyVal arg sdk s cipher' key keySize = some out' := by
  unfold getKeyVal at h ⊢
  cases hl : htGetO arg sdk s key keySize with
  | none => simp [hl] at h
  | some l =>
    simp only [hl, Option.bind_eq_bind, Option.bind_some] at h ⊢
    cases hp : l.pair with
    | none => exact ⟨_, rfl⟩
    | some entry =>
      simp only [hp] at h
      exact ⟨out, h⟩

/-- Nor does it to an `APP`. -/
theorem exists_appendKeyVal {arg : Arg} {sdk : Sdk} {s : Store} {cipher key val : List UInt8}
    {keySize valSize : UInt32} {out : Outcome}
    (h : appendKeyVal arg sdk s cipher key keySize val valSize = some out) (cipher' : List UInt8) :
    ∃ out', appendKeyVal arg sdk s cipher' key keySize val valSize = some out' := by
  unfold appendKeyVal at h ⊢
  cases hl : htGetO arg sdk s key keySize with
  | none => simp [hl] at h
  | some l =>
    simp only [hl, Option.bind_eq_bind, Option.bind_some] at h ⊢
    cases hp : l.pair with
    | none => exact ⟨_, rfl⟩
    | some entry =>
      simp only [hp] at h
      exact ⟨out, h⟩

section Requests

variable {arg : Arg} {sdk : Sdk} {s : Store} {rand : Block} {buf : List UInt8}
  (ha : arg.Valid) (hbuf : buf.length = arg.maxBufSize)

include ha hbuf

/-- A message with a value was parsed. -/
theorem isRequest_of_parseVal {p : ParsedKey} {val : List UInt8 × UInt32}
    (hstart : Command.set.Starts buf ∨ Command.append.Starts buf) (hp : parseKey sdk buf = some p)
    (hval : parseVal p.temp = some val) : IsRequest sdk.saveAtEnd buf := by
  obtain ⟨k, d, rest, hkey⟩ := exists_keyAt hp
  have hlt := ha.buf_lt
  have hle := hkey.length_le
  obtain ⟨cipher, hparse⟩ := hkey.parseKey_eq sdk (by omega)
  rw [hp, Option.some.injEq] at hparse
  rw [hparse] at hval
  exact Or.inr ⟨hstart, k, d, rest, hkey, hkey.terminator_of_parseVal hval⟩

/-- A message that a worker serves is a request. -/
theorem isRequest_of_request {out : Outcome} (h : request arg sdk s rand buf = some (some out)) :
    IsRequest sdk.saveAtEnd buf := by
  unfold request at h
  simp only [Option.bind_eq_bind, Option.bind_eq_some_iff] at h
  obtain ⟨c, hc, h⟩ := h
  have hstart := starts_of_command hc
  cases c with
  | get =>
    simp only [Option.bind_eq_some_iff, enclaveGet, Option.bind_eq_bind] at h
    obtain ⟨-, ⟨p, hp, -⟩, -⟩ := h
    exact Or.inl ⟨hstart, exists_keyAt hp⟩
  | set =>
    simp only [Option.bind_eq_some_iff, enclaveSet, Option.bind_eq_bind] at h
    obtain ⟨-, ⟨p, hp, val, hval, -⟩, -⟩ := h
    exact isRequest_of_parseVal ha hbuf (Or.inl hstart) hp hval
  | append =>
    simp only [Option.bind_eq_some_iff, enclaveAppend, Option.bind_eq_bind] at h
    obtain ⟨-, ⟨p, hp, val, hval, -⟩, -⟩ := h
    exact isRequest_of_parseVal ha hbuf (Or.inr hstart) hp hval
  | quit => cases h
  | untyped => cases h

variable {R : Recs} (h : Holds arg sdk R s) (hroom : R.Room arg)
  (hslots : arg.macOpt = true → ∀ b, (R b).length < macSlots)

include h

include hroom in
theorem exists_enclaveGet {k rest : List UInt8} {d : UInt8} (hkey : KeyAt buf k d rest) :
    ∃ out, enclaveGet arg sdk s buf = some out := by
  have hlt := ha.buf_lt
  have hle := hkey.length_le
  have hfits : (Op.get k).Fits arg :=
    ⟨hkey.word, by simp [Op.val], by show k.length + 0 + 5 ≤ _; omega⟩
  obtain ⟨cipher, hparse⟩ := hkey.parseKey_eq sdk (by omega)
  obtain ⟨out, hout, -⟩ := @Holds.served_get arg sdk R s k ha h false 0 hfits hroom
  obtain ⟨out', hout'⟩ := exists_getKeyVal hout cipher
  exact ⟨out', by simp [enclaveGet, hparse, hout']⟩

section Values

variable {k rest : List UInt8} {d : UInt8} (hkey : KeyAt buf k d rest)
  (hval : d = 0x20 ∧ 0 ∈ rest ∨ d = 0 ∧ sdk.saveAtEnd = .terminator)

include hkey hval

include hslots in
variable (rand) in
theorem exists_enclaveSet : ∃ out, enclaveSet arg sdk s rand buf = some out := by
  have hlt := ha.buf_lt
  have hle := hkey.length_le
  obtain ⟨v, hv, hvlen, hparseVal⟩ := exists_parseVal sdk.saveAtEnd (by omega) hval
  obtain ⟨cipher, hparse⟩ := hkey.parseKey_eq sdk (by omega)
  have hfits : (Op.set k v).Fits arg :=
    ⟨hkey.word, hv, by show k.length + v.length + 5 ≤ _; omega⟩
  obtain ⟨out, hout, -⟩ := @Holds.served_set arg sdk R s k ha h v false rand hfits
    fun hopt _ => hslots hopt _
  have hset : setKeyVal arg sdk s rand (cstr k) (strSize k) (cstr v) (strSize v) = some out := hout
  exact ⟨out, by simp [enclaveSet, hparse, hparseVal, hset]⟩

include hroom in
theorem exists_enclaveAppend : ∃ out, enclaveAppend arg sdk s buf = some out := by
  have hlt := ha.buf_lt
  have hle := hkey.length_le
  obtain ⟨v, hv, hvlen, hparseVal⟩ := exists_parseVal sdk.saveAtEnd (by omega) hval
  obtain ⟨cipher, hparse⟩ := hkey.parseKey_eq sdk (by omega)
  have hfits : (Op.append k v).Fits arg :=
    ⟨hkey.word, hv, by show k.length + v.length + 5 ≤ _; omega⟩
  -- the value that is there fits a message, and so does the one that came
  have hrevise : ∀ r ∈ R (htHash arg (cstr k)), r.key = k → (r.revise (· ++ v)).Fits := by
    intro r hr hrk
    have hr' := h.fits _ r hr
    have hold := hroom.vals _ r hr
    refine ⟨hr'.word, by simpa [Rec.revise] using ⟨hr'.val_nul, hv⟩, ?_⟩
    show r.key.length + (r.val ++ v).length + 27 < 2 ^ 32
    rw [hrk, List.length_append]
    omega
  obtain ⟨out, hout, -⟩ := @Holds.served_append arg sdk R s k ha h v false 0 hfits hrevise
  obtain ⟨out', hout'⟩ := exists_appendKeyVal hout cipher
  exact ⟨out', by simp [enclaveAppend, hparse, hparseVal, hout']⟩

end Values

include hroom hslots in
/-- **The messages that a worker serves**, with records that have room for one more. -/
theorem exists_request_iff :
    (∃ out, request arg sdk s rand buf = some (some out)) ↔ IsRequest sdk.saveAtEnd buf := by
  refine ⟨fun ⟨out, hout⟩ => isRequest_of_request ha hbuf hout, ?_⟩
  rintro (⟨hstart, k, d, rest, hkey⟩ | ⟨hstart | hstart, k, d, rest, hkey, hval⟩)
  · obtain ⟨out, hout⟩ := exists_enclaveGet ha hbuf h hroom hkey
    exact ⟨out, by simp [request, command_of_starts (by decide) (by decide) hstart, hout]⟩
  · obtain ⟨out, hout⟩ := exists_enclaveSet rand ha hbuf h hslots hkey hval
    exact ⟨out, by simp [request, command_of_starts (by decide) (by decide) hstart, hout]⟩
  · obtain ⟨out, hout⟩ := exists_enclaveAppend ha hbuf h hroom hkey hval
    exact ⟨out, by simp [request, command_of_starts (by decide) (by decide) hstart, hout]⟩

end Requests

/-! ### What the server answers -/

section Server

variable {arg : Arg} {sdk : Sdk} {st : Server} {params : EcallParams}

/-- A worker that answers has served the job it took. -/
theorem exists_request_of_execute {i i' : ℕ} {job job' : Job} {cipher : List UInt8} {sock : ℤ}
    {st' : Server} {log : List Event} (hworker : st.worker[i]? = some (.took job))
    (h : execute arg sdk st i = some (st', log.map Seen.event ++ [.answered i' job' cipher sock])) :
    ∃ out, request arg sdk st.store job.rand job.buf = some (some out) := by
  unfold execute at h
  simp only [hworker, Option.bind_eq_bind, Option.bind_eq_some_iff] at h
  obtain ⟨c, -, h⟩ := h
  have hserved : ((request arg sdk st.store job.rand job.buf).bind fun r => r.bind fun out =>
      some ({ st with store := out.store, worker := st.worker.set i (.replied job) },
        out.log.map Seen.event ++ [.answered i job out.cipher job.clientSock])) =
        some (st', log.map Seen.event ++ [.answered i' job' cipher sock]) →
      ∃ out, request arg sdk st.store job.rand job.buf = some (some out) := by
    intro hbind
    obtain ⟨r, hr, hbind⟩ := Option.bind_eq_some_iff.mp hbind
    obtain ⟨out, rfl, -⟩ := Option.bind_eq_some_iff.mp hbind
    exact ⟨out, hr⟩
  cases c with
  | get => exact hserved h
  | set => exact hserved h
  | append => exact hserved h
  | quit =>
    -- the quit job is popped, with no answer
    have hpop : st.pop i .returned = some (st', log.map Seen.event ++ [.answered i' job' cipher sock]) := h
    unfold Server.pop at hpop
    split at hpop
    · rw [Option.some.injEq, Prod.mk.injEq] at hpop
      exact absurd (congrArg List.getLast? hpop.2) (by simp)
    · cases hpop
  | untyped =>
    -- all there is to see is a line of the log
    have hleft : some ({ st with worker := st.worker.set i .returned },
        [Seen.event (.print .untypedRequest)]) =
          some (st', log.map Seen.event ++ [.answered i' job' cipher sock]) := h
    rw [Option.some.injEq, Prod.mk.injEq] at hleft
    exact absurd (congrArg List.getLast? hleft.2) (by simp)

/-- What comes of a message that is no `EXIT`. -/
theorem enclaveMessagePass_cases (hlen : params.buf.length = arg.maxBufSize)
    (hexit : ¬ Starts ['E', 'X', 'I', 'T'] ['e', 'x', 'i', 't'] params.buf) {st' : Server}
    {seen : List Seen} (h : enclaveMessagePass arg sdk st params = some (st', seen)) :
    letters ['L', 'O', 'A', 'D', 'D', 'O', 'N', 'E'] <+: params.buf ∨
      ∃ i, st.push i params.buf params.clientSock params.rand = some (st', seen) := by
  unfold enclaveMessagePass at h
  simp only [Option.bind_eq_bind, Option.bind_eq_some_iff] at h
  obtain ⟨exit, hstart, h⟩ := h
  cases exit with
  | true => exact absurd (starts_of_startsWith (by decide) (by decide) hstart) hexit
  | false =>
    simp only [Bool.false_eq_true, if_false, Option.bind_eq_some_iff] at h
    obtain ⟨loadDone, hload, h⟩ := h
    cases loadDone with
    | true => exact Or.inl (isPrefix_of_strncmp_lit (by decide) (by decide) hload)
    | false =>
      simp only [Bool.false_eq_true, if_false, Option.bind_eq_some_iff] at h
      obtain ⟨buf, hbuf, p, -, i, -, h⟩ := h
      rw [memcpy_copy hlen, Option.some.injEq] at hbuf
      exact Or.inr ⟨i, hbuf ▸ h⟩

/-- A request goes to the queue of its key's worker. -/
theorem enclaveMessagePass_keyAt (ha : arg.Threaded) (hlen : params.buf.length = arg.maxBufSize)
    {k rest : List UInt8} {d : UInt8} (hkey : KeyAt params.buf k d rest)
    (hstart : Command.get.Starts params.buf ∨ Command.set.Starts params.buf ∨
      Command.append.Starts params.buf) :
    enclaveMessagePass arg sdk st params =
      st.push (keyThread arg k) params.buf params.clientSock params.rand := by
  have hlt := ha.buf_lt
  have hle := hkey.length_le
  -- the first letter tells the command from the messages that are no requests
  obtain ⟨c, t, hbuf, hE, he, hL⟩ :
      ∃ c t, params.buf = c :: t ∧ c ≠ 0x45 ∧ c ≠ 0x65 ∧ c ≠ 0x4c := by
    rcases hstart with (⟨t, ht⟩ | ⟨t, ht⟩) | (⟨t, ht⟩ | ⟨t, ht⟩) | (⟨t, ht⟩ | ⟨t, ht⟩) <;>
      exact ⟨_, _, ht.symm, by decide, by decide, by decide⟩
  have hexit : startsWith params.buf (lit ['E', 'X', 'I', 'T']) (lit ['e', 'x', 'i', 't']) 4 =
      some false := by
    have hupper : strncmp (c :: t) (lit ['E', 'X', 'I', 'T']) 4 = some false := strncmp_of_ne hE _ _ _
    have hlower : strncmp (c :: t) (lit ['e', 'x', 'i', 't']) 4 = some false := strncmp_of_ne he _ _ _
    rw [hbuf, startsWith, hupper, hlower]
    rfl
  have hload : strncmp params.buf (lit ['L', 'O', 'A', 'D', 'D', 'O', 'N', 'E']) 8 = some false := by
    rw [hbuf]
    exact strncmp_of_ne hL _ _ _
  have hcopy := memcpy_copy hlen
  obtain ⟨cipher, hparse⟩ := hkey.parseKey_eq sdk (by omega)
  unfold enclaveMessagePass
  simp only [hexit, hload, hcopy, hparse, threadId_cstr ha, Option.bind_eq_bind, Option.bind_some,
    Bool.false_eq_true, if_false]

/-- A load that is done is answered at once. -/
theorem enclaveMessagePass_loadDone
    (h : letters ['L', 'O', 'A', 'D', 'D', 'O', 'N', 'E'] <+: params.buf) :
    enclaveMessagePass arg sdk st params = some (st, [.event (.print .loadProcessDone),
      .messageReturn params.buf params.clientSock]) := by
  obtain ⟨t, ht⟩ := h
  simp [enclaveMessagePass, ← ht, letters, startsWith, strncmp, lit]

section Idle

variable (hidle : st.Idle arg) {i : ℕ} {buf : List UInt8} {sock : ℤ} {rand : Block}

include hidle

theorem Server.Idle.lt_of_push {r : Server × List Seen} (h : st.push i buf sock rand = some r) :
    i < arg.numThreads := by
  by_contra hi
  have hnone : st.queue[i]? = none := by
    rw [hidle.queue]
    simpa using hi
  simp [Server.push, hnone] at h

variable (hi : i < arg.numThreads)

include hi

theorem Server.Idle.push_eq : st.push i buf sock rand =
    some ({ st with queue := st.queue.set i [⟨st.allocs, buf, sock, rand⟩], allocs := st.allocs + 1 },
      [.pushed i ⟨st.allocs, buf, sock, rand⟩]) := by
  have hqueue : st.queue[i]? = some [] := by
    rw [hidle.queue]
    simp [hi]
  simp [Server.push, hqueue]

/-- A worker takes the job that was pushed. -/
theorem Server.Idle.takeFront_eq (job : Job) :
    takeFront { st with queue := st.queue.set i [job], allocs := st.allocs + 1 } i =
      st.jobTaken i job := by
  have hworker : st.worker[i]? = some .ready := by
    rw [hidle.worker]
    simp [hi]
  have hqueue : (st.queue.set i [job])[i]? = some [job] := by
    rw [hidle.queue]
    simp [hi]
  simp only [takeFront, hworker, hqueue, Server.jobTaken]

theorem Server.Idle.worker_jobTaken (job : Job) :
    (st.jobTaken i job).worker[i]? = some (.took job) := by
  rw [Server.jobTaken, hidle.worker]
  simp [hi]

/-- The worker has popped the job it answered. -/
theorem Server.Idle.popFront_eq (job : Job) (store : Store) :
    popFront { st.jobTaken i job with
        store, worker := (st.jobTaken i job).worker.set i (.replied job) } i =
      some ({ st with store, allocs := st.allocs + 1 }, [.popped i job]) := by
  have hqueue : st.queue.set i [] = st.queue := by
    rw [hidle.queue, List.set_replicate_self]
  have hworker : st.worker.set i .ready = st.worker := by
    rw [hidle.worker, List.set_replicate_self]
  have hlen : i < st.worker.length ∧ i < st.queue.length := by
    rw [hidle.worker, hidle.queue]
    simp [hi]
  simp [popFront, Server.pop, Server.jobTaken, hlen, hqueue, hworker]

end Idle

/-- A message for a worker that can serve it is answered. -/
theorem responds_of_request (hidle : st.Idle arg) {i : ℕ} (hi : i < arg.numThreads)
    (hpass : enclaveMessagePass arg sdk st params =
      st.push i params.buf params.clientSock params.rand)
    {out : Outcome} (hout : request arg sdk st.store params.rand params.buf = some (some out)) :
    Responds arg sdk st params := by
  let job : Job := ⟨st.allocs, params.buf, params.clientSock, params.rand⟩
  rw [hidle.push_eq hi] at hpass
  have hexec := execute_of_request (hidle.worker_jobTaken hi job) hout
  refine Or.inr ⟨i, job, out.cipher, { st with store := out.store, allocs := st.allocs + 1 },
    out.log, ?_, hidle.queue, hidle.worker⟩
  simp only [run_cons_eq_some_iff, run_nil, serverStep]
  exact ⟨_, hpass, _, congrArg (fun s => some (s, [])) (hidle.takeFront_eq hi job), _, hexec, _,
    hidle.popFront_eq hi job out.store, rfl⟩

/-- A message that a worker answers is one that it can serve. -/
theorem exists_request_of_run (hidle : st.Idle arg) (hlen : params.buf.length = arg.maxBufSize)
    (hexit : ¬ Starts ['E', 'X', 'I', 'T'] ['e', 'x', 'i', 't'] params.buf) {i : ℕ} {job : Job}
    {cipher : List UInt8} {st' : Server} {log : List Event}
    (hrun : run (serverStep arg sdk) st [.pass params, .take i, .exec i, .pop i] =
      some (st', [[.pushed i job], [],
        log.map Seen.event ++ [.answered i job cipher params.clientSock], [.popped i job]])) :
    ∃ out, request arg sdk st.store params.rand params.buf = some (some out) := by
  simp only [run_cons_eq_some_iff, serverStep] at hrun
  obtain ⟨st₁, hpass, st₂, htake, st₃, hexec, -⟩ := hrun
  rcases enclaveMessagePass_cases hlen hexit hpass with hload | ⟨i', hpush⟩
  · -- the responder answers that itself
    rw [enclaveMessagePass_loadDone hload] at hpass
    simp at hpass
  · have hi := hidle.lt_of_push hpush
    rw [hidle.push_eq hi] at hpush
    simp only [Option.some.injEq, Prod.mk.injEq, List.cons.injEq, Seen.pushed.injEq, and_true] at hpush
    -- the job that was pushed is the one that is taken
    obtain ⟨rfl, rfl, rfl⟩ := hpush
    rw [hidle.takeFront_eq hi] at htake
    simp only [Option.some.injEq, Prod.mk.injEq, and_true] at htake
    subst htake
    exact exists_request_of_execute (hidle.worker_jobTaken hi _) hexec

end Server

/-- **The messages that are answered.**  A message other than `EXIT`, sent to a server
whose workers wait and whose records have room for one more, is answered once, with all
workers waiting again, just when it says that a load is done, or is a request whose key
and value end within the buffer. -/
theorem responds_iff_servable {arg : Arg} (sdk : Sdk) (ha : arg.Threaded) {st : Server}
    (hidle : st.Idle arg) {R : Recs} (h : Holds arg sdk R st.store) (hroom : R.Room arg)
    (hslots : arg.macOpt = true → ∀ b, (R b).length < macSlots) {text : List UInt8}
    (htext : text.length ≤ arg.maxBufSize)
    (hexit : ¬ Starts ['E', 'X', 'I', 'T'] ['e', 'x', 'i', 't'] (readBuf arg text)) (sock : ℤ)
    (numClients : ℕ) (rand : Block) :
    Responds arg sdk st ⟨readBuf arg text, sock, numClients, rand⟩ ↔
      Servable sdk.saveAtEnd (readBuf arg text) := by
  have hlen : (readBuf arg text).length = arg.maxBufSize := by
    simp [readBuf, htext]
  constructor
  · rintro (⟨log, hpass⟩ | ⟨i, job, cipher, st', log, hrun, -⟩)
    · rcases enclaveMessagePass_cases hlen hexit hpass with hload | ⟨i, hpush⟩
      · exact Or.inl hload
      · -- a job that is pushed is no answer
        rw [hidle.push_eq (hidle.lt_of_push hpush), Option.some.injEq, Prod.mk.injEq] at hpush
        exact absurd (congrArg List.getLast? hpush.2) (by simp)
    · exact Or.inr ((exists_request_iff ha.toValid hlen h hroom hslots).mp
        (exists_request_of_run hidle hlen hexit hrun))
  · rintro (hload | hreq)
    · exact Or.inl ⟨[.print .loadProcessDone], enclaveMessagePass_loadDone hload⟩
    · obtain ⟨out, hout⟩ := (exists_request_iff ha.toValid hlen h hroom hslots).mpr hreq
      -- the responder finds the key that the worker is going to parse
      obtain ⟨hstart, k, d, rest, hkey⟩ := hreq.keyAt
      exact responds_of_request hidle (keyThread_lt ha k)
        (enclaveMessagePass_keyAt ha hlen hkey hstart) hout

/-- `get   k`, with more spaces than are needed. -/
theorem responds_iff_servable_spaces :
    Responds ⟨1, 32, 1, 1, false, false⟩ Sdk.aes (Server.init ⟨1, 32, 1, 1, false, false⟩)
      ⟨readBuf ⟨1, 32, 1, 1, false, false⟩ (letters ['g', 'e', 't', ' ', ' ', ' ', 'k']), 4, 1, 0⟩ := by
  refine (responds_iff_servable Sdk.aes (by decide) ⟨rfl, rfl⟩ (Holds.init Sdk.aes)
    ⟨by simp [Recs.empty], by simp⟩ (by simp) (by decide) ?_ 4 1 0).mpr ?_
  · unfold Starts
    decide
  · refine Or.inr (Or.inl ⟨Or.inr (by decide), [0x6b], 0, List.replicate 24 0, ?_, by decide, by decide⟩)
    exact ⟨letters ['g', 'e', 't', ' '], 2, by decide, by decide⟩

/-- **Messages that stop the server.**  At `PUT k v` a worker leaves its loop with no
reply, and at `quit k` it returns.  `GET` has no token, and the key of `GET kkk…` has no
end in the buffer, so that the responder reads through a null pointer, or past it. -/
theorem worker_stopped :
    (run (serverStep ⟨1, 32, 1, 1, false, false⟩ Sdk.aes) (Server.init ⟨1, 32, 1, 1, false, false⟩)
        [.pass ⟨readBuf ⟨1, 32, 1, 1, false, false⟩ (letters ['P', 'U', 'T', ' ', 'k', ' ', 'v']), 4, 1, 0⟩,
          .take 0, .exec 0]).map
      (fun r => (r.1.worker, r.1.queue.map List.length, (sentAnswers r.2.flatten).length)) =
        some ([.returned], [1], 0) ∧
    (run (serverStep ⟨1, 32, 1, 1, false, false⟩ Sdk.aes) (Server.init ⟨1, 32, 1, 1, false, false⟩)
        [.pass ⟨readBuf ⟨1, 32, 1, 1, false, false⟩ (letters ['q', 'u', 'i', 't', ' ', 'k']), 4, 1, 0⟩,
          .take 0, .exec 0]).map
      (fun r => (r.1.worker, r.1.queue.map List.length, (sentAnswers r.2.flatten).length)) =
        some ([.returned], [0], 0) ∧
    enclaveMessagePass ⟨1, 32, 1, 1, false, false⟩ Sdk.aes (Server.init ⟨1, 32, 1, 1, false, false⟩)
      ⟨readBuf ⟨1, 32, 1, 1, false, false⟩ (letters ['G', 'E', 'T']), 4, 1, 0⟩ = none ∧
    enclaveMessagePass ⟨1, 32, 1, 1, false, false⟩ Sdk.aes (Server.init ⟨1, 32, 1, 1, false, false⟩)
      ⟨readBuf ⟨1, 32, 1, 1, false, false⟩ (letters ['G', 'E', 'T', ' '] ++ List.replicate 28 0x6b),
        4, 1, 0⟩ = none := by
  refine ⟨?_, ?_, ?_, ?_⟩ <;> decide +kernel

end ShieldStore
