import ShieldStore.Geometry

/-!
# Requests as messages

A client sends a command, a key and, but for `GET`, a value, separated by single
spaces, in a message padded with zeros to `max_buf_size` bytes.  This module says
what the worker parses out of such a message.

## Main definitions

* `Op` — an operation on the store, as the client means it.
* `Req`, `Req.buf` — a request, and the message that carries it.
* `Req.WellFormed` — the key is a word, the value a string, and the text with its
  terminator fits the message.

## Main results

* `command_buf` — the worker takes the branch of the command.
* `parseKey_buf` — it reads the key and the value.
-/

namespace ShieldStore

open Bytes Counter CMem

/-- An operation on the store. -/
inductive Op
  | get (key : List UInt8)
  | set (key val : List UInt8)
  | append (key val : List UInt8)
  deriving DecidableEq

/-- The key of an operation. -/
def Op.key : Op → List UInt8
  | .get k | .set k _ | .append k _ => k

/-- The value of an operation; a `GET` has none. -/
def Op.val : Op → List UInt8
  | .get _ => []
  | .set _ v | .append _ v => v

/-- The group of a key. -/
def keyGroup (arg : Arg) (k : List UInt8) : ℕ := rootIndex arg (htHash arg (cstr k))

/-- The branch the worker takes. -/
def Op.command : Op → Command
  | .get _ => .get
  | .set _ _ => .set
  | .append _ _ => .append

/-- The three letters of the command. -/
def Op.verb (lower : Bool) : Op → List UInt8
  | .get _ => if lower then [0x67, 0x65, 0x74] else [0x47, 0x45, 0x54]
  | .set _ _ => if lower then [0x73, 0x65, 0x74] else [0x53, 0x45, 0x54]
  | .append _ _ => if lower then [0x61, 0x70, 0x70] else [0x41, 0x50, 0x50]

/-- The key is a word, the value a string, and both came in one message. -/
structure Op.Fits (arg : Arg) (op : Op) : Prop where
  word : IsWord 0x20 op.key
  val_nul : (0 : UInt8) ∉ op.val
  length_le : op.key.length + op.val.length + 5 ≤ arg.maxBufSize

theorem Op.Fits.key_lt {arg : Arg} {op : Op} (h : op.Fits arg) :
    op.key.length + 5 ≤ arg.maxBufSize := by
  have := h.length_le
  omega

theorem Op.Fits.val_lt {arg : Arg} {op : Op} (h : op.Fits arg) :
    op.val.length + 1 ≤ arg.maxBufSize := by
  have := h.length_le
  omega

/-- What follows the command and its space. -/
def Op.args : Op → List UInt8
  | .get k => k
  | .set k v | .append k v => k ++ 0x20 :: v

/-- A request: an operation, the case its command is written in, and the counter
block that `sgx_read_rand` delivers if the request inserts. -/
structure Req where
  op : Op
  lower : Bool
  rand : Block
  deriving DecidableEq

/-- The text of a request. -/
def Req.text (q : Req) : List UInt8 := q.op.verb q.lower ++ 0x20 :: q.op.args

/-- The message of a request. -/
def Req.buf (arg : Arg) (q : Req) : List UInt8 :=
  q.text ++ List.replicate (arg.maxBufSize - q.text.length) 0

/-- A request as a client may send it. -/
structure Req.WellFormed (arg : Arg) (q : Req) : Prop where
  word : IsWord 0x20 q.op.key
  val_nul : (0 : UInt8) ∉ q.op.val
  fits : q.text.length + 1 ≤ arg.maxBufSize

instance (arg : Arg) (q : Req) : Decidable (q.WellFormed arg) :=
  decidable_of_iff (IsWord 0x20 q.op.key ∧ (0 : UInt8) ∉ q.op.val ∧
      q.text.length + 1 ≤ arg.maxBufSize)
    ⟨fun ⟨h₁, h₂, h₃⟩ => ⟨h₁, h₂, h₃⟩, fun h => ⟨h.word, h.val_nul, h.fits⟩⟩

@[simp] theorem length_verb (op : Op) (lower : Bool) : (op.verb lower).length = 3 := by
  cases op <;> cases lower <;> rfl

/-! ### Strings out of a message -/

theorem copyString_append_nul {t rest : List UInt8} (ht : (0 : UInt8) ∉ t)
    (hlen : t.length + 1 < 2 ^ 32) : copyString (t ++ 0 :: rest) = some (cstr t, strSize t) := by
  unfold copyString
  have hsize := toNat_strSize hlen
  rw [strlen_append_nul ht]
  simp only [Option.bind_eq_bind, Option.bind_some]
  rw [← strSize, hsize, Nat.add_sub_cancel, memcpy_malloc (by omega) (by simp)]
  simp [cstr, malloc]
  rfl

/-- The key is the word behind the command's four bytes. -/
theorem parseKey_word {pre k : List UInt8} (sdk : Sdk) (hpre : pre.length = 4) (hk : IsWord 0x20 k)
    (hlen : k.length + 1 < 2 ^ 32) (rest : List UInt8) :
    parseKey sdk (pre ++ (k ++ 0x20 :: rest)) =
      some ⟨pre ++ (k ++ 0 :: rest), cstr k, strSize k, some rest⟩ := by
  unfold parseKey
  rw [List.drop_left' hpre, List.take_left' hpre, strtokR_word hk (by decide)]
  simp only [Option.bind_eq_bind, Option.bind_some, copyString_append_nul hk.nul_notMem hlen]
  rfl

/-- The key may also end at the end of the text. -/
theorem parseKey_word_nul {pre k : List UInt8} (sdk : Sdk) (hpre : pre.length = 4)
    (hk : IsWord 0x20 k) (hlen : k.length + 1 < 2 ^ 32) (rest : List UInt8) :
    parseKey sdk (pre ++ (k ++ 0 :: rest)) =
      some ⟨pre ++ (k ++ 0 :: rest), cstr k, strSize k, sdk.saveAtEnd.pointer (0 :: rest)⟩ := by
  unfold parseKey
  rw [List.drop_left' hpre, List.take_left' hpre, strtokR_word_nul hk]
  simp only [Option.bind_eq_bind, Option.bind_some, copyString_append_nul hk.nul_notMem hlen]
  rfl

section WellFormed

variable {arg : Arg} {q : Req} (hq : q.WellFormed arg)

include hq

/-- The zeros behind the text: at least one. -/
theorem Req.WellFormed.replicate_eq :
    List.replicate (arg.maxBufSize - q.text.length) (0 : UInt8)
      = 0 :: List.replicate (arg.maxBufSize - q.text.length - 1) 0 := by
  have h := hq.fits
  rw [← List.replicate_succ]
  congr 1
  omega

theorem Req.WellFormed.length_buf : (q.buf arg).length = arg.maxBufSize := by
  have h := hq.fits
  simp only [Req.buf, List.length_append, List.length_replicate]
  omega

/-- The worker takes the branch of the command. -/
theorem command_buf : command (q.buf arg) = some q.op.command := by
  obtain ⟨op, lower, rand⟩ := q
  cases op <;> cases lower <;>
    simp [Req.buf, Req.text, Op.verb, Op.command, command, startsWith, strncmp, lit]

theorem Req.WellFormed.op_fits : q.op.Fits arg := by
  refine ⟨hq.word, hq.val_nul, ?_⟩
  have h := hq.fits
  obtain ⟨op, lower, rand⟩ := q
  cases op <;> simp [Req.text, Op.args, Op.key, Op.val] at h ⊢ <;> omega

theorem Req.WellFormed.key_lt : q.op.key.length + 5 ≤ arg.maxBufSize := hq.op_fits.key_lt

theorem Req.WellFormed.val_lt : q.op.val.length + 1 ≤ arg.maxBufSize := hq.op_fits.val_lt

end WellFormed

/-- The bytes behind the text of a message. -/
def Req.pad (arg : Arg) (q : Req) : List UInt8 :=
  List.replicate (arg.maxBufSize - q.text.length) 0

/-- The buffer after the key was cut out of it: the space behind the key is
overwritten. -/
def Req.cut (arg : Arg) (q : Req) : List UInt8 :=
  match q.op with
  | .get _ => q.buf arg
  | .set k v | .append k v => (q.op.verb q.lower ++ [0x20]) ++ (k ++ 0 :: (v ++ q.pad arg))

/-- **What is parsed out of a message.**  The key with its size; and, for the
commands that carry one, the value with its size. -/
theorem parseKey_buf {arg : Arg} {q : Req} (sdk : Sdk) (hbuf : arg.maxBufSize < 2 ^ 32)
    (hq : q.WellFormed arg) :
    ∃ temp, parseKey sdk (q.buf arg) =
        some ⟨q.cut arg, cstr q.op.key, strSize q.op.key, temp⟩ ∧
      (q.op.command ≠ .get → parseVal temp = some (cstr q.op.val, strSize q.op.val)) := by
  have hkey := hq.key_lt
  have hval := hq.val_lt
  have hverb : (q.op.verb q.lower ++ [0x20]).length = 4 := by simp
  have hsplit : q.buf arg = (q.op.verb q.lower ++ [0x20]) ++ (q.op.args ++ q.pad arg) := by
    simp [Req.buf, Req.text, Req.pad]
  have hpad : q.pad arg = 0 :: List.replicate (arg.maxBufSize - q.text.length - 1) 0 :=
    hq.replicate_eq
  -- the commands with a value share one argument
  have hput : q.op.args = q.op.key ++ 0x20 :: q.op.val →
      q.cut arg = (q.op.verb q.lower ++ [0x20]) ++ (q.op.key ++ 0 :: (q.op.val ++ q.pad arg)) →
      ∃ temp, parseKey sdk (q.buf arg) =
          some ⟨q.cut arg, cstr q.op.key, strSize q.op.key, temp⟩ ∧
        parseVal temp = some (cstr q.op.val, strSize q.op.val) := by
    intro hargs hcut
    refine ⟨some (q.op.val ++ q.pad arg), ?_, ?_⟩
    · rw [hsplit, hargs, hcut, List.append_assoc (q.op.key), List.cons_append,
        parseKey_word sdk hverb hq.word (by omega)]
    · rw [hpad]
      exact copyString_append_nul hq.val_nul (by omega)
  obtain ⟨op, lower, rand⟩ := q
  cases op with
  | get k =>
    refine ⟨sdk.saveAtEnd.pointer (Req.pad arg ⟨.get k, lower, rand⟩), ?_, fun h => absurd rfl h⟩
    show _ = some (ParsedKey.mk (Req.buf arg ⟨.get k, lower, rand⟩) _ _ _)
    rw [hsplit, hpad]
    exact parseKey_word_nul sdk hverb hq.word (by omega) _
  | set k v =>
    obtain ⟨temp, h₁, h₂⟩ := hput rfl rfl
    exact ⟨temp, h₁, fun _ => h₂⟩
  | append k v =>
    obtain ⟨temp, h₁, h₂⟩ := hput rfl rfl
    exact ⟨temp, h₁, fun _ => h₂⟩

/-! ### Serving a message -/

/-- One request on its message; null for the branches of the worker that serve
none. -/
def serve (arg : Arg) (sdk : Sdk) (s : Store) (q : Req) : Option Outcome :=
  (request arg sdk s q.rand (q.buf arg)).join

/-- The operation a request asks for. -/
def Req.apply (arg : Arg) (sdk : Sdk) (s : Store) (q : Req) : Option Outcome :=
  match q.op with
  | .get k => getKeyVal arg sdk s (q.cut arg) (cstr k) (strSize k)
  | .set k v => setKeyVal arg sdk s q.rand (cstr k) (strSize k) (cstr v) (strSize v)
  | .append k v => appendKeyVal arg sdk s (q.cut arg) (cstr k) (strSize k) (cstr v) (strSize v)

/-- **Serving a well-formed message** is the operation it asks for. -/
theorem serve_eq {arg : Arg} {q : Req} (sdk : Sdk) (ha : arg.Valid) (hq : q.WellFormed arg)
    (s : Store) : serve arg sdk s q = q.apply arg sdk s := by
  obtain ⟨temp, hkey, hval⟩ := parseKey_buf sdk ha.buf_lt_pow hq
  unfold serve request
  rw [command_buf hq]
  obtain ⟨op, lower, rand⟩ := q
  cases op with
  | get k =>
    have hget : enclaveGet arg sdk s (Req.buf arg ⟨.get k, lower, rand⟩) =
        Req.apply arg sdk s ⟨.get k, lower, rand⟩ := by
      unfold enclaveGet
      rw [hkey]
      rfl
    simp only [Op.command, Option.bind_eq_bind, Option.bind_some, hget]
    cases Req.apply arg sdk s ⟨.get k, lower, rand⟩ <;> rfl
  | set k v =>
    have hset : enclaveSet arg sdk s rand (Req.buf arg ⟨.set k v, lower, rand⟩) =
        Req.apply arg sdk s ⟨.set k v, lower, rand⟩ := by
      unfold enclaveSet
      rw [hkey]
      simp only [Option.bind_eq_bind, Option.bind_some, hval (by simp [Op.command])]
      rfl
    simp only [Op.command, Option.bind_eq_bind, Option.bind_some, hset]
    cases Req.apply arg sdk s ⟨.set k v, lower, rand⟩ <;> rfl
  | append k v =>
    have happ : enclaveAppend arg sdk s (Req.buf arg ⟨.append k v, lower, rand⟩) =
        Req.apply arg sdk s ⟨.append k v, lower, rand⟩ := by
      unfold enclaveAppend
      rw [hkey]
      simp only [Option.bind_eq_bind, Option.bind_some, hval (by simp [Op.command])]
      rfl
    simp only [Op.command, Option.bind_eq_bind, Option.bind_some, happ]
    cases Req.apply arg sdk s ⟨.append k v, lower, rand⟩ <;> rfl

end ShieldStore
