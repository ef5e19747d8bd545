import ShieldStore.Lib.Counter

/-!
# AES-128, counter mode and CMAC

The block cipher, encryption direction, on bytes held as natural numbers below
256; counter mode with a counter confined to the low bits of the block; and the
block cipher's message authentication code.  Everything is executable by the
kernel, so that a closed statement about a ciphertext or a tag can be decided.

## Main definitions

* `encryptBlock` — AES-128 of one block.
* `ctrCrypt` — counter mode; decryption is the same function.
* `cmac` — AES-CMAC of a byte string.

## Main results

* `length_ctrCrypt`, `ctrCrypt_ctrCrypt` — counter mode keeps the length and
  undoes itself.
-/

namespace Aes

open Bytes Counter

/-! ### The block cipher -/

/-- The rows of the S-box, sixteen bytes each. -/
def sboxRows : List ℕ := [
  0x637c777bf26b6fc53001672bfed7ab76, 0xca82c97dfa5947f0add4a2af9ca472c0,
  0xb7fd9326363ff7cc34a5e5f171d83115, 0x04c723c31896059a071280e2eb27b275,
  0x09832c1a1b6e5aa0523bd6b329e32f84, 0x53d100ed20fcb15b6acbbe394a4c58cf,
  0xd0efaafb434d338545f9027f503c9fa8, 0x51a3408f929d38f5bcb6da2110fff3d2,
  0xcd0c13ec5f974417c4a77e3d645d1973, 0x60814fdc222a908846eeb814de5e0bdb,
  0xe0323a0a4906245cc2d3ac629195e479, 0xe7c8376d8dd54ea96c56f4ea657aae08,
  0xba78252e1ca6b4c6e8dd741f4bbd8b8a, 0x703eb5664803f60e613557b986c11d9e,
  0xe1f8981169d98e949b1e87e9ce5528df, 0x8ca1890dbfe6426841992d0fb054bb16]

/-- The S-box: the low half of the byte picks the column of its row. -/
def subByte (x : ℕ) : ℕ := sboxRows.getD (x / 16) 0 / 2 ^ (8 * (15 - x % 16)) % 256

/-- Multiplication by `x` in the field of 256 elements. -/
def xtime (x : ℕ) : ℕ := if x < 128 then 2 * x else (2 * x - 256) ^^^ 0x1b

/-- Bytewise exclusive or. -/
def xorBytes (a b : List ℕ) : List ℕ := List.zipWith (· ^^^ ·) a b

/-- The state column by column, each column multiplied by the fixed polynomial. -/
def mixColumns : List ℕ → List ℕ
  | a :: b :: c :: d :: rest =>
      (xtime a ^^^ xtime b ^^^ b ^^^ c ^^^ d) :: (a ^^^ xtime b ^^^ xtime c ^^^ c ^^^ d) ::
        (a ^^^ b ^^^ xtime c ^^^ xtime d ^^^ d) :: (xtime a ^^^ a ^^^ b ^^^ c ^^^ xtime d) ::
          mixColumns rest
  | _ => []

/-- Row `r` of the state rotated left by `r`; the state is stored by columns. -/
def shiftRows : List ℕ → List ℕ
  | [a0, a1, a2, a3, b0, b1, b2, b3, c0, c1, c2, c3, d0, d1, d2, d3] =>
      [a0, b1, c2, d3, b0, c1, d2, a3, c0, d1, a2, b3, d0, a1, b2, c3]
  | s => s

/-- The next round key. -/
def nextKey (rcon : ℕ) : List ℕ → List ℕ
  | [a0, a1, a2, a3, b0, b1, b2, b3, c0, c1, c2, c3, d0, d1, d2, d3] =>
      let w0 := [a0 ^^^ subByte d1 ^^^ rcon, a1 ^^^ subByte d2, a2 ^^^ subByte d3, a3 ^^^ subByte d0]
      let w1 := xorBytes [b0, b1, b2, b3] w0
      let w2 := xorBytes [c0, c1, c2, c3] w1
      let w3 := xorBytes [d0, d1, d2, d3] w2
      w0 ++ w1 ++ w2 ++ w3
  | k => k

/-- The rounds, one for each remaining round constant; the last does not mix columns. -/
def rounds : List ℕ → List ℕ → List ℕ → List ℕ
  | [], _, s => s
  | [rc], k, s => xorBytes (shiftRows (s.map subByte)) (nextKey rc k)
  | rc :: rcs, k, s =>
      let k' := nextKey rc k
      rounds rcs k' (xorBytes (mixColumns (shiftRows (s.map subByte))) k')

/-- AES-128 of one block. -/
def encryptBlock (key : List UInt8) (b : Block) : Block :=
  let k := key.map UInt8.toNat
  let s := (blockBytes b).map UInt8.toNat
  let out := rounds [1, 2, 4, 8, 16, 32, 64, 128, 27, 54] k (xorBytes s k)
  BitVec.ofNat 128 (out.foldl (fun acc x => 256 * acc + x) 0)

/-- The worked example of the cipher's standard. -/
example : encryptBlock
      [0x2b, 0x7e, 0x15, 0x16, 0x28, 0xae, 0xd2, 0xa6, 0xab, 0xf7, 0x15, 0x88, 0x09, 0xcf, 0x4f, 0x3c]
      0x3243f6a8885a308d313198a2e0370734#128 = 0x3925841d02dc09fbdc118597196a0b32#128 := by
  decide +kernel

/-! ### Counter mode -/

/-- The key stream of `b` counter blocks from `ctr` on. -/
def keyStream (key : List UInt8) (ctr : Block) (w b : ℕ) : List UInt8 :=
  (List.range b).flatMap fun i => blockBytes (encryptBlock key (ctrAdd w i ctr))

/-- Counter mode with the counter in the low `w` bits: the text, and the next
counter block. -/
def ctrCrypt (key : List UInt8) (src : List UInt8) (ctr : Block) (w : ℕ) : List UInt8 × Block :=
  (List.zipWith (· ^^^ ·) src (keyStream key ctr w (numBlocks src.length)),
    ctrAdd w (numBlocks src.length) ctr)

theorem length_keyStream (key : List UInt8) (ctr : Block) (w b : ℕ) :
    (keyStream key ctr w b).length = 16 * b := by
  unfold keyStream
  rw [length_flatMap_of_width (w := 16) (fun _ => length_blockBytes _), List.length_range]

@[simp] theorem length_ctrCrypt (key src : List UInt8) (ctr : Block) (w : ℕ) :
    (ctrCrypt key src ctr w).1.length = src.length := by
  simp only [ctrCrypt, List.length_zipWith, length_keyStream]
  unfold numBlocks
  omega

theorem zipWith_xor_zipWith_xor : ∀ (src ks : List UInt8), src.length ≤ ks.length →
    List.zipWith (· ^^^ ·) (List.zipWith (· ^^^ ·) src ks) ks = src := by
  intro src
  induction src with
  | nil => intro ks _; rfl
  | cons a src ih =>
    intro ks h
    cases ks with
    | nil => simp at h
    | cons k ks =>
      simp only [List.zipWith_cons_cons, ih ks (by simpa using h), UInt8.xor_assoc, UInt8.xor_self,
        UInt8.xor_zero]

/-- Counter mode from the same counter block undoes itself. -/
theorem ctrCrypt_ctrCrypt (key src : List UInt8) (ctr : Block) (w : ℕ) :
    (ctrCrypt key (ctrCrypt key src ctr w).1 ctr w).1 = src := by
  have hlen : (ctrCrypt key src ctr w).1.length = src.length := length_ctrCrypt key src ctr w
  show List.zipWith _ _ (keyStream key ctr w (numBlocks (ctrCrypt key src ctr w).1.length)) = src
  rw [hlen]
  refine zipWith_xor_zipWith_xor src _ ?_
  rw [length_keyStream]
  unfold numBlocks
  omega

/-! ### CMAC -/

/-- Doubling in the field of the subkeys. -/
def double (b : Block) : Block := if b.msb then (b <<< 1) ^^^ 0x87#128 else b <<< 1

/-- The chain of block encryptions; `last` is the last block, already masked. -/
def cbcMac (key : List UInt8) (last : Block) : List Block → Block → Block
  | [], acc => encryptBlock key (acc ^^^ last)
  | b :: bs, acc => cbcMac key last bs (encryptBlock key (acc ^^^ b))

/-- The first `n` blocks of a byte string. -/
def fullBlocks : ℕ → List UInt8 → List Block
  | 0, _ => []
  | n + 1, msg => blockOfBytes (msg.take 16) :: fullBlocks n (msg.drop 16)

/-- AES-CMAC: the last block is masked with the first subkey when it is full, and
padded and masked with the second when it is not. -/
def cmac (key msg : List UInt8) : Block :=
  let k1 := double (encryptBlock key 0)
  let n := (msg.length - 1) / 16
  let tail := msg.drop (16 * n)
  let last :=
    if tail.length = 16 then blockOfBytes tail ^^^ k1
    else blockOfBytes (tail ++ 0x80 :: List.replicate (15 - tail.length) 0) ^^^ double k1
  cbcMac key last (fullBlocks n msg) 0

/-- The standard's test vector with a message of two and a half blocks. -/
example : cmac
      [0x2b, 0x7e, 0x15, 0x16, 0x28, 0xae, 0xd2, 0xa6, 0xab, 0xf7, 0x15, 0x88, 0x09, 0xcf, 0x4f, 0x3c]
      (blockBytes 0x6bc1bee22e409f96e93d7e117393172a#128 ++
        blockBytes 0xae2d8a571e03ac9c9eb76fac45af8e51#128 ++
          [0x30, 0xc8, 0x1c, 0x46, 0xa3, 0x5c, 0xe4, 0x11])
      = 0xdfa66747de9ae63030ca32611497c827#128 := by
  decide +kernel

end Aes
