import ExprBackend.Dispatch.Table

/-! # Fingerprints of action tables

The fingerprint of an action table is the BLAKE3 digest of its numbered
signatures. The digest cuts its input into chunks of 1024 bytes, each of which
is compressed in blocks of 64 bytes, and joins the chunks in a binary tree whose
left parts are complete.
-/

namespace ExprBackend.Digest

/-- The eight words between compressions. -/
abbrev Chain := Vector UInt32 8

def initial : Chain :=
  #v[0x6A09E667, 0xBB67AE85, 0x3C6EF372, 0xA54FF53A, 0x510E527F, 0x9B05688C, 0x1F83D9AB, 0x5BE0CD19]

/-- The order in which the message words are taken in the next round. -/
def schedule : Vector (Fin 16) 16 := #v[2, 6, 3, 10, 7, 0, 4, 13, 1, 11, 12, 5, 9, 14, 15, 8]

def rotate (w : UInt32) (n : UInt32) : UInt32 := (w >>> n) ||| (w <<< (32 - n))

/-- Mixes two message words into four words of the state. -/
def mix (s : Vector UInt32 16) (a b c d : Fin 16) (x y : UInt32) : Vector UInt32 16 :=
  let va := s[a] + s[b] + x
  let vd := rotate (s[d] ^^^ va) 16
  let vc := s[c] + vd
  let vb := rotate (s[b] ^^^ vc) 12
  let va := va + vb + y
  let vd := rotate (vd ^^^ va) 8
  let vc := vc + vd
  let vb := rotate (vb ^^^ vc) 7
  (((s.set a va).set b vb).set c vc).set d vd

/-- Mixes a message into the state: first the columns, then the diagonals. -/
def round (s m : Vector UInt32 16) : Vector UInt32 16 :=
  let s := mix s 0 4 8 12 m[0] m[1]
  let s := mix s 1 5 9 13 m[2] m[3]
  let s := mix s 2 6 10 14 m[4] m[5]
  let s := mix s 3 7 11 15 m[6] m[7]
  let s := mix s 0 5 10 15 m[8] m[9]
  let s := mix s 1 6 11 12 m[10] m[11]
  let s := mix s 2 7 8 13 m[12] m[13]
  mix s 3 4 9 14 m[14] m[15]

def rounds : Nat → Vector UInt32 16 → Vector UInt32 16 → Vector UInt32 16
  | 0, s, _ => s
  | n + 1, s, m => rounds n (round s m) (schedule.map (m[·]))

def chunkStart : UInt32 := 1

def chunkEnd : UInt32 := 2

def parent : UInt32 := 4

def root : UInt32 := 8

structure Block where
  chain : Chain
  message : Vector UInt32 16
  counter : UInt64
  length : UInt32
  flags : UInt32

def Block.compress (b : Block) : Chain :=
  let low := b.counter.toUInt32
  let high := (b.counter >>> 32).toUInt32
  let s := rounds 7
    #v[b.chain[0], b.chain[1], b.chain[2], b.chain[3], b.chain[4], b.chain[5], b.chain[6],
      b.chain[7], initial[0], initial[1], initial[2], initial[3], low, high, b.length, b.flags]
    b.message
  Vector.ofFn fun (i : Fin 8) => s[i.val] ^^^ s[i.val + 8]

/-- The words of at most 64 bytes, the lowest byte first, with zeros behind them. -/
def messageOf (bytes : List UInt8) : Vector UInt32 16 :=
  let padded := bytes.toArray
  let byte (i : Nat) : UInt32 := (padded[i]?.getD 0).toUInt32
  Vector.ofFn fun (i : Fin 16) =>
    byte (4 * i) ||| (byte (4 * i + 1) <<< 8) ||| (byte (4 * i + 2) <<< 16)
      ||| (byte (4 * i + 3) <<< 24)

/-- The last block of a chunk, after the blocks before it have been compressed. -/
def chunkBlocks (counter : UInt64) : (tries : Nat) → (chain : Chain) → (start : UInt32) →
    (bytes : List UInt8) → Block
  | 0, chain, start, bytes =>
    ⟨chain, messageOf bytes, counter, bytes.length.toUInt32, start ||| chunkEnd⟩
  | tries + 1, chain, start, bytes =>
    if bytes.length ≤ 64 then
      ⟨chain, messageOf bytes, counter, bytes.length.toUInt32, start ||| chunkEnd⟩
    else
      let block : Block := ⟨chain, messageOf (bytes.take 64), counter, 64, start⟩
      chunkBlocks counter tries block.compress 0 (bytes.drop 64)

def chunkBlock (counter : UInt64) (bytes : List UInt8) : Block :=
  chunkBlocks counter 16 initial chunkStart bytes

def join (left right : Chain) : Block :=
  ⟨initial, Vector.ofFn fun (i : Fin 16) => if h : i.val < 8 then left[i.val] else right[i.val - 8],
    0, 64, parent⟩

/-- The number of bytes in the left part of more than one chunk: as many complete chunks as the
largest power of two that leaves something for the right part. -/
def leftSize (size : Nat) : Nat := 1024 * Nat.pow 2 (Nat.log2 ((size - 1) / 1024))

/-- The last block of a tree over bytes, whose first chunk has the given number. -/
def tree : (height : Nat) → (counter : UInt64) → (bytes : List UInt8) → Block
  | 0, counter, bytes => chunkBlock counter bytes
  | height + 1, counter, bytes =>
    if bytes.length ≤ 1024 then chunkBlock counter bytes
    else
      let size := leftSize bytes.length
      let left := tree height counter (bytes.take size)
      let right := tree height (counter + (size / 1024).toUInt64) (bytes.drop size)
      join left.compress right.compress

def wordBytes (w : UInt32) : List UInt8 :=
  [w.toUInt8, (w >>> 8).toUInt8, (w >>> 16).toUInt8, (w >>> 24).toUInt8]

def digest (bytes : List UInt8) : List UInt8 :=
  let last := tree 64 0 bytes
  ({ last with flags := last.flags ||| root }).compress.toList.flatMap wordBytes

end ExprBackend.Digest

namespace ExprBackend.ActionTable

/-- The bytes that the fingerprint is a digest of: each number and signature, with a zero byte after
both. -/
def fingerprintInput (t : ActionTable) : List UInt8 :=
  t.actions.toList.zipIdx.flatMap fun (action, i) =>
    Text.ofNat (i + 1) ++ [0] ++ action.signature ++ [0]

def fingerprint (t : ActionTable) : List UInt8 := Digest.digest t.fingerprintInput

end ExprBackend.ActionTable
