/-!
# The BLAKE3 hash

The unkeyed hash of a list of bytes, with its standard output of 32 bytes. The input is cut into
chunks of 1024 bytes, the leaves of a binary tree whose left parts are full; a node is kept as the
arguments of its last compression, because only the root's compression carries the root mark.
-/

namespace BlockDocument.Hash.Blake3

-- Powers are those of the core library, whatever else is imported.
attribute [local instance (high)] instPowNat

/-- Sixteen words: a state, or a block of the message. -/
abbrev Words := Vector UInt32 16

/-- The eight words that one compression hands to the next. -/
abbrev Chain := Vector UInt32 8

/-- The first chain of every chunk. -/
def seed : Chain :=
  #v[0x6A09E667, 0xBB67AE85, 0x3C6EF372, 0xA54FF53A, 0x510E527F, 0x9B05688C, 0x1F83D9AB, 0x5BE0CD19]

/-- Marks the first block of a chunk. -/
def chunkStart : UInt32 := 1

/-- Marks the last block of a chunk. -/
def chunkEnd : UInt32 := 2

/-- Marks a node above the chunks. -/
def parentNode : UInt32 := 4

/-- Marks the last compression of the hash. -/
def rootNode : UInt32 := 8

/-- Bytes in a block. -/
def blockSize : Nat := 64

/-- Bytes in a chunk. -/
def chunkSize : Nat := 1024

/-- Turns a word to the right by `n` bits. -/
def rotate (x : UInt32) (n : UInt32) : UInt32 := (x >>> n) ||| (x <<< (32 - n))

/-- The quarter round: mixes two words of the message into four words of the state. -/
def mix (s : Words) (a b c d : Fin 16) (x y : UInt32) : Words :=
  let va := s[a] + s[b] + x
  let vd := rotate (s[d] ^^^ va) 16
  let vc := s[c] + vd
  let vb := rotate (s[b] ^^^ vc) 12
  let va := va + vb + y
  let vd := rotate (vd ^^^ va) 8
  let vc := vc + vd
  let vb := rotate (vb ^^^ vc) 7
  (((s.set a va).set b vb).set c vc).set d vd

/-- One round: the four columns, then the four diagonals. -/
def round (s m : Words) : Words :=
  let s := mix s 0 4 8 12 m[0] m[1]
  let s := mix s 1 5 9 13 m[2] m[3]
  let s := mix s 2 6 10 14 m[4] m[5]
  let s := mix s 3 7 11 15 m[6] m[7]
  let s := mix s 0 5 10 15 m[8] m[9]
  let s := mix s 1 6 11 12 m[10] m[11]
  let s := mix s 2 7 8 13 m[12] m[13]
  mix s 3 4 9 14 m[14] m[15]

/-- The order in which a round reads the words of the round before. -/
def permute (m : Words) : Words :=
  #v[m[2], m[6], m[3], m[10], m[7], m[0], m[4], m[13], m[1], m[11], m[12], m[5], m[9], m[14], m[15],
    m[8]]

/-- Some rounds, the message permuted between them. -/
def rounds : Nat → Words → Words → Words
  | 0, s, _ => s
  | n + 1, s, m => rounds n (round s m) (permute m)

/-- The arguments of a compression. -/
structure Node where
  chain : Chain
  block : Words
  counter : UInt64
  length : UInt32
  flags : UInt32

/-- The chain that comes out of a compression of seven rounds. -/
def Node.compress (n : Node) (flags : UInt32) : Chain :=
  let h := n.chain
  let s : Words :=
    #v[h[0], h[1], h[2], h[3], h[4], h[5], h[6], h[7], seed[0], seed[1], seed[2], seed[3],
      n.counter.toUInt32, (n.counter >>> 32).toUInt32, n.length, n.flags ||| flags]
  let s := rounds 7 s n.block
  #v[s[0] ^^^ s[8], s[1] ^^^ s[9], s[2] ^^^ s[10], s[3] ^^^ s[11], s[4] ^^^ s[12], s[5] ^^^ s[13],
    s[6] ^^^ s[14], s[7] ^^^ s[15]]

/-- The word that four bytes form, the least byte first. -/
def word (b₀ b₁ b₂ b₃ : UInt8) : UInt32 :=
  b₀.toUInt32 ||| (b₁.toUInt32 <<< 8) ||| (b₂.toUInt32 <<< 16) ||| (b₃.toUInt32 <<< 24)

/-- The words of at most 64 bytes, filled up with zeros. -/
def blockWords (bytes : List UInt8) : Words :=
  Vector.ofFn fun i : Fin 16 =>
    word (bytes.getD (4 * i.val) 0) (bytes.getD (4 * i.val + 1) 0) (bytes.getD (4 * i.val + 2) 0)
      (bytes.getD (4 * i.val + 3) 0)

/-- The last compression of a chunk, from a block on. -/
def chunkNode (counter : UInt64) (chain : Chain) (flags : UInt32) (bytes : List UInt8) : Node :=
  if bytes.length ≤ blockSize then
    ⟨chain, blockWords bytes, counter, bytes.length.toUInt32, flags ||| chunkEnd⟩
  else
    let block : Node := ⟨chain, blockWords (bytes.take blockSize), counter, 64, flags⟩
    chunkNode counter (block.compress 0) 0 (bytes.drop blockSize)
termination_by bytes.length
decreasing_by simp [blockSize] at *; omega

/-- The node above two others. -/
def parent (left right : Chain) : Node :=
  ⟨seed, (left ++ right : Vector UInt32 (8 + 8)), 0, 64, parentNode⟩

/-- The bytes of the left part of a node: the chunks are a power of two, as many as leave a byte for
the right part. -/
def leftSize (length : Nat) : Nat := chunkSize * 2 ^ ((length - 1) / chunkSize).log2

theorem leftSize_pos (length : Nat) : 0 < leftSize length :=
  Nat.mul_pos (by decide) (Nat.two_pow_pos _)

/-- The node of some bytes, which start at the chunk with the given number. -/
def tree (counter : UInt64) (bytes : List UInt8) : Node :=
  if h : bytes.length ≤ chunkSize then chunkNode counter seed chunkStart bytes
  else
    let size := leftSize bytes.length
    have hlt : size < bytes.length := by
      have hpos : 0 < (bytes.length - 1) / chunkSize := Nat.div_pos (by omega) (by decide)
      have hle := Nat.log2_self_le (Nat.pos_iff_ne_zero.1 hpos)
      have hmul : chunkSize * ((bytes.length - 1) / chunkSize) ≤ bytes.length - 1 :=
        Nat.mul_div_le _ _
      have : size ≤ chunkSize * ((bytes.length - 1) / chunkSize) := Nat.mul_le_mul_left _ hle
      omega
    have hpos := leftSize_pos bytes.length
    let left := tree counter (bytes.take size)
    let right := tree (counter + (size / chunkSize).toUInt64) (bytes.drop size)
    parent (left.compress 0) (right.compress 0)
termination_by bytes.length
decreasing_by
  · simp only [List.length_take]; omega
  · simp only [List.length_drop]; omega

/-- The bytes of a word, the least first. -/
def wordBytes (x : UInt32) : List UInt8 :=
  [x.toUInt8, (x >>> 8).toUInt8, (x >>> 16).toUInt8, (x >>> 24).toUInt8]

/-- The 32 bytes of the hash. -/
def hash (bytes : List UInt8) : List UInt8 :=
  ((tree 0 bytes).compress rootNode).toList.flatMap wordBytes

end BlockDocument.Hash.Blake3
