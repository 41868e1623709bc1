/-!
# The BLAKE3 hash

The digest of a sequence of bytes. The input is cut into chunks of 1024 bytes and these into blocks
of 64. The blocks of a chunk are compressed one after the other; the chunks are the leaves of a
binary tree whose left subtrees are full. The root is compressed with a flag of its own.

## Main definitions

* `Blake3.compress`: the compression function.
* `Blake3.Node`: a compression that is still to be made.
* `Blake3.root`: the root of the tree over an input.
* `Blake3.hex`: the digest of an input in hexadecimal.
-/

namespace Covenant.Blake3

/-- Sixteen words: a block, or the state of a compression. -/
abbrev Words := Vector UInt32 16

/-- Eight words that stand for all input below a node. -/
abbrev Chain := Vector UInt32 8

/-- The chain that every chunk and every inner node begins with. -/
def initial : Chain :=
  #v[0x6a09e667, 0xbb67ae85, 0x3c6ef372, 0xa54ff53a, 0x510e527f, 0x9b05688c, 0x1f83d9ab, 0x5be0cd19]

/-- The order in which the words of a block are taken in the next round. -/
def schedule : Vector (Fin 16) 16 :=
  #v[2, 6, 3, 10, 7, 0, 4, 13, 1, 11, 12, 5, 9, 14, 15, 8]

/-! ### Compression -/

/-- A word turned right by some bits. -/
def rotate (w : UInt32) (bits : UInt32) : UInt32 :=
  (w >>> bits) ||| (w <<< (32 - bits))

/-- Mixes two words of a block into four words of the state. -/
def mix (v : Words) (a b c d : Fin 16) (x y : UInt32) : Words :=
  let v := v.set a (v[a] + v[b] + x)
  let v := v.set d (rotate (v[d] ^^^ v[a]) 16)
  let v := v.set c (v[c] + v[d])
  let v := v.set b (rotate (v[b] ^^^ v[c]) 12)
  let v := v.set a (v[a] + v[b] + y)
  let v := v.set d (rotate (v[d] ^^^ v[a]) 8)
  let v := v.set c (v[c] + v[d])
  v.set b (rotate (v[b] ^^^ v[c]) 7)

/-- One round: the columns of the state, then its diagonals. -/
def round (v m : Words) : Words :=
  let v := mix v 0 4 8 12 m[0] m[1]
  let v := mix v 1 5 9 13 m[2] m[3]
  let v := mix v 2 6 10 14 m[4] m[5]
  let v := mix v 3 7 11 15 m[6] m[7]
  let v := mix v 0 5 10 15 m[8] m[9]
  let v := mix v 1 6 11 12 m[10] m[11]
  let v := mix v 2 7 8 13 m[12] m[13]
  mix v 3 4 9 14 m[14] m[15]

/-- The words of a block in the order of the next round. -/
def permute (m : Words) : Words :=
  Vector.ofFn fun i => m[schedule[i]]

/-- So many rounds, the words of the block reordered after each. -/
def rounds : Nat → Words → Words → Words
  | 0, v, _ => v
  | n + 1, v, m => rounds n (round v m) (permute m)

/-- The compression of a block: chain, counter, number of bytes and flags go into it. -/
def compress (h : Chain) (m : Words) (counter : UInt64) (length flags : UInt32) : Words :=
  let low := counter.toUInt32
  let high := (counter >>> 32).toUInt32
  let v : Words := #v[
    h[0], h[1], h[2], h[3], h[4], h[5], h[6], h[7],
    initial[0], initial[1], initial[2], initial[3], low, high, length, flags]
  let v := rounds 7 v m
  #v[v[0] ^^^ v[8], v[1] ^^^ v[9], v[2] ^^^ v[10], v[3] ^^^ v[11],
    v[4] ^^^ v[12], v[5] ^^^ v[13], v[6] ^^^ v[14], v[7] ^^^ v[15],
    v[8] ^^^ h[0], v[9] ^^^ h[1], v[10] ^^^ h[2], v[11] ^^^ h[3],
    v[12] ^^^ h[4], v[13] ^^^ h[5], v[14] ^^^ h[6], v[15] ^^^ h[7]]

/-- The flag of the first block of a chunk. -/
def chunkStart : UInt32 := 1

/-- The flag of the last block of a chunk. -/
def chunkEnd : UInt32 := 2

/-- The flag of an inner node. -/
def parent : UInt32 := 4

/-- The flag of the root. -/
def rootFlag : UInt32 := 8

/-! ### The tree -/

/-- A compression that is still to be made: as an inner one, or as the root. -/
structure Node where
  chain : Chain
  block : Words
  counter : UInt64
  length : UInt32
  flags : UInt32

/-- The first half of a compression's result. -/
def firstHalf (v : Words) : Chain :=
  #v[v[0], v[1], v[2], v[3], v[4], v[5], v[6], v[7]]

/-- The chain of an inner node. -/
def Node.output (n : Node) : Chain :=
  firstHalf (compress n.chain n.block n.counter n.length n.flags)

/-- The chain of a node as the root. -/
def Node.digest (n : Node) : Chain :=
  firstHalf (compress n.chain n.block 0 n.length (n.flags ||| rootFlag))

/-- The word at a position of a block, least byte first; beyond the bytes there are zeros. -/
def wordAt (bytes : Array UInt8) (position : Nat) : UInt32 :=
  (bytes.getD position 0).toUInt32 ||| ((bytes.getD (position + 1) 0).toUInt32 <<< 8) |||
    ((bytes.getD (position + 2) 0).toUInt32 <<< 16) |||
    ((bytes.getD (position + 3) 0).toUInt32 <<< 24)

/-- The words of a block. -/
def wordsOf (bytes : List UInt8) : Words :=
  let bytes := bytes.toArray
  Vector.ofFn fun i => wordAt bytes (4 * i.val)

/-- The node of a chunk from a block on, given the chain so far and the flags of this block. -/
def chunkNode (counter : UInt64) : Nat → Chain → UInt32 → List UInt8 → Node
  | 0, chain, flags, bytes =>
    ⟨chain, wordsOf bytes, counter, bytes.length.toUInt32, flags ||| chunkEnd⟩
  | n + 1, chain, flags, bytes =>
    let block := bytes.take 64
    let rest := bytes.drop 64
    if rest.isEmpty then
      ⟨chain, wordsOf block, counter, block.length.toUInt32, flags ||| chunkEnd⟩
    else
      let chain := firstHalf (compress chain (wordsOf block) counter 64 flags)
      chunkNode counter n chain 0 rest

/-- The chunks of an input; an empty input is one empty chunk. -/
def chunks : Nat → List UInt8 → List (List UInt8)
  | 0, bytes => [bytes]
  | n + 1, bytes =>
    let rest := bytes.drop 1024
    if rest.isEmpty then [bytes] else bytes.take 1024 :: chunks n rest

/-- The greatest power of two below a number, from a smaller one on. -/
def leftSize : Nat → Nat → Nat → Nat
  | 0, _, size => size
  | n + 1, total, size => if 2 * size < total then leftSize n total (2 * size) else size

/-- The node over chunks, the first of which has a number. -/
def treeNode : Nat → UInt64 → List (List UInt8) → Node
  | 0, counter, cs => chunkNode counter 16 initial chunkStart (cs.headD [])
  | n + 1, counter, cs =>
    match cs with
    | [] => chunkNode counter 16 initial chunkStart []
    | [c] => chunkNode counter 16 initial chunkStart c
    | _ =>
      let size := leftSize cs.length cs.length 1
      let left := (treeNode n counter (cs.take size)).output
      let right := (treeNode n (counter + size.toUInt64) (cs.drop size)).output
      ⟨initial, left ++ right, 0, 64, parent⟩

/-- The root of the tree over an input. -/
def root (bytes : List UInt8) : Node :=
  let cs := chunks (bytes.length / 1024 + 1) bytes
  treeNode cs.length 0 cs

/-! ### Digests -/

/-- The two hexadecimal digits of a byte. -/
def hexByte (n : Nat) : List Char :=
  [Nat.digitChar (n / 16 % 16), Nat.digitChar (n % 16)]

/-- The hexadecimal digits of a word, least byte first. -/
def hexWord (w : UInt32) : List Char :=
  let n := w.toNat
  hexByte (n % 256) ++ hexByte (n / 256 % 256) ++ hexByte (n / 65536 % 256) ++
    hexByte (n / 16777216 % 256)

/-- The digest of an input in hexadecimal. -/
def hex (bytes : List UInt8) : String :=
  String.ofList ((root bytes).digest.toList.flatMap hexWord)

end Covenant.Blake3
