/-!
# The BLAKE3 digest

A message is cut into chunks of 1024 bytes and a chunk into blocks of 64. The blocks of a chunk are
compressed one into the next; the chunks are the leaves of a binary tree whose nodes are compressed
in the same way. The last compression, at the root, gives the digest.

Besides the plain digest there is key derivation: the digest of a context text is the key under
which the key material is digested.
-/

namespace LogSync.Blake3

/-- Eight words that stand for all that was compressed so far. -/
abbrev Chain := Vector UInt32 8

/-- The words of one block of 64 bytes. -/
abbrev Block := Vector UInt32 16

/-- The chain that a plain digest starts from. -/
def initialChain : Chain :=
  #v[0x6A09E667, 0xBB67AE85, 0x3C6EF372, 0xA54FF53A, 0x510E527F, 0x9B05688C, 0x1F83D9AB, 0x5BE0CD19]

/-! ## Marks

Each compression is marked with its place in the tree and with the kind of digest. -/

/-- The first block of a chunk. -/
def chunkStart : UInt32 := 1
/-- The last block of a chunk. -/
def chunkEnd : UInt32 := 2
/-- A node that joins two others. -/
def parent : UInt32 := 4
/-- The last compression of all. -/
def root : UInt32 := 8
/-- The digest of a context text. -/
def context : UInt32 := 32
/-- The digest of key material. -/
def material : UInt32 := 64

/-! ## Compression -/

/-- Rotates a word to the right by `n` bits, `0 < n < 32`. -/
def rotate (w : UInt32) (n : UInt32) : UInt32 := (w >>> n) ||| (w <<< (32 - n))

/-- Mixes two words of the message into four words of the state. -/
def mix (v : Block) (a b c d : Fin 16) (x y : UInt32) : Block :=
  let va := v[a] + v[b] + x
  let vd := rotate (v[d] ^^^ va) 16
  let vc := v[c] + vd
  let vb := rotate (v[b] ^^^ vc) 12
  let va := va + vb + y
  let vd := rotate (vd ^^^ va) 8
  let vc := vc + vd
  let vb := rotate (vb ^^^ vc) 7
  (((v.set a va).set b vb).set c vc).set d vd

/-- Mixes all words of the message into the state: its columns first, then its diagonals. -/
def round (v m : Block) : Block :=
  let v := mix v 0 4 8 12 m[0] m[1]
  let v := mix v 1 5 9 13 m[2] m[3]
  let v := mix v 2 6 10 14 m[4] m[5]
  let v := mix v 3 7 11 15 m[6] m[7]
  let v := mix v 0 5 10 15 m[8] m[9]
  let v := mix v 1 6 11 12 m[10] m[11]
  let v := mix v 2 7 8 13 m[12] m[13]
  mix v 3 4 9 14 m[14] m[15]

/-- The order in which a round takes the words of the round before it. -/
def permuted (m : Block) : Block :=
  #v[m[2], m[6], m[3], m[10], m[7], m[0], m[4], m[13],
    m[1], m[11], m[12], m[5], m[9], m[14], m[15], m[8]]

/-- Runs a number of rounds, each on the permuted message of the one before. -/
def rounds : Nat → Block → Block → Block
  | 0, v, _ => v
  | n + 1, v, m => rounds n (round v m) (permuted m)

/-- One compression that is still to be made: what a chunk or a node of the tree comes to. -/
structure Node where
  chain : Chain
  block : Block
  counter : UInt64
  length : UInt32
  marks : UInt32

/-- The chain that a compression gives under additional marks. -/
def Node.compress (n : Node) (extra : UInt32) : Chain :=
  let h := n.chain
  let v : Block :=
    #v[h[0], h[1], h[2], h[3], h[4], h[5], h[6], h[7],
      initialChain[0], initialChain[1], initialChain[2], initialChain[3],
      n.counter.toUInt32, (n.counter >>> 32).toUInt32, n.length, n.marks ||| extra]
  let v := rounds 7 v n.block
  Vector.ofFn fun i : Fin 8 => v[i.castAdd 8] ^^^ v[i.addNat 8]

/-! ## Chunks -/

/-- The word whose bytes are given, the lowest first. -/
def wordOfBytes (bytes : List UInt8) : UInt32 :=
  bytes.foldr (fun b w => (w <<< 8) ||| b.toUInt32) 0

/-- The words of at most 64 bytes; missing bytes are zero. -/
def blockOfBytes (bytes : List UInt8) : Block :=
  Vector.ofFn fun i : Fin 16 => wordOfBytes ((bytes.drop (4 * i)).take 4)

/-- Cuts a list into pieces of `size` members, the last one shorter. An empty list has one, empty,
piece. -/
def pieces {α : Type} (size : Nat) (l : List α) : List (List α) :=
  (List.range (max 1 ((l.length + size - 1) / size))).map fun i => (l.drop (i * size)).take size

/-- Compresses the blocks of a chunk, up to the last one, which is left to be compressed. -/
def nodeOfBlocks (chain : Chain) (counter : UInt64) (marks : UInt32) :
    (first : List UInt8) → (others : List (List UInt8)) → Node
  | first, [] =>
    ⟨chain, blockOfBytes first, counter, first.length.toUInt32, marks ||| chunkEnd⟩
  | first, next :: others =>
    let chain := Node.compress ⟨chain, blockOfBytes first, counter, 64, marks⟩ 0
    nodeOfBlocks chain counter (marks &&& ~~~chunkStart) next others

/-- The node of a chunk of at most 1024 bytes. -/
def nodeOfChunk (key : Chain) (marks : UInt32) (counter : UInt64) (chunk : List UInt8) : Node :=
  match pieces 64 chunk with
  | [] => nodeOfBlocks key counter (marks ||| chunkStart) [] []
  | first :: others => nodeOfBlocks key counter (marks ||| chunkStart) first others

/-! ## The tree -/

/-- The node that joins two nodes. -/
def join (key : Chain) (marks : UInt32) (l r : Node) : Node :=
  ⟨key, ((l.compress 0) ++ (r.compress 0)), 0, 64, marks ||| parent⟩

/-- Joins neighbours; a last node without a neighbour is kept. -/
def joinPairs (key : Chain) (marks : UInt32) : List Node → List Node
  | l :: r :: rest => join key marks l r :: joinPairs key marks rest
  | rest => rest

/-- Joins neighbours again and again, at most `n` times, and gives the first node. -/
def rootNode (key : Chain) (marks : UInt32) : Nat → Node → List Node → Node
  | _, first, [] => first
  | 0, first, _ => first
  | n + 1, first, second :: rest =>
    rootNode key marks n (join key marks first second) (joinPairs key marks rest)

/-- The digest of a message, as words, under a key and marks. -/
def digest (key : Chain) (marks : UInt32) (message : List UInt8) : Chain :=
  let nodes := (pieces 1024 message).zipIdx.map fun (chunk, i) =>
    nodeOfChunk key marks i.toUInt64 chunk
  match nodes with
  | [] => key
  | first :: rest => (rootNode key marks rest.length first rest).compress root

/-- The bytes of words, the lowest of each word first. -/
def bytesOfChain (h : Chain) : List UInt8 :=
  h.toList.flatMap fun (w : UInt32) =>
    [w.toUInt8, (w >>> 8).toUInt8, (w >>> 16).toUInt8, (w >>> 24).toUInt8]

/-- The 32 bytes of a message's digest. -/
def hash (message : List UInt8) : List UInt8 := bytesOfChain (digest initialChain 0 message)

/-- The 32 bytes of the key that is derived from key material for a context. -/
def deriveKey (contextText : String) (keyMaterial : List UInt8) : List UInt8 :=
  let key := digest initialChain context contextText.toUTF8.toList
  bytesOfChain (digest key material keyMaterial)

end LogSync.Blake3
