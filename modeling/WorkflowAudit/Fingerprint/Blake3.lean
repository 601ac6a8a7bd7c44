/-!
# The BLAKE3 hash

A text of bytes is cut into chunks of 1024 bytes and these into blocks of 64. Chunks are the
leaves of a binary tree that is complete on the left; the hash is the chaining value of its
root.
-/

namespace WorkflowAudit.Blake3

abbrev Word := UInt32

/-- Sixteen words: the state of the compression, or a block of the message. -/
abbrev Words := Vector Word 16

/-- The start of every chain of blocks. -/
def initialChain : Vector Word 8 :=
  #v[0x6a09e667, 0xbb67ae85, 0x3c6ef372, 0xa54ff53a, 0x510e527f, 0x9b05688c, 0x1f83d9ab,
    0x5be0cd19]

/-- Where each word of a message goes after a round. -/
def permutation : Vector (Fin 16) 16 := #v[2, 6, 3, 10, 7, 0, 4, 13, 1, 11, 12, 5, 9, 14, 15, 8]

def permute (m : Words) : Words := permutation.map fun i => m[i]

def rotateRight (w n : Word) : Word := (w >>> n) ||| (w <<< (32 - n))

/-- Two words of the message mixed into four words of the state. -/
def mix (s : Words) (a b c d : Fin 16) (x y : Word) : Words :=
  let va := s[a] + s[b] + x
  let vd := rotateRight (s[d] ^^^ va) 16
  let vc := s[c] + vd
  let vb := rotateRight (s[b] ^^^ vc) 12
  let va := va + vb + y
  let vd := rotateRight (vd ^^^ va) 8
  let vc := vc + vd
  let vb := rotateRight (vb ^^^ vc) 7
  (((s.set a va).set b vb).set c vc).set d vd

/-- Columns, then diagonals. -/
def round (s m : Words) : Words :=
  let s := mix s 0 4 8 12 m[0] m[1]
  let s := mix s 1 5 9 13 m[2] m[3]
  let s := mix s 2 6 10 14 m[4] m[5]
  let s := mix s 3 7 11 15 m[6] m[7]
  let s := mix s 0 5 10 15 m[8] m[9]
  let s := mix s 1 6 11 12 m[10] m[11]
  let s := mix s 2 7 8 13 m[12] m[13]
  mix s 3 4 9 14 m[14] m[15]

/-- So many rounds, with the message permuted between them. -/
def rounds : Nat → Words → Words → Words
  | 0, s, _ => s
  | n + 1, s, m => rounds n (round s m) (permute m)

/-- What is compressed: a block with the chain before it, the number of its chunk, its length in
    bytes and its flags. -/
structure Node where
  chain : Vector Word 8
  block : Words
  counter : Nat
  length : Nat
  flags : Word

namespace Node

def chunkStart : Word := 1
def chunkEnd : Word := 2
def parentFlag : Word := 4
def rootFlag : Word := 8

def compress (n : Node) (extraFlags : Word) : Vector Word 8 :=
  let start : Words := n.chain ++ #v[initialChain[0], initialChain[1], initialChain[2],
    initialChain[3], UInt32.ofNat n.counter, UInt32.ofNat (n.counter >>> 32),
    UInt32.ofNat n.length, n.flags ||| extraFlags]
  let final := rounds 7 start n.block
  Vector.ofFn fun i : Fin 8 => final[i.val] ^^^ final[i.val + 8]

/-- The value that stands for the node in the node above. -/
def chainingValue (n : Node) : Vector Word 8 := n.compress 0

/-- The node above two others. -/
def parent (left right : Node) : Node :=
  ⟨initialChain, left.chainingValue ++ right.chainingValue, 0, 64, parentFlag⟩

end Node

def byteAt (bytes : List UInt8) (i : Nat) : Word := (bytes.getD i 0).toUInt32

/-- The words of at most 64 bytes, each word from its lowest byte up; missing bytes are 0. -/
def blockWords (bytes : List UInt8) : Words :=
  Vector.ofFn fun i : Fin 16 =>
    let quad := bytes.drop (4 * i.val)
    byteAt quad 0 ||| (byteAt quad 1 <<< 8) ||| (byteAt quad 2 <<< 16) ||| (byteAt quad 3 <<< 24)

/-- The last node of a chunk whose remaining bytes follow a chain. -/
def chunkFrom (counter : Nat) (chain : Vector Word 8) (startFlag : Word) (bytes : List UInt8) :
    Node :=
  let block := bytes.take 64
  let node (flags : Word) : Node := ⟨chain, blockWords block, counter, block.length, flags⟩
  if bytes.length ≤ 64 then node (startFlag ||| Node.chunkEnd)
  else chunkFrom counter (node startFlag).chainingValue 0 (bytes.drop 64)
termination_by bytes.length
decreasing_by
  simp only [List.length_drop]
  omega

/-- The nodes of the chunks, numbered from `counter`. There is always at least one. -/
def chunksFrom (counter : Nat) (bytes : List UInt8) : List Node :=
  let chunk := chunkFrom counter initialChain Node.chunkStart (bytes.take 1024)
  if (bytes.drop 1024).isEmpty then [chunk]
  else chunk :: chunksFrom (counter + 1) (bytes.drop 1024)
termination_by bytes.length
decreasing_by
  rename_i more
  simp only [List.isEmpty_iff, List.drop_eq_nil_iff] at more
  simp only [List.length_drop]
  omega

/-- The nodes one level up; a node without a neighbour moves up as it is. -/
def pairUp : List Node → List Node
  | a :: b :: rest => Node.parent a b :: pairUp rest
  | rest => rest

theorem length_pairUp (nodes : List Node) : (pairUp nodes).length ≤ nodes.length := by
  fun_induction pairUp nodes with
  | case1 a b rest ih => simp only [List.length_cons]; omega
  | case2 => exact Nat.le_refl _

/-- The root over a first node and the nodes after it. -/
def root (first : Node) : List Node → Node
  | [] => first
  | second :: rest => root (first.parent second) (pairUp rest)
termination_by rest => rest.length
decreasing_by
  have := length_pairUp rest
  simp only [List.length_cons]
  omega

def wordBytes (w : Word) : List UInt8 :=
  [w.toUInt8, (w >>> 8).toUInt8, (w >>> 16).toUInt8, (w >>> 24).toUInt8]

/-- The 32 bytes of the hash. -/
def hash (bytes : List UInt8) : List UInt8 :=
  match chunksFrom 0 bytes with
  | [] => []
  | first :: rest => ((root first rest).compress Node.rootFlag).toList.flatMap wordBytes

theorem length_flatMap_wordBytes (words : List Word) :
    (words.flatMap wordBytes).length = 4 * words.length := by
  induction words with
  | nil => rfl
  | cons w ws ih =>
    simp only [List.flatMap_cons, List.length_append, List.length_cons, ih, wordBytes,
      List.length_nil]
    omega

theorem length_hash (bytes : List UInt8) : (hash bytes).length = 32 := by
  unfold hash
  split
  · rename_i h
    unfold chunksFrom at h
    simp only at h
    split at h <;> simp at h
  · rw [length_flatMap_wordBytes, Vector.length_toList]

end WorkflowAudit.Blake3
