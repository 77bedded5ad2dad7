/-!
# Blake3 — the digest behind cache keys and schema versions

The input is cut into chunks of 1024 bytes, the leaves of a binary tree in which every left subtree
holds the largest power of two of chunks that leaves something for the right one.  Each node is
compressed to eight words, and the root to the digest.
-/

namespace AccessPolicy.Blake3

abbrev Words (n : Nat) := Vector UInt32 n

def iv : Words 8 :=
  #v[0x6a09e667, 0xbb67ae85, 0x3c6ef372, 0xa54ff53a, 0x510e527f, 0x9b05688c, 0x1f83d9ab, 0x5be0cd19]

/-- How the message words are reordered from one round to the next. -/
def permutation : Vector (Fin 16) 16 := #v[2, 6, 3, 10, 7, 0, 4, 13, 1, 11, 12, 5, 9, 14, 15, 8]

def chunkStart : UInt32 := 1

def chunkEnd : UInt32 := 2

def parentFlag : UInt32 := 4

def rootFlag : UInt32 := 8

/-! ## Compression -/

def rotateRight (x : UInt32) (n : UInt32) : UInt32 := (x >>> n) ||| (x <<< (32 - n))

/-- The quarter round on four places of the state. -/
def mix (s : Words 16) (a b c d : Fin 16) (x y : UInt32) : Words 16 :=
  let va := s[a] + s[b] + x
  let vd := rotateRight (s[d] ^^^ va) 16
  let vc := s[c] + vd
  let vb := rotateRight (s[b] ^^^ vc) 12
  let va := va + vb + y
  let vd := rotateRight (vd ^^^ va) 8
  let vc := vc + vd
  let vb := rotateRight (vb ^^^ vc) 7
  (((s.set a va).set b vb).set c vc).set d vd

/-- Columns, then diagonals. -/
def round (s m : Words 16) : Words 16 :=
  let s := mix s 0 4 8 12 m[0] m[1]
  let s := mix s 1 5 9 13 m[2] m[3]
  let s := mix s 2 6 10 14 m[4] m[5]
  let s := mix s 3 7 11 15 m[6] m[7]
  let s := mix s 0 5 10 15 m[8] m[9]
  let s := mix s 1 6 11 12 m[10] m[11]
  let s := mix s 2 7 8 13 m[12] m[13]
  mix s 3 4 9 14 m[14] m[15]

def rounds : (n : Nat) → (s m : Words 16) → Words 16
  | 0, s, _ => s
  | n + 1, s, m => rounds n (round s m) (permutation.map (m[·]))

/-- A node before it is compressed. -/
structure Block where
  chaining : Words 8
  message : Words 16
  counter : UInt64
  length : UInt32
  flags : UInt32

namespace Block

def initial (b : Block) : Words 16 :=
  b.chaining ++ (#v[iv[0], iv[1], iv[2], iv[3], b.counter.toUInt32, (b.counter >>> 32).toUInt32,
    b.length, b.flags] : Words 8)

/-- Seven rounds; the halves of the state are joined. -/
def compress (b : Block) : Words 8 :=
  let s := rounds 7 b.initial b.message
  .ofFn fun i => s[i.val] ^^^ s[i.val + 8]

end Block

/-! ## Chunks -/

/-- The little-endian word of up to four bytes. -/
def wordOf (bytes : List UInt8) : UInt32 :=
  bytes.foldr (fun byte word => (word <<< 8) ||| byte.toUInt32) 0

/-- Up to 64 bytes as sixteen words, filled up with zeros. -/
def messageOf (bytes : List UInt8) : Words 16 :=
  .ofFn fun i => wordOf ((bytes.drop (4 * i.val)).take 4)

/-- Cut into pieces of `n` bytes; no input is one empty piece. -/
def pieces (n : Nat) : (fuel : Nat) → List UInt8 → List (List UInt8)
  | 0, bytes => [bytes]
  | fuel + 1, bytes =>
    if bytes.length ≤ n then [bytes] else bytes.take n :: pieces n fuel (bytes.drop n)

/-- The last block of a chunk, the ones before it being compressed into its chaining value. -/
def chunkBlock (counter : UInt64) (chaining : Words 8) (flags : UInt32) :
    List (List UInt8) → Block
  | [] => ⟨chaining, messageOf [], counter, 0, flags ||| chunkEnd⟩
  | [last] =>
    ⟨chaining, messageOf last, counter, UInt32.ofNat last.length, flags ||| chunkEnd⟩
  | bytes :: rest =>
    let b : Block := ⟨chaining, messageOf bytes, counter, UInt32.ofNat bytes.length, flags⟩
    chunkBlock counter b.compress 0 rest

def chunk (counter : Nat) (bytes : List UInt8) : Block :=
  chunkBlock (UInt64.ofNat counter) iv chunkStart (pieces 64 16 bytes)

/-! ## The tree -/

def parent (left right : Words 8) : Block := ⟨iv, left ++ right, 0, 64, parentFlag⟩

/-- The largest power of two below `n`, for `n` at least two. -/
def leftSize (n : Nat) : Nat := Nat.pow 2 (n - 1).log2

/-- The top node over chunks that are numbered from `counter`. -/
def tree : (fuel : Nat) → (counter : Nat) → List (List UInt8) → Block
  | 0, counter, chunks => chunk counter (chunks.headD [])
  | fuel + 1, counter, chunks =>
    if chunks.length ≤ 1 then chunk counter (chunks.headD [])
    else
      let n := leftSize chunks.length
      parent (tree fuel counter (chunks.take n)).compress
        (tree fuel (counter + n) (chunks.drop n)).compress

def digest (bytes : List UInt8) : Words 8 :=
  let chunks := pieces 1024 bytes.length bytes
  let top := tree chunks.length 0 chunks
  { top with counter := 0, flags := top.flags ||| rootFlag }.compress

/-! ## Text -/

def byteHex (byte : UInt8) : List Char :=
  [Nat.digitChar (byte.toNat / 16), Nat.digitChar (byte.toNat % 16)]

def wordHex (w : UInt32) : List Char :=
  byteHex w.toUInt8 ++ byteHex (w >>> 8).toUInt8 ++ byteHex (w >>> 16).toUInt8
    ++ byteHex (w >>> 24).toUInt8

/-- The digest as 64 hexadecimal digits. -/
def hex (bytes : List UInt8) : String :=
  String.ofList ((digest bytes).toList.flatMap wordHex)

end AccessPolicy.Blake3
