/-!
Gzip: members with deflated content. The bytes are read as a stream of bits, whose blocks hold literal
bytes and references to bytes that came before, spelled in canonical Huffman codes; a member puts a
header in front of them, and a check and a length behind.
-/

namespace TreePath

/-!
Bytes read as a stream of bits, the lowest bit of each byte first.
-/

namespace Gzip

/-- A byte sequence with a place in it, counted in bits. -/
structure BitSource where
  bytes : ByteArray
  position : Nat

namespace BitSource

def bit? (s : BitSource) : Option (Nat × BitSource) :=
  s.bytes[s.position / 8]?.map fun byte =>
    (byte.toNat >>> (s.position % 8) % 2, { s with position := s.position + 1 })

/-- The number in the next `count` bits, lowest bit first. -/
def take? (s : BitSource) : Nat → Option (Nat × BitSource)
  | 0 => some (0, s)
  | count + 1 => do
    let (low, s) ← s.bit?
    let (high, s) ← s.take? count
    some (low + 2 * high, s)

/-- The first byte that no bit was read of. -/
def nextByte (s : BitSource) : Nat := (s.position + 7) / 8

def seek (s : BitSource) (byte : Nat) : BitSource := { s with position := 8 * byte }

end BitSource

def littleEndian? (bytes : ByteArray) (position : Nat) : Nat → Option Nat
  | 0 => some 0
  | count + 1 => do
    let low ← bytes[position]?
    let high ← littleEndian? bytes (position + 1) count
    some (low.toNat + 256 * high)

/-!
Canonical Huffman codes. A code is fixed by the lengths of its words: shorter words come first, and
words of one length follow the order of their symbols.
-/

def maxWordLength : Nat := 15

/-- A code: how many words there are of each length from one on, and the symbols in the order of
their words. -/
structure Code where
  counts : List Nat
  symbols : Array Nat

namespace Code

/-- How many words of `maxWordLength` bits are left over when the words of these counts, for
lengths from `length` on, are taken away; none when there are too many words. -/
def unused? (left : Nat) : List Nat → Option Nat
  | [] => some left
  | count :: rest => if count ≤ 2 * left then unused? (2 * left - count) rest else none

/-- The code of the given word lengths, symbol by symbol; length zero means no word. The words have
to use up all bit sequences, except that there may be no word at all, or a lone one of one bit. -/
def ofLengths? (lengths : List Nat) : Option Code :=
  let range := (List.range maxWordLength).map (· + 1)
  let counts := range.map fun length => lengths.count length
  let symbols := range.flatMap fun length =>
    (lengths.zipIdx.filter fun e => e.1 = length).map Prod.snd
  match unused? 1 counts with
  | some left =>
    if left = 0 ∨ (symbols.length ≤ 1 ∧ ∀ length ∈ lengths, length ≤ 1) then
      some ⟨counts, symbols.toArray⟩
    else none
  | none => none

/-- Reads a word bit by bit. `first` is the first word of the length at hand, and `index` the place
of its symbol. -/
def decodeFrom (symbols : Array Nat) (word first index : Nat) (s : BitSource) :
    List Nat → Option (Nat × BitSource)
  | [] => none
  | count :: longer => do
    let (bit, s) ← s.bit?
    let word := 2 * word + bit
    let first := 2 * first
    if word < first + count then symbols[index + (word - first)]?.map (·, s)
    else decodeFrom symbols word (first + count) (index + count) s longer

def decode? (c : Code) (s : BitSource) : Option (Nat × BitSource) :=
  decodeFrom c.symbols 0 0 0 s c.counts

end Code

/-!
Inflating: blocks of literal bytes and of references to bytes that came before.
-/

/-- The least length of each length symbol, from 257 on, and the number of extra bits. -/
def lengthBases : Array (Nat × Nat) := #[(3, 0), (4, 0), (5, 0), (6, 0), (7, 0), (8, 0), (9, 0),
  (10, 0), (11, 1), (13, 1), (15, 1), (17, 1), (19, 2), (23, 2), (27, 2), (31, 2), (35, 3), (43, 3),
  (51, 3), (59, 3), (67, 4), (83, 4), (99, 4), (115, 4), (131, 5), (163, 5), (195, 5), (227, 5),
  (258, 0)]

/-- The least distance of each distance symbol, and the number of extra bits. -/
def distanceBases : Array (Nat × Nat) := #[(1, 0), (2, 0), (3, 0), (4, 0), (5, 1), (7, 1), (9, 2),
  (13, 2), (17, 3), (25, 3), (33, 4), (49, 4), (65, 5), (97, 5), (129, 6), (193, 6), (257, 7),
  (385, 7), (513, 8), (769, 8), (1025, 9), (1537, 9), (2049, 10), (3073, 10), (4097, 11),
  (6145, 11), (8193, 12), (12289, 12), (16385, 13), (24577, 13)]

/-- The order in which the lengths of the words for word lengths are sent. -/
def lengthOrder : List Nat := [16, 17, 18, 0, 8, 7, 9, 6, 10, 5, 11, 4, 12, 3, 13, 2, 14, 1, 15]

def withExtra? (bases : Array (Nat × Nat)) (symbol : Nat) (s : BitSource) :
    Option (Nat × BitSource) := do
  let (base, extra) ← bases[symbol]?
  let (more, s) ← s.take? extra
  some (base + more, s)

/-- The byte from `distance` back. In front of the first byte there are zeros. -/
def byteBack (out : ByteArray) (distance : Nat) : UInt8 :=
  if distance ≤ out.size then out[out.size - distance]?.getD 0 else 0

/-- Repeats `length` bytes from `distance` back, the new ones among them where they overlap. -/
def copyBack (out : ByteArray) (distance : Nat) : Nat → ByteArray
  | 0 => out
  | length + 1 => copyBack (out.push (byteBack out distance)) distance length

/-- The symbols of a block up to its end. Each symbol takes a bit at least, which bounds `fuel`. -/
def inflateSymbols (literals distances : Code) :
    Nat → BitSource → ByteArray → Option (BitSource × ByteArray)
  | 0, _, _ => none
  | fuel + 1, s, out => do
    let (symbol, s) ← literals.decode? s
    if symbol < 256 then inflateSymbols literals distances fuel s (out.push symbol.toUInt8)
    else if symbol = 256 then some (s, out)
    else
      let (length, s) ← withExtra? lengthBases (symbol - 257) s
      let (symbol, s) ← distances.decode? s
      let (distance, s) ← withExtra? distanceBases symbol s
      inflateSymbols literals distances fuel s (copyBack out distance length)

def fixedLiterals : Option Code :=
  Code.ofLengths? (List.replicate 144 8 ++ List.replicate 112 9 ++ List.replicate 24 7 ++
    List.replicate 8 8)

def fixedDistances : Option Code := Code.ofLengths? (List.replicate 32 5)

def headLengths? : List Nat → Nat → BitSource → Option (List (Nat × Nat) × BitSource)
  | symbol :: rest, count + 1, s => do
    let (length, s) ← s.take? 3
    let (others, s) ← headLengths? rest count s
    some ((symbol, length) :: others, s)
  | _, _, s => some ([], s)

/-- `missing` word lengths, with their repetitions; those read so far are held latest first. Each
symbol takes a bit at least, which bounds `fuel`. -/
def wordLengths? (code : Code) : Nat → Nat → List Nat → BitSource → Option (List Nat × BitSource)
  | _, 0, read, s => some (read.reverse, s)
  | 0, _, _, _ => none
  | fuel + 1, missing, read, s => do
    let (symbol, s) ← code.decode? s
    let (length, count, s) ←
      if symbol < 16 then some (symbol, 1, s)
      else if symbol = 16 then do
        let last ← read.head?
        let (more, s) ← s.take? 2
        some (last, 3 + more, s)
      else if symbol = 17 then do
        let (more, s) ← s.take? 3
        some (0, 3 + more, s)
      else do
        let (more, s) ← s.take? 7
        some (0, 11 + more, s)
    if count ≤ missing then
      wordLengths? code fuel (missing - count) (List.replicate count length ++ read) s
    else none

def describedCodes? (s : BitSource) : Option (Code × Code × BitSource) := do
  let (literalCount, s) ← s.take? 5
  let (distanceCount, s) ← s.take? 5
  let (headCount, s) ← s.take? 4
  let literalCount := literalCount + 257
  let distanceCount := distanceCount + 1
  guard (literalCount ≤ 286 ∧ distanceCount ≤ 30)
  let (head, s) ← headLengths? lengthOrder (headCount + 4) s
  let code ← Code.ofLengths? ((List.range 19).map fun symbol => (head.lookup symbol).getD 0)
  let total := literalCount + distanceCount
  let (lengths, s) ← wordLengths? code total total [] s
  let literals ← Code.ofLengths? (lengths.take literalCount)
  let distances ← Code.ofLengths? (lengths.drop literalCount)
  some (literals, distances, s)

/-- A block of bytes as they are, with their number and its complement in front. -/
def storedBlock? (s : BitSource) (out : ByteArray) : Option (BitSource × ByteArray) := do
  let start := s.nextByte
  let length ← littleEndian? s.bytes start 2
  let complement ← littleEndian? s.bytes (start + 2) 2
  let first := start + 4
  guard (length + complement = 0xFFFF ∧ first + length ≤ s.bytes.size)
  some (s.seek (first + length), out ++ s.bytes.extract first (first + length))

/-- Blocks up to the last one. Each takes a bit at least, which bounds `fuel`. -/
def inflateBlocks : Nat → BitSource → ByteArray → Option (BitSource × ByteArray)
  | 0, _, _ => none
  | fuel + 1, s, out => do
    let (last, s) ← s.take? 1
    let (kind, s) ← s.take? 2
    let (s, out) ←
      if kind = 0 then storedBlock? s out
      else if kind = 1 then do
        inflateSymbols (← fixedLiterals) (← fixedDistances) (8 * s.bytes.size) s out
      else if kind = 2 then do
        let (literals, distances, s) ← describedCodes? s
        inflateSymbols literals distances (8 * s.bytes.size) s out
      else none
    if last = 1 then some (s, out) else inflateBlocks fuel s out

/-- Inflates the bytes from `start` on: the result, and the first byte behind what was read. -/
def inflate? (bytes : ByteArray) (start : Nat) : Option (ByteArray × Nat) :=
  (inflateBlocks (8 * bytes.size) ⟨bytes, 8 * start⟩ .empty).map fun r => (r.2, r.1.nextByte)

/-!
The 32-bit cyclic redundancy check of the reversed polynomial `0xEDB88320`.
-/

def crcShift (crc : UInt32) : UInt32 :=
  if crc &&& 1 = 1 then (crc >>> 1) ^^^ 0xEDB88320 else crc >>> 1

/-- The remainders of all single bytes. -/
def crcTable : Array UInt32 := Array.ofFn fun i : Fin 256 => Nat.repeat crcShift 8 i.val.toUInt32

def crcStep (crc : UInt32) (byte : UInt8) : UInt32 :=
  (crc >>> 8) ^^^ crcTable[((crc ^^^ byte.toUInt32) &&& 0xFF).toNat]?.getD 0

def crc32 (bytes : ByteArray) : UInt32 := ~~~(bytes.foldl crcStep 0xFFFFFFFF)

/-!
Gzip members: a header with optional fields, the deflated content, its check and its length. Only
the first member of the bytes counts.
-/

def hasMagic (bytes : ByteArray) : Bool := bytes[0]? = some 0x1f && bytes[1]? = some 0x8b

def maxFieldLength : Nat := 65535

/-- The place behind the next zero byte, which has to come within `count` bytes. -/
def afterZero? (bytes : ByteArray) (position : Nat) : Nat → Option Nat
  | 0 => none
  | count + 1 =>
    match bytes[position]? with
    | some byte => if byte = 0 then some (position + 1) else afterZero? bytes (position + 1) count
    | none => none

/-- The place behind a field that is there if its flag is set. -/
def afterField? (present : Bool) (position : Nat) (skip : Nat → Option Nat) : Option Nat :=
  if present then skip position else some position

def afterHeader? (bytes : ByteArray) : Option Nat := do
  guard (hasMagic bytes && bytes[2]? = some 8 && 10 ≤ bytes.size)
  let flags ← bytes[3]?
  guard (flags < 0x20)
  let flag (bit : Nat) : Bool := flags.toNat.testBit bit
  let position ← afterField? (flag 2) 10 fun p => do
    let length ← littleEndian? bytes p 2
    if p + 2 + length ≤ bytes.size then some (p + 2 + length) else none
  let text := fun p => afterZero? bytes p (maxFieldLength + 1)
  let position ← afterField? (flag 3) position text
  let position ← afterField? (flag 4) position text
  afterField? (flag 1) position fun p => do
    let check ← littleEndian? bytes p 2
    if check = (crc32 (bytes.extract 0 p)).toNat % 0x10000 then some (p + 2) else none

def unpack? (bytes : ByteArray) : Option ByteArray := do
  let start ← afterHeader? bytes
  let (content, behind) ← inflate? bytes start
  let check ← littleEndian? bytes behind 4
  let length ← littleEndian? bytes (behind + 4) 4
  if check = (crc32 content).toNat ∧ length = content.size % 0x100000000 then some content else none

end Gzip

end TreePath
