/-!
# Expanding compressed content

The deflate format: blocks that are stored as they are, or coded with Huffman codes that are either
fixed or described in the block. A code word stands for a byte, for the end of the block, or for a
run of earlier bytes that is repeated. Bits are taken from each byte beginning with the lowest.

The output is delivered in pieces of `pieceSize` bytes, and the input arrives in pieces of the same
size. Bytes that are no compressed content, or that break off, yield the pieces that were delivered
up to there: a full piece is delivered as soon as there is more output, or when the input at hand is
used up.

## Main definitions

* `Inflate`: the reading state.
* `Inflate.Code`: a Huffman code, and `Inflate.Code.fits`, the codes that a block may describe.
* `inflate`: expands compressed content.
-/

namespace Flipbook.Zip

/-- The number of bytes that arrive or are delivered together. -/
def pieceSize : Nat := 16384

/-- The reading state: compressed bytes, the number of bits already used, and the output. -/
structure Inflate where
  /-- The compressed bytes. -/
  input : Array UInt8
  /-- The number of bits used. -/
  used : Nat
  /-- The output so far. -/
  output : Array UInt8
  /-- The number of bytes of the output that were delivered. -/
  delivered : Nat

namespace Inflate

/-- Delivers the full pieces of the output. -/
def deliver (s : Inflate) : Inflate :=
  { s with delivered := s.output.size / pieceSize * pieceSize }

/-- Adds a byte to the output, when the pieces before it are delivered. -/
def push (s : Inflate) (b : UInt8) : Inflate :=
  let s := s.deliver
  { s with output := s.output.push b }

/-- Waits for input, unless the next bit is one of a byte that has arrived. -/
def await (s : Inflate) : Inflate :=
  let atPiece := s.used % (8 * pieceSize) = 0 && 0 < s.used
  if atPiece || decide (8 * s.input.size ≤ s.used) then s.deliver else s

/-- Takes one bit. Here and below, reading that has to stop leaves the state that it came to. -/
def bit (s : Inflate) : Except Inflate (Nat × Inflate) :=
  let s := s.await
  match s.input[s.used / 8]? with
  | some b => .ok (b.toNat / Nat.pow 2 (s.used % 8) % 2, { s with used := s.used + 1 })
  | none => .error s

/-- Takes a number of so many bits, the lowest first. -/
def bits : Nat → Inflate → Except Inflate (Nat × Inflate)
  | 0, s => .ok (0, s)
  | n + 1, s => do
    let (low, s) ← s.bit
    let (high, s) ← bits n s
    .ok (low + 2 * high, s)

/-- A Huffman code, by the number of code words of each length and the symbols in the order of their
code words. -/
structure Code where
  /-- The number of code words of the lengths 1, 2, and so on. -/
  counts : List Nat
  /-- The symbols, ordered by code word. -/
  symbols : Array Nat

namespace Code

/-- The code in which each symbol has a code word of the given length; zero stands for none. Without
any symbols it has words of one bit, none of which means anything. -/
def ofLengths (lengths : List Nat) : Code where
  counts := (List.range (max 1 (lengths.foldl max 0))).map fun l => lengths.count (l + 1)
  symbols := ((List.range 15).flatMap fun l =>
    lengths.zipIdx.filterMap fun (len, symbol) => if len = l + 1 then some symbol else none).toArray

/-- The number of code words of the greatest length that are free, given how many are free of the
length before; `none` if there are too many code words. -/
def free : Nat → List Nat → Option Nat
  | left, [] => some left
  | left, count :: rest => if 2 * left < count then none else free (2 * left - count) rest

/-- Whether every sequence of bits has exactly one reading. -/
def complete (code : Code) : Bool :=
  free 1 code.counts = some 0

/-- Whether a block may describe the code: it is complete, or has words of one bit at most. -/
def fits (code : Code) : Bool :=
  code.complete || (code.counts.length = 1 && (free 1 code.counts).isSome)

/-- The code for lengths. Without any symbols, every bit stands for a length of zero. -/
def ofShortLengths (lengths : List Nat) : Code :=
  if lengths.all (· == 0) then ⟨[2], #[0, 0]⟩ else ofLengths lengths

end Code

/-- Takes a code word. `first` is the first code word of the current length, `index` the number of
symbols with shorter ones, and `word` what has been read. -/
def symbolFrom (code : Code) : List Nat → Nat → Nat → Nat → Inflate → Except Inflate (Nat × Inflate)
  | [], _, _, _, s => .error s
  | count :: rest, word, first, index, s => do
    let (b, s) ← s.bit
    let word := word + b
    if word < first + count then
      .ok (code.symbols.getD (index + (word - first)) 0, s)
    else symbolFrom code rest (2 * word) (2 * (first + count)) (index + count) s

/-- Takes a code word and yields its symbol. -/
def symbol (code : Code) (s : Inflate) : Except Inflate (Nat × Inflate) :=
  symbolFrom code code.counts 0 0 0 s

/-- The shortest run for each length symbol, with the number of extra bits. -/
def lengthTable : Array (Nat × Nat) :=
  #[(3, 0), (4, 0), (5, 0), (6, 0), (7, 0), (8, 0), (9, 0), (10, 0), (11, 1), (13, 1), (15, 1),
    (17, 1), (19, 2), (23, 2), (27, 2), (31, 2), (35, 3), (43, 3), (51, 3), (59, 3), (67, 4),
    (83, 4), (99, 4), (115, 4), (131, 5), (163, 5), (195, 5), (227, 5), (258, 0)]

/-- The least distance for each distance symbol, with the number of extra bits. -/
def distanceTable : Array (Nat × Nat) :=
  #[(1, 0), (2, 0), (3, 0), (4, 0), (5, 1), (7, 1), (9, 2), (13, 2), (17, 3), (25, 3), (33, 4),
    (49, 4), (65, 5), (97, 5), (129, 6), (193, 6), (257, 7), (385, 7), (513, 8), (769, 8),
    (1025, 9), (1537, 9), (2049, 10), (3073, 10), (4097, 11), (6145, 11), (8193, 12), (12289, 12),
    (16385, 13), (24577, 13)]

/-- Takes the extra bits of a symbol of a table and adds them to its base. -/
def tabled (table : Array (Nat × Nat)) (i : Nat) (s : Inflate) : Except Inflate (Nat × Inflate) :=
  match table[i]? with
  | none => .error s
  | some (base, extra) => do
    let (n, s) ← s.bits extra
    .ok (base + n, s)

/-- Repeats bytes of the output, one at a time, so that a run may overlap itself. -/
def repeatBytes (distance : Nat) : Nat → Inflate → Inflate
  | 0, s => s
  | n + 1, s => repeatBytes distance n (s.push (s.output.getD (s.output.size - distance) 0))

/-- Reads the coded content of a block. Each code word takes at least one bit, so the number of bits
bounds the number of words. -/
def content (literals distances : Code) : Nat → Inflate → Except Inflate Inflate
  | 0, s => .error s
  | fuel + 1, s => do
    let (sym, s) ← s.symbol literals
    if sym < 256 then content literals distances fuel (s.push sym.toUInt8)
    else if sym = 256 then .ok s
    else
      let (length, s) ← s.tabled lengthTable (sym - 257)
      let (d, s) ← s.symbol distances
      let (distance, s) ← s.tabled distanceTable d
      if s.output.size < distance then .error s.deliver
      else content literals distances fuel (repeatBytes distance length s)

/-- The fixed code for bytes and lengths. -/
def fixedLiterals : Code :=
  .ofLengths (List.replicate 144 8 ++ List.replicate 112 9 ++ List.replicate 24 7 ++
    List.replicate 8 8)

/-- The fixed code for distances. -/
def fixedDistances : Code :=
  .ofLengths (List.replicate 32 5)

/-- The order in which the lengths of the code for lengths are given. -/
def lengthOrder : List Nat :=
  [16, 17, 18, 0, 8, 7, 9, 6, 10, 5, 11, 4, 12, 3, 13, 2, 14, 1, 15]

/-- Reads so many lengths of three bits. -/
def shortLengths : Nat → Inflate → Except Inflate (List Nat × Inflate)
  | 0, s => .ok ([], s)
  | n + 1, s => do
    let (l, s) ← s.bits 3
    let (ls, s) ← shortLengths n s
    .ok (l :: ls, s)

/-- Reads what a symbol of the code for lengths stands for, behind the lengths that are known: a
length, or several repetitions of the last one or of zero. -/
def lengthsFor (sym : Nat) (known : List Nat) (s : Inflate) : Except Inflate (List Nat × Inflate) :=
  if sym < 16 then .ok ([sym], s)
  else if sym = 16 then do
    let (n, s) ← s.bits 2
    match known.getLast? with
    | none => .error s
    | some last => .ok (List.replicate (3 + n) last, s)
  else if sym = 17 then do
    let (n, s) ← s.bits 3
    .ok (List.replicate (3 + n) 0, s)
  else do
    let (n, s) ← s.bits 7
    .ok (List.replicate (11 + n) 0, s)

/-- Reads code lengths until `total` are known. -/
def codeLengths (code : Code) (total : Nat) :
    Nat → List Nat → Inflate → Except Inflate (List Nat × Inflate)
  | 0, _, s => .error s
  | fuel + 1, known, s =>
    if known.length = total then .ok (known, s)
    else if total < known.length then .error s
    else do
      let (sym, s) ← s.symbol code
      let (more, s) ← s.lengthsFor sym known
      codeLengths code total fuel (known ++ more) s

/-- The greatest numbers of symbols for bytes and lengths, and for distances. -/
def maxLiterals : Nat := 286

@[inherit_doc maxLiterals]
def maxDistances : Nat := 30

/-- Reads the codes that a block describes. The end of the block must have a code word. -/
def describedCodes (fuel : Nat) (s : Inflate) : Except Inflate ((Code × Code) × Inflate) := do
  let (literals, s) ← s.bits 5
  let (distances, s) ← s.bits 5
  let (lengths, s) ← s.bits 4
  let literals := literals + 257
  let distances := distances + 1
  if maxLiterals < literals ∨ maxDistances < distances then .error s
  else
    let (short, s) ← shortLengths (lengths + 4) s
    let placed := (List.range 19).map fun symbol =>
      match lengthOrder.idxOf? symbol with
      | some place => short.getD place 0
      | none => 0
    let code := Code.ofShortLengths placed
    if !code.complete then .error s
    else
      let (all, s) ← codeLengths code (literals + distances) fuel [] s
      let literalCode := Code.ofLengths (all.take literals)
      let distanceCode := Code.ofLengths (all.drop literals)
      if all.getD 256 0 = 0 ∨ !literalCode.fits ∨ !distanceCode.fits then .error s
      else .ok ((literalCode, distanceCode), s)

/-- Copies so many bytes of the input. -/
def copyBytes : Nat → Inflate → Except Inflate Inflate
  | 0, s => .ok s
  | n + 1, s => do
    let (b, s) ← s.deliver.bits 8
    copyBytes n (s.push b.toUInt8)

/-- Reads a stored block, which starts at the next whole byte. -/
def stored (s : Inflate) : Except Inflate Inflate := do
  let s := { s with used := (s.used + 7) / 8 * 8 }
  let (length, s) ← s.bits 16
  let (complement, s) ← s.bits 16
  if length + complement ≠ 0xFFFF then .error s else copyBytes length s

/-- Reads blocks up to the last one. -/
def blocks (wordFuel : Nat) : Nat → Inflate → Except Inflate Inflate
  | 0, s => .error s
  | fuel + 1, s => do
    let (final, s) ← s.bit
    let (kind, s) ← s.bits 2
    let s ←
      match kind with
      | 0 => s.stored
      | 1 => content fixedLiterals fixedDistances wordFuel s
      | 2 => do
        let ((literals, distances), s) ← describedCodes wordFuel s
        content literals distances wordFuel s
      | _ => .error s
    if final = 1 then .ok s else blocks wordFuel fuel s

end Inflate

/-- Expands compressed content. Whatever follows the last block is ignored, and without a last block
the result is what was delivered up to the end of the reading. -/
def inflate (bytes : List UInt8) : List UInt8 :=
  let input := bytes.toArray
  let fuel := 8 * input.size + 1
  match Inflate.blocks fuel fuel ⟨input, 0, #[], 0⟩ with
  | .ok s => s.output.toList
  | .error s => (s.output.extract 0 s.delivered).toList

end Flipbook.Zip
