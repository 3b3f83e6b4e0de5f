import Midge.Types
import Midge.Lib.Update

/-!
# Compressed blocks

A block of an SST is stored compressed, or raw where that does not pay, with a trailer of
the algorithm and a checksum. The decoder refuses a block that declares more than 64 MiB
of output before it asks for a buffer; a raw block is returned as it is, whatever its
length. The writer leaves blocks raw that the decoder would refuse, so that it reads back
what has been written (`encodeReadableBlock_readable`).

The compression libraries are a parameter (`Codecs`); `Lawful` is what is assumed of them.
-/

namespace Midge

open List

/-! ## Algorithms and policies -/

/-- Compression algorithm codes (stored in block trailer). -/
inductive CompressionAlgo
  | none
  | lz4
  | zstd3
  | zstd9
  deriving DecidableEq, Repr

/-- Parse compression code from `u8`. -/
def CompressionAlgo.fromU8 (code : Byte) : Option CompressionAlgo :=
  match code.1 with
  | 0 => some .none
  | 1 => some .lz4
  | 2 => some .zstd3
  | 3 => some .zstd9
  | _ => Option.none

/-- Convert to `u8` code. -/
def CompressionAlgo.toU8 : CompressionAlgo → Byte
  | .none => byte 0
  | .lz4 => byte 1
  | .zstd3 => byte 2
  | .zstd9 => byte 3

/-- Compression policy for block building. -/
inductive CompressionPolicy
  /-- Never compress. -/
  | none
  /-- Use the specified algorithm. -/
  | fixed (algo : CompressionAlgo)
  /-- Auto-select best algorithm per block. -/
  | adaptive (minSavingsBytes : ℕ) (minRatio : Float32) (checkAlgorithms : List CompressionAlgo)

/-- Minimum block size at which compression is attempted. -/
def minCompressionInputBytes : ℕ := 256

/-- Maximum block size after compression. -/
def maxBlockSize : ℕ := 64 * 1024

/-- Hard ceiling for decompressed data from one persisted block. -/
def maxDecompressedBlockSize : ℕ := 64 * 1024 * 1024

/-- Block trailer size. -/
def blockTrailerSize : ℕ := 5

/-- The compression libraries. -/
structure Codecs where
  /-- `lz4_flex::compress_prepend_size`. -/
  lz4Compress : List Byte → List Byte
  /-- `lz4_flex::decompress_size_prepended`. -/
  lz4Decompress : List Byte → Except String (List Byte)
  /-- `zstd::bulk::compress` at a level. -/
  zstdCompress : ℕ → List Byte → Except String (List Byte)
  /-- `zstd::bulk::decompress` into a buffer of the capacity. -/
  zstdDecompress : List Byte → ℕ → Except String (List Byte)
  /-- `get_frame_content_size`. -/
  frameContentSize : List Byte → Except String (Option ℕ)

/-- The size that an LZ4 block declares. The decoder allocates it. -/
def lz4DeclaredSize (compressed : List Byte) : ℕ := ofLe (compressed.take 4)

/-- The libraries round-trip and respect their output limit. -/
structure Codecs.Lawful (codecs : Codecs) : Prop where
  lz4_declared : ∀ data, (codecs.lz4Compress data).take 4 = toLe 4 data.length
  lz4_roundTrip : ∀ data, data.length < 2 ^ 32 →
    codecs.lz4Decompress (codecs.lz4Compress data) = .ok data
  lz4_limit : ∀ compressed data, codecs.lz4Decompress compressed = .ok data →
    data.length ≤ lz4DeclaredSize compressed
  zstd_declared : ∀ level data compressed, codecs.zstdCompress level data = .ok compressed →
    codecs.frameContentSize compressed = .ok (some data.length)
  zstd_roundTrip : ∀ level data compressed, codecs.zstdCompress level data = .ok compressed →
    codecs.zstdDecompress compressed data.length = .ok data
  zstd_limit : ∀ compressed limit data, codecs.zstdDecompress compressed limit = .ok data →
    data.length ≤ limit

variable (codecs : Codecs)

/-! ## Compressing -/

def compressWithAlgo (data : List Byte) :
    CompressionAlgo → MidgeResult (List Byte × CompressionAlgo)
  | .none => .ok (data, .none)
  | .lz4 => .ok (codecs.lz4Compress data, .lz4)
  | .zstd3 => do
    let compressed ← (codecs.zstdCompress 3 data).mapError fun e =>
      .internal s!"zstd(3) compress failed: {e}"
    return (compressed, .zstd3)
  | .zstd9 => do
    let compressed ← (codecs.zstdCompress 9 data).mapError fun e =>
      .internal s!"zstd(9) compress failed: {e}"
    return (compressed, .zstd9)

/-- Whether the ratio is at most the threshold, or rounds to it. -/
def ratioAtOrBelowF32Threshold (originalSize compressedSize : ℕ) (threshold : Float32) : Bool :=
  if threshold.isNaN || 2 ^ 31 ≤ threshold.toBits.toNat || originalSize = 0 then false
  else
    let threshold : Float :=
      if threshold.isInf then Float.ofBits 0x7FF0000000000000
      else
        let nextBits := min (threshold.toBits.toNat + 1) (2 ^ 32 - 1)
        let nextValue := (Float32.ofBits (UInt32.ofNat nextBits)).toFloat
        threshold.toFloat + (nextValue - threshold.toFloat) / 2.0
    Float.ofNat (min compressedSize (2 ^ 32 - 1)) / Float.ofNat (min originalSize (2 ^ 32 - 1)) ≤
      threshold

def compressionQualifies (originalSize compressedSize minSavings : ℕ) (minRatio : Float32) : Bool :=
  compressedSize < originalSize && minSavings ≤ originalSize - compressedSize &&
    ratioAtOrBelowF32Threshold originalSize compressedSize minRatio

/-- Try one more algorithm. -/
def tryAlgorithm (data : List Byte) (minSavings : ℕ) (minRatio : Float32)
    (best : Option (List Byte × CompressionAlgo)) (algo : CompressionAlgo) :
    Option (List Byte × CompressionAlgo) :=
  if algo = .none then best
  else
    match compressWithAlgo codecs data algo with
    | .error _ => best
    | .ok (compressed, _) =>
      if compressionQualifies data.length compressed.length minSavings minRatio &&
          best.all fun current => compressed.length < current.1.length then
        some (compressed, algo)
      else best

def compressAdaptive (data : List Byte) (minSavings : ℕ) (minRatio : Float32)
    (algos : List CompressionAlgo) : List Byte × CompressionAlgo :=
  (algos.foldl (tryAlgorithm codecs data minSavings minRatio) Option.none).getD (data, .none)

/-- Compress block data according to policy. -/
def compressBlock (data : List Byte) (policy : CompressionPolicy) :
    MidgeResult (List Byte × CompressionAlgo) :=
  if data.length < minCompressionInputBytes then .ok (data, .none)
  else
    match policy with
    | .none => .ok (data, .none)
    | .fixed algo => compressWithAlgo codecs data algo
    | .adaptive minSavingsBytes minRatio checkAlgorithms =>
      .ok (compressAdaptive codecs data minSavingsBytes minRatio checkAlgorithms)

/-- Append the trailer. The checksum covers the data and the algorithm. -/
def withTrailer (compressed : List Byte) (algo : CompressionAlgo) : List Byte :=
  compressed ++ [algo.toU8] ++ toLe 4 (crc32c (compressed ++ [algo.toU8]))

/-- Compress block data and append a trailer. -/
def compressBlockWithTrailer (data : List Byte) (policy : CompressionPolicy) :
    MidgeResult (List Byte) := do
  let block ← compressBlock codecs data policy
  return withTrailer block.1 block.2

/-- Compress a block that the decoder will read back: it refuses compressed blocks of more
    than its ceiling. -/
def encodeReadableBlock (bytes : List Byte) (policy : CompressionPolicy) :
    MidgeResult (List Byte) :=
  compressBlockWithTrailer codecs bytes
    (if maxDecompressedBlockSize < bytes.length then .fixed .none else policy)

/-! ## Decompressing -/

/-- Distinct safe bounds for decoding a compressed payload and reserving its destination
    buffer. -/
structure DecompressedLenHint where
  decodeLimit : ℕ
  reservationLimit : ℕ
  deriving DecidableEq, Repr

def enforceDecompressedSize (size : ℕ) (algorithm : String) : MidgeResult ℕ :=
  if maxDecompressedBlockSize < size then
    .error (.corruption
      s!"{algorithm} declared output size {size} exceeds {maxDecompressedBlockSize} byte limit")
  else .ok size

/-- The bounds for a frame of zstd, which may leave out its size. -/
def zstdLenHint (compressed : List Byte) : MidgeResult DecompressedLenHint :=
  match codecs.frameContentSize compressed with
  | .error error => .error (.corruption s!"Zstd frame content size unavailable: {error}")
  | .ok Option.none => .ok ⟨maxBlockSize, maxDecompressedBlockSize⟩
  | .ok (some size) => do
    ensure (size ≤ usizeMax) (.corruption
      s!"Zstd frame content size {size} exceeds addressable memory")
    let size ← enforceDecompressedSize size "Zstd"
    return ⟨size, size⟩

/-- Determine the bounded decoded-size hint for one compressed payload. -/
def decompressedLenHint (algo : CompressionAlgo) (compressed : List Byte) :
    MidgeResult DecompressedLenHint :=
  match algo with
  | .none => .ok ⟨compressed.length, compressed.length⟩
  | .lz4 => do
    ensure (4 ≤ compressed.length) (.corruption "LZ4 block is missing its size prefix")
    let size ← enforceDecompressedSize (lz4DeclaredSize compressed) "LZ4"
    return ⟨size, size⟩
  | .zstd3 | .zstd9 => zstdLenHint codecs compressed

/-- What comes of decoding, and the sizes of the buffers that have been allocated for it. -/
structure Decoded where
  result : MidgeResult (List Byte)
  allocated : List ℕ

/-- Nothing has been allocated. -/
def Decoded.failed (error : MidgeError) : Decoded := ⟨.error error, []⟩

/-- Decompress block data based on compression type. -/
def decompressBlock (compressed : List Byte) (algo : CompressionAlgo) : Decoded :=
  match algo with
  | .none => ⟨.ok compressed, [compressed.length]⟩
  | .lz4 =>
    match decompressedLenHint codecs algo compressed with
    | .error error => .failed error
    | .ok _ => ⟨(codecs.lz4Decompress compressed).mapError fun e =>
        .corruption s!"LZ4 decompression failed: {e}", [lz4DeclaredSize compressed]⟩
  | .zstd3 | .zstd9 =>
    match decompressedLenHint codecs algo compressed with
    | .error error => .failed error
    | .ok hint => ⟨(codecs.zstdDecompress compressed hint.decodeLimit).mapError fun e =>
        .corruption s!"Zstd decompression failed: {e}", [hint.decodeLimit]⟩

/-- The text of a checksum in messages. -/
def hex32 (n : ℕ) : String := "0x" ++ String.ofList (List.leftpad 8 '0' (Nat.toDigits 16 n))

/-- The algorithm of a block. -/
def trailerAlgo (block : List Byte) : MidgeResult CompressionAlgo :=
  let code := block.getD (block.length - blockTrailerSize) (byte 0)
  (CompressionAlgo.fromU8 code).elim
    (.error (.corruption s!"unknown compression algorithm code: {code.1}")) .ok

/-- Strip the block trailer, verify the checksum, and decompress. -/
def decompressBlockWithTrailer (block : List Byte) : Decoded :=
  if block.length < blockTrailerSize then .failed (.corruption "block too small for trailer")
  else
    let storedCrc := ofLe (block.drop (block.length - 4))
    let computedCrc := crc32c (block.take (block.length - 4))
    if computedCrc ≠ storedCrc then
      .failed (.corruption
        s!"block CRC32C mismatch: stored {hex32 storedCrc}, computed {hex32 computedCrc}")
    else
      match trailerAlgo block with
      | .error error => .failed error
      | .ok algo => decompressBlock codecs (block.take (block.length - blockTrailerSize)) algo

/-- Return the maximum decoded allocation required by a checksummed block. -/
def decompressedSizeWithTrailer (block : List Byte) : MidgeResult ℕ := do
  ensure (blockTrailerSize ≤ block.length) (.corruption "block too small for trailer")
  let algo ← trailerAlgo block
  let hint ← decompressedLenHint codecs algo (block.take (block.length - blockTrailerSize))
  return hint.reservationLimit

/-! ## Hints bound the output -/

variable {codecs} {compressed data block : List Byte} {algo : CompressionAlgo}
  {hint : DecompressedLenHint}

theorem enforceDecompressedSize_eq_ok {size size' : ℕ} {algorithm : String} :
    enforceDecompressedSize size algorithm = .ok size' ↔
      size ≤ maxDecompressedBlockSize ∧ size = size' := by
  rw [enforceDecompressedSize]
  split_ifs with h
  · exact iff_of_false (by simp) fun h' => absurd h'.1 (not_le.2 h)
  · simp [not_lt.1 h]

theorem zstdLenHint_le (h : zstdLenHint codecs compressed = .ok hint) :
    hint.decodeLimit ≤ maxDecompressedBlockSize ∧ hint.decodeLimit ≤ hint.reservationLimit := by
  rw [zstdLenHint] at h
  split at h
  · cases h
  · cases h
    exact ⟨by decide, by decide⟩
  · simp only [except_bind_eq_ok, ensure_eq_ok, enforceDecompressedSize_eq_ok] at h
    obtain ⟨-, -, size, ⟨hle, rfl⟩, h⟩ := h
    cases h
    exact ⟨hle, le_rfl⟩

theorem lz4_hint_eq_ok : decompressedLenHint codecs .lz4 compressed = .ok hint ↔
    4 ≤ compressed.length ∧ lz4DeclaredSize compressed ≤ maxDecompressedBlockSize ∧
      hint = ⟨lz4DeclaredSize compressed, lz4DeclaredSize compressed⟩ := by
  simp only [decompressedLenHint, except_bind_eq_ok, ensure_eq_ok, enforceDecompressedSize_eq_ok,
    pure, Except.pure, Except.ok.injEq]
  constructor
  · rintro ⟨-, hlen, _, ⟨hle, rfl⟩, rfl⟩
    exact ⟨hlen, hle, rfl⟩
  · rintro ⟨hlen, hle, rfl⟩
    exact ⟨(), hlen, _, ⟨hle, rfl⟩, rfl⟩

/-- The decoder stays below the reservation, and below the ceiling for compressed data. -/
theorem hint_le (h : decompressedLenHint codecs algo compressed = .ok hint) :
    hint.decodeLimit ≤ hint.reservationLimit ∧
      (algo ≠ .none → hint.decodeLimit ≤ maxDecompressedBlockSize) := by
  cases algo with
  | none =>
    cases h
    exact ⟨le_rfl, fun hne => absurd rfl hne⟩
  | lz4 =>
    obtain ⟨-, hle, rfl⟩ := lz4_hint_eq_ok.1 h
    exact ⟨le_rfl, fun _ => hle⟩
  | zstd3 | zstd9 =>
    obtain ⟨hle, hreserved⟩ := zstdLenHint_le h
    exact ⟨hreserved, fun _ => hle⟩

/-- Neither the buffers nor the output exceed the limit. -/
structure Decoded.Within (decoded : Decoded) (limit : ℕ) : Prop where
  allocated : ∀ size ∈ decoded.allocated, size ≤ limit
  result : ∀ data, decoded.result = .ok data → data.length ≤ limit

theorem Decoded.within_failed (error : MidgeError) (limit : ℕ) :
    (Decoded.failed error).Within limit :=
  ⟨by simp [failed], by simp [failed]⟩

theorem Decoded.Within.mono {decoded : Decoded} {limit limit' : ℕ} (h : decoded.Within limit)
    (hle : limit ≤ limit') : decoded.Within limit' :=
  ⟨fun size hsize => (h.allocated size hsize).trans hle,
    fun data hdata => (h.result data hdata).trans hle⟩

/-- A decoder that is called keeps to the hint. -/
theorem decompressBlock_within (hlawful : codecs.Lawful) (compressed : List Byte)
    (algo : CompressionAlgo) :
    (∃ error, decompressBlock codecs compressed algo = .failed error) ∨
      ∃ hint, decompressedLenHint codecs algo compressed = .ok hint ∧
        (decompressBlock codecs compressed algo).Within hint.decodeLimit := by
  cases hhint : decompressedLenHint codecs algo compressed with
  | error error =>
    cases algo with
    | none => cases hhint
    | lz4 | zstd3 | zstd9 => exact .inl ⟨error, by simp only [decompressBlock, hhint]⟩
  | ok hint =>
    refine .inr ⟨hint, rfl, ?_⟩
    cases algo with
    | none =>
      cases hhint
      exact ⟨by simp [decompressBlock], by simp [decompressBlock]⟩
    | lz4 =>
      obtain ⟨-, -, rfl⟩ := lz4_hint_eq_ok.1 hhint
      simp only [decompressBlock, hhint]
      refine ⟨by simp, fun data hdata => ?_⟩
      exact hlawful.lz4_limit _ _ (mapError_eq_ok.1 hdata)
    | zstd3 | zstd9 =>
      simp only [decompressBlock, hhint]
      refine ⟨by simp, fun data hdata => ?_⟩
      exact hlawful.zstd_limit _ _ _ (mapError_eq_ok.1 hdata)

/-! ## What has been written is read back -/

/-- The compressed form of the data. -/
def Compresses (codecs : Codecs) (data compressed : List Byte) : CompressionAlgo → Prop
  | .none => compressed = data
  | .lz4 => compressed = codecs.lz4Compress data
  | .zstd3 => codecs.zstdCompress 3 data = .ok compressed
  | .zstd9 => codecs.zstdCompress 9 data = .ok compressed

theorem compresses_of_algo {algo' : CompressionAlgo}
    (h : compressWithAlgo codecs data algo = .ok (compressed, algo')) :
    algo' = algo ∧ Compresses codecs data compressed algo := by
  cases algo with
  | none | lz4 =>
    cases h
    exact ⟨rfl, rfl⟩
  | zstd3 | zstd9 =>
    simp only [compressWithAlgo, except_bind_eq_ok, mapError_eq_ok] at h
    obtain ⟨compressed, hcompressed, h⟩ := h
    cases h
    exact ⟨rfl, hcompressed⟩

/-- One more algorithm. -/
theorem compresses_tryAlgorithm {minSavings : ℕ} {minRatio : Float32}
    {best : Option (List Byte × CompressionAlgo)}
    (h : ∀ found ∈ best, Compresses codecs data found.1 found.2) (algo : CompressionAlgo) :
    ∀ found ∈ tryAlgorithm codecs data minSavings minRatio best algo,
      Compresses codecs data found.1 found.2 := by
  intro found hfound
  rw [tryAlgorithm] at hfound
  split_ifs at hfound
  · exact h found hfound
  · split at hfound
    · exact h found hfound
    · rename_i hcompressed
      split_ifs at hfound
      · cases hfound
        exact (compresses_of_algo hcompressed).2
      · exact h found hfound

/-- All algorithms. -/
theorem compresses_adaptive (minSavings : ℕ) (minRatio : Float32) (algos : List CompressionAlgo) :
    Compresses codecs data (compressAdaptive codecs data minSavings minRatio algos).1
      (compressAdaptive codecs data minSavings minRatio algos).2 := by
  have hall : ∀ best : Option (List Byte × CompressionAlgo),
      (∀ found ∈ best, Compresses codecs data found.1 found.2) →
      ∀ found ∈ algos.foldl (tryAlgorithm codecs data minSavings minRatio) best,
        Compresses codecs data found.1 found.2 := by
    induction algos with
    | nil => exact fun best h => h
    | cons algo algos ih => exact fun best h => ih _ (compresses_tryAlgorithm h algo)
  rw [compressAdaptive]
  cases hbest : algos.foldl (tryAlgorithm codecs data minSavings minRatio) none with
  | none => rfl
  | some found => exact hall none (by simp) found hbest

theorem compresses_block {policy : CompressionPolicy}
    (h : compressBlock codecs data policy = .ok (compressed, algo)) :
    Compresses codecs data compressed algo := by
  unfold compressBlock at h
  split_ifs at h
  · cases h
    rfl
  · cases policy with
    | none =>
      cases h
      rfl
    | fixed algo' =>
      obtain ⟨rfl, hcompresses⟩ := compresses_of_algo h
      exact hcompresses
    | adaptive minSavings minRatio algos =>
      have heq := Except.ok.inj h
      have hadaptive := @compresses_adaptive codecs data minSavings minRatio algos
      rwa [heq] at hadaptive

theorem zstdLenHint_of_declared (h : codecs.frameContentSize compressed = .ok (some data.length))
    (hle : data.length ≤ maxDecompressedBlockSize) :
    zstdLenHint codecs compressed = .ok ⟨data.length, data.length⟩ := by
  have hsize : data.length ≤ usizeMax := hle.trans (by decide)
  simp only [zstdLenHint, h, ensure, if_pos hsize, enforceDecompressedSize, if_neg (not_lt.2 hle)]
  rfl

/-- What has been compressed decodes to the data. -/
theorem decompressBlock_compresses (hlawful : codecs.Lawful)
    (h : Compresses codecs data compressed algo)
    (hle : algo = .none ∨ data.length ≤ maxDecompressedBlockSize) :
    (decompressBlock codecs compressed algo).result = .ok data := by
  cases algo with
  | none =>
    cases h
    rfl
  | lz4 =>
    have hle := hle.resolve_left (by simp)
    have hlt : data.length < 256 ^ 4 := hle.trans_lt (by decide)
    cases h
    have hdeclared : lz4DeclaredSize (codecs.lz4Compress data) = data.length := by
      rw [lz4DeclaredSize, hlawful.lz4_declared, ofLe_toLe hlt]
    have hlen : 4 ≤ (codecs.lz4Compress data).length := by
      have := congrArg List.length (hlawful.lz4_declared data)
      rw [length_take, length_toLe] at this
      exact min_eq_left_iff.1 this
    have hhint := (@lz4_hint_eq_ok codecs (codecs.lz4Compress data) _).2
      ⟨hlen, hdeclared ▸ hle, rfl⟩
    simp only [decompressBlock, hhint]
    rw [hlawful.lz4_roundTrip data hlt]
    rfl
  | zstd3 | zstd9 =>
    have hle := hle.resolve_left (by simp)
    have hhint := zstdLenHint_of_declared (hlawful.zstd_declared _ _ _ h) hle
    simp only [decompressBlock, decompressedLenHint, hhint]
    rw [hlawful.zstd_roundTrip _ _ _ h]
    rfl

theorem fromU8_toU8 (algo : CompressionAlgo) : CompressionAlgo.fromU8 algo.toU8 = some algo := by
  cases algo <;> rfl

/-- The trailer is taken off as it has been put on. -/
theorem decompressBlockWithTrailer_withTrailer (compressed : List Byte) (algo : CompressionAlgo) :
    decompressBlockWithTrailer codecs (withTrailer compressed algo) =
      decompressBlock codecs compressed algo := by
  obtain ⟨block, hblock⟩ : ∃ block, withTrailer compressed algo = block := ⟨_, rfl⟩
  have hlen : block.length = compressed.length + 5 := by simp [← hblock, withTrailer]
  have htake : block.take (block.length - 4) = compressed ++ [algo.toU8] := by
    rw [hlen, ← hblock, withTrailer]
    exact take_left' (by simp)
  have hdrop : ofLe (block.drop (block.length - 4)) = crc32c (compressed ++ [algo.toU8]) := by
    rw [hlen, ← hblock, withTrailer, drop_left' (by simp), ofLe_toLe (crc32c_lt _)]
  have hdata : block.take (block.length - blockTrailerSize) = compressed := by
    rw [hlen, ← hblock, withTrailer, append_assoc]
    exact take_left' rfl
  have halgo : trailerAlgo block = .ok algo := by
    have hcode : block.getD (block.length - blockTrailerSize) (byte 0) = algo.toU8 := by
      rw [hlen, ← hblock, withTrailer, append_assoc, blockTrailerSize, Nat.add_sub_cancel,
        getD_append_right _ _ _ _ le_rfl]
      simp
    simp only [trailerAlgo, hcode, fromU8_toU8]
    rfl
  rw [hblock, decompressBlockWithTrailer, if_neg (by rw [hlen]; simp [blockTrailerSize])]
  simp only [htake, hdrop, ne_eq, not_true_eq_false, if_false, halgo, hdata]

theorem encodeReadableBlock_eq_ok {policy : CompressionPolicy}
    (h : encodeReadableBlock codecs data policy = .ok block) :
    ∃ compressed algo, block = withTrailer compressed algo ∧
      Compresses codecs data compressed algo ∧
      (algo = .none ∨ data.length ≤ maxDecompressedBlockSize) := by
  obtain ⟨⟨compressed, algo⟩, hcompress, h⟩ := except_bind_eq_ok.1 h
  cases h
  refine ⟨compressed, algo, rfl, compresses_block hcompress, ?_⟩
  split_ifs at hcompress with hlarge
  · -- Data above the ceiling are left raw.
    left
    unfold compressBlock at hcompress
    split_ifs at hcompress
    · cases hcompress
      rfl
    · cases hcompress
      rfl
  · exact .inr (not_lt.1 hlarge)

/-- A block is either refused, or it is decoded by its algorithm. -/
theorem decompressBlockWithTrailer_cases (codecs : Codecs) (block : List Byte) :
    (∃ error, decompressBlockWithTrailer codecs block = .failed error) ∨
      ∃ algo, blockTrailerSize ≤ block.length ∧ trailerAlgo block = .ok algo ∧
        decompressBlockWithTrailer codecs block =
          decompressBlock codecs (block.take (block.length - blockTrailerSize)) algo := by
  simp only [decompressBlockWithTrailer]
  split_ifs with hshort
  · exact .inl ⟨_, rfl⟩
  · exact .inl ⟨_, rfl⟩
  · cases halgo : trailerAlgo block with
    | error error => exact .inl ⟨error, rfl⟩
    | ok algo => exact .inr ⟨algo, not_lt.1 hshort, rfl, rfl⟩

/-- The decoder returns what the writer has been given, also above its ceiling. The
    reservation is enough for whatever it returns. For any bytes at all it allocates and
    returns no more than the ceiling, unless the block is raw and returned as it is. -/
theorem encodeReadableBlock_readable (codecs : Codecs) (hlawful : codecs.Lawful) :
    (∀ data policy block, encodeReadableBlock codecs data policy = .ok block →
      (decompressBlockWithTrailer codecs block).result = .ok data) ∧
    (∀ block data, (decompressBlockWithTrailer codecs block).result = .ok data →
      ∃ size, decompressedSizeWithTrailer codecs block = .ok size ∧ data.length ≤ size) ∧
    ∀ block, (decompressBlockWithTrailer codecs block).Within maxDecompressedBlockSize ∨
      trailerAlgo block = .ok .none ∧ decompressBlockWithTrailer codecs block =
        ⟨.ok (block.take (block.length - blockTrailerSize)),
          [block.length - blockTrailerSize]⟩ := by
  refine ⟨fun data policy block h => ?_, fun block data h => ?_, fun block => ?_⟩
  · obtain ⟨compressed, algo, rfl, hcompresses, hle⟩ := encodeReadableBlock_eq_ok h
    rw [decompressBlockWithTrailer_withTrailer]
    exact decompressBlock_compresses hlawful hcompresses hle
  · rcases decompressBlockWithTrailer_cases codecs block with
      ⟨error, heq⟩ | ⟨algo, hlen, halgo, heq⟩
    · rw [heq] at h
      cases h
    · rw [heq] at h
      rcases decompressBlock_within hlawful (block.take (block.length - blockTrailerSize)) algo with
        ⟨error, hfailed⟩ | ⟨hint, hhint, hwithin⟩
      · rw [hfailed] at h
        cases h
      · refine ⟨hint.reservationLimit, ?_, (hwithin.result data h).trans (hint_le hhint).1⟩
        simp only [decompressedSizeWithTrailer, ensure, if_pos hlen, halgo, hhint, bind,
          Except.bind]
        rfl
  · rcases decompressBlockWithTrailer_cases codecs block with
      ⟨error, heq⟩ | ⟨algo, hlen, halgo, heq⟩
    · rw [heq]
      exact .inl (Decoded.within_failed error _)
    · rw [heq]
      by_cases hraw : algo = .none
      · subst hraw
        refine .inr ⟨halgo, ?_⟩
        rw [decompressBlock, length_take, min_eq_left (Nat.sub_le _ _)]
      · left
        rcases decompressBlock_within hlawful (block.take (block.length - blockTrailerSize)) algo
          with ⟨error, hfailed⟩ | ⟨hint, hhint, hwithin⟩
        · rw [hfailed]
          exact Decoded.within_failed error _
        · exact hwithin.mono ((hint_le hhint).2 hraw)

/-- Libraries that do not compress. -/
def storeCodecs : Codecs where
  lz4Compress data := toLe 4 data.length ++ data
  lz4Decompress compressed :=
    if (compressed.drop 4).length ≤ lz4DeclaredSize compressed then .ok (compressed.drop 4)
    else .error "output too small"
  zstdCompress _ data := .ok data
  zstdDecompress compressed limit :=
    if compressed.length ≤ limit then .ok compressed else .error "output too small"
  frameContentSize compressed := .ok (some compressed.length)

theorem storeCodecs_lawful : storeCodecs.Lawful where
  lz4_declared data := take_left' (length_toLe _ _)
  lz4_roundTrip data h := by
    have hdrop : (toLe 4 data.length ++ data).drop 4 = data := drop_left' (length_toLe _ _)
    have htake : (toLe 4 data.length ++ data).take 4 = toLe 4 data.length :=
      take_left' (length_toLe _ _)
    have hdeclared : ofLe (toLe 4 data.length) = data.length := ofLe_toLe h
    simp only [storeCodecs, lz4DeclaredSize, hdrop, htake, hdeclared, le_refl, if_true]
  lz4_limit compressed data h := by
    simp only [storeCodecs] at h
    split_ifs at h with hle
    cases h
    exact hle
  zstd_declared _ _ _ h := by
    cases h
    rfl
  zstd_roundTrip _ _ _ h := by
    cases h
    exact if_pos le_rfl
  zstd_limit compressed limit data h := by
    simp only [storeCodecs] at h
    split_ifs at h with hle
    cases h
    exact hle

theorem encodeReadableBlock_readable_store :
    ∃ block, encodeReadableBlock storeCodecs [byte 7] (.fixed .lz4) = .ok block ∧
      (decompressBlockWithTrailer storeCodecs block).result = .ok [byte 7] :=
  ⟨_, rfl, (encodeReadableBlock_readable storeCodecs storeCodecs_lawful).1 _ (.fixed .lz4) _ rfl⟩

end Midge
