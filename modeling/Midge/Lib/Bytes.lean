import Mathlib.Tactic

/-!
# Byte strings

Numbers in little-endian order, the CRC-32C checksum of a byte string, and what may be
left of a byte string when writing it is cut short (`Torn`).
-/

/-! ## Little-endian numbers -/

/-- The lowest byte of a number. -/
def lowByte (n : ℕ) : Fin 256 := ⟨n % 256, Nat.mod_lt n (Nat.succ_pos 255)⟩

/-- The number of little-endian bytes. -/
def ofLe : List (Fin 256) → ℕ
  | [] => 0
  | b :: bytes => b.1 + 256 * ofLe bytes

/-- `width` little-endian bytes of a number. -/
def toLe : ℕ → ℕ → List (Fin 256)
  | 0, _ => []
  | width + 1, n => lowByte n :: toLe width (n / 256)

@[simp]
theorem length_toLe (width n : ℕ) : (toLe width n).length = width := by
  induction width generalizing n with
  | zero => rfl
  | succ width ih => simp [toLe, ih]

theorem ofLe_toLe {width n : ℕ} (h : n < 256 ^ width) : ofLe (toLe width n) = n := by
  induction width generalizing n with
  | zero =>
    rw [pow_zero, Nat.lt_one_iff] at h
    rw [h]
    rfl
  | succ width ih =>
    have hdiv : n / 256 < 256 ^ width := by
      rw [pow_succ] at h
      exact Nat.div_lt_of_lt_mul (by rwa [mul_comm] at h)
    rw [toLe, ofLe, ih hdiv]
    exact Nat.mod_add_div n 256

/-! ## Checksums -/

/-- A shift of the remainder, modulo the polynomial. -/
def crcShift (crc : BitVec 32) : BitVec 32 :=
  if crc.getLsbD 0 then (crc >>> 1) ^^^ 0x82F63B78#32 else crc >>> 1

/-- Take a byte into the remainder. -/
def crcByte (crc : BitVec 32) (b : Fin 256) : BitVec 32 :=
  crcShift^[8] (crc ^^^ BitVec.ofNat 32 b.1)

/-- The CRC-32C checksum. -/
def crc32c (bytes : List (Fin 256)) : ℕ :=
  (~~~ bytes.foldl crcByte 0xFFFFFFFF#32).toNat

theorem crc32c_lt (bytes : List (Fin 256)) : crc32c bytes < 256 ^ 4 :=
  (~~~ bytes.foldl crcByte 0xFFFFFFFF#32).isLt

example : crc32c ([49, 50, 51, 52, 53, 54, 55, 56, 57].map lowByte) = 0xE3069283 := by decide +kernel

/-! ## Torn writes -/

/-- What may be left of a write that is cut short: some first bytes, and zeros up to
    the intended length or nothing after them. -/
def Torn (written left : List (Fin 256)) : Prop :=
  ∃ n, left = written.take n ∨
    left = written.take n ++ List.replicate (written.length - n) (lowByte 0)

theorem Torn.length_le {written left : List (Fin 256)} (h : Torn written left) :
    left.length ≤ written.length := by
  obtain ⟨n, rfl | rfl⟩ := h
  · exact (List.take_sublist _ _).length_le
  · simp only [List.length_append, List.length_take, List.length_replicate]
    omega
