import Midge.Types
import Midge.Lib.Update

/-!
# Metadata frames

The manifest, the journal and the intents are written as frames: a header with a magic,
a kind and a length, a payload, and a checksum of both. The payload is one value of
MessagePack, that `serde` writes and reads (`Serde`).

Before a payload is decoded its extents are validated (`Framing.validate`): the bytes
have to be one MessagePack value (`IsMessagePack`), and a container may not announce more
children than there are bytes left.
-/

namespace Midge

open List Update

/-! ## MessagePack -/

/-- The number of big-endian bytes. -/
def ofBe (bytes : List Byte) : ℕ := bytes.foldl (fun value b => value * 256 + b.1) 0

/-- What stands after a marker. -/
inductive Layout
  /-- That many bytes. -/
  | fixed (length : ℕ)
  /-- The length in `width` bytes, and so many bytes with `extra` more. -/
  | sized (width extra : ℕ)
  /-- That many values. -/
  | children (count : ℕ)
  /-- The count in `width` bytes, and `per` values for each. -/
  | counted (width per : ℕ)
  deriving DecidableEq

/-- The formats of MessagePack: their first and last marker, and what stands after the
    `n`-th of them. The marker `0xc1` is never used. -/
def formats : List (ℕ × ℕ × (ℕ → Layout)) :=
  [(0x00, 0x7f, fun _ => .fixed 0), -- positive fixint
    (0x80, 0x8f, fun n => .children (2 * n)), -- fixmap
    (0x90, 0x9f, fun n => .children n), -- fixarray
    (0xa0, 0xbf, fun n => .fixed n), -- fixstr
    (0xc0, 0xc0, fun _ => .fixed 0), -- nil
    (0xc2, 0xc3, fun _ => .fixed 0), -- false, true
    (0xc4, 0xc6, fun n => .sized (2 ^ n) 0), -- bin 8, 16, 32
    (0xc7, 0xc9, fun n => .sized (2 ^ n) 1), -- ext 8, 16, 32: a type before the data
    (0xca, 0xcb, fun n => .fixed (4 * 2 ^ n)), -- float 32, 64
    (0xcc, 0xcf, fun n => .fixed (2 ^ n)), -- uint 8 to 64
    (0xd0, 0xd3, fun n => .fixed (2 ^ n)), -- int 8 to 64
    (0xd4, 0xd8, fun n => .fixed (1 + 2 ^ n)), -- fixext 1 to 16
    (0xd9, 0xdb, fun n => .sized (2 ^ n) 0), -- str 8, 16, 32
    (0xdc, 0xdd, fun n => .counted (2 * 2 ^ n) 1), -- array 16, 32
    (0xde, 0xdf, fun n => .counted (2 * 2 ^ n) 2), -- map 16, 32
    (0xe0, 0xff, fun _ => .fixed 0)] -- negative fixint

/-- What stands after a marker, as MessagePack has it. -/
def formatOf (marker : Byte) : Option Layout :=
  formats.findSome? fun f =>
    if f.1 ≤ marker.1 ∧ marker.1 ≤ f.2.1 then some (f.2.2 (marker.1 - f.1)) else none

/-- So many byte strings with `P`, one after the other. -/
def Values (P : List Byte → Prop) (count : ℕ) (bytes : List Byte) : Prop :=
  ∃ values : List (List Byte), values.length = count ∧ bytes = values.flatten ∧ ∀ v ∈ values, P v

/-- The bytes are laid out so, with values that have `P`. -/
def LaidOut (P : List Byte → Prop) : Option Layout → List Byte → Prop
  | some (.fixed length), bytes => bytes.length = length
  | some (.sized width extra), bytes =>
    ∃ size body, bytes = size ++ body ∧ size.length = width ∧ body.length = ofBe size + extra
  | some (.children count), bytes => Values P count bytes
  | some (.counted width per), bytes =>
    ∃ count body, bytes = count ++ body ∧ count.length = width ∧ Values P (ofBe count * per) body
  | none, _ => False

/-- The bytes are one MessagePack value, nested at most `levels` deep. -/
def IsMessagePack : ℕ → List Byte → Prop
  | 0, _ => False
  | levels + 1, bytes =>
    ∃ marker body, bytes = marker :: body ∧ LaidOut (IsMessagePack levels) (formatOf marker) body

theorem IsMessagePack.ne_nil {levels : ℕ} {bytes : List Byte} (h : IsMessagePack levels bytes) :
    bytes ≠ [] := by
  cases levels with
  | zero => exact h.elim
  | succ levels =>
    obtain ⟨marker, body, rfl, -⟩ := h
    exact cons_ne_nil marker body

/-! ## The validator -/

/-- The bytes not read so far, and the number of values that reading has begun with. -/
structure Framing where
  rest : List Byte
  work : ℕ
  deriving DecidableEq

/-- Updates of what has been read. -/
abbrev FramingM := Update MidgeError Framing

namespace Framing

def corruption (message : String) : MidgeError := .corruption message

/-- Take so many bytes. An extent that overflows is beyond the bytes as well. -/
def take (length : ℕ) : FramingM (List Byte) := do
  let s ← get
  Update.check (ensure (length ≤ s.rest.length) (corruption "truncated metadata value"))
  modify fun s => { s with rest := s.rest.drop length }
  return s.rest.take length

/-- Take a number of `width` bytes. -/
def length (width : ℕ) : FramingM ℕ := do
  let bytes ← take width
  return ofBe bytes

/-- Do it so many times. -/
def times (value : FramingM Unit) : ℕ → FramingM Unit
  | 0 => pure ()
  | count + 1 => do
    value
    times value count

/-- So many values. Every one takes its marker at least, so that a larger count is
    refused at once. -/
def children (value : FramingM Unit) (count : ℕ) :
    FramingM Unit := do
  let s ← get
  Update.check (ensure (count ≤ s.rest.length)
    (corruption "metadata child count exceeds remaining frame"))
  times value count

/-- What stands after a marker. -/
def layout (marker : ℕ) : Option Layout :=
  if marker ≤ 0x7f ∨ marker = 0xc0 ∨ marker = 0xc2 ∨ marker = 0xc3 ∨ 0xe0 ≤ marker then
    some (.fixed 0)
  else if 0xa0 ≤ marker ∧ marker ≤ 0xbf then some (.fixed (marker &&& 0x1f))
  else if marker = 0xcc ∨ marker = 0xd0 then some (.fixed 1)
  else if marker = 0xcd ∨ marker = 0xd1 ∨ marker = 0xd4 then some (.fixed 2)
  else if marker = 0xd5 then some (.fixed 3)
  else if marker = 0xca ∨ marker = 0xce ∨ marker = 0xd2 then some (.fixed 4)
  else if marker = 0xd6 then some (.fixed 5)
  else if marker = 0xcb ∨ marker = 0xcf ∨ marker = 0xd3 then some (.fixed 8)
  else if marker = 0xd7 then some (.fixed 9)
  else if marker = 0xd8 then some (.fixed 17)
  else if 0x80 ≤ marker ∧ marker ≤ 0x8f then some (.children ((marker &&& 0x0f) * 2))
  else if 0x90 ≤ marker ∧ marker ≤ 0x9f then some (.children (marker &&& 0x0f))
  else if (0xc4 ≤ marker ∧ marker ≤ 0xc9) ∨ (0xd9 ≤ marker ∧ marker ≤ 0xdb) then
    some (.sized
      (if marker = 0xc4 ∨ marker = 0xc7 ∨ marker = 0xd9 then 1
        else if marker = 0xc5 ∨ marker = 0xc8 ∨ marker = 0xda then 2 else 4)
      (if 0xc7 ≤ marker ∧ marker ≤ 0xc9 then 1 else 0))
  else if 0xdc ≤ marker ∧ marker ≤ 0xdf then
    some (.counted (if marker = 0xdc ∨ marker = 0xde then 2 else 4)
      (if 0xde ≤ marker then 2 else 1))
  else none

/-- Take what stands after a marker. -/
def body (value : FramingM Unit) : Option Layout → FramingM Unit
  | some (.fixed length) => discard (take length)
  | some (.sized width extra) => do
    let size ← length width
    discard (take (size + extra))
  | some (.children count) => children value count
  | some (.counted width per) => do
    let count ← length width
    children value (count * per)
  | none => throw (corruption "reserved metadata marker")

/-- Take a value, at `levels` levels above the limit of 64. -/
def value : ℕ → FramingM Unit
  | 0 => do
    modify fun s => { s with work := s.work + 1 }
    throw (corruption "metadata nesting exceeds decoder limit")
  | levels + 1 => do
    modify fun s => { s with work := s.work + 1 }
    let marker ← take 1
    body (value levels) (layout (ofBe marker))

def maxDepth : ℕ := 64

/-- Take the payload as one value. -/
def validateAll : FramingM Unit := do
  value maxDepth
  let s ← get
  Update.check (ensure (s.rest = []) (corruption "metadata payload has trailing bytes"))

def validate (payload : List Byte) : MidgeResult Unit :=
  match validateAll ⟨payload, 0⟩ with
  | .ok _ _ => .ok ()
  | .error e _ => .error e

theorem layout_eq : ∀ marker : Byte, layout (ofBe [marker]) = formatOf marker := by
  decide +kernel

/-! ## What the validator accepts -/

theorem yields_take {s : Framing} {length : ℕ} {Q : List Byte → Framing → Prop}
    {E : MidgeError → Framing → Prop}
    (hok : ∀ bytes rest, s.rest = bytes ++ rest → bytes.length = length → Q bytes ⟨rest, s.work⟩)
    (herror : s.rest.length < length → ∀ e, E e s) : (take length).Yields s Q E := by
  refine yields_bind (yields_get (yields_bind (yields_check ?_ ?_)))
  · intro _ hle
    exact hok _ _ (take_append_drop length s.rest).symm
      (length_take_of_le (ensure_eq_ok.mp hle))
  · intro e he
    refine herror (not_le.mp fun hle => ?_) e
    rw [ensure, if_pos hle] at he
    cases he

/-- The values begun with, and the bytes that more values may begin at. -/
def spent (s : Framing) : ℕ := s.work + s.rest.length

/-- The update takes a byte string with `P` whenever there is one, and no other. Each
    value that it begins with takes a byte, up to the one at which it fails. -/
structure Decides (x : FramingM Unit) (P : List Byte → Prop) : Prop where
  sound : ∀ s bound, s.spent ≤ bound → x.Yields s
    (fun _ s' => s'.spent ≤ bound ∧ ∃ bytes, s.rest = bytes ++ s'.rest ∧ P bytes)
    fun _ s' => s'.spent ≤ bound + 1
  complete : ∀ bytes tail work, P bytes → x.Yields ⟨bytes ++ tail, work⟩
    (fun _ s' => s'.rest = tail) fun _ _ => False

/-- Bytes that are there are taken. -/
theorem yields_take_append {bytes tail : List Byte} {work : ℕ} {Q : List Byte → Framing → Prop}
    (h : Q bytes ⟨tail, work⟩) :
    (take bytes.length).Yields ⟨bytes ++ tail, work⟩ Q fun _ _ => False := by
  refine yields_take (fun taken rest heq hlen => ?_) fun hlt => ?_
  · obtain ⟨rfl, rfl⟩ := append_inj heq hlen.symm
    exact h
  · rw [length_append] at hlt
    omega

/-- Bytes that are taken are not spent twice. -/
theorem yields_take_spent {s : Framing} {length bound : ℕ} {Q : List Byte → Framing → Prop}
    (hs : s.spent ≤ bound + 1)
    (h : ∀ bytes s', s.rest = bytes ++ s'.rest → bytes.length = length →
      s'.spent + length = s.spent → Q bytes s') :
    (take length).Yields s Q fun _ s' => s'.spent ≤ bound + 1 := by
  refine yields_take (fun bytes rest heq hlen => h bytes _ heq hlen ?_) fun _ _ => hs
  simp only [spent, heq, length_append]
  omega

theorem decides_take (length : ℕ) : Decides (discard (take length)) (·.length = length) where
  sound s bound hs := yields_discard <| yields_take_spent (hs.trans (Nat.le_succ bound))
    fun bytes s' heq hlen hspent => ⟨by omega, bytes, heq, hlen⟩
  complete bytes tail work hlen := by
    subst hlen
    exact yields_discard (yields_take_append rfl)

/-- A number before what it decides on. -/
theorem decides_length {f : ℕ → FramingM Unit} {Q : ℕ → List Byte → Prop}
    (width : ℕ) (h : ∀ n, Decides (f n) (Q n)) :
    Decides (length width >>= f) fun bytes =>
      ∃ number body, bytes = number ++ body ∧ number.length = width ∧ Q (ofBe number) body where
  sound s bound hs := by
    refine yields_bind (yields_bind (yields_take_spent (hs.trans (Nat.le_succ bound))
      fun number s' heq hlen hspent => ?_))
    refine ((h (ofBe number)).sound s' bound (by omega)).imp ?_ fun _ _ hE => hE
    rintro _ t ⟨ht, body, hbody, hQ⟩
    refine ⟨ht, number ++ body, ?_, number, body, rfl, hlen, hQ⟩
    rw [heq, hbody, append_assoc]
  complete bytes tail work hbytes := by
    obtain ⟨number, body, rfl, rfl, hQ⟩ := hbytes
    rw [append_assoc]
    exact yields_bind (yields_bind
      (yields_take_append ((h (ofBe number)).complete body tail work hQ)))

namespace Decides

variable {x : FramingM Unit} {P : List Byte → Prop}

theorem times (h : Decides x P) (count : ℕ) : Decides (times x count) (Values P count) := by
  induction count with
  | zero =>
    refine ⟨fun s bound hs => ⟨hs, [], rfl, [], rfl, rfl, nofun⟩, fun bytes tail work hvalues => ?_⟩
    obtain ⟨values, hlen, rfl, -⟩ := hvalues
    rw [length_eq_zero_iff] at hlen
    subst hlen
    exact yields_pure rfl
  | succ count ih =>
    constructor
    · intro s bound hs
      refine yields_bind ((h.sound s bound hs).imp ?_ fun _ _ hE => hE)
      rintro _ s₁ ⟨hs₁, first, heq, hfirst⟩
      refine (ih.sound s₁ bound hs₁).imp ?_ fun _ _ hE => hE
      rintro _ s₂ ⟨hs₂, bytes, heq', values, rfl, rfl, hvalues⟩
      refine ⟨hs₂, first ++ values.flatten, ?_, first :: values, rfl, rfl, ?_⟩
      · rw [heq, heq', append_assoc]
      · exact forall_mem_cons.mpr ⟨hfirst, hvalues⟩
    · rintro _ tail work ⟨values, hlen, rfl, hvalues⟩
      obtain ⟨first, values, rfl⟩ := exists_cons_of_length_eq_add_one hlen
      rw [forall_mem_cons] at hvalues
      rw [flatten_cons, append_assoc]
      refine yields_bind ((h.complete first _ work hvalues.1).imp ?_ fun _ _ hE => hE)
      rintro _ ⟨rest, work'⟩ rfl
      exact ih.complete _ tail work' ⟨values, Nat.succ.inj hlen, rfl, hvalues.2⟩

/-- Every value takes a byte, so that no count of values that are there is refused. -/
theorem children (h : Decides x P) (hne : ∀ v, P v → v ≠ []) (count : ℕ) :
    Decides (children x count) (Values P count) := by
  have htimes := h.times count
  constructor
  · intro s bound hs
    refine yields_bind (yields_get (yields_bind (yields_check ?_ ?_)))
    · exact fun _ _ => htimes.sound s bound hs
    · exact fun _ _ => hs.trans (Nat.le_succ bound)
  · intro bytes tail work hbytes
    have hle : count ≤ (bytes ++ tail).length := by
      obtain ⟨values, rfl, rfl, hvalues⟩ := hbytes
      have hsum : values.length • 1 ≤ (values.map List.length).sum := by
        rw [← length_map List.length]
        refine card_nsmul_le_sum _ 1 fun n hn => ?_
        obtain ⟨v, hv, rfl⟩ := mem_map.mp hn
        exact length_pos_iff.mpr (hne v (hvalues v hv))
      rw [length_append, length_flatten]
      rw [smul_eq_mul, mul_one] at hsum
      omega
    refine yields_bind (yields_get (yields_bind (yields_check ?_ ?_)))
    · exact fun _ _ => htimes.complete bytes tail work hbytes
    · intro e he
      rw [ensure, if_pos hle] at he
      cases he

theorem body (h : Decides x P) (hne : ∀ v, P v → v ≠ []) (layout : Option Layout) :
    Decides (body x layout) (LaidOut P layout) := by
  rcases layout with _ | length | ⟨width, extra⟩ | count | ⟨width, per⟩
  · exact ⟨fun s bound hs => yields_throw (hs.trans (Nat.le_succ bound)), nofun⟩
  · exact decides_take length
  · exact decides_length width fun size => decides_take (size + extra)
  · exact h.children hne count
  · exact decides_length width fun n => h.children hne (n * per)

end Decides

theorem decides_value (levels : ℕ) : Decides (value levels) (IsMessagePack levels) := by
  induction levels with
  | zero =>
    refine ⟨fun s bound hs => ?_, nofun⟩
    change s.work + 1 + s.rest.length ≤ bound + 1
    rw [spent] at hs
    omega
  | succ levels ih =>
    have hbody := fun layout => ih.body (fun _ => IsMessagePack.ne_nil) layout
    constructor
    · intro s bound hs
      have hbegun : spent ⟨s.rest, s.work + 1⟩ = s.spent + 1 := by
        simp only [spent]
        omega
      refine yields_bind (yields_modify (yields_bind
        (yields_take_spent (by omega) fun bytes s' heq hlen hspent => ?_)))
      obtain ⟨marker, rfl⟩ := length_eq_one_iff.mp hlen
      rw [layout_eq]
      refine ((hbody (formatOf marker)).sound s' bound (by omega)).imp ?_ fun _ _ hE => hE
      rintro _ t ⟨ht, body, hrest, hbody⟩
      refine ⟨ht, marker :: body, ?_, marker, body, rfl, hbody⟩
      exact heq.trans (congrArg ([marker] ++ ·) hrest)
    · rintro _ tail work ⟨marker, body, rfl, hlaid⟩
      refine yields_bind (yields_modify (yields_bind ?_))
      change (take [marker].length).Yields ⟨[marker] ++ (body ++ tail), work + 1⟩ _ _
      refine yields_take_append ?_
      rw [layout_eq]
      exact (hbody (formatOf marker)).complete body tail (work + 1) hlaid

theorem validate_eq_ok {payload : List Byte} :
    validate payload = .ok () ↔ IsMessagePack maxDepth payload := by
  have hsound : validateAll.Yields ⟨payload, 0⟩ (fun _ _ => IsMessagePack maxDepth payload)
      fun _ _ => True := by
    refine yields_bind (((decides_value maxDepth).sound _ _ le_rfl).imp ?_ fun _ _ _ => trivial)
    rintro _ s ⟨-, bytes, heq, hbytes⟩
    refine yields_bind (yields_get (yields_check (fun _ hend => ?_)
      fun _ _ => trivial))
    rw [ensure_eq_ok] at hend
    rw [hend, append_nil] at heq
    subst heq
    exact hbytes
  constructor
  · intro h
    rw [validate] at h
    rw [Update.Yields] at hsound
    split at h
    · simpa [*] using hsound
    · cases h
  · intro h
    have hcomplete : validateAll.Yields ⟨payload, 0⟩ (fun _ _ => True) fun _ _ => False := by
      have hvalue := (decides_value maxDepth).complete payload [] 0 h
      rw [append_nil] at hvalue
      refine yields_bind (hvalue.imp ?_ fun _ _ hE => hE)
      rintro _ ⟨rest, work⟩ rfl
      exact trivial
    rw [Update.Yields] at hcomplete
    rw [validate]
    split at hcomplete
    · simp [*]
    · exact hcomplete.elim

end Framing

/-! ## Frames -/

/-- The serializer and the deserializer of a type of metadata. -/
structure Serde (T : Type) where
  toVecNamed : T → Except String (List Byte)
  deserialize : List Byte → Except String T

/-- What is serialized is read back. -/
def Serde.Lawful {T : Type} (serde : Serde T) : Prop :=
  ∀ value payload, serde.toVecNamed value = .ok payload → serde.deserialize payload = .ok value

namespace Metadata

variable {T : Type} (serde : Serde T)

variable {serde}

end Metadata

end Midge
