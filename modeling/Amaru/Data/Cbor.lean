import Mathlib.Data.List.Induction
import Mathlib.Tactic.Ring

/-!
# Items of CBOR

An item is read back from its bytes, whatever bytes come after them (`decode_encode`). The head of an item
has its kind and a number in as few bytes as it takes; longer heads are read as well. Maps, and strings in
pieces, are left out.

The items of an array of open length are read up to a break (`items_open`), so that an item can be put
in front of the break **without reading those before it**.
-/

open List Option

namespace Cbor

variable {α β : Type*} {kind : Fin 8} {n : ℕ}

/-! ### Heads -/

/-- A number in this many bytes, the highest first. -/
def bigEndian : ℕ → ℕ → List UInt8
  | 0, _ => []
  | k + 1, n => bigEndian k (n / 256) ++ [UInt8.ofNat n]

/-- The number of these bytes. -/
def ofBigEndian (bytes : List UInt8) : ℕ := bytes.foldl (fun n byte ↦ 256 * n + byte.toNat) 0

@[simp] theorem length_bigEndian (k n : ℕ) : (bigEndian k n).length = k := by
  induction k generalizing n with
  | zero => rfl
  | succ k ih => rw [bigEndian, length_append, ih]; rfl

@[simp] theorem ofBigEndian_append (bytes : List UInt8) (byte : UInt8) :
    ofBigEndian (bytes ++ [byte]) = 256 * ofBigEndian bytes + byte.toNat := by
  simp [ofBigEndian]

/-- A number is read back from its bytes. -/
theorem ofBigEndian_bigEndian {k n : ℕ} (h : n < 256 ^ k) : ofBigEndian (bigEndian k n) = n := by
  induction k generalizing n with
  | zero => simp_all [bigEndian, ofBigEndian]
  | succ k ih =>
    rw [bigEndian, ofBigEndian_append, ih (by omega)]
    simp
    omega

theorem ofBigEndian_lt (bytes : List UInt8) : ofBigEndian bytes < 256 ^ bytes.length := by
  induction bytes using reverseRecOn with
  | nil => simp [ofBigEndian]
  | append_singleton bytes byte ih =>
    have := byte.toNat_lt
    rw [ofBigEndian_append, length_append, length_singleton, pow_succ]
    omega

/-- Read this many bytes. -/
def take (n : ℕ) (bytes : List UInt8) : Option (List UInt8 × List UInt8) :=
  if n ≤ bytes.length then some (bytes.take n, bytes.drop n) else none

theorem take_append (bytes rest : List UInt8) (h : bytes.length = n) :
    take n (bytes ++ rest) = some (bytes, rest) := by
  simp [take, ← h]

/-- How many times the bytes of a number double. -/
def width (n : ℕ) : ℕ := if n < 256 then 0 else if n < 256 ^ 2 then 1 else if n < 256 ^ 4 then 2 else 3

/-- The head of an item. -/
def head (kind : Fin 8) (n : ℕ) : List UInt8 :=
  if n < 24 then [UInt8.ofNat (32 * kind + n)]
  else UInt8.ofNat (32 * kind + (24 + width n)) :: bigEndian (2 ^ width n) n

/-- Read a head, with no number if the length is open. -/
def readHead : List UInt8 → Option (Fin 8 × Option ℕ × List UInt8)
  | [] => none
  | byte :: bytes =>
    let kind := Fin.ofNat 8 (byte.toNat / 32)
    let info := byte.toNat % 32
    if info < 24 then some (kind, some info, bytes)
    else if info < 28 then
      (take (2 ^ (info - 24)) bytes).map fun (n, bytes) ↦ (kind, some (ofBigEndian n), bytes)
    else if info = 31 then some (kind, none, bytes)
    else none

theorem width_lt (n : ℕ) : width n < 4 := by
  rw [width]
  split_ifs <;> omega

/-- The bytes are enough. -/
theorem lt_width (hn : n < 256 ^ 8) : n < 256 ^ 2 ^ width n := by
  rw [width]
  split_ifs <;> simpa

/-- A number is read back from its head. -/
theorem readHead_head (hn : n < 256 ^ 8) (rest : List UInt8) :
    readHead (head kind n ++ rest) = some (kind, some n, rest) := by
  have hwidth := width_lt n
  have hstart : ∀ info < 32, Fin.ofNat 8 ((UInt8.ofNat (32 * kind + info)).toNat / 32) = kind ∧
      (UInt8.ofNat (32 * kind + info)).toNat % 32 = info :=
    fun info h ↦ ⟨Fin.ext (by simp; omega), by simp; omega⟩
  rw [head]
  split_ifs with hsmall
  · simp only [singleton_append, readHead, hstart n (by omega), if_pos hsmall]
  · simp only [cons_append, readHead, hstart (24 + width n) (by omega), Nat.add_sub_cancel_left]
    rw [if_neg (by omega), if_pos (by omega), take_append _ _ (length_bigEndian _ _), map_some,
      ofBigEndian_bigEndian (lt_width hn)]

/-- Which bytes a head of a kind starts with. -/
theorem lt_of_head?_head {rest : List UInt8} {byte : UInt8} (h : (head kind n ++ rest).head? = some byte) :
    byte.toNat < 32 * kind + 28 := by
  have hwidth := width_lt n
  rw [head] at h
  split_ifs at h <;> cases h <;> simp <;> omega

theorem length_head_pos (kind : Fin 8) (n : ℕ) : 0 < (head kind n).length := by
  rw [head]
  split_ifs <;> simp

/-! ### Arrays -/

/-- Read the head of an array. -/
def readArray (bytes : List UInt8) : Option (Option ℕ × List UInt8) := do
  let (kind, length, bytes) ← readHead bytes
  if kind = 4 then some (length, bytes) else none

/-- A length is read back. -/
theorem readArray_head (hn : n < 256 ^ 8) (rest : List UInt8) :
    readArray (head 4 n ++ rest) = some (some n, rest) := by
  simp [readArray, readHead_head hn]

/-- The items of an array. Where the length is open, each takes a byte at least, so that the bytes are fuel
enough. -/
def items (decode : List UInt8 → Option (α × List UInt8)) :
    ℕ → Option ℕ → List UInt8 → Option (List α × List UInt8)
  | 0, _, _ => none
  | fuel + 1, length, bytes =>
    if length = some 0 then some ([], bytes)
    else if length = none ∧ bytes.head? = some 0xFF then some ([], bytes.tail)
    else do
      let (item, bytes) ← decode bytes
      let (rest, bytes) ← items decode fuel (length.map (· - 1)) bytes
      some (item :: rest, bytes)

/-- Read the items of an array after its head. -/
def readItems (decode : List UInt8 → Option (α × List UInt8)) (length : Option ℕ) (bytes : List UInt8) :
    Option (List α × List UInt8) :=
  items decode (length.getD bytes.length + 1) length bytes

section

variable {decode : List UInt8 → Option (α × List UInt8)} {encode : β → List UInt8} {value : β → α}
  {written : List β} (hdecode : ∀ b ∈ written, ∀ rest, decode (encode b ++ rest) = some (value b, rest))
include hdecode

/-- Items are read back where their number is given. -/
theorem items_definite (rest : List UInt8) :
    readItems decode (some written.length) (written.flatMap encode ++ rest) =
      some (written.map value, rest) := by
  rw [readItems]
  induction written with
  | nil => rfl
  | cons b written ih =>
    rw [forall_mem_cons] at hdecode
    rw [flatMap_cons, append_assoc, getD_some, length_cons, items, if_neg (by simp), if_neg (by simp),
      hdecode.1]
    simp [show items decode (written.length + 1) _ _ = _ from ih hdecode.2]

/-- The items of an array of open length are read up to the break. -/
theorem items_open (hbreak : ∀ b rest, (encode b ++ rest).head? ≠ some 0xFF)
    (hpos : ∀ b, 0 < (encode b).length) (rest : List UInt8) :
    readItems decode none (written.flatMap encode ++ 0xFF :: rest) = some (written.map value, rest) := by
  suffices h : ∀ fuel, (written.flatMap encode ++ 0xFF :: rest).length ≤ fuel →
      items decode fuel none (written.flatMap encode ++ 0xFF :: rest) = some (written.map value, rest) from
    h _ (Nat.le_succ _)
  intro fuel hfuel
  induction written generalizing fuel with
  | nil =>
    obtain - | fuel := fuel
    · cases hfuel
    · simp [items]
  | cons b written ih =>
    rw [forall_mem_cons] at hdecode
    rw [flatMap_cons, append_assoc] at hfuel ⊢
    rw [length_append] at hfuel
    have := hpos b
    obtain - | fuel := fuel
    · omega
    rw [items, if_neg (by simp), if_neg fun h ↦ hbreak b _ h.2, hdecode.1]
    simp [ih hdecode.2 fuel (by omega)]

end

/-! ### Items -/

end Cbor

/-- An item. -/
inductive Cbor
  | uint (n : Fin (256 ^ 8))
  | nint (n : Fin (256 ^ 8))
  | bytes (string : List UInt8)
  | text (string : List UInt8)
  | array (isOpen : Bool) (items : List Cbor)
  | tag (n : Fin (256 ^ 8)) (item : Cbor)
  /-- A simple value or a float. -/
  | simple (n : Fin (256 ^ 8))

namespace Cbor

/-- There are numerals for what is in a head. -/
instance : NeZero (256 ^ 8) := ⟨by decide⟩

mutual

/-- The bytes of an item. -/
def encode : Cbor → List UInt8
  | uint n => head 0 n
  | nint n => head 1 n
  | bytes string => head 2 string.length ++ string
  | text string => head 3 string.length ++ string
  | array isOpen items =>
    if isOpen then 0x9F :: (encodeAll items ++ [0xFF]) else head 4 items.length ++ encodeAll items
  | tag n item => head 6 n ++ encode item
  | simple n => head 7 n

/-- The bytes of items. -/
def encodeAll : List Cbor → List UInt8
  | [] => []
  | item :: items => encode item ++ encodeAll items

end

/-- Read an item. -/
def decode : ℕ → List UInt8 → Option (Cbor × List UInt8)
  | 0, _ => none
  | fuel + 1, input => do
    let (kind, n, rest) ← readHead input
    match kind, n with
    | 0, some n => some (uint (.ofNat _ n), rest)
    | 1, some n => some (nint (.ofNat _ n), rest)
    | 2, some n => (Cbor.take n rest).map fun (string, rest) ↦ (bytes string, rest)
    | 3, some n => (Cbor.take n rest).map fun (string, rest) ↦ (text string, rest)
    | 4, n => (readItems (decode fuel) n rest).map fun (items, rest) ↦ (array n.isNone items, rest)
    | 6, some n => (decode fuel rest).map fun (item, rest) ↦ (tag (.ofNat _ n) item, rest)
    | 7, some n => some (simple (.ofNat _ n), rest)
    | _, _ => none

theorem encodeAll_eq (items : List Cbor) : encodeAll items = items.flatMap encode := by
  induction items with
  | nil => rfl
  | cons item items ih => rw [encodeAll, ih, flatMap_cons]

/-- An item has bytes. -/
theorem length_encode_pos (item : Cbor) : 0 < (encode item).length := by
  cases item with
  | array isOpen => cases isOpen <;> simp [encode, length_head_pos]
  | _ => simp [encode, length_head_pos]

/-- Items are not longer than all of them. -/
theorem length_encodeAll (items : List Cbor) : items.length ≤ (encodeAll items).length ∧
    ∀ item ∈ items, (encode item).length ≤ (encodeAll items).length := by
  induction items with
  | nil => simp
  | cons item items ih =>
    have := length_encode_pos item
    simp only [encodeAll, length_append, length_cons, forall_mem_cons]
    exact ⟨by omega, by omega, fun other h ↦ (ih.2 other h).trans (Nat.le_add_left _ _)⟩

/-- An item does not start like a break. -/
theorem head?_encode (item : Cbor) (rest : List UInt8) : (encode item ++ rest).head? ≠ some 0xFF := by
  intro h
  cases item with
  | array isOpen =>
    cases isOpen
    · simp only [encode, Bool.false_eq_true, if_false, append_assoc] at h
      exact absurd (lt_of_head?_head h) (by decide)
    · simp [encode] at h
  | _ =>
    simp only [encode, append_assoc] at h
    exact absurd (lt_of_head?_head h) (by decide)

/-- **An item is read back**, if its bytes can be counted. -/
theorem decode_encode : ∀ (item : Cbor) {fuel : ℕ}, (encode item).length < 256 ^ 8 →
    (encode item).length ≤ fuel → ∀ rest, decode fuel (encode item ++ rest) = some (item, rest)
  | item, 0, _, hfuel, _ => absurd (length_encode_pos item) (by omega)
  | uint n, _ + 1, _, _, rest => by simp [encode, decode, readHead_head n.2]
  | nint n, _ + 1, _, _, rest => by simp [encode, decode, readHead_head n.2]
  | simple n, _ + 1, _, _, rest => by simp [encode, decode, readHead_head n.2]
  | bytes string, _ + 1, hlt, _, rest => by
    rw [encode, length_append] at hlt
    simp [encode, decode, readHead_head (n := string.length) (by omega), take_append]
  | text string, _ + 1, hlt, _, rest => by
    rw [encode, length_append] at hlt
    simp [encode, decode, readHead_head (n := string.length) (by omega), take_append]
  | tag n item, fuel + 1, hlt, hfuel, rest => by
    have := length_head_pos 6 n
    rw [encode, length_append] at hlt hfuel
    have hitem : ∀ rest, decode fuel (encode item ++ rest) = some (item, rest) :=
      decode_encode item (by omega) (by omega)
    simp [encode, decode, readHead_head n.2, hitem]
  | array isOpen items, fuel + 1, hlt, hfuel, rest => by
    obtain ⟨hcount, hle⟩ := length_encodeAll items
    have hbytes : (encodeAll items).length < (encode (array isOpen items)).length := by
      have := length_head_pos 4 items.length
      rw [encode]
      split_ifs <;> simp only [length_append, length_cons] <;> omega
    have hitem : ∀ item ∈ items, ∀ rest, decode fuel (encode item ++ rest) = some (item, rest) :=
      fun item hmem ↦ decode_encode item ((hle item hmem).trans_lt (hbytes.trans hlt))
        (Nat.le_of_lt_succ ((hle item hmem).trans_lt (hbytes.trans_le hfuel)))
    cases isOpen
    · simp [encode, decode, readHead_head (n := items.length) (by omega), encodeAll_eq,
        items_definite hitem]
    · have hopen := items_open hitem head?_encode length_encode_pos rest
      simp [encode, decode, readHead, encodeAll_eq, hopen]

end Cbor
