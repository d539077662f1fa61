import Amaru.Data.Cbor
import Mathlib.Data.List.Sort
import Mathlib.Data.Rat.Lemmas

/-!
# The bytes of a pool row

A pool row ends with its pending certificates, as an array of open length. A certificate is **appended by
splicing its bytes in front of the break**, without reading the row. What is read back is the row with the
certificate behind those that were pending (`splicing_appends`), also where the row was written with the
legacy layout of certificates.

Rows are written and read for protocol version 11: a set is written without a tag, and a string is in one
piece.
-/

namespace Amaru.PoolRows

open List Cbor Option

/-! ### The parameters of a pool -/

/-- Unsigned integers of 64 bits. -/
abbrev U64 := Fin (256 ^ 8)

/-- Byte strings of one length. -/
abbrev Hash (n : ℕ) := Fin (256 ^ n)

/-- The account of a key or of a script, on one of the networks. -/
structure RewardAccount where
  isScript : Bool
  isMainnet : Bool
  hash : Hash 28

/-- A text of a relay or of metadata. -/
abbrev MaxString128 := { text : String // text.utf8ByteSize ≤ 128 }

/-- Ratios from zero to one. -/
abbrev UnitRationalNumber := { q : ℚ // 0 ≤ q ∧ q ≤ 1 ∧ q.den < 256 ^ 8 }

/-- A set, held in ascending order. -/
abbrev VecSet (n : ℕ) := { elements : List (Hash n) // elements.Pairwise (· < ·) }

/-- Where a pool is reached. -/
inductive Relay
  | singleHostAddr (port : Option (Fin (256 ^ 2))) (ipv4 : Option (Hash 4)) (ipv6 : Option (Hash 16))
  | singleHostName (port : Option (Fin (256 ^ 2))) (name : MaxString128)
  | multiHostName (name : MaxString128)

/-- The parameters of a pool. -/
structure PoolParams where
  id : Hash 28
  vrf : Hash 32
  pledge : U64
  cost : U64
  margin : UnitRationalNumber
  rewardAccount : RewardAccount
  owners : VecSet 28
  relays : List Relay
  metadata : Option (MaxString128 × List UInt8)

/-- The code of a type: an item for each value, and the values of items. -/
structure Code (α : Type) where
  encode : α → Cbor
  decode : Cbor → Option α
  decode_encode (a : α) : decode (encode a) = some a

attribute [simp] Code.decode_encode

/-- Numbers below a bound. -/
def number (bound : ℕ) (hbound : bound ≤ 256 ^ 8) : Code (Fin bound) where
  encode n := .uint (n.castLE hbound)
  decode
    | .uint n => if h : n < bound then some ⟨n, h⟩ else none
    | _ => none
  decode_encode n := by simp

/-- Numbers of 64 bits. -/
def u64 : Code U64 := number _ le_rfl

/-- Byte strings of one length. -/
def hash (n : ℕ) : Code (Hash n) where
  encode h := .bytes (bigEndian n h)
  decode
    | .bytes string => if h : string.length = n then some ⟨_, h ▸ ofBigEndian_lt string⟩ else none
    | _ => none
  decode_encode h := by simp [ofBigEndian_bigEndian h.2]

/-- Texts. -/
def maxString128 : Code MaxString128 where
  encode text := .text text.1.toByteArray.data.toList
  decode
    | .text string => (String.fromUTF8? ⟨string.toArray⟩).bind fun text ↦
      if h : _ then some ⟨text, h⟩ else none
    | _ => none
  decode_encode text := by
    simp only [String.fromUTF8?, text.1.isValidUTF8, ↓reduceDIte, bind_some]
    exact dif_pos text.2

/-- A null, or something else. -/
def nullable {α : Type} (code : Code α) (h : ∀ a n, code.encode a ≠ .simple n) : Code (Option α) where
  encode a := a.elim (.simple 22) code.encode
  decode
    | .simple n => if n = 22 then some none else none
    | item => (code.decode item).map some
  decode_encode a := by
    rcases a with - | a
    · rfl
    · simp only [elim_some]
      split
      · next n heq => exact absurd heq (h a n)
      · simp

/-- The items of a list. -/
theorem mapM_encode {α : Type} (code : Code α) (l : List α) :
    l.mapM (code.decode ∘ code.encode) = some l := by
  rw [show code.decode ∘ code.encode = some from funext code.decode_encode]
  simpa using mapM_pure (m := Option) (l := l) (f := id)

/-- An integer. One of more than eight bytes is a string with a tag. -/
def decodeInteger : Cbor → Option ℤ
  | .uint n => some n
  | .nint n => some (-1 - n)
  | .tag n (.bytes string) =>
    if n = 2 then some (ofBigEndian string) else if n = 3 then some (-1 - ofBigEndian string) else none
  | _ => none

/-- A numerator is a number of 64 bits. -/
theorem num_lt (q : UnitRationalNumber) : q.1.num.toNat < 256 ^ 8 := by
  have hle := (Rat.le_iff _ _).1 q.2.2.1
  have := q.2.2.2
  simp at hle
  omega

/-- Ratios, reduced when they are read. -/
def unitRationalNumber : Code UnitRationalNumber where
  encode q := .tag 30 (.array false [.uint ⟨_, num_lt q⟩, .uint ⟨q.1.den, q.2.2.2⟩])
  decode
    | .tag n (.array _ [numerator, denominator]) => do
      let numerator ← decodeInteger numerator
      let denominator ← decodeInteger denominator
      if h : _ then
        if n = 30 ∧ denominator ≠ 0 then some ⟨Rat.divInt numerator denominator, h⟩ else none
      else none
    | _ => none
  decode_encode q := by
    have hnum : (q.1.num.toNat : ℤ) = q.1.num := Int.toNat_of_nonneg (Rat.num_nonneg.2 q.2.1)
    simpa [decodeInteger, hnum, q.2] using q.2.2.2

/-- The header of a reward account: its kind, and its network. -/
def RewardAccount.asHeader (account : RewardAccount) : ℕ :=
  16 * (14 + account.isScript.toNat) + account.isMainnet.toNat

/-- Reward accounts: a header and a hash, in one string. -/
def rewardAccount : Code RewardAccount where
  encode account := .bytes (UInt8.ofNat account.asHeader :: bigEndian 28 account.hash)
  decode
    | .bytes (header :: payload) =>
      if h : payload.length = 28 then
        let account := fun isScript isMainnet ↦
          some ⟨isScript, isMainnet, _, h ▸ ofBigEndian_lt payload⟩
        match header with
        | 0xE0 => account false false
        | 0xE1 => account false true
        | 0xF0 => account true false
        | 0xF1 => account true true
        | _ => none
      else none
    | _ => none
  decode_encode account := by
    rcases account with ⟨_ | _, _ | _, hash⟩ <;>
      simp [RewardAccount.asHeader, ofBigEndian_bigEndian hash.2]

/-- Sets. One of 24 or more is an array of open length, and a tag may come first. -/
def vecSet (n : ℕ) : Code (VecSet n) where
  encode set := .array (23 < set.1.length) (set.1.map (hash n).encode)
  decode item := do
    let elements ← match item with
      | .tag 258 (.array _ items) | .array _ items => items.mapM (hash n).decode
      | _ => none
    if h : (elements.insertionSort (· ≤ ·)).Pairwise (· < ·) then some ⟨_, h⟩ else none
  decode_encode set := by simp [mapM_encode, (set.2.imp le_of_lt).insertionSort_eq, set.2]

/-- Ports. -/
def port : Code (Option (Fin (256 ^ 2))) := nullable (number _ (by decide)) nofun

/-- Addresses. -/
def ip (n : ℕ) : Code (Option (Hash n)) := nullable (hash n) nofun

/-- Relays: a variant, and what it has. -/
def relay : Code Relay where
  encode
    | .singleHostAddr a b c => .array false [.uint 0, port.encode a, (ip 4).encode b, (ip 16).encode c]
    | .singleHostName a b => .array false [.uint 1, port.encode a, maxString128.encode b]
    | .multiHostName a => .array false [.uint 2, maxString128.encode a]
  decode
    | .array _ [.uint 0, a, b, c] => do
      some (.singleHostAddr (← port.decode a) (← (ip 4).decode b) (← (ip 16).decode c))
    | .array _ [.uint 1, a, b] => do some (.singleHostName (← port.decode a) (← maxString128.decode b))
    | .array _ [.uint 2, a] => (maxString128.decode a).map .multiHostName
    | _ => none
  decode_encode a := by rcases a with _ | _ | _ <;> simp

/-- Where a pool is described, and the hash of it. -/
def poolMetadata : Code (MaxString128 × List UInt8) where
  encode metadata := .array false [maxString128.encode metadata.1, .bytes metadata.2]
  decode
    | .array _ [url, .bytes contentHash] => (maxString128.decode url).map (·, contentHash)
    | _ => none
  decode_encode _ := by simp

/-- The parameters of a pool. -/
def poolParams : Code PoolParams where
  encode p := .array false [(hash 28).encode p.id, (hash 32).encode p.vrf, .uint p.pledge, .uint p.cost,
    unitRationalNumber.encode p.margin, rewardAccount.encode p.rewardAccount, (vecSet 28).encode p.owners,
    .array false (p.relays.map relay.encode), (nullable poolMetadata nofun).encode p.metadata]
  decode
    | .array _ [id, vrf, .uint pledge, .uint cost, margin, account, owners, .array _ relays, metadata] => do
      let id ← (hash 28).decode id
      let vrf ← (hash 32).decode vrf
      let margin ← unitRationalNumber.decode margin
      let rewardAccount ← rewardAccount.decode account
      let owners ← (vecSet 28).decode owners
      let relays ← relays.mapM relay.decode
      let metadata ← (nullable poolMetadata nofun).decode metadata
      some { id, vrf, pledge, cost, margin, rewardAccount, owners, relays, metadata }
    | _ => none
  decode_encode p := by simp [mapM_encode]

/-! ### Rows -/

/-- A slot, a transaction in it, and a certificate in that. -/
abbrev CertificatePointer := (U64 × U64) × U64

/-- Pointers. -/
def certificatePointer : Code CertificatePointer where
  encode p := .array false [.array false [.uint p.1.1, .uint p.1.2], .uint p.2]
  decode
    | .array _ [.array _ [.uint slot, .uint transaction], .uint certificate] =>
      some ((slot, transaction), certificate)
    | _ => none
  decode_encode _ := rfl

/-- A certificate of a pool. -/
inductive Certificate
  | registration (params : PoolParams)
  | retirement (epoch : U64)

/-- The row of a pool. -/
structure Row where
  registeredAt : CertificatePointer
  deposit : U64
  currentParams : PoolParams
  pendingCertificates : List Certificate

/-- Read a value. -/
def Code.read {α : Type} (code : Code α) (bytes : List UInt8) : Option (α × List UInt8) := do
  let (item, bytes) ← Cbor.decode (bytes.length + 1) bytes
  let a ← code.decode item
  some (a, bytes)

/-- The item of a certificate. The legacy layout has an epoch after the parameters. -/
def encodeCertificate : Certificate × Option U64 → Cbor
  | (.registration params, none) => .array false [poolParams.encode params]
  | (.registration params, some epoch) => .array false [poolParams.encode params, .uint epoch]
  | (.retirement epoch, _) => .array false [.simple 22, .uint epoch]

/-- Read a certificate, of either layout. -/
def decodeCertificate (bytes : List UInt8) : Option (Certificate × List UInt8) := do
  let (length, bytes) ← readArray bytes
  let length ← length
  if bytes.head? = some 0xF6 then
    let (epoch, bytes) ← u64.read bytes.tail
    some (.retirement epoch, bytes)
  else
    let (params, bytes) ← poolParams.read bytes
    let bytes ← if length = 2 then (decode (bytes.length + 1) bytes).map Prod.snd else some bytes
    some (.registration params, bytes)

variable (registeredAt : CertificatePointer) (deposit : U64) (currentParams : PoolParams)
  (written : List (Certificate × Option U64))

/-- The bytes of a row. Each certificate is written with the layout of its time. -/
def encodeRow : List UInt8 :=
  encode (.array false [certificatePointer.encode registeredAt, .uint deposit,
    poolParams.encode currentParams, .array true (written.map encodeCertificate)])

/-- Read a row. -/
def decodeRow (bytes : List UInt8) : Option Row := do
  let (_, bytes) ← readArray bytes
  let (registeredAt, bytes) ← certificatePointer.read bytes
  let (deposit, bytes) ← u64.read bytes
  let (currentParams, bytes) ← poolParams.read bytes
  let (length, bytes) ← readArray bytes
  let (pendingCertificates, _) ← readItems decodeCertificate length bytes
  some { registeredAt, deposit, currentParams, pendingCertificates }

/-- Append a certificate to the bytes of a row, which have to end with a break. -/
def extend (bytes : List UInt8) (certificate : Certificate) : Option (List UInt8) :=
  if bytes.getLast? = some 0xFF then
    some (bytes.dropLast ++ encode (encodeCertificate (certificate, none)) ++ [0xFF])
  else none

/-- A value is read back, whatever comes after it. -/
theorem Code.read_encode {α : Type} (code : Code α) (a : α)
    (h : (Cbor.encode (code.encode a)).length < 256 ^ 8) (rest : List UInt8) :
    code.read (Cbor.encode (code.encode a) ++ rest) = some (a, rest) := by
  have hfuel := Nat.le_add_right (Cbor.encode (code.encode a)).length (rest.length + 1)
  simp [Code.read, Nat.add_assoc, Cbor.decode_encode _ h hfuel]

theorem read_u64 (n : U64) (rest : List UInt8) :
    u64.read (Cbor.head 0 n ++ rest) = some (n, rest) := by
  simp [Code.read, Cbor.decode, readHead_head n.2, u64, number]

/-- Parameters do not start like a null. -/
theorem head?_poolParams (params : PoolParams) (rest : List UInt8) :
    (encode (poolParams.encode params) ++ rest).head? ≠ some 0xF6 := by
  intro h
  simp only [poolParams, encode, Bool.false_eq_true, if_false, append_assoc] at h
  exact absurd (lt_of_head?_head h) (by decide)

/-- A certificate is read back from either layout. -/
theorem decodeCertificate_encodeCertificate (c : Certificate × Option U64)
    (h : (encode (encodeCertificate c)).length < 256 ^ 8) (rest : List UInt8) :
    decodeCertificate (encode (encodeCertificate c) ++ rest) = some (c.1, rest) := by
  have hone := @readArray_head 1 (by decide)
  have htwo := @readArray_head 2 (by decide)
  have hnull : Cbor.head 7 22 = [0xF6] := rfl
  rcases c with ⟨params | epoch, _ | legacy⟩ <;>
    simp only [encodeCertificate, encode, encodeAll, Bool.false_eq_true, if_false, length_append] at h
  · simp [encodeCertificate, encode, encodeAll, decodeCertificate, hone, head?_poolParams, -head?_append,
      Code.read_encode poolParams params (by omega)]
  · simp [encodeCertificate, encode, encodeAll, decodeCertificate, htwo, head?_poolParams, -head?_append,
      Code.read_encode poolParams params (by omega), decode, readHead_head legacy.2]
  all_goals simp [encodeCertificate, encode, encodeAll, decodeCertificate, htwo, hnull, read_u64]

/-- The bytes of a row end with a break. -/
theorem encodeRow_eq : encodeRow registeredAt deposit currentParams written =
    0x84 :: (encode (certificatePointer.encode registeredAt) ++ (Cbor.head 0 deposit ++
      (encode (poolParams.encode currentParams) ++ 0x9F ::
        (encodeAll (written.map encodeCertificate) ++ [0xFF])))) := by
  have harray : Cbor.head 4 4 = [0x84] := rfl
  simp [encodeRow, encode, encodeAll, harray]

/-- A row is read back. -/
theorem decodeRow_encodeRow (h : (encodeRow registeredAt deposit currentParams written).length < 256 ^ 8) :
    decodeRow (encodeRow registeredAt deposit currentParams written) =
      some ⟨registeredAt, deposit, currentParams, written.map Prod.fst⟩ := by
  rw [encodeRow_eq] at h ⊢
  simp only [length_cons, length_append] at h
  have hwritten : ∀ c ∈ written, ∀ rest,
      decodeCertificate (encode (encodeCertificate c) ++ rest) = some (c.1, rest) := by
    intro c hc
    have := (length_encodeAll (written.map encodeCertificate)).2 _ (mem_map_of_mem hc)
    exact decodeCertificate_encodeCertificate c (by omega)
  have hopen := items_open hwritten (fun _ ↦ head?_encode _) (fun _ ↦ length_encode_pos _) []
  have harray : ∀ rest, readArray (0x84 :: rest) = some (some 4, rest) := fun _ ↦ rfl
  have hbreak : ∀ rest, readArray (0x9F :: rest) = some (none, rest) := fun _ ↦ rfl
  simp [decodeRow, harray, Code.read_encode certificatePointer registeredAt (by omega), read_u64,
    Code.read_encode poolParams currentParams (by omega), hbreak, encodeAll_eq, flatMap_map, hopen]

/-- Splicing gives the bytes of the longer row. -/
theorem extend_encodeRow (certificate : Certificate) :
    extend (encodeRow registeredAt deposit currentParams written) certificate =
      some (encodeRow registeredAt deposit currentParams (written ++ [(certificate, none)])) := by
  simp only [encodeRow_eq, extend, ← append_assoc, ← cons_append]
  rw [getLast?_concat, if_pos rfl, dropLast_concat]
  simp [encodeAll_eq]

/-- **Splicing appends**: certificates can be appended to any row, and the row is then read, if its bytes can
be counted, with those that were pending, the appended ones in order behind them, and the other fields as
they were. -/
theorem splicing_appends (appended : List Certificate) :
    ∃ bytes, appended.foldlM extend (encodeRow registeredAt deposit currentParams written) = some bytes ∧
      (bytes.length < 256 ^ 8 → decodeRow bytes =
        some ⟨registeredAt, deposit, currentParams, written.map Prod.fst ++ appended⟩) := by
  induction appended generalizing written with
  | nil => exact ⟨_, rfl, fun h ↦ by rw [decodeRow_encodeRow _ _ _ _ h, append_nil]⟩
  | cons certificate appended ih =>
    obtain ⟨bytes, hbytes, hdecode⟩ := ih (written ++ [(certificate, none)])
    refine ⟨bytes, ?_, by simpa using hdecode⟩
    rw [foldlM_cons, extend_encodeRow]
    exact hbytes

/-- A pool with a margin of a half, two owners, a relay and metadata. -/
def onePool (pledge : U64) : PoolParams where
  id := 1
  vrf := 2
  pledge := pledge
  cost := 340000000
  margin := ⟨1 / 2, by decide +kernel⟩
  rewardAccount := ⟨false, true, 3⟩
  owners := ⟨[4, 5], by decide⟩
  relays := [.singleHostName (some 3001) ⟨"relay", by decide⟩, .singleHostAddr none (some 6) none]
  metadata := some (⟨"pool", by decide⟩, [7, 8])

/-- The bytes of a row with a registration of the legacy layout, and a retirement. -/
def legacyRow : List UInt8 :=
  encodeRow ((100, 0), 1) 500 (onePool 10) [(.registration (onePool 20), some 4), (.retirement 300, none)]

/-- A retirement and a registration are appended. -/
theorem splicing_appends_legacyRow :
    ∃ bytes, [.retirement 9, .registration (onePool 30)].foldlM extend legacyRow = some bytes ∧
      bytes.length = 618 ∧
      decodeRow bytes = some ⟨((100, 0), 1), 500, onePool 10,
        [.registration (onePool 20), .retirement 300, .retirement 9, .registration (onePool 30)]⟩ := by
  obtain ⟨bytes, hbytes, hdecode⟩ := splicing_appends ((100, 0), 1) 500 (onePool 10)
    [(.registration (onePool 20), some 4), (.retirement 300, none)]
    [.retirement 9, .registration (onePool 30)]
  have hlength : (some bytes).map length = some 618 := by
    rw [← hbytes]
    decide +kernel
  have hlength := some.inj hlength
  exact ⟨bytes, hbytes, hlength, hdecode (by rw [hlength]; decide)⟩

end Amaru.PoolRows
