import Mnu.Lib.Codec

/-!
# `Mnu.Abi.Provider` — the wire protocol of user-space-backed objects

`crates/abi/src/provider.rs`. A request or a response is a header of words at fixed offsets, reserved bytes
that are zero, and data. The two headers are written and read in the same way (`encodeWith`, `decodeWith`),
each with its own fields and checks.

Decoding accepts a byte string exactly if it is the image of a header and data that encoding takes
(`decode_eq_ok`), so that the two are inverse (`provider_codec_inverse`).
-/

namespace Mnu.Abi.Provider

open Mnu.Lib.Codec

/-- `u32::from_le_bytes(*b"MNUP")` -/
def magic : BitVec 32 := 0x50554e4d
/-- `VERSION`. -/
def version : BitVec 16 := 1
/-- Bytes of a request before its data. -/
def requestHeaderLen : Nat := 48
/-- Bytes of a response before its data. -/
def responseHeaderLen : Nat := 40
/-- The most data one message carries. -/
def maxDataLen : Nat := 4096
/-- The position that comes with a positioned read. -/
def readPositionLen : Nat := 8
/-- What a positioned read leaves for data. -/
def maxPositionedReadLen : Nat := maxDataLen - readPositionLen
/-- The most a read into shared pages may ask for. -/
def maxSharedReadLen : Nat := 256 * 1024

/-- Why a message is refused. -/
inductive DecodeError where
  | tooShort
  | invalidMagic
  | invalidVersion
  | invalidOpcode
  | invalidReserved
  | invalidLength
  | invalidFields
  deriving DecidableEq, Repr

/-- The `OP_` constants. -/
inductive Op where
  | read | write | seek | release | control | readAt | writeAt | sync | memoryObject
  | readWithPosition | readShared
  | writeBounded | query

/-- The operation of an opcode. -/
def op? (opcode : BitVec 16) : Option Op :=
  match opcode.toNat with
  | 1 => some .read
  | 2 => some .write
  | 3 => some .seek
  | 4 => some .release
  | 5 => some .control
  | 6 => some .readAt
  | 7 => some .writeAt
  | 8 => some .sync
  | 9 => some .memoryObject
  | 10 => some .readWithPosition
  | 11 => some .readShared
  | 12 => some .writeBounded
  | 13 => some .query
  | _ => none

/-- `valid_opcode`. -/
def validOpcode (opcode : BitVec 16) : Bool := (op? opcode).isSome

/-- The fields of a request. -/
structure RequestHeader where
  opcode : BitVec 16
  objectId : BitVec 64
  /-- An `i64`. -/
  argument : BitVec 64
  basis : BitVec 64
  length : BitVec 32
  dataLength : BitVec 32
  deriving DecidableEq

/-- The fields of a response. -/
structure ResponseHeader where
  opcode : BitVec 16
  /-- An `i64`. -/
  status : BitVec 64
  objectId : BitVec 64
  value : BitVec 64
  dataLength : BitVec 32
  deriving DecidableEq

/-- `valid_request_fields`: what each operation wants of the fields. -/
def validRequestFields (h : RequestHeader) : Bool :=
  match op? h.opcode with
  | some .read => h.argument = 0 && h.basis = 0 && h.dataLength = 0 && h.length.toNat ≤ maxDataLen
  | some .readWithPosition =>
    h.argument = 0 && h.basis = 0 && h.dataLength = 0 && h.length.toNat ≤ maxPositionedReadLen
  | some .readShared =>
    h.argument = 0 && h.dataLength = 0 && h.length ≠ 0 && h.length.toNat ≤ maxSharedReadLen &&
      h.basis.toNat + h.length.toNat < 2 ^ 64
  | some .write => h.argument = 0 && h.basis = 0 && h.length = h.dataLength && h.length.toNat ≤ maxDataLen
  | some .writeBounded | some .writeAt => h.argument = 0 && h.length = h.dataLength &&
      h.length.toNat ≤ maxDataLen
  | some .seek =>
    h.length = 0 && h.dataLength = 0 && (h.basis = 0x4d4e5501 || h.basis = 0x4d4e5502 || h.basis = 0x4d4e5503)
  | some .release | some .sync | some .memoryObject =>
    h.argument = 0 && h.basis = 0 && h.length = 0 && h.dataLength = 0
  | some .control | some .query => h.argument = 0 && h.length.toNat ≤ maxDataLen &&
      h.dataLength.toNat ≤ maxDataLen
  | some .readAt => h.argument = 0 && h.dataLength = 0 && h.length.toNat ≤ maxDataLen
  | none => false

/-- `valid_status`; the last alternative is `status::is_error`. -/
def validStatus (status : BitVec 64) : Bool :=
  status = 0 || (-4095 ≤ status.toInt && status.toInt ≤ -1) ||
    status &&& 0xffffffffffff0000 = 0xfffffffffffc0000

/-- `valid_response_fields`: a failure carries nothing. -/
def validResponseFields (h : ResponseHeader) : Bool :=
  if h.status ≠ 0 then h.value = 0 && h.dataLength = 0
  else
    match op? h.opcode with
    | some .read | some .readAt | some .control | some .query => h.value.toNat = h.dataLength.toNat
    | some .readWithPosition =>
      h.dataLength.toNat ≥ readPositionLen && h.value.toNat = h.dataLength.toNat - readPositionLen
    | some .readShared =>
      (h.dataLength = 0 && h.value = 0) ||
        (h.dataLength.toNat = readPositionLen && h.value.toNat ≤ maxSharedReadLen)
    | some .write => h.dataLength = 0 || h.dataLength = 8
    | some .writeBounded => h.dataLength = 8 && h.value.toNat ≤ maxDataLen
    | some .writeAt | some .seek | some .release | some .sync | some .memoryObject => h.dataLength = 0
    | none => false

/-! ## Encoding and decoding -/

/-- A little-endian `u16` of the input. -/
def getU16 : List UInt8 → Nat → BitVec 16 := getWord 2
/-- A little-endian `u32` of the input. -/
def getU32 : List UInt8 → Nat → BitVec 32 := getWord 4
/-- A little-endian `u64` of the input. -/
def getU64 : List UInt8 → Nat → BitVec 64 := getWord 8

/-- `validate_common`: magic, version and opcode, in this order. -/
def validateCommon (input : List UInt8) : Except DecodeError Unit :=
  if getU32 input 0 ≠ magic then .error .invalidMagic
  else if getU16 input 4 ≠ version then .error .invalidVersion
  else if !validOpcode (getU16 input 6) then .error .invalidOpcode
  else .ok ()

/-- The words of a header. -/
def RequestHeader.write (h : RequestHeader) (output : List UInt8) : List UInt8 :=
  let output := put output 0 (le 4 magic.toNat)
  let output := put output 4 (le 2 version.toNat)
  let output := put output 6 (le 2 h.opcode.toNat)
  let output := put output 8 (le 8 h.objectId.toNat)
  let output := put output 16 (le 8 h.argument.toNat)
  let output := put output 24 (le 8 h.basis.toNat)
  let output := put output 32 (le 4 h.length.toNat)
  put output 36 (le 4 h.dataLength.toNat)

/-- The writes of `ResponseHeader::encode`. -/
def ResponseHeader.write (h : ResponseHeader) (output : List UInt8) : List UInt8 :=
  let output := put output 0 (le 4 magic.toNat)
  let output := put output 4 (le 2 version.toNat)
  let output := put output 6 (le 2 h.opcode.toNat)
  let output := put output 8 (le 8 h.status.toNat)
  let output := put output 16 (le 8 h.objectId.toNat)
  let output := put output 24 (le 8 h.value.toNat)
  put output 32 (le 4 h.dataLength.toNat)

/-- `encode`: the length written, and the buffer afterwards. -/
def encodeWith (accepts : Bool) (headerLen : Nat) (write : List UInt8 → List UInt8)
    (data output : List UInt8) : Except DecodeError (Nat × List UInt8) :=
  if !accepts then .error .invalidFields
  else
    let total := headerLen + data.length
    if output.length < total then .error .tooShort
    else .ok (total, put (write (put output 0 (.replicate total 0))) headerLen data)

/-- The checks of `encode` on its arguments. -/
def RequestHeader.accepts (h : RequestHeader) (data : List UInt8) : Bool :=
  validOpcode h.opcode && data.length ≤ maxDataLen && h.dataLength.toNat = data.length && validRequestFields h

/-- What `ResponseHeader::encode` checks first. -/
def ResponseHeader.accepts (h : ResponseHeader) (data : List UInt8) : Bool :=
  validOpcode h.opcode && validStatus h.status && data.length ≤ maxDataLen &&
    h.dataLength.toNat = data.length &&
    validResponseFields h

/-- `RequestHeader::encode`: the length written, and the output. -/
def RequestHeader.encode (h : RequestHeader) (data output : List UInt8) :
    Except DecodeError (Nat × List UInt8) :=
  encodeWith (h.accepts data) requestHeaderLen h.write data output

/-- `ResponseHeader::encode`. -/
def ResponseHeader.encode (h : ResponseHeader) (data output : List UInt8) :
    Except DecodeError (Nat × List UInt8) :=
  encodeWith (h.accepts data) responseHeaderLen h.write data output

/-- `decode`: its checks, given the reserved bytes and the header that it reads. -/
def decodeWith {H : Type} (headerLen : Nat) (reserved : List UInt8) (header : H) (lengths valid : Bool)
    (input : List UInt8) : Except DecodeError (H × List UInt8) :=
  if input.length < headerLen then .error .tooShort
  else
    match validateCommon input with
    | .error e => .error e
    | .ok () =>
      if reserved.any (· ≠ 0) then .error .invalidReserved
      else if !lengths then .error .invalidLength
      else if !valid then .error .invalidFields
      else .ok (header, input.drop headerLen)

/-- The fields where a request has them. -/
def RequestHeader.read (input : List UInt8) : RequestHeader :=
  ⟨getU16 input 6, getU64 input 8, getU64 input 16, getU64 input 24, getU32 input 32, getU32 input 36⟩

/-- `RequestHeader::decode`: the header, and the data behind it. -/
def RequestHeader.decode (input : List UInt8) : Except DecodeError (RequestHeader × List UInt8) :=
  let header := read input
  decodeWith requestHeaderLen (slice input 40 8) header (header.dataLength.toNat ≤ maxDataLen &&
    input.length = requestHeaderLen + header.dataLength.toNat) (validRequestFields header) input

/-- The fields where a response has them. -/
def ResponseHeader.read (input : List UInt8) : ResponseHeader :=
  ⟨getU16 input 6, getU64 input 8, getU64 input 16, getU64 input 24, getU32 input 32⟩

/-- `ResponseHeader::decode`. -/
def ResponseHeader.decode (input : List UInt8) : Except DecodeError (ResponseHeader × List UInt8) :=
  let header := read input
  decodeWith responseHeaderLen (slice input 36 4) header (validStatus header.status &&
    header.dataLength.toNat ≤ maxDataLen && input.length = responseHeaderLen + header.dataLength.toNat)
    (validResponseFields header) input

/-! ## Decoding accepts the images, and nothing else -/

/-- The bytes of a header, which its words fill without a gap. -/
def RequestHeader.image (h : RequestHeader) : List UInt8 :=
  le 4 magic.toNat ++
    (le 2 version.toNat ++ (le 2 h.opcode.toNat ++ (le 8 h.objectId.toNat ++ (le 8 h.argument.toNat ++
    (le 8 h.basis.toNat ++ (le 4 h.length.toNat ++ (le 4 h.dataLength.toNat ++ .replicate 8 0)))))))

/-- The bytes of a response header. -/
def ResponseHeader.image (h : ResponseHeader) : List UInt8 :=
  le 4 magic.toNat ++
    (le 2 version.toNat ++ (le 2 h.opcode.toNat ++ (le 8 h.status.toNat ++ (le 8 h.objectId.toNat ++
    (le 8 h.value.toNat ++ (le 4 h.dataLength.toNat ++ .replicate 4 0))))))

section Decode

variable {input data : List UInt8}

theorem validateCommon_eq_ok : validateCommon input = .ok () ↔
    getU32 input 0 = magic ∧ getU16 input 4 = version ∧ validOpcode (getU16 input 6) = true := by
  unfold validateCommon
  split
  · simp_all
  · split
    · simp_all
    · split <;> simp_all

/-- **When a message is accepted.** -/
theorem decodeWith_eq_ok {H : Type} {headerLen : Nat} {reserved : List UInt8}
    {header h : H} {lengths valid : Bool} :
    decodeWith headerLen reserved header lengths valid input = .ok (h, data) ↔ headerLen ≤ input.length ∧
      validateCommon input = .ok () ∧ (∀ b ∈ reserved, b = 0) ∧ lengths = true ∧ valid = true ∧
      header = h ∧ input.drop headerLen = data := by
  unfold decodeWith
  split
  · simp; omega
  · split
    · simp_all
    · split
      · simp_all
      · split
        · simp_all
        · split
          · simp_all
          · simp_all
            exact fun _ _ => ‹_›

/-- Reserved bytes that are zero need not be told apart. -/
theorem drop_of_zero {offset n : Nat} (h : ∀ b ∈ slice input offset n, b = 0)
    (hlen : offset + n ≤ input.length) :
    List.replicate n 0 ++ input.drop (offset + n) = input.drop offset := by
  have hzero : slice input offset n = .replicate n 0 := by
    refine List.eq_replicate_iff.mpr ⟨?_, h⟩
    simp only [slice, List.length_take, List.length_drop]
    omega
  rw [← hzero, slice, ← List.drop_drop, List.take_append_drop]

theorem RequestHeader.read_image (h : RequestHeader) : read (h.image ++ data) = h := by
  simp [read, image, getU16, getU32, getU64]

/-- **A request is accepted iff it is the image of a valid header.** -/
theorem RequestHeader.decode_eq_ok {h : RequestHeader} :
    RequestHeader.decode input = .ok (h, data) ↔ h.accepts data = true ∧ input = h.image ++ data := by
  unfold decode
  simp only [decodeWith_eq_ok, validateCommon_eq_ok, accepts, Bool.and_eq_true, decide_eq_true_eq]
  unfold requestHeaderLen
  constructor
  · rintro ⟨hlen, ⟨hm, hv, hop⟩, hzero, ⟨hmax, hl⟩, hval, rfl, rfl⟩
    refine ⟨⟨⟨⟨hop, ?_⟩, ?_⟩, hval⟩, ?_⟩
    · rw [List.length_drop]
      omega
    · rw [List.length_drop]
      omega
    · rw [image, ← hm, ← hv]
      simp (disch := omega) only [read, getU16, getU32, getU64, List.append_assoc, drop_of_zero hzero hlen,
        le_getWord_append, List.drop_zero]
  · rintro ⟨⟨⟨⟨hop, hmax⟩, hl⟩, hval⟩, rfl⟩
    have hlen : (h.image ++ data).length = 48 + data.length := by
      simp [image]
      omega
    rw [read_image, hlen, hl]
    refine ⟨Nat.le_add_right _ _, ?_, ?_, ⟨hmax, rfl⟩, hval, rfl, rfl⟩
    · simp [image, getU16, getU32, hop]
    · exact fun b hb => List.eq_of_mem_replicate (n := 8) hb

theorem ResponseHeader.read_image (h : ResponseHeader) : read (h.image ++ data) = h := by
  simp [read, image, getU16, getU32, getU64]

/-- **So is a response.** -/
theorem ResponseHeader.decode_eq_ok {h : ResponseHeader} :
    ResponseHeader.decode input = .ok (h, data) ↔ h.accepts data = true ∧ input = h.image ++ data := by
  unfold decode
  simp only [decodeWith_eq_ok, validateCommon_eq_ok, accepts, Bool.and_eq_true, decide_eq_true_eq]
  unfold responseHeaderLen
  constructor
  · rintro ⟨hlen, ⟨hm, hv, hop⟩, hzero, ⟨⟨hst, hmax⟩, hl⟩, hval, rfl, rfl⟩
    refine ⟨⟨⟨⟨⟨hop, hst⟩, ?_⟩, ?_⟩, hval⟩, ?_⟩
    · rw [List.length_drop]
      omega
    · rw [List.length_drop]
      omega
    · rw [image, ← hm, ← hv]
      simp (disch := omega) only [read, getU16, getU32, getU64, List.append_assoc, drop_of_zero hzero hlen,
        le_getWord_append, List.drop_zero]
  · rintro ⟨⟨⟨⟨⟨hop, hst⟩, hmax⟩, hl⟩, hval⟩, rfl⟩
    have hlen : (h.image ++ data).length = 40 + data.length := by
      simp [image]
      omega
    rw [read_image, hlen, hl]
    refine ⟨Nat.le_add_right _ _, ?_, ?_, ⟨⟨hst, hmax⟩, rfl⟩, hval, rfl, rfl⟩
    · simp [image, getU16, getU32, hop]
    · exact fun b hb => List.eq_of_mem_replicate (n := 4) hb

end Decode

/-! ## The two are inverse -/

/-- Between the values that encoding takes and the byte strings that decoding accepts. -/
structure Inverse {H : Type} (encode : H → List UInt8 → List UInt8 → Except DecodeError (Nat × List UInt8))
    (decode : List UInt8 → Except DecodeError (H × List UInt8)) (headerLen : Nat) : Prop where
  /-- Into a buffer with room, encoding takes exactly what decoding can return. -/
  takes : ∀ h data output, headerLen + data.length ≤ output.length →
    ((∃ r, encode h data output = .ok r) ↔ ∃ input, decode input = .ok (h, data))
  decode_encode : ∀ h data output n output', encode h data output = .ok (n, output') →
    decode (output'.take n) = .ok (h, data)
  encode_decode : ∀ input h data output, decode input = .ok (h, data) → input.length ≤ output.length →
    ∃ output', encode h data output = .ok (input.length, output') ∧ output'.take input.length = input

section Encode

variable {H : Type} {decode : List UInt8 → Except DecodeError (H × List UInt8)} {headerLen : Nat}
  {accepts : H → List UInt8 → Bool} {write : H → List UInt8 → List UInt8} {image : H → List UInt8}
  (hwrite : ∀ h t, write h (.replicate headerLen 0 ++ t) = image h ++ t)
  (hlen : ∀ h, (image h).length = headerLen)
include hwrite hlen

/-- What is encoded is the image, and the rest of the buffer stays. -/
theorem encodeWith_eq_ok {h : H} {data output : List UInt8} {r : Nat × List UInt8} :
    encodeWith (accepts h data) headerLen (write h) data output = .ok r ↔ accepts h data = true ∧
      headerLen + data.length ≤ output.length ∧
      r = (headerLen + data.length, (image h ++ data) ++ output.drop (headerLen + data.length)) := by
  unfold encodeWith
  split
  · simp_all
  · dsimp only
    split
    · simp_all
    · rw [put_zeros, hwrite, ← hlen h, put_append (List.length_replicate ..), List.append_assoc]
      simp_all [eq_comm (a := r)]

/-- Both codecs are inverses for this reason. -/
theorem inverse_of_image
    (hdec : ∀ input h data, decode input = .ok (h, data) ↔ accepts h data = true ∧ input = image h ++ data) :
    Inverse (fun h data => encodeWith (accepts h data) headerLen (write h) data) decode headerLen := by
  have henc := @encodeWith_eq_ok H headerLen accepts write image hwrite hlen
  have himage : ∀ h data, (image h ++ data).length = headerLen + data.length := fun h data => by
    rw [List.length_append, hlen]
  refine ⟨?_, ?_, ?_⟩
  · intro h data output hroom
    simp only [henc, hdec, hroom, true_and, exists_and_left, exists_eq, and_true]
  · intro h data output n output' hn
    obtain ⟨hacc, -, heq⟩ := henc.mp hn
    cases heq
    rw [← himage h data, List.take_left]
    exact (hdec ..).mpr ⟨hacc, rfl⟩
  · intro input h data output hd hroom
    obtain ⟨hacc, rfl⟩ := (hdec ..).mp hd
    rw [himage] at hroom ⊢
    refine ⟨_, henc.mpr ⟨hacc, hroom, rfl⟩, ?_⟩
    rw [← himage h data, List.take_left]

end Encode

/-- **The codec of the provider protocol.** For requests and for responses, encoding and decoding are inverse:
    encoding succeeds for the headers and data that decoding can return, decoding returns what was encoded,
    and a byte string that it accepts is the encoding of what it returns. -/
theorem provider_codec_inverse : Inverse RequestHeader.encode RequestHeader.decode requestHeaderLen ∧
    Inverse ResponseHeader.encode ResponseHeader.decode responseHeaderLen := by
  constructor
  · refine inverse_of_image ?_ ?_ fun _ _ _ => RequestHeader.decode_eq_ok
    · intro h t
      simp [RequestHeader.write, RequestHeader.image, put, le, requestHeaderLen]
    · intro h
      simp [RequestHeader.image, requestHeaderLen]
  · refine inverse_of_image ?_ ?_ fun _ _ _ => ResponseHeader.decode_eq_ok
    · intro h t
      simp [ResponseHeader.write, ResponseHeader.image, put, le, responseHeaderLen]
    · intro h
      simp [ResponseHeader.image, responseHeaderLen]

end Mnu.Abi.Provider
