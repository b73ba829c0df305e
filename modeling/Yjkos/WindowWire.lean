import Yjkos.WindowProto

/-!
# Round trip of the window server wire format

A send routine is described by the bytes it produces, a receive routine by
the bytes it consumes and the value it returns for them.  The same bytes stand
in both descriptions of every field, so a connection stays synchronised over
any sequence of fields.
-/

namespace Yjkos
namespace WindowProto

open Vfs (Text)
open Smatcher (kstrlen)

/-! ## Bytes of the fields -/

namespace Byteorder

/-- The bytes of a 16-bit card. -/
def card16 : Byteorder → BitVec 16 → List Byte
  | .msbFirst, val => [(val >>> 8).setWidth 8, val.setWidth 8]
  | .lsbFirst, val => [val.setWidth 8, (val >>> 8).setWidth 8]

/-- The bytes of a 32-bit card. -/
def card32 : Byteorder → BitVec 32 → List Byte
  | .msbFirst, val =>
      card16 .msbFirst ((val >>> 16).setWidth 16) ++
        card16 .msbFirst (val.setWidth 16)
  | .lsbFirst, val =>
      card16 .lsbFirst (val.setWidth 16) ++
        card16 .lsbFirst ((val >>> 16).setWidth 16)

end Byteorder

theorem card16_length (order : Byteorder) (val : BitVec 16) :
    (order.card16 val).length = 2 := by
  cases order <;> rfl

theorem four_dvd_add_protoPad (len : ℕ) : 4 ∣ len + protoPad len := by
  unfold protoPad
  omega

/-- The characters of a string in front of its terminator.  The string with
its terminator has less than `SIZE_MAX` bytes. -/
structure Chars where
  text : Text
  nonzero : 0 ∉ text
  short : text.length < sizeMax

theorem kstrlen_eq {text : Text} (hnonzero : 0 ∉ text) :
    kstrlen text = text.length := by
  induction text with
  | nil => rfl
  | cons c text ih =>
      have hc : c ≠ 0 := by
        intro hc
        exact hnonzero (hc ▸ List.mem_cons_self)
      have htext : 0 ∉ text := fun hmem =>
        hnonzero (List.mem_cons_of_mem c hmem)
      simp only [kstrlen, if_neg hc, ih htext, List.length_cons]

/-! ## Sending -/

/-- The routine appends these bytes to what was sent. -/
def Produces (send : List Byte → Except Fault (List Byte))
    (bytes : List Byte) : Prop :=
  ∀ sent, send sent = .ok (sent ++ bytes)

theorem Produces.nil : Produces .ok [] := by
  intro sent
  simp

theorem Produces.bind {send next : List Byte → Except Fault (List Byte)}
    {bytes more : List Byte} (hsend : Produces send bytes)
    (hnext : Produces next more) :
    Produces (fun sent => send sent >>= next) (bytes ++ more) := by
  intro sent
  change send sent >>= next = _
  rw [hsend sent, ok_bind, hnext, List.append_assoc]

section Send

variable {accepts : List Byte → Bool} (haccepts : ∀ sent, accepts sent = true)
  (order : Byteorder)
include haccepts

theorem protoSendCard8_produces (val : Byte) :
    Produces (protoSendCard8 accepts val) [val] :=
  fun sent => if_pos (haccepts sent)

theorem protoSendUnused_produces (count : ℕ) :
    Produces (protoSendUnused accepts count) (List.replicate count 0) := by
  induction count with
  | zero => exact Produces.nil
  | succ count ih =>
      exact (protoSendCard8_produces haccepts 0).bind ih

theorem protoSendCard16_produces (val : BitVec 16) :
    Produces (protoSendCard16 accepts order val) (order.card16 val) := by
  cases order with
  | msbFirst =>
      exact (protoSendCard8_produces haccepts _).bind
        (protoSendCard8_produces haccepts _)
  | lsbFirst =>
      exact (protoSendCard8_produces haccepts _).bind
        (protoSendCard8_produces haccepts _)

theorem protoSendCard32_produces (val : BitVec 32) :
    Produces (protoSendCard32 accepts order val) (order.card32 val) := by
  cases order with
  | msbFirst =>
      exact (protoSendCard16_produces haccepts .msbFirst _).bind
        (protoSendCard16_produces haccepts .msbFirst _)
  | lsbFirst =>
      exact (protoSendCard16_produces haccepts .lsbFirst _).bind
        (protoSendCard16_produces haccepts .lsbFirst _)

theorem sendChars_produces (str : Text) :
    Produces (sendChars accepts str.length str) str := by
  induction str with
  | nil => exact Produces.nil
  | cons c str ih => exact (protoSendCard8_produces haccepts c).bind ih

theorem protoSendString8_produces (str : Chars) :
    Produces (protoSendString8 accepts str.text (kstrlen str.text))
      str.text := by
  intro sent
  have hassert : cAssert (decide (kstrlen str.text ≤ kstrlen str.text))
      "kstrlen(str) <= len" = .ok () :=
    cAssert_of (decide_eq_true le_rfl)
  rw [protoSendString8, hassert, ok_bind, kstrlen_eq str.nonzero]
  exact sendChars_produces haccepts str.text sent

end Send

/-! ## Receiving -/

@[simp] theorem protoRecvCard8_cons (val : Byte) (rest : List Byte)
    (allocated : ℕ) :
    protoRecvCard8 ⟨val :: rest, allocated⟩ = (val, ⟨rest, allocated⟩) := by
  simp [protoRecvCard8, streamGetChar]

theorem protoRecvUnused_append (bytes rest : List Byte) (allocated : ℕ) :
    protoRecvUnused bytes.length ⟨bytes ++ rest, allocated⟩ =
      ⟨rest, allocated⟩ := by
  induction bytes with
  | nil => rfl
  | cons byte bytes ih => exact ih

theorem card16_join (val : BitVec 16) :
    (((val >>> 8).setWidth 8).setWidth 32 <<< 8 |||
      (val.setWidth 8).setWidth 32).setWidth 16 = val := by
  ext i hi
  simp only [BitVec.getElem_setWidth, BitVec.getLsbD_or,
    BitVec.getLsbD_shiftLeft, BitVec.getLsbD_setWidth,
    BitVec.getLsbD_ushiftRight]
  by_cases hlow : i < 8
  · have hword : i < 32 := by omega
    simp [hlow, hword, hi]
  · have hhigh : i - 8 < 8 := by omega
    have hword : i - 8 < 32 := by omega
    have hpos : 8 + (i - 8) = i := by omega
    have h32 : i < 32 := by omega
    simp [hlow, hhigh, hword, hpos, h32, hi]

theorem card32_join (val : BitVec 32) :
    ((val >>> 16).setWidth 16).setWidth 32 <<< 16 |||
      (val.setWidth 16).setWidth 32 = val := by
  ext i hi
  simp only [BitVec.getElem_or, BitVec.getElem_shiftLeft,
    BitVec.getElem_setWidth, BitVec.getLsbD_setWidth,
    BitVec.getLsbD_ushiftRight]
  by_cases hlow : i < 16
  · simp [hlow, hi]
  · have hhigh : i - 16 < 16 := by omega
    have hpos : 16 + (i - 16) = i := by omega
    simp [hlow, hhigh, hpos, hi]

@[simp] theorem protoRecvCard16_append (order : Byteorder) (val : BitVec 16)
    (rest : List Byte) (allocated : ℕ) :
    protoRecvCard16 order ⟨order.card16 val ++ rest, allocated⟩ =
      (val, ⟨rest, allocated⟩) := by
  cases order with
  | msbFirst =>
      simp only [protoRecvCard16, Byteorder.card16, List.cons_append,
        List.nil_append, protoRecvCard8_cons, card16_join]
  | lsbFirst =>
      simp only [protoRecvCard16, Byteorder.card16, List.cons_append,
        List.nil_append, protoRecvCard8_cons, card16_join]

@[simp] theorem protoRecvCard32_append (order : Byteorder) (val : BitVec 32)
    (rest : List Byte) (allocated : ℕ) :
    protoRecvCard32 order ⟨order.card32 val ++ rest, allocated⟩ =
      (val, ⟨rest, allocated⟩) := by
  cases order with
  | msbFirst =>
      simp only [protoRecvCard32, Byteorder.card32, List.append_assoc,
        protoRecvCard16_append, card32_join]
  | lsbFirst =>
      simp only [protoRecvCard32, Byteorder.card32, List.append_assoc,
        protoRecvCard16_append, card32_join]

theorem recvChars_append (str : Text) (rest : List Byte) (allocated : ℕ) :
    recvChars str.length ⟨str ++ rest, allocated⟩ =
      (str, ⟨rest, allocated⟩) := by
  induction str with
  | nil => rfl
  | cons c str ih =>
      simp only [List.length_cons, recvChars, List.cons_append,
        protoRecvCard8_cons, ih]

/-- The allocations of some sizes in a row succeed. -/
def Granted (heapCalloc : ℕ → ℕ → Bool) : ℕ → List ℕ → Prop
  | _, [] => True
  | call, size :: sizes =>
      heapCalloc call size = true ∧ Granted heapCalloc (call + 1) sizes

theorem granted_append {heapCalloc : ℕ → ℕ → Bool} {call : ℕ}
    {sizes more : List ℕ} :
    Granted heapCalloc call (sizes ++ more) ↔
      Granted heapCalloc call sizes ∧
        Granted heapCalloc (call + sizes.length) more := by
  induction sizes generalizing call with
  | nil => simp [Granted]
  | cons size sizes ih =>
      have hcall : call + (sizes.length + 1) = call + 1 + sizes.length := by
        omega
      simp only [List.cons_append, Granted, ih, List.length_cons, hcall,
        and_assoc]

theorem protoRecvString8_append {heapCalloc : ℕ → ℕ → Bool} (str : Text)
    (hshort : str.length < sizeMax) (rest : List Byte) {allocated : ℕ}
    (hheap : heapCalloc allocated (str.length + 1) = true) :
    protoRecvString8 heapCalloc str.length ⟨str ++ rest, allocated⟩ =
      (some (str ++ [0]), ⟨rest, allocated + 1⟩) := by
  have hsize : wrap (str.length + 1) = str.length + 1 := by
    unfold sizeMax at hshort
    exact wrap_of_lt (by omega)
  simp only [protoRecvString8, hsize, hheap, if_true, recvChars_append]

/-! ## Sequences of fields -/

inductive Field where
  | card8 (val : Byte)
  | card16 (val : BitVec 16)
  | card32 (val : BitVec 32)
  | string8 (str : Chars)
  | unused (count : ℕ)

/-- What the receiver has to know of a field. -/
inductive Shape where
  | card8
  | card16
  | card32
  | string8 (len : ℕ)
  | unused (count : ℕ)

/-- What the receiver gets: for a string the allocated memory. -/
inductive Received where
  | card8 (val : Byte)
  | card16 (val : BitVec 16)
  | card32 (val : BitVec 32)
  | string8 (str : Option Text)
  | unused
deriving DecidableEq, Repr

namespace Field

def shape : Field → Shape
  | card8 _ => .card8
  | card16 _ => .card16
  | card32 _ => .card32
  | string8 str => .string8 str.text.length
  | unused count => .unused count

/-- The value of the field, a string with its terminator. -/
def value : Field → Received
  | card8 val => .card8 val
  | card16 val => .card16 val
  | card32 val => .card32 val
  | string8 str => .string8 (some (str.text ++ [0]))
  | unused _ => .unused

def bytes (order : Byteorder) : Field → List Byte
  | card8 val => [val]
  | card16 val => order.card16 val
  | card32 val => order.card32 val
  | string8 str => str.text
  | unused count => List.replicate count 0

/-- The sizes which the receiver allocates for the field. -/
def sizes : Field → List ℕ
  | string8 str => [str.text.length + 1]
  | _ => []

/-- The send routine of the field; a string is sent with its own length. -/
def protoSend (accepts : List Byte → Bool) (order : Byteorder) :
    Field → List Byte → Except Fault (List Byte)
  | card8 val => protoSendCard8 accepts val
  | card16 val => protoSendCard16 accepts order val
  | card32 val => protoSendCard32 accepts order val
  | string8 str => protoSendString8 accepts str.text (kstrlen str.text)
  | unused count => protoSendUnused accepts count

end Field

/-- The receive routine of the shape. -/
def Shape.protoRecv (heapCalloc : ℕ → ℕ → Bool) (order : Byteorder)
    (client : Client) : Shape → Received × Client
  | .card8 =>
      let (val, client) := protoRecvCard8 client
      (.card8 val, client)
  | .card16 =>
      let (val, client) := protoRecvCard16 order client
      (.card16 val, client)
  | .card32 =>
      let (val, client) := protoRecvCard32 order client
      (.card32 val, client)
  | .string8 len =>
      let (str, client) := protoRecvString8 heapCalloc len client
      (.string8 str, client)
  | .unused count => (.unused, protoRecvUnused count client)

def sendFields (accepts : List Byte → Bool) (order : Byteorder) :
    List Field → List Byte → Except Fault (List Byte)
  | [], sent => .ok sent
  | field :: fields, sent => do
      let sent ← field.protoSend accepts order sent
      sendFields accepts order fields sent

def recvFields (heapCalloc : ℕ → ℕ → Bool) (order : Byteorder) :
    List Shape → Client → List Received × Client
  | [], client => ([], client)
  | shape :: shapes, client =>
      let (value, client) := shape.protoRecv heapCalloc order client
      let (values, client) := recvFields heapCalloc order shapes client
      (value :: values, client)

theorem protoSend_produces {accepts : List Byte → Bool}
    (haccepts : ∀ sent, accepts sent = true) (order : Byteorder)
    (field : Field) :
    Produces (field.protoSend accepts order) (field.bytes order) := by
  cases field with
  | card8 val => exact protoSendCard8_produces haccepts val
  | card16 val => exact protoSendCard16_produces haccepts order val
  | card32 val => exact protoSendCard32_produces haccepts order val
  | string8 str => exact protoSendString8_produces haccepts str
  | unused count => exact protoSendUnused_produces haccepts count

theorem sendFields_produces {accepts : List Byte → Bool}
    (haccepts : ∀ sent, accepts sent = true) (order : Byteorder)
    (fields : List Field) :
    Produces (sendFields accepts order fields)
      (fields.flatMap (Field.bytes order)) := by
  induction fields with
  | nil => exact Produces.nil
  | cons field fields ih =>
      exact (protoSend_produces haccepts order field).bind ih

theorem protoRecv_append {heapCalloc : ℕ → ℕ → Bool} (order : Byteorder)
    (field : Field) (rest : List Byte) {allocated : ℕ}
    (hheap : Granted heapCalloc allocated field.sizes) :
    field.shape.protoRecv heapCalloc order
        ⟨field.bytes order ++ rest, allocated⟩ =
      (field.value, ⟨rest, allocated + field.sizes.length⟩) := by
  cases field with
  | card8 val =>
      simp only [Field.shape, Shape.protoRecv, Field.bytes, List.cons_append,
        List.nil_append, protoRecvCard8_cons]
      rfl
  | card16 val =>
      simp only [Field.shape, Shape.protoRecv, Field.bytes,
        protoRecvCard16_append]
      rfl
  | card32 val =>
      simp only [Field.shape, Shape.protoRecv, Field.bytes,
        protoRecvCard32_append]
      rfl
  | string8 str =>
      simp only [Field.shape, Shape.protoRecv, Field.bytes,
        protoRecvString8_append str.text str.short rest hheap.1]
      rfl
  | unused count =>
      have hrecv :=
        protoRecvUnused_append (List.replicate count 0) rest allocated
      rw [List.length_replicate] at hrecv
      simp only [Field.shape, Shape.protoRecv, Field.bytes, hrecv]
      rfl

theorem recvFields_append {heapCalloc : ℕ → ℕ → Bool} (order : Byteorder)
    (fields : List Field) (rest : List Byte) {allocated : ℕ}
    (hheap : Granted heapCalloc allocated (fields.flatMap Field.sizes)) :
    recvFields heapCalloc order (fields.map Field.shape)
        ⟨fields.flatMap (Field.bytes order) ++ rest, allocated⟩ =
      (fields.map Field.value,
        ⟨rest, allocated + (fields.flatMap Field.sizes).length⟩) := by
  induction fields generalizing allocated with
  | nil => rfl
  | cons field fields ih =>
      obtain ⟨hfield, hfields⟩ := granted_append.1 hheap
      simp only [List.map_cons, List.flatMap_cons, List.append_assoc,
        recvFields, protoRecv_append order field _ hfield, ih hfields,
        List.length_append, Nat.add_assoc]

/-! ## Connection setup -/

/-- A connection setup request as it stands in the stream. -/
structure SetupRequest where
  byteOrder : Byte
  unused : Byte
  protocolMajorVersion : BitVec 16
  protocolMinorVersion : BitVec 16
  unusedEnd : Byte × Byte
  name : Text
  namePad : List Byte
  data : Text
  dataPad : List Byte
  name_lt : name.length < 65536
  data_lt : data.length < 65536
  name_padded : namePad.length = protoPad name.length
  data_padded : dataPad.length = protoPad data.length

namespace SetupRequest

/-- The byte order which the request asks for. -/
def order (request : SetupRequest) : Byteorder :=
  if request.byteOrder = 0x42 then .msbFirst else .lsbFirst

def bytes (request : SetupRequest) : List Byte :=
  request.byteOrder :: request.unused ::
    (request.order.card16 request.protocolMajorVersion ++
      request.order.card16 request.protocolMinorVersion ++
      request.order.card16 (BitVec.ofNat 16 request.name.length) ++
      request.order.card16 (BitVec.ofNat 16 request.data.length) ++
      [request.unusedEnd.1, request.unusedEnd.2] ++
      request.name ++ request.namePad ++ request.data ++ request.dataPad)

/-- The fields which the server keeps of the request. -/
def setup (request : SetupRequest) : ConnectionSetup where
  byteorder := request.order
  protocolMajorVersion := request.protocolMajorVersion
  protocolMinorVersion := request.protocolMinorVersion
  authorizationProtocolName := request.name ++ [0]
  authorizationProtocolData := request.data ++ [0]

/-- The sizes which the receiver allocates for the request. -/
def sizes (request : SetupRequest) : List ℕ :=
  [request.name.length + 1, request.data.length + 1]

theorem bytes_length (request : SetupRequest) :
    request.bytes.length =
      12 + request.name.length + protoPad request.name.length +
        request.data.length + protoPad request.data.length := by
  simp only [bytes, List.length_cons, List.length_append, card16_length,
    request.name_padded, request.data_padded, List.length_nil]
  omega

theorem byteorderOf_byteOrder (request : SetupRequest) :
    byteorderOf (request.byteOrder.setWidth 32) = request.order := by
  have hlt := request.byteOrder.isLt
  have hraw : request.byteOrder.setWidth 32 = (0x42 : BitVec 32) ↔
      request.byteOrder = (0x42 : Byte) := by
    rw [← BitVec.toNat_inj, ← BitVec.toNat_inj]
    simp
    omega
  simp only [byteorderOf, order, hraw, ite_self]

end SetupRequest

theorem protoRecvConnectionSetup_append {heapCalloc : ℕ → ℕ → Bool}
    (request : SetupRequest) (rest : List Byte) {allocated : ℕ}
    (hheap : Granted heapCalloc allocated request.sizes) :
    protoRecvConnectionSetup heapCalloc ⟨request.bytes ++ rest, allocated⟩ =
      (.ok request.setup, ⟨rest, allocated + 2⟩) := by
  have hname : (BitVec.ofNat 16 request.name.length).toNat =
      request.name.length :=
    Nat.mod_eq_of_lt request.name_lt
  have hdata : (BitVec.ofNat 16 request.data.length).toNat =
      request.data.length :=
    Nat.mod_eq_of_lt request.data_lt
  have hnameShort : request.name.length < sizeMax :=
    request.name_lt.trans (by decide)
  have hdataShort : request.data.length < sizeMax :=
    request.data_lt.trans (by decide)
  have hfirst : ∀ input, streamGetChar ⟨request.byteOrder :: input, allocated⟩ =
      (request.byteOrder.setWidth 32, ⟨input, allocated⟩) := fun _ => rfl
  have hunused : ∀ input, protoRecvUnused 1
      ⟨request.unused :: input, allocated⟩ = ⟨input, allocated⟩ :=
    fun input => protoRecvUnused_append [request.unused] input allocated
  have hunusedEnd : ∀ input, protoRecvUnused 2
      ⟨request.unusedEnd.1 :: request.unusedEnd.2 :: input, allocated⟩ =
        ⟨input, allocated⟩ :=
    fun input => protoRecvUnused_append
      [request.unusedEnd.1, request.unusedEnd.2] input allocated
  simp only [protoRecvConnectionSetup, SetupRequest.bytes, List.cons_append,
    List.append_assoc, List.nil_append, hfirst, request.byteorderOf_byteOrder,
    hunused, protoRecvCard16_append, hunusedEnd, hname, hdata,
    protoRecvString8_append _ hnameShort _ hheap.1, ← request.name_padded,
    protoRecvString8_append _ hdataShort _ hheap.2.1, ← request.data_padded,
    protoRecvUnused_append]
  rfl

/-! ## Connection refusal -/

/-- The fields of a refusal. -/
def refusal (reason : Chars) (major minor : BitVec 16) : List Field :=
  let n := reason.text.length
  [.card8 0, .card8 (BitVec.ofNat 8 n), .card16 major, .card16 minor,
    .card16 (BitVec.ofNat 16 ((n + protoPad n) / 4)), .string8 reason,
    .unused (protoPad n)]

theorem protoSendConnectionRefuse_produces {accepts : List Byte → Bool}
    (haccepts : ∀ sent, accepts sent = true) (order : Byteorder)
    (reason : Chars) (hshort : reason.text.length ≤ 255)
    (major minor : BitVec 16) :
    Produces (protoSendConnectionRefuse accepts order reason.text major minor)
      ((refusal reason major minor).flatMap (Field.bytes order)) := by
  intro sent
  have hassert : cAssert (decide (kstrlen reason.text ≤ 255)) "n <= 255" =
      .ok () := by
    rw [kstrlen_eq reason.nonzero]
    exact cAssert_of (decide_eq_true hshort)
  have hstring := protoSendString8_produces haccepts reason
  rw [kstrlen_eq reason.nonzero] at hstring
  have hcard8 := protoSendCard8_produces haccepts
  have hcard16 := protoSendCard16_produces haccepts order
  rw [protoSendConnectionRefuse, hassert, ok_bind, kstrlen_eq reason.nonzero]
  simp only [refusal, List.flatMap_cons, List.flatMap_nil, List.append_nil,
    Field.bytes]
  exact ((hcard8 _).bind ((hcard8 _).bind ((hcard16 _).bind
    ((hcard16 _).bind ((hcard16 _).bind (hstring.bind
      (protoSendUnused_produces haccepts _))))))) sent

theorem refusal_length (order : Byteorder) (reason : Chars)
    (major minor : BitVec 16) :
    ((refusal reason major minor).flatMap (Field.bytes order)).length =
      8 + 4 * ((reason.text.length + protoPad reason.text.length) / 4) := by
  have hwords := four_dvd_add_protoPad reason.text.length
  simp only [refusal, List.flatMap_cons, List.flatMap_nil, List.append_nil,
    Field.bytes, List.length_append, card16_length, List.length_cons,
    List.length_nil, List.length_replicate]
  omega

/-! ## Round trip -/

/-- What the send functions produce for some fields, for a setup request and for
a refusal is what the receiver gets, as long as its allocations succeed. -/
theorem round_trip {accepts : List Byte → Bool}
    (haccepts : ∀ sent, accepts sent = true) (heapCalloc : ℕ → ℕ → Bool) :
    (∀ (order : Byteorder) (fields : List Field), ∃ bytes,
      (∀ sent, sendFields accepts order fields sent = .ok (sent ++ bytes)) ∧
      ∀ rest allocated,
        Granted heapCalloc allocated (fields.flatMap Field.sizes) →
        ∃ allocated', recvFields heapCalloc order (fields.map Field.shape)
            ⟨bytes ++ rest, allocated⟩ =
          (fields.map Field.value, ⟨rest, allocated'⟩)) ∧
    (∀ (request : SetupRequest) rest allocated,
      Granted heapCalloc allocated request.sizes → ∃ allocated',
      protoRecvConnectionSetup heapCalloc ⟨request.bytes ++ rest, allocated⟩ =
          (.ok request.setup, ⟨rest, allocated'⟩) ∧
      request.bytes.length =
        12 + request.name.length + protoPad request.name.length +
          request.data.length + protoPad request.data.length ∧
      4 ∣ request.name.length + protoPad request.name.length ∧
      4 ∣ request.data.length + protoPad request.data.length) ∧
    ∀ (order : Byteorder) (reason : Chars) major minor,
      reason.text.length ≤ 255 → ∃ bytes,
      (∀ sent, protoSendConnectionRefuse accepts order reason.text major minor
        sent = .ok (sent ++ bytes)) ∧
      bytes.length =
        8 + 4 * ((reason.text.length + protoPad reason.text.length) / 4) ∧
      ∀ rest allocated,
        Granted heapCalloc allocated [reason.text.length + 1] →
        ∃ allocated', recvFields heapCalloc order
            ((refusal reason major minor).map Field.shape)
            ⟨bytes ++ rest, allocated⟩ =
          ((refusal reason major minor).map Field.value,
            ⟨rest, allocated'⟩) := by
  refine ⟨?_, ?_, ?_⟩
  · intro order fields
    exact ⟨fields.flatMap (Field.bytes order),
      sendFields_produces haccepts order fields, fun rest allocated hheap =>
        ⟨_, recvFields_append order fields rest hheap⟩⟩
  · intro request rest allocated hheap
    exact ⟨_, protoRecvConnectionSetup_append request rest hheap,
      request.bytes_length, four_dvd_add_protoPad _, four_dvd_add_protoPad _⟩
  · intro order reason major minor hshort
    exact ⟨_, protoSendConnectionRefuse_produces haccepts order reason hshort
        major minor, refusal_length order reason major minor,
      fun rest allocated hheap => ⟨_, recvFields_append order
        (refusal reason major minor) rest hheap⟩⟩

/-- A greeting is read back although the heap grants one allocation only. -/
theorem greeting_round_trip :
    ∃ bytes,
      (∀ sent, sendFields (fun _ => true) .lsbFirst
        [.card8 0x6c, .card16 11, .card32 0x01020304,
          .string8 ⟨[0x68, 0x69], by decide, by decide⟩, .unused 2] sent =
            .ok (sent ++ bytes)) ∧
      ∀ rest, ∃ allocated',
        recvFields (fun call _ => call = 0) .lsbFirst
            [.card8, .card16, .card32, .string8 2, .unused 2]
            ⟨bytes ++ rest, 0⟩ =
          ([.card8 0x6c, .card16 11, .card32 0x01020304,
            .string8 (some [0x68, 0x69, 0]), .unused],
            ⟨rest, allocated'⟩) := by
  obtain ⟨bytes, hsend, hrecv⟩ := (round_trip (fun _ => rfl)
    fun call _ => call = 0).1 .lsbFirst
      [.card8 0x6c, .card16 11, .card32 0x01020304,
        .string8 ⟨[0x68, 0x69], by decide, by decide⟩, .unused 2]
  exact ⟨bytes, hsend, fun rest => hrecv rest 0 ⟨rfl, trivial⟩⟩

end WindowProto
end Yjkos
