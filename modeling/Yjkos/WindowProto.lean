import Yjkos.Smatcher

/-!
# Window server wire format

The protocol handling of `kernel/windowd.c`.  What a connection has sent is
the list of its bytes; `accepts` says whether the stream takes the next one,
and a byte which is refused halts the server.  What is received comes from a
stream which delivers its bytes in order and then reports `STREAM_EOF`.
-/

namespace Yjkos
namespace WindowProto

open Vfs (Text)
open Smatcher (kstrlen)

abbrev Byte := BitVec 8

inductive Byteorder where
  | msbFirst
  | lsbFirst
deriving DecidableEq, Repr

/-- `STREAM_EOF` -/
def streamEof : BitVec 32 := 0x100

def protoPad (len : ℕ) : ℕ := (4 - len % 4) % 4

/-! ## Sending -/

section Send

variable (accepts : List Byte → Bool) (order : Byteorder)

def protoSendCard8 (val : Byte) (sent : List Byte) :
    Except Fault (List Byte) :=
  if accepts sent then .ok (sent ++ [val])
  else .error (.panic "windowd: Failed to send data to the client\n")

def protoSendUnused : ℕ → List Byte → Except Fault (List Byte)
  | 0, sent => .ok sent
  | count + 1, sent => do
      let sent ← protoSendCard8 accepts 0 sent
      protoSendUnused count sent

def protoSendCard16 (val : BitVec 16) (sent : List Byte) :
    Except Fault (List Byte) :=
  let msb : Byte := (val >>> 8).setWidth 8
  let lsb : Byte := val.setWidth 8
  match order with
  | .msbFirst => do
      let sent ← protoSendCard8 accepts msb sent
      protoSendCard8 accepts lsb sent
  | .lsbFirst => do
      let sent ← protoSendCard8 accepts lsb sent
      protoSendCard8 accepts msb sent

def protoSendCard32 (val : BitVec 32) (sent : List Byte) :
    Except Fault (List Byte) :=
  let msb : BitVec 16 := (val >>> 16).setWidth 16
  let lsb : BitVec 16 := val.setWidth 16
  match order with
  | .msbFirst => do
      let sent ← protoSendCard16 accepts order msb sent
      protoSendCard16 accepts order lsb sent
  | .lsbFirst => do
      let sent ← protoSendCard16 accepts order lsb sent
      protoSendCard16 accepts order msb sent

/-- The loop of `proto_send_string8`, from the first character on. -/
def sendChars : ℕ → Text → List Byte → Except Fault (List Byte)
  | 0, _, sent => .ok sent
  | len + 1, str, sent => do
      let sent ← protoSendCard8 accepts (str.headD 0) sent
      sendChars len str.tail sent

def protoSendString8 (str : Text) (len : ℕ) (sent : List Byte) :
    Except Fault (List Byte) := do
  cAssert (kstrlen str ≤ len) "kstrlen(str) <= len"
  sendChars accepts len str sent

def protoSendConnectionRefuse (reason : Text)
    (protocolMajorVersion protocolMinorVersion : BitVec 16)
    (sent : List Byte) : Except Fault (List Byte) := do
  let n := kstrlen reason
  cAssert (n ≤ 255) "n <= 255"
  let p := protoPad n
  let sent ← protoSendCard8 accepts 0 sent
  let sent ← protoSendCard8 accepts (BitVec.ofNat 8 n) sent
  let sent ← protoSendCard16 accepts order protocolMajorVersion sent
  let sent ← protoSendCard16 accepts order protocolMinorVersion sent
  let sent ← protoSendCard16 accepts order (BitVec.ofNat 16 ((n + p) / 4))
    sent
  let sent ← protoSendString8 accepts reason n sent
  protoSendUnused accepts p sent

end Send

/-! ## Receiving -/

/-- The bytes which the stream still delivers, and the number of the calls of
`heap_calloc` so far. -/
structure Client where
  input : List Byte
  allocated : ℕ

def streamGetChar (client : Client) : BitVec 32 × Client :=
  match client.input with
  | [] => (streamEof, client)
  | chr :: input => (chr.setWidth 32, { client with input })

def protoRecvUnused : ℕ → Client → Client
  | 0, client => client
  | count + 1, client => protoRecvUnused count (streamGetChar client).2

def protoRecvCard8 (client : Client) : Byte × Client :=
  let (chr, client) := streamGetChar client
  (chr.setWidth 8, client)

section Receive

variable (order : Byteorder)

def protoRecvCard16 (client : Client) : BitVec 16 × Client :=
  let (val0, client) := protoRecvCard8 client
  let (val1, client) := protoRecvCard8 client
  match order with
  | .msbFirst =>
      (((val0.setWidth 32 <<< 8) ||| val1.setWidth 32).setWidth 16, client)
  | .lsbFirst =>
      (((val1.setWidth 32 <<< 8) ||| val0.setWidth 32).setWidth 16, client)

def protoRecvCard32 (client : Client) : BitVec 32 × Client :=
  let (val0, client) := protoRecvCard16 order client
  let (val1, client) := protoRecvCard16 order client
  match order with
  | .msbFirst => ((val0.setWidth 32 <<< 16) ||| val1.setWidth 32, client)
  | .lsbFirst => ((val1.setWidth 32 <<< 16) ||| val0.setWidth 32, client)

end Receive

/-- The loop of `proto_recv_string8`. -/
def recvChars : ℕ → Client → Text × Client
  | 0, client => ([], client)
  | len + 1, client =>
      let (c, client) := protoRecvCard8 client
      let (str, client) := recvChars len client
      (c :: str, client)

section Heap

-- Whether the allocation of so many bytes succeeds, call by call.
variable (heapCalloc : ℕ → ℕ → Bool)

/-- The allocated memory, with the terminator the function puts behind the
characters, or none for `nullptr`. -/
def protoRecvString8 (len : ℕ) (client : Client) : Option Text × Client :=
  let succeeds := heapCalloc client.allocated (wrap (len + 1))
  let client := { client with allocated := client.allocated + 1 }
  if succeeds then
    let (str, client) := recvChars len client
    (some (str ++ [0]), client)
  else (none, client)

structure ConnectionSetup where
  byteorder : Byteorder
  protocolMajorVersion : BitVec 16
  protocolMinorVersion : BitVec 16
  authorizationProtocolName : Text
  authorizationProtocolData : Text
deriving DecidableEq, Repr

/-- The switch on `byte_order_raw`; any other byte is warned about. -/
def byteorderOf (byteOrderRaw : BitVec 32) : Byteorder :=
  if byteOrderRaw = 0x42 then .msbFirst
  else if byteOrderRaw = 0x6c then .lsbFirst
  else .lsbFirst

def protoRecvConnectionSetup (client : Client) :
    Except Errno ConnectionSetup × Client :=
  let (byteOrderRaw, client) := streamGetChar client
  let byteorder := byteorderOf byteOrderRaw
  let client := protoRecvUnused 1 client
  let (protocolMajorVersion, client) := protoRecvCard16 byteorder client
  let (protocolMinorVersion, client) := protoRecvCard16 byteorder client
  let (n, client) := protoRecvCard16 byteorder client
  let (d, client) := protoRecvCard16 byteorder client
  let client := protoRecvUnused 2 client
  let (name, client) := protoRecvString8 heapCalloc n.toNat client
  let client := protoRecvUnused (protoPad n.toNat) client
  let (data, client) := protoRecvString8 heapCalloc d.toNat client
  let client := protoRecvUnused (protoPad d.toNat) client
  match name, data with
  | some name, some data =>
      (.ok ⟨byteorder, protocolMajorVersion, protocolMinorVersion, name, data⟩,
        client)
  | _, _ => (.error .enomem, client)

end Heap

end WindowProto
end Yjkos
