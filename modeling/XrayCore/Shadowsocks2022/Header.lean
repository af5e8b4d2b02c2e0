/-
  XrayCore.Shadowsocks2022.Header

  What the streams and the packets share: how a timestamp is compared with the clock, and
  how an address is parsed.

  A slice out of range stops the program: `none`, under the errors.
-/

import XrayCore.Bytes.Slice
import XrayCore.Machine.Result
import XrayCore.Protocol.Address

namespace XrayCore.Shadowsocks2022

open Bytes Machine Protocol Wire

def headerTypeClient : UInt8 := 0

def headerTypeServer : UInt8 := 1

/-- `AEADTagSize`. -/
def aeadTagSize : ℕ := 16

def errBadHeaderType : String := "bad header type"

def errBadTimestamp : String := "bad timestamp"

def errPacketTooShort : String := "packet too short"

def errNoPadding : String := "bad request: missing payload or padding"

def errInvalidRequest : String := "invalid request"

/-- `cipher.AEAD`, of which only `Open` is used: by nonce and ciphertext. -/
abbrev Opening := Bytes → Bytes → Option Bytes

/-- `int(math.Abs(float64(now - int64(epoch))))`; what a double out of range becomes as an
    integer is not defined. -/
def timestampDiff (outOfRange now : ℤ) (epoch : ℕ) : ℤ :=
  let f := round53 (wrap64 (now - wrap64 epoch)).natAbs
  if f < 2 ^ 63 then f else outOfRange

/-- A timestamp too far behind the clock, unless by so much that it is no double. -/
theorem lt_timestampDiff {now : ℤ} {epoch : ℕ} (outOfRange : ℤ)
    (hlate : wrap64 epoch + 30 < now) (hnear : now < wrap64 epoch + 2 ^ 53) :
    30 < timestampDiff outOfRange now epoch := by
  have hwrap : wrap64 (now - wrap64 epoch) = now - wrap64 epoch :=
    wrap64_of_lt (by omega) (by omega)
  rw [timestampDiff, hwrap, round53_of_lt (by omega), if_pos (by omega)]
  omega

/-- `ParseAddressPort`: the destination, and how much it takes. -/
def parseAddressPort (data : Bytes) : Result (Destination × ℕ) := do
  reject (data.length < 1) errPacketTooShort
  let family ← checked (index data 0)
  if family = 1 then
    reject (data.length < 1 + 4 + 2) errPacketTooShort
    let ip ← checked ((slice data 1 5).bind ipAddress)
    let port ← checked (slice data 5 7)
    return (⟨.udp, ip, UInt16.ofNat (bigEndian port)⟩, 7)
  else if family = 4 then
    reject (data.length < 1 + 16 + 2) errPacketTooShort
    let ip ← checked ((slice data 1 17).bind ipAddress)
    let port ← checked (slice data 17 19)
    return (⟨.udp, ip, UInt16.ofNat (bigEndian port)⟩, 19)
  else if family = 3 then
    reject (data.length < 2) errPacketTooShort
    let domainLen ← checked (index data 1)
    reject (data.length < 2 + domainLen.toNat + 2) errPacketTooShort
    let domain ← checked (slice data 2 (2 + domainLen.toNat))
    let port ← checked (slice data (2 + domainLen.toNat) (2 + domainLen.toNat + 2))
    return (⟨.udp, .domain domain, UInt16.ofNat (bigEndian port)⟩, 2 + domainLen.toNat + 2)
  else throw "unknown address type"

end XrayCore.Shadowsocks2022
