import Embassies.Lib.Buffer

/-! `XIPAddr`: an IPv4 or an IPv6 address, as the bytes it has in a packet. -/

namespace Embassies.Net

/-- `XIPVer` without `ipv_err`. -/
inductive XIPVer where | ipv4 | ipv6
  deriving DecidableEq

/-- The size of an address of a version. -/
def XIPVer.addrSize : XIPVer → ℕ
  | .ipv4 => 4
  | .ipv6 => 16

/-- `XIPAddr`. -/
structure XIPAddr where
  version : XIPVer
  addr : Bytes
  length_eq : addr.length = version.addrSize
  deriving DecidableEq

def readAddr (version : XIPVer) (packet : Bytes) (off : ℕ) : Checked XIPAddr :=
  if h : off + version.addrSize ≤ packet.length then .ok ⟨version, field packet off _, length_field h⟩
  else .error .outOfRange

/-- The address at `off`. -/
def addrAt (version : XIPVer) (packet : Bytes) (off : ℕ) (h : off + version.addrSize ≤ packet.length) :
    XIPAddr := ⟨version, field packet off version.addrSize, length_field h⟩

lemma readAddr_of_fits {version : XIPVer} {packet : Bytes} {off : ℕ} (h : off + version.addrSize ≤ packet.length) :
    readAddr version packet off = .ok (addrAt version packet off h) := dif_pos h

end Embassies.Net
