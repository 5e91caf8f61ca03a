import Raeva.Repo.Url

/-!
# Public addresses

`is_globally_routable` of `rv-repo/src/transport/guard.rs`: the addresses that
are no plausible destination on the public internet, with the IPv4 addresses
that IPv6 ones carry unwrapped first.
-/

namespace Raeva

namespace Ipv4Addr

def isLoopback (addr : Ipv4Addr) : Bool :=
  addr.first == 127

def isPrivate (addr : Ipv4Addr) : Bool :=
  addr.first == 10 || (addr.first == 172 && 16 ≤ addr.second && addr.second ≤ 31) ||
    (addr.first == 192 && addr.second == 168)

def isLinkLocal (addr : Ipv4Addr) : Bool :=
  addr.first == 169 && addr.second == 254

def isBroadcast (addr : Ipv4Addr) : Bool :=
  addr.first == 255 && addr.second == 255 && addr.third == 255 && addr.fourth == 255

def isMulticast (addr : Ipv4Addr) : Bool :=
  224 ≤ addr.first && addr.first ≤ 239

def isDocumentation (addr : Ipv4Addr) : Bool :=
  (addr.first == 192 && addr.second == 0 && addr.third == 2) ||
    (addr.first == 198 && addr.second == 51 && addr.third == 100) ||
    (addr.first == 203 && addr.second == 0 && addr.third == 113)

def isGloballyRoutable (addr : Ipv4Addr) : Bool :=
  !(addr.isLoopback || addr.isPrivate || addr.isLinkLocal || addr.isBroadcast ||
    addr.isMulticast || addr.isDocumentation || addr.first == 0 ||
    (addr.first == 192 && addr.second == 0 && addr.third == 0) ||
    (addr.first == 192 && addr.second == 88 && addr.third == 99) ||
    (addr.first == 100 && 64 ≤ addr.second && addr.second < 128) ||
    (addr.first == 198 && addr.second &&& 0xfe == 18) || 240 ≤ addr.first)

end Ipv4Addr

namespace Ipv6Addr

def isUnspecified (addr : Ipv6Addr) : Bool :=
  addr == ⟨0, 0, 0, 0, 0, 0, 0, 0⟩

def isLoopback (addr : Ipv6Addr) : Bool :=
  addr == ⟨0, 0, 0, 0, 0, 0, 0, 1⟩

def isMulticast (addr : Ipv6Addr) : Bool :=
  addr.first &&& 0xff00 == 0xff00

def lowIpv4 (addr : Ipv6Addr) : Ipv4Addr where
  first := (addr.seventh >>> 8).toUInt8
  second := addr.seventh.toUInt8
  third := (addr.eighth >>> 8).toUInt8
  fourth := addr.eighth.toUInt8

/-- The address that an IPv4-mapped, IPv4-compatible or well-known NAT64 one
carries. -/
def embeddedIpv4 (addr : Ipv6Addr) : Option Ipv4Addr :=
  let zeros := addr.third == 0 && addr.fourth == 0 && addr.fifth == 0
  if (addr.first == 0 && addr.second == 0 && zeros && (addr.sixth == 0 || addr.sixth == 0xffff)) ||
      (addr.first == 0x0064 && addr.second == 0xff9b && zeros && addr.sixth == 0) then
    some addr.lowIpv4
  else none

def isGloballyRoutable (addr : Ipv6Addr) : Bool :=
  if addr.isLoopback || addr.isUnspecified || addr.isMulticast then false
  else
    match addr.embeddedIpv4 with
    | some mapped => mapped.isGloballyRoutable
    | none =>
      !(addr.first &&& 0xfe00 == 0xfc00 || addr.first &&& 0xffc0 == 0xfe80 ||
        addr.first &&& 0xffc0 == 0xfec0 ||
        (addr.first == 0x0100 && addr.second == 0 && addr.third == 0 && addr.fourth == 0) ||
        (addr.first == 0x0100 && addr.second == 0 && addr.third == 0 && addr.fourth == 1) ||
        (addr.first == 0x2001 && addr.second < 0x0200) ||
        (addr.first == 0x2001 && addr.second == 0x0db8) ||
        (addr.first == 0x3fff && addr.second ≤ 0x0fff) || addr.first == 0x2002 ||
        (addr.first == 0x0064 && addr.second == 0xff9b && addr.third == 0x0001) ||
        addr.first == 0x5f00)

end Ipv6Addr

def IpAddr.isGloballyRoutable : IpAddr → Bool
  | v4 addr => addr.isGloballyRoutable
  | v6 addr => addr.isGloballyRoutable

end Raeva
