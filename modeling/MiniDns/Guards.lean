import MiniDns.Dns.Resolver

/-! The guards in front of the lookup: the blocklist, the transfer ACL and the rate limiter. -/
namespace MiniDns
open Lib Dns
set_option autoImplicit false

/-! ## Blocklist -/

structure Blocklist where
  entries : List Text

namespace Blocklist

def empty : Blocklist := ⟨[]⟩

def isActive (b : Blocklist) : Bool := !b.entries.isEmpty

def isBlocked (rt : Runtime) (b : Blocklist) (name : Text) : Bool :=
  let name := rt.toLowercase name
  b.entries.contains name ||
    (wildcardMatch (fun key => if b.entries.contains key then some () else none) name).isSome

end Blocklist

/-! ## Transfer ACL -/

inductive Cidr where
  | v4 (addr : Ipv4Addr) (bits : UInt8) (le : bits.toNat ≤ 32)
  | v6 (addr : Ipv6Addr) (bits : UInt8) (le : bits.toNat ≤ 128)
  deriving DecidableEq

/-- `matches_v4` and `matches_v6`, over addresses of any size. The byte behind the full ones is only
looked at when there are bits left, so an index out of range is a panic. -/
def matchesNet (net : Bytes) (bits : ℕ) (ip : Bytes) : Outcome Empty Bool := do
  let fullBytes := bits / 8
  let rem := bits % 8
  let ipHead ← slice ip 0 fullBytes
  let netHead ← slice net 0 fullBytes
  if ipHead ≠ netHead then pure false
  else if rem = 0 then pure true
  else do
    let mask : UInt8 := 0xFF <<< UInt8.ofNat (8 - rem)
    let ipByte ← byteAt ip fullBytes
    let netByte ← byteAt net fullBytes
    pure (ipByte &&& mask == netByte &&& mask)

structure Acl where
  entries : List Cidr

namespace Acl

def denyAll : Acl := ⟨[]⟩

def covers : Cidr → IpAddr → Outcome Empty Bool
  | .v4 addr bits _, .v4 ip => matchesNet addr.octets bits.toNat ip.octets
  | .v6 addr bits _, .v6 ip => matchesNet addr.octets bits.toNat ip.octets
  | _, _ => pure false

def isAllowedFrom (ip : IpAddr) : List Cidr → Outcome Empty Bool
  | [] => pure false
  | cidr :: entries => do
    if ← covers cidr ip then pure true else isAllowedFrom ip entries

def isAllowed (acl : Acl) (ip : IpAddr) : Outcome Empty Bool := isAllowedFrom ip acl.entries

end Acl

/-! ## Rate limiter -/

structure Window where
  startedAt : Instant
  count : UInt32
  deriving DecidableEq, Repr

/-- At most `maxPerWindow` queries per client and `window`; `0` disables limiting. -/
structure RateLimiter where
  maxPerWindow : UInt32
  window : Duration
  clients : HashMap IpAddr Window

namespace RateLimiter

def new (maxPerWindow : UInt32) (window : Duration) : RateLimiter := ⟨maxPerWindow, window, ∅⟩

def disabled : RateLimiter := new 0 (fromSecs 1)

def currentWindow (l : RateLimiter) (now : Instant) (ip : IpAddr) : Window :=
  let window := (l.clients.lookup ip).getD ⟨now, 0⟩
  if window.startedAt ≤ now ∧ l.window ≤ now - window.startedAt then ⟨now, 0⟩ else window

def allow (l : RateLimiter) (now : Instant) (ip : IpAddr) : Bool × RateLimiter :=
  if l.maxPerWindow = 0 then (true, l)
  else
    let window := l.currentWindow now ip
    let window := { window with count := window.count + 1 }
    (window.count ≤ l.maxPerWindow, { l with clients := l.clients.insert ip window })

def cleanup (l : RateLimiter) (now : Instant) : RateLimiter :=
  { l with
    clients :=
      ⟨l.clients.entries.filter fun entry => now - entry.2.startedAt < l.window,
        l.clients.nodupKeys.sublist (List.filter_sublist)⟩ }

end RateLimiter
end MiniDns
