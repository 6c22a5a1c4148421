import MiniDns.Guards
import MiniDns.ZoneFile

/-! The settings of the config file, and the zones, forwarding rules, blocklist and transfer ACL that are
loaded from them. The TOML reader is a parameter, and so are the contents of the files. -/
namespace MiniDns
open Lib Lib.Outcome Dns
set_option autoImplicit false

/-! ## Settings -/

structure ServerSettings where
  addr : Option Text
  noRecurse : Option Bool
  rateLimit : Option UInt32
  cacheSize : Option ℕ

structure ForwardRuleSettings where
  suffix : Text
  upstream : Text

structure UpstreamSettings where
  default : Option Text
  rules : Option (List ForwardRuleSettings)
  recursive : Bool

structure ZoneSettings where
  origin : Text
  file : Text

structure BlocklistSettings where
  file : Text

structure Dns64Settings where
  netPrefix : Option Text

structure AxfrSettings where
  allow : List Text

structure DnssecSettings where
  enabled : Bool

structure Settings where
  server : Option ServerSettings := none
  upstream : Option UpstreamSettings := none
  zone : Option (List ZoneSettings) := none
  blocklist : Option BlocklistSettings := none
  dns64 : Option Dns64Settings := none
  axfr : Option AxfrSettings := none
  dnssec : Option DnssecSettings := none

/-- What `read_to_string` yields for each path. -/
abbrev Files := Text → Option Text

/-- The outermost context of the errors that stop a start or a reload. -/
inductive LoadError where
  | readingConfig (path : Text)
  | parsingConfig (path : Text)
  | loadingZone (origin file : Text)
  | readingZone
  | readingBlocklist (path : Text)
  | invalidUpstream (s : Text)
  deriving DecidableEq, Repr

def LoadError.message : LoadError → Text
  | readingConfig path => "reading config ".toList ++ path
  | parsingConfig path => "parsing config ".toList ++ path
  | loadingZone origin file => "loading zone ".toList ++ origin ++ " from ".toList ++ file
  | readingZone => "Failed to read zone file".toList
  | readingBlocklist path => "reading blocklist ".toList ++ path
  | invalidUpstream s => "invalid upstream address `".toList ++ s ++ "`".toList

def loadSettings (toml : Text → Option Settings) (files : Files) (path : Text) : Outcome LoadError Settings := do
  let content ← ofOption (files path) (.readingConfig path)
  ofOption (toml content) (.parsingConfig path)

/-! ## Zones -/

def readZoneFile (rt : Runtime) (files : Files) (path : Text) : Option Zone :=
  (files path).map fun content => (loadZoneFile rt path content).zone

def loadZones (rt : Runtime) (files : Files) : List ZoneSettings → Outcome LoadError (List AuthZone)
  | [] => ok []
  | z :: zs => do
    let records ← ofOption (readZoneFile rt files z.file) (.loadingZone z.origin z.file)
    let zones ← loadZones rt files zs
    pure (⟨rt.toLowercase z.origin, records⟩ :: zones)

def loadZonesFromSettings (rt : Runtime) (files : Files) (settings : Settings) : Outcome LoadError ZoneSet :=
  match settings.zone with
  | none => ok ZoneSet.empty
  | some cfgs => do
    let zones ← loadZones rt files cfgs
    pure (ZoneSet.new zones)

def inferredOrigin (rt : Runtime) (records : Zone) : Text := ((zoneSoa rt records).map DnsRecord.domain).getD []

def loadZoneWithInferredOrigin (rt : Runtime) (files : Files) (path : Text) : Outcome LoadError AuthZone := do
  let records ← ofOption (readZoneFile rt files path) .readingZone
  pure ⟨inferredOrigin rt records, records⟩

/-! ## Forwarding rules -/

def readSocketAddr (s : Text) : Option (SocketAddr × Text) :=
  ((readSocketAddrV4 s).map fun (((a, b, c, d), port), rest) =>
      (⟨.v4 ⟨UInt8.ofFin a, UInt8.ofFin b, UInt8.ofFin c, UInt8.ofFin d⟩, UInt16.ofFin port, 0⟩, rest)) <|>
    (readSocketAddrV6 s).map fun ((groups, scopeId, port), rest) =>
      (⟨.v6 (ipv6OfGroups groups), UInt16.ofFin port, UInt32.ofFin scopeId⟩, rest)

def parseSocketAddr (s : Text) : Option SocketAddr := parseAll readSocketAddr s

/-- `host:port`, with port 53 if it is left out. -/
def parseUpstreamAddr (s : Text) : Outcome LoadError SocketAddr :=
  ofOption (parseSocketAddr s <|> parseSocketAddr (s ++ ":53".toList)) (.invalidUpstream s)

def loadRules (rt : Runtime) : List ForwardRuleSettings → Outcome LoadError (List ForwardRule)
  | [] => ok []
  | r :: rs => do
    let upstream ← parseUpstreamAddr r.upstream
    let rules ← loadRules rt rs
    pure (⟨rt.toLowercase r.suffix, upstream⟩ :: rules)

def forwardRulesFromSettings (rt : Runtime) (settings : Settings) : Outcome LoadError ForwardRules :=
  match settings.upstream with
  | none => ok ForwardRules.none
  | some up => do
    let default ← match up.default with
      | some s => do
        let addr ← parseUpstreamAddr s
        pure (some addr)
      | none => pure none
    let rules ← loadRules rt (up.rules.getD [])
    pure (ForwardRules.new default rules)

example : parseUpstreamAddr "9.9.9.9".toList = ok ⟨.v4 ⟨9, 9, 9, 9⟩, 53, 0⟩ := by decide

/-! ## Blocklist -/

def isValidDomain (domain : Text) : Bool :=
  !domain.isEmpty && (splitDots domain).all fun label =>
    !label.isEmpty && ((readChar '*' label).getD label).all fun c => c.isAlphanum || c == '-'

structure BlocklistLoad where
  entries : List Text
  log : List Text

/-- `{path}:{lineno}: invalid domain `{domain}`; skipping` -/
def domainWarning (path : Text) (lineno : ℕ) (domain : Text) : Text :=
  path ++ ':' :: Nat.toDigits 10 lineno ++ ": invalid domain `".toList ++ domain ++ "`; skipping".toList

def loadBlocklistLine (rt : Runtime) (path : Text) (load : BlocklistLoad) (numbered : Text × ℕ) : BlocklistLoad :=
  let line := trim numbered.1
  if line = [] ∨ line.head? = some ';' ∨ line.head? = some '#' then load
  else
    let domain := rt.toLowercase line
    if domain = [] then load
    else if isValidDomain domain then { load with entries := load.entries.insert domain }
    else { load with log := load.log ++ [domainWarning path (numbered.2 + 1) domain] }

/-- `load_blocklist_file` on the content of the file. -/
def loadBlocklistFile (rt : Runtime) (path content : Text) : BlocklistLoad :=
  (lines content).zipIdx.foldl (loadBlocklistLine rt path) ⟨[], []⟩

def readBlocklistFile (rt : Runtime) (files : Files) (path : Text) : Option Blocklist :=
  (files path).map fun content => ⟨(loadBlocklistFile rt path content).entries⟩

/-- A blocklist with the path that it was loaded from. -/
structure FileBlocklist where
  list : Blocklist
  path : Option Text

namespace FileBlocklist

def empty : FileBlocklist := ⟨Blocklist.empty, none⟩

def fromFile (rt : Runtime) (files : Files) (path : Text) : Outcome LoadError FileBlocklist := do
  let list ← ofOption (readBlocklistFile rt files path) (.readingBlocklist path)
  pure ⟨list, some path⟩

def reload (rt : Runtime) (files : Files) (b : FileBlocklist) : Outcome LoadError FileBlocklist :=
  match b.path with
  | none => ok b
  | some path => do
    let list ← ofOption (readBlocklistFile rt files path) (.readingBlocklist path)
    pure { b with list := list }

end FileBlocklist

example : (loadBlocklistFile .ascii "b".toList "Ads.Example\n# none\n*.x\na_b\nads.example".toList).entries =
    ["*.x".toList, "ads.example".toList] := by decide

/-! ## Transfer ACL -/

inductive CidrError where
  | lengthInvalid
  | lengthV4 (bits : UInt8)
  | lengthV6 (bits : UInt8)
  | notAddress (addrPart : Text)
  | notCidr (s : Text)
  deriving DecidableEq, Repr

def CidrError.message : CidrError → Text
  | lengthInvalid => "invalid prefix length".toList
  | lengthV4 bits => "IPv4 prefix length ".toList ++ Nat.toDigits 10 bits.toNat ++ " > 32".toList
  | lengthV6 bits => "IPv6 prefix length ".toList ++ Nat.toDigits 10 bits.toNat ++ " > 128".toList
  | notAddress addrPart => "not a valid IP address: ".toList ++ addrPart
  | notCidr s => "not a valid CIDR or IP: ".toList ++ s

def parseCidr (s : Text) : Outcome CidrError Cidr :=
  match splitOnce '/' s with
  | some (addrPart, lengthPart) => do
    let bits ← ofOption (parseU8 lengthPart) .lengthInvalid
    match parseIpv4Addr addrPart, parseIpv6Addr addrPart with
    | some v4, _ => if h : bits.toNat ≤ 32 then ok (.v4 v4 bits h) else err (.lengthV4 bits)
    | none, some v6 => if h : bits.toNat ≤ 128 then ok (.v6 v6 bits h) else err (.lengthV6 bits)
    | none, none => err (.notAddress addrPart)
  | none =>
    match parseIpv4Addr s, parseIpv6Addr s with
    | some v4, _ => ok (.v4 v4 32 (by decide))
    | none, some v6 => ok (.v6 v6 128 (by decide))
    | none, none => err (.notCidr s)

/-- The entries of an ACL; a failure names the entry, as in `parsing ACL entry `{s}``, and its cause. -/
def Acl.parseSpecs : List Text → Outcome (Text × CidrError) (List Cidr)
  | [] => ok []
  | spec :: specs =>
    let s := trim spec
    if s = [] then parseSpecs specs
    else
      (parseCidr s).handle
        (fun cidr => do
          let entries ← parseSpecs specs
          pure (cidr :: entries))
        fun e => err ("parsing ACL entry `".toList ++ s ++ "`".toList, e)

def Acl.parse (specs : List Text) : Outcome (Text × CidrError) Acl := do
  let entries ← Acl.parseSpecs specs
  pure ⟨entries⟩

end MiniDns
