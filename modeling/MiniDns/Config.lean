import MiniDns.Runtime
import Mathlib.Data.List.Sort

/-! Zones and forwarding rules, both selected by the longest matching suffix of a name. -/
namespace MiniDns
open Lib Dns
set_option autoImplicit false

/-! ## Longest suffix first -/

/-- `name == suffix || name.ends_with(&format!(".{suffix}"))` -/
def underSuffix (name suffix : Text) : Bool := name == suffix || ('.' :: suffix).isSuffixOf name

/-- The order of `sort_by_key(|b| Reverse(b.key.len()))`. -/
def Longer {α : Type} (key : α → Text) (a b : α) : Prop := (utf8 (key b)).length ≤ (utf8 (key a)).length

instance {α : Type} (key : α → Text) : DecidableRel (Longer key) := fun _ _ => Nat.decLe _ _
instance {α : Type} (key : α → Text) : Std.Total (Longer key) := ⟨fun _ _ => Nat.le_total _ _⟩
instance {α : Type} (key : α → Text) : IsTrans α (Longer key) := ⟨fun _ _ _ h h' => Nat.le_trans h' h⟩

/-! ## Zones -/

abbrev Zone := HashMap Text (List DnsRecord)

structure AuthZone where
  origin : Text
  records : Zone

structure ZoneSet where
  zones : List AuthZone
  sorted : zones.Pairwise (Longer AuthZone.origin)

namespace ZoneSet

def new (zones : List AuthZone) : ZoneSet :=
  ⟨zones.insertionSort (Longer AuthZone.origin), List.pairwise_insertionSort _ _⟩

def fromSingle (origin : Text) (records : Zone) : ZoneSet := new [⟨origin, records⟩]

def empty : ZoneSet := ⟨[], List.Pairwise.nil⟩

def find (zs : ZoneSet) (name : Text) : Option AuthZone :=
  zs.zones.find? fun z => z.origin.isEmpty || underSuffix name z.origin

end ZoneSet

/-! ## Forwarding rules -/

structure ForwardRule where
  suffix : Text
  upstream : SocketAddr
  deriving DecidableEq, Repr

structure ForwardRules where
  rules : List ForwardRule
  default : Option SocketAddr
  sorted : rules.Pairwise (Longer ForwardRule.suffix)

namespace ForwardRules

def new (default : Option SocketAddr) (rules : List ForwardRule) : ForwardRules :=
  ⟨rules.insertionSort (Longer ForwardRule.suffix), default, List.pairwise_insertionSort _ _⟩

def single (default : SocketAddr) : ForwardRules := new (some default) []

def none : ForwardRules := new Option.none []

def matchName (r : ForwardRules) (name : Text) : Option SocketAddr :=
  match r.rules.find? fun rule => underSuffix name rule.suffix with
  | some rule => some rule.upstream
  | Option.none => r.default

def withDefault (r : ForwardRules) (default : SocketAddr) : ForwardRules := new (some default) r.rules

def isEnabled (r : ForwardRules) : Bool := r.default.isSome || !r.rules.isEmpty

end ForwardRules
end MiniDns
