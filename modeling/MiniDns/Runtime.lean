import MiniDns.Dns.Record
import Mathlib.Data.List.AList

/-! What the server takes from its surroundings: addresses and clock readings, and the library
behaviour that the code does not fix itself. -/
namespace MiniDns
open Lib Dns
set_option autoImplicit false

inductive IpAddr where
  | v4 (addr : Ipv4Addr)
  | v6 (addr : Ipv6Addr)
  deriving DecidableEq, Repr

/-- An address with a port; the scope of an address without one is zero. -/
structure SocketAddr where
  ip : IpAddr
  port : UInt16
  scopeId : UInt32
  deriving DecidableEq, Repr

/-- A reading of the monotonic clock, and a length of time, in nanoseconds. -/
abbrev Instant := ℕ
abbrev Duration := ℕ

def fromSecs (n : ℕ) : Duration := n * 1000000000

abbrev TaskId := ℕ

/-- A hash map; what its iterators yield is `Runtime.iterate` of the entries. -/
abbrev HashMap (κ ν : Type) := AList fun _ : κ => ν

theorem lookup_of_erase {κ ν : Type} [DecidableEq κ] {map : HashMap κ ν} {k k' : κ} {v : ν}
    (h : (map.erase k').lookup k = some v) : map.lookup k = some v := by
  by_cases hk : k = k'
  · subst hk
    rw [AList.lookup_erase] at h
    cases h
  · rwa [AList.lookup_erase_ne hk] at h

theorem mem_of_lookup {κ ν : Type} [DecidableEq κ] {map : HashMap κ ν} {k : κ} {v : ν}
    (h : map.lookup k = some v) : k ∈ map :=
  AList.lookup_isSome.mp (Option.isSome_of_mem h)

theorem lookup_filter {κ ν : Type} [DecidableEq κ] {map : HashMap κ ν} {p : (Sigma fun _ : κ => ν) → Bool}
    {hkeys : (map.entries.filter p).NodupKeys} {k : κ} {v : ν} :
    (⟨map.entries.filter p, hkeys⟩ : HashMap κ ν).lookup k = some v ↔ map.lookup k = some v ∧ p ⟨k, v⟩ = true := by
  rw [← Option.mem_def, AList.mem_lookup_iff, List.mem_filter, ← AList.mem_lookup_iff, Option.mem_def]

theorem length_erase_of_mem {κ ν : Type} [DecidableEq κ] {map : HashMap κ ν} {k : κ} (h : k ∈ map) :
    (map.erase k).entries.length + 1 = map.entries.length := by
  have hkeys := congrArg List.length (AList.keys_erase k map)
  rw [List.length_erase_of_mem h] at hkeys
  have hpos := List.length_pos_of_mem h
  simp only [AList.keys, List.keys, List.length_map] at hkeys hpos
  omega

theorem length_erase_le {κ ν : Type} [DecidableEq κ] (map : HashMap κ ν) (k : κ) :
    (map.erase k).entries.length ≤ map.entries.length :=
  (List.kerase_sublist k map.entries).length_le

/-! ## Grouping -/

/-- `map.entry(k).or_default().push(v)` -/
def pushEntry {κ ν : Type} [DecidableEq κ] (map : HashMap κ (List ν)) (k : κ) (v : ν) : HashMap κ (List ν) :=
  map.insert k ((map.lookup k).getD [] ++ [v])

def valuesOf {κ ν : Type} [DecidableEq κ] (entries : List (κ × ν)) (k : κ) : List ν :=
  (entries.filter fun entry => entry.1 = k).map Prod.snd

theorem mem_valuesOf {κ ν : Type} [DecidableEq κ] {entries : List (κ × ν)} {k : κ} {v : ν} :
    v ∈ valuesOf entries k ↔ (k, v) ∈ entries := by
  simp [valuesOf]

theorem lookup_foldl_pushEntry {κ ν : Type} [DecidableEq κ] (entries : List (κ × ν)) (map : HashMap κ (List ν))
    (k : κ) :
    (entries.foldl (fun map entry => pushEntry map entry.1 entry.2) map).lookup k =
      if valuesOf entries k = [] then map.lookup k else some ((map.lookup k).getD [] ++ valuesOf entries k) := by
  induction entries generalizing map with
  | nil => rfl
  | cons entry entries ih =>
    rw [List.foldl_cons, ih]
    by_cases hk : entry.1 = k
    · have hvalues : valuesOf (entry :: entries) k = entry.2 :: valuesOf entries k := by
        simp [valuesOf, hk]
      rw [hvalues, if_neg (List.cons_ne_nil _ _), pushEntry, hk, AList.lookup_insert]
      split
      · rename_i hnil
        rw [hnil]
      · simp
    · have hvalues : valuesOf (entry :: entries) k = valuesOf entries k := by
        simp [valuesOf, hk]
      rw [hvalues, pushEntry, AList.lookup_insert_ne (Ne.symm hk)]

/-! ## The runtime -/

/-- Lower-casing outside ASCII, the order in which hash maps are iterated, and Ed25519. -/
structure Runtime where
  toLowercase : Text → Text
  toLowercase_ascii : ∀ s, (∀ c ∈ s, c.toNat < 0x80) → toLowercase s = s.map Char.toLower
  iterate : {α : Type} → List α → List α
  iterate_perm : ∀ {α : Type} (l : List α), (iterate l).Perm l
  /-- The signing function of a PKCS#8 key, or `none` if the key does not parse. -/
  sign : Bytes → Option (Bytes → Bytes)

namespace Runtime

def values {κ ν : Type} (rt : Runtime) (map : HashMap κ ν) : List ν :=
  (rt.iterate map.entries).map Sigma.snd

def keys {κ ν : Type} (rt : Runtime) (map : HashMap κ ν) : List κ :=
  (rt.iterate map.entries).map Sigma.fst

/-- A runtime that knows ASCII letters only, iterates in the stored order and cannot sign. -/
def ascii : Runtime where
  toLowercase s := s.map Char.toLower
  toLowercase_ascii _ _ := rfl
  iterate l := l
  iterate_perm l := List.Perm.refl l
  sign _ := none

end Runtime
end MiniDns
