import MiniDns.Runtime

/-! The response cache: raw upstream messages under the lower-case name and the type, each with the
time at which it expires. -/
namespace MiniDns
open Lib
set_option autoImplicit false

structure Cache.Entry where
  response : Bytes
  expiresAt : Instant
  deriving DecidableEq, Repr

structure Cache where
  map : HashMap (Text × UInt16) Cache.Entry
  capacity : ℕ

namespace Cache

def new (capacity : ℕ) : Cache := ⟨∅, capacity⟩

def get (rt : Runtime) (c : Cache) (now : Instant) (name : Text) (qtype : UInt16) : Option Bytes × Cache :=
  let key := (rt.toLowercase name, qtype)
  match c.map.lookup key with
  | some entry =>
    if now < entry.expiresAt then (some entry.response, c) else (none, { c with map := c.map.erase key })
  | none => (none, c)

/-- Makes room for a new key: expired entries go first, then one that the iterator yields. -/
def evictIfFull (rt : Runtime) (c : Cache) (now : Instant) : Cache :=
  if c.map.entries.length < c.capacity then c
  else
    let live : HashMap (Text × UInt16) Entry :=
      ⟨c.map.entries.filter fun entry => now < entry.2.expiresAt,
        c.map.nodupKeys.sublist List.filter_sublist⟩
    if c.capacity ≤ live.entries.length then
      match (rt.keys live).head? with
      | some victim => { c with map := live.erase victim }
      | none => { c with map := live }
    else { c with map := live }

def insert (rt : Runtime) (c : Cache) (now : Instant) (name : Text) (qtype : UInt16) (response : Bytes)
    (ttlSecs : UInt32) : Cache :=
  if response.isEmpty || ttlSecs = 0 then c
  else
    let key := (rt.toLowercase name, qtype)
    let c := if (c.map.lookup key).isSome then c else c.evictIfFull rt now
    { c with map := c.map.insert key ⟨response, now + fromSecs ttlSecs.toNat⟩ }

/-! ## What is found in a cache -/

variable {rt : Runtime} {c : Cache} {now : Instant} {key : Text × UInt16} {entry : Entry}

theorem lookup_get {name : Text} {qtype : UInt16} (h : (c.get rt now name qtype).2.map.lookup key = some entry) :
    c.map.lookup key = some entry := by
  unfold get at h
  dsimp only at h
  split at h
  · split at h
    · exact h
    · exact lookup_of_erase h
  · exact h

theorem lookup_evictIfFull (h : (c.evictIfFull rt now).map.lookup key = some entry) :
    c.map.lookup key = some entry := by
  unfold evictIfFull at h
  split at h
  · exact h
  · dsimp only at h
    split at h
    · split at h
      · exact (lookup_filter.mp (lookup_of_erase h)).1
      · exact (lookup_filter.mp h).1
    · exact (lookup_filter.mp h).1

theorem insert_of_nothing {name : Text} {qtype : UInt16} {response : Bytes} {ttlSecs : UInt32}
    (h : response = [] ∨ ttlSecs = 0) : c.insert rt now name qtype response ttlSecs = c :=
  if_pos (by simpa using h)

theorem lookup_insert {name : Text} {qtype : UInt16} {response : Bytes} {ttlSecs : UInt32}
    (h : (c.insert rt now name qtype response ttlSecs).map.lookup key = some entry) :
    key = (rt.toLowercase name, qtype) ∧ entry.response = response ∨ c.map.lookup key = some entry := by
  unfold insert at h
  split at h
  · exact .inr h
  · dsimp only at h
    by_cases hkey : key = (rt.toLowercase name, qtype)
    · subst hkey
      rw [AList.lookup_insert] at h
      obtain rfl := Option.some.inj h
      exact .inl ⟨rfl, rfl⟩
    · rw [AList.lookup_insert_ne hkey] at h
      split at h
      · exact .inr h
      · exact .inr (lookup_evictIfFull h)

end Cache
end MiniDns
