import MiniDns.CacheRuns
import MiniDns.Lib.History
import MiniDns.Lib.Threads
import Mathlib.Algebra.Order.BigOperators.Group.Finset
import Mathlib.Data.Finset.Option
import Mathlib.Data.Fintype.Card
import Mathlib.Logic.Relation

/-! Concurrent calls of `Cache::get` and `Cache::insert`. The map takes one operation at a time, but a call
makes several: `get` removes an expired entry after it has looked at it, and `insert` measures, sweeps,
measures again, chooses a victim and removes it before it stores. Operations of other threads may fall
between any two of these. To read the length and to sweep are single operations here. -/
namespace MiniDns
open Lib Function
set_option autoImplicit false

/-! ## The operations of a call -/

structure NewEntry where
  key : Text × UInt16
  response : Bytes
  ttlSecs : UInt32
  deriving DecidableEq, Repr

/-- What a thread does next: no call, a `get` that looks, that has seen an expired entry, or that has
returned, or an `insert` on its way through `evict_if_full`. -/
inductive CacheOp where
  | idle
  | looking (key : Text × UInt16)
  | removing (key : Text × UInt16) (lookedAt : Instant)
  | found (key : Text × UInt16) (lookedAt : Instant) (result : Option Bytes)
  | checking (new : NewEntry)
  | measuring (new : NewEntry)
  | sweeping (new : NewEntry)
  | remeasuring (new : NewEntry)
  | choosing (new : NewEntry)
  | evicting (new : NewEntry) (victim : Text × UInt16)
  | storing (new : NewEntry)
  | stored
  deriving DecidableEq, Repr

/-- The cache, the calls that were made, and what was stored, the latest first. -/
structure CacheMemory where
  cache : Cache
  calls : List CacheCall
  log : List ((Text × UInt16) × Stored)

inductive CacheMove where
  | call (c : CacheCall)
  | go (now : Instant) (order : Order)

namespace CacheOp

def ended : CacheOp → Bool
  | .idle | .found _ _ _ | .stored => true
  | _ => false

def entry : CacheOp → Option NewEntry
  | .checking new | .measuring new | .sweeping new | .remeasuring new | .choosing new | .evicting new _
  | .storing new => some new
  | _ => none

/-- The key that the next operation is going to store. -/
def writes : CacheOp → Option (Text × UInt16)
  | .storing new => some new.key
  | _ => none

def hit : CacheOp → Option ((Text × UInt16) × Instant × Bytes)
  | .found key lookedAt (some response) => some (key, lookedAt, response)
  | _ => none

/-- The beginning of a call, up to its first operation on the map. -/
def begin (rt : Runtime) : CacheCall → CacheOp
  | .get name qtype => .looking (rt.toLowercase name, qtype)
  | .insert name qtype response ttlSecs =>
    if response.isEmpty || ttlSecs = 0 then .stored
    else .checking ⟨(rt.toLowercase name, qtype), response, ttlSecs⟩

end CacheOp

namespace CacheMemory

def withMap (m : CacheMemory) (map : HashMap (Text × UInt16) Cache.Entry) : CacheMemory :=
  { m with cache := { m.cache with map := map } }

def store (m : CacheMemory) (now : Instant) (new : NewEntry) : CacheMemory :=
  { m.withMap (m.cache.map.insert new.key (Stored.entry ⟨now, new.response, new.ttlSecs⟩)) with
    log := (new.key, ⟨now, new.response, new.ttlSecs⟩) :: m.log }

def called (m : CacheMemory) (c : CacheCall) : CacheMemory := { m with calls := c :: m.calls }

/-- One operation on the map. -/
def go (rt : Runtime) (now : Instant) (order : Order) (m : CacheMemory) : CacheOp → Option (CacheMemory × CacheOp)
  | .looking key =>
    match m.cache.map.lookup key with
    | some entry =>
      if now < entry.expiresAt then some (m, .found key now (some entry.response)) else some (m, .removing key now)
    | none => some (m, .found key now none)
  | .removing key lookedAt => some (m.withMap (m.cache.map.erase key), .found key lookedAt none)
  | .checking new => some (m, if (m.cache.map.lookup new.key).isSome then .storing new else .measuring new)
  | .measuring new => some (m, if m.cache.len < m.cache.capacity then .storing new else .sweeping new)
  | .sweeping new => some (m.withMap (m.cache.retained now), .remeasuring new)
  | .remeasuring new => some (m, if m.cache.capacity ≤ m.cache.len then .choosing new else .storing new)
  | .choosing new =>
    match ((rt.ordered order).keys m.cache.map).head? with
    | some victim => some (m, .evicting new victim)
    | none => some (m, .storing new)
  | .evicting new victim => some (m.withMap (m.cache.map.erase victim), .storing new)
  | .storing new => some (m.store now new, .stored)
  | .idle | .found _ _ _ | .stored => none

def move (rt : Runtime) (m : CacheMemory) (op : CacheOp) : CacheMove → Option (CacheMemory × CacheOp)
  | .call c => if op.ended then some (m.called c, .begin rt c) else none
  | .go now order => m.go rt now order op

end CacheMemory

/-! ## A call that is not disturbed -/

section Alone
variable {rt : Runtime} {now : Instant} {order : Order}

/-- The operations of one call, with none of another thread between them. -/
def Alone (rt : Runtime) (now : Instant) (order : Order) : CacheMemory × CacheOp → CacheMemory × CacheOp → Prop :=
  Relation.ReflTransGen fun s s' => s.1.go rt now order s.2 = some s'

theorem get_alone (rt : Runtime) (now : Instant) (order : Order) (m : CacheMemory) (name : Text) (qtype : UInt16) :
    ∃ m', m'.cache = (m.cache.get (rt.ordered order) now name qtype).2 ∧
      Alone rt now order (m, .begin rt (.get name qtype))
        (m', .found (rt.toLowercase name, qtype) now (m.cache.get (rt.ordered order) now name qtype).1) := by
  have hget : m.cache.get (rt.ordered order) now name qtype =
      match m.cache.map.lookup (rt.toLowercase name, qtype) with
      | some entry =>
        if now < entry.expiresAt then (some entry.response, m.cache)
        else (none, { m.cache with map := m.cache.map.erase (rt.toLowercase name, qtype) })
      | none => (none, m.cache) := rfl
  rw [hget]
  cases hentry : m.cache.map.lookup (rt.toLowercase name, qtype) with
  | none =>
    refine ⟨m, rfl, .single ?_⟩
    simp only [CacheOp.begin, CacheMemory.go, hentry]
  | some entry =>
    by_cases hlive : now < entry.expiresAt
    · simp only [if_pos hlive]
      refine ⟨m, rfl, .single ?_⟩
      simp only [CacheOp.begin, CacheMemory.go, hentry, if_pos hlive]
    · simp only [if_neg hlive]
      refine ⟨_, rfl, .head (b := (m, .removing (rt.toLowercase name, qtype) now)) ?_ (.single rfl)⟩
      simp only [CacheOp.begin, CacheMemory.go, hentry, if_neg hlive]

/-- From the first measurement on, a call makes the room that `evict_if_full` makes. -/
theorem evict_alone (rt : Runtime) (now : Instant) (order : Order) (m : CacheMemory) (new : NewEntry) :
    Alone rt now order (m, .measuring new)
      (m.withMap (m.cache.evictIfFull (rt.ordered order) now).map, .storing new) := by
  rw [Cache.evictIfFull_eq]
  by_cases hroom : m.cache.len < m.cache.capacity
  · rw [if_pos hroom]
    refine .single ?_
    simp only [CacheMemory.go, if_pos hroom]
    rfl
  rw [if_neg hroom]
  refine .head (b := (m, .sweeping new)) (by simp only [CacheMemory.go, if_neg hroom]) (.head rfl ?_)
  by_cases hfull : m.cache.capacity ≤ (m.cache.unexpired now).length
  · rw [if_pos hfull]
    refine .head (b := (m.withMap (m.cache.retained now), .choosing new)) ?_ ?_
    · exact congrArg (fun op => some (m.withMap (m.cache.retained now), op)) (if_pos hfull)
    · cases hvictim : ((rt.ordered order).keys (m.cache.retained now)).head? with
      | none =>
        refine .single ?_
        simp only [CacheMemory.go, CacheMemory.withMap, hvictim]
      | some victim =>
        refine .head (b := (m.withMap (m.cache.retained now), .evicting new victim)) ?_ (.single rfl)
        simp only [CacheMemory.go, CacheMemory.withMap, hvictim]
  · rw [if_neg hfull]
    exact .single (congrArg (fun op => some (m.withMap (m.cache.retained now), op)) (if_neg hfull))

theorem Cache.capacity_evictIfFull (rt : Runtime) (c : Cache) (now : Instant) :
    (c.evictIfFull rt now).capacity = c.capacity := by
  rw [evictIfFull_eq]
  repeat' split
  all_goals rfl

theorem insert_alone (rt : Runtime) (now : Instant) (order : Order) (m : CacheMemory) (name : Text) (qtype : UInt16)
    (response : Bytes) (ttlSecs : UInt32) :
    ∃ m', m'.cache = m.cache.insert (rt.ordered order) now name qtype response ttlSecs ∧
      Alone rt now order (m, .begin rt (.insert name qtype response ttlSecs)) (m', .stored) := by
  by_cases hnothing : response = [] ∨ ttlSecs = 0
  · have hbegin : CacheOp.begin rt (.insert name qtype response ttlSecs) = .stored := if_pos (by simpa using hnothing)
    rw [Cache.insert_of_nothing hnothing, hbegin]
    exact ⟨m, rfl, .refl⟩
  · have hbegin : CacheOp.begin rt (.insert name qtype response ttlSecs) =
        .checking ⟨(rt.toLowercase name, qtype), response, ttlSecs⟩ := if_neg (by simpa using hnothing)
    have hinsert : m.cache.insert (rt.ordered order) now name qtype response ttlSecs =
        { m.cache.prepared (rt.ordered order) now (rt.toLowercase name, qtype) with
          map := (m.cache.prepared (rt.ordered order) now (rt.toLowercase name, qtype)).map.insert
            (rt.toLowercase name, qtype) (Stored.entry ⟨now, response, ttlSecs⟩) } := Cache.insert_of_some hnothing
    rw [hinsert, hbegin, Cache.prepared]
    by_cases hpresent : (rt.toLowercase name, qtype) ∈ m.cache.map
    · rw [if_pos hpresent]
      refine ⟨_, rfl, .head (b := (m, .storing ⟨(rt.toLowercase name, qtype), response, ttlSecs⟩)) ?_ (.single rfl)⟩
      simp only [CacheMemory.go, AList.lookup_isSome.mpr hpresent, if_true]
    · rw [if_neg hpresent]
      refine ⟨_, ?_, .head (b := (m, .measuring ⟨(rt.toLowercase name, qtype), response, ttlSecs⟩)) ?_
        ((evict_alone rt now order m _).trans (.single rfl))⟩
      · simp only [CacheMemory.store, CacheMemory.withMap, Cache.capacity_evictIfFull]
      · simp only [CacheMemory.go, AList.lookup_isSome, hpresent, if_false]

end Alone

/-! ## What an operation can do -/

/-- The effect of a move on the memory, and what the thread knows behind it. -/
inductive Advances (rt : Runtime) (m : CacheMemory) : CacheOp → CacheMemory → CacheOp → Prop
  | call {op : CacheOp} {c : CacheCall} : op.writes = none →
      Advances rt m op (m.called c) (.begin rt c)
  | quiet {op op' : CacheOp} : op.writes = none → op'.writes = none → op'.hit = none →
      (∀ new, op'.entry = some new → op.entry = some new) → Advances rt m op m op'
  | hit {key : Text × UInt16} {entry : Cache.Entry} {now : Instant} : m.cache.map.lookup key = some entry →
      now < entry.expiresAt → Advances rt m (.looking key) m (.found key now (some entry.response))
  | drop {key : Text × UInt16} {lookedAt : Instant} :
      Advances rt m (.removing key lookedAt) (m.withMap (m.cache.map.erase key)) (.found key lookedAt none)
  | present {new : NewEntry} : new.key ∈ m.cache.map → Advances rt m (.checking new) m (.storing new)
  | room {op : CacheOp} {new : NewEntry} : op.writes = none → op.entry = some new →
      m.cache.len < max m.cache.capacity 1 → Advances rt m op m (.storing new)
  | sweep {new : NewEntry} {now : Instant} :
      Advances rt m (.sweeping new) (m.withMap (m.cache.retained now)) (.remeasuring new)
  | evict {new : NewEntry} {victim : Text × UInt16} :
      Advances rt m (.evicting new victim) (m.withMap (m.cache.map.erase victim)) (.storing new)
  | store {new : NewEntry} {now : Instant} : Advances rt m (.storing new) (m.store now new) .stored

section Advances
variable {rt : Runtime} {m m' : CacheMemory} {op op' : CacheOp}

theorem writes_of_ended (h : op.ended = true) : op.writes = none := by
  cases op <;> first | rfl | cases h

theorem advances_of_go {now : Instant} {order : Order} (h : m.go rt now order op = some (m', op')) :
    Advances rt m op m' op' := by
  cases op with
  | looking key =>
    simp only [CacheMemory.go] at h
    split at h
    · rename_i entry hentry
      split at h
      · rename_i hlive
        obtain ⟨rfl, rfl⟩ := Prod.mk.inj (Option.some.inj h)
        exact .hit hentry hlive
      · obtain ⟨rfl, rfl⟩ := Prod.mk.inj (Option.some.inj h)
        exact .quiet rfl rfl rfl (by simp [CacheOp.entry])
    · obtain ⟨rfl, rfl⟩ := Prod.mk.inj (Option.some.inj h)
      exact .quiet rfl rfl rfl (by simp [CacheOp.entry])
  | removing key lookedAt =>
    obtain ⟨rfl, rfl⟩ := Prod.mk.inj (Option.some.inj h)
    exact .drop
  | checking new =>
    obtain ⟨rfl, rfl⟩ := Prod.mk.inj (Option.some.inj h)
    split
    · rename_i hpresent
      exact .present (AList.lookup_isSome.mp hpresent)
    · exact .quiet rfl rfl rfl fun _ hnew => hnew
  | measuring new =>
    obtain ⟨rfl, rfl⟩ := Prod.mk.inj (Option.some.inj h)
    split
    · rename_i hroom
      exact .room rfl rfl (hroom.trans_le (le_max_left _ _))
    · exact .quiet rfl rfl rfl fun _ hnew => hnew
  | sweeping new =>
    obtain ⟨rfl, rfl⟩ := Prod.mk.inj (Option.some.inj h)
    exact .sweep
  | remeasuring new =>
    obtain ⟨rfl, rfl⟩ := Prod.mk.inj (Option.some.inj h)
    split
    · exact .quiet rfl rfl rfl fun _ hnew => hnew
    · rename_i hroom
      exact .room rfl rfl ((Nat.not_le.mp hroom).trans_le (le_max_left _ _))
  | choosing new =>
    simp only [CacheMemory.go] at h
    split at h
    · obtain ⟨rfl, rfl⟩ := Prod.mk.inj (Option.some.inj h)
      exact .quiet rfl rfl rfl fun _ hnew => hnew
    · rename_i hempty
      obtain ⟨rfl, rfl⟩ := Prod.mk.inj (Option.some.inj h)
      -- the iterator yields nothing only if the map is empty
      have hlen := ((rt.ordered order).iterate_perm m.cache.map.entries).length_eq
      rw [List.head?_eq_none_iff, Runtime.keys, List.map_eq_nil_iff] at hempty
      rw [hempty] at hlen
      refine .room rfl rfl ?_
      rw [Cache.len, ← hlen]
      exact Nat.lt_of_lt_of_le Nat.zero_lt_one (le_max_right _ _)
  | evicting new victim =>
    obtain ⟨rfl, rfl⟩ := Prod.mk.inj (Option.some.inj h)
    exact .evict
  | storing new =>
    obtain ⟨rfl, rfl⟩ := Prod.mk.inj (Option.some.inj h)
    exact .store
  | _ => cases h

theorem writes_begin (rt : Runtime) (c : CacheCall) : (CacheOp.begin rt c).writes = none := by
  cases c with
  | get name qtype => rfl
  | insert name qtype response ttlSecs =>
    simp only [CacheOp.begin]
    split <;> rfl

/-- A move adds no key, finds room for one, evicts one or stores one. -/
theorem Advances.sizes (h : Advances rt m op m' op') : m'.cache.capacity = m.cache.capacity ∧
    ((∀ key, key ∈ m'.cache.map → key ∈ m.cache.map) ∧ (∀ key, op'.writes = some key → key ∈ m.cache.map) ∨
      m'.cache = m.cache ∧ m.cache.len < max m.cache.capacity 1 ∨
      (∃ new victim, op = .evicting new victim ∧ m' = m.withMap (m.cache.map.erase victim) ∧ op' = .storing new) ∨
      ∃ new now, op = .storing new ∧ m' = m.store now new ∧ op' = .stored) := by
  cases h with
  | @call _ c _ => exact ⟨rfl, .inl ⟨fun _ hkey => hkey, by simp [writes_begin]⟩⟩
  | quiet _ hwrites _ _ => exact ⟨rfl, .inl ⟨fun _ hkey => hkey, by simp [hwrites]⟩⟩
  | hit _ _ => exact ⟨rfl, .inl ⟨fun _ hkey => hkey, by simp [CacheOp.writes]⟩⟩
  | drop => exact ⟨rfl, .inl ⟨fun _ hkey => (AList.mem_erase.mp hkey).2, by simp [CacheOp.writes]⟩⟩
  | present hpresent => exact ⟨rfl, .inl ⟨fun _ hkey => hkey, by simpa [CacheOp.writes] using hpresent⟩⟩
  | room _ _ hroom => exact ⟨rfl, .inr (.inl ⟨rfl, hroom⟩)⟩
  | sweep =>
    refine ⟨rfl, .inl ⟨fun key hkey => ?_, by simp [CacheOp.writes]⟩⟩
    obtain ⟨entry, hentry⟩ := Option.isSome_iff_exists.mp (AList.lookup_isSome.mpr hkey)
    exact mem_of_lookup (Cache.lookup_retained.mp hentry).1
  | evict => exact ⟨rfl, .inr (.inr (.inl ⟨_, _, rfl, rfl, rfl⟩))⟩
  | store => exact ⟨rfl, .inr (.inr (.inr ⟨_, _, rfl, rfl, rfl⟩))⟩

theorem advances_of_move {a : CacheMove} (h : m.move rt op a = some (m', op')) : Advances rt m op m' op' := by
  cases a with
  | call c =>
    simp only [CacheMemory.move] at h
    split at h
    · rename_i hended
      obtain ⟨rfl, rfl⟩ := Prod.mk.inj (Option.some.inj h)
      exact .call (writes_of_ended hended)
    · cases h
  | go now order => exact advances_of_go h

end Advances

/-! ## What a hit returns -/

/-- An entry of the map is what was stored last under its key. -/
def LastStored (m : CacheMemory) : Prop :=
  ∀ key entry, m.cache.map.lookup key = some entry → ∃ s, m.log.lookup key = some s ∧ entry = s.entry

def AskedFor (rt : Runtime) (calls : List CacheCall) (key : Text × UInt16) (response : Bytes) (ttlSecs : UInt32) :
    Prop :=
  ∃ name qtype, key = (rt.toLowercase name, qtype) ∧ CacheCall.insert name qtype response ttlSecs ∈ calls

structure CacheMemory.Sound (rt : Runtime) (m : CacheMemory) : Prop where
  lastStored : LastStored m
  asked : ∀ key s, (key, s) ∈ m.log → AskedFor rt m.calls key s.response s.ttlSecs

/-- What was stored last under the key, when the log had come so far, is the response, and it had not
expired. -/
def Current (log : List ((Text × UInt16) × Stored)) (key : Text × UInt16) (lookedAt : Instant) (response : Bytes) :
    Prop :=
  ∃ past s, past <:+ log ∧ past.lookup key = some s ∧ s.response = response ∧ lookedAt < s.entry.expiresAt

structure CacheOp.Sound (rt : Runtime) (m : CacheMemory) (op : CacheOp) : Prop where
  hit : ∀ key lookedAt response, op.hit = some (key, lookedAt, response) → Current m.log key lookedAt response
  asked : ∀ new, op.entry = some new → AskedFor rt m.calls new.key new.response new.ttlSecs

section Sound
variable {rt : Runtime} {m m' : CacheMemory} {op op' : CacheOp}

theorem AskedFor.mono {calls calls' : List CacheCall} {key : Text × UInt16} {response : Bytes} {ttlSecs : UInt32}
    (h : AskedFor rt calls key response ttlSecs) (hmore : calls ⊆ calls') : AskedFor rt calls' key response ttlSecs := by
  obtain ⟨name, qtype, hkey, hmem⟩ := h
  exact ⟨name, qtype, hkey, hmore hmem⟩

theorem Current.mono {log log' : List ((Text × UInt16) × Stored)} {key : Text × UInt16} {lookedAt : Instant}
    {response : Bytes} (h : Current log key lookedAt response) (hmore : log <:+ log') :
    Current log' key lookedAt response := by
  obtain ⟨past, s, hpast, hlast⟩ := h
  exact ⟨past, s, hpast.trans hmore, hlast⟩

/-- The memory forgets neither calls nor what was stored. -/
theorem Advances.extends (h : Advances rt m op m' op') : m.calls ⊆ m'.calls ∧ m.log <:+ m'.log := by
  cases h with
  | call _ => exact ⟨List.subset_cons_self _ _, List.suffix_rfl⟩
  | store => exact ⟨List.Subset.refl _, List.suffix_cons _ _⟩
  | _ => exact ⟨List.Subset.refl _, List.suffix_rfl⟩

theorem CacheOp.Sound.mono (h : op.Sound rt m) (hcalls : m.calls ⊆ m'.calls) (hlog : m.log <:+ m'.log) :
    op.Sound rt m' where
  hit key lookedAt response hhit := (h.hit key lookedAt response hhit).mono hlog
  asked new hnew := (h.asked new hnew).mono hcalls

theorem LastStored.store {now : Instant} {new : NewEntry} (h : LastStored m) : LastStored (m.store now new) := by
  intro key entry hentry
  by_cases hkey : key = new.key
  · subst hkey
    rw [show (m.store now new).cache.map = m.cache.map.insert new.key _ from rfl, AList.lookup_insert] at hentry
    exact ⟨_, by simp [CacheMemory.store], (Option.some.inj hentry).symm⟩
  · rw [show (m.store now new).cache.map = m.cache.map.insert new.key _ from rfl, AList.lookup_insert_ne hkey] at hentry
    obtain ⟨s, hs, rfl⟩ := h key entry hentry
    exact ⟨s, by simp [CacheMemory.store, List.lookup_cons, beq_false_of_ne hkey, hs], rfl⟩

theorem LastStored.fewer (h : LastStored m) {map : HashMap (Text × UInt16) Cache.Entry}
    (hfewer : ∀ key entry, map.lookup key = some entry → m.cache.map.lookup key = some entry) :
    LastStored (m.withMap map) := fun key entry hentry => h key entry (hfewer key entry hentry)

theorem CacheMemory.Sound.advance (h : m.Sound rt) (hop : op.Sound rt m) (hadv : Advances rt m op m' op') :
    m'.Sound rt := by
  cases hadv with
  | call _ => exact ⟨h.lastStored, fun key s hs => (h.asked key s hs).mono (List.subset_cons_self _ _)⟩
  | drop => exact ⟨h.lastStored.fewer fun _ _ => lookup_of_erase, h.asked⟩
  | evict => exact ⟨h.lastStored.fewer fun _ _ => lookup_of_erase, h.asked⟩
  | sweep => exact ⟨h.lastStored.fewer fun _ _ hentry => (Cache.lookup_retained.mp hentry).1, h.asked⟩
  | @store new now =>
    refine ⟨h.lastStored.store, fun key s hs => ?_⟩
    obtain heq | hs := List.mem_cons.mp hs
    · obtain ⟨rfl, rfl⟩ := Prod.mk.inj heq
      exact hop.asked new rfl
    · exact h.asked key s hs
  | _ => exact h

theorem askedFor_begin (rt : Runtime) (m : CacheMemory) (c : CacheCall) (new : NewEntry)
    (h : (CacheOp.begin rt c).entry = some new) : AskedFor rt (c :: m.calls) new.key new.response new.ttlSecs := by
  cases c with
  | get name qtype => cases h
  | insert name qtype response ttlSecs =>
    simp only [CacheOp.begin] at h
    split at h
    · cases h
    · obtain rfl := Option.some.inj h
      exact ⟨name, qtype, rfl, List.mem_cons_self⟩

theorem hit_begin (rt : Runtime) (c : CacheCall) : (CacheOp.begin rt c).hit = none := by
  cases c with
  | get name qtype => rfl
  | insert name qtype response ttlSecs =>
    simp only [CacheOp.begin]
    split <;> rfl

theorem CacheOp.Sound.advance (h : m.Sound rt) (hop : op.Sound rt m) (hadv : Advances rt m op m' op') :
    op'.Sound rt m' := by
  cases hadv with
  | @call op c _ =>
    refine ⟨fun key lookedAt response hhit => ?_, askedFor_begin rt m c⟩
    rw [hit_begin] at hhit
    cases hhit
  | quiet _ _ hhit hentry =>
    refine ⟨fun key lookedAt response h' => ?_, fun new hnew => hop.asked new (hentry new hnew)⟩
    rw [hhit] at h'
    cases h'
  | @hit key entry now hentry hlive =>
    refine ⟨fun key' lookedAt response hhit => ?_, by simp [CacheOp.entry]⟩
    obtain ⟨rfl, rfl, rfl⟩ : key = key' ∧ now = lookedAt ∧ entry.response = response := by
      simpa [CacheOp.hit] using hhit
    obtain ⟨s, hs, rfl⟩ := h.lastStored key entry hentry
    exact ⟨m.log, s, List.suffix_rfl, hs, rfl, hlive⟩
  | drop => exact ⟨by simp [CacheOp.hit], by simp [CacheOp.entry]⟩
  | present _ => exact ⟨by simp [CacheOp.hit], hop.asked⟩
  | room _ hentry _ =>
    refine ⟨by simp [CacheOp.hit], fun new hnew => ?_⟩
    obtain rfl := Option.some.inj hnew
    exact hop.asked _ hentry
  | sweep => exact ⟨by simp [CacheOp.hit], hop.asked⟩
  | evict => exact ⟨by simp [CacheOp.hit], hop.asked⟩
  | store => exact ⟨by simp [CacheOp.hit], by simp [CacheOp.entry]⟩

end Sound

/-- Threads that share a new cache. -/
def startCaching (τ : Type) (capacity : ℕ) : Threads τ CacheMemory CacheOp :=
  ⟨⟨Cache.new capacity, [], []⟩, fun _ => .idle⟩

section Runs
variable {τ : Type} [DecidableEq τ] {rt : Runtime} {capacity : ℕ} {acts : List (τ × CacheMove)}
  {w : Threads τ CacheMemory CacheOp}

theorem sound_of_caching (h : run (Threads.step (CacheMemory.move rt)) (startCaching τ capacity) acts = some w) :
    w.memory.Sound rt ∧ ∀ t, (w.own t).Sound rt w.memory := by
  apply Threads.run_keeps ?_ ?_ ?_ h
  · intro m op a m' op' hm hop hmove
    have hadv := advances_of_move hmove
    obtain ⟨hcalls, hlog⟩ := hadv.extends
    exact ⟨hm.advance hop hadv, .advance hm hop hadv, fun other hother => hother.mono hcalls hlog⟩
  · exact ⟨fun key entry hentry => (by cases hentry), fun key s hs => (by cases hs)⟩
  · exact fun t => ⟨fun key lookedAt response hhit => (by cases hhit), fun new hnew => (by cases hnew)⟩

/-- Only a look at the map finds something in it. -/
theorem looks_of_move {m m' : CacheMemory} {op : CacheOp} {a : CacheMove} {key : Text × UInt16} {lookedAt : Instant}
    {response : Bytes} (h : m.move rt op a = some (m', .found key lookedAt (some response))) :
    (∃ order, a = .go lookedAt order) ∧ op = .looking key ∧
      ∃ entry, m.cache.map.lookup key = some entry ∧ lookedAt < entry.expiresAt ∧ entry.response = response := by
  cases a with
  | call c =>
    simp only [CacheMemory.move] at h
    split at h
    · have hhit := hit_begin rt c
      rw [(Prod.mk.inj (Option.some.inj h)).2] at hhit
      cases hhit
    · cases h
  | go now order =>
    cases op with
    | looking key' =>
      simp only [CacheMemory.move, CacheMemory.go] at h
      repeat' split at h
      · rename_i entry hentry hlive
        obtain ⟨_, hfound⟩ := Prod.mk.inj (Option.some.inj h)
        obtain ⟨rfl, rfl, hresponse⟩ := CacheOp.found.inj hfound
        exact ⟨⟨order, rfl⟩, rfl, entry, hentry, hlive, Option.some.inj hresponse⟩
      · cases h
      · cases h
    | _ =>
      simp only [CacheMemory.move, CacheMemory.go] at h
      repeat' split at h
      all_goals cases h

/-- With the `n`-th action, its last one, the thread has looked the key up in the state `v`. -/
structure LooksUp (rt : Runtime) (capacity : ℕ) (acts : List (τ × CacheMove)) (t : τ) (key : Text × UInt16)
    (lookedAt : Instant) (n : ℕ) (v : Threads τ CacheMemory CacheOp) : Prop where
  seen : Seen (Threads.step (CacheMemory.move rt)) (startCaching τ capacity) acts n v
  action : ∃ order, acts[n]? = some (t, .go lookedAt order)
  last : ∀ a, (t, a) ∉ acts.drop (n + 1)
  looking : v.own t = .looking key

theorem LooksUp.later {t t' : τ} {key : Text × UInt16} {lookedAt : Instant} {n : ℕ}
    (h : LooksUp rt capacity acts t key lookedAt n w) (ht : t ≠ t') (a : CacheMove) :
    LooksUp rt capacity (acts ++ [(t', a)]) t key lookedAt n w := by
  obtain ⟨order, hget⟩ := h.action
  have hn := (List.getElem?_eq_some_iff.mp hget).1
  refine ⟨h.seen.later _, ⟨order, ?_⟩, fun b hmem => ?_, h.looking⟩
  · rw [List.getElem?_append_left hn, hget]
  · rw [List.drop_append_of_le_length hn, List.mem_append, List.mem_singleton] at hmem
    obtain hmem | hmem := hmem
    · exact h.last b hmem
    · exact ht (Prod.mk.inj hmem).1

/-- What a thread has found was in the map when it looked, and had not expired. -/
theorem looks_of_caching (h : run (Threads.step (CacheMemory.move rt)) (startCaching τ capacity) acts = some w) :
    ∀ t key lookedAt response, w.own t = .found key lookedAt (some response) → ∃ n v entry,
      LooksUp rt capacity acts t key lookedAt n v ∧ v.memory.cache.map.lookup key = some entry ∧
      lookedAt < entry.expiresAt ∧ entry.response = response := by
  have hkeep : ∀ acts w a w', run (Threads.step (CacheMemory.move rt)) (startCaching τ capacity) acts = some w →
      (∀ t key lookedAt response, w.own t = .found key lookedAt (some response) → ∃ n v entry,
        LooksUp rt capacity acts t key lookedAt n v ∧ v.memory.cache.map.lookup key = some entry ∧
        lookedAt < entry.expiresAt ∧ entry.response = response) →
      Threads.step (CacheMemory.move rt) w a = some w' →
      ∀ t key lookedAt response, w'.own t = .found key lookedAt (some response) → ∃ n v entry,
        LooksUp rt capacity (acts ++ [a]) t key lookedAt n v ∧ v.memory.cache.map.lookup key = some entry ∧
        lookedAt < entry.expiresAt ∧ entry.response = response := by
    rintro acts w ⟨t', a⟩ w' hrun hfound hstep t key lookedAt response hown
    obtain ⟨m, op, hmove, rfl⟩ := Threads.step_eq_some.mp hstep
    dsimp only at hown
    by_cases ht : t = t'
    · subst ht
      rw [update_self] at hown
      subst hown
      obtain ⟨⟨order, rfl⟩, hlooking, entry, hentry⟩ := looks_of_move hmove
      refine ⟨acts.length, w, entry, ⟨seen_now hrun _, ⟨order, by simp⟩, fun b => ?_, hlooking⟩, hentry⟩
      simp
    · rw [update_of_ne ht] at hown
      obtain ⟨n, v, entry, hlooks, hentry⟩ := hfound t key lookedAt response hown
      exact ⟨n, v, entry, hlooks.later ht a, hentry⟩
  exact run_history hkeep (fun t key lookedAt response hown => by cases hown) h

/-- **A hit returns what was stored last under its key when it was looked up, and it had not expired then**, in
every interleaving of any number of threads. -/
theorem concurrent_hits_current (rt : Runtime) (capacity : ℕ) (acts : List (τ × CacheMove))
    (w : Threads τ CacheMemory CacheOp)
    (h : run (Threads.step (CacheMemory.move rt)) (startCaching τ capacity) acts = some w) (t : τ)
    (key : Text × UInt16) (lookedAt : Instant) (response : Bytes) (hhit : w.own t = .found key lookedAt (some response)) :
    ∃ n v s, LooksUp rt capacity acts t key lookedAt n v ∧ v.memory.log.lookup key = some s ∧ s.response = response ∧
      lookedAt < s.storedAt + fromSecs s.ttlSecs.toNat ∧ AskedFor rt v.memory.calls key response s.ttlSecs := by
  obtain ⟨n, v, entry, hlooks, hentry, hlive, rfl⟩ := looks_of_caching h t key lookedAt response hhit
  obtain ⟨hmemory, _⟩ := sound_of_caching hlooks.seen.reached
  obtain ⟨s, hlast, rfl⟩ := hmemory.lastStored key entry hentry
  obtain ⟨_, _, hsplit, _⟩ := List.lookup_eq_some_iff.mp hlast
  exact ⟨n, v, s, hlooks, hlast, rfl, hlive, hmemory.asked key s (by simp [hsplit])⟩

end Runs

/-- Thread `true` stores a response, and thread `false` finds it while the other is at its next call. -/
def sharedCaching : List (Bool × CacheMove) :=
  [(true, .call (.insert ['A'] 1 [7] 60)), (true, .go 0 Order.stored), (false, .call (.get ['a'] 1)),
    (true, .go 0 Order.stored), (true, .go 5 Order.stored), (true, .call (.insert ['b'] 1 [8] 60)),
    (true, .go 6 Order.stored), (false, .go 6 Order.stored)]

theorem concurrent_hits_current_shared : ∃ w,
    run (Threads.step (CacheMemory.move .ascii)) (startCaching Bool 4) sharedCaching = some w ∧
      w.own false = .found (['a'], 1) 6 (some [7]) ∧
      ∃ n v s, LooksUp .ascii 4 sharedCaching false (['a'], 1) 6 n v ∧ v.memory.log.lookup (['a'], 1) = some s ∧
        s.response = [7] ∧ 6 < s.storedAt + fromSecs s.ttlSecs.toNat ∧
        AskedFor .ascii v.memory.calls (['a'], 1) [7] s.ttlSecs := by
  have hrun : ((run (Threads.step (CacheMemory.move .ascii)) (startCaching Bool 4) sharedCaching).map fun w =>
      w.own false) = some (.found (['a'], 1) 6 (some [7])) := by
    decide
  obtain ⟨w, hw, hown⟩ := Option.map_eq_some_iff.mp hrun
  exact ⟨w, hw, hown, concurrent_hits_current .ascii 4 sharedCaching w hw false _ _ _ hown⟩

/-! ## How many entries there are -/

section Size
variable {τ : Type} [Fintype τ]

/-- The keys in the map and the keys that threads are about to store. -/
def demand (w : Threads τ CacheMemory CacheOp) : Finset (Text × UInt16) :=
  w.memory.cache.map.keys.toFinset ∪ Finset.univ.biUnion fun t => (w.own t).writes.toFinset

/-- An eviction frees no place if its victim is gone, or is about to be stored again. -/
def wasted (w : Threads τ CacheMemory CacheOp) : τ × CacheMove → Bool
  | (t, .go _ _) =>
    match w.own t with
    | .evicting _ victim => decide (victim ∉ w.memory.cache.map ∨ ∃ t', (w.own t').writes = some victim)
    | _ => false
  | (_, .call _) => false

variable {rt : Runtime} {w : Threads τ CacheMemory CacheOp} {key : Text × UInt16}

theorem mem_demand : key ∈ demand w ↔ key ∈ w.memory.cache.map ∨ ∃ t, (w.own t).writes = some key := by
  simp [demand, AList.mem_keys]

theorem card_demand_le (w : Threads τ CacheMemory CacheOp) :
    (demand w).card ≤ w.memory.cache.len + Fintype.card τ := by
  have hmap : w.memory.cache.map.keys.toFinset.card ≤ w.memory.cache.len := by
    refine (List.toFinset_card_le _).trans ?_
    simp [AList.keys, List.keys, Cache.len]
  have hthreads : (Finset.univ.biUnion fun t => (w.own t).writes.toFinset).card ≤ Fintype.card τ := by
    refine Finset.card_biUnion_le.trans ((Finset.sum_le_card_nsmul _ _ 1 fun t _ => ?_).trans ?_)
    · rw [Option.card_toFinset]
      cases (w.own t).writes <;> simp
    · simp
  exact (Finset.card_union_le _ _).trans (Nat.add_le_add hmap hthreads)

theorem len_le_card_demand (w : Threads τ CacheMemory CacheOp) : w.memory.cache.len ≤ (demand w).card := by
  have hkeys : w.memory.cache.map.keys.toFinset.card = w.memory.cache.len := by
    rw [List.toFinset_card_of_nodup w.memory.cache.map.keys_nodup]
    simp [AList.keys, List.keys, Cache.len]
  rw [← hkeys]
  exact Finset.card_le_card Finset.subset_union_left

theorem demand_subset {w' : Threads τ CacheMemory CacheOp}
    (hmap : ∀ key, key ∈ w'.memory.cache.map → key ∈ demand w)
    (hthreads : ∀ t key, (w'.own t).writes = some key → key ∈ demand w) : (demand w').card ≤ (demand w).card := by
  refine Finset.card_le_card fun key hkey => ?_
  obtain hkey | ⟨t, hkey⟩ := mem_demand.mp hkey
  · exact hmap key hkey
  · exact hthreads t key hkey

variable [DecidableEq τ] {m : CacheMemory} {op : CacheOp} {t : τ}

/-- A thread goes on to an operation that is not a store: others are about to store what they were. -/
theorem writes_update {t' : τ} (h : ∀ key, op.writes = some key → key ∈ demand w)
    (hkey : (update w.own t op t').writes = some key) : key ∈ demand w := by
  by_cases ht : t' = t
  · subst ht
    rw [update_self] at hkey
    exact h key hkey
  · rw [update_of_ne ht] at hkey
    exact mem_demand.mpr (.inr ⟨t', hkey⟩)

theorem card_demand_fewer (hfewer : ∀ key, key ∈ m.cache.map → key ∈ w.memory.cache.map)
    (h : ∀ key, op.writes = some key → key ∈ demand w) :
    (demand ⟨m, update w.own t op⟩).card ≤ (demand w).card :=
  demand_subset (fun key hkey => mem_demand.mpr (.inl (hfewer key hkey))) fun _ _ => writes_update h

theorem card_demand_store {now : Instant} {new : NewEntry} (h : w.own t = .storing new) :
    (demand ⟨w.memory.store now new, update w.own t .stored⟩).card ≤ (demand w).card := by
  apply demand_subset
  · intro key hkey
    rw [show (w.memory.store now new).cache.map = w.memory.cache.map.insert new.key _ from rfl, AList.mem_insert] at hkey
    obtain rfl | hkey := hkey
    · exact mem_demand.mpr (.inr ⟨t, by rw [h]; rfl⟩)
    · exact mem_demand.mpr (.inl hkey)
  · exact fun _ _ => writes_update (by simp [CacheOp.writes])

theorem mem_demand_evict {new : NewEntry} {victim : Text × UInt16}
    (h : key ∈ demand ⟨w.memory.withMap (w.memory.cache.map.erase victim), update w.own t (.storing new)⟩) :
    key = new.key ∨ (key ≠ victim ∧ key ∈ w.memory.cache.map) ∨ ∃ t', (w.own t').writes = some key := by
  obtain hmap | ⟨t', hwrites⟩ := mem_demand.mp h
  · exact .inr (.inl (AList.mem_erase.mp hmap))
  · dsimp only at hwrites
    by_cases ht : t' = t
    · subst ht
      rw [update_self] at hwrites
      exact .inl (Option.some.inj hwrites).symm
    · rw [update_of_ne ht] at hwrites
      exact .inr (.inr ⟨t', hwrites⟩)

theorem card_demand_wasted {new : NewEntry} {victim : Text × UInt16} :
    (demand ⟨w.memory.withMap (w.memory.cache.map.erase victim), update w.own t (.storing new)⟩).card ≤
      (demand w).card + 1 := by
  refine le_trans (Finset.card_le_card fun key hkey => ?_) (Finset.card_insert_le new.key (demand w))
  rw [Finset.mem_insert, mem_demand]
  exact (mem_demand_evict hkey).imp_right (Or.imp_left And.right)

/-- The place of a victim that was in the map, and that nobody is about to store again, is free. -/
theorem card_demand_evict {new : NewEntry} {victim : Text × UInt16} (hvictim : victim ∈ w.memory.cache.map)
    (hnobody : ∀ t', (w.own t').writes ≠ some victim) :
    (demand ⟨w.memory.withMap (w.memory.cache.map.erase victim), update w.own t (.storing new)⟩).card ≤
      (demand w).card := by
  have hsubset : demand ⟨w.memory.withMap (w.memory.cache.map.erase victim), update w.own t (.storing new)⟩ ⊆
      insert new.key ((demand w).erase victim) := by
    intro key hkey
    rw [Finset.mem_insert, Finset.mem_erase, mem_demand]
    refine (mem_demand_evict hkey).imp_right fun hkey => ?_
    obtain ⟨hne, hmap⟩ | ⟨t', hwrites⟩ := hkey
    · exact ⟨hne, .inl hmap⟩
    · refine ⟨?_, .inr ⟨t', hwrites⟩⟩
      rintro rfl
      exact hnobody t' hwrites
  calc _ ≤ (insert new.key ((demand w).erase victim)).card := Finset.card_le_card hsubset
    _ ≤ ((demand w).erase victim).card + 1 := Finset.card_insert_le _ _
    _ = (demand w).card := Finset.card_erase_add_one (mem_demand.mpr (.inl hvictim))

/-- As many keys as there is room for, one for each thread, and one for each wasted eviction. -/
def WithinDemand (capacity n : ℕ) (w : Threads τ CacheMemory CacheOp) : Prop :=
  w.memory.cache.capacity = capacity ∧ (demand w).card + 1 ≤ max capacity 1 + Fintype.card τ + n

theorem withinDemand_step {capacity n : ℕ} {a : τ × CacheMove} {w' : Threads τ CacheMemory CacheOp}
    (h : WithinDemand capacity n w) (hstep : Threads.step (CacheMemory.move rt) w a = some w') :
    WithinDemand capacity (n + if wasted w a then 1 else 0) w' := by
  obtain ⟨t, a⟩ := a
  obtain ⟨m, op, hmove, rfl⟩ := Threads.step_eq_some.mp hstep
  obtain ⟨hcapacity, hcard⟩ := h
  obtain ⟨hsame, hcases⟩ := (advances_of_move hmove).sizes
  refine ⟨hsame.trans hcapacity, ?_⟩
  obtain ⟨hfewer, hwrites⟩ | ⟨hcache, hroom⟩ | ⟨new, victim, hown, rfl, rfl⟩ | ⟨new, now, hown, rfl, rfl⟩ := hcases
  · have hle : (demand ⟨m, update w.own t op⟩).card ≤ (demand w).card :=
      card_demand_fewer hfewer fun key hkey => mem_demand.mpr (.inl (hwrites key hkey))
    omega
  · have hle := card_demand_le ⟨m, update w.own t op⟩
    simp only [hcache] at hle
    rw [hcapacity] at hroom
    omega
  · cases a with
    | call c => simp [CacheMemory.move, hown, CacheOp.ended] at hmove
    | go now order =>
      simp only [wasted, hown, decide_eq_true_eq]
      split
      · have hle : (demand ⟨w.memory.withMap (w.memory.cache.map.erase victim), update w.own t (.storing new)⟩).card ≤
            (demand w).card + 1 := card_demand_wasted
        omega
      · rename_i hfree
        push Not at hfree
        have hle : (demand ⟨w.memory.withMap (w.memory.cache.map.erase victim), update w.own t (.storing new)⟩).card ≤
            (demand w).card := card_demand_evict hfree.1 hfree.2
        omega
  · have hle : (demand ⟨w.memory.store now new, update w.own t .stored⟩).card ≤ (demand w).card :=
      card_demand_store hown
    omega

/-- **The cache exceeds its capacity by one entry for each thread beyond the first, and by one for each
eviction that freed no place**, in every interleaving of operations that read the length, or sweep, at once. -/
theorem concurrent_len_le (rt : Runtime) (capacity : ℕ) (acts : List (τ × CacheMove))
    (w : Threads τ CacheMemory CacheOp)
    (h : run (Threads.step (CacheMemory.move rt)) (startCaching τ capacity) acts = some w) :
    w.memory.cache.len ≤ max capacity 1 - 1 + Fintype.card τ +
      occurrences (Threads.step (CacheMemory.move rt)) wasted (startCaching τ capacity) acts := by
  have hstart : WithinDemand capacity 0 (startCaching τ capacity) := by
    refine ⟨rfl, ?_⟩
    have hnone : demand (startCaching τ capacity) = ∅ := by
      ext key
      simp [mem_demand, startCaching, Cache.new, CacheOp.writes]
    rw [hnone, Finset.card_empty]
    omega
  have hbound : WithinDemand capacity
      (0 + occurrences (Threads.step (CacheMemory.move rt)) wasted (startCaching τ capacity) acts) w :=
    run_bounded (fun _ _ _ _ hs => withinDemand_step hs) hstart h
  have hcard := hbound.2
  have hlen := len_le_card_demand w
  omega

end Size

theorem concurrent_len_le_shared : ∃ w,
    run (Threads.step (CacheMemory.move .ascii)) (startCaching Bool 4) sharedCaching = some w ∧
      w.memory.cache.len ≤ max 4 1 - 1 + Fintype.card Bool +
        occurrences (Threads.step (CacheMemory.move .ascii)) wasted (startCaching Bool 4) sharedCaching := by
  have hrun : ((run (Threads.step (CacheMemory.move .ascii)) (startCaching Bool 4) sharedCaching).isSome) = true := by
    decide
  obtain ⟨w, hw⟩ := Option.isSome_iff_exists.mp hrun
  exact ⟨w, hw, concurrent_len_le .ascii 4 sharedCaching w hw⟩

/-! ## Two threads that choose the same victim -/

section Growth
variable {rt : Runtime} {m : CacheMemory} {new : NewEntry}

theorem run_of_alone {now : Instant} {order : Order} {s s' : CacheMemory × CacheOp} (h : Alone rt now order s s') :
    ∃ moves, run (fun s a => s.1.move rt s.2 a) s moves = some s' := by
  induction h using Relation.ReflTransGen.head_induction_on with
  | refl => exact ⟨[], rfl⟩
  | head hgo _ ih =>
    obtain ⟨moves, hmoves⟩ := ih
    exact ⟨.go now order :: moves, run_cons.mpr ⟨_, hgo, hmoves⟩⟩

def letters (i : ℕ) : Text := List.replicate i 'a'

def fresh (i : ℕ) : NewEntry := ⟨(letters i, 1), [0], 1⟩

def freshCall (i : ℕ) : CacheCall := .insert (letters i) 1 [0] 1

theorem begin_freshCall (rt : Runtime) (i : ℕ) : CacheOp.begin rt (freshCall i) = .checking (fresh i) := by
  have hlower : rt.toLowercase (letters i) = letters i := by
    rw [rt.toLowercase_ascii]
    · simp [letters]
    · intro c hc
      rw [List.eq_of_mem_replicate hc]
      decide
  simp [freshCall, CacheOp.begin, fresh, hlower]

/-- A call that finds the map full of unexpired entries gets as far as its victim. -/
theorem choose_alone {victim : Text × UInt16} (hnew : new.key ∉ m.cache.map) (hfull : m.cache.capacity ≤ m.cache.len)
    (hlive : m.cache.retained 0 = m.cache.map)
    (hvictim : ((rt.ordered Order.stored).keys m.cache.map).head? = some victim) :
    Alone rt 0 Order.stored (m, .checking new) (m, .evicting new victim) := by
  refine .head (b := (m, .measuring new)) ?_ (.head (b := (m, .sweeping new)) ?_ (.head (b := (m, .remeasuring new)) ?_
    (.head (b := (m, .choosing new)) ?_ (.single ?_))))
  · simp only [CacheMemory.go, AList.lookup_isSome, hnew, if_false]
  · simp only [CacheMemory.go, if_neg (Nat.not_lt.mpr hfull)]
  · simp only [CacheMemory.go, hlive]
    rfl
  · simp only [CacheMemory.go, if_pos hfull]
  · simp only [CacheMemory.go, hvictim]

/-- A call that finds room, or no victim, stores its entry. -/
theorem store_alone (hnew : new.key ∉ m.cache.map) (hroom : m.cache.len < max m.cache.capacity 1)
    (hlive : m.cache.retained 0 = m.cache.map) :
    Alone rt 0 Order.stored (m, .checking new) (m.store 0 new, .stored) := by
  refine .head (b := (m, .measuring new)) ?_ (.tail (b := (m, .storing new)) ?_ rfl)
  · simp only [CacheMemory.go, AList.lookup_isSome, hnew, if_false]
  · by_cases hless : m.cache.len < m.cache.capacity
    · exact .single (congrArg (fun op => some (m, op)) (if_pos hless))
    · -- the capacity is zero, and the map is empty
      have hempty : ((rt.ordered Order.stored).keys m.cache.map).head? = none := by
        have hnone : m.cache.map.entries = [] := List.length_eq_zero_iff.mp (by rw [Cache.len] at *; omega)
        simp [Runtime.keys, Runtime.ordered, Order.stored, hnone]
      refine .head (b := (m, .sweeping new)) ?_ (.head (b := (m, .remeasuring new)) ?_
        (.head (b := (m, .choosing new)) ?_ (.single ?_)))
      · simp only [CacheMemory.go, if_neg hless]
      · simp only [CacheMemory.go, hlive]
        rfl
      · simp only [CacheMemory.go, if_pos (Nat.not_lt.mp hless)]
      · simp only [CacheMemory.go, hempty]

theorem letters_inj {i j : ℕ} (h : letters i = letters j) : i = j := by
  simpa [letters] using congrArg List.length h

/-- The map has names of fewer than `k` letters, none of them expired. -/
structure Lettered (k : ℕ) (m : CacheMemory) : Prop where
  keys : ∀ key, key ∈ m.cache.map → ∃ i < k, key = (letters i, 1)
  live : ∀ key entry, m.cache.map.lookup key = some entry → 0 < entry.expiresAt

variable {capacity k : ℕ}

theorem Lettered.fresh_notMem (h : Lettered k m) {i : ℕ} (hi : k ≤ i) : (fresh i).key ∉ m.cache.map := by
  intro hmem
  obtain ⟨j, hj, hkey⟩ := h.keys _ hmem
  have := letters_inj (Prod.mk.inj hkey).1
  omega

theorem Lettered.retained (h : Lettered k m) : m.cache.retained 0 = m.cache.map := by
  apply AList.ext
  refine List.filter_eq_self.mpr fun entry hentry => decide_eq_true ?_
  exact h.live entry.1 entry.2 (AList.mem_lookup_iff.mpr hentry)

theorem Lettered.erase (h : Lettered k m) (key : Text × UInt16) : Lettered k (m.withMap (m.cache.map.erase key)) where
  keys key' hkey' := h.keys key' (AList.mem_erase.mp hkey').2
  live key' entry hentry := h.live key' entry (lookup_of_erase hentry)

theorem Lettered.store (h : Lettered k m) : Lettered (k + 1) (m.store 0 (fresh k)) where
  keys key hkey := by
    obtain rfl | hkey := (AList.mem_insert _).mp hkey
    · exact ⟨k, Nat.lt_succ_self k, rfl⟩
    · obtain ⟨i, hi, rfl⟩ := h.keys key hkey
      exact ⟨i, by omega, rfl⟩
  live key entry hentry := by
    by_cases hkey : key = (fresh k).key
    · subst hkey
      obtain rfl := Option.some.inj ((AList.lookup_insert _).symm.trans hentry)
      exact (by decide : 0 < (Stored.entry ⟨0, [0], 1⟩).expiresAt)
    · exact h.live key entry ((AList.lookup_insert_ne hkey).symm.trans hentry)

theorem len_store {now : Instant} (h : new.key ∉ m.cache.map) : (m.store now new).cache.len = m.cache.len + 1 := by
  rw [Cache.len, show (m.store now new).cache.map = m.cache.map.insert new.key _ from rfl,
    AList.entries_insert_of_notMem h]
  rfl

/-- The threads are between two calls, and the map is as it should be. -/
structure Grown (capacity k : ℕ) (w : Threads Bool CacheMemory CacheOp) : Prop where
  capacity : w.memory.cache.capacity = capacity
  ended : ∀ t, (w.own t).ended = true
  lettered : Lettered k w.memory

variable {w : Threads Bool CacheMemory CacheOp}

theorem call_alone {t : Bool} {i : ℕ} {m' : CacheMemory} {op : CacheOp} (hended : (w.own t).ended = true)
    (h : Alone rt 0 Order.stored (w.memory.called (freshCall i), .checking (fresh i)) (m', op)) :
    ∃ acts, run (Threads.step (CacheMemory.move rt)) w acts = some ⟨m', update w.own t op⟩ := by
  obtain ⟨moves, hmoves⟩ := run_of_alone h
  have hcall : w.memory.move rt (w.own t) (.call (freshCall i)) =
      some (w.memory.called (freshCall i), .checking (fresh i)) := by
    simp only [CacheMemory.move, hended, if_true, begin_freshCall]
  exact ⟨_, Threads.run_own (t := t) (run_cons.mpr ⟨_, hcall, hmoves⟩)⟩

theorem Grown.one (rt : Runtime) (h : Grown capacity k w) (hroom : w.memory.cache.len < max capacity 1) :
    ∃ acts w', run (Threads.step (CacheMemory.move rt)) w acts = some w' ∧ Grown capacity (k + 1) w' ∧
      w'.memory.cache.len = w.memory.cache.len + 1 := by
  have hnew : (fresh k).key ∉ (w.memory.called (freshCall k)).cache.map := h.lettered.fresh_notMem (le_refl k)
  have halone : Alone rt 0 Order.stored (w.memory.called (freshCall k), .checking (fresh k))
      ((w.memory.called (freshCall k)).store 0 (fresh k), .stored) := by
    rw [← h.capacity] at hroom
    exact store_alone hnew hroom h.lettered.retained
  obtain ⟨acts, hacts⟩ := call_alone (h.ended true) halone
  refine ⟨acts, _, hacts, ⟨h.capacity, fun t => ?_, ?_⟩, len_store hnew⟩
  · cases t
    · exact h.ended false
    · rfl
  · exact Lettered.store ⟨h.lettered.keys, h.lettered.live⟩

theorem exists_victim (rt : Runtime) (hne : 0 < m.cache.len) :
    ∃ victim ∈ m.cache.map, ((rt.ordered Order.stored).keys m.cache.map).head? = some victim := by
  cases hkeys : (rt.ordered Order.stored).keys m.cache.map with
  | nil =>
    have hlen := congrArg List.length hkeys
    simp only [Runtime.keys, Runtime.ordered, Order.stored, List.length_map, List.length_nil] at hlen
    exact absurd hlen hne.ne'
  | cons victim rest =>
    have hmem : victim ∈ m.cache.map.keys := by
      rw [show m.cache.map.keys = (rt.ordered Order.stored).keys m.cache.map from rfl, hkeys]
      exact List.mem_cons_self
    exact ⟨victim, hmem, rfl⟩

theorem erase_erase_self {κ ν : Type} [DecidableEq κ] (map : HashMap κ ν) (k : κ) :
    (map.erase k).erase k = map.erase k := by
  apply AList.ext
  apply List.kerase_of_notMem_keys
  exact fun hmem => (AList.mem_erase.mp hmem).1 rfl

/-- Both threads choose the same victim before either has removed it. -/
theorem Grown.two (rt : Runtime) (h : Grown capacity k w) (hfull : capacity ≤ w.memory.cache.len)
    (hne : 0 < w.memory.cache.len) :
    ∃ acts w', run (Threads.step (CacheMemory.move rt)) w acts = some w' ∧ Grown capacity (k + 2) w' ∧
      w'.memory.cache.len = w.memory.cache.len + 1 := by
  obtain ⟨victim, hmem, hvictim⟩ := exists_victim rt hne
  rw [← h.capacity] at hfull
  let m := (w.memory.called (freshCall k)).called (freshCall (k + 1))
  have hfirst : Alone rt 0 Order.stored (w.memory.called (freshCall k), .checking (fresh k))
      (w.memory.called (freshCall k), .evicting (fresh k) victim) :=
    choose_alone (h.lettered.fresh_notMem (le_refl k)) hfull h.lettered.retained hvictim
  have hsecond : Alone rt 0 Order.stored (m, .checking (fresh (k + 1))) (m, .evicting (fresh (k + 1)) victim) :=
    choose_alone (h.lettered.fresh_notMem (Nat.le_succ k)) hfull h.lettered.retained hvictim
  obtain ⟨acts₁, hacts₁⟩ := call_alone (h.ended false) hfirst
  obtain ⟨acts₂, hacts₂⟩ := call_alone (t := true) (i := k + 1)
    (w := ⟨w.memory.called (freshCall k), update w.own false (.evicting (fresh k) victim)⟩) (h.ended true) hsecond
  have hacts := run_append.mpr ⟨_, hacts₁, run_append.mpr ⟨_, hacts₂, (rfl : run (Threads.step (CacheMemory.move rt)) _
    [(false, .go 0 Order.stored), (true, .go 0 Order.stored), (false, .go 0 Order.stored), (true, .go 0 Order.stored)] =
      some _)⟩⟩
  have hlettered : Lettered k m := ⟨h.lettered.keys, h.lettered.live⟩
  have hlettered' := (hlettered.erase victim).erase victim
  refine ⟨_, _, hacts, ⟨h.capacity, ?_, hlettered'.store.store⟩, ?_⟩
  · rintro (_ | _) <;> rfl
  · refine (len_store (hlettered'.store.fresh_notMem (le_refl (k + 1)))).trans ?_
    rw [len_store (hlettered'.fresh_notMem (le_refl k))]
    have hlen : ((m.withMap (m.cache.map.erase victim)).cache.map.erase victim).entries.length + 1 =
        w.memory.cache.map.entries.length :=
      (congrArg (fun map => map.entries.length + 1) (erase_erase_self m.cache.map victim)).trans
        (length_erase_of_mem hmem)
    exact congrArg (· + 1) hlen

theorem Grown.more (rt : Runtime) (h : Grown capacity k w) :
    ∃ acts k' w', run (Threads.step (CacheMemory.move rt)) w acts = some w' ∧ Grown capacity k' w' ∧
      w'.memory.cache.len = w.memory.cache.len + 1 := by
  by_cases hroom : w.memory.cache.len < max capacity 1
  · obtain ⟨acts, w', hacts⟩ := h.one rt hroom
    exact ⟨acts, _, w', hacts⟩
  · obtain ⟨acts, w', hacts⟩ := h.two rt (by omega) (by omega)
    exact ⟨acts, _, w', hacts⟩

theorem exists_grown (rt : Runtime) (capacity n : ℕ) :
    ∃ acts k w, run (Threads.step (CacheMemory.move rt)) (startCaching Bool capacity) acts = some w ∧
      Grown capacity k w ∧ w.memory.cache.len = n := by
  induction n with
  | zero =>
    exact ⟨[], 0, _, rfl, ⟨rfl, fun _ => rfl, fun key hkey => absurd hkey (AList.notMem_empty key),
      fun key entry hentry => (by cases hentry)⟩, rfl⟩
  | succ n ih =>
    obtain ⟨acts, k, w, hrun, hgrown, rfl⟩ := ih
    obtain ⟨acts', k', w', hrun', hgrown', hlen⟩ := hgrown.more rt
    exact ⟨acts ++ acts', k', w', run_append.mpr ⟨w, hrun, hrun'⟩, hgrown', hlen⟩

/-- **Two threads can make the cache as large as they like**, whatever its capacity. -/
theorem two_threads_exceed_capacity (rt : Runtime) (capacity n : ℕ) :
    ∃ acts w, run (Threads.step (CacheMemory.move rt)) (startCaching Bool capacity) acts = some w ∧
      w.memory.cache.len = n := by
  obtain ⟨acts, _, w, hrun, _, hlen⟩ := exists_grown rt capacity n
  exact ⟨acts, w, hrun, hlen⟩

end Growth
end MiniDns
