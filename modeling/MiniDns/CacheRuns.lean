import MiniDns.Cache

/-! Runs of the cache. A history is the list of the calls so far, the latest one first; each call comes
with the clock reading that it sees and with the order in which it would iterate the map. -/
namespace MiniDns
open Lib
set_option autoImplicit false

/-! ## Histories -/

/-- An order in which hash maps are iterated. -/
structure Order where
  iterate : {α : Type} → List α → List α
  perm : ∀ {α : Type} (l : List α), (iterate l).Perm l

def Runtime.ordered (rt : Runtime) (order : Order) : Runtime :=
  { rt with iterate := order.iterate, iterate_perm := order.perm }

def Order.stored : Order := ⟨fun l => l, fun l => List.Perm.refl l⟩

inductive CacheCall where
  | get (name : Text) (qtype : UInt16)
  | insert (name : Text) (qtype : UInt16) (response : Bytes) (ttlSecs : UInt32)
  deriving DecidableEq, Repr

structure CacheEvent where
  now : Instant
  order : Order
  call : CacheCall

/-- What an insert leaves behind, and when it did. -/
structure Stored where
  storedAt : Instant
  response : Bytes
  ttlSecs : UInt32
  deriving DecidableEq, Repr

def Stored.entry (s : Stored) : Cache.Entry := ⟨s.response, s.storedAt + fromSecs s.ttlSecs.toNat⟩

namespace CacheEvent

def apply (rt : Runtime) (c : Cache) (e : CacheEvent) : Cache :=
  match e.call with
  | .get name qtype => (c.get (rt.ordered e.order) e.now name qtype).2
  | .insert name qtype response ttlSecs =>
    c.insert (rt.ordered e.order) e.now name qtype response ttlSecs

/-- The insert that an event makes, if it has a response and a lifetime to store. -/
def insertion (rt : Runtime) (e : CacheEvent) : Option ((Text × UInt16) × Stored) :=
  match e.call with
  | .get _ _ => none
  | .insert name qtype response ttlSecs =>
    if response = [] ∨ ttlSecs = 0 then none
    else some ((rt.toLowercase name, qtype), ⟨e.now, response, ttlSecs⟩)

def storedUnder (rt : Runtime) (key : Text × UInt16) (e : CacheEvent) : Option Stored :=
  (e.insertion rt).bind fun ins => if ins.1 = key then some ins.2 else none

def isInsert (e : CacheEvent) : Bool :=
  match e.call with
  | .get _ _ => false
  | .insert _ _ _ _ => true

end CacheEvent

namespace Cache

def len (c : Cache) : ℕ := c.map.entries.length

def unexpired (c : Cache) (now : Instant) : List (Sigma fun _ : Text × UInt16 => Entry) :=
  c.map.entries.filter fun entry => now < entry.2.expiresAt

def after (rt : Runtime) (capacity : ℕ) : List CacheEvent → Cache
  | [] => new capacity
  | e :: past => e.apply rt (after rt capacity past)

def latest (rt : Runtime) (key : Text × UInt16) (history : List CacheEvent) : Option Stored :=
  history.findSome? (CacheEvent.storedUnder rt key)

/-- An insert of another key has removed `key` since it was last stored. -/
def EvictedSince (rt : Runtime) (capacity : ℕ) (key : Text × UInt16) : List CacheEvent → Prop
  | [] => False
  | e :: past => e.storedUnder rt key = none ∧
      (e.isInsert ∧ key ∈ (after rt capacity past).map ∧ key ∉ (after rt capacity (e :: past)).map ∨
        EvictedSince rt capacity key past)

/-! ## What an insert removes -/

section Insert
variable {rt : Runtime} {c : Cache} {now : Instant} {name : Text} {qtype : UInt16} {response : Bytes}
  {ttlSecs : UInt32} {key : Text × UInt16} {entry : Entry}

/-- The map without its expired entries. -/
def retained (c : Cache) (now : Instant) : HashMap (Text × UInt16) Entry :=
  ⟨c.unexpired now, c.map.nodupKeys.sublist List.filter_sublist⟩

theorem lookup_retained : (c.retained now).lookup key = some entry ↔
    c.map.lookup key = some entry ∧ now < entry.expiresAt := by
  exact lookup_filter.trans (and_congr_right' decide_eq_true_iff)

theorem evictIfFull_eq : c.evictIfFull rt now =
    if c.len < c.capacity then c
    else if c.capacity ≤ (c.unexpired now).length then
      match (rt.keys (c.retained now)).head? with
      | some victim => { c with map := (c.retained now).erase victim }
      | none => { c with map := c.retained now }
    else { c with map := c.retained now } := rfl

theorem evictIfFull_of_lt (h : c.len < c.capacity) : c.evictIfFull rt now = c := if_pos h

theorem evictIfFull_of_room (hfull : c.capacity ≤ c.len) (h : (c.unexpired now).length < c.capacity) :
    c.evictIfFull rt now = { c with map := c.retained now } := by
  rw [evictIfFull_eq, if_neg (Nat.not_lt.mpr hfull), if_neg (Nat.not_le.mpr h)]

/-- A map full of unexpired entries loses one of them. -/
theorem evictIfFull_of_full (rt : Runtime) (hcap : 1 ≤ c.capacity) (h : c.capacity ≤ (c.unexpired now).length) :
    ∃ victim ∈ c.retained now, c.evictIfFull rt now = { c with map := (c.retained now).erase victim } := by
  have hfull : c.capacity ≤ c.len := h.trans (List.length_filter_le _ _)
  have hperm : (rt.keys (c.retained now)).Perm (c.retained now).keys := (rt.iterate_perm _).map _
  cases hhead : (rt.keys (c.retained now)).head? with
  | none =>
    rw [List.head?_eq_none_iff] at hhead
    have hlen := hperm.length_eq
    rw [hhead, AList.keys, List.keys, List.length_map] at hlen
    have : (c.unexpired now).length = 0 := hlen.symm
    omega
  | some victim =>
    refine ⟨victim, hperm.subset (List.mem_of_mem_head? hhead), ?_⟩
    rw [evictIfFull_eq, if_neg (Nat.not_lt.mpr hfull), if_pos h, hhead]

/-- The cache in which a new entry is stored: as it was if its key is there, else with room made. -/
def prepared (rt : Runtime) (c : Cache) (now : Instant) (key : Text × UInt16) : Cache :=
  if key ∈ c.map then c else c.evictIfFull rt now

theorem insert_of_some (h : ¬ (response = [] ∨ ttlSecs = 0)) :
    c.insert rt now name qtype response ttlSecs =
      { c.prepared rt now (rt.toLowercase name, qtype) with
        map := (c.prepared rt now (rt.toLowercase name, qtype)).map.insert (rt.toLowercase name, qtype)
          (Stored.entry ⟨now, response, ttlSecs⟩) } := by
  refine (if_neg (by simpa using h)).trans ?_
  simp only [prepared, AList.lookup_isSome, Stored.entry]

theorem lookup_insert_self (rt : Runtime) (h : ¬ (response = [] ∨ ttlSecs = 0)) :
    (c.insert rt now name qtype response ttlSecs).map.lookup (rt.toLowercase name, qtype) =
      some (Stored.entry ⟨now, response, ttlSecs⟩) := by
  rw [insert_of_some h]
  exact AList.lookup_insert _

theorem lookup_insert_ne (rt : Runtime) (h : ¬ (response = [] ∨ ttlSecs = 0))
    (hkey : key ≠ (rt.toLowercase name, qtype)) :
    (c.insert rt now name qtype response ttlSecs).map.lookup key =
      (c.prepared rt now (rt.toLowercase name, qtype)).map.lookup key := by
  rw [insert_of_some h]
  exact AList.lookup_insert_ne hkey

theorem lookup_prepared {new : Text × UInt16} (h : (c.prepared rt now new).map.lookup key = some entry) :
    c.map.lookup key = some entry := by
  unfold prepared at h
  split at h
  · exact h
  · exact lookup_evictIfFull h

theorem lookup_insert_of_present (rt : Runtime) (hpresent : (rt.toLowercase name, qtype) ∈ c.map)
    (hkey : key ≠ (rt.toLowercase name, qtype)) :
    (c.insert rt now name qtype response ttlSecs).map.lookup key = c.map.lookup key := by
  by_cases h : response = [] ∨ ttlSecs = 0
  · rw [insert_of_nothing h]
  · rw [lookup_insert_ne rt h hkey, prepared, if_pos hpresent]

/-- A new key takes no unexpired entry away while fewer than the capacity are unexpired. -/
theorem lookup_insert_of_room (rt : Runtime) (hroom : (c.unexpired now).length < c.capacity)
    (hkey : key ≠ (rt.toLowercase name, qtype)) (hentry : c.map.lookup key = some entry)
    (hlive : now < entry.expiresAt) :
    (c.insert rt now name qtype response ttlSecs).map.lookup key = some entry := by
  by_cases h : response = [] ∨ ttlSecs = 0
  · rw [insert_of_nothing h]
    exact hentry
  rw [lookup_insert_ne rt h hkey, prepared]
  split
  · exact hentry
  · by_cases hfull : c.capacity ≤ c.len
    · rw [evictIfFull_of_room hfull hroom]
      exact lookup_retained.mpr ⟨hentry, hlive⟩
    · rw [evictIfFull_of_lt (Nat.not_le.mp hfull)]
      exact hentry

/-- A new key takes exactly one unexpired entry away when the capacity is reached by these. -/
theorem lookup_insert_of_full (rt : Runtime) (hcap : 1 ≤ c.capacity) (hfull : c.capacity ≤ (c.unexpired now).length)
    (h : ¬ (response = [] ∨ ttlSecs = 0)) (hnew : (rt.toLowercase name, qtype) ∉ c.map) :
    ∃ victim lost, c.map.lookup victim = some lost ∧ now < lost.expiresAt ∧
      (c.insert rt now name qtype response ttlSecs).map.lookup victim = none ∧
      ∀ key entry, key ≠ victim → c.map.lookup key = some entry → now < entry.expiresAt →
        (c.insert rt now name qtype response ttlSecs).map.lookup key = some entry := by
  obtain ⟨victim, hmem, hevict⟩ := evictIfFull_of_full rt hcap hfull
  obtain ⟨lost, hlost⟩ := Option.isSome_iff_exists.mp (AList.lookup_isSome.mpr hmem)
  obtain ⟨hlookup, hlive⟩ := lookup_retained.mp hlost
  have hprep : c.prepared rt now (rt.toLowercase name, qtype) = { c with map := (c.retained now).erase victim } :=
    (if_neg hnew).trans hevict
  have hother : ∀ {key entry}, c.map.lookup key = some entry → key ≠ (rt.toLowercase name, qtype) := by
    rintro key entry hentry rfl
    exact hnew (mem_of_lookup hentry)
  refine ⟨victim, lost, hlookup, hlive, ?_, ?_⟩
  · rw [lookup_insert_ne rt h (hother hlookup), hprep]
    exact AList.lookup_erase victim _
  · intro key entry hkey hentry hunexpired
    rw [lookup_insert_ne rt h (hother hentry), hprep]
    refine (AList.lookup_erase_ne hkey).trans ?_
    exact lookup_retained.mpr ⟨hentry, hunexpired⟩

end Insert

/-! ## What one call does to a key -/

section Step
variable {rt : Runtime} {c : Cache} {e : CacheEvent} {key : Text × UInt16} {entry : Entry} {s : Stored}

theorem storedUnder_cases (rt : Runtime) (key : Text × UInt16) (e : CacheEvent) :
    (e.storedUnder rt key = none ∧ (e.isInsert = false ∨ e.isInsert = true ∧ ∀ c, e.apply rt c = c)) ∨
      ∃ name qtype response ttlSecs, e.call = .insert name qtype response ttlSecs ∧
        ¬ (response = [] ∨ ttlSecs = 0) ∧
        e.storedUnder rt key =
          if (rt.toLowercase name, qtype) = key then some ⟨e.now, response, ttlSecs⟩ else none := by
  obtain ⟨now, order, call⟩ := e
  cases call with
  | get name qtype => exact .inl ⟨rfl, .inl rfl⟩
  | insert name qtype response ttlSecs =>
    by_cases h : response = [] ∨ ttlSecs = 0
    · refine .inl ⟨?_, .inr ⟨rfl, fun c => insert_of_nothing h⟩⟩
      simp [CacheEvent.storedUnder, CacheEvent.insertion, h]
    · refine .inr ⟨name, qtype, response, ttlSecs, rfl, h, ?_⟩
      simp only [CacheEvent.storedUnder, CacheEvent.insertion, if_neg h, Option.bind_some]

theorem apply_insert {name : Text} {qtype : UInt16} {response : Bytes} {ttlSecs : UInt32}
    (h : e.call = .insert name qtype response ttlSecs) :
    e.apply rt c = c.insert (rt.ordered e.order) e.now name qtype response ttlSecs := by
  rw [CacheEvent.apply, h]

theorem apply_get (rt : Runtime) (c : Cache) (h : e.isInsert = false) :
    ∃ name qtype, e.apply rt c = (c.get (rt.ordered e.order) e.now name qtype).2 := by
  obtain ⟨now, order, call⟩ := e
  cases call with
  | get name qtype => exact ⟨name, qtype, rfl⟩
  | insert name qtype response ttlSecs => cases h

theorem lookup_apply_of_stored (h : e.storedUnder rt key = some s) :
    (e.apply rt c).map.lookup key = some s.entry := by
  obtain ⟨hnone, _⟩ | ⟨name, qtype, response, ttlSecs, hcall, hsome, hstored⟩ := storedUnder_cases rt key e
  · rw [hnone] at h
    cases h
  · rw [hstored] at h
    split at h
    · rename_i hkey
      obtain rfl := Option.some.inj h
      rw [apply_insert hcall, ← hkey]
      exact lookup_insert_self (rt.ordered e.order) hsome
    · cases h

/-- A key that a call does not store has the entry that it had, or none. -/
theorem lookup_of_apply (h : e.storedUnder rt key = none) (hafter : (e.apply rt c).map.lookup key = some entry) :
    c.map.lookup key = some entry := by
  obtain ⟨_, hget | ⟨_, hsame⟩⟩ | ⟨name, qtype, response, ttlSecs, hcall, hsome, hstored⟩ :=
    storedUnder_cases rt key e
  · obtain ⟨name, qtype, hget⟩ := apply_get rt c hget
    rw [hget] at hafter
    exact lookup_get hafter
  · rwa [hsame] at hafter
  · have hkey : key ≠ (rt.toLowercase name, qtype) := by
      rintro rfl
      rw [hstored, if_pos rfl] at h
      cases h
    rw [apply_insert hcall, lookup_insert_ne (rt.ordered e.order) hsome hkey] at hafter
    exact lookup_prepared hafter

/-- An entry that disappears has expired, or an insert has evicted it. -/
theorem lookup_apply_of_kept (h : e.storedUnder rt key = none) (hbefore : c.map.lookup key = some entry) :
    (e.apply rt c).map.lookup key = some entry ∨ entry.expiresAt ≤ e.now ∨
      e.isInsert = true ∧ key ∉ (e.apply rt c).map := by
  cases hafter : (e.apply rt c).map.lookup key with
  | some entry' =>
    have := lookup_of_apply h hafter
    rw [hbefore] at this
    exact .inl this.symm
  | none =>
    cases hinsert : e.isInsert with
    | true => exact .inr (.inr ⟨rfl, AList.lookup_eq_none.mp hafter⟩)
    | false =>
      obtain ⟨name, qtype, hget⟩ := apply_get rt c hinsert
      rw [hget] at hafter
      -- `get` removes the key that it was asked for, and only if that has expired
      refine .inr (.inl (Nat.not_lt.mp fun hlive => ?_))
      unfold get at hafter
      dsimp only at hafter
      split at hafter
      · rename_i found hfound
        split at hafter
        · rw [hbefore] at hafter
          cases hafter
        · rename_i hexpired
          by_cases hkey : key = ((rt.ordered e.order).toLowercase name, qtype)
          · subst hkey
            rw [hbefore] at hfound
            obtain rfl := Option.some.inj hfound
            exact hexpired hlive
          · rw [AList.lookup_erase_ne hkey, hbefore] at hafter
            cases hafter
      · rw [hbefore] at hafter
        cases hafter

end Step

/-! ## What a history leaves under a key -/

section History
variable {rt : Runtime} {capacity : ℕ} {key : Text × UInt16} {entry : Entry} {s : Stored} {e : CacheEvent}
  {history past : List CacheEvent}

theorem latest_of_stored (h : e.storedUnder rt key = some s) : latest rt key (e :: past) = some s := by
  rw [latest, List.findSome?_cons, h]

theorem latest_of_not_stored (h : e.storedUnder rt key = none) :
    latest rt key (e :: past) = latest rt key past := by
  rw [latest, List.findSome?_cons, h]
  rfl

/-- Every entry is what the latest insert of its key has stored. -/
theorem latest_of_lookup (h : (after rt capacity history).map.lookup key = some entry) :
    ∃ s, latest rt key history = some s ∧ entry = s.entry := by
  induction history with
  | nil => cases h
  | cons e past ih =>
    cases hstored : e.storedUnder rt key with
    | some s =>
      rw [after, lookup_apply_of_stored hstored] at h
      exact ⟨s, latest_of_stored hstored, (Option.some.inj h).symm⟩
    | none =>
      rw [latest_of_not_stored hstored]
      exact ih (lookup_of_apply hstored h)

/-- What the latest insert has stored is there, has been evicted, or has expired. -/
theorem lookup_of_latest (capacity : ℕ) (h : latest rt key history = some s) :
    (after rt capacity history).map.lookup key = some s.entry ∨ EvictedSince rt capacity key history ∨
      ∃ e ∈ history, s.entry.expiresAt ≤ e.now := by
  induction history with
  | nil => cases h
  | cons e past ih =>
    cases hstored : e.storedUnder rt key with
    | some s' =>
      rw [latest_of_stored hstored] at h
      obtain rfl := Option.some.inj h
      exact .inl (lookup_apply_of_stored hstored)
    | none =>
      rw [latest_of_not_stored hstored] at h
      obtain hlookup | hevicted | ⟨e', he', hexpired⟩ := ih h
      · obtain hkept | hexpired | ⟨hinsert, hgone⟩ := lookup_apply_of_kept hstored hlookup
        · exact .inl hkept
        · exact .inr (.inr ⟨e, List.mem_cons_self, hexpired⟩)
        · exact .inr (.inl ⟨hstored, .inl ⟨hinsert, mem_of_lookup hlookup, hgone⟩⟩)
      · exact .inr (.inl ⟨hstored, .inr hevicted⟩)
      · exact .inr (.inr ⟨e', List.mem_cons_of_mem _ he', hexpired⟩)

theorem capacity_insert {c : Cache} {now : Instant} {name : Text} {qtype : UInt16} {response : Bytes}
    {ttlSecs : UInt32} : (c.insert rt now name qtype response ttlSecs).capacity = c.capacity := by
  by_cases h : response = [] ∨ ttlSecs = 0
  · rw [insert_of_nothing h]
  · rw [insert_of_some h]
    change (c.prepared rt now (rt.toLowercase name, qtype)).capacity = c.capacity
    rw [prepared, evictIfFull_eq]
    repeat' split
    all_goals rfl

theorem capacity_get {c : Cache} {now : Instant} {name : Text} {qtype : UInt16} :
    (c.get rt now name qtype).2.capacity = c.capacity := by
  unfold get
  dsimp only
  repeat' split
  all_goals rfl

theorem capacity_after (rt : Runtime) (capacity : ℕ) (history : List CacheEvent) :
    (after rt capacity history).capacity = capacity := by
  induction history with
  | nil => rfl
  | cons e past ih =>
    refine Eq.trans ?_ ih
    rw [after, CacheEvent.apply]
    split
    · exact capacity_get
    · exact capacity_insert

end History

/-! ## Soundness -/

theorem get_eq_some {rt : Runtime} {c : Cache} {now : Instant} {name : Text} {qtype : UInt16} {b : Bytes} :
    (c.get rt now name qtype).1 = some b ↔
      ∃ entry, c.map.lookup (rt.toLowercase name, qtype) = some entry ∧ now < entry.expiresAt ∧
        entry.response = b := by
  unfold get
  dsimp only
  split
  · rename_i entry hentry
    rw [hentry]
    split <;> simp_all
  · rename_i hnone
    simp [hnone]

/-- **The cache over whole runs.** A `get` returns only what the latest insert of its key has stored and
what has not expired, and it does return that unless an insert has evicted the key since. An insert of a
present key removes nothing else. An insert of a new key removes an unexpired entry only if the map
already holds `capacity` of them, and then it removes one. -/
theorem cache_sound (rt : Runtime) (capacity : ℕ) (hcap : 1 ≤ capacity) (history : List CacheEvent)
    (now : Instant) (order : Order) (hclock : ∀ e ∈ history, e.now ≤ now) (name : Text) (qtype : UInt16) :
    (∀ b, ((after rt capacity history).get (rt.ordered order) now name qtype).1 = some b →
      ∃ s, latest rt (rt.toLowercase name, qtype) history = some s ∧ s.response = b ∧
        now < s.storedAt + fromSecs s.ttlSecs.toNat) ∧
    (∀ s, latest rt (rt.toLowercase name, qtype) history = some s →
      now < s.storedAt + fromSecs s.ttlSecs.toNat →
      ((after rt capacity history).get (rt.ordered order) now name qtype).1 = some s.response ∨
        EvictedSince rt capacity (rt.toLowercase name, qtype) history) ∧
    (∀ response ttlSecs,
      let before := after rt capacity history
      let stored := before.insert (rt.ordered order) now name qtype response ttlSecs
      ((rt.toLowercase name, qtype) ∈ before.map →
        ∀ key, key ≠ (rt.toLowercase name, qtype) → stored.map.lookup key = before.map.lookup key) ∧
      ((rt.toLowercase name, qtype) ∉ before.map → (before.unexpired now).length < capacity →
        ∀ key entry, before.map.lookup key = some entry → now < entry.expiresAt →
          stored.map.lookup key = some entry) ∧
      ((rt.toLowercase name, qtype) ∉ before.map → capacity ≤ (before.unexpired now).length →
        response ≠ [] → ttlSecs ≠ 0 →
        ∃ victim lost, before.map.lookup victim = some lost ∧ now < lost.expiresAt ∧
          stored.map.lookup victim = none ∧
          ∀ key entry, key ≠ victim → before.map.lookup key = some entry → now < entry.expiresAt →
            stored.map.lookup key = some entry)) := by
  have hcapacity := capacity_after rt capacity history
  refine ⟨fun b hget => ?_, fun s hlatest hlive => ?_, fun response ttlSecs => ⟨?_, ?_, ?_⟩⟩
  · obtain ⟨entry, hlookup, hlive, rfl⟩ := get_eq_some.mp hget
    obtain ⟨s, hlatest, rfl⟩ := latest_of_lookup hlookup
    exact ⟨s, hlatest, rfl, hlive⟩
  · obtain hlookup | hevicted | ⟨e, he, hexpired⟩ := lookup_of_latest capacity hlatest
    · exact .inl (get_eq_some.mpr ⟨s.entry, hlookup, hlive, rfl⟩)
    · exact .inr hevicted
    · exact absurd hlive (Nat.not_lt.mpr (hexpired.trans (hclock e he)))
  · exact fun hpresent key hkey => lookup_insert_of_present (rt.ordered order) hpresent hkey
  · intro hnew hroom key entry hentry hlive
    refine lookup_insert_of_room (rt.ordered order) (by rwa [hcapacity]) ?_ hentry hlive
    rintro rfl
    exact hnew (mem_of_lookup hentry)
  · intro hnew hfull hresponse httl
    refine lookup_insert_of_full (rt.ordered order) (by rwa [hcapacity]) (by rwa [hcapacity]) ?_ hnew
    rintro (h | h)
    · exact hresponse h
    · exact httl h

/-- `a` is stored at 0 and has to make room for `b` at 5. -/
def twoInserts : List CacheEvent :=
  [⟨5, .stored, .insert ['B'] 1 [2] 60⟩, ⟨0, .stored, .insert ['a'] 1 [1] 60⟩]

theorem cache_sound_twoInserts : ∃ s, latest Runtime.ascii (['b'], 1) twoInserts = some s ∧ s.response = [2] ∧
    6 < s.storedAt + fromSecs s.ttlSecs.toNat :=
  (cache_sound Runtime.ascii 1 le_rfl twoInserts 6 .stored (by decide) ['b'] 1).1 [2] (by decide)

/-! ## Size -/

theorem len_get_le {rt : Runtime} {c : Cache} {now : Instant} {name : Text} {qtype : UInt16} :
    (c.get rt now name qtype).2.len ≤ c.len := by
  unfold get
  dsimp only
  split
  · split
    · exact le_rfl
    · exact length_erase_le _ _
  · exact le_rfl

theorem len_evictIfFull {rt : Runtime} {c : Cache} {now : Instant} (hcap : 1 ≤ c.capacity)
    (hlen : c.len ≤ c.capacity) : (c.evictIfFull rt now).len + 1 ≤ c.capacity := by
  by_cases hroom : c.len < c.capacity
  · rwa [evictIfFull_of_lt hroom]
  by_cases hlive : c.capacity ≤ (c.unexpired now).length
  · obtain ⟨victim, hmem, hevict⟩ := evictIfFull_of_full rt hcap hlive
    have hle : (c.retained now).entries.length ≤ c.len := List.length_filter_le _ _
    rw [hevict]
    exact (length_erase_of_mem hmem).le.trans (hle.trans hlen)
  · rw [evictIfFull_of_room (Nat.not_lt.mp hroom) (Nat.not_le.mp hlive)]
    exact Nat.not_le.mp hlive

theorem len_insert_le {rt : Runtime} {c : Cache} {now : Instant} {name : Text} {qtype : UInt16}
    {response : Bytes} {ttlSecs : UInt32} (hcap : 1 ≤ c.capacity) (hlen : c.len ≤ c.capacity) :
    (c.insert rt now name qtype response ttlSecs).len ≤ c.capacity := by
  by_cases h : response = [] ∨ ttlSecs = 0
  · rwa [insert_of_nothing h]
  rw [insert_of_some h, len]
  dsimp only
  rw [AList.entries_insert, List.length_cons]
  by_cases hpresent : (rt.toLowercase name, qtype) ∈ c.map
  · rw [prepared, if_pos hpresent]
    exact (length_erase_of_mem hpresent).le.trans hlen
  · rw [prepared, if_neg hpresent]
    exact (Nat.succ_le_succ (length_erase_le _ _)).trans (len_evictIfFull hcap hlen)

theorem len_after_le (rt : Runtime) {capacity : ℕ} (hcap : 1 ≤ capacity) (history : List CacheEvent) :
    (after rt capacity history).len ≤ capacity := by
  induction history with
  | nil => exact Nat.zero_le _
  | cons e past ih =>
    have hcapacity := capacity_after rt capacity past
    rw [after, CacheEvent.apply]
    split
    · exact len_get_le.trans ih
    · exact (len_insert_le (by rwa [hcapacity]) (by rwa [hcapacity])).trans hcapacity.le

/-- Whether a call stores an entry. -/
def stores (rt : Runtime) (e : CacheEvent) : Bool := (e.insertion rt).isSome

theorem len_apply_of_not_stores {rt : Runtime} {c : Cache} {e : CacheEvent} (h : stores rt e = false) :
    (e.apply rt c).len ≤ c.len := by
  obtain ⟨now, order, call⟩ := e
  cases call with
  | get name qtype => exact len_get_le
  | insert name qtype response ttlSecs =>
    refine le_of_eq (congrArg len (insert_of_nothing ?_))
    by_contra hsome
    simp [stores, CacheEvent.insertion, hsome] at h

theorem len_apply_of_stores {rt : Runtime} {c : Cache} {e : CacheEvent} (h : stores rt e = true) :
    1 ≤ (e.apply rt c).len := by
  obtain ⟨ins, hins⟩ := Option.isSome_iff_exists.mp h
  have hstored : e.storedUnder rt ins.1 = some ins.2 := by
    rw [CacheEvent.storedUnder, hins, Option.bind_some, if_pos rfl]
  exact List.length_pos_of_mem (AList.mem_lookup_iff.mp (lookup_apply_of_stored (c := c) hstored))

/-- **The cache holds at most `capacity` entries in every run exactly when `capacity` is not zero or
nothing is ever stored.** -/
theorem len_le_capacity_iff (rt : Runtime) (capacity : ℕ) (history : List CacheEvent) :
    (∀ past, past <:+ history → (after rt capacity past).len ≤ capacity) ↔
      1 ≤ capacity ∨ ∀ e ∈ history, stores rt e = false := by
  constructor
  · intro h
    refine or_iff_not_imp_left.mpr fun hcap e he => ?_
    obtain ⟨later, past, rfl⟩ := List.append_of_mem he
    have hlen := h (e :: past) (List.suffix_append later (e :: past))
    by_contra hstores
    have hpos := len_apply_of_stores (c := after rt capacity past) (Bool.eq_true_of_not_eq_false hstores)
    rw [after] at hlen
    omega
  · rintro (hcap | hnone) past hpast
    · exact len_after_le rt hcap past
    · have hempty : (after rt capacity past).len ≤ 0 := by
        have hpast' : ∀ e ∈ past, stores rt e = false := fun e he => hnone e (hpast.subset he)
        clear hpast
        induction past with
        | nil => exact le_rfl
        | cons e past ih =>
          refine (len_apply_of_not_stores (hpast' e List.mem_cons_self)).trans (ih fun e' he' => ?_)
          exact hpast' e' (List.mem_cons_of_mem _ he')
      exact hempty.trans (Nat.zero_le _)

/-- A cache of capacity zero keeps the first entry that it is given. -/
theorem capacity_zero_holds_an_entry :
    (after Runtime.ascii 0 [⟨0, .stored, .insert ['a'] 1 [1] 60⟩]).len = 1 := by
  decide

end Cache
end MiniDns
