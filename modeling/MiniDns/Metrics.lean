import MiniDns.Lib.Counters
import MiniDns.Lib.History
import MiniDns.Lib.Threads
import MiniDns.Runtime
import Mathlib.Data.UInt

/-! The counters of the server. Each counter has a shard for every thread that counts, up to 32, and is read
shard by shard while other threads count on. -/
namespace MiniDns
open Lib Function
set_option autoImplicit false

/-! ## Counters -/

def shards : ℕ := 32

inductive Metric where
  | total
  | authoritative
  | cacheHits
  | forwarded
  | coalesced
  | rateLimited
  | blocked
  | errors
  deriving DecidableEq, Repr

structure Metrics where
  count : Fin shards → Metric → UInt64

namespace Metrics

def zero : Metrics := ⟨fun _ _ => 0⟩

/-- `fetch_add(1)` on one counter of one shard. -/
def bump (m : Metrics) (shard : Fin shards) (c : Metric) : Metrics :=
  ⟨update m.count shard (update (m.count shard) c (m.count shard c + 1))⟩

def sum (m : Metrics) (c : Metric) : UInt64 := ((List.finRange shards).map fun shard => m.count shard c).sum

theorem count_bump (m : Metrics) (shard shard' : Fin shards) (c c' : Metric) :
    (m.bump shard c).count shard' c' = m.count shard' c' + if shard' = shard ∧ c' = c then 1 else 0 := by
  by_cases hshard : shard' = shard
  · subst hshard
    by_cases hc : c' = c
    · subst hc
      simp [bump]
    · simp [bump, hc]
  · simp [bump, hshard]

theorem sum_bump (m : Metrics) (shard : Fin shards) (c c' : Metric) :
    (m.bump shard c).sum c' = m.sum c' + if c' = c then 1 else 0 := by
  simp only [sum, count_bump]
  by_cases hc : c' = c
  · simp only [hc, and_true, if_true]
    rw [sum_map_add_ite _ _ (List.nodup_finRange shards), if_pos (List.mem_finRange shard)]
  · simp [hc]

end Metrics

/-! ## Threads that count and read -/

/-- The counters, the next shard to hand out, and how often each counter was bumped in each shard. -/
structure MetricsMemory where
  metrics : Metrics
  next : ℕ
  bumps : Fin shards → Metric → ℕ

inductive Scrape where
  | idle
  | reading (c : Metric) (began : ℕ) (left : List (Fin shards)) (acc : UInt64)
  | read (c : Metric) (began : ℕ) (value : UInt64)
  deriving DecidableEq, Repr

structure MetricsThread where
  shard : Option (Fin shards)
  scrape : Scrape
  deriving DecidableEq, Repr

inductive MetricsMove where
  | bump (c : Metric)
  | sum (c : Metric)
  | load
  deriving DecidableEq, Repr

namespace MetricsMemory

def total (m : MetricsMemory) (c : Metric) : ℕ := ((List.finRange shards).map fun shard => m.bumps shard c).sum

/-- `NEXT.fetch_add(1) % SHARDS`, at the first bump of a thread. -/
def shardIndex (m : MetricsMemory) : Option (Fin shards) → Fin shards × ℕ
  | some shard => (shard, m.next)
  | none => (⟨m.next % shards, Nat.mod_lt _ (by decide)⟩, m.next + 1)

def move (m : MetricsMemory) (thread : MetricsThread) : MetricsMove → Option (MetricsMemory × MetricsThread)
  | .bump c =>
    match thread.scrape with
    | .reading _ _ _ _ => none
    | scrape =>
      let (shard, next) := m.shardIndex thread.shard
      some
        (⟨m.metrics.bump shard c, next,
            fun shard' c' => m.bumps shard' c' + if shard' = shard ∧ c' = c then 1 else 0⟩,
          ⟨some shard, scrape⟩)
  | .sum c =>
    match thread.scrape with
    | .reading _ _ _ _ => none
    | _ => some (m, { thread with scrape := .reading c (m.total c) (List.finRange shards) 0 })
  | .load =>
    match thread.scrape with
    | .reading c began (shard :: left) acc =>
      some (m, { thread with scrape := .reading c began left (acc + m.metrics.count shard c) })
    | .reading c began [] acc => some (m, { thread with scrape := .read c began acc })
    | _ => none

end MetricsMemory

/-- Threads with new counters. -/
def startCounting (τ : Type) : Threads τ MetricsMemory MetricsThread :=
  ⟨⟨Metrics.zero, 0, fun _ _ => 0⟩, fun _ => ⟨none, .idle⟩⟩

/-! ## What a reader sees -/

def CountsBumps (m : MetricsMemory) : Prop := ∀ shard c, m.metrics.count shard c = UInt64.ofNat (m.bumps shard c)

def Scrape.Sees (m : MetricsMemory) : Scrape → Prop
  | .reading c began left acc => ∃ n, acc = UInt64.ofNat n ∧
      Reading (List.finRange shards) (fun shard => m.bumps shard c) began left n
  | _ => True

section Moves
variable {m m' : MetricsMemory} {thread thread' : MetricsThread}

/-- What a move does to the counters and to the thread's own reading. -/
inductive Counts (m : MetricsMemory) (scrape : Scrape) : MetricsMove → MetricsMemory → Scrape → Prop
  | bump {shard : Fin shards} {c : Metric} {next : ℕ} :
      Counts m scrape (.bump c) ⟨m.metrics.bump shard c, next,
        fun shard' c' => m.bumps shard' c' + if shard' = shard ∧ c' = c then 1 else 0⟩ scrape
  | sum {c : Metric} : Counts m scrape (.sum c) m (.reading c (m.total c) (List.finRange shards) 0)
  | load {c : Metric} {began : ℕ} {shard : Fin shards} {left : List (Fin shards)} {acc : UInt64} :
      scrape = .reading c began (shard :: left) acc →
      Counts m scrape .load m (.reading c began left (acc + m.metrics.count shard c))
  | finish {c : Metric} {began : ℕ} {acc : UInt64} : scrape = .reading c began [] acc →
      Counts m scrape .load m (.read c began acc)

theorem counts_of_move {a : MetricsMove} (h : m.move thread a = some (m', thread')) :
    Counts m thread.scrape a m' thread'.scrape := by
  cases a with
  | bump c =>
    simp only [MetricsMemory.move] at h
    split at h
    · cases h
    · obtain ⟨rfl, rfl⟩ := Prod.mk.inj (Option.some.inj h)
      exact .bump
  | sum c =>
    simp only [MetricsMemory.move] at h
    split at h
    · cases h
    · obtain ⟨rfl, rfl⟩ := Prod.mk.inj (Option.some.inj h)
      exact .sum
  | load =>
    simp only [MetricsMemory.move] at h
    split at h
    · rename_i hreading
      obtain ⟨rfl, rfl⟩ := Prod.mk.inj (Option.some.inj h)
      exact .load hreading
    · rename_i hreading
      obtain ⟨rfl, rfl⟩ := Prod.mk.inj (Option.some.inj h)
      exact .finish hreading
    · cases h

variable {a : MetricsMove} {scrape scrape' : Scrape}

theorem total_bump (m : MetricsMemory) (metrics : Metrics) (next : ℕ) (shard : Fin shards) (c c' : Metric) :
    MetricsMemory.total
        ⟨metrics, next, fun shard' c' => m.bumps shard' c' + if shard' = shard ∧ c' = c then 1 else 0⟩ c' =
      m.total c' + if c' = c then 1 else 0 := by
  simp only [MetricsMemory.total]
  by_cases hc : c' = c
  · simp only [hc, and_true, if_true]
    rw [sum_map_add_ite _ 1 (List.nodup_finRange shards), if_pos (List.mem_finRange shard)]
  · simp [hc]

theorem Counts.total (h : Counts m scrape a m' scrape') (c : Metric) :
    m'.total c = m.total c + if a == .bump c then 1 else 0 := by
  cases h with
  | @bump shard c' next =>
    rw [total_bump]
    by_cases hc : c = c'
    · simp [hc]
    · simp [hc, Ne.symm hc]
  | sum => simp
  | load _ => simp
  | finish _ => simp

theorem CountsBumps.move (h : CountsBumps m) (hcounts : Counts m scrape a m' scrape') : CountsBumps m' := by
  cases hcounts with
  | bump =>
    intro shard' c'
    dsimp only
    rw [Metrics.count_bump, h shard' c']
    split
    · rw [UInt64.ofNat_add]
      rfl
    · simp
  | _ => exact h

theorem Scrape.Sees.bump (h : scrape.Sees m) {shard : Fin shards} {c : Metric} {metrics : Metrics}
    {next : ℕ} : scrape.Sees
      ⟨metrics, next, fun shard' c' => m.bumps shard' c' + if shard' = shard ∧ c' = c then 1 else 0⟩ := by
  cases scrape with
  | reading c' began left acc =>
    obtain ⟨n, hacc, hreading⟩ := h
    refine ⟨n, hacc, ?_⟩
    by_cases hc : c' = c
    · simpa only [hc, and_true] using hreading.bump (List.nodup_finRange shards) (List.mem_finRange shard)
    · simpa only [hc, and_false, if_false, Nat.add_zero] using hreading
  | _ => trivial

theorem Scrape.Sees.move (hm : CountsBumps m) (h : scrape.Sees m)
    (hcounts : Counts m scrape a m' scrape') : scrape'.Sees m' := by
  cases hcounts with
  | bump => exact h.bump
  | sum => exact ⟨0, rfl, reading_begin (List.nodup_finRange shards)⟩
  | load hreading =>
    rw [hreading] at h
    obtain ⟨n, rfl, hsum⟩ := h
    refine ⟨_, ?_, hsum.load⟩
    rw [hm, UInt64.ofNat_add]
  | finish _ => trivial

theorem Scrape.Sees.other {other : Scrape} (h : other.Sees m) (hcounts : Counts m scrape a m' scrape') :
    other.Sees m' := by
  cases hcounts with
  | bump => exact h.bump
  | _ => exact h

end Moves

def isBump (c : Metric) {τ : Type} (a : τ × MetricsMove) : Bool := a.2 == .bump c

section Scraped
variable {τ : Type} {acts : List (τ × MetricsMove)}

/-- Where a thread has begun the scrape that it is at or has ended, and what it has read by its last load. -/
inductive Scraped (t : τ) (acts : List (τ × MetricsMove)) : Scrape → Prop
  | idle : Scraped t acts .idle
  | reading {before during : List (τ × MetricsMove)} {c : Metric} {began : ℕ} {left : List (Fin shards)}
      {acc : UInt64} :
      acts = before ++ (t, .sum c) :: during → (∀ c', (t, .sum c') ∉ during) → before.countP (isBump c) = began →
      Scraped t acts (.reading c began left acc)
  | read {before during after : List (τ × MetricsMove)} {c : Metric} {began n : ℕ} {value : UInt64} :
      acts = before ++ (t, .sum c) :: (during ++ (t, .load) :: after) → (∀ c', (t, .sum c') ∉ during ++ after) →
      (t, .load) ∉ after → before.countP (isBump c) = began → value = UInt64.ofNat n → began ≤ n →
      n ≤ (before ++ during).countP (isBump c) → Scraped t acts (.read c began value)

/-- A step that is no step of the scrape. -/
theorem Scraped.later {t : τ} {scrape : Scrape} (h : Scraped t acts scrape) {a : τ × MetricsMove}
    (hsum : ∀ c, a ≠ (t, .sum c)) (hload : a ≠ (t, .load)) : Scraped t (acts ++ [a]) scrape := by
  cases h with
  | idle => exact .idle
  | @reading before during c began left acc hacts hnone hbegan =>
    have hacts' : acts ++ [a] = before ++ (t, .sum c) :: (during ++ [a]) := by simp [hacts]
    refine .reading hacts' (fun c' hmem => ?_) hbegan
    obtain hmem | hmem := List.mem_append.mp hmem
    · exact hnone c' hmem
    · exact hsum c' (List.mem_singleton.mp hmem).symm
  | @read before during after c began n value hacts hnone hlast hbegan hvalue hlow hhigh =>
    have hacts' : acts ++ [a] = before ++ (t, .sum c) :: (during ++ (t, .load) :: (after ++ [a])) := by simp [hacts]
    refine .read hacts' (fun c' hmem => ?_) (fun hmem => ?_) hbegan hvalue hlow hhigh
    · rw [← List.append_assoc] at hmem
      obtain hmem | hmem := List.mem_append.mp hmem
      · exact hnone c' hmem
      · exact hsum c' (List.mem_singleton.mp hmem).symm
    · obtain hmem | hmem := List.mem_append.mp hmem
      · exact hlast hmem
      · exact hload (List.mem_singleton.mp hmem).symm

end Scraped

section Runs
variable {τ : Type} [DecidableEq τ] {acts : List (τ × MetricsMove)} {w : Threads τ MetricsMemory MetricsThread}

theorem total_of_run {w₀ : Threads τ MetricsMemory MetricsThread}
    (h : run (Threads.step MetricsMemory.move) w₀ acts = some w) (c : Metric) :
    w.memory.total c = w₀.memory.total c + acts.countP (isBump c) := by
  induction acts generalizing w₀ with
  | nil =>
    obtain rfl := Option.some.inj h
    rw [List.countP_nil, Nat.add_zero]
  | cons a acts ih =>
    obtain ⟨w₁, hstep, hrest⟩ := run_cons.mp h
    obtain ⟨m, thread, hmove, rfl⟩ := Threads.step_eq_some.mp hstep
    have htotal := (counts_of_move hmove).total c
    rw [ih hrest, List.countP_cons]
    by_cases hbump : (a.2 == .bump c) = true
    · simp only [isBump, hbump, if_true] at htotal ⊢
      omega
    · simp only [isBump, hbump] at htotal ⊢
      omega

theorem total_startCounting (τ : Type) (c : Metric) : (startCounting τ).memory.total c = 0 := by
  simp [MetricsMemory.total, startCounting]

/-- A step of the thread itself. -/
theorem Scraped.move {t : τ} {scrape scrape' : Scrape} {m : MetricsMemory} {a : MetricsMove}
    (hrun : run (Threads.step MetricsMemory.move) (startCounting τ) acts = some w) (h : Scraped t acts scrape)
    (hsees : scrape.Sees w.memory) (hcounts : Counts w.memory scrape a m scrape') :
    Scraped t (acts ++ [(t, a)]) scrape' := by
  have htotal : ∀ c, w.memory.total c = acts.countP (isBump c) := by
    intro c
    rw [total_of_run hrun, total_startCounting, Nat.zero_add]
  cases hcounts with
  | bump => exact h.later (by simp) (by simp)
  | sum => exact .reading rfl (by simp) (htotal _).symm
  | @load c _ _ _ _ hreading =>
    subst hreading
    cases h with
    | @reading before during _ _ _ _ hacts hnone hbegan =>
      have hacts' : acts ++ [(t, .load)] = before ++ (t, .sum c) :: (during ++ [(t, .load)]) := by simp [hacts]
      refine .reading hacts' (fun c' hmem => ?_) hbegan
      obtain hmem | hmem := List.mem_append.mp hmem
      · exact hnone c' hmem
      · simp at hmem
  | @finish c began acc hreading =>
    subst hreading
    obtain ⟨n, hacc, hread⟩ := hsees
    obtain ⟨hlow, hhigh⟩ := hread.finish
    cases h with
    | @reading before during _ _ _ _ hacts hnone hbegan =>
      have hacts' : acts ++ [(t, .load)] = before ++ (t, .sum c) :: (during ++ (t, .load) :: []) := by simp [hacts]
      refine .read hacts' (by simpa using hnone) (by simp) hbegan hacc hlow ?_
      have hcount : acts.countP (isBump c) = (before ++ during).countP (isBump c) := by
        rw [hacts, List.countP_append, List.countP_append, List.countP_cons_of_neg]
        simp [isBump]
      rw [← hcount, ← htotal]
      exact hhigh

end Runs

/-- Thread `false` reads the total while thread `true` counts on. -/
def sharedCounting : List (Bool × MetricsMove) :=
  [(true, .bump .total), (false, .sum .total), (false, .load), (true, .bump .total)] ++
    List.replicate 32 (false, .load)

section Shards
variable {τ : Type} [DecidableEq τ] {w w' : Threads τ MetricsMemory MetricsThread}

/-- The threads in the order of their first bump: each has its place modulo the number of shards. -/
structure InTurn (order : List τ) (w : Threads τ MetricsMemory MetricsThread) : Prop where
  nodup : order.Nodup
  next : w.memory.next = order.length
  place : ∀ t shard, (w.own t).shard = some shard → ∃ i, order[i]? = some t ∧ shard.val = i % shards
  known : ∀ t, t ∈ order → (w.own t).shard ≠ none

theorem InTurn.keep {order : List τ} (h : InTurn order w) {t : τ} {m : MetricsMemory} {thread : MetricsThread}
    (hnext : m.next = w.memory.next) (hshard : thread.shard = (w.own t).shard) :
    InTurn order ⟨m, update w.own t thread⟩ := by
  have hsame : ∀ u, (update w.own t thread u).shard = (w.own u).shard := by
    intro u
    by_cases hu : u = t
    · subst hu
      rw [update_self, hshard]
    · rw [update_of_ne hu]
  exact ⟨h.nodup, hnext.trans h.next, fun u shard hu => h.place u shard ((hsame u).symm.trans hu),
    fun u hu => (hsame u).symm ▸ h.known u hu⟩

/-- The first bump of a thread puts it behind the others. -/
theorem InTurn.first {order : List τ} (h : InTurn order w) {t : τ} {m : MetricsMemory} {scrape : Scrape}
    (hnone : (w.own t).shard = none) (hnext : m.next = w.memory.next + 1) :
    InTurn (order ++ [t])
      ⟨m, update w.own t ⟨some ⟨w.memory.next % shards, Nat.mod_lt _ (by decide)⟩, scrape⟩⟩ := by
  have hnew : t ∉ order := fun ht => h.known t ht hnone
  refine ⟨?_, ?_, ?_, ?_⟩
  · rw [List.nodup_append]
    refine ⟨h.nodup, List.nodup_singleton t, ?_⟩
    rintro u hu v hv rfl
    exact hnew (List.mem_singleton.mp hv ▸ hu)
  · rw [List.length_append, List.length_singleton, ← h.next]
    exact hnext
  · intro u shard hu
    dsimp only at hu
    by_cases hut : u = t
    · subst hut
      rw [update_self] at hu
      obtain rfl := Option.some.inj hu
      exact ⟨order.length, by simp, by rw [h.next]⟩
    · rw [update_of_ne hut] at hu
      obtain ⟨i, hi, hplace⟩ := h.place u shard hu
      refine ⟨i, ?_, hplace⟩
      rw [List.getElem?_append_left (List.getElem?_eq_some_iff.mp hi).1]
      exact hi
  · intro u hu
    dsimp only
    by_cases hut : u = t
    · subst hut
      simp
    · rw [update_of_ne hut]
      refine h.known u ?_
      simpa [hut] using hu

theorem InTurn.step {order : List τ} {a : τ × MetricsMove} (h : InTurn order w)
    (hstep : Threads.step MetricsMemory.move w a = some w') : ∃ order', InTurn order' w' := by
  obtain ⟨t, a⟩ := a
  obtain ⟨m, thread, hmove, rfl⟩ := Threads.step_eq_some.mp hstep
  cases a with
  | bump c =>
    simp only [MetricsMemory.move] at hmove
    split at hmove
    · cases hmove
    · cases hshard : (w.own t).shard with
      | some shard =>
        obtain ⟨rfl, rfl⟩ := Prod.mk.inj (Option.some.inj hmove)
        rw [hshard]
        exact ⟨order, h.keep rfl (by rw [hshard]; rfl)⟩
      | none =>
        obtain ⟨rfl, rfl⟩ := Prod.mk.inj (Option.some.inj hmove)
        rw [hshard]
        exact ⟨_, h.first hshard rfl⟩
  | sum c =>
    simp only [MetricsMemory.move] at hmove
    split at hmove
    · cases hmove
    · obtain ⟨rfl, rfl⟩ := Prod.mk.inj (Option.some.inj hmove)
      exact ⟨order, h.keep rfl rfl⟩
  | load =>
    simp only [MetricsMemory.move] at hmove
    split at hmove
    · obtain ⟨rfl, rfl⟩ := Prod.mk.inj (Option.some.inj hmove)
      exact ⟨order, h.keep rfl rfl⟩
    · obtain ⟨rfl, rfl⟩ := Prod.mk.inj (Option.some.inj hmove)
      exact ⟨order, h.keep rfl rfl⟩
    · cases hmove

/-- **No two of up to 32 threads ever count in the same shard.** -/
theorem shards_apart [Fintype τ] (acts : List (τ × MetricsMove))
    (h : run (Threads.step MetricsMemory.move) (startCounting τ) acts = some w) (hfew : Fintype.card τ ≤ shards)
    (t u : τ) (shard : Fin shards) (ht : (w.own t).shard = some shard) (hu : (w.own u).shard = some shard) : t = u := by
  have hstart : InTurn ([] : List τ) (startCounting τ) :=
    ⟨List.nodup_nil, rfl, fun _ _ h => (by cases h), fun _ h => (by cases h)⟩
  have hkeep : ∀ v a v', (∃ order : List τ, InTurn order v) → Threads.step MetricsMemory.move v a = some v' →
      ∃ order, InTurn order v' := fun _ _ _ hs hstep => hs.elim fun _ hs => hs.step hstep
  obtain ⟨order, hturn⟩ := run_preserves hkeep ⟨[], hstart⟩ h
  have hlen : order.length ≤ shards := hturn.nodup.length_le_card.trans hfew
  obtain ⟨i, hi, hti⟩ := hturn.place t shard ht
  obtain ⟨j, hj, huj⟩ := hturn.place u shard hu
  have hilt := (List.getElem?_eq_some_iff.mp hi).1
  have hjlt := (List.getElem?_eq_some_iff.mp hj).1
  rw [Nat.mod_eq_of_lt (by omega)] at hti huj
  obtain rfl : i = j := hti.symm.trans huj
  exact Option.some.inj (hi.symm.trans hj)

end Shards

theorem shards_apart_shared : ∃ w shard,
    run (Threads.step MetricsMemory.move) (startCounting Bool) sharedCounting = some w ∧ (w.own true).shard = some shard ∧
      ∀ u, (w.own u).shard = some shard → true = u := by
  have hrun : ((run (Threads.step MetricsMemory.move) (startCounting Bool) sharedCounting).bind fun w =>
      (w.own true).shard).isSome = true := by
    decide
  obtain ⟨shard, hshard⟩ := Option.isSome_iff_exists.mp hrun
  obtain ⟨w, hw, hshard⟩ := Option.bind_eq_some_iff.mp hshard
  exact ⟨w, shard, hw, hshard, fun u hu => shards_apart sharedCounting hw (by decide) true u shard hshard hu⟩

/-! ## Exposition -/

def decimal (value : UInt64) : Text := Nat.toDigits 10 value.toNat

def exposition : List (Metric × Text × Text) :=
  [(.total, "mini_dns_queries_total".toList, "Total queries received".toList),
    (.authoritative, "mini_dns_authoritative_total".toList, "Queries answered from the local zone".toList),
    (.cacheHits, "mini_dns_cache_hits_total".toList, "Queries answered from the cache".toList),
    (.forwarded, "mini_dns_forwarded_total".toList, "Queries forwarded upstream".toList),
    (.coalesced, "mini_dns_coalesced_total".toList, "Queries coalesced by single-flight".toList),
    (.rateLimited, "mini_dns_rate_limited_total".toList, "Queries dropped by the rate limiter".toList),
    (.blocked, "mini_dns_blocked_total".toList, "Queries blocked by the blocklist".toList),
    (.errors, "mini_dns_errors_total".toList, "Packets that failed to parse or forward".toList)]

def comments (name help : Text) : Text :=
  "# HELP ".toList ++ name ++ " ".toList ++ help ++ "\n# TYPE ".toList ++ name ++ " counter\n".toList

def exposed (name help : Text) (value : UInt64) : Text :=
  comments name help ++ (name ++ ' ' :: (decimal value ++ ['\n']))

def Metrics.prometheus (m : Metrics) : Text :=
  exposition.flatMap fun line => exposed line.2.1 line.2.2 (m.sum line.1)

theorem decimal_injective : Injective decimal := by
  intro a b h
  have hdigits := congrArg (fun digits => Nat.ofDigitChars 10 digits 0) h
  simp only [decimal, Nat.ofDigitChars_toDigits (by decide : 1 < 10) (by decide)] at hdigits
  exact UInt64.toNat_inj.mp hdigits

theorem newline_notMem_decimal (value : UInt64) : '\n' ∉ decimal value := by
  intro h
  have hdigit := Nat.isDigit_of_mem_toDigits (by decide) (by decide) h
  exact absurd hdigit (by decide)

theorem line_inj {l l' rest rest' : Text} (hl : '\n' ∉ l) (hl' : '\n' ∉ l')
    (h : l ++ '\n' :: rest = l' ++ '\n' :: rest') :
    l = l' ∧ rest = rest' := by
  induction l generalizing l' with
  | nil =>
    cases l' with
    | nil => exact ⟨rfl, (List.cons.inj h).2⟩
    | cons c l' => exact absurd (List.cons.inj h).1 (List.ne_of_not_mem_cons hl')
  | cons c l ih =>
    cases l' with
    | nil => exact absurd (List.cons.inj h).1.symm (List.ne_of_not_mem_cons hl)
    | cons c' l' =>
      obtain ⟨rfl, hrest⟩ := List.cons.inj h
      obtain ⟨rfl, rfl⟩ := ih (List.not_mem_of_not_mem_cons hl) (List.not_mem_of_not_mem_cons hl') hrest
      exact ⟨rfl, rfl⟩

/-- A value ends at the end of its line. -/
theorem exposed_append_inj {name help rest rest' : Text} {a b : UInt64}
    (h : exposed name help a ++ rest = exposed name help b ++ rest') : a = b ∧ rest = rest' := by
  simp only [exposed, List.append_assoc, List.cons_append, List.nil_append, List.append_cancel_left_eq,
    List.cons.injEq, true_and] at h
  obtain ⟨hvalue, hrest⟩ := line_inj (newline_notMem_decimal a) (newline_notMem_decimal b) h
  exact ⟨decimal_injective hvalue, hrest⟩

theorem sum_eq_of_exposed {m m' : Metrics} {lines : List (Metric × Text × Text)}
    (h : (lines.flatMap fun line => exposed line.2.1 line.2.2 (m.sum line.1)) =
      lines.flatMap fun line => exposed line.2.1 line.2.2 (m'.sum line.1)) :
    ∀ line ∈ lines, m.sum line.1 = m'.sum line.1 := by
  induction lines with
  | nil => simp
  | cons line lines ih =>
    rw [List.flatMap_cons, List.flatMap_cons] at h
    obtain ⟨hvalue, hrest⟩ := exposed_append_inj h
    exact List.forall_mem_cons.mpr ⟨hvalue, ih hrest⟩

theorem exists_exposed (c : Metric) : ∃ line ∈ exposition, line.1 = c := by
  cases c <;> simp [exposition]

/-- **The exposition says what every counter was.** -/
theorem prometheus_eq_iff (m m' : Metrics) : m.prometheus = m'.prometheus ↔ ∀ c, m.sum c = m'.sum c := by
  constructor
  · intro h c
    obtain ⟨line, hline, rfl⟩ := exists_exposed c
    exact sum_eq_of_exposed h line hline
  · intro h
    simp only [Metrics.prometheus, h]

end MiniDns
