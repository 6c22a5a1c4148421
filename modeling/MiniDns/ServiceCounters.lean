import MiniDns.Lib.Tally
import MiniDns.Service

/-! The counters against the calls. Every counter is the number of calls that have taken a way that is filed
under it, in every interleaving. -/
namespace MiniDns
open Lib Lib.Outcome Dns DnsPacket Function
set_option autoImplicit false

/-! ## The books -/

/-- The counters that a call in the role has been counted by. -/
def Role.ledger : Role → List Metric
  | .queued | .orphaned => [.total]
  | .leading => [.total, .forwarded]
  | .answered result _ => [.total, .forwarded] ++ if result.isNone then [.errors] else []
  | .following => [.total, .coalesced]

def Path.ledger : Path → List Metric
  | .transferred | .own => [.total, .authoritative]
  | .refused | .garbled => [.total, .errors]
  | .unknownZone | .crashed => [.total]
  | .unread => []
  | .limited => [.total, .rateLimited]
  | .blocked => [.total, .blocked]
  | .cached => [.total, .cacheHits]
  | .flown role => role.ledger

def QueryPhase.ledger : QueryPhase → List Metric
  | .start | .entered => []
  | .admitted _ | .listed _ _ | .screened _ | .looking _ _ _ _ => [.total]
  | .flying role => role.ledger
  | .ended path _ => path.ledger

def QueryPhase.filed (c : Metric) (phase : QueryPhase) : Bool := phase.ledger.contains c

namespace Service
variable {rt : Runtime} {toml : Text → Option Settings} {queries : TaskId → Query} {w w₁ w' : Service} {t : TaskId}
  {shard : Fin shards} {move : CallMove} {cs : List Metric} {phase : QueryPhase}

theorem nodup_ledger (phase : QueryPhase) : phase.ledger.Nodup := by
  have hrole : ∀ role : Role, role.ledger.Nodup := by
    intro role
    cases role with
    | answered result op => cases result <;> simp [Role.ledger]
    | _ => simp [Role.ledger]
  cases phase with
  | flying role => exact hrole role
  | ended path reply =>
    cases path with
    | flown role => exact hrole role
    | _ => simp [QueryPhase.ledger, Path.ledger]
  | _ => simp [QueryPhase.ledger]

/-- A step bumps the counters that it adds to the books. -/
theorem Does.ledger (h : Does rt queries w t move w₁ cs phase) : phase.ledger = (w.phase t).ledger ++ cs := by
  cases h with
  | @transfer _ path hphase _ _ hpath =>
    rw [hphase, hpath, ServerState.transferPath]
    repeat' split
    all_goals rfl
  | enter hphase _ => rw [hphase]; rfl
  | unread hphase _ => rw [hphase]; rfl
  | limit hphase => rw [hphase]; rfl
  | garble hphase => rw [hphase]; rfl
  | crash hphase _ => rw [hphase]; rfl
  | accept hphase _ => rw [hphase]; rfl
  | list hphase _ => rw [hphase]; rfl
  | clear hphase _ => rw [hphase]; rfl
  | block hphase _ => rw [hphase]; rfl
  | unlist hphase _ => rw [hphase]; rfl
  | own hphase _ _ => rw [hphase]; rfl
  | fail hphase _ => rw [hphase]; rfl
  | seek hphase _ _ _ _ => rw [hphase]; rfl
  | look hphase _ => rw [hphase]; rfl
  | hit hphase => rw [hphase]; rfl
  | queue hphase _ => rw [hphase]; rfl
  | alone hphase _ => rw [hphase]; rfl
  | join hphase _ => rw [hphase]; rfl
  | lead hphase _ _ => rw [hphase]; rfl
  | orphan hphase _ _ => rw [hphase]; rfl
  | complete hphase _ _ => rw [hphase]; rfl
  | abort hphase _ => rw [hphase]; rfl
  | misread hphase _ _ _ => rw [hphase]; rfl
  | store hphase _ => rw [hphase]; exact (List.append_nil _).symm
  | fly hphase _ _ => rw [hphase]; exact (List.append_nil _).symm
  | reply hphase _ => rw [hphase]; exact (List.append_nil _).symm

theorem sum_bumps (m : Metrics) (shard : Fin shards) (cs : List Metric) (c : Metric) :
    (bumps m shard cs).sum c = m.sum c + UInt64.ofNat (cs.count c) := by
  induction cs generalizing m with
  | nil => simp [bumps]
  | cons c' cs ih =>
    rw [show bumps m shard (c' :: cs) = bumps (m.bump shard c') shard cs from rfl, ih, Metrics.sum_bump, List.count_cons]
    by_cases hc : c = c'
    · subst hc
      simp only [if_true, beq_self_eq_true, UInt64.ofNat_add]
      rw [add_assoc, add_comm 1]
      rfl
    · simp [hc, Ne.symm hc]

theorem Does.metrics (h : Does rt queries w t move w₁ cs phase) : w₁.metrics = w.metrics := by
  cases h <;> rfl

/-- The counter is the number of calls that are filed under it. -/
def Exact (c : Metric) (w : Service) : Prop :=
  ∃ n : ℕ, tally (QueryPhase.filed c) w.phase = n ∧ w.metrics.sum c = UInt64.ofNat n

theorem Exact.step {c : Metric} (h : Exact c w) (hdoes : Does rt queries w t move w₁ cs phase) :
    Exact c (w₁.goto t shard cs phase) := by
  obtain ⟨n, htally, hsum⟩ := h
  have hnodup := nodup_ledger phase
  rw [hdoes.ledger] at hnodup
  obtain ⟨_, hcs, hdisjoint⟩ := List.nodup_append.mp hnodup
  have hnew : phase.filed c = ((w.phase t).filed c || cs.contains c) := by
    rw [QueryPhase.filed, hdoes.ledger, List.contains_append, QueryPhase.filed]
  rw [Exact, show (w₁.goto t shard cs phase).phase = update w₁.phase t phase from rfl, hdoes.phase,
    show (w₁.goto t shard cs phase).metrics = bumps w₁.metrics shard cs from rfl, hdoes.metrics, sum_bumps, hsum]
  by_cases hc : c ∈ cs
  · have hold : (w.phase t).filed c = false := by
      rw [QueryPhase.filed, List.contains_eq_mem, decide_eq_false_iff_not]
      exact fun hmem => hdisjoint c hmem c hc rfl
    refine ⟨n + 1, ?_, ?_⟩
    · rw [tally_enter hold (by simp [hnew, hc]), htally]
      rfl
    · rw [List.count_eq_one_of_mem hcs hc, UInt64.ofNat_add]
  · refine ⟨n, ?_, by simp [List.count_eq_zero_of_not_mem hc]⟩
    rw [tally_stay (by simp [hnew, hc]), htally]

theorem exact_of_run {r : Running} {acts : List ServiceAction} (c : Metric)
    (h : run (Service.step rt toml queries) (init r) acts = some w) : Exact c w := by
  have hkeep : ∀ v a v', Exact c v → Service.step rt toml queries v a = some v' → Exact c v' := by
    intro v a v' hv hstep
    obtain ⟨t, shard, move, w₁, cs, phase, _, hdoes, rfl⟩ | ⟨_, _, _, _, hmetrics, hphase⟩ := step_cases hstep
    · exact hv.step hdoes
    · rwa [Exact, hmetrics, hphase]
  refine run_preserves hkeep ⟨0, tally_eq_zero fun _ => rfl, ?_⟩ h
  simp [init, Metrics.sum, Metrics.zero]

/-! ## Ways that exclude each other -/

/-- The counters of which a call is counted by one at most. -/
def ways : List Metric := [.authoritative, .cacheHits, .forwarded, .coalesced, .rateLimited, .blocked]

/-- A call is counted once in all, and behind that by one of the ways at most. -/
theorem ledger_cases (phase : QueryPhase) : phase.ledger = [] ∨ ∃ cs, phase.ledger = .total :: cs ∧
    (cs = [] ∨ ∃ c, cs = [c] ∨ c = .forwarded ∧ cs = [c, .errors]) := by
  have hrole : ∀ role : Role, ∃ cs, role.ledger = .total :: cs ∧
      (cs = [] ∨ ∃ c, cs = [c] ∨ c = .forwarded ∧ cs = [c, .errors]) := by
    intro role
    cases role with
    | answered result op => cases result <;> simp [Role.ledger]
    | _ => simp [Role.ledger]
  cases phase with
  | flying role => exact .inr (hrole role)
  | ended path reply =>
    cases path with
    | flown role => exact .inr (hrole role)
    | _ => simp [QueryPhase.ledger, Path.ledger]
  | _ => simp [QueryPhase.ledger]

theorem ways_exclusive :
    ways.Pairwise fun c c' => ∀ phase : QueryPhase, phase.filed c = true → phase.filed c' = false := by
  refine List.Pairwise.imp_of_mem (R := (· ≠ ·)) (fun {c c'} hc hc' hne phase hfiled => ?_) (by decide)
  have hway : ∀ c ∈ ways, c ≠ .total ∧ c ≠ .errors := by decide
  obtain ⟨htotal, herrors⟩ := hway c hc
  obtain ⟨htotal', herrors'⟩ := hway c' hc'
  rw [QueryPhase.filed, List.contains_iff_mem] at hfiled
  rw [QueryPhase.filed, List.contains_eq_mem, decide_eq_false_iff_not]
  intro hfiled'
  -- both are the one counter behind the total
  obtain hnil | ⟨cs, hcs, rfl | ⟨d, rfl | ⟨rfl, rfl⟩⟩⟩ := ledger_cases phase
  · rw [hnil] at hfiled
    cases hfiled
  · rw [hcs] at hfiled
    exact htotal (List.mem_singleton.mp hfiled)
  · simp only [hcs, List.mem_cons, List.not_mem_nil, or_false, htotal, htotal', false_or] at hfiled hfiled'
    exact hne (hfiled.trans hfiled'.symm)
  · simp only [hcs, List.mem_cons, List.not_mem_nil, or_false, htotal, htotal', herrors, herrors',
      false_or] at hfiled hfiled'
    exact hne (hfiled.trans hfiled'.symm)

theorem filed_total {c : Metric} {phase : QueryPhase} (h : phase.filed c = true) : phase.filed .total = true := by
  obtain hnil | ⟨cs, hcs, _⟩ := ledger_cases phase
  · rw [QueryPhase.filed, hnil] at h
    cases h
  · rw [QueryPhase.filed, hcs]
    rfl

/-- **Every counter is the number of calls that have taken a way that is filed under it**, modulo `2^64`, and
no call is filed under two of the ways. -/
theorem counters_exact (rt : Runtime) (toml : Text → Option Settings) (queries : TaskId → Query) (r : Running)
    (acts : List ServiceAction) (w : Service) (h : run (step rt toml queries) (init r) acts = some w) :
    ∃ n : Metric → ℕ,
      (∀ c, tally (QueryPhase.filed c) w.phase = n c ∧ w.metrics.sum c = UInt64.ofNat (n c)) ∧
        (ways.Pairwise fun c c' => ∀ t, (w.phase t).filed c = true → (w.phase t).filed c' = false) ∧
        (ways.map n).sum ≤ n .total := by
  choose n htally hsum using fun c => exact_of_run c h
  refine ⟨n, fun c => ⟨htally c, hsum c⟩, ways_exclusive.imp fun hexcl t => hexcl (w.phase t), ?_⟩
  have hways : ((ways.map n).sum : ℕ∞) = (ways.map fun c => tally (QueryPhase.filed c) w.phase).sum := by
    simp [htally, ways]
  rw [← Nat.cast_le (α := ℕ∞), hways, sum_tally ways_exclusive, ← htally]
  refine tally_le_tally (fun phase hany => ?_) _
  obtain ⟨c, _, hfiled⟩ := List.any_eq_true.mp hany
  exact filed_total hfiled

theorem counters_exact_letter : ∃ w, run (step .ascii (fun _ => none) letterQueries) (init letterServer)
      (entering 1 ++ joining) = some w ∧
    ∃ n : Metric → ℕ,
      (∀ c, tally (QueryPhase.filed c) w.phase = n c ∧ w.metrics.sum c = UInt64.ofNat (n c)) ∧
        (ways.Pairwise fun c c' => ∀ t, (w.phase t).filed c = true → (w.phase t).filed c' = false) ∧
        (ways.map n).sum ≤ n .total := by
  obtain ⟨w, hrun, _⟩ := run_joining
  exact ⟨w, hrun, counters_exact .ascii (fun _ => none) letterQueries letterServer _ w hrun⟩

end Service
end MiniDns
