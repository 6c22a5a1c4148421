import MiniDns.Lib.Ranking
import MiniDns.ServiceCrashes

/-! Every call comes to an end. A call takes a bounded number of steps, whatever other calls do between
them, and it is never left without a step that it or the call that it follows can take. -/
namespace MiniDns
open Lib Lib.Outcome Dns DnsPacket Function
set_option autoImplicit false

/-! ## Ranks -/

namespace CacheOp

/-- The most operations that are left of a call of the cache. -/
def rank : CacheOp → ℕ
  | .checking _ => 7
  | .measuring _ => 6
  | .sweeping _ => 5
  | .remeasuring _ => 4
  | .choosing _ => 3
  | .evicting _ _ | .looking _ => 2
  | .storing _ | .removing _ _ => 1
  | .idle | .found _ _ _ | .stored => 0

theorem rank_le (op : CacheOp) : op.rank ≤ 7 := by
  cases op <;> simp [rank]

variable {rt : Runtime} {now : Instant} {order : Order} {m m' : CacheMemory} {op op' : CacheOp}

theorem rank_lt_of_go (h : m.go rt now order op = some (m', op')) : op'.rank < op.rank := by
  cases op with
  | _ =>
    simp only [CacheMemory.go] at h
    repeat' split at h
    all_goals first
      | (obtain ⟨_, rfl⟩ := Prod.mk.inj (Option.some.inj h)
         simp [rank])
      | cases h

theorem go_of_not_ended (rt : Runtime) (now : Instant) (order : Order) (m : CacheMemory) (h : ¬ op.ended) :
    ∃ m' op', m.go rt now order op = some (m', op') := by
  cases op with
  | idle => exact absurd rfl h
  | found _ _ _ => exact absurd rfl h
  | stored => exact absurd rfl h
  | _ =>
    simp only [CacheMemory.go]
    repeat' split
    all_goals exact ⟨_, _, rfl⟩

end CacheOp

/-- The most steps that are left of a call in the single-flight map. -/
def Phase.rank : Phase → ℕ
  | .start => 7
  | .asking => 6
  | .fetched _ => 5
  | .published _ => 4
  | .unwinding => 3
  | .closing _ | .waiting _ => 2
  | .led _ | .followed _ _ => 1
  | .cancelled => 0

theorem Phase.rank_le (p : Phase) : p.rank ≤ 7 := by
  cases p <;> simp [rank]

theorem Flies.rank_lt {move : CallMove} {p p' : Phase} (h : Flies move p p') : p'.rank < p.rank := by
  cases h <;> simp [Phase.rank]

theorem Flights.rank_lt_of_step {rt : Runtime} {calls : TaskId → ForwardCtx} {w w' : Flights} {a : FlightAction}
    (h : step rt calls w a = some w') : (w'.phase a.task).rank < (w.phase a.task).rank := by
  have hfly : ∀ move : CallMove, move.flight a.task = some a →
      (w'.phase a.task).rank < (w.phase a.task).rank := fun move ha => (flies_of_step ha h).rank_lt
  cases a with
  | enter t =>
    obtain ⟨hold, hnew | ⟨leader, hnew⟩⟩ := enter_of_step h <;> simp [FlightAction.task, hold, hnew, Phase.rank]
  | complete t st answeredAt result =>
    obtain ⟨hold, ⟨hnew, _⟩ | ⟨raw, st', hnew, _⟩⟩ := complete_of_step h <;>
      simp [FlightAction.task, hold, hnew, Phase.rank]
  | publish t => exact hfly .publish rfl
  | dropGuard t => exact hfly .dropGuard rfl
  | dropSender t => exact hfly .dropSender rfl
  | cancel t => exact hfly .cancel rfl
  | wake t => exact hfly .wake rfl

def Role.rank : Role → ℕ
  | .queued => 9
  | .leading | .orphaned => 8
  | .answered _ op => op.rank
  | .following => 0

/-- The most steps that are left of a call, with its phase in the single-flight map. -/
def QueryPhase.rank (p : Phase) : QueryPhase → ℕ
  | .start => 25
  | .entered => 24
  | .admitted _ => 23
  | .listed _ _ => 22
  | .screened _ => 21
  | .looking _ _ _ op => 18 + op.rank
  | .flying role => 1 + role.rank + p.rank
  | .ended _ _ => 0

theorem QueryPhase.rank_le (p : Phase) (phase : QueryPhase) : phase.rank p ≤ 25 := by
  have hp := p.rank_le
  cases phase with
  | looking _ _ _ op =>
    have hop := op.rank_le
    simp only [QueryPhase.rank]
    omega
  | flying role =>
    simp only [QueryPhase.rank]
    cases role with
    | answered _ op =>
      have hop := op.rank_le
      simp only [Role.rank]
      omega
    | _ =>
      simp only [Role.rank]
      omega
  | _ => simp [QueryPhase.rank]

namespace Service

def rank (w : Service) (t : TaskId) : ℕ := (w.phase t).rank (w.flights.phase t)

section Rank
variable {rt : Runtime} {toml : Text → Option Settings} {queries : TaskId → Query} {w w₁ w' : Service} {t : TaskId}
  {a : ServiceAction} {move : CallMove} {cs : List Metric} {phase : QueryPhase}

/-- A step in the map lowers the rank of a call whose role does not gain any. -/
theorem rank_lt_of_flight {role role' : Role} {flight : FlightAction} {flights : Flights}
    (hphase : w.phase t = .flying role) (hstep : w.flights.step rt (contexts rt w.state queries) flight = some flights)
    (htask : flight.task = t) (hrole : role'.rank ≤ role.rank) :
    (QueryPhase.flying role').rank (flights.phase t) < (w.phase t).rank (w.flights.phase t) := by
  have hlt := Flights.rank_lt_of_step hstep
  rw [htask] at hlt
  rw [hphase]
  simp only [QueryPhase.rank]
  omega

/-- A step of a call lowers its rank. -/
theorem Does.rank (h : Does rt queries w t move w₁ cs phase) :
    phase.rank (w₁.flights.phase t) < (w.phase t).rank (w.flights.phase t) := by
  have hmost := (w.flights.phase t).rank_le
  cases h with
  | transfer hphase => rw [hphase]; exact Nat.succ_pos 24
  | enter hphase => rw [hphase]; exact Nat.lt_succ_self 24
  | unread hphase => rw [hphase]; exact Nat.succ_pos 24
  | limit hphase => rw [hphase]; exact Nat.succ_pos 23
  | garble hphase => rw [hphase]; exact Nat.succ_pos 23
  | crash hphase => rw [hphase]; exact Nat.succ_pos 23
  | accept hphase => rw [hphase]; exact Nat.lt_succ_self 23
  | list hphase => rw [hphase]; exact Nat.lt_succ_self 22
  | clear hphase => rw [hphase]; exact Nat.lt_add_of_pos_right (Nat.succ_pos 1)
  | block hphase => rw [hphase]; exact Nat.succ_pos 21
  | unlist hphase => rw [hphase]; exact Nat.lt_succ_self 21
  | own hphase => rw [hphase]; exact Nat.succ_pos 20
  | fail hphase => rw [hphase]; exact Nat.succ_pos 20
  | seek hphase _ _ _ hc => rw [hphase, hc]; exact Nat.lt_succ_self 20
  | look hphase hgo =>
    rw [hphase]
    exact Nat.add_lt_add_left (CacheOp.rank_lt_of_go hgo) 18
  | hit hphase => rw [hphase]; exact Nat.succ_pos 17
  | queue hphase =>
    rw [hphase]
    simp only [QueryPhase.rank, Role.rank, CacheOp.rank]
    omega
  | alone hphase => rw [hphase]; exact Nat.succ_pos 17
  | join hphase hstep => exact rank_lt_of_flight hphase hstep rfl (Nat.zero_le _)
  | lead hphase hstep => exact rank_lt_of_flight hphase hstep rfl (Nat.le_succ 8)
  | orphan hphase hstep => exact rank_lt_of_flight hphase hstep rfl (Nat.le_succ 8)
  | @complete _ _ _ call hphase hstep =>
    exact rank_lt_of_flight hphase hstep rfl ((firstOp rt call).rank_le.trans (Nat.le_succ 7))
  | abort hphase hstep => exact rank_lt_of_flight hphase hstep rfl le_rfl
  | misread hphase hstep => exact rank_lt_of_flight hphase hstep rfl le_rfl
  | store hphase hgo =>
    have hlt := CacheOp.rank_lt_of_go hgo
    rw [hphase]
    simp only [QueryPhase.rank, Role.rank]
    omega
  | fly hphase hstep ha => exact rank_lt_of_flight hphase hstep (CallMove.task_of_flight ha) le_rfl
  | reply hphase =>
    rw [hphase]
    simp only [QueryPhase.rank]
    omega

/-- The rank of a call falls with its own steps, and only with those. -/
theorem rank_step (h : step rt toml queries w a = some w') (t : TaskId) :
    (∃ shard move, a = .call t shard move ∧ w'.rank t < w.rank t) ∨
      (∀ shard move, a ≠ .call t shard move) ∧ w'.rank t = w.rank t := by
  obtain ⟨t', shard, move, w₁, cs, phase, rfl, hdoes, rfl⟩ | ⟨ha, _, _, hflights, _, hphase⟩ := step_cases h
  · by_cases ht : t = t'
    · subst ht
      refine .inl ⟨shard, move, rfl, ?_⟩
      have hrank := hdoes.rank
      rw [rank, rank, show (w₁.goto t shard cs phase).phase t = phase from update_self ..]
      exact hrank
    · refine .inr ⟨fun _ _ heq => ht (ServiceAction.call.inj heq).1.symm, ?_⟩
      rw [rank, rank, show (w₁.goto t' shard cs phase).phase t = w₁.phase t from update_of_ne ht .., hdoes.phase]
      rw [show (w₁.goto t' shard cs phase).flights = w₁.flights from rfl, hdoes.flights_other ht]
  · refine .inr ⟨ha t, ?_⟩
    rw [rank, rank, hflights, hphase]

end Rank

/-! ## What a call is in the map -/

/-- The phases in the single-flight map that a call can be in. -/
def Fits (p : Phase) : QueryPhase → Prop
  | .flying .queued => p = .start ∨ p = .cancelled
  | .flying .leading | .flying .orphaned => p = .asking ∨ p.torn
  | .flying (.answered _ _) => (∃ raw, p.raw = some raw) ∨ p.torn
  | .flying .following =>
      (∃ leader, p = .waiting leader) ∨ (∃ leader shared, p = .followed leader shared) ∨ p = .cancelled
  | .ended _ _ => p = .start ∨ p.ended
  | _ => p = .start

section Fits
variable {rt : Runtime} {toml : Text → Option Settings} {queries : TaskId → Query} {r : Running} {w w₁ w' : Service}
  {t : TaskId} {acts : List ServiceAction} {move : CallMove} {cs : List Metric} {phase : QueryPhase}

theorem torn_of_torn {p p' : Phase} (h : p.torn) (hflies : Flies move p p') : p'.torn := by
  cases hflies with
  | unwind => rfl
  | tearDown => rfl
  | _ => cases h

theorem Fits.flies {p p' : Phase} {role : Role} (h : Fits p (.flying role)) (hflies : Flies move p p') :
    Fits p' (.flying role) := by
  cases role with
  | queued =>
    obtain rfl | rfl := h
    · cases hflies with
      | cancelEarly => exact .inr rfl
    · cases hflies
  | following =>
    obtain ⟨leader, rfl⟩ | ⟨leader, shared, rfl⟩ | rfl := h
    · cases hflies with
      | cancelFollower => exact .inr (.inr rfl)
      | wake => exact .inr (.inl ⟨_, _, rfl⟩)
    · cases hflies
    · cases hflies
  | answered result op =>
    obtain ⟨raw, hraw⟩ | htorn := h
    · cases hflies with
      | publish => exact .inl ⟨_, rfl⟩
      | dropGuard => exact .inl ⟨_, rfl⟩
      | leave => exact .inl ⟨_, rfl⟩
      | _ => cases hraw
    · exact .inr (torn_of_torn htorn hflies)
  | _ =>
    obtain rfl | htorn := h
    · cases hflies with
      | cancelLeader => exact .inr rfl
    · exact .inr (torn_of_torn htorn hflies)

/-- A step of a call leaves it in a phase that fits. That a call without a resolver has no bytes is known. -/
theorem Does.fits (h : Does rt queries w t move w₁ cs phase) (hfits : Fits (w.flights.phase t) (w.phase t))
    (horphan : phase = .flying .orphaned → (w₁.flights.phase t).raw = none) : Fits (w₁.flights.phase t) phase := by
  have hstart : ∀ {p : QueryPhase}, w.phase t = p → (Fits (w.flights.phase t) p → w.flights.phase t = .start) →
      w.flights.phase t = .start := fun hp himp => himp (hp ▸ hfits)
  cases h with
  | transfer hphase => exact .inl (hstart hphase id)
  | enter hphase => exact hstart hphase id
  | unread hphase => exact .inl (hstart hphase id)
  | limit hphase => exact .inl (hstart hphase id)
  | garble hphase => exact .inl (hstart hphase id)
  | crash hphase => exact .inl (hstart hphase id)
  | accept hphase => exact hstart hphase id
  | list hphase => exact hstart hphase id
  | clear hphase => exact hstart hphase id
  | block hphase => exact .inl (hstart hphase id)
  | unlist hphase => exact hstart hphase id
  | own hphase => exact .inl (hstart hphase id)
  | fail hphase => exact .inl (hstart hphase id)
  | seek hphase => exact hstart hphase id
  | look hphase => exact hstart hphase id
  | hit hphase => exact .inl (hstart hphase id)
  | queue hphase => exact .inl (hstart hphase id)
  | alone hphase => exact .inl (hstart hphase id)
  | join _ _ hjoined => exact .inl ⟨_, hjoined⟩
  | lead _ hstep _ hleads =>
    obtain ⟨_, hasking | ⟨leader, hwaits⟩⟩ := Flights.enter_of_step hstep
    · exact .inl hasking
    · exact absurd hwaits (hleads leader)
  | orphan _ hstep _ hleads =>
    obtain ⟨_, hasking | ⟨leader, hwaits⟩⟩ := Flights.enter_of_step hstep
    · exact .inl hasking
    · exact absurd hwaits (hleads leader)
  | complete _ hstep =>
    obtain ⟨_, ⟨htorn, _⟩ | ⟨raw, _, hfetched, _⟩⟩ := Flights.complete_of_step hstep
    · exact .inr (by rw [htorn]; rfl)
    · exact .inl ⟨raw, by rw [hfetched]; rfl⟩
  | abort _ hstep =>
    obtain ⟨_, ⟨htorn, _⟩ | ⟨raw, _, hfetched, _⟩⟩ := Flights.complete_of_step hstep
    · exact .inr (by rw [htorn]; rfl)
    · rw [hfetched] at horphan
      cases horphan rfl
  | misread hphase hstep =>
    have hmove : CallMove.flight t .cancel = some (.cancel t) := rfl
    rw [hphase] at hfits
    exact hfits.flies (Flights.flies_of_step hmove hstep)
  | store hphase =>
    rw [hphase] at hfits
    exact hfits
  | fly hphase hstep ha =>
    rw [hphase] at hfits
    exact hfits.flies (Flights.flies_of_step ha hstep)
  | reply _ hreply =>
    refine .inr ?_
    revert hreply
    cases w.flights.phase t <;> simp [Phase.reply, Phase.ended]

theorem fits_of_run (hrun : run (step rt toml queries) (init r) acts = some w) (t : TaskId) :
    Fits (w.flights.phase t) (w.phase t) := by
  have hstep : ∀ acts w t (shard : Fin shards) move w₁ cs phase, run (step rt toml queries) (init r) acts = some w →
      Fits (w.flights.phase t) (w.phase t) → Does rt queries w t move w₁ cs phase →
      Fits (w₁.flights.phase t) phase := by
    intro acts w t shard move w₁ cs phase hrun hfits hdoes
    have hlinked := (linked_of_run hrun t).step (sameConfig_of_run hrun) hdoes shard
    refine hdoes.fits hfits fun horphan => Option.eq_none_iff_forall_ne_some.mpr fun raw hraw => ?_
    obtain ⟨_, _, _, _, hrole, _⟩ := hlinked.fetched raw hraw
    rw [horphan] at hrole
    cases hrole
  exact each_call (Φ := fun _ _ flight phase => Fits flight phase) (fun _ => rfl) (fun _ _ _ _ h _ => h) hstep hrun t

end Fits

/-! ## The next step -/

/-- The call has returned, or was torn down. -/
def Over (w : Service) (t : TaskId) : Prop :=
  (∃ path reply, w.phase t = .ended path reply) ∨ w.flights.phase t = .cancelled

/-- A step of a call that neither cancels it nor panics, with the upstream's answer to it. -/
def Drives (answer : TaskId → Option Bytes) : ServiceAction → Prop
  | .call _ _ .cancel | .call _ _ (.misread _) => False
  | .call t _ (.complete _ result) => result = answer t
  | .call _ _ _ => True
  | _ => False

section Next
variable {rt : Runtime} {toml : Text → Option Settings} {queries : TaskId → Query} {r : Running} {w : Service}
  {t : TaskId} {acts : List ServiceAction} {answer : TaskId → Option Bytes}

/-- A call can take a step that drives it. -/
def Moves (rt : Runtime) (toml : Text → Option Settings) (queries : TaskId → Query) (answer : TaskId → Option Bytes)
    (w : Service) (t : TaskId) : Prop :=
  ∃ shard move w', Drives answer (.call t shard move) ∧ step rt toml queries w (.call t shard move) = some w'

theorem moves_of_callStep (move : CallMove) (hdrives : Drives answer (.call t firstShard move))
    (h : ∃ w', w.callStep rt queries t firstShard move = some w') : Moves rt toml queries answer w t := by
  obtain ⟨w', hw'⟩ := h
  exact ⟨firstShard, move, w', hdrives, hw'⟩

theorem moves_of_look {request response : DnsPacket} {question : DnsQuestion} {op : CacheOp}
    (hphase : w.phase t = .looking request question response op) (hop : ¬ op.ended) :
    Moves rt toml queries answer w t := by
  refine moves_of_callStep (.look 0 Order.stored) trivial ?_
  obtain ⟨m', op', hgo⟩ := CacheOp.go_of_not_ended rt 0 Order.stored w.memory hop
  unfold callStep
  rw [hphase]
  exact ⟨_, Option.bind_eq_some_iff.mpr ⟨_, hgo, rfl⟩⟩

/-- Up to the single-flight map a call never waits. -/
theorem moves_before (hjustified : Justified rt toml queries r acts t (w.phase t))
    (hrole : ∀ role, w.phase t ≠ .flying role) (hover : ¬ w.Over t) : Moves rt toml queries answer w t := by
  cases hphase : w.phase t with
  | looking request question response op =>
    rw [hphase] at hjustified
    obtain ⟨_, _, _, _, _, hlooked⟩ := hjustified
    cases op with
    | found key lookedAt result =>
      refine moves_of_callStep .settle trivial ?_
      unfold callStep
      rw [hphase]
      exact ⟨_, rfl⟩
    | looking key => exact moves_of_look hphase nofun
    | removing key lookedAt => exact moves_of_look hphase nofun
    | _ => exact absurd hlooked id
  | flying role => exact absurd hphase (hrole role)
  | ended path reply => exact absurd (.inl ⟨path, reply, hphase⟩) hover
  | start => exact moves_of_callStep .arrive trivial (by unfold callStep; rw [hphase]; exact ⟨_, rfl⟩)
  | entered => exact moves_of_callStep (.accept 0) trivial (by unfold callStep; rw [hphase]; exact ⟨_, rfl⟩)
  | admitted _ => exact moves_of_callStep .check trivial (by unfold callStep; rw [hphase]; exact ⟨_, rfl⟩)
  | listed _ _ => exact moves_of_callStep .screen trivial (by unfold callStep; rw [hphase]; exact ⟨_, rfl⟩)
  | screened _ => exact moves_of_callStep (.answer 0) trivial (by unfold callStep; rw [hphase]; exact ⟨_, rfl⟩)

theorem moves_of_flight {role : Role} (move : CallMove) {a : FlightAction}
    (hkind : move = .dropGuard ∨ move = .dropSender ∨ move = .wake) (hphase : w.phase t = .flying role)
    (ha : move.flight t = some a) (hsome : (w.flights.step rt (contexts rt w.state queries) a).isSome) :
    Moves rt toml queries answer w t := by
  obtain ⟨f, hstep⟩ := Option.isSome_iff_exists.mp hsome
  have hfly : w.fly rt (contexts rt w.state queries) t firstShard role a = some _ := fly_eq_some.mpr ⟨f, hstep, rfl⟩
  obtain rfl | rfl | rfl := hkind <;> obtain rfl := Option.some.inj ha
  · refine moves_of_callStep .dropGuard trivial ?_
    unfold callStep
    rw [hphase]
    cases role <;> exact ⟨_, hfly⟩
  · refine moves_of_callStep .dropSender trivial ?_
    unfold callStep
    rw [hphase]
    cases role <;> exact ⟨_, hfly⟩
  · refine moves_of_callStep .wake trivial ?_
    unfold callStep
    rw [hphase]
    cases role <;> exact ⟨_, hfly⟩

theorem moves_of_torn {role : Role} (hphase : w.phase t = .flying role) (htorn : (w.flights.phase t).torn)
    (hover : ¬ w.Over t) : Moves rt toml queries answer w t := by
  cases hflight : w.flights.phase t with
  | unwinding => exact moves_of_flight .dropGuard (.inl rfl) hphase rfl (by simp [Flights.step, hflight])
  | closing raw =>
    cases raw with
    | none => exact moves_of_flight .dropSender (.inr (.inl rfl)) hphase rfl (by simp [Flights.step, hflight])
    | some raw =>
      rw [hflight] at htorn
      cases htorn
  | cancelled => exact absurd (.inr hflight) hover
  | _ =>
    rw [hflight] at htorn
    cases htorn

theorem moves_of_reply {role : Role} (hphase : w.phase t = .flying role) {out : Outcome Empty Bytes}
    (hreply : (w.flights.phase t).reply (contexts rt w.state queries t) = some out) :
    Moves rt toml queries answer w t := by
  refine moves_of_callStep .reply trivial ?_
  unfold callStep
  rw [hphase]
  cases role <;> exact ⟨_, Option.bind_eq_some_iff.mpr ⟨out, hreply, rfl⟩⟩

/-- A leader never waits. -/
theorem moves_leading {role : Role} (hphase : w.phase t = .flying role)
    (hfits : Fits (w.flights.phase t) (.flying role)) (hleads : ∀ leader, w.flights.phase t ≠ .waiting leader)
    (hover : ¬ w.Over t) : Moves rt toml queries answer w t := by
  have hask : w.flights.phase t = .asking → role = .leading ∨ role = .orphaned → Moves rt toml queries answer w t := by
    intro hasking hrole
    have hstep : ∃ f, w.flights.step rt (contexts rt w.state queries) (.complete t w.state 0 (answer t)) = some f := by
      simp only [Flights.step, hasking]
      split <;> exact ⟨_, rfl⟩
    obtain ⟨f, hstep⟩ := hstep
    refine moves_of_callStep (.complete 0 (answer t)) rfl ?_
    unfold callStep
    rw [hphase]
    obtain rfl | rfl := hrole
    · simp [Service.complete, hstep]
    · exact ⟨_, fly_eq_some.mpr ⟨f, hstep, rfl⟩⟩
  cases role with
  | queued =>
    obtain hstart | hcancelled := hfits
    · have hstep : ∃ f, w.flights.step rt (contexts rt w.state queries) (.enter t) = some f := by
        simp only [Flights.step, hstart]
        split <;> exact ⟨_, rfl⟩
      obtain ⟨f, hstep⟩ := hstep
      refine moves_of_callStep .enter trivial ?_
      unfold callStep
      rw [hphase]
      simp only [Service.enter, hstep, Option.bind_eq_bind, Option.bind_some]
      repeat' split
      all_goals exact ⟨_, rfl⟩
    · exact absurd (.inr hcancelled) hover
  | leading =>
    obtain hasking | htorn := hfits
    · exact hask hasking (.inl rfl)
    · exact moves_of_torn hphase htorn hover
  | orphaned =>
    obtain hasking | htorn := hfits
    · exact hask hasking (.inr rfl)
    · exact moves_of_torn hphase htorn hover
  | answered result op =>
    obtain ⟨raw, hraw⟩ | htorn := hfits
    · cases hflight : w.flights.phase t with
      | fetched raw =>
        by_cases hended : op.ended
        · have hstep : ∃ f, w.flights.step rt (contexts rt w.state queries) (.publish t) = some f := by
            simp only [Flights.step, hflight]
            split <;> exact ⟨_, rfl⟩
          obtain ⟨f, hstep⟩ := hstep
          refine moves_of_callStep .publish trivial ?_
          unfold callStep
          rw [hphase]
          exact ⟨_, (if_pos hended).trans (fly_eq_some.mpr ⟨f, hstep, rfl⟩)⟩
        · refine moves_of_callStep (.store 0 Order.stored) trivial ?_
          obtain ⟨m', op', hgo⟩ := CacheOp.go_of_not_ended rt 0 Order.stored w.memory hended
          unfold callStep
          rw [hphase]
          exact ⟨_, Option.bind_eq_some_iff.mpr ⟨_, hgo, rfl⟩⟩
      | published raw =>
        exact moves_of_flight .dropGuard (.inl rfl) hphase rfl (by simp [Flights.step, hflight])
      | closing raw =>
        cases raw with
        | some raw =>
          exact moves_of_flight .dropSender (.inr (.inl rfl)) hphase rfl (by simp [Flights.step, hflight])
        | none =>
          rw [hflight] at hraw
          cases hraw
      | led raw => exact moves_of_reply hphase (by rw [hflight]; rfl)
      | _ =>
        rw [hflight] at hraw
        cases hraw
    · exact moves_of_torn hphase htorn hover
  | following =>
    obtain ⟨leader, hwaits⟩ | ⟨leader, shared, hfollowed⟩ | hcancelled := hfits
    · exact absurd hwaits (hleads leader)
    · exact moves_of_reply hphase (by rw [hfollowed]; rfl)
    · exact absurd (.inr hcancelled) hover

/-- A sender that is not dropped belongs to a leader that can take a step. -/
theorem moves_owner (hrun : run (step rt toml queries) (init r) acts = some w) {leader : TaskId}
    (howns : w.flights.Owns leader) (hopen : w.flights.closed leader = false) :
    Moves rt toml queries answer w leader := by
  have hfits := fits_of_run hrun leader
  have hbusy : (w.flights.phase leader).leads ∨ ∃ raw, w.flights.phase leader = .closing raw := by
    obtain hleads | hclosing | hclosed := howns
    · exact .inl hleads
    · exact .inr hclosing
    · rw [hopen] at hclosed
      cases hclosed
  have hnot : ∀ p, p.leads = false → (∀ raw, p ≠ .closing raw) → w.flights.phase leader ≠ p := by
    rintro p hleads hclosing rfl
    obtain hbusy | ⟨raw, hbusy⟩ := hbusy
    · rw [hleads] at hbusy
      cases hbusy
    · exact hclosing raw hbusy
  cases hphase : w.phase leader with
  | flying role =>
    rw [hphase] at hfits
    refine moves_leading hphase hfits (fun _ => hnot _ rfl nofun) ?_
    rintro (⟨path, reply, hended⟩ | hcancelled)
    · cases hphase.symm.trans hended
    · exact hnot .cancelled rfl nofun hcancelled
  | ended path reply =>
    rw [hphase] at hfits
    obtain hstart | hended := hfits
    · exact absurd hstart (hnot _ rfl nofun)
    · revert hended hnot
      cases w.flights.phase leader <;> simp [Phase.ended, Phase.leads]
  | _ =>
    rw [hphase] at hfits
    exact absurd hfits (hnot _ rfl nofun)

/-- A call that is not over can take a step, or waits for one that can. -/
theorem moves_on (answer : TaskId → Option Bytes) (hrun : run (step rt toml queries) (init r) acts = some w)
    (hover : ¬ w.Over t) :
    Moves rt toml queries answer w t ∨
      ∃ leader ≠ t, w.flights.phase t = .waiting leader ∧ Moves rt toml queries answer w leader := by
  by_cases hflying : ∃ role, w.phase t = .flying role
  case neg => exact .inl (moves_before (justified_of_run hrun t) (not_exists.mp hflying) hover)
  obtain ⟨role, hphase⟩ := hflying
  have hfits := fits_of_run hrun t
  rw [hphase] at hfits
  by_cases hwaiting : ∃ leader, w.flights.phase t = .waiting leader
  case neg => exact .inl (moves_leading hphase hfits (not_exists.mp hwaiting) hover)
  obtain ⟨leader, hwaits⟩ := hwaiting
  obtain ⟨_, howns⟩ := (flights_of_run hrun).waiters t leader hwaits
  cases hclosed : w.flights.closed leader with
  | true =>
    refine .inl (moves_of_flight .wake (.inr (.inr rfl)) hphase rfl ?_)
    simp [Flights.step, hwaits, hclosed]
  | false =>
    refine .inr ⟨leader, ?_, hwaits, moves_owner hrun howns hclosed⟩
    rintro rfl
    obtain hleads | ⟨raw, hclosing⟩ | hopen := howns
    · rw [hwaits] at hleads
      cases hleads
    · cases hwaits.symm.trans hclosing
    · rw [hclosed] at hopen
      cases hopen

end Next

/-- The steps that are left of a call and of the call that it waits for. -/
def remaining (t : TaskId) (w : Service) : ℕ :=
  26 * w.rank t + match w.flights.phase t with
    | .waiting leader => w.rank leader
    | _ => 0

theorem remaining_le (t : TaskId) (w : Service) : w.remaining t ≤ 26 * w.rank t + 25 := by
  unfold remaining
  split
  · exact Nat.add_le_add_left (QueryPhase.rank_le ..) _
  · omega

def isOf (t : TaskId) : ServiceAction → Bool
  | .call t' _ _ => t' = t
  | _ => false

/-- **Every call comes to an end.** It takes at most 25 steps, whatever falls between them; and from every
state of every run it can still come to its end, whatever the upstreams answer, through steps of calls alone
and without a cancellation or a panic of the recursive resolver. -/
theorem every_call_ends (rt : Runtime) (toml : Text → Option Settings) (queries : TaskId → Query) (r : Running)
    (acts : List ServiceAction) (w : Service) (h : run (step rt toml queries) (init r) acts = some w) (t : TaskId)
    (answer : TaskId → Option Bytes) :
    acts.countP (isOf t) ≤ 25 ∧
      ∃ more w', (∀ a ∈ more, Drives answer a) ∧ run (step rt toml queries) w more = some w' ∧ w'.Over t := by
  have hlower : ∀ w a w', step rt toml queries w a = some w' → w'.rank t + (if isOf t a then 1 else 0) ≤ w.rank t := by
    intro w a w' hstep
    obtain ⟨shard, move, rfl, hlt⟩ | ⟨hother, heq⟩ := rank_step hstep t
    · simp only [isOf, decide_true, if_true]
      omega
    · have hnot : isOf t a = false := by
        cases a with
        | call t' shard move => exact decide_eq_false fun ht => hother shard move (by rw [ht])
        | _ => rfl
      simp [hnot, heq]
  refine ⟨?_, ?_⟩
  · have hcount := countP_le_rank hlower h
    have hstart : (init r).rank t = 25 := rfl
    omega
  · have hdrive : ∀ v, (∃ acts, run (step rt toml queries) (init r) acts = some v) → ¬ v.Over t → ∃ a v',
        Drives answer a ∧ step rt toml queries v a = some v' ∧
          (∃ acts, run (step rt toml queries) (init r) acts = some v') ∧ v'.remaining t < v.remaining t := by
      rintro v ⟨acts, hrun⟩ hover
      obtain ⟨shard, move, v', hdrives, hstep⟩ | ⟨leader, hne, hwaits, shard, move, v', hdrives, hstep⟩ :=
        moves_on answer hrun hover
      · refine ⟨_, v', hdrives, hstep, ⟨_, run_snoc.mpr ⟨v, hrun, hstep⟩⟩, ?_⟩
        obtain ⟨_, _, _, hlt⟩ | ⟨hother, _⟩ := rank_step hstep t
        · have hleft := v'.remaining_le t
          have hbefore : 26 * v.rank t ≤ v.remaining t := Nat.le_add_right ..
          omega
        · exact absurd rfl (hother shard move)
      · refine ⟨_, v', hdrives, hstep, ⟨_, run_snoc.mpr ⟨v, hrun, hstep⟩⟩, ?_⟩
        obtain ⟨w₁, cs, phase, hdoes, rfl⟩ := does_of_callStep hstep
        have hstill : (w₁.goto leader shard cs phase).flights.phase t = .waiting leader := by
          rw [← hwaits]
          exact hdoes.flights_other hne.symm
        obtain ⟨_, _, heq, _⟩ | ⟨_, hsame⟩ := rank_step hstep t
        · exact absurd (ServiceAction.call.inj heq).1 hne
        obtain ⟨_, _, _, hlt⟩ | ⟨hother, _⟩ := rank_step hstep leader
        · simp only [remaining, hstill, hwaits, hsame]
          omega
        · exact absurd rfl (hother shard move)
    exact reaches_of_rank hdrive ⟨acts, h⟩

theorem every_call_ends_letter : ∃ w, run (step .ascii (fun _ => none) letterQueries) (init letterServer)
      (entering 1 ++ joining) = some w ∧
    (entering 1 ++ joining).countP (isOf 1) ≤ 25 ∧
      ∃ more w', (∀ a ∈ more, Drives (fun _ => none) a) ∧
        run (step .ascii (fun _ => none) letterQueries) w more = some w' ∧ w'.Over 1 := by
  obtain ⟨w, hrun, _⟩ := run_joining
  exact ⟨w, hrun, every_call_ends .ascii (fun _ => none) letterQueries letterServer _ w hrun 1 _⟩

end Service
end MiniDns
