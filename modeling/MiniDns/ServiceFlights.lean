import MiniDns.Lib.History
import MiniDns.Service

/-! The calls in the single-flight map. A step of one call leaves the flights of the others alone, the bytes of
a flight are made of the result that its own call was given, and the reply is made of these bytes. -/
namespace MiniDns
open Lib Lib.Outcome Dns DnsPacket Function
set_option autoImplicit false

/-! ## Moves of a flight -/

/-- The bytes that a leader fetches depend on neither the clock nor on more of the state than the resolver. -/
theorem ServerState.forwardAndCache_of_hasResolver {rt : Runtime} {st st₂ st' : ServerState} {answeredAt : Instant}
    {ctx : ForwardCtx} {result : Option Bytes} {raw : Bytes}
    (h : st.forwardAndCache rt answeredAt ctx result = ok (raw, st'))
    (hsame : st₂.hasResolver ctx.upstream = st.hasResolver ctx.upstream) (answeredAt₂ : Instant) :
    ∃ st₂', st₂.forwardAndCache rt answeredAt₂ ctx result = ok (raw, st₂') := by
  unfold forwardAndCache at h ⊢
  rw [hsame]
  split at h
  · rename_i hresolver
    rw [if_pos hresolver]
    cases result with
    | none =>
      obtain ⟨rfl, _⟩ := Prod.mk.inj (Outcome.ok.inj h)
      exact ⟨_, rfl⟩
    | some response =>
      dsimp only at h ⊢
      cases hparsed : fromBytes response with
      | ok parsed =>
        rw [hparsed] at h
        simp only [Outcome.handle] at h ⊢
        split at h
        all_goals
          obtain ⟨rfl, _⟩ := Prod.mk.inj (Outcome.ok.inj h)
          exact ⟨_, rfl⟩
      | err e =>
        rw [hparsed] at h
        obtain ⟨rfl, _⟩ := Prod.mk.inj (Outcome.ok.inj h)
        exact ⟨_, rfl⟩
      | panic =>
        rw [hparsed] at h
        cases h
  · cases h

def FlightAction.task : FlightAction → TaskId
  | .enter t | .complete t _ _ _ | .publish t | .dropGuard t | .dropSender t | .cancel t | .wake t => t

/-- What a move of a flight does to its phase. -/
inductive Flies : CallMove → Phase → Phase → Prop
  | publish {raw : Bytes} : Flies .publish (.fetched raw) (.published raw)
  | dropGuard {raw : Bytes} : Flies .dropGuard (.published raw) (.closing (some raw))
  | unwind : Flies .dropGuard .unwinding (.closing none)
  | leave {raw : Bytes} : Flies .dropSender (.closing (some raw)) (.led raw)
  | tearDown : Flies .dropSender (.closing none) .cancelled
  | cancelEarly : Flies .cancel .start .cancelled
  | cancelLeader : Flies .cancel .asking .unwinding
  | cancelFollower {leader : TaskId} : Flies .cancel (.waiting leader) .cancelled
  | wake {leader : TaskId} {shared : Option Bytes} : Flies .wake (.waiting leader) (.followed leader shared)

theorem CallMove.task_of_flight {t : TaskId} {move : CallMove} {a : FlightAction} (h : move.flight t = some a) :
    a.task = t := by
  obtain ⟨rfl, _⟩ | ⟨rfl, _⟩ | ⟨rfl, _⟩ | ⟨rfl, _⟩ | ⟨rfl, _⟩ := CallMove.flight_cases h <;> rfl

/-- What a leader has sent it has fetched. -/
theorem Phase.raw_of_sent {p : Phase} {raw : Bytes} (h : p.sent = some raw) : p.raw = some raw := by
  cases p with
  | fetched _ => cases h
  | _ => exact h

namespace Flights
variable {rt : Runtime} {calls : TaskId → ForwardCtx} {w w' : Flights} {a : FlightAction} {t : TaskId} {raw : Bytes}

theorem phase_of_step (h : step rt calls w a = some w') : ∃ phase, w'.phase = update w.phase a.task phase := by
  cases a with
  | _ =>
    simp only [step] at h
    repeat' split at h
    all_goals first
      | (obtain rfl := Option.some.inj h; exact ⟨_, rfl⟩)
      | cases h

theorem phase_other (h : step rt calls w a = some w') (ht : t ≠ a.task) : w'.phase t = w.phase t := by
  obtain ⟨phase, hphase⟩ := phase_of_step h
  rw [hphase, update_of_ne ht]

theorem enter_of_step (h : step rt calls w (.enter t) = some w') :
    w.phase t = .start ∧ (w'.phase t = .asking ∨ ∃ leader, w'.phase t = .waiting leader) := by
  simp only [step] at h
  split at h
  · rename_i hphase
    split at h
    · obtain rfl := Option.some.inj h
      exact ⟨hphase, .inr ⟨_, update_self ..⟩⟩
    · obtain rfl := Option.some.inj h
      exact ⟨hphase, .inl (update_self ..)⟩
  · cases h

/-- A leader has the bytes that `forward_and_cache` has returned to it, and unwinds if there are none. -/
theorem complete_of_step {st : ServerState} {answeredAt : Instant} {result : Option Bytes}
    (h : step rt calls w (.complete t st answeredAt result) = some w') :
    w.phase t = .asking ∧
      (w'.phase t = .unwinding ∧ (∀ raw st', st.forwardAndCache rt answeredAt (calls t) result ≠ ok (raw, st')) ∨
        ∃ raw st', w'.phase t = .fetched raw ∧ st.forwardAndCache rt answeredAt (calls t) result = ok (raw, st')) := by
  simp only [step] at h
  split at h
  · rename_i hphase
    split at h
    · rename_i raw st' hforward
      obtain rfl := Option.some.inj h
      exact ⟨hphase, .inr ⟨raw, st', setPhase_self .., hforward⟩⟩
    · rename_i hnot
      obtain rfl := Option.some.inj h
      exact ⟨hphase, .inl ⟨setPhase_self .., fun raw st' => hnot raw st'⟩⟩
  · cases h

theorem raw_of_enter (h : step rt calls w (.enter t) = some w') : (w'.phase t).raw = none := by
  obtain ⟨_, hphase | ⟨leader, hphase⟩⟩ := enter_of_step h <;> rw [hphase] <;> rfl

theorem raw_of_complete {st : ServerState} {answeredAt : Instant} {result : Option Bytes}
    (h : step rt calls w (.complete t st answeredAt result) = some w') (hraw : (w'.phase t).raw = some raw) :
    ∃ st', st.forwardAndCache rt answeredAt (calls t) result = ok (raw, st') := by
  obtain ⟨_, ⟨hphase, _⟩ | ⟨fetched, st', hphase, hforward⟩⟩ := complete_of_step h <;> rw [hphase] at hraw
  · cases hraw
  · obtain rfl : fetched = raw := Option.some.inj hraw
    exact ⟨st', hforward⟩

theorem flies_of_step {move : CallMove} (ha : move.flight t = some a) (h : step rt calls w a = some w') :
    Flies move (w.phase t) (w'.phase t) := by
  obtain ⟨rfl, rfl⟩ | ⟨rfl, rfl⟩ | ⟨rfl, rfl⟩ | ⟨rfl, rfl⟩ | ⟨rfl, rfl⟩ := CallMove.flight_cases ha
  all_goals
    simp only [step] at h
    repeat' split at h
    all_goals first
      | (obtain rfl := Option.some.inj h
         simp only [setPhase, update_self, *]
         constructor)
      | cases h

/-- Only `complete` gives a flight its bytes. -/
theorem raw_of_step (h : step rt calls w a = some w') {move : CallMove} (ha : move.flight t = some a)
    (hraw : (w'.phase t).raw = some raw) : (w.phase t).raw = some raw := by
  have hflies := flies_of_step ha h
  revert hraw hflies
  generalize w.phase t = p, w'.phase t = p'
  rintro hraw hflies
  cases hflies with
  | publish => exact hraw
  | dropGuard => exact hraw
  | leave => exact hraw
  | _ => cases hraw

end Flights

namespace Service
variable {rt : Runtime} {toml : Text → Option Settings} {queries : TaskId → Query} {r : Running}
  {acts : List ServiceAction} {a : ServiceAction} {w w₁ w' : Service} {t : TaskId} {move : CallMove}
  {shard : Fin shards} {cs : List Metric} {phase : QueryPhase}

/-! ## One call at a time -/

/-- What a step does to the single-flight map. -/
theorem Does.flights (h : Does rt queries w t move w₁ cs phase) : w₁.flights = w.flights ∨
    ∃ a, a.task = t ∧ w.flights.step rt (contexts rt w.state queries) a = some w₁.flights := by
  cases h with
  | join _ hstep => exact .inr ⟨_, rfl, hstep⟩
  | lead _ hstep _ => exact .inr ⟨_, rfl, hstep⟩
  | orphan _ hstep _ => exact .inr ⟨_, rfl, hstep⟩
  | complete _ hstep _ => exact .inr ⟨_, rfl, hstep⟩
  | abort _ hstep => exact .inr ⟨_, rfl, hstep⟩
  | misread _ hstep _ _ => exact .inr ⟨_, rfl, hstep⟩
  | fly _ hstep ha => exact .inr ⟨_, CallMove.task_of_flight ha, hstep⟩
  | _ => exact .inl rfl

theorem Does.flights_other (h : Does rt queries w t move w₁ cs phase) {t' : TaskId} (ht : t' ≠ t) :
    w₁.flights.phase t' = w.flights.phase t' := by
  obtain hflights | ⟨a, rfl, hstep⟩ := h.flights
  · rw [hflights]
  · exact Flights.phase_other hstep ht

/-- **What is kept by the steps of a call, and by the steps of others as long as they leave its phases alone,
holds of every call of every run.** -/
theorem each_call {Φ : List ServiceAction → TaskId → Phase → QueryPhase → Prop} (hstart : ∀ t, Φ [] t .start .start)
    (hlater : ∀ acts t flight phase, Φ acts t flight phase → ∀ a, Φ (acts ++ [a]) t flight phase)
    (hstep : ∀ acts w t shard move w₁ cs phase, run (step rt toml queries) (init r) acts = some w →
      Φ acts t (w.flights.phase t) (w.phase t) → Does rt queries w t move w₁ cs phase →
      Φ (acts ++ [.call t shard move]) t (w₁.flights.phase t) phase)
    (hrun : run (step rt toml queries) (init r) acts = some w) (t : TaskId) :
    Φ acts t (w.flights.phase t) (w.phase t) := by
  have hkeep : ∀ acts w a w', run (step rt toml queries) (init r) acts = some w →
      (∀ t, Φ acts t (w.flights.phase t) (w.phase t)) → step rt toml queries w a = some w' →
      ∀ t, Φ (acts ++ [a]) t (w'.flights.phase t) (w'.phase t) := by
    intro acts w a w' hrun hcalls hact t'
    obtain ⟨t, shard, move, w₁, cs, phase, rfl, hdoes, rfl⟩ | ⟨_, _, _, hflights, _, hphase⟩ := step_cases hact
    · rw [show (w₁.goto t shard cs phase).flights = w₁.flights from rfl]
      by_cases ht : t' = t
      · subst ht
        rw [show (w₁.goto t' shard cs phase).phase t' = phase from update_self ..]
        exact hstep acts w t' shard move w₁ cs phase hrun (hcalls t') hdoes
      · rw [show (w₁.goto t shard cs phase).phase t' = w₁.phase t' from update_of_ne ht .., hdoes.phase,
          hdoes.flights_other ht]
        exact hlater _ _ _ _ (hcalls t') _
    · rw [hflights, hphase]
      exact hlater _ _ _ _ (hcalls t') a
  exact run_history hkeep hstart hrun t

theorem flights_of_run (hrun : run (step rt toml queries) (init r) acts = some w) :
    w.flights.Sound rt (contexts rt r.state queries) := by
  have hkeep : ∀ acts w a w', run (step rt toml queries) (init r) acts = some w →
      w.flights.Sound rt (contexts rt r.state queries) → step rt toml queries w a = some w' →
      w'.flights.Sound rt (contexts rt r.state queries) := by
    intro acts w a w' hrun hsound hstep
    obtain ⟨t, shard, move, w₁, cs, phase, rfl, hdoes, rfl⟩ | ⟨_, _, _, hflights, _, _⟩ := step_cases hstep
    · rw [show (w₁.goto t shard cs phase).flights = w₁.flights from rfl]
      obtain hflights | ⟨a, _, hflight⟩ := hdoes.flights
      · rwa [hflights]
      · rw [(sameConfig_of_run hrun).contexts] at hflight
        exact hsound.step hflight
    · rwa [hflights]
  exact run_history hkeep (Flights.sound_init rt _) hrun

/-! ## What a call has in the map -/

/-- The upstream query of the call has ended with the result. -/
def Completed (acts : List ServiceAction) (t : TaskId) (result : Option Bytes) : Prop :=
  ∃ shard answeredAt, .call t shard (.complete answeredAt result) ∈ acts

theorem Completed.later {result : Option Bytes} (h : Completed acts t result) (a : ServiceAction) :
    Completed (acts ++ [a]) t result := by
  obtain ⟨shard, answeredAt, hmem⟩ := h
  exact ⟨shard, answeredAt, List.mem_append_left _ hmem⟩

/-- The bytes of a flight are what `forward_and_cache` has made of the result that the call was given. -/
def Fetched (rt : Runtime) (queries : TaskId → Query) (r : Running) (t : TaskId) (raw : Bytes) (role : Option Role) :
    Prop :=
  ∃ result op answeredAt st', role = some (.answered result op) ∧
    r.state.forwardAndCache rt answeredAt (contexts rt r.state queries t) result = ok (raw, st')

/-- A flight with bytes has fetched them from a result that its call was given, a call without a resolver has
none, and the reply is that of the flight. -/
structure Linked (rt : Runtime) (queries : TaskId → Query) (r : Running) (acts : List ServiceAction) (t : TaskId)
    (flight : Phase) (phase : QueryPhase) : Prop where
  fetched : ∀ raw, flight.raw = some raw → Fetched rt queries r t raw phase.role
  answered : ∀ result op, phase.role = some (.answered result op) → Completed acts t result
  orphaned : phase.role = some .orphaned → r.state.hasResolver (contexts rt r.state queries t).upstream = false
  replied : ∀ role reply, phase = .ended (.flown role) reply → ∃ out,
    flight.reply (contexts rt r.state queries t) = some out ∧ out.toOption = reply

namespace Linked
variable {flight flight' : Phase} {role : Role}

theorem later (h : Linked rt queries r acts t flight phase) (a : ServiceAction) :
    Linked rt queries r (acts ++ [a]) t flight phase where
  fetched := h.fetched
  answered result op hrole := (h.answered result op hrole).later a
  orphaned := h.orphaned
  replied := h.replied

/-- A call that is not in the map, or about to enter it. -/
theorem before (h : Linked rt queries r acts t flight (w.phase t)) (hold : (w.phase t).role = none)
    (hnew : phase.role = none ∨ phase = .flying .queued) (acts' : List ServiceAction) :
    Linked rt queries r acts' t flight phase := by
  have hrole : ∀ role, phase.role = some role → phase = .flying .queued ∧ role = .queued := by
    intro role hrole
    obtain hnone | rfl := hnew
    · rw [hnone] at hrole
      cases hrole
    · exact ⟨rfl, (Option.some.inj hrole).symm⟩
  refine ⟨fun raw hraw => ?_, fun result op h => ?_, fun h => ?_, fun role reply h => ?_⟩
  · obtain ⟨_, _, _, _, hanswered, _⟩ := h.fetched raw hraw
    rw [hold] at hanswered
    cases hanswered
  · cases (hrole _ h).2
  · cases (hrole _ h).2
  · subst h
    cases (hrole role rfl).1

/-- A call in the map whose flight has no bytes. -/
theorem bare (hraw : flight.raw = none) (hrole : ∀ result op, role ≠ .answered result op)
    (horphan : role = .orphaned → r.state.hasResolver (contexts rt r.state queries t).upstream = false) :
    Linked rt queries r acts t flight (.flying role) := by
  refine ⟨fun raw h => ?_, fun result op h => ?_, fun h => horphan (Option.some.inj h), fun role reply h => ?_⟩
  · rw [hraw] at h
    cases h
  · exact absurd (Option.some.inj h) (hrole result op)
  · cases h

/-- A leader that has its result. -/
theorem leading {result : Option Bytes} (hcompleted : Completed acts t result)
    (hraw : ∀ raw, flight.raw = some raw → ∃ answeredAt st',
      r.state.forwardAndCache rt answeredAt (contexts rt r.state queries t) result = ok (raw, st')) (op : CacheOp) :
    Linked rt queries r acts t flight (.flying (.answered result op)) := by
  refine ⟨fun raw h => ?_, fun result' op' h => ?_, fun h => ?_, fun role reply h => ?_⟩
  · obtain ⟨answeredAt, st', hforward⟩ := hraw raw h
    exact ⟨result, op, answeredAt, st', rfl, hforward⟩
  · obtain ⟨rfl, _⟩ := Role.answered.inj (Option.some.inj h)
    exact hcompleted
  · cases h
  · cases h

/-- A call in the map that keeps its role. -/
theorem flying (h : Linked rt queries r acts t flight (.flying role))
    (hraw : ∀ raw, flight'.raw = some raw → flight.raw = some raw) (a : ServiceAction) :
    Linked rt queries r (acts ++ [a]) t flight' (.flying role) where
  fetched raw hnew := h.fetched raw (hraw raw hnew)
  answered result op hrole := (h.answered result op hrole).later a
  orphaned := h.orphaned
  replied role reply hended := by cases hended

theorem step (hsame : SameConfig r.state w.state) (h : Linked rt queries r acts t (w.flights.phase t) (w.phase t))
    (hdoes : Does rt queries w t move w₁ cs phase) (shard : Fin shards) :
    Linked rt queries r (acts ++ [.call t shard move]) t (w₁.flights.phase t) phase := by
  cases hdoes with
  | @transfer _ path hphase _ _ hpath =>
    refine h.before (by rw [hphase]; rfl) (.inl ?_) _
    rw [hpath, ServerState.transferPath]
    repeat' split
    all_goals rfl
  | enter hphase _ => exact h.before (by rw [hphase]; rfl) (.inl rfl) _
  | unread hphase _ => exact h.before (by rw [hphase]; rfl) (.inl rfl) _
  | limit hphase => exact h.before (by rw [hphase]; rfl) (.inl rfl) _
  | garble hphase => exact h.before (by rw [hphase]; rfl) (.inl rfl) _
  | crash hphase _ => exact h.before (by rw [hphase]; rfl) (.inl rfl) _
  | accept hphase _ => exact h.before (by rw [hphase]; rfl) (.inl rfl) _
  | list hphase _ => exact h.before (by rw [hphase]; rfl) (.inl rfl) _
  | clear hphase _ => exact h.before (by rw [hphase]; rfl) (.inl rfl) _
  | block hphase _ => exact h.before (by rw [hphase]; rfl) (.inl rfl) _
  | unlist hphase _ => exact h.before (by rw [hphase]; rfl) (.inl rfl) _
  | own hphase _ _ => exact h.before (by rw [hphase]; rfl) (.inl rfl) _
  | fail hphase _ => exact h.before (by rw [hphase]; rfl) (.inl rfl) _
  | seek hphase _ _ _ _ => exact h.before (by rw [hphase]; rfl) (.inl rfl) _
  | look hphase _ => exact h.before (by rw [hphase]; rfl) (.inl rfl) _
  | hit hphase => exact h.before (by rw [hphase]; rfl) (.inl rfl) _
  | queue hphase _ => exact h.before (by rw [hphase]; rfl) (.inr rfl) _
  | alone hphase _ => exact h.before (by rw [hphase]; rfl) (.inl rfl) _
  | join _ hstep => exact bare (Flights.raw_of_enter hstep) (by simp) (by simp)
  | lead _ hstep _ => exact bare (Flights.raw_of_enter hstep) (by simp) (by simp)
  | orphan _ hstep hresolver =>
    refine bare (Flights.raw_of_enter hstep) (by simp) fun _ => ?_
    rwa [hsame.contexts, hsame.hasResolver] at hresolver
  | @complete _ answeredAt result _ _ hstep _ =>
    refine leading ⟨shard, answeredAt, List.mem_append_right _ List.mem_cons_self⟩ (fun raw hraw => ?_) _
    obtain ⟨st', hforward⟩ := Flights.raw_of_complete hstep hraw
    rw [hsame.contexts] at hforward
    exact ⟨answeredAt, ServerState.forwardAndCache_of_hasResolver hforward (hsame.hasResolver _).symm answeredAt⟩
  | abort hphase hstep =>
    have horphan := h.orphaned (by rw [hphase]; rfl)
    refine bare (Option.eq_none_iff_forall_ne_some.mpr fun raw hraw => ?_) (by simp) fun _ => horphan
    obtain ⟨st', hforward⟩ := Flights.raw_of_complete hstep hraw
    unfold ServerState.forwardAndCache at hforward
    rw [hsame.contexts, hsame.hasResolver, horphan] at hforward
    cases hforward
  | misread hphase hstep _ _ =>
    have hmove : CallMove.flight t .cancel = some (.cancel t) := rfl
    rw [hphase] at h
    exact h.flying (fun raw hraw => Flights.raw_of_step hstep hmove hraw) _
  | store hphase _ =>
    rw [hphase] at h
    refine leading ((h.answered _ _ rfl).later _) (fun raw hraw => ?_) _
    obtain ⟨result, op, answeredAt, st', hrole, hforward⟩ := h.fetched raw hraw
    obtain ⟨rfl, rfl⟩ := Role.answered.inj (Option.some.inj hrole)
    exact ⟨answeredAt, st', hforward⟩
  | fly hphase hstep ha =>
    rw [hphase] at h
    exact h.flying (fun raw hraw => Flights.raw_of_step hstep ha hraw) _
  | reply hphase hreply =>
    rw [hphase] at h
    rw [hsame.contexts] at hreply
    refine ⟨h.fetched, fun result op hrole => (h.answered result op hrole).later _, h.orphaned,
      fun role reply hended => ?_⟩
    exact ⟨_, hreply, (QueryPhase.ended.inj hended).2⟩

end Linked

theorem linked_of_run (hrun : run (step rt toml queries) (init r) acts = some w) (t : TaskId) :
    Linked rt queries r acts t (w.flights.phase t) (w.phase t) := by
  have hstart : ∀ t, Linked rt queries r [] t .start .start := by
    refine fun t => ⟨fun raw h => ?_, fun result op h => ?_, fun h => ?_, fun role reply h => ?_⟩ <;> cases h
  have hstep : ∀ acts w t shard move w₁ cs phase, run (step rt toml queries) (init r) acts = some w →
      Linked rt queries r acts t (w.flights.phase t) (w.phase t) → Does rt queries w t move w₁ cs phase →
      Linked rt queries r (acts ++ [.call t shard move]) t (w₁.flights.phase t) phase :=
    fun acts w t shard move w₁ cs phase hrun h hdoes => h.step (sameConfig_of_run hrun) hdoes shard
  exact each_call hstart (fun _ _ _ _ h a => h.later a) hstep hrun t

end Service
end MiniDns
