import MiniDns.ServiceProgress

/-! What the upstreams are asked. -/
namespace MiniDns
open Lib Lib.Outcome Dns DnsPacket Function
set_option autoImplicit false

namespace Service
variable {rt : Runtime} {toml : Text → Option Settings} {queries : TaskId → Query} {r : Running}
  {acts : List ServiceAction} {w : Service} {t : TaskId}

/-- Only a call in flight asks. -/
theorem flying_of_asking (hrun : run (step rt toml queries) (init r) acts = some w)
    (hasking : w.flights.phase t = .asking) : ∃ role, w.phase t = .flying role := by
  have hfits := fits_of_run hrun t
  rw [hasking] at hfits
  cases hphase : w.phase t with
  | flying role => exact ⟨role, rfl⟩
  | ended path reply =>
    rw [hphase] at hfits
    obtain hstart | hended := hfits
    · cases hstart
    · cases hended
  | _ =>
    rw [hphase] at hfits
    cases hfits

/-- **An upstream is asked only for what the server cannot answer, and once at a time.** While a call asks
upstream, there was a moment since its arrival when the blocklist let its name pass, a later one when the
zones had no such name, recursion was offered and desired, and a later one when it has read the clock and the
cache had no entry for it that was still live by that reading; it asks the upstream that the rules name; and
no other call asks for the same name and type. -/
theorem upstream_asked_once (rt : Runtime) (toml : Text → Option Settings) (queries : TaskId → Query) (r : Running)
    (acts : List ServiceAction) (w : Service) (h : run (step rt toml queries) (init r) acts = some w) (t : TaskId)
    (hasking : w.flights.phase t = .asking) :
    (∃ (request : DnsPacket) (question : DnsQuestion) (v : View rt toml queries r acts t) (now : Instant),
      fromBytes (queries t).req = ok request ∧ request.questions.head? = some question ∧
      v.state.blocks rt request = false ∧ v.state.looksElsewhere rt request ∧
      LookedAt acts t v.cacheAt now ∧ cached rt v.state question now = none ∧
      r.state.route rt (queries t).req request question (queries t).transport = some (contexts rt r.state queries t)) ∧
    ∀ t', w.flights.phase t' = .asking →
      (contexts rt r.state queries t').key = (contexts rt r.state queries t).key → t' = t := by
  refine ⟨?_, fun t' hasking' hkey => ?_⟩
  · obtain ⟨role, hphase⟩ := flying_of_asking h hasking
    have hjustified := justified_of_run h t
    rw [hphase] at hjustified
    obtain ⟨request, question, hadmitted, ⟨hmissed⟩⟩ := hjustified
    exact ⟨request, question, hmissed.view, hmissed.now, hadmitted.parsed, hmissed.unknown.question,
      hmissed.unknown.passed, hmissed.unknown.elsewhere, hmissed.lookedAt, hmissed.missed, hmissed.route⟩
  · refine (flights_of_run h).safe.oneLeader t' t hkey ?_ ?_
    · rw [hasking']
      rfl
    · rw [hasking]
      rfl

theorem upstream_asked_once_letter : ∃ w, run (step .ascii (fun _ => none) letterQueries) (init letterServer)
      (entering 1 ++ entering 2) = some w ∧ w.flights.phase 1 = .asking ∧
    (∃ (request : DnsPacket) (question : DnsQuestion)
      (v : View .ascii (fun _ => none) letterQueries letterServer (entering 1 ++ entering 2) 1) (now : Instant),
      fromBytes (letterQuery 1 97) = ok request ∧ request.questions.head? = some question ∧
      v.state.blocks .ascii request = false ∧ v.state.looksElsewhere .ascii request ∧
      LookedAt (entering 1 ++ entering 2) 1 v.cacheAt now ∧ cached .ascii v.state question now = none ∧
      letterServer.state.route .ascii (letterQuery 1 97) request question .udp =
        some (contexts .ascii letterServer.state letterQueries 1)) ∧
    ∀ t', w.flights.phase t' = .asking → (contexts .ascii letterServer.state letterQueries t').key =
      (contexts .ascii letterServer.state letterQueries 1).key → t' = 1 := by
  have hrun : ((run (step .ascii (fun _ => none) letterQueries) (init letterServer) (entering 1 ++ entering 2)).map
      fun w => w.flights.phase 1) = some .asking := by
    decide +kernel
  obtain ⟨w, hw, hasking⟩ := Option.map_eq_some_iff.mp hrun
  exact ⟨w, hw, hasking, upstream_asked_once .ascii (fun _ => none) letterQueries letterServer _ w hw 1 hasking⟩

end Service
end MiniDns
