import MiniDns.Lib.Projection
import MiniDns.SocketPool

/-! One forwarder for each upstream. It is created when the upstream is first asked, with permits and a pool of
its own, so that the calls to one upstream know nothing of those to another. -/
namespace MiniDns
open Lib Function
set_option autoImplicit false

def defaultPool : ℕ := 64

structure MultiForwarder where
  forwarders : HashMap SocketAddr SocketPool

/-- The steps of a call: it looks up its forwarder, and then takes its steps there. -/
inductive MultiAction where
  | enter (t : TaskId)
  | pool (a : PoolAction)

def PoolAction.task : PoolAction → TaskId
  | .acquire t | .checkout t | .create t | .succeed t | .fail t | .cancel t | .release t => t

namespace MultiForwarder

def new : MultiForwarder := ⟨∅⟩

def getOrCreate (w : MultiForwarder) (upstream : SocketAddr) : SocketPool × MultiForwarder :=
  match w.forwarders.lookup upstream with
  | some pool => (pool, w)
  | none => (.withConcurrency defaultPool, ⟨w.forwarders.insert upstream (.withConcurrency defaultPool)⟩)

def step (targets : TaskId → SocketAddr) (queries : TaskId → Bytes) (w : MultiForwarder) :
    MultiAction → Option MultiForwarder
  | .enter t => some (w.getOrCreate (targets t)).2
  | .pool a => do
    let pool ← w.forwarders.lookup (targets a.task)
    let pool ← pool.step queries a
    some ⟨w.forwarders.insert (targets a.task) pool⟩

/-- The forwarder of an upstream, as it is or as it will be created. -/
def forwarder (w : MultiForwarder) (upstream : SocketAddr) : SocketPool :=
  (w.forwarders.lookup upstream).getD (.withConcurrency defaultPool)

/-- The steps that are taken at the forwarder of an upstream. -/
def own (targets : TaskId → SocketAddr) (upstream : SocketAddr) : MultiAction → Option PoolAction
  | .pool a => if targets a.task = upstream then some a else none
  | .enter _ => none

/-! ## Isolation -/

section Isolation
variable {targets : TaskId → SocketAddr} {queries : TaskId → Bytes} {w w' : MultiForwarder} {t : TaskId}
  {a : PoolAction} {upstream : SocketAddr}

/-- A lookup changes no forwarder. -/
theorem forwarder_enter (w : MultiForwarder) (u upstream : SocketAddr) :
    (w.getOrCreate u).2.forwarder upstream = w.forwarder upstream := by
  unfold getOrCreate
  split
  · rfl
  · rename_i hnone
    rw [forwarder, forwarder]
    by_cases hu : upstream = u
    · subst hu
      rw [AList.lookup_insert, hnone]
      rfl
    · rw [AList.lookup_insert_ne hu]

theorem lookup_enter (w : MultiForwarder) (u : SocketAddr) :
    (w.getOrCreate u).2.forwarders.lookup u = some (w.forwarder u) := by
  rw [forwarder]
  unfold getOrCreate
  split
  · rename_i hsome
    rw [hsome]
    rfl
  · rename_i hnone
    rw [hnone]
    exact AList.lookup_insert _

theorem step_pool (h : w.step targets queries (.pool a) = some w') :
    ∃ pool, (w.forwarder (targets a.task)).step queries a = some pool ∧
      w' = ⟨w.forwarders.insert (targets a.task) pool⟩ := by
  obtain ⟨pool, hlookup, h⟩ := Option.bind_eq_some_iff.mp h
  obtain ⟨pool', hstep, h⟩ := Option.bind_eq_some_iff.mp h
  refine ⟨pool', ?_, (Option.some.inj h).symm⟩
  rw [forwarder, hlookup]
  exact hstep

theorem forwarder_insert (map : HashMap SocketAddr SocketPool) (u : SocketAddr) (pool : SocketPool) :
    forwarder ⟨map.insert u pool⟩ = update (forwarder ⟨map⟩) u pool := by
  funext upstream
  by_cases hu : upstream = u
  · subst hu
    rw [update_self, forwarder, AList.lookup_insert]
    rfl
  · rw [update_of_ne hu, forwarder, forwarder, AList.lookup_insert_ne hu]

/-- A run is a run of each of its forwarders. -/
theorem run_forwarder {acts : List MultiAction} (h : run (step targets queries) w acts = some w')
    (upstream : SocketAddr) :
    run (SocketPool.step queries) (w.forwarder upstream) (acts.filterMap (own targets upstream)) =
      some (w'.forwarder upstream) := by
  refine run_project (forwarder · upstream) (own targets upstream) ?_ ?_ h
  · rintro v (t | a) v' b hown hstep
    · cases hown
    · obtain ⟨htarget, ⟨⟩⟩ := Option.ite_none_right_eq_some.mp hown
      obtain ⟨pool, hpool, rfl⟩ := step_pool hstep
      rw [← htarget, forwarder_insert, update_self]
      exact hpool
  · rintro v (t | a) v' hown hstep
    · obtain rfl := Option.some.inj hstep
      exact forwarder_enter v _ _
    · obtain ⟨pool, _, rfl⟩ := step_pool hstep
      have hne : upstream ≠ targets a.task := by
        rintro rfl
        rw [own, if_pos rfl] at hown
        cases hown
      rw [forwarder_insert, update_of_ne hne]

/-- A step with the lookup that comes before it. -/
def forwardStep (a : PoolAction) : List MultiAction := [.enter a.task, .pool a]

/-- What each forwarder can do alone they can do together, in any order. -/
theorem run_of_forwarders {as : List PoolAction}
    (h : ∀ upstream, ∃ pool, run (SocketPool.step queries) (w.forwarder upstream)
      (as.filter fun a => targets a.task = upstream) = some pool) :
    ∃ w', run (step targets queries) w (as.flatMap forwardStep) = some w' ∧ ∀ upstream,
      run (SocketPool.step queries) (w.forwarder upstream) (as.filter fun a => targets a.task = upstream) =
        some (w'.forwarder upstream) := by
  induction as generalizing w with
  | nil => exact ⟨w, rfl, fun _ => rfl⟩
  | cons a as ih =>
    obtain ⟨last, hlast⟩ := h (targets a.task)
    rw [List.filter_cons_of_pos (by simp)] at hlast
    obtain ⟨pool, hpool, _⟩ := run_cons.mp hlast
    let entered := (w.getOrCreate (targets a.task)).2
    have hstep : entered.step targets queries (.pool a) = some ⟨entered.forwarders.insert (targets a.task) pool⟩ := by
      have hlookup : entered.forwarders.lookup (targets a.task) = some (w.forwarder (targets a.task)) := lookup_enter w _
      rw [step, hlookup]
      simp only [Option.bind_eq_bind, Option.bind_some, hpool]
    have hnext : forwarder ⟨entered.forwarders.insert (targets a.task) pool⟩ =
        update w.forwarder (targets a.task) pool := by
      rw [forwarder_insert]
      congr 1
      exact funext (forwarder_enter w _)
    have hsplit : ∀ upstream p, run (SocketPool.step queries) (w.forwarder upstream)
        ((a :: as).filter fun a => targets a.task = upstream) = some p ↔
        run (SocketPool.step queries) (forwarder ⟨entered.forwarders.insert (targets a.task) pool⟩ upstream)
          (as.filter fun a => targets a.task = upstream) = some p := by
      intro upstream p
      rw [hnext]
      by_cases hu : targets a.task = upstream
      · subst hu
        rw [List.filter_cons_of_pos (by simp), update_self, run_cons]
        constructor
        · rintro ⟨m, hm, hrest⟩
          obtain rfl := Option.some.inj (hm.symm.trans hpool)
          exact hrest
        · exact fun hrest => ⟨pool, hpool, hrest⟩
      · rw [List.filter_cons_of_neg (by simpa using hu), update_of_ne (Ne.symm hu)]
    obtain ⟨w', hrun, hforwarders⟩ := ih fun upstream => (h upstream).imp fun p hp => (hsplit upstream p).mp hp
    refine ⟨w', ?_, fun upstream => (hsplit upstream _).mpr (hforwarders upstream)⟩
    rw [List.flatMap_cons]
    exact run_cons.mpr ⟨entered, rfl, run_cons.mpr ⟨_, hstep, hrun⟩⟩

end Isolation

/-- **Upstreams are isolated.** What a run does at the forwarder of an upstream is a run of that forwarder alone,
on its own calls. And whatever order the steps of the calls come in, they can be taken if each forwarder can take
its own: no upstream that is slow or out of permits holds up a call to another. -/
theorem upstreams_isolated (targets : TaskId → SocketAddr) (queries : TaskId → Bytes) :
    (∀ acts w, run (step targets queries) new acts = some w → ∀ upstream,
      run (SocketPool.step queries) (.withConcurrency defaultPool) (acts.filterMap (own targets upstream)) =
        some (w.forwarder upstream)) ∧
    ∀ as : List PoolAction,
      (∀ upstream, ∃ pool, run (SocketPool.step queries) (.withConcurrency defaultPool)
        (as.filter fun a => targets a.task = upstream) = some pool) →
      ∃ w, run (step targets queries) new (as.flatMap forwardStep) = some w := by
  refine ⟨fun acts w h => run_forwarder h, fun as h => ?_⟩
  obtain ⟨w, hrun, _⟩ := @run_of_forwarders targets queries new as h
  exact ⟨w, hrun⟩

/-! ## The budget -/

section Budget
variable {targets : TaskId → SocketAddr} {queries : TaskId → Bytes} {ts : List TaskId}

/-- As many calls as there are permits can have one. -/
theorem run_acquire {pool : SocketPool} (hnodup : ts.Nodup) (hwaiting : ∀ t ∈ ts, pool.phase t = .waiting)
    (hfree : ts.length ≤ pool.permits) (hqueries : ∀ t ∈ ts, 2 ≤ (queries t).length) :
    ∃ pool', run (SocketPool.step queries) pool (ts.map .acquire) = some pool' ∧
      (∀ t ∈ ts, pool'.phase t = .permitted) ∧ ∀ t ∉ ts, pool'.phase t = pool.phase t := by
  induction ts generalizing pool with
  | nil => exact ⟨pool, rfl, nofun, fun _ _ => rfl⟩
  | cons t ts ih =>
    obtain ⟨hnew, hnodup⟩ := List.nodup_cons.mp hnodup
    have hpos : 0 < pool.permits := Nat.lt_of_lt_of_le (Nat.succ_pos _) hfree
    let next : SocketPool := { pool.setPhase t .permitted with permits := pool.permits - 1 }
    have hstep : pool.step queries (.acquire t) = some next := by
      have hlong := Nat.not_lt.mpr (hqueries t List.mem_cons_self)
      simp only [SocketPool.step, hwaiting t List.mem_cons_self, if_neg hlong, if_pos hpos]
      rfl
    have hother : ∀ t' ≠ t, next.phase t' = pool.phase t' := fun t' ht' => update_of_ne ht' ..
    have hne : ∀ {t'}, t' ∈ ts → t' ≠ t := fun hmem heq => hnew (heq ▸ hmem)
    obtain ⟨pool', hrun, hpermitted, hrest⟩ := @ih next hnodup
      (fun t' ht' => (hother t' (hne ht')).trans (hwaiting t' (List.mem_cons_of_mem t ht')))
      (Nat.le_sub_one_of_lt hfree) fun t' ht' => hqueries t' (List.mem_cons_of_mem t ht')
    refine ⟨pool', run_cons.mpr ⟨next, hstep, hrun⟩, fun t' ht' => ?_, fun t' ht' => ?_⟩
    · obtain rfl | ht' := List.mem_cons.mp ht'
      · rw [hrest t' hnew]
        exact update_self ..
      · exact hpermitted t' ht'
    · obtain ⟨hne', hnot⟩ := not_or.mp (List.mem_cons.not.mp ht')
      exact (hrest t' hnot).trans (hother t' hne')

theorem filter_map_acquire (upstream : SocketAddr) :
    ((ts.map PoolAction.acquire).filter fun a => targets a.task = upstream) =
      (ts.filter fun t => targets t = upstream).map .acquire :=
  List.filter_map

end Budget

/-- **The budget of 64 concurrent queries is one for each upstream, and they do not share it.** Calls can have a
permit at the same time exactly if no more than 64 of them go to the same upstream, however many there are. -/
theorem in_flight_together_iff (targets : TaskId → SocketAddr) (queries : TaskId → Bytes) (ts : List TaskId)
    (hnodup : ts.Nodup) (hqueries : ∀ t ∈ ts, 2 ≤ (queries t).length) :
    (∃ acts w, run (step targets queries) new acts = some w ∧
        ∀ t ∈ ts, ((w.forwarder (targets t)).phase t).holdsPermit = true) ↔
      ∀ upstream, (ts.filter fun t => targets t = upstream).length ≤ defaultPool := by
  constructor
  · rintro ⟨acts, w, hrun, hall⟩ upstream
    obtain ⟨hbounded, _⟩ := @SocketPool.invariant_of_run queries _ defaultPool _ (run_forwarder hrun upstream)
    have hsubset : (↑(ts.filter fun t => targets t = upstream).toFinset : Set TaskId) ⊆
        { t | ((w.forwarder upstream).phase t).holdsPermit = true } := by
      intro t ht
      obtain ⟨hmem, htarget⟩ := List.mem_filter.mp (List.mem_toFinset.mp ht)
      have hpermit := hall t hmem
      rwa [of_decide_eq_true htarget] at hpermit
    have hcard := Set.encard_le_encard hsubset
    rw [Set.encard_coe_eq_coe_finsetCard, List.toFinset_card_of_nodup (hnodup.filter _)] at hcard
    have hle : ((ts.filter fun t => targets t = upstream).length : ℕ∞) ≤ (defaultPool : ℕ) :=
      hcard.trans (le_add_self.trans hbounded.permits.le)
    exact_mod_cast hle
  · intro hfew
    have heach : ∀ upstream, ∃ pool, run (SocketPool.step queries) (new.forwarder upstream)
        ((ts.map .acquire).filter fun a => targets a.task = upstream) = some pool ∧
          ∀ t ∈ ts.filter fun t => targets t = upstream, pool.phase t = .permitted := by
      intro upstream
      rw [filter_map_acquire]
      obtain ⟨pool, hrun, hpermitted, _⟩ := @run_acquire queries (ts.filter fun t => targets t = upstream)
        (.withConcurrency defaultPool) (hnodup.filter _) (fun _ _ => rfl) (hfew upstream)
        fun t ht => hqueries t (List.mem_of_mem_filter ht)
      exact ⟨pool, hrun, hpermitted⟩
    obtain ⟨w, hrun, hforwarders⟩ := @run_of_forwarders targets queries new (ts.map .acquire) fun upstream =>
      (heach upstream).imp fun _ h => h.1
    refine ⟨_, w, hrun, fun t ht => ?_⟩
    obtain ⟨pool, hpool, hpermitted⟩ := heach (targets t)
    obtain rfl := Option.some.inj (hpool.symm.trans (hforwarders (targets t)))
    rw [hpermitted t (List.mem_filter.mpr ⟨ht, decide_eq_true rfl⟩)]
    rfl

/-- The first 64 calls go to one upstream and all others to another. -/
def twoUpstreams (t : TaskId) : SocketAddr :=
  if t < 64 then ⟨.v4 ⟨9, 9, 9, 9⟩, 53, 0⟩ else ⟨.v4 ⟨8, 8, 8, 8⟩, 53, 0⟩

theorem in_flight_together_twoUpstreams : ∃ acts w, run (step twoUpstreams fun _ => [0, 1]) new acts = some w ∧
    ∀ t ∈ List.range 128, ((w.forwarder (twoUpstreams t)).phase t).holdsPermit = true := by
  refine (in_flight_together_iff twoUpstreams (fun _ => [0, 1]) (List.range 128) List.nodup_range fun _ _ => le_rfl).mpr
    fun upstream => ?_
  have hmono : ∀ half : TaskId → Bool, (∀ t, twoUpstreams t = upstream → half t = true) →
      ((List.range 128).countP half) = 64 →
      ((List.range 128).filter fun t => twoUpstreams t = upstream).length ≤ defaultPool := by
    intro half hhalf hcount
    rw [← List.countP_eq_length_filter]
    exact (List.countP_mono_left fun t _ ht => hhalf t (of_decide_eq_true ht)).trans hcount.le
  by_cases hfirst : upstream = twoUpstreams 0
  · refine hmono (fun t => decide (t < 64)) (fun t ht => decide_eq_true ?_) (by decide)
    by_contra hlate
    rw [hfirst, twoUpstreams, if_neg hlate] at ht
    revert ht
    decide
  · refine hmono (fun t => !decide (t < 64)) (fun t ht => ?_) (by decide)
    rw [Bool.not_eq_true', decide_eq_false_iff_not]
    intro hearly
    rw [twoUpstreams, if_pos hearly] at ht
    exact hfirst ht.symm

end MultiForwarder
end MiniDns
