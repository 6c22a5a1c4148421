import MiniDns.Reload
import MiniDns.Selection

/-! The layers of the configuration: command line over environment, settings file, built-in default. The
command line is read with its defaults filled in, so that `run_server` cannot tell whether a flag was given;
it takes these five settings from there, and never looks at the file for them. -/
namespace MiniDns
open Lib Lib.Outcome Dns
set_option autoImplicit false

/-! ## The command line -/

/-- The flags that are given; `none` for one that is left out. -/
structure CommandLine where
  config : Option Text
  zone : Option Text
  addr : Option Text
  upstream : Option Text
  noRecurse : Bool
  rateLimit : Option UInt32
  cacheSize : Option ℕ

/-- `MINI_DNS_CONFIG`, `_ZONE`, `_ADDR`, `_UPSTREAM` and `_RATE_LIMIT`. -/
structure Environment where
  config : Option Text := none
  zone : Option Text := none
  addr : Option Text := none
  upstream : Option Text := none
  rateLimit : Option UInt32 := none

def defaultAddr : Text := "127.0.0.1:8888".toList
def defaultUpstream : Text := "8.8.8.8:53".toList
def defaultRateLimit : UInt32 := 0
def defaultCacheSize : ℕ := 1024

structure ServerArgs extends Args where
  addr : Text

namespace CommandLine

def orEnv (cli : CommandLine) (env : Environment) : CommandLine :=
  { cli with
    config := cli.config <|> env.config
    zone := cli.zone <|> env.zone
    addr := cli.addr <|> env.addr
    upstream := cli.upstream <|> env.upstream
    rateLimit := cli.rateLimit <|> env.rateLimit }

/-- `Args::parse()` -/
def args (given : CommandLine) : ServerArgs where
  config := given.config
  zone := given.zone.getD "zones/example.zone".toList
  addr := given.addr.getD defaultAddr
  upstream := given.upstream.getD defaultUpstream
  noRecurse := given.noRecurse
  rateLimit := given.rateLimit.getD defaultRateLimit
  cacheSize := given.cacheSize.getD defaultCacheSize

end CommandLine

/-- `run_server` up to the call of `server::run`: the state, and the address that the listeners bind. -/
def startServer (rt : Runtime) (toml : Text → Option Settings) (files : Files) (args : ServerArgs)
    (keyPair : Option (Bytes × Bytes)) : Outcome LoadError (Running × Text) := do
  let running ← runServer rt toml files args.toArgs keyPair
  pure (running, args.addr)

/-! ## What should be in force -/

def layered {α : Type} (given file : Option α) (default : α) : α := given.getD (file.getD default)

def serverValue {α : Type} (settings : Option Settings) (field : ServerSettings → Option α) : Option α :=
  (settings.bind Settings.server).bind field

def fileUpstream (settings : Option Settings) : Option Text :=
  (settings.bind Settings.upstream).bind UpstreamSettings.default

def layeredNoRecurse (given : CommandLine) (settings : Option Settings) : Bool :=
  layered (if given.noRecurse then some true else none) (serverValue settings ServerSettings.noRecurse) false

/-- No conditional rule of the settings file matches the name. -/
def Unmatched (rt : Runtime) (settings : Option Settings) (name : Text) : Prop :=
  ∀ rule ∈ ((settings.bind Settings.upstream).bind UpstreamSettings.rules).getD [],
    ¬ MatchesSuffix name (rt.toLowercase rule.suffix)

/-- The resolver is the default upstream: a name that no rule matches belongs to it, and is forwarded there. -/
structure ForwardsTo (rt : Runtime) (settings : Option Settings) (st : ServerState) (resolver : SocketAddr) : Prop where
  default : st.forwardRules.default = some resolver
  unmatched : ∀ name, Unmatched rt settings name → st.forwardRules.matchName name = some resolver
  forwarded : ∀ m req client transport ctx st', st.resolveLocal rt m req client transport = ok (.forward ctx, st') →
    Unmatched rt settings ctx.name → ctx.upstream = resolver

/-- The command line wins over the file, and the file over the built-in default. Without recursion there is no
forwarder, and the server offers none; there is a default upstream where names are forwarded, that is with
recursion and outside recursive mode. -/
structure Layered (rt : Runtime) (given : CommandLine) (settings : Option Settings) (st : ServerState)
    (addr : Text) : Prop where
  addr : addr = layered given.addr (serverValue settings ServerSettings.addr) defaultAddr
  rateLimit : st.limiter =
    RateLimiter.new (layered given.rateLimit (serverValue settings ServerSettings.rateLimit) defaultRateLimit)
      (fromSecs 1)
  cacheSize : st.cache =
    Cache.new (layered given.cacheSize (serverValue settings ServerSettings.cacheSize) defaultCacheSize)
  forwarder : st.forwarder = !layeredNoRecurse given settings
  noRecurse : st.recursionAvailable = !layeredNoRecurse given settings
  upstream : layeredNoRecurse given settings = false → recursiveMode settings = false → ∃ resolver,
    parseUpstream (layered given.upstream (fileUpstream settings) defaultUpstream) = ok resolver ∧
      ForwardsTo rt settings st resolver

/-- Where the command line leaves a setting out, the file does so too or has the built-in default; and a command
line that turns recursion off does not come with a file that turns recursive mode on. -/
structure FileDefaults (given : CommandLine) (settings : Option Settings) : Prop where
  addr : given.addr = none → ∀ a ∈ serverValue settings ServerSettings.addr, a = defaultAddr
  rateLimit : given.rateLimit = none → ∀ n ∈ serverValue settings ServerSettings.rateLimit, n = defaultRateLimit
  cacheSize : given.cacheSize = none → ∀ n ∈ serverValue settings ServerSettings.cacheSize, n = defaultCacheSize
  noRecurse : given.noRecurse = false → ∀ b ∈ serverValue settings ServerSettings.noRecurse, b = false
  recursive : given.noRecurse = true → recursiveMode settings = false
  upstream : given.noRecurse = false → recursiveMode settings = false → given.upstream = none →
    ∀ s ∈ fileUpstream settings, parseUpstream s = parseUpstream defaultUpstream

theorem getD_eq_layered_iff {α : Type} {given file : Option α} {default : α} :
    given.getD default = layered given file default ↔ (given = none → ∀ a ∈ file, a = default) := by
  cases given with
  | some a => simp [layered]
  | none =>
    cases file with
    | none => simp [layered]
    | some a => simp [layered, eq_comm]

/-! ## What is in force -/

section Start
variable {rt : Runtime} {toml : Text → Option Settings} {files : Files} {args : Args} {given : CommandLine}
  {keyPair : Option (Bytes × Bytes)} {settings : Option Settings} {r : Running}

structure BuiltFrom (rt : Runtime) (args : Args) (settings : Option Settings) (st : ServerState) : Prop where
  limiter : st.limiter = RateLimiter.new args.rateLimit (fromSecs 1)
  cache : st.cache = Cache.new args.cacheSize
  forwarder : st.forwarder = !args.noRecurse
  recursive : st.recursive = recursiveMode settings
  rules : startRules rt args settings = ok st.forwardRules

theorem builtFrom_of_runServer (h : runServer rt toml files args keyPair = ok r) :
    ∃ settings, startSettings toml files args = ok settings ∧ BuiltFrom rt args settings r.state := by
  unfold runServer at h
  obtain ⟨settings, hsettings, h⟩ := Outcome.bind_eq_ok.mp h
  obtain ⟨_, _, h⟩ := Outcome.bind_eq_ok.mp h
  obtain ⟨rules, hrules, h⟩ := Outcome.bind_eq_ok.mp h
  obtain rfl := Outcome.ok.inj h
  refine ⟨settings, hsettings, ?_, rfl, rfl, rfl, hrules⟩
  -- a limit of zero is the disabled limiter
  dsimp only
  split
  · rename_i hzero
    rw [hzero]
    rfl
  · rfl

theorem suffix_of_loadRules {rs : List ForwardRuleSettings} {rules : List ForwardRule}
    (h : loadRules rt rs = ok rules) : ∀ rule ∈ rules, ∃ r ∈ rs, rule.suffix = rt.toLowercase r.suffix := by
  induction rs generalizing rules with
  | nil =>
    obtain rfl := Outcome.ok.inj h
    exact fun _ hrule => absurd hrule List.not_mem_nil
  | cons r rs ih =>
    obtain ⟨upstream, _, h⟩ := Outcome.bind_eq_ok.mp h
    obtain ⟨rules, hrules, h⟩ := Outcome.bind_eq_ok.mp h
    obtain rfl := Outcome.ok.inj h
    intro rule hrule
    obtain rfl | hrule := List.mem_cons.mp hrule
    · exact ⟨r, List.mem_cons_self, rfl⟩
    · obtain ⟨r', hr', hsuffix⟩ := ih hrules rule hrule
      exact ⟨r', List.mem_cons_of_mem _ hr', hsuffix⟩

theorem forwardRulesFromSettings_cases {file : Settings} {rules : ForwardRules}
    (h : forwardRulesFromSettings rt file = ok rules) : rules = ForwardRules.none ∨
      ∃ up default list, file.upstream = some up ∧ loadRules rt (up.rules.getD []) = ok list ∧
        rules = ForwardRules.new default list := by
  unfold forwardRulesFromSettings at h
  cases hup : file.upstream with
  | none =>
    rw [hup] at h
    exact .inl (Outcome.ok.inj h).symm
  | some up =>
    rw [hup] at h
    dsimp only at h
    have hlist : ∃ default, (loadRules rt (up.rules.getD []) >>= fun list => pure (ForwardRules.new default list)) =
        ok rules := by
      split at h
      · obtain ⟨addr, _, h⟩ := Outcome.bind_eq_ok.mp h
        exact ⟨some addr, h⟩
      · exact ⟨none, h⟩
    obtain ⟨default, h⟩ := hlist
    obtain ⟨list, hlist, h⟩ := Outcome.bind_eq_ok.mp h
    exact .inr ⟨up, default, list, rfl, hlist, (Outcome.ok.inj h).symm⟩

theorem unmatched_rules {file : Settings} {rules : ForwardRules} (h : forwardRulesFromSettings rt file = ok rules)
    {name : Text} (hname : Unmatched rt (some file) name) : ∀ rule ∈ rules.rules, ¬ MatchesSuffix name rule.suffix := by
  obtain rfl | ⟨up, default, list, hup, hlist, rfl⟩ := forwardRulesFromSettings_cases h
  · exact fun _ hrule => absurd hrule List.not_mem_nil
  · intro rule hrule
    obtain ⟨r, hr, hsuffix⟩ := suffix_of_loadRules hlist rule (List.mem_insertionSort _ |>.mp hrule)
    rw [hsuffix]
    refine hname r ?_
    rw [Option.bind_some, hup]
    exact hr

theorem withDefault_of_startRules {rules : ForwardRules} (hrules : startRules rt args settings = ok rules)
    (hrecurse : args.noRecurse = false) (hmode : recursiveMode settings = false) :
    ∃ (base : ForwardRules) (resolver : SocketAddr), parseUpstream args.upstream = ok resolver ∧
      (∀ name, Unmatched rt settings name → ∀ rule ∈ base.rules, ¬ MatchesSuffix name rule.suffix) ∧
      base.withDefault resolver = rules := by
  rw [startRules, if_neg (by simp [hrecurse])] at hrules
  cases settings with
  | none =>
    obtain ⟨base, hnone, hrules⟩ := Outcome.bind_eq_ok.mp hrules
    obtain ⟨resolver, hparse, hrules⟩ := Outcome.bind_eq_ok.mp hrules
    obtain rfl := Outcome.ok.inj hnone
    exact ⟨_, resolver, hparse, fun _ _ _ hrule => absurd hrule List.not_mem_nil, Outcome.ok.inj hrules⟩
  | some file =>
    obtain ⟨base, hfile, hrules⟩ := Outcome.bind_eq_ok.mp hrules
    obtain ⟨resolver, hparse, hrules⟩ := Outcome.bind_eq_ok.mp hrules
    rw [hmode] at hrules
    exact ⟨base, resolver, hparse, fun _ hname => unmatched_rules hfile hname, Outcome.ok.inj hrules⟩

theorem forwardsTo_of_startRules (hrules : startRules rt args settings = ok r.state.forwardRules)
    (hrecurse : args.noRecurse = false) (hmode : recursiveMode settings = false) :
    ∃ resolver, parseUpstream args.upstream = ok resolver ∧ ForwardsTo rt settings r.state resolver := by
  obtain ⟨base, resolver, hparse, hnone, hstate⟩ := withDefault_of_startRules hrules hrecurse hmode
  have hunmatched : ∀ name, Unmatched rt settings name → r.state.forwardRules.matchName name = some resolver := by
    intro name hname
    rw [← hstate]
    exact (base.matchName_withDefault resolver name).2 (hnone name hname)
  refine ⟨resolver, hparse, ?_, hunmatched, ?_⟩
  · rw [← hstate]
    rfl
  · intro m req client transport ctx st' hlocal hname
    obtain ⟨_, _, _, hcase⟩ := ServerState.localCase_of_resolveLocal hlocal (by simp)
    cases hcase with
    | forwarded _ _ _ _ hupstream =>
      have hmatch := hunmatched _ hname
      obtain hsome | ⟨hnone, _⟩ := hupstream
      · exact Option.some.inj (hsome.symm.trans hmatch)
      · exact absurd (hmatch.symm.trans hnone) (Option.some_ne_none _)

/-- Recursion is offered unless it is turned off, and in recursive mode all the same. -/
theorem recursionAvailable_eq (hbuilt : BuiltFrom rt args settings r.state) :
    r.state.recursionAvailable = (!args.noRecurse || recursiveMode settings) := by
  have hrules := hbuilt.rules
  rw [ServerState.recursionAvailable, hbuilt.recursive]
  cases hflag : args.noRecurse with
  | true =>
    rw [startRules, if_pos hflag] at hrules
    rw [← Outcome.ok.inj hrules]
    rfl
  | false =>
    cases hmode : recursiveMode settings with
    | true => simp
    | false =>
      obtain ⟨base, resolver, -, -, hstate⟩ := withDefault_of_startRules hrules hflag hmode
      rw [← hstate]
      rfl

theorem ForwardsTo.unique {st : ServerState} {a b : SocketAddr} (h : ForwardsTo rt settings st a)
    (h' : ForwardsTo rt settings st b) : a = b :=
  Option.some.inj (h.default.symm.trans h'.default)

theorem noRecurse_iff : (!given.noRecurse) = (!layeredNoRecurse given settings) ↔
    (given.noRecurse = false → ∀ b ∈ serverValue settings ServerSettings.noRecurse, b = false) := by
  rw [Bool.not_inj_iff, layeredNoRecurse]
  cases hflag : given.noRecurse with
  | true => simp [layered]
  | false =>
    have hiff :
        (none : Option Bool).getD false = layered none (serverValue settings ServerSettings.noRecurse) false ↔ _ :=
      getD_eq_layered_iff
    exact hiff.trans (by simp)

theorem upstream_iff (hbuilt : BuiltFrom rt given.args.toArgs settings r.state)
    (hrecurse : given.noRecurse = false) (hmode : recursiveMode settings = false) :
    (∃ resolver, parseUpstream (layered given.upstream (fileUpstream settings) defaultUpstream) = ok resolver ∧
        ForwardsTo rt settings r.state resolver) ↔
      (given.upstream = none → ∀ s ∈ fileUpstream settings, parseUpstream s = parseUpstream defaultUpstream) := by
  obtain ⟨resolver, hparse, hforwards⟩ := forwardsTo_of_startRules hbuilt.rules hrecurse hmode
  have hgiven : parseUpstream (given.upstream.getD defaultUpstream) = ok resolver := hparse
  constructor
  · rintro ⟨resolver', hparse', hforwards'⟩ hnone s hs
    obtain rfl := hforwards.unique hforwards'
    rw [hnone, layered, Option.mem_def.mp hs] at hparse'
    rw [hnone] at hgiven
    exact hparse'.trans hgiven.symm
  · intro hfile
    refine ⟨resolver, ?_, hforwards⟩
    cases hup : given.upstream with
    | some s =>
      rw [hup] at hgiven
      exact hgiven
    | none =>
      rw [hup] at hgiven
      cases hs : fileUpstream settings with
      | none => exact hgiven
      | some s => exact (hfile hup s hs).trans hgiven

end Start

/-- **The layers of the configuration are kept exactly when the settings file has nothing to say where the command
line is silent**, or the built-in default. -/
theorem layered_iff_fileDefaults (rt : Runtime) (toml : Text → Option Settings) (files : Files) (cli : CommandLine)
    (env : Environment) (keyPair : Option (Bytes × Bytes)) (r : Running) (addr : Text)
    (h : startServer rt toml files (cli.orEnv env).args keyPair = ok (r, addr)) :
    ∃ settings, startSettings toml files (cli.orEnv env).args.toArgs = ok settings ∧
      (Layered rt (cli.orEnv env) settings r.state addr ↔ FileDefaults (cli.orEnv env) settings) := by
  obtain ⟨running, hrun, h⟩ := Outcome.bind_eq_ok.mp h
  obtain ⟨rfl, rfl⟩ := Prod.mk.inj (Outcome.ok.inj h)
  obtain ⟨settings, hsettings, hbuilt⟩ := builtFrom_of_runServer hrun
  refine ⟨settings, hsettings, ?_⟩
  generalize cli.orEnv env = given at hbuilt ⊢
  constructor
  · intro hlayered
    have hrecurse := noRecurse_iff.mp (hbuilt.forwarder.symm.trans hlayered.forwarder)
    refine ⟨getD_eq_layered_iff.mp hlayered.addr, getD_eq_layered_iff.mp ?_, getD_eq_layered_iff.mp ?_, hrecurse,
      ?_, ?_⟩
    · exact congrArg RateLimiter.maxPerWindow (hbuilt.limiter.symm.trans hlayered.rateLimit)
    · exact congrArg Cache.capacity (hbuilt.cache.symm.trans hlayered.cacheSize)
    · intro hflag
      have hoff := recursionAvailable_eq hbuilt
      rw [hlayered.noRecurse, ← noRecurse_iff.mpr hrecurse] at hoff
      rw [show given.args.noRecurse = given.noRecurse from rfl, hflag] at hoff
      exact hoff.symm
    · intro hflag hmode
      have hlayer : layeredNoRecurse given settings = false := by
        rw [← Bool.not_inj_iff, ← noRecurse_iff.mpr hrecurse, hflag]
      exact (upstream_iff hbuilt hflag hmode).mp (hlayered.upstream hlayer hmode)
  · intro hfile
    have hrecurse := noRecurse_iff.mpr hfile.noRecurse
    refine ⟨getD_eq_layered_iff.mpr hfile.addr, ?_, ?_, hbuilt.forwarder.trans hrecurse, ?_, ?_⟩
    · rw [← getD_eq_layered_iff.mpr hfile.rateLimit]
      exact hbuilt.limiter
    · rw [← getD_eq_layered_iff.mpr hfile.cacheSize]
      exact hbuilt.cache
    · rw [← hrecurse, recursionAvailable_eq hbuilt, show given.args.noRecurse = given.noRecurse from rfl]
      cases hflag : given.noRecurse with
      | true => exact hfile.recursive hflag
      | false => rfl
    · intro hlayer hmode
      have hflag : given.noRecurse = false := by
        rw [← Bool.not_inj_iff, hrecurse, hlayer]
      exact (upstream_iff hbuilt hflag hmode).mpr (hfile.upstream hflag hmode)

def configOnly (rateLimit : Option UInt32) : CommandLine := ⟨some ['c'], none, none, none, false, rateLimit, none⟩

def limitedSettings : Settings :=
  { server := some ⟨none, none, some 50, none⟩, upstream := some ⟨some "8.8.8.8".toList, none, false⟩ }

theorem layered_iff_fileDefaults_flag : ∃ r,
    startServer .ascii (fun _ => some limitedSettings) (fun _ => some []) ((configOnly (some 20)).orEnv {}).args none =
      ok (r, defaultAddr) ∧
    Layered .ascii ((configOnly (some 20)).orEnv {}) (some limitedSettings) r.state defaultAddr := by
  obtain ⟨r, hstart⟩ : ∃ r, startServer .ascii (fun _ => some limitedSettings) (fun _ => some [])
      ((configOnly (some 20)).orEnv {}).args none = ok (r, defaultAddr) := ⟨_, rfl⟩
  obtain ⟨settings, hsettings, hiff⟩ := layered_iff_fileDefaults .ascii (fun _ => some limitedSettings)
    (fun _ => some []) (configOnly (some 20)) {} none r defaultAddr hstart
  obtain rfl : some limitedSettings = settings := Outcome.ok.inj hsettings
  refine ⟨r, hstart, hiff.mpr ⟨nofun, nofun, nofun, nofun, nofun, fun _ _ _ s hs => ?_⟩⟩
  obtain rfl : "8.8.8.8".toList = s := Option.some.inj hs
  decide

/-- The settings of the documented config file: an address, a rate limit and a default upstream. -/
def documentedSettings : Settings :=
  { server := some ⟨some "0.0.0.0:53".toList, none, some 50, none⟩
    upstream := some ⟨some "1.1.1.1:53".toList, none, false⟩ }

/-- Started with that file alone, the server listens on the built-in address, limits nobody and sends names
to the built-in upstream. -/
theorem documented_settings_ignored : ∃ r,
    startServer .ascii (fun _ => some documentedSettings) (fun _ => some []) ((configOnly none).orEnv {}).args none =
      ok (r, "127.0.0.1:8888".toList) ∧
    r.state.limiter = RateLimiter.disabled ∧
    r.state.forwardRules.default = some ⟨.v4 ⟨8, 8, 8, 8⟩, 53, 0⟩ ∧
    ¬ Layered .ascii ((configOnly none).orEnv {}) (some documentedSettings) r.state "127.0.0.1:8888".toList := by
  refine ⟨_, rfl, rfl, rfl, fun h => ?_⟩
  exact absurd h.addr (by decide)

end MiniDns
