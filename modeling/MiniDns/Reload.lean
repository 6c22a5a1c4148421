import MiniDns.Lib.Runs
import MiniDns.Settings
import MiniDns.State
import MiniDns.Wildcards
import Mathlib.Data.Set.Basic

/-! A reload against a restart. Both load the zones of the config file, but a reload leaves the forwarding
rules as the start made them, and the blocklist remembers the path that it was started with. -/
namespace MiniDns
open Lib Lib.Outcome Dns
set_option autoImplicit false

/-! ## Start -/

/-- The command line, with its defaults filled in. -/
structure Args where
  config : Option Text
  zone : Text
  upstream : Text
  noRecurse : Bool
  rateLimit : UInt32
  cacheSize : ℕ

/-- The server with the two paths that only a reload reads. -/
structure Running where
  state : ServerState
  zonePath : Option Text
  blocklistPath : Option Text

def parseUpstream (s : Text) : Outcome LoadError SocketAddr := parseUpstreamAddr s

def recursiveMode (settings : Option Settings) : Bool :=
  (settings.bind Settings.upstream).any UpstreamSettings.recursive

/-- The rules of the config file, with the upstream of the command line as the default unless names are
resolved from the root. -/
def startRules (rt : Runtime) (args : Args) (settings : Option Settings) : Outcome LoadError ForwardRules :=
  if args.noRecurse then ok ForwardRules.none
  else do
    let rules ← match settings with
      | some s => forwardRulesFromSettings rt s
      | none => ok ForwardRules.none
    let cliUpstream ← parseUpstream args.upstream
    pure (if recursiveMode settings then ForwardRules.new none rules.rules else rules.withDefault cliUpstream)

def startZones (rt : Runtime) (files : Files) (args : Args) :
    Option Settings → Outcome LoadError (ZoneSet × Option Text)
  | some settings => do
    let zones ← loadZonesFromSettings rt files settings
    pure (zones, args.config)
  | none => do
    let zone ← loadZoneWithInferredOrigin rt files args.zone
    pure (ZoneSet.fromSingle zone.origin zone.records, some args.zone)

/-- The list of the config file; an unreadable or empty one is as good as none. -/
def startBlocklist (rt : Runtime) (files : Files) (settings : Option Settings) : FileBlocklist :=
  let loaded := match settings.bind Settings.blocklist with
    | some cfg => (FileBlocklist.fromFile rt files cfg.file).toOption.getD .empty
    | none => .empty
  if loaded.list.isActive then loaded else .empty

def startDns64 (settings : Option Settings) : Option Ipv6Addr :=
  (settings.bind Settings.dns64).bind fun cfg => cfg.netPrefix.bind parseIpv6Addr

def startAcl (settings : Option Settings) : Acl :=
  match settings.bind Settings.axfr with
  | some cfg => (Acl.parse cfg.allow).toOption.getD Acl.denyAll
  | none => Acl.denyAll

/-- `DnssecKeys::single("example.com")`, if the key pair (public key and PKCS#8 document) was generated. -/
def startKeys (keyPair : Option (Bytes × Bytes)) (settings : Option Settings) : Option DnssecKeys :=
  if (settings.bind Settings.dnssec).any DnssecSettings.enabled then
    keyPair.map fun (publicKey, privateKey) => ⟨[⟨"example.com".toList, 0x0101, 15, publicKey, privateKey⟩]⟩
  else none

def startSettings (toml : Text → Option Settings) (files : Files) (args : Args) : Outcome LoadError (Option Settings) :=
  match args.config with
  | some path => do
    let settings ← loadSettings toml files path
    pure (some settings)
  | none => pure none

/-- `run_server` up to the point where the state is complete. -/
def runServer (rt : Runtime) (toml : Text → Option Settings) (files : Files) (args : Args)
    (keyPair : Option (Bytes × Bytes)) : Outcome LoadError Running := do
  let settings ← startSettings toml files args
  let (zones, zonePath) ← startZones rt files args settings
  let forwardRules ← startRules rt args settings
  let blocklist := startBlocklist rt files settings
  pure
    { state :=
        { zones := zones
          forwardRules := forwardRules
          forwarder := !args.noRecurse
          recursive := recursiveMode settings
          cache := Cache.new args.cacheSize
          limiter :=
            if args.rateLimit = 0 then RateLimiter.disabled else RateLimiter.new args.rateLimit (fromSecs 1)
          blocklist := blocklist.list
          dns64Prefix := startDns64 settings
          axfrAcl := startAcl settings
          dnssecKeys := startKeys keyPair settings }
      zonePath := zonePath
      blocklistPath := blocklist.path }

/-! ## Reload -/

namespace Running

def blocklist (r : Running) : FileBlocklist := ⟨r.state.blocklist, r.blocklistPath⟩

def withZones (r : Running) (zones : ZoneSet) : Running := { r with state := { r.state with zones := zones } }

def withBlocklist (r : Running) (b : FileBlocklist) : Running :=
  { r with state := { r.state with blocklist := b.list }, blocklistPath := b.path }

def reload (rt : Runtime) (toml : Text → Option Settings) (files : Files) (r : Running) : Outcome LoadError Running :=
  match r.zonePath with
  | none => ok r
  | some path =>
    if ".toml".toList.isSuffixOf path then do
      let settings ← loadSettings toml files path
      let zones ← loadZonesFromSettings rt files settings
      let r := r.withZones zones
      match settings.blocklist with
      -- that there is a blocklist is all that is used of its settings; a failure is only logged
      | some _ => (r.blocklist.reload rt files).handle (fun b => ok (r.withBlocklist b)) fun _ => ok r
      | none => ok r
    else do
      let zone ← ofOption (readZoneFile rt files path) .readingZone
      pure (r.withZones (ZoneSet.fromSingle (inferredOrigin rt zone) zone))

/-- What happens to a running server: the signal to reload, and queries, which leave another cache and
another limiter behind. -/
inductive Event where
  | sighup (files : Files)
  | served (cache : Cache) (limiter : RateLimiter)

def step (rt : Runtime) (toml : Text → Option Settings) (r : Running) : Event → Option Running
  -- a failed reload changes nothing
  | .sighup files => some ((r.reload rt toml files).toOption.getD r)
  | .served cache limiter => some { r with state := { r.state with cache := cache, limiter := limiter } }

end Running

section Reload
variable {rt : Runtime} {toml : Text → Option Settings} {files files₀ : Files} {args : Args}
variable {keyPair : Option (Bytes × Bytes)} {path : Text} {r r₀ r' : Running} {settings : Settings}

theorem step_of_resolve {m : Moment} {req : Bytes} {client : IpAddr} {transport : Transport} {reply : Option Bytes}
    {st' : ServerState} (h : r.state.resolve rt m req client transport = ok (reply, st')) :
    ∃ cache limiter, r.step rt toml (.served cache limiter) = some { r with state := st' } := by
  obtain ⟨cache, limiter, rfl⟩ := ServerState.resolve_changes h
  exact ⟨cache, limiter, rfl⟩

/-! ## What a start and a reload yield -/

structure StartedFrom (rt : Runtime) (files : Files) (args : Args) (settings : Settings) (r : Running) : Prop where
  zones : loadZonesFromSettings rt files settings = ok r.state.zones
  rules : startRules rt args (some settings) = ok r.state.forwardRules
  blocklist : r.blocklist = startBlocklist rt files (some settings)
  zonePath : r.zonePath = args.config

theorem startedFrom_of_runServer (hconfig : args.config = some path)
    (h : runServer rt toml files args keyPair = ok r) :
    ∃ settings, loadSettings toml files path = ok settings ∧ StartedFrom rt files args settings r := by
  unfold runServer at h
  obtain ⟨_, hsettings, h⟩ := Outcome.bind_eq_ok.mp h
  rw [startSettings, hconfig] at hsettings
  obtain ⟨settings, hload, hsettings⟩ := Outcome.bind_eq_ok.mp hsettings
  obtain rfl := Outcome.ok.inj hsettings
  obtain ⟨⟨zones, zonePath⟩, hzones, h⟩ := Outcome.bind_eq_ok.mp h
  obtain ⟨_, hload', hzones⟩ := Outcome.bind_eq_ok.mp hzones
  obtain ⟨rfl, rfl⟩ := Prod.mk.inj (Outcome.ok.inj hzones)
  obtain ⟨rules, hrules, h⟩ := Outcome.bind_eq_ok.mp h
  obtain rfl := Outcome.ok.inj h
  exact ⟨settings, hload, hload', hrules, rfl, rfl⟩

/-- The blocklist behind a reload: the one of the remembered path if the config has a blocklist and the
path can be read, and the old one otherwise. -/
def reloadedBlocklist (rt : Runtime) (files : Files) (settings : Settings) (b : FileBlocklist) : Blocklist :=
  match settings.blocklist with
  | some _ => (b.path.bind (readBlocklistFile rt files)).getD b.list
  | none => b.list

structure ReloadedFrom (rt : Runtime) (files : Files) (settings : Settings) (r r' : Running) : Prop where
  zones : loadZonesFromSettings rt files settings = ok r'.state.zones
  rules : r'.state.forwardRules = r.state.forwardRules
  blocklist : r'.blocklist = ⟨reloadedBlocklist rt files settings r.blocklist, r.blocklistPath⟩
  zonePath : r'.zonePath = r.zonePath

theorem reload_blocklist (r : Running) :
    ((r.blocklist.reload rt files).handle (fun b => ok (r.withBlocklist b)) fun _ => ok r : Outcome LoadError Running) =
      ok (r.withBlocklist
        ⟨(r.blocklistPath.bind (readBlocklistFile rt files)).getD r.state.blocklist, r.blocklistPath⟩) := by
  obtain ⟨state, zonePath, blocklistPath⟩ := r
  cases blocklistPath with
  | none => rfl
  | some path =>
    rw [FileBlocklist.reload, Running.blocklist]
    dsimp only [Option.bind_some]
    cases readBlocklistFile rt files path <;> rfl

theorem reloadedFrom_of_reload (hpath : r.zonePath = some path) (htoml : ".toml".toList <:+ path)
    (h : r.reload rt toml files = ok r') :
    ∃ settings, loadSettings toml files path = ok settings ∧ ReloadedFrom rt files settings r r' := by
  unfold Running.reload at h
  rw [hpath] at h
  dsimp only at h
  rw [if_pos (List.isSuffixOf_iff_suffix.mpr htoml)] at h
  obtain ⟨settings, hload, h⟩ := Outcome.bind_eq_ok.mp h
  obtain ⟨zones, hzones, h⟩ := Outcome.bind_eq_ok.mp h
  refine ⟨settings, hload, ?_⟩
  cases hblocklist : settings.blocklist with
  | none =>
    rw [hblocklist] at h
    obtain rfl := Outcome.ok.inj h
    refine ⟨hzones, rfl, ?_, rfl⟩
    rw [reloadedBlocklist, hblocklist]
    rfl
  | some cfg =>
    rw [hblocklist] at h
    dsimp only at h
    rw [reload_blocklist] at h
    obtain rfl := Outcome.ok.inj h
    refine ⟨hzones, rfl, ?_, rfl⟩
    rw [reloadedBlocklist, hblocklist]
    rfl

/-! ## What a run keeps -/

/-- Rules and paths are those of the start, and so is a blocklist without a path. -/
structure KeptSince (r₀ r : Running) : Prop where
  zonePath : r.zonePath = r₀.zonePath
  rules : r.state.forwardRules = r₀.state.forwardRules
  path : r.blocklistPath = r₀.blocklistPath
  list : r₀.blocklistPath = none → r.state.blocklist = r₀.state.blocklist

theorem KeptSince.reloaded (h : KeptSince r₀ r) (hreload : ReloadedFrom rt files settings r r') : KeptSince r₀ r' := by
  -- a blocklist without a path has nothing to be loaded from
  obtain ⟨hlist, hpath⟩ := FileBlocklist.mk.inj hreload.blocklist
  refine ⟨hreload.zonePath.trans h.zonePath, hreload.rules.trans h.rules, hpath.trans h.path, fun hnone => ?_⟩
  rw [hlist, ← h.list hnone, reloadedBlocklist, Running.blocklist, h.path, hnone]
  cases settings.blocklist <;> rfl

theorem KeptSince.step (hpath : r₀.zonePath = some path) (htoml : ".toml".toList <:+ path) (h : KeptSince r₀ r)
    {event : Running.Event} (hstep : r.step rt toml event = some r') : KeptSince r₀ r' := by
  cases event with
  | served cache limiter =>
    obtain rfl := Option.some.inj hstep
    exact ⟨h.zonePath, h.rules, h.path, h.list⟩
  | sighup files =>
    obtain rfl := Option.some.inj hstep
    cases hreload : r.reload rt toml files with
    | ok r' =>
      obtain ⟨settings, _, hfrom⟩ := reloadedFrom_of_reload (h.zonePath.trans hpath) htoml hreload
      exact h.reloaded hfrom
    | _ => exact h

theorem keptSince_of_run (hpath : r₀.zonePath = some path) (htoml : ".toml".toList <:+ path)
    {events : List Running.Event} (hrun : run (Running.step rt toml) r₀ events = some r) : KeptSince r₀ r :=
  run_preserves (fun _ _ _ hkept hstep => hkept.step hpath htoml hstep) ⟨rfl, rfl, rfl, fun _ => rfl⟩ hrun

end Reload

/-! ## Reload against restart -/

def Blocklist.blockedNames (rt : Runtime) (b : Blocklist) : Set Text := { name | b.isBlocked rt name = true }

structure SameService (rt : Runtime) (st st' : ServerState) : Prop where
  zones : st.zones = st'.zones
  rules : st.forwardRules = st'.forwardRules
  blocked : st.blocklist.blockedNames rt = st'.blocklist.blockedNames rt

/-- Without a blocklist in the config, nothing was blocked. With one, the file of the remembered path
blocks the names that the file of the config does; where the one cannot be read the list in force takes its
place, and where the other cannot be read nothing may be blocked. -/
def BlocklistFollows (rt : Runtime) (files : Files) (settings : Settings) (b : FileBlocklist) : Prop :=
  match settings.blocklist with
  | none => b.list.blockedNames rt = ∅
  | some cfg =>
    match b.path.bind (readBlocklistFile rt files), readBlocklistFile rt files cfg.file with
    | some remembered, some named => remembered.blockedNames rt = named.blockedNames rt
    | some remembered, none => remembered.blockedNames rt = ∅
    | none, some named => b.list.blockedNames rt = named.blockedNames rt
    | none, none => b.list.blockedNames rt = ∅

section Restart
variable {rt : Runtime} {toml : Text → Option Settings} {files files₀ : Files} {args : Args}
    {settings started : Settings}
variable {r r₀ r' fresh : Running}

theorem blockedNames_empty (rt : Runtime) : Blocklist.empty.blockedNames rt = ∅ := by
  refine Set.eq_empty_iff_forall_notMem.mpr fun name hname => ?_
  obtain hentry | ⟨_, _, hentry⟩ := Blocklist.isBlocked_iff.mp hname <;> exact List.not_mem_nil hentry

theorem list_startBlocklist (rt : Runtime) (files : Files) (settings : Settings) :
    (startBlocklist rt files (some settings)).list =
      (settings.blocklist.bind fun cfg => readBlocklistFile rt files cfg.file).getD .empty := by
  have hloaded : ∀ b : FileBlocklist, (if b.list.isActive then b else .empty).list = b.list := by
    intro b
    split
    · rfl
    · rename_i hactive
      -- a list that is not active has no entries
      obtain ⟨⟨entries⟩, path⟩ := b
      cases entries with
      | nil => rfl
      | cons => exact absurd rfl hactive
  rw [startBlocklist, hloaded, Option.bind_some]
  cases settings.blocklist with
  | none => rfl
  | some cfg =>
    dsimp only [Option.bind_some]
    rw [FileBlocklist.fromFile]
    cases readBlocklistFile rt files cfg.file <;> rfl

theorem blocklistFollows_iff (b : FileBlocklist) :
    (reloadedBlocklist rt files settings b).blockedNames rt =
        (startBlocklist rt files (some settings)).list.blockedNames rt ↔
      BlocklistFollows rt files settings b := by
  rw [list_startBlocklist, reloadedBlocklist, BlocklistFollows]
  cases settings.blocklist with
  | none => rw [Option.bind_none, Option.getD_none, blockedNames_empty]
  | some cfg =>
    dsimp only [Option.bind_some]
    cases b.path.bind (readBlocklistFile rt files) <;> cases readBlocklistFile rt files cfg.file <;>
      simp only [Option.getD_none, Option.getD_some, blockedNames_empty]

theorem startRules_of_upstream (rt : Runtime) (args : Args) (h : settings.upstream = started.upstream) :
    startRules rt args (some settings) = startRules rt args (some started) := by
  have hrules : forwardRulesFromSettings rt settings = forwardRulesFromSettings rt started := by
    rw [forwardRulesFromSettings, forwardRulesFromSettings, h]
  have hmode : recursiveMode (some settings) = recursiveMode (some started) := by
    rw [recursiveMode, recursiveMode, Option.bind_some, Option.bind_some, h]
  rw [startRules, startRules, hmode]
  dsimp only
  rw [hrules]

theorem sameService_iff (hfrom : StartedFrom rt files₀ args started r₀) (hkept : KeptSince r₀ r)
    (hold : ReloadedFrom rt files settings r r') (hnew : StartedFrom rt files args settings fresh) :
    SameService rt r'.state fresh.state ↔
      startRules rt args (some settings) = startRules rt args (some started) ∧
        BlocklistFollows rt files settings r.blocklist := by
  have hlist : r'.state.blocklist = reloadedBlocklist rt files settings r.blocklist :=
    (FileBlocklist.mk.inj hold.blocklist).1
  have hlist' : fresh.state.blocklist = (startBlocklist rt files (some settings)).list :=
    congrArg FileBlocklist.list hnew.blocklist
  rw [hnew.rules, hfrom.rules, ← blocklistFollows_iff, ← hlist, ← hlist', ← hkept.rules, ← hold.rules]
  constructor
  · intro hsame
    exact ⟨congrArg ok hsame.rules.symm, hsame.blocked⟩
  · rintro ⟨hrules, hblocked⟩
    exact ⟨Outcome.ok.inj (hold.zones.symm.trans hnew.zones), (Outcome.ok.inj hrules).symm, hblocked⟩

theorem blocklistFollows_of_same (hfrom : StartedFrom rt files₀ args started r₀) (hkept : KeptSince r₀ r)
    (hblocklist : settings.blocklist = started.blocklist)
    (hactive : ∀ cfg ∈ settings.blocklist, r₀.blocklistPath = some cfg.file ∧ (files cfg.file).isSome) :
    BlocklistFollows rt files settings r.blocklist := by
  rw [BlocklistFollows]
  cases hcfg : settings.blocklist with
  | none =>
    have hempty : r₀.blocklist = .empty := by
      rw [hfrom.blocklist, startBlocklist, Option.bind_some, ← hblocklist, hcfg]
      rfl
    obtain ⟨hlist, hpath⟩ := FileBlocklist.mk.inj hempty
    rw [Running.blocklist, hkept.list hpath, hlist]
    exact blockedNames_empty rt
  | some cfg =>
    obtain ⟨hpath, hread⟩ := hactive cfg hcfg
    obtain ⟨content, hcontent⟩ := Option.isSome_iff_exists.mp hread
    simp only [Running.blocklist, hkept.path, hpath, Option.bind_some, readBlocklistFile, hcontent, Option.map_some]

variable {keyPair₀ keyPair : Option (Bytes × Bytes)} {path : Text} {events : List Running.Event}

/-- **A reload amounts to a restart if the config still has the upstream and the blocklist of the start**,
and its blocklist was active then and can be read now. -/
theorem reload_restart_of_same_sections (hconfig : args.config = some path) (htoml : ".toml".toList <:+ path)
    (hstart : runServer rt toml files₀ args keyPair₀ = ok r₀) (hstarted : loadSettings toml files₀ path = ok started)
    (hrun : run (Running.step rt toml) r₀ events = some r) (hreload : r.reload rt toml files = ok r')
    (hfresh : runServer rt toml files args keyPair = ok fresh) (hsettings : loadSettings toml files path = ok settings)
    (hupstream : settings.upstream = started.upstream) (hblocklist : settings.blocklist = started.blocklist)
    (hactive : ∀ cfg ∈ settings.blocklist, r₀.blocklistPath = some cfg.file ∧ (files cfg.file).isSome) :
    SameService rt r'.state fresh.state := by
  obtain ⟨_, hstarted', hfrom⟩ := startedFrom_of_runServer hconfig hstart
  obtain rfl := Outcome.ok.inj (hstarted.symm.trans hstarted')
  obtain ⟨_, hsettings', hnew⟩ := startedFrom_of_runServer hconfig hfresh
  obtain rfl := Outcome.ok.inj (hsettings.symm.trans hsettings')
  have hkept := keptSince_of_run (hfrom.zonePath.trans hconfig) htoml hrun
  obtain ⟨_, hsettings', hold⟩ :=
    reloadedFrom_of_reload (hkept.zonePath.trans (hfrom.zonePath.trans hconfig)) htoml hreload
  obtain rfl := Outcome.ok.inj (hsettings.symm.trans hsettings')
  exact (sameService_iff hfrom hkept hold hnew).mpr
    ⟨startRules_of_upstream rt args hupstream, blocklistFollows_of_same hfrom hkept hblocklist hactive⟩

end Restart

/-- **A reload amounts to a restart exactly when the forwarding rules of the config are those of the start
and its blocklist is the one that the server holds on to.** -/
theorem reload_restart_iff (rt : Runtime) (toml : Text → Option Settings) (files₀ files : Files) (args : Args)
    (keyPair₀ keyPair : Option (Bytes × Bytes)) (path : Text) (events : List Running.Event) (r₀ r r' fresh : Running)
    (hconfig : args.config = some path) (htoml : ".toml".toList <:+ path)
    (hstart : runServer rt toml files₀ args keyPair₀ = ok r₀) (hrun : run (Running.step rt toml) r₀ events = some r)
    (hreload : r.reload rt toml files = ok r') (hfresh : runServer rt toml files args keyPair = ok fresh) :
    ∃ started settings, loadSettings toml files₀ path = ok started ∧ loadSettings toml files path = ok settings ∧
      (SameService rt r'.state fresh.state ↔
        startRules rt args (some settings) = startRules rt args (some started) ∧
          BlocklistFollows rt files settings r.blocklist) := by
  obtain ⟨started, hstarted, hfrom⟩ := startedFrom_of_runServer hconfig hstart
  obtain ⟨settings, hsettings, hnew⟩ := startedFrom_of_runServer hconfig hfresh
  have hkept := keptSince_of_run (hfrom.zonePath.trans hconfig) htoml hrun
  obtain ⟨_, hsettings', hold⟩ :=
    reloadedFrom_of_reload (hkept.zonePath.trans (hfrom.zonePath.trans hconfig)) htoml hreload
  obtain rfl := Outcome.ok.inj (hsettings.symm.trans hsettings')
  exact ⟨started, settings, hstarted, hsettings, sameService_iff hfrom hkept hold hnew⟩

/-- The config `1` forwards names below `s` to `9.9.9.9`, the config `2` has the zone `z`; any other is empty. -/
def ruleConfig (content : Text) : Option Settings :=
  if content = ['1'] then some { upstream := some ⟨none, some [⟨['s'], "9.9.9.9".toList⟩], false⟩ }
  else if content = ['2'] then some { zone := some [⟨['z'], ['f']⟩] }
  else some {}

def ruleArgs : Args := ⟨some "c.toml".toList, [], "8.8.8.8:53".toList, false, 0, 1024⟩

def oneFile (content : Char) : Files := fun _ => some [content]

/-- The config `2`, with an empty zone file. -/
def zoneFiles : Files := fun path => if path = ['f'] then some [] else some ['2']

/-- The server is started with an empty config and reloads one with a rule; then the config is replaced by one with
a zone. The reload that follows amounts to a restart. -/
theorem reload_restart_iff_newZone : ∃ r₀ r r' fresh,
    runServer .ascii ruleConfig (oneFile '0') ruleArgs none = ok r₀ ∧
      run (Running.step .ascii ruleConfig) r₀ [.sighup (oneFile '1')] = some r ∧
      r.reload .ascii ruleConfig zoneFiles = ok r' ∧
      runServer .ascii ruleConfig zoneFiles ruleArgs none = ok fresh ∧
      r'.state.zones.zones.map AuthZone.origin = [['z']] ∧ SameService .ascii r'.state fresh.state := by
  obtain ⟨r₀, r, r', fresh, hstart, hrun, hreload, hfresh, hzones, hlist⟩ : ∃ r₀ r r' fresh,
      runServer .ascii ruleConfig (oneFile '0') ruleArgs none = ok r₀ ∧
        run (Running.step .ascii ruleConfig) r₀ [.sighup (oneFile '1')] = some r ∧
        r.reload .ascii ruleConfig zoneFiles = ok r' ∧
        runServer .ascii ruleConfig zoneFiles ruleArgs none = ok fresh ∧
        r'.state.zones.zones.map AuthZone.origin = [['z']] ∧ r.blocklist = .empty :=
    ⟨_, _, _, _, rfl, rfl, rfl, rfl, rfl, rfl⟩
  refine ⟨r₀, r, r', fresh, hstart, hrun, hreload, hfresh, hzones, ?_⟩
  obtain ⟨started, settings, hstarted, hsettings, hiff⟩ := reload_restart_iff .ascii ruleConfig (oneFile '0')
    zoneFiles ruleArgs none none "c.toml".toList [.sighup (oneFile '1')] r₀ r r' fresh rfl (by decide) hstart hrun
    hreload hfresh
  obtain rfl : {} = started := Outcome.ok.inj hstarted
  obtain rfl : { zone := some [⟨['z'], ['f']⟩] } = settings := Outcome.ok.inj hsettings
  refine hiff.mpr ⟨rfl, ?_⟩
  rw [hlist]
  exact blockedNames_empty .ascii

/-- The config is replaced by one with a rule. The reload succeeds, but names below the suffix still go to
the default upstream. -/
theorem reload_keeps_old_rules : ∃ r₀ r' fresh,
    runServer .ascii ruleConfig (oneFile '0') ruleArgs none = ok r₀ ∧
      r₀.reload .ascii ruleConfig (oneFile '1') = ok r' ∧
      runServer .ascii ruleConfig (oneFile '1') ruleArgs none = ok fresh ∧
      r'.state.forwardRules.matchName ['s'] = some ⟨.v4 ⟨8, 8, 8, 8⟩, 53, 0⟩ ∧
      fresh.state.forwardRules.matchName ['s'] = some ⟨.v4 ⟨9, 9, 9, 9⟩, 53, 0⟩ ∧
      ¬ SameService .ascii r'.state fresh.state := by
  refine ⟨_, _, _, rfl, rfl, rfl, rfl, rfl, fun hsame => ?_⟩
  have hmatch := congrArg (ForwardRules.matchName · ['s']) hsame.rules
  exact absurd hmatch (by decide)

end MiniDns
