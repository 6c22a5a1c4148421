import MiniDns.Lib.TextFields
import MiniDns.Server

/-! DNS over HTTPS. A message is the body of a POST, or stands in the target of a GET in base 64; whichever way
it comes, it is answered as on a TCP connection. What a text decodes to in base 64 is a parameter, and so is the
body that is collected from a request. -/
namespace MiniDns
open Lib Lib.Outcome Dns
set_option autoImplicit false

namespace Doh

/-! ## The endpoint -/

def maxBody : ℕ := 64 * 1024

def post : Text := "POST".toList
def get : Text := "GET".toList
def dnsQuery : Text := "/dns-query".toList
def dnsKey : Text := "dns=".toList

structure DohResponse where
  status : UInt16
  body : Bytes
  deriving DecidableEq, Repr

def DohResponse.error (status : UInt16) : DohResponse := ⟨status, []⟩

/-- `s.strip_prefix(front)` -/
def stripFront (front s : Text) : Option Text := if front.isPrefixOf s then some (s.drop front.length) else none

section Endpoint
variable (decode : Text → Option Bytes)

def extractDnsParam (query : Text) : Option Bytes := ((query.splitOn '&').findSome? (stripFront dnsKey)).bind decode

/-- The message that a request carries, or the status that it is turned down with. -/
def queryBytes (method target : Text) (body : Bytes) : Outcome UInt16 Bytes :=
  let cut := splitOnce '?' target
  let path := (cut.map Prod.fst).getD target
  let query := cut.map Prod.snd
  if path ≠ dnsQuery then err 404
  else if method = post then ok body
  else if method = get then ofOption (query.bind (extractDnsParam decode)) 400
  else err 405

variable (rt : Runtime) (st : ServerState) (m : Moment)

def resolveHttp (method target : Text) (body : Bytes) (client : IpAddr) : Outcome Empty (DohResponse × ServerState) :=
  (queryBytes decode method target body).handle
    (fun msg =>
      if msg.isEmpty ∨ maxBody < msg.length then ok (.error 400, st)
      else do
        match ← st.resolve rt m msg client .tcp with
        | (some reply, st) => pure (⟨200, reply⟩, st)
        | (none, st) => pure (.error 400, st))
    fun status => ok (.error status, st)

/-- The body is not there if it was longer than the limit, or broke off. -/
def handleHttp (method : Text) (target : Option Text) (body : Option Bytes) (client : IpAddr) :
    Outcome Empty (DohResponse × ServerState) :=
  match body with
  | none => ok (.error 413, st)
  | some body => resolveHttp decode rt st m method (target.getD []) body client

end Endpoint

/-! ## What a request carries -/

theorem stripFront_eq_some {front s rest : Text} : stripFront front s = some rest ↔ s = front ++ rest := by
  unfold stripFront
  constructor
  · intro h
    split at h
    · rename_i hfront
      obtain rfl := Option.some.inj h
      exact (List.prefix_iff_eq_append.mp (List.isPrefixOf_iff_prefix.mp hfront)).symm
    · cases h
  · rintro rfl
    rw [if_pos (List.isPrefixOf_iff_prefix.mpr (List.prefix_append ..)), List.drop_left]

/-- The target of the endpoint with these pairs in its query. -/
def endpoint (pairs : List Text) : Text := dnsQuery ++ '?' :: ['&'].intercalate pairs

/-- The first `dns=` pair of a query counts, and its value decodes to the message. -/
inductive Carries (decode : Text → Option Bytes) : Text → Text → Bytes → Bytes → Prop
  | bare {body : Bytes} : Carries decode post dnsQuery body body
  | posted {query : Text} {body : Bytes} : Carries decode post (dnsQuery ++ '?' :: query) body body
  | got {before after : List Text} {value : Text} {body msg : Bytes} :
      (∀ pair ∈ before, '&' ∉ pair ∧ ¬ dnsKey <+: pair) → (∀ pair ∈ after, '&' ∉ pair) → '&' ∉ value →
      decode value = some msg → Carries decode get (endpoint (before ++ (dnsKey ++ value) :: after)) body msg

section Carries
variable {decode : Text → Option Bytes}

theorem stripFront_eq_none {front s : Text} : stripFront front s = none ↔ ¬ front <+: s := by
  rw [Option.eq_none_iff_forall_ne_some]
  constructor
  · rintro h ⟨rest, rfl⟩
    exact h rest (stripFront_eq_some.mpr rfl)
  · rintro h rest hrest
    exact h ⟨rest, (stripFront_eq_some.mp hrest).symm⟩

theorem extractDnsParam_eq_some {query : Text} {msg : Bytes} :
    extractDnsParam decode query = some msg ↔ ∃ before value after,
      query = ['&'].intercalate (before ++ (dnsKey ++ value) :: after) ∧
      (∀ pair ∈ before, '&' ∉ pair ∧ ¬ dnsKey <+: pair) ∧ (∀ pair ∈ after, '&' ∉ pair) ∧ '&' ∉ value ∧
      decode value = some msg := by
  simp only [extractDnsParam, Option.bind_eq_some_iff, List.findSome?_eq_some_iff]
  constructor
  · rintro ⟨value, ⟨before, pair, after, hsplit, hpair, hbefore⟩, hdecode⟩
    obtain rfl := stripFront_eq_some.mp hpair
    have hfree : ∀ p ∈ before ++ (dnsKey ++ value) :: after, '&' ∉ p := by
      intro p hp
      exact not_mem_of_mem_splitOn (hsplit ▸ hp)
    refine ⟨before, value, after, ?_, fun p hp => ⟨?_, ?_⟩, fun p hp => ?_, fun hamp => ?_, hdecode⟩
    · have hjoin : ['&'].intercalate (query.splitOn '&') = query := List.intercalate_splitOn '&'
      rw [hsplit] at hjoin
      exact hjoin.symm
    · exact hfree p (List.mem_append_left _ hp)
    · exact stripFront_eq_none.mp (hbefore p hp)
    · exact hfree p (List.mem_append_right _ (List.mem_cons_of_mem _ hp))
    · exact hfree (dnsKey ++ value) (by simp) (List.mem_append_right _ hamp)
  · rintro ⟨before, value, after, rfl, hbefore, hafter, hvalue, hdecode⟩
    refine ⟨value, ⟨before, dnsKey ++ value, after, ?_, stripFront_eq_some.mpr rfl, fun p hp => ?_⟩, hdecode⟩
    · refine List.splitOn_intercalate '&' (fun p hp => ?_) (by simp)
      obtain hp | hp := List.mem_append.mp hp
      · exact (hbefore p hp).1
      · obtain rfl | hp := List.mem_cons.mp hp
        · have hkey : '&' ∉ dnsKey := by decide
          exact fun hamp => (List.mem_append.mp hamp).elim hkey hvalue
        · exact hafter p hp
    · exact stripFront_eq_none.mpr (hbefore p hp).2

theorem splitOnce_dnsQuery (query : Text) : splitOnce '?' (dnsQuery ++ '?' :: query) = some (dnsQuery, query) :=
  splitOnce_eq_some.mpr ⟨rfl, by decide⟩

theorem splitOnce_bare : splitOnce '?' dnsQuery = none := splitOnce_eq_none.mpr (by decide)

theorem get_ne_post : get ≠ post := by decide

theorem queryBytes_of_get {query : Text} {body : Bytes} :
    queryBytes decode get (dnsQuery ++ '?' :: query) body = ofOption (extractDnsParam decode query) 400 := by
  rw [queryBytes, splitOnce_dnsQuery]
  exact (if_neg (not_not.mpr rfl)).trans ((if_neg get_ne_post).trans (if_pos rfl))

/-- The path of a request is the whole target or what stands before the question mark. -/
theorem target_cases {target : Text} (h : ((splitOnce '?' target).map Prod.fst).getD target = dnsQuery) :
    target = dnsQuery ∨ ∃ query, target = dnsQuery ++ '?' :: query := by
  cases hcut : splitOnce '?' target with
  | none =>
    rw [hcut] at h
    exact .inl h
  | some cut =>
    obtain ⟨heq, _⟩ := splitOnce_eq_some.mp hcut
    rw [hcut] at h
    exact .inr ⟨cut.2, h ▸ heq⟩

/-- **The message of a request is the one that it carries.** -/
theorem queryBytes_eq_ok {method target : Text} {body msg : Bytes} :
    queryBytes decode method target body = ok msg ↔ Carries decode method target body msg := by
  constructor
  · intro h
    unfold queryBytes at h
    dsimp only at h
    split at h
    · cases h
    rename_i hpath
    have htarget := target_cases (not_not.mp hpath)
    split at h
    · rename_i hpost
      subst hpost
      obtain rfl := Outcome.ok.inj h
      obtain rfl | ⟨query, rfl⟩ := htarget
      · exact .bare
      · exact .posted
    split at h
    · rename_i hget
      subst hget
      obtain rfl | ⟨query, rfl⟩ := htarget
      · rw [splitOnce_bare] at h
        cases h
      · rw [splitOnce_dnsQuery, Option.map_some, Option.bind_some] at h
        cases hparam : extractDnsParam decode query with
        | none =>
          rw [hparam] at h
          cases h
        | some decoded =>
          rw [hparam] at h
          obtain rfl := Outcome.ok.inj h
          obtain ⟨before, value, after, rfl, hbefore, hafter, hvalue, hdecode⟩ := extractDnsParam_eq_some.mp hparam
          exact .got hbefore hafter hvalue hdecode
    · cases h
  · intro h
    cases h with
    | bare =>
      rw [queryBytes, splitOnce_bare]
      exact (if_neg (not_not.mpr rfl)).trans (if_pos rfl)
    | posted =>
      rw [queryBytes, splitOnce_dnsQuery]
      exact (if_neg (not_not.mpr rfl)).trans (if_pos rfl)
    | @got before after value _ _ hbefore hafter hvalue hdecode =>
      rw [endpoint, queryBytes_of_get,
        extractDnsParam_eq_some.mpr ⟨before, value, after, rfl, hbefore, hafter, hvalue, hdecode⟩]
      rfl

theorem queryBytes_eq_err {method target : Text} {body : Bytes} {status : UInt16}
    (h : queryBytes decode method target body = err status) : status = 400 ∨ status = 404 ∨ status = 405 := by
  unfold queryBytes at h
  dsimp only at h
  split at h
  · exact .inr (.inl (Outcome.err.inj h).symm)
  split at h
  · cases h
  split at h
  · unfold ofOption at h
    split at h
    · cases h
    · exact .inl (Outcome.err.inj h).symm
  · exact .inr (.inr (Outcome.err.inj h).symm)

end Carries

/-! ## How it is answered -/

section Answer
variable {decode : Text → Option Bytes} {rt : Runtime} {st st' : ServerState} {m : Moment} {method target : Text}
  {body msg : Bytes} {client : IpAddr}

theorem resolveHttp_of_carries (h : Carries decode method target body msg) :
    resolveHttp decode rt st m method target body client =
      if msg = [] ∨ maxBody < msg.length then ok (.error 400, st)
      else (st.resolve rt m msg client .tcp >>= fun out => ok (out.1.elim (.error 400) (.mk 200), out.2)) := by
  have hrespond : ∀ out : Option Bytes × ServerState, (match out with
      | (some reply, st) => pure (⟨200, reply⟩, st)
      | (none, st) => pure (.error 400, st) : Outcome Empty (DohResponse × ServerState)) =
        ok (out.1.elim (.error 400) (.mk 200), out.2) := by
    rintro ⟨_ | reply, st⟩ <;> rfl
  rw [resolveHttp, queryBytes_eq_ok.mpr h]
  simp only [handle, List.isEmpty_iff, hrespond]

/-- How a response comes about. -/
theorem resolveHttp_cases {response : DohResponse}
    (h : resolveHttp decode rt st m method target body client = ok (response, st')) :
    (∃ msg, Carries decode method target body msg ∧ msg ≠ [] ∧ msg.length ≤ maxBody ∧ ∃ reply,
      st.resolve rt m msg client .tcp = ok (reply, st') ∧ response = reply.elim (.error 400) (.mk 200)) ∨
      st' = st ∧ ∃ status, response = .error status ∧ (status = 400 ∨ status = 404 ∨ status = 405) := by
  cases hquery : queryBytes decode method target body with
  | ok msg =>
    have hcarries := queryBytes_eq_ok.mp hquery
    rw [resolveHttp_of_carries hcarries] at h
    split at h
    · obtain ⟨rfl, rfl⟩ := Prod.mk.inj (Outcome.ok.inj h)
      exact .inr ⟨rfl, 400, rfl, .inl rfl⟩
    · rename_i hfits
      rw [not_or, Nat.not_lt] at hfits
      obtain ⟨⟨reply, st₁⟩, hresolve, h⟩ := bind_eq_ok.mp h
      obtain ⟨rfl, rfl⟩ := Prod.mk.inj (Outcome.ok.inj h)
      exact .inl ⟨msg, hcarries, hfits.1, hfits.2, reply, hresolve, rfl⟩
  | err status =>
    rw [resolveHttp, hquery] at h
    obtain ⟨rfl, rfl⟩ := Prod.mk.inj (Outcome.ok.inj h)
    exact .inr ⟨rfl, status, rfl, queryBytes_eq_err hquery⟩
  | panic =>
    rw [resolveHttp, hquery] at h
    cases h

end Answer

/-- The body of the request was collected, and the request carries the message. -/
def Brings (decode : Text → Option Bytes) (method : Text) (target : Option Text) (body : Option Bytes) (msg : Bytes) :
    Prop :=
  ∃ collected, body = some collected ∧ Carries decode method (target.getD []) collected msg

/-- **HTTPS answers what is carried, as TCP does.** Two requests that carry the same message get the same
response. A response has status 200 exactly when the request carries a message that is neither empty nor
too long and to which `resolve` gives a reply over TCP, and then it is that reply. Every other response is
empty, with status 413 if the body could not be collected and 400, 404 or 405 otherwise, and a request that
carries nothing leaves the server as it was. -/
theorem answers_carried (decode : Text → Option Bytes) (rt : Runtime) (st : ServerState) (m : Moment) (client : IpAddr)
    (method : Text) (target : Option Text) (body : Option Bytes) :
    (∀ msg method' target' body', Brings decode method target body msg → Brings decode method' target' body' msg →
      handleHttp decode rt st m method target body client = handleHttp decode rt st m method' target' body' client) ∧
    (∀ reply st', handleHttp decode rt st m method target body client = ok (⟨200, reply⟩, st') ↔
      ∃ msg, Brings decode method target body msg ∧ msg ≠ [] ∧ msg.length ≤ maxBody ∧
        st.resolve rt m msg client .tcp = ok (some reply, st')) ∧
    (∀ response st', handleHttp decode rt st m method target body client = ok (response, st') →
      response.status ≠ 200 → response.body = [] ∧
        (body = none ∧ response.status = 413 ∨
          body ≠ none ∧ (response.status = 400 ∨ response.status = 404 ∨ response.status = 405)) ∧
        ((∀ msg, ¬ Brings decode method target body msg) → st' = st)) := by
  refine ⟨?_, fun reply st' => ⟨fun h => ?_, ?_⟩, fun response st' h hstatus => ?_⟩
  · rintro msg method' target' body' ⟨collected, rfl, h⟩ ⟨collected', rfl, h'⟩
    rw [handleHttp, handleHttp, resolveHttp_of_carries h, resolveHttp_of_carries h']
  · cases body with
    | none => cases (DohResponse.mk.inj (Prod.mk.inj (Outcome.ok.inj h)).1).1
    | some body =>
      obtain ⟨msg, hcarries, hne, hlen, reply', hresolve, hresponse⟩ | ⟨_, status, hresponse, hstatus⟩ :=
        resolveHttp_cases h
      · cases reply' with
        | some reply' =>
          obtain ⟨_, rfl⟩ := DohResponse.mk.inj hresponse
          exact ⟨msg, ⟨body, rfl, hcarries⟩, hne, hlen, hresolve⟩
        | none => cases (DohResponse.mk.inj hresponse).1
      · obtain ⟨rfl, _⟩ := DohResponse.mk.inj hresponse
        exact absurd hstatus (by decide)
  · rintro ⟨msg, ⟨collected, rfl, hcarries⟩, hne, hlen, hresolve⟩
    rw [handleHttp, resolveHttp_of_carries hcarries, if_neg (not_or.mpr ⟨hne, Nat.not_lt.mpr hlen⟩), hresolve]
    rfl
  · cases body with
    | none =>
      obtain ⟨rfl, rfl⟩ := Prod.mk.inj (Outcome.ok.inj h)
      exact ⟨rfl, .inl ⟨rfl, rfl⟩, fun _ => rfl⟩
    | some body =>
      obtain ⟨msg, hcarries, _, _, reply, _, rfl⟩ | ⟨rfl, status, rfl, hcases⟩ := resolveHttp_cases h
      · cases reply with
        | some reply => exact absurd rfl hstatus
        | none => exact ⟨rfl, .inr ⟨by simp, .inl rfl⟩, fun hnone => absurd ⟨body, rfl, hcarries⟩ (hnone msg)⟩
      · exact ⟨rfl, .inr ⟨by simp, hcases⟩, fun _ => rfl⟩

/-- The query of the first client in base 64. -/
def letterText : Text := "AAEBAAABAAAAAAAAAWEAAAEAAQ".toList

/-- Base 64 as far as this query goes. -/
def letterDecode (value : Text) : Option Bytes := if value = letterText then some (letterQuery 1 97) else none

theorem answers_carried_letter :
    handleHttp letterDecode .ascii forwardingServer ⟨0, 0, .leader none, 0⟩ get
        (some (endpoint [['c', 't', '=', 'x'], dnsKey ++ letterText])) (some []) (letterClient 1) =
      handleHttp letterDecode .ascii forwardingServer ⟨0, 0, .leader none, 0⟩ post (some dnsQuery)
        (some (letterQuery 1 97)) (letterClient 1) := by
  have hgot : Carries letterDecode get (endpoint ([['c', 't', '=', 'x']] ++ (dnsKey ++ letterText) :: [])) []
      (letterQuery 1 97) := .got (by decide) (by simp) (by decide) (if_pos rfl)
  exact (answers_carried letterDecode .ascii forwardingServer ⟨0, 0, .leader none, 0⟩ (letterClient 1) get _ _).1
    (letterQuery 1 97) post (some dnsQuery) (some (letterQuery 1 97)) ⟨[], rfl, hgot⟩ ⟨_, rfl, .bare⟩

end Doh
end MiniDns
