import MiniDns.Server

/-! DNS over QUIC. Every query has a stream of its own, and the streams of a connection are served one after
the other, so a connection is a TCP connection that is cut into streams. -/
namespace MiniDns
open Lib Lib.Outcome Dns
set_option autoImplicit false

namespace Doq

/-- What the handler writes on the streams of a connection, given what the client has written on each. A
stream that ends inside the length ends the connection without an error, one that ends inside the message
with one; what follows the message is not read. -/
def handleConnection (serve : ℕ → Bytes → Outcome Empty (Option Bytes)) (i : ℕ) :
    List Bytes → List Bytes × StreamEnd
  | [] => ([], .closed)
  | input :: streams =>
    match input with
    | hi :: lo :: rest =>
      let len := (be16 hi lo).toNat
      if len ≤ rest.length then
        match serve i (rest.take len) with
        | ok (some resp) =>
          let (written, last) := handleConnection serve (i + 1) streams
          ((bytes16 (UInt16.ofNat resp.length) ++ resp) :: written, last)
        | ok none =>
          let (written, last) := handleConnection serve (i + 1) streams
          ([] :: written, last)
        | _ => ([], .panicked)
      else ([], .failed)
    | _ => ([], .closed)

/-- The messages of the streams before the first that is cut short. -/
def leading : List Bytes → List Bytes
  | [] => []
  | input :: streams =>
    match takeFrame input with
    | some (msg, _) => msg :: leading streams
    | none => []

section Streams
variable {serve : ℕ → Bytes → Outcome Empty (Option Bytes)} {i : ℕ} {input msg rest : Bytes} {streams : List Bytes}

theorem takeFrame_cons {hi lo : UInt8} (h : takeFrame (hi :: lo :: rest) = some (msg, input)) :
    (be16 hi lo).toNat ≤ rest.length ∧ rest.take (be16 hi lo).toNat = msg ∧ rest.drop (be16 hi lo).toNat = input := by
  rw [takeFrame] at h
  split at h
  · rename_i hle
    obtain ⟨rfl, rfl⟩ := Prod.mk.inj (Option.some.inj h)
    exact ⟨hle, rfl, rfl⟩
  · cases h

theorem length_le_of_takeFrame (h : takeFrame input = some (msg, rest)) : msg.length ≤ 65535 := by
  match input, h with
  | hi :: lo :: more, h =>
    obtain ⟨_, rfl, _⟩ := takeFrame_cons h
    have hlen := (be16 hi lo).toNat_lt
    rw [List.length_take]
    omega

/-- A TCP connection serves the first frame and goes on behind it. -/
theorem handleDnsStream_of_takeFrame (h : takeFrame input = some (msg, rest)) :
    handleDnsStream serve i input =
      match serve i msg with
      | ok reply =>
        ((reply.map frame).getD [] ++ (handleDnsStream serve (i + 1) rest).1, (handleDnsStream serve (i + 1) rest).2)
      | _ => ([], .panicked) := by
  match input, h with
  | hi :: lo :: more, h =>
    obtain ⟨hle, rfl, rfl⟩ := takeFrame_cons h
    rw [handleDnsStream, if_pos hle]
    cases serve i (more.take (be16 hi lo).toNat) with
    | ok reply => cases reply <;> rfl
    | _ => rfl

/-- A QUIC connection serves the frame of the first stream and goes on with the next stream. -/
theorem handleConnection_of_takeFrame (h : takeFrame input = some (msg, rest)) :
    handleConnection serve i (input :: streams) =
      match serve i msg with
      | ok reply =>
        ((reply.map frame).getD [] :: (handleConnection serve (i + 1) streams).1,
          (handleConnection serve (i + 1) streams).2)
      | _ => ([], .panicked) := by
  match input, h with
  | hi :: lo :: more, h =>
    obtain ⟨hle, rfl, rfl⟩ := takeFrame_cons h
    rw [handleConnection]
    dsimp only
    rw [if_pos hle]
    cases serve i (more.take (be16 hi lo).toNat) with
    | ok reply => cases reply <;> rfl
    | _ => rfl

theorem handleConnection_of_cut (h : takeFrame input = none) :
    (handleConnection serve i (input :: streams)).1 = [] := by
  match input, h with
  | [], _ => rfl
  | [_], _ => rfl
  | hi :: lo :: more, h =>
    have hlt : ¬ (be16 hi lo).toNat ≤ more.length := by
      intro hle
      rw [takeFrame, if_pos hle] at h
      cases h
    rw [handleConnection]
    dsimp only
    rw [if_neg hlt]

theorem takeFrame_frame (hfits : msg.length ≤ 65535) (more : Bytes) :
    takeFrame (frame msg ++ more) = some (msg, more) := by
  have hmod : msg.length % 65536 = msg.length := by omega
  rw [takeFrame_frame_append, hmod, List.take_left, List.drop_left]

end Streams

/-- **A QUIC connection is a TCP connection that is cut into streams.** For all that the client writes on the
streams, what is written back, one stream after the other, is what is written on a TCP connection that carries
the messages of the streams before the first that is cut short. No stream from that one on is answered. -/
theorem connection_eq_stream (rt : Runtime) (sts : ℕ → ServerState) (ms : ℕ → Moment) (client : IpAddr) (i : ℕ)
    (streams : List Bytes) :
    (handleConnection (connection rt sts ms client) i streams).1.flatten =
        (handleDnsStream (connection rt sts ms client) i ((leading streams).flatMap frame)).1 ∧
      (handleConnection (connection rt sts ms client) i streams).1.length ≤ (leading streams).length ∧
      ((leading streams).length = streams.length →
        (handleConnection (connection rt sts ms client) i streams).2 =
          (handleDnsStream (connection rt sts ms client) i ((leading streams).flatMap frame)).2) := by
  induction streams generalizing i with
  | nil =>
    rw [leading, List.flatMap_nil, handleDnsStream]
    · exact ⟨rfl, le_rfl, fun _ => rfl⟩
    · rintro _ _ _ ⟨⟩
  | cons input streams ih =>
    cases hframe : takeFrame input with
    | none =>
      have hnone : leading (input :: streams) = [] := by rw [leading, hframe]
      rw [handleConnection_of_cut hframe, hnone, List.flatMap_nil, handleDnsStream]
      · exact ⟨rfl, le_rfl, fun hlen => by cases hlen⟩
      · rintro _ _ _ ⟨⟩
    | some cut =>
      obtain ⟨msg, rest⟩ := cut
      have hsome : leading (input :: streams) = msg :: leading streams := by rw [leading, hframe]
      rw [handleConnection_of_takeFrame hframe, hsome, List.flatMap_cons,
        handleDnsStream_of_takeFrame (takeFrame_frame (length_le_of_takeFrame hframe) _)]
      cases connection rt sts ms client i msg with
      | ok reply =>
        obtain ⟨hwritten, hlength, hend⟩ := ih (i + 1)
        refine ⟨?_, Nat.succ_le_succ hlength, fun hall => hend (Nat.succ.inj hall)⟩
        rw [List.flatten_cons, hwritten]
      | err e => cases e
      | panic => exact ⟨rfl, Nat.zero_le _, fun _ => rfl⟩

end Doq
end MiniDns
