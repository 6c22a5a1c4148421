import MiniDns.Lib.Bytes

/-! Messages on a byte stream, each behind its length in two big-endian bytes. -/
namespace MiniDns.Lib
set_option autoImplicit false

/-- A message behind its length `as u16`. -/
def frame (msg : Bytes) : Bytes := bytes16 (UInt16.ofNat msg.length) ++ msg

theorem frame_append_eq_iff {a b c d : Bytes} :
    frame a ++ c = frame b ++ d ↔ a.length % 65536 = b.length % 65536 ∧ a ++ c = b ++ d := by
  have hfield : bytes16 (UInt16.ofNat a.length) = bytes16 (UInt16.ofNat b.length) ↔
      a.length % 65536 = b.length % 65536 := by
    rw [bytes16_inj, ← UInt16.toNat_inj, UInt16.toNat_ofNat', UInt16.toNat_ofNat']
  rw [frame, frame, List.append_assoc, List.append_assoc, ← hfield]
  constructor
  · exact fun h => List.append_inj h rfl
  · rintro ⟨hlen, hrest⟩
    rw [hlen, hrest]

def takeFrame : Bytes → Option (Bytes × Bytes)
  | hi :: lo :: rest =>
    if (be16 hi lo).toNat ≤ rest.length then
      some (rest.take (be16 hi lo).toNat, rest.drop (be16 hi lo).toNat)
    else none
  | _ => none

theorem length_of_takeFrame {stream msg rest : Bytes} (h : takeFrame stream = some (msg, rest)) :
    rest.length < stream.length := by
  unfold takeFrame at h
  split at h
  · split at h
    · obtain ⟨_, rfl⟩ := Prod.mk.inj (Option.some.inj h)
      simp only [List.length_drop, List.length_cons]
      omega
    · cases h
  · cases h

theorem takeFrame_frame_append (msg more : Bytes) :
    takeFrame (frame msg ++ more) =
      some ((msg ++ more).take (msg.length % 65536), (msg ++ more).drop (msg.length % 65536)) := by
  have hlen : (be16 (UInt8.ofNat ((UInt16.ofNat msg.length).toNat / 256))
      (UInt8.ofNat ((UInt16.ofNat msg.length).toNat % 256))).toNat = msg.length % 65536 := by
    rw [be16_bytes16, UInt16.toNat_ofNat']
  simp only [frame, bytes16, List.cons_append, List.nil_append, takeFrame, hlen]
  rw [if_pos]
  rw [List.length_append]
  exact (Nat.mod_le _ _).trans (Nat.le_add_right _ _)

/-- All messages of a stream that ends behind a frame. -/
def deframe (stream : Bytes) : Option (List Bytes) :=
  match stream with
  | [] => some []
  | b :: bs =>
    match _h : takeFrame (b :: bs) with
    | some (msg, rest) => (deframe rest).map (msg :: ·)
    | none => none
termination_by stream.length
decreasing_by exact length_of_takeFrame _h

theorem deframe_nil : deframe [] = some [] := by
  rw [deframe]

theorem deframe_of_takeFrame {stream msg rest : Bytes} (h : takeFrame stream = some (msg, rest)) :
    deframe stream = (deframe rest).map (msg :: ·) := by
  cases stream with
  | nil => cases h
  | cons b bs =>
    rw [deframe]
    split
    · rename_i h'
      rw [h] at h'
      obtain ⟨rfl, rfl⟩ := Prod.mk.inj (Option.some.inj h')
      rfl
    · rename_i h'
      rw [h] at h'
      cases h'

/-- **A stream of frames is read as the messages it was made from exactly when all lengths fit.** -/
theorem deframe_flatMap_frame (msgs : List Bytes) :
    deframe (msgs.flatMap frame) = some msgs ↔ ∀ msg ∈ msgs, msg.length ≤ 65535 := by
  induction msgs with
  | nil => simp [deframe_nil]
  | cons msg msgs ih =>
    rw [List.flatMap_cons, deframe_of_takeFrame (takeFrame_frame_append msg _), List.forall_mem_cons]
    constructor
    · intro h
      obtain ⟨rest, hrest, hcons⟩ := Option.map_eq_some_iff.mp h
      obtain ⟨hmsg, rfl⟩ := List.cons.inj hcons
      have hlen := congrArg List.length hmsg
      rw [List.length_take, List.length_append] at hlen
      have hfits : msg.length ≤ 65535 := by omega
      have hmod : msg.length % 65536 = msg.length := by omega
      rw [hmod, List.drop_left] at hrest
      exact ⟨hfits, ih.mp hrest⟩
    · rintro ⟨hfits, hrest⟩
      have hmod : msg.length % 65536 = msg.length := by omega
      rw [hmod, List.drop_left, List.take_left, ih.mpr hrest]
      rfl

end MiniDns.Lib
