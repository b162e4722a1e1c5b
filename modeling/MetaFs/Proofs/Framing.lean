import Mathlib
import MetaFs.Proofs.Reading
/-! What becomes of bodies that are sent one after the other. The sender compares a body with the
limit and the receiver compares the length before it, which counts itself: a body that falls
between the two bounds is sent and ends the reading at the other end. -/

namespace MetaFs

namespace Frame

open Wire

/-- A body behind its length. -/
def framed (body : List UInt8) : List UInt8 :=
  littleEndian 4 (body.length + 4) ++ body

theorem encode?_eq_some {body frame : List UInt8} :
    encode? body = some frame ↔ body.length ≤ limit ∧ frame = framed body := by
  rw [encode?, Option.ite_none_right_eq_some, Option.some.injEq, framed, eq_comm (a := frame)]

/-- What the sender puts out for bodies, if it accepts each of them. -/
def encodeAll? : List (List UInt8) → Option (List UInt8)
  | [] => some []
  | body :: rest => do
    let frame ← encode? body
    let frames ← encodeAll? rest
    return frame ++ frames

/-- The bound of the receiver on a body. -/
def Receivable (body : List UInt8) : Prop :=
  body.length + 4 ≤ limit

instance : DecidablePred Receivable := fun body =>
  inferInstanceAs (Decidable (body.length + 4 ≤ limit))

theorem encodeAll?_cons_eq_some {body out : List UInt8} {rest : List (List UInt8)} :
    encodeAll? (body :: rest) = some out ↔ ∃ frame frames, encode? body = some frame ∧
      encodeAll? rest = some frames ∧ out = frame ++ frames := by
  rw [encodeAll?]
  simp only [bind, Option.bind_eq_some_iff, pure, Option.some.injEq]
  constructor
  · rintro ⟨frame, hframe, frames, hframes, rfl⟩
    exact ⟨frame, frames, hframe, hframes, rfl⟩
  · rintro ⟨frame, frames, hframe, hframes, rfl⟩
    exact ⟨frame, hframe, frames, hframes, rfl⟩

/-- The sender looks at each body alone. -/
theorem isSome_encodeAll? {bodies : List (List UInt8)} :
    (encodeAll? bodies).isSome ↔ ∀ body ∈ bodies, body.length ≤ limit := by
  induction bodies with
  | nil => simp [encodeAll?]
  | cons body rest ih =>
    rw [List.forall_mem_cons, ← ih, Option.isSome_iff_exists]
    constructor
    · rintro ⟨out, hout⟩
      obtain ⟨frame, frames, hframe, hframes, -⟩ := encodeAll?_cons_eq_some.mp hout
      exact ⟨(encode?_eq_some.mp hframe).1, Option.isSome_iff_exists.mpr ⟨frames, hframes⟩⟩
    · rintro ⟨hbody, hrest⟩
      obtain ⟨frames, hframes⟩ := Option.isSome_iff_exists.mp hrest
      exact ⟨_, encodeAll?_cons_eq_some.mpr
        ⟨_, frames, encode?_eq_some.mpr ⟨hbody, rfl⟩, hframes, rfl⟩⟩

theorem receive_framed {body : List UInt8} (h : Receivable body) (rest : List UInt8) :
    receive (framed body ++ rest) = .frame body rest :=
  receive_eq_frame.mpr ⟨h, rfl⟩

theorem encode?_of_receivable {body : List UInt8} (h : Receivable body) :
    encode? body = some (framed body) :=
  if_pos (Nat.le_of_add_right_le h)

theorem receiveAll_of_frame {input body rest : List UInt8} (h : receive input = .frame body rest) :
    receiveAll input = (body :: (receiveAll rest).1, (receiveAll rest).2) := by
  rw [receiveAll]
  split
  · rename_i body' rest' h'
    obtain ⟨rfl, rfl⟩ := Received.frame.inj (h'.symm.trans h)
    rfl
  · rename_i h'
    exact absurd h (h' body rest)

theorem receiveAll_of_bad {input : List UInt8} {e : FrameError} (h : receive input = .bad e) :
    receiveAll input = ([], input) := by
  rw [receiveAll]
  split
  · rename_i h'
    cases h'.symm.trans h
  · rfl

theorem receiveAll_nil : receiveAll [] = ([], []) := by
  rw [receiveAll]
  split
  · rename_i h
    cases h
  · rfl

/-- Frames that the receiver accepts are taken off the front one by one. -/
theorem receiveAll_flatMap_framed {bodies : List (List UInt8)}
    (h : ∀ body ∈ bodies, Receivable body) (rest : List UInt8) :
    receiveAll (bodies.flatMap framed ++ rest) =
      (bodies ++ (receiveAll rest).1, (receiveAll rest).2) := by
  induction bodies with
  | nil => rfl
  | cons body bodies ih =>
    rw [List.forall_mem_cons] at h
    rw [List.flatMap_cons, List.append_assoc, receiveAll_of_frame (receive_framed h.1 _), ih h.2]
    rfl

/-- The length of a body that the sender accepts is refused as soon as it is over the limit. -/
theorem receive_eq_bad_of_not_receivable {body frame : List UInt8} (more : List UInt8)
    (hframe : encode? body = some frame) (hbody : ¬Receivable body) :
    receive (frame ++ more) = .bad .tooBig := by
  obtain ⟨hle, rfl⟩ := encode?_eq_some.mp hframe
  -- Four bytes can hold the length although it is over the limit.
  have hn : body.length + 4 < 256 ^ 4 := by
    have hlimit : limit + 4 < 256 ^ 4 := by decide
    omega
  have htake : (framed body ++ more).take 4 = littleEndian 4 (body.length + 4) := by
    rw [framed, List.append_assoc]
    exact List.take_left' (length_littleEndian 4 _)
  simp only [receive, htake, length_littleEndian, value_littleEndian hn]
  rw [if_neg (by omega), if_pos (Nat.not_le.mp hbody)]

/-- Of bodies that the sender accepts the receiver gets those before the first that is over its own
bound, and that one ends the reading. -/
theorem receiveAll_encodeAll? {bodies : List (List UInt8)} {out : List UInt8}
    (h : encodeAll? bodies = some out) :
    ∃ left, receiveAll out = (bodies.takeWhile Receivable, left) ∧
      ((∀ body ∈ bodies, Receivable body) → left = []) ∧
      ((∃ body ∈ bodies, ¬Receivable body) → receive left = .bad .tooBig) := by
  induction bodies generalizing out with
  | nil =>
    obtain rfl : [] = out := Option.some.inj h
    exact ⟨[], receiveAll_nil, fun _ => rfl, by simp⟩
  | cons body rest ih =>
    obtain ⟨frame, frames, hframe, hframes, rfl⟩ := encodeAll?_cons_eq_some.mp h
    by_cases hbody : Receivable body
    · obtain ⟨left, hall, hclean, hbad⟩ := ih hframes
      have hreceive : receive (frame ++ frames) = .frame body frames := by
        rw [(encode?_eq_some.mp hframe).2]
        exact receive_framed hbody frames
      refine ⟨left, ?_, ?_, ?_⟩
      · rw [receiveAll_of_frame hreceive, hall, List.takeWhile_cons_of_pos (by simpa using hbody)]
      · intro hr
        exact hclean (List.forall_mem_cons.mp hr).2
      · rintro ⟨b, hb, hnot⟩
        rcases List.mem_cons.mp hb with rfl | hb
        · exact absurd hbody hnot
        · exact hbad ⟨b, hb, hnot⟩
    -- The length is refused before the body is looked at, so that all of it is left.
    · have hreceive := receive_eq_bad_of_not_receivable frames hframe hbody
      refine ⟨frame ++ frames, ?_, ?_, fun _ => hreceive⟩
      · rw [receiveAll_of_bad hreceive, List.takeWhile_cons_of_neg (by simpa using hbody)]
      · intro hr
        exact absurd (List.forall_mem_cons.mp hr).1 hbody

/-- The receiver gets what was sent, and then finds the end between two frames, exactly when the
length before each body is within the limit. Otherwise it gets what comes before the first body
that is too long for it, and refuses that one. -/
theorem receiveAll_eq_iff_receivable {bodies : List (List UInt8)} {out : List UInt8}
    (h : encodeAll? bodies = some out) :
    (receiveAll out = (bodies, []) ∧ ending (receiveAll out).2 = .closed ↔
      ∀ body ∈ bodies, Receivable body) ∧
    ∃ left, receiveAll out = (bodies.takeWhile Receivable, left) ∧
      ((∃ body ∈ bodies, ¬Receivable body) → receive left = .bad .tooBig) := by
  obtain ⟨left, hall, hclean, hbad⟩ := receiveAll_encodeAll? h
  refine ⟨⟨?_, ?_⟩, left, hall, hbad⟩
  · rintro ⟨hwhole, -⟩ body hbody
    by_contra hnot
    obtain rfl : left = [] := (Prod.mk.inj (hall.symm.trans hwhole)).2
    have hrefused : receive [] = .bad .tooBig := hbad ⟨body, hbody, hnot⟩
    cases hrefused
  · intro hr
    have hkept : bodies.takeWhile Receivable = bodies :=
      List.takeWhile_eq_self_iff.mpr (by simpa using hr)
    rw [hall, hkept, hclean hr]
    exact ⟨rfl, rfl⟩

/-- A request with so many bytes behind it that the sender takes it and the receiver does not. -/
def paddedRequest : List UInt8 := [32, 7, 0, 0, 0] ++ List.replicate 8388600 0

theorem length_paddedRequest : paddedRequest.length = 8388605 := by
  rw [paddedRequest, List.length_append, List.length_replicate]
  rfl

theorem not_receivable_paddedRequest : ¬Receivable paddedRequest := by
  rw [Receivable, length_paddedRequest]
  decide

theorem receiveAll_eq_iff_receivable_padded : ∃ out,
    encodeAll? [[32, 6, 0, 0, 0], paddedRequest] = some out ∧
    (receiveAll out = ([[32, 6, 0, 0, 0], paddedRequest], []) ∧
      ending (receiveAll out).2 = .closed ↔
      ∀ body ∈ [[32, 6, 0, 0, 0], paddedRequest], Receivable body) ∧
    ∃ left, receiveAll out = ([[32, 6, 0, 0, 0]], left) ∧ receive left = .bad .tooBig := by
  have hsome : (encodeAll? [[32, 6, 0, 0, 0], paddedRequest]).isSome :=
    isSome_encodeAll?.mpr (by simp [length_paddedRequest, limit])
  obtain ⟨out, hout⟩ := Option.isSome_iff_exists.mp hsome
  obtain ⟨hiff, left, hall, hbad⟩ := receiveAll_eq_iff_receivable hout
  refine ⟨out, hout, hiff, left, ?_, hbad ⟨paddedRequest, by simp, not_receivable_paddedRequest⟩⟩
  have hshort : Receivable [32, 6, 0, 0, 0] := by decide
  rw [hall, List.takeWhile_cons_of_pos (by simpa using hshort),
    List.takeWhile_cons_of_neg (by simpa using not_receivable_paddedRequest)]

/-- Nothing of a body between the two bounds arrives. -/
theorem unreceived_paddedRequest : ∃ out, encodeAll? [paddedRequest] = some out ∧
    receiveAll out = ([], out) ∧ receiveAll out ≠ ([paddedRequest], []) := by
  have hsome : (encodeAll? [paddedRequest]).isSome :=
    isSome_encodeAll?.mpr (by simp [length_paddedRequest, limit])
  obtain ⟨out, hout⟩ := Option.isSome_iff_exists.mp hsome
  obtain ⟨frame, frames, hframe, -, rfl⟩ := encodeAll?_cons_eq_some.mp hout
  have hall := receiveAll_of_bad
    (receive_eq_bad_of_not_receivable frames hframe not_receivable_paddedRequest)
  refine ⟨_, hout, hall, fun hwhole => ?_⟩
  exact absurd (congrArg Prod.fst (hall.symm.trans hwhole)) (by simp)

end Frame

end MetaFs
