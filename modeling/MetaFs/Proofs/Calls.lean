import Mathlib
import MetaFs.Client
import MetaFs.Proofs.Wire
/-! What one call does to a connection: whether it draws a number, whether a frame reaches the peer,
which frame of the peer's stream it takes, and what it makes of that frame. -/

namespace MetaFs

namespace Client

variable {σ : Type} {peer : Peer σ} {body : Body} {c : Connection} {s : σ}

/-- A call from the given state, with its result and the state after it. -/
def step (peer : Peer σ) (body : Body) (state : Connection × σ) :
    Except Error Body × Connection × σ :=
  (call peer body).run.run state

theorem run_drawId : (drawId : Connected σ UInt32).run.run (c, s) =
    (.ok c.nextId, { c with nextId := c.nextId + 1 }, s) := rfl

theorem run_send (peer : Peer σ) (frame : List UInt8) :
    (send peer frame).run.run (c, s) =
      (.ok (), { c with
          unread := c.unread ++ ((peer.react frame).run s).1.bytes
          ended := c.ended || ((peer.react frame).run s).1.ended },
        ((peer.react frame).run s).2) := rfl

theorem run_receive :
    (receive : Connected σ (Except Frame.FrameError (List UInt8))).run.run (c, s) =
    match Frame.receive c.unread with
    | .frame body rest => (.ok (.ok body), { c with unread := rest }, s)
    | .incomplete => (.ok (.error (Frame.ending c.unread)), c, s)
    | .bad e => (.ok (.error e), c, s) := by
  rw [receive]
  refine (Over.run_bind_of_ok rfl).trans ?_
  dsimp only
  cases Frame.receive c.unread <;> rfl

theorem run_ofExcept {α : Type} (x : Except Error α) :
    (ofExcept x : Connected σ α).run.run (c, s) = (x, c, s) := by
  cases x <;> rfl

/-- The error of a call whose frame does not get out, or for which none comes back. -/
def lost (peer : Peer σ) (kind : Kind) (e : Frame.FrameError) : Error :=
  .internal s!"{kind.name} to {peer.name}: transport failure" e.message

/-- The connection once the peer has reacted to the frame of a call. -/
def Connection.advance (c : Connection) (arrival : Arrival) : Connection where
  nextId := c.nextId + 1
  unread := c.unread ++ arrival.bytes
  ended := c.ended || arrival.ended

/-- No path of the body is too long for a message. -/
def ShortPaths (body : Body) : Prop :=
  ∀ path ∈ body.paths, path.utf8ByteSize ≤ pathLimit

theorem forM_checkPath_of_short {kind : Kind} {paths : List String}
    (h : ∀ path ∈ paths, path.utf8ByteSize ≤ pathLimit) :
    paths.forM (checkPath kind) = .ok () := by
  induction paths with
  | nil => rfl
  | cons path rest ih =>
    rw [List.forall_mem_cons] at h
    have hpath : checkPath kind path = .ok () := if_neg (Nat.not_lt.mpr h.1)
    show (checkPath kind path >>= fun _ => rest.forM (checkPath kind)) = .ok ()
    rw [hpath]
    exact ih h.2

theorem forM_checkPath_of_long (kind : Kind) {paths : List String}
    (h : ∃ path ∈ paths, pathLimit < path.utf8ByteSize) :
    ∃ e, paths.forM (checkPath kind) = .error e ∧ e.errno = .nametoolong := by
  induction paths with
  | nil => simp at h
  | cons path rest ih =>
    show ∃ e, (checkPath kind path >>= fun _ => rest.forM (checkPath kind)) = .error e ∧
      e.errno = .nametoolong
    by_cases hpath : pathLimit < path.utf8ByteSize
    · have hcheck : ∃ e, checkPath kind path = .error e ∧ e.errno = .nametoolong :=
        ⟨_, if_pos hpath, rfl⟩
      obtain ⟨e, he, herrno⟩ := hcheck
      exact ⟨e, by rw [he]; rfl, herrno⟩
    · have hcheck : checkPath kind path = .ok () := if_neg hpath
      rw [hcheck]
      apply ih
      obtain ⟨p, hp, hlong⟩ := h
      rcases List.mem_cons.mp hp with rfl | hp
      · exact absurd hlong hpath
      · exact ⟨p, hp, hlong⟩

/-- A path that is too long stops the call before it draws a number. -/
theorem step_of_long_path (h : ¬ShortPaths body) :
    ∃ e : Error, e.errno = .nametoolong ∧ ∀ {σ : Type} (peer : Peer σ) (c : Connection) (s : σ),
      step peer body (c, s) = (.error e, c, s) := by
  have hlong : ∃ path ∈ body.paths, pathLimit < path.utf8ByteSize := by
    simpa [ShortPaths] using h
  obtain ⟨e, he, herrno⟩ := forM_checkPath_of_long body.kind hlong
  refine ⟨e, herrno, fun peer c s => ?_⟩
  rw [step, call]
  exact Over.run_bind_of_error ((run_ofExcept _).trans (by rw [he]))

section Numbered

variable (peer s) (short : ShortPaths body)

include short

/-- Behind the check of the paths a number is drawn. -/
theorem run_drawn {α : Type} (f : UInt32 → Connected σ α) :
    (do ofExcept (body.paths.forM (checkPath body.kind)); f (← drawId)).run.run (c, s) =
      (f c.nextId).run.run ({ c with nextId := c.nextId + 1 }, s) := by
  have hchecked : (ofExcept (body.paths.forM (checkPath body.kind)) : Connected σ Unit).run.run
      (c, s) = (.ok (), c, s) := by
    rw [run_ofExcept, forM_checkPath_of_short short]
  exact (Over.run_bind_of_ok hchecked).trans (Over.run_bind_of_ok run_drawId)

theorem step_of_unwritable {e : Wire.WriteError}
    (hbody : Wire.encoded (⟨c.nextId, body⟩ : Message) = .error e) :
    step peer body (c, s) =
      (.error (.withCause .inval s!"{body.kind.name}: failed to encode request" e.message),
        { c with nextId := c.nextId + 1 }, s) := by
  refine (run_drawn s short _).trans ?_
  rw [hbody]
  rfl

theorem step_of_oversize {bytes : List UInt8}
    (hbody : Wire.encoded (⟨c.nextId, body⟩ : Message) = .ok bytes)
    (hframe : Frame.encode? bytes = none) :
    step peer body (c, s) =
      (.error (lost peer body.kind .tooBig), { c with nextId := c.nextId + 1 }, s) := by
  refine (run_drawn s short _).trans ?_
  simp only [hbody, hframe]
  rfl

variable {bytes frame : List UInt8}
  (hbody : Wire.encoded (⟨c.nextId, body⟩ : Message) = .ok bytes)
  (hframe : Frame.encode? bytes = some frame)
include hbody hframe

/-- A call whose frame reaches the peer goes by what is then at the front of the stream. -/
theorem step_of_sent :
    step peer body (c, s) =
      let c' := c.advance ((peer.react frame).run s).1
      let s' := ((peer.react frame).run s).2
      match Frame.receive c'.unread with
      | .frame reply rest => (accept body.kind c.nextId reply, { c' with unread := rest }, s')
      | .incomplete => (.error (lost peer body.kind (Frame.ending c'.unread)), c', s')
      | .bad e => (.error (lost peer body.kind e), c', s') := by
  refine (run_drawn s short _).trans ?_
  simp only [hbody, hframe]
  refine (Over.run_bind_of_ok (run_send peer frame)).trans ?_
  have hreceived := run_receive (c := c.advance ((peer.react frame).run s).1)
    (s := ((peer.react frame).run s).2)
  cases hr : Frame.receive (c.advance ((peer.react frame).run s).1).unread with
  | frame reply rest =>
    rw [hr] at hreceived
    exact (Over.run_bind_of_ok hreceived).trans (run_ofExcept _)
  | incomplete =>
    rw [hr] at hreceived
    exact (Over.run_bind_of_ok hreceived).trans rfl
  | bad e =>
    rw [hr] at hreceived
    exact (Over.run_bind_of_ok hreceived).trans rfl

end Numbered

/-- What a call makes of the frame that it took. -/
inductive Verdict (kind : Kind) (callId : UInt32) (frame : List UInt8) :
    Except Error Body → Prop where
  | answered {body : Body} {extra : List UInt8}
      (reads : Wire.decode frame = .ok ((⟨callId, body⟩ : Message), extra))
      (pairs : kind.response? = some body.kind) : Verdict kind callId frame (.ok body)
  | failed {code : UInt32} {message : String} {extra : List UInt8}
      (reads : Wire.decode frame =
        .ok ((⟨callId, .reply (.error code message)⟩ : Message), extra)) :
      Verdict kind callId frame (.error ⟨.ofNumber code.toNat, message, none⟩)
  | undecodable {fault : Wire.ReadError} {e : Error}
      (refused : Wire.decode (α := Message) frame = .error fault) (internal : e.errno = .io) :
      Verdict kind callId frame (.error e)
  | foreign {m : Message} {extra : List UInt8} {e : Error}
      (reads : Wire.decode frame = .ok (m, extra)) (differs : m.callId ≠ callId)
      (internal : e.errno = .io) : Verdict kind callId frame (.error e)
  | unpaired {body : Body} {extra : List UInt8} {e : Error}
      (reads : Wire.decode frame = .ok ((⟨callId, body⟩ : Message), extra))
      (differs : kind.response? ≠ some body.kind)
      (noError : ∀ code message, body ≠ .reply (.error code message))
      (internal : e.errno = .io) : Verdict kind callId frame (.error e)

theorem verdict_accept (kind : Kind) (callId : UInt32) (frame : List UInt8) :
    Verdict kind callId frame (accept kind callId frame) := by
  rw [accept]
  cases hd : Wire.decode (α := Message) frame with
  | error fault => exact .undecodable hd rfl
  | ok read =>
    obtain ⟨⟨id, body⟩, extra⟩ := read
    dsimp only
    split_ifs with hid
    · exact .foreign hd hid rfl
    · obtain rfl : id = callId := not_not.mp hid
      split
      · exact .failed hd
      · rename_i hnot
        split_ifs with hp
        · exact .answered hd hp.symm
        · exact .unpaired hd (fun h => hp h.symm) (fun code message h => hnot code message h) rfl

end Client

end MetaFs
