import Mathlib
import MetaFs.Proofs.Conversations
import MetaFs.Proofs.Texts
/-! What a call sends: nothing where the request has no frame, and else the one frame that carries
it. A request that is not sent uses up a number at the most. -/

namespace MetaFs

theorem Message.encode?_of_size_le {m : Message} (h : m.body.size ≤ Frame.limit) :
    Frame.encode? (Wire.bytesOf (Wire.pieces m)) =
      some (Frame.framed (Wire.bytesOf (Wire.pieces m))) :=
  Frame.encode?_eq_some.mpr ⟨m.length_bytesOf_pieces ▸ h, rfl⟩

theorem Message.encode?_of_lt_size {m : Message} (h : Frame.limit < m.body.size) :
    Frame.encode? (Wire.bytesOf (Wire.pieces m)) = none := by
  apply if_neg
  rw [m.length_bytesOf_pieces]
  exact Nat.not_le.mpr h

namespace Client

variable {σ : Type} {body : Body} {c c' : Connection} {s s' : σ}

/-- The connection with one number used up. -/
def Connection.skip (c : Connection) : Connection := { c with nextId := c.nextId + 1 }

section Unsent

/-- The call fails with the error and sends nothing. The peer is as it was, and calls after it go on
from the second connection. -/
structure Peer.Spared (peer : Peer σ) (body : Body) (e : Error) (c c' : Connection) : Prop where
  called : ∀ s : σ, step peer body (c, s) = (.error e, c', s)
  noted : ∀ (s : σ) (t : Transcript), step peer.noting body (c, s, t) = (.error e, c', s, t)
  later : ∀ (s : σ) (bodies : List Body), (callAll peer (body :: bodies)).run (c, s) =
    (.error e :: ((callAll peer bodies).run (c', s)).1, ((callAll peer bodies).run (c', s)).2)

theorem Peer.Spared.of_called {peer : Peer σ} {e : Error}
    (called : ∀ s : σ, step peer body (c, s) = (.error e, c', s))
    (noted : ∀ (s : σ) (t : Transcript), step peer.noting body (c, s, t) = (.error e, c', s, t)) :
    peer.Spared body e c c' where
  called := called
  noted := noted
  later s bodies := by rw [run_callAll_cons, called s]

variable (peer : Peer σ) (c)

theorem spared_of_long_path (h : ¬ShortPaths body) :
    ∃ e : Error, e.errno = .nametoolong ∧ peer.Spared body e c c := by
  obtain ⟨e, herrno, hstep⟩ := step_of_long_path h
  exact ⟨e, herrno, .of_called (hstep peer c) fun s t => hstep peer.noting c (s, t)⟩

theorem spared_of_long_label (short : ShortPaths body) (h : ¬ShortLabels body) :
    ∃ e : Error, e.errno = .inval ∧ peer.Spared body e c c.skip := by
  have hencoded : Wire.encoded (⟨c.nextId, body⟩ : Message) = .error .overlongText :=
    Message.encoded_of_long fun hs => h hs.2
  exact ⟨_, rfl, .of_called (fun s => step_of_unwritable peer s short hencoded)
    fun s t => step_of_unwritable peer.noting (s, t) short hencoded⟩

theorem spared_of_oversize (short : ShortPaths body) (labels : ShortLabels body)
    (h : Frame.limit < body.size) :
    ∃ e : Error, e.errno = .io ∧ e.cause = some "frame size too big" ∧
      peer.Spared body e c c.skip := by
  have hencoded := Message.encoded_of_short (m := ⟨c.nextId, body⟩) short labels
  have hframe := Message.encode?_of_lt_size (m := ⟨c.nextId, body⟩) h
  exact ⟨_, rfl, rfl, .of_called (fun s => step_of_oversize peer s short hencoded hframe)
    fun s t => step_of_oversize peer.noting (s, t) short hencoded hframe⟩

end Unsent

/-- One frame reaches the peer, and a number is used up. -/
theorem exists_sent (peer : Peer σ) {bytes : List UInt8} (short : ShortPaths body)
    (encoded : Wire.encoded (⟨c.nextId, body⟩ : Message) = .ok bytes)
    (fits : bytes.length ≤ Frame.limit) (s : σ) (t : Transcript) :
    ∃ (arrived : List UInt8) (result : Except Error Body) (c' : Connection) (s' : σ),
      c'.nextId = c.nextId + 1 ∧ step peer body (c, s) = (result, c', s') ∧
      step peer.noting body (c, s, t) =
        (result, c', s', ⟨t.frames ++ [Frame.framed bytes], t.stream ++ arrived⟩) := by
  have hframe := Frame.encode?_eq_some.mpr ⟨fits, rfl⟩
  obtain ⟨taken?, result, c', s', ⟨frames, stream⟩, hhappens⟩ :=
    happens_sent peer s t short encoded hframe
  obtain ⟨arrived, rfl, -⟩ := hhappens.leads.stream
  obtain rfl : frames = t.frames ++ [Frame.framed bytes] := hhappens.leads.frames
  have hnext : c'.nextId = c.nextId + 1 := by
    obtain ⟨hnone, -⟩ | ⟨-, hnext⟩ := hhappens.leads.drawn
    · cases hnone
    · exact hnext
  exact ⟨arrived, result, c', s', hnext, hhappens.called, hhappens.noted⟩

end Client

end MetaFs
