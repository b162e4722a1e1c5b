import MetaFs.Wire
/-!
Frames: each body is sent behind a length of four bytes, which counts itself. The sender checks the
body against the limit and the receiver checks the length.
-/

namespace MetaFs.Frame

def limit : Nat := 8388608

inductive FrameError where
  | tooBig
  | tooShort
  | cutOff
  | closed
deriving DecidableEq, Repr

def FrameError.message : FrameError → String
  | tooBig => "frame size too big"
  | tooShort => "provided length would overflow after adjustment"
  | cutOff => "bytes remaining on stream"
  | closed => "connection closed by peer"

def encode? (body : List UInt8) : Option (List UInt8) :=
  if body.length ≤ limit then some (Wire.littleEndian 4 (body.length + 4) ++ body) else none

/-- The state of what has been received. -/
inductive Received where
  | frame (body rest : List UInt8)
  | incomplete
  | bad (e : FrameError)
deriving DecidableEq, Repr

/-- Looks at the length as soon as it is there. -/
def receive (input : List UInt8) : Received :=
  let header := input.take 4
  if header.length < 4 then .incomplete
  else
    let length := Wire.value header
    if limit < length then .bad .tooBig
    else if length < 4 then .bad .tooShort
    else
      let rest := input.drop 4
      let body := rest.take (length - 4)
      if body.length < length - 4 then .incomplete
      else .frame body (rest.drop (length - 4))

/-- Why there is no further frame when the stream ends after an incomplete one. Nothing, or no
more than a length, counts as the end between two frames. -/
def ending (input : List UInt8) : FrameError :=
  if input.isEmpty || input.length = 4 then .closed else .cutOff

theorem length_lt_of_receive {input body rest : List UInt8}
    (h : receive input = .frame body rest) : rest.length < input.length := by
  simp only [receive] at h
  split at h
  · simp at h
  · rename_i hlen
    split at h
    · simp at h
    · split at h
      · simp at h
      · split at h
        · simp at h
        · simp only [Received.frame.injEq] at h
          rw [← h.2]
          simp only [List.length_take, List.length_drop] at hlen ⊢
          omega

/-- All complete frames, and what is left: the start of a frame, or a length that is refused. -/
def receiveAll (input : List UInt8) : List (List UInt8) × List UInt8 :=
  match _h : receive input with
  | .frame body rest =>
    let (bodies, left) := receiveAll rest
    (body :: bodies, left)
  | _ => ([], input)
termination_by input.length
decreasing_by exact length_lt_of_receive _h

end MetaFs.Frame
