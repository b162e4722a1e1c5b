import MetaFs.Error
import MetaFs.Frame
import MetaFs.Message
/-!
The server's end of a connection. Each message that can be read is answered under its own number;
the first frame or message that cannot be read ends the reading, and what was read before it is
still answered.
-/

namespace MetaFs

/-- Whatever answers requests, over a state that requests read and change. -/
abbrev Namesystem (σ : Type) := Request → StateM σ (Except Error Body)

namespace Server

/-- The answer of a name system that does not support an operation. -/
def unsupported : Error :=
  ⟨.opnotsupp, "operation not supported", none⟩

def notRequest : Error :=
  ⟨.proto, "not a request", none⟩

/-- The answer of the name system has to be of the request's reply type. -/
def checked (request answer : Body) : Except Error Body :=
  if request.kind.response? = some answer.kind then .ok answer
  else .error ⟨.proto,
    s!"namesystem answered {request.kind.name} with {answer.kind.name}", none⟩

/-- The result of a request, given what the name system said. -/
def settle (r : Request) : Except Error Body → Except Error Body
  | .ok answer => checked (.request r) answer
  | .error e => .error e

/-- The result of one message. -/
def dispatch {σ : Type} (ns : Namesystem σ) : Body → StateM σ (Except Error Body)
  | .reply _ => return .error notRequest
  | .request r => return settle r (← ns r)

/-- An error is sent as its number and its message. -/
def replyBody : Except Error Body → Body
  | .ok body => body
  | .error e => .reply (.error (UInt32.ofNat e.errno.number) e.message)

/-- The frame of a reply, unless it cannot be written or is too big. -/
def frame? (m : Message) : Option (List UInt8) := do
  let body ← (Wire.encoded m).toOption
  Frame.encode? body

/-- The frame that answers a message. -/
def answer {σ : Type} (ns : Namesystem σ) (m : Message) : StateM σ (Option (List UInt8)) := do
  let result ← dispatch ns m.body
  return frame? ⟨m.callId, replyBody result⟩

/-- What the reader finds at the front of what has arrived. -/
inductive Reading where
  | message (m : Message) (rest : List UInt8)
  | incomplete
  | refused

/-- Bytes behind a message in its frame are ignored. A length that is refused is so before its body
is there. -/
def next (unread : List UInt8) : Reading :=
  match Frame.receive unread with
  | .frame body rest =>
    match Wire.decode (α := Message) body with
    | .ok (m, _) => .message m rest
    | .error _ => .refused
  | .incomplete => .incomplete
  | .bad _ => .refused

theorem length_lt_of_next {unread rest : List UInt8} {m : Message}
    (h : next unread = .message m rest) : rest.length < unread.length := by
  unfold next at h
  split at h
  · rename_i hr
    split at h
    · cases h
      exact Frame.length_lt_of_receive hr
    · cases h
  · cases h
  · cases h

/-- What has arrived and is not read yet. Nothing more is read once it is closed. -/
structure Inbox where
  unread : List UInt8 := []
  closed : Bool := false

def Inbox.put (inbox : Inbox) (bytes : List UInt8) : Inbox :=
  if inbox.closed then inbox else { inbox with unread := inbox.unread ++ bytes }

/-- Reads up to a message that is refused or that is not there yet. -/
def readAll (unread : List UInt8) : List Message × Inbox :=
  match _h : next unread with
  | .message m rest =>
    let (messages, inbox) := readAll rest
    (m :: messages, inbox)
  | .incomplete => ([], ⟨unread, false⟩)
  | .refused => ([], ⟨unread, true⟩)
termination_by unread.length
decreasing_by exact length_lt_of_next _h

/-- Takes bytes in and returns the messages they complete. -/
def Inbox.feed (inbox : Inbox) (bytes : List UInt8) : List Message × Inbox :=
  if inbox.closed then ([], inbox) else readAll (inbox.unread ++ bytes)

/-- Answers messages one after the other; a reply that cannot be sent is left out. -/
def answerAll {σ : Type} (ns : Namesystem σ) : List Message → StateM σ (List (List UInt8))
  | [] => return []
  | m :: rest => do
    let frame ← answer ns m
    let frames ← answerAll ns rest
    return frame.toList ++ frames

/-- Takes bytes in and answers what they complete. -/
def serve {σ : Type} (ns : Namesystem σ) (inbox : Inbox) (bytes : List UInt8) :
    StateM σ (List (List UInt8) × Inbox) := do
  let (messages, next) := inbox.feed bytes
  return (← answerAll ns messages, next)

end Server

end MetaFs
