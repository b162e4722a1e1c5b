import MetaFs.Frame
import MetaFs.Link
/-!
The client's end of a connection. Requests are numbered as they are made; the next frame that
arrives has to carry the number of the request and the type of its reply.
-/

namespace MetaFs

namespace Client

/-- What the peer sends after a frame has reached it, and whether it ends its stream then. -/
structure Arrival where
  bytes : List UInt8
  ended : Bool

/-- The other end, with a state that frames read and change. -/
structure Peer (σ : Type) where
  /-- The network name of the other end. -/
  name : String
  react : List UInt8 → StateM σ Arrival

/-- What is known at this end: the next number, and what has arrived and is not read yet. -/
structure Connection where
  nextId : UInt32 := 0
  unread : List UInt8 := []
  ended : Bool := false

variable {σ : Type}

/-- What runs over a connection to a peer. -/
abbrev Connected (σ : Type) := Over (Connection × σ)

def fail {α : Type} (e : Error) : Connected σ α := throw e

def pathLimit : Nat := Wire.textLimit

/-- A path that no message can carry is refused before a number is drawn. -/
def checkPath (kind : Kind) (path : String) : Except Error Unit :=
  if pathLimit < path.utf8ByteSize then
    let start := Quoted.quote (String.ofList (path.toList.take 32))
    .error ⟨.nametoolong, s!"{kind.name}: path of {path.utf8ByteSize} bytes starting {start} " ++
      s!"exceeds the {pathLimit} byte limit", none⟩
  else .ok ()

def drawId : Connected σ UInt32 := do
  let (c, peer) ← (get : StateM (Connection × σ) (Connection × σ))
  set ({ c with nextId := c.nextId + 1 }, peer)
  return c.nextId

/-- Hands a frame to the peer and keeps what comes back. -/
def send (peer : Peer σ) (frame : List UInt8) : Connected σ Unit := do
  let (c, state) ← (get : StateM (Connection × σ) (Connection × σ))
  let (arrival, next) := (peer.react frame).run state
  set ({ c with unread := c.unread ++ arrival.bytes, ended := c.ended || arrival.ended }, next)

/-- The next frame of the stream. When it is not there yet, no more of it is coming. -/
def receive : Connected σ (Except Frame.FrameError (List UInt8)) := do
  let (c, state) ← (get : StateM (Connection × σ) (Connection × σ))
  match Frame.receive c.unread with
  | .frame body rest =>
    set ({ c with unread := rest }, state)
    return .ok body
  | .incomplete => return .error (Frame.ending c.unread)
  | .bad e => return .error e

/-- The body of the reply to a request, given the body of the frame that came for it. -/
def accept (kind : Kind) (callId : UInt32) (frame : List UInt8) : Except Error Body :=
  match Wire.decode (α := Message) frame with
  | .error e => .error (.internal s!"{kind.name}: failed to decode response" e.message)
  | .ok (reply, _) =>
    if reply.callId ≠ callId then
      .error ⟨.io, s!"{kind.name}: response call id {reply.callId} does not match " ++
        s!"request call id {callId}", none⟩
    else
      match reply.body with
      | .reply (.error code message) => .error ⟨.ofNumber code.toNat, message, none⟩
      | body =>
        if some body.kind = kind.response? then .ok body
        else .error
          ⟨.io, s!"{kind.name}: unexpected response type {body.kind.name}", none⟩

def ofExcept {α : Type} : Except Error α → Connected σ α
  | .ok a => return a
  | .error e => fail e

/-- Sends a message and waits for its reply. -/
def call (peer : Peer σ) (body : Body) : Connected σ Body := do
  let kind := body.kind
  ofExcept (body.paths.forM (checkPath kind))
  -- From here on the number is used up, whatever becomes of the request.
  let callId ← drawId
  let lost (e : Frame.FrameError) : Error :=
    .internal s!"{kind.name} to {peer.name}: transport failure" e.message
  match Wire.encoded (⟨callId, body⟩ : Message) with
  | .error e => fail (.withCause .inval s!"{kind.name}: failed to encode request" e.message)
  | .ok bytes =>
    match Frame.encode? bytes with
    | none => fail (lost .tooBig)
    | some frame =>
      send peer frame
      match ← receive with
      | .error e => fail (lost e)
      | .ok reply => ofExcept (accept kind callId reply)

/-- The first request of a connection names the protocol and the user. -/
def handshake (peer : Peer σ) (address : Address) (user : String) : Connected σ Unit := do
  match ← call peer (.request (.connect protocolName user)) with
  | .reply .connect => return
  | other =>
    fail ⟨.io, s!"connect({address.display}): unexpected handshake reply {other.kind.name}", none⟩

/-- The error of a connection that nobody takes at an address. -/
def refused (address : String) : Error :=
  (Error.ofSystem Errno.connrefused.number).prepend s!"connect({address})"

/-- A connection as the link of a session. The peer is at the addresses that `reaches` names. -/
def link (peer : Peer σ) (reaches : Address → Bool) : Link (Connection × σ) where
  start address user := do
    if !reaches address then fail (refused address.display)
    modify fun (_, state) => ({}, state)
    handshake peer address user
  call request := call peer (.request request)
  finish := return

end Client

end MetaFs
