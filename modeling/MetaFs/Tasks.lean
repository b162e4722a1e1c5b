import MetaFs.Server
/-!
The server's end of a connection while its tasks run. The reader starts a task for each message; a
task asks the name system and then waits for its turn at the writer. The steps of the reader, of
the tasks and of the peer come in any order.
-/

namespace MetaFs

namespace Server

variable {σ κ : Type}

/-- A name system whose calls run beside each other. A call under way goes on or returns, in any of
the ways open to it in the present state, and it need not return at all. -/
structure Service (σ κ : Type) where
  call : Request → κ
  Resumes : κ → σ → κ ⊕ Except Error Body → σ → Prop

/-- The calls of a name system that are each done in one step. -/
def Service.ofNamesystem (ns : Namesystem σ) : Service σ Request where
  call r := r
  Resumes r store outcome store' := ∃ answer, (ns r).run store = (answer, store') ∧
    outcome = .inr answer

/-- Where a task is. It keeps what the name system said, or nothing when it was not asked. -/
inductive Phase (κ : Type) where
  | ready
  | calling (call : κ)
  | answered (answer : Option (Except Error Body))
  | sending (answer : Option (Except Error Body))
  | finished (answer : Option (Except Error Body))

structure Task (κ : Type) where
  message : Message
  phase : Phase κ

/-- The result of a message, given what the name system said. -/
def result : Body → Option (Except Error Body) → Except Error Body
  | .request r, some answer => settle r answer
  | _, _ => .error notRequest

def replyTo (m : Message) (answer : Option (Except Error Body)) : Message :=
  ⟨m.callId, replyBody (result m.body answer)⟩

/-- A connection and all tasks that were started on it, in the order of their messages. The writer
belongs to one task at a time; the bytes that it took and that have not left yet are in the
buffer. -/
structure Connection (σ κ : Type) where
  store : σ
  received : List UInt8 := []
  ended : Bool := false
  inbox : Inbox := {}
  tasks : List (Task κ) := []
  holder : Option Nat := none
  buffer : List UInt8 := []
  sent : List UInt8 := []
  lost : Bool := false

/-- A step of the peer: it sends bytes, ends its stream, or is lost to the server. -/
inductive PeerStep : Connection σ κ → Connection σ κ → Prop where
  | send {s : Connection σ κ} (bytes : List UInt8) (open_ : s.ended = false) :
      PeerStep s { s with received := s.received ++ bytes, inbox := s.inbox.put bytes }
  | finish {s : Connection σ κ} : PeerStep s { s with ended := true }
  | lose {s : Connection σ κ} : PeerStep s { s with lost := true }

/-- A step of the reader. It stops at a message that is refused, or when the stream has ended and
holds no further message. -/
inductive ReaderStep : Connection σ κ → Connection σ κ → Prop where
  | start {s : Connection σ κ} {m : Message} {rest : List UInt8} (reads : s.inbox.closed = false)
      (found : next s.inbox.unread = .message m rest) :
      ReaderStep s { s with inbox := ⟨rest, false⟩, tasks := s.tasks ++ [⟨m, .ready⟩] }
  | refuse {s : Connection σ κ} (reads : s.inbox.closed = false)
      (found : next s.inbox.unread = .refused) :
      ReaderStep s { s with inbox := { s.inbox with closed := true } }
  | stop {s : Connection σ κ} (reads : s.inbox.closed = false) (ended : s.ended = true)
      (found : next s.inbox.unread = .incomplete) :
      ReaderStep s { s with inbox := { s.inbox with closed := true } }

/-- A step of the task with this index. A reply that cannot be written is given up before the
writer is asked for; one that is too big is given up by the writer. -/
inductive TaskStep (service : Service σ κ) (i : Nat) :
    Connection σ κ → Connection σ κ → Prop where
  | call {s : Connection σ κ} {m : Message} {r : Request}
      (here : s.tasks[i]? = some ⟨m, .ready⟩) (asks : m.body = .request r) :
      TaskStep service i s { s with tasks := s.tasks.set i ⟨m, .calling (service.call r)⟩ }
  | reject {s : Connection σ κ} {m : Message} {r : Reply}
      (here : s.tasks[i]? = some ⟨m, .ready⟩) (foreign : m.body = .reply r) :
      TaskStep service i s { s with tasks := s.tasks.set i ⟨m, .answered none⟩ }
  | resume {s : Connection σ κ} {m : Message} {k k' : κ} {store : σ}
      (here : s.tasks[i]? = some ⟨m, .calling k⟩)
      (resumes : service.Resumes k s.store (.inl k') store) :
      TaskStep service i s { s with tasks := s.tasks.set i ⟨m, .calling k'⟩, store }
  | answer {s : Connection σ κ} {m : Message} {k : κ} {answer : Except Error Body} {store : σ}
      (here : s.tasks[i]? = some ⟨m, .calling k⟩)
      (resumes : service.Resumes k s.store (.inr answer) store) :
      TaskStep service i s { s with tasks := s.tasks.set i ⟨m, .answered (some answer)⟩, store }
  | unwritable {s : Connection σ κ} {m : Message} {answer : Option (Except Error Body)}
      {e : Wire.WriteError} (here : s.tasks[i]? = some ⟨m, .answered answer⟩)
      (fails : Wire.encoded (replyTo m answer) = .error e) :
      TaskStep service i s { s with tasks := s.tasks.set i ⟨m, .finished answer⟩ }
  | oversize {s : Connection σ κ} {m : Message} {answer : Option (Except Error Body)}
      {body : List UInt8} (here : s.tasks[i]? = some ⟨m, .answered answer⟩)
      (free : s.holder = none) (written : Wire.encoded (replyTo m answer) = .ok body)
      (fails : Frame.encode? body = none) :
      TaskStep service i s { s with tasks := s.tasks.set i ⟨m, .finished answer⟩ }
  | lock {s : Connection σ κ} {m : Message} {answer : Option (Except Error Body)}
      {frame : List UInt8} (here : s.tasks[i]? = some ⟨m, .answered answer⟩)
      (free : s.holder = none) (framed : frame? (replyTo m answer) = some frame) :
      TaskStep service i s
        { s with
          tasks := s.tasks.set i ⟨m, .sending answer⟩
          holder := some i
          buffer := s.buffer ++ frame }
  | flush {s : Connection σ κ} {now later : List UInt8} (holds : s.holder = some i)
      (split : s.buffer = now ++ later) :
      TaskStep service i s { s with sent := s.sent ++ now, buffer := later }
  | release {s : Connection σ κ} {m : Message} {answer : Option (Except Error Body)}
      (here : s.tasks[i]? = some ⟨m, .sending answer⟩) (done : s.buffer = []) :
      TaskStep service i s
        { s with tasks := s.tasks.set i ⟨m, .finished answer⟩, holder := none }
  | fail {s : Connection σ κ} {m : Message} {answer : Option (Except Error Body)}
      (here : s.tasks[i]? = some ⟨m, .sending answer⟩) (lost : s.lost = true) :
      TaskStep service i s
        { s with tasks := s.tasks.set i ⟨m, .finished answer⟩, holder := none }
  | giveUp {s : Connection σ κ} {m : Message} {answer : Option (Except Error Body)}
      (here : s.tasks[i]? = some ⟨m, .answered answer⟩) (free : s.holder = none)
      (lost : s.lost = true) :
      TaskStep service i s { s with tasks := s.tasks.set i ⟨m, .finished answer⟩ }

inductive Step (service : Service σ κ) (s t : Connection σ κ) : Prop where
  | peer (step : PeerStep s t)
  | reader (step : ReaderStep s t)
  | task (i : Nat) (step : TaskStep service i s t)

end Server

end MetaFs
