import Mathlib
import MetaFs.Client
import MetaFs.Proofs.Rounds
import MetaFs.Proofs.Serve
/-! The server as the peer of a client. The schedule of its tasks is left open; running each task as
soon as it is started is one of the schedules. -/

namespace MetaFs

namespace Client

variable {σ : Type}

/-- The states in which the peer is when a frame reaches it. -/
inductive Visited (peer : Peer σ) (start : σ) : σ → Prop where
  | start : Visited peer start start
  | react {s : σ} (earlier : Visited peer start s) (frame : List UInt8) :
      Visited peer start ((peer.react frame).run s).2

/-- The peer is a connection of the server, which schedules its tasks in whatever way. -/
def Peer.Serves (peer : Peer (Server.Connection σ Request)) (ns : Namesystem σ) (store : σ) :
    Prop :=
  ∀ (s : Server.Connection σ Request) (frame : List UInt8), Visited peer { store } s →
    Server.Reacts ns s frame ((peer.react frame).run s).1.bytes ((peer.react frame).run s).2

end Client

namespace Server

variable {σ : Type} {s : Connection σ Request}

theorem settled_readAll (unread : List UInt8) :
    (readAll unread).2.closed = true ∨ next (readAll unread).2.unread = .incomplete := by
  cases h : next unread with
  | message m rest =>
    have hlt := length_lt_of_next h
    rw [readAll_of_message h]
    exact settled_readAll rest
  | incomplete =>
    rw [readAll_of_incomplete h]
    exact .inr h
  | refused =>
    rw [readAll_of_refused h]
    exact .inl rfl
termination_by unread.length

theorem settled_feed (inbox : Inbox) (bytes : List UInt8) :
    (inbox.feed bytes).2.closed = true ∨ next (inbox.feed bytes).2.unread = .incomplete := by
  rw [Inbox.feed]
  split_ifs with hclosed
  · exact .inl hclosed
  · exact settled_readAll _

/-- Nothing is under way, and the client is there. -/
structure Connection.Quiet (s : Connection σ Request) : Prop where
  stays : s.ended = false ∧ s.lost = false
  free : s.holder = none
  clean : s.buffer = []
  finished : ∀ task ∈ s.tasks, task.Finished

/-- What answering all messages of a frame one after the other makes of a connection, but for what
the new tasks keep. -/
def Connection.served (s : Connection σ Request) (ns : Namesystem σ) (frame : List UInt8)
    (tasks : List (Task Request)) : Connection σ Request :=
  { s with
    store := ((serve ns s.inbox frame).run s.store).2
    received := s.received ++ frame
    inbox := ((serve ns s.inbox frame).run s.store).1.2
    tasks := s.tasks ++ tasks
    sent := s.sent ++ ((serve ns s.inbox frame).run s.store).1.1.flatten }

theorem Connection.Quiet.served (h : s.Quiet) (ns : Namesystem σ) (frame : List UInt8) :
    ∃ tasks : List (Task Request),
      Reacts ns s frame ((serve ns s.inbox frame).run s.store).1.1.flatten
        (s.served ns frame tasks) ∧
      (s.served ns frame tasks).Quiet := by
  obtain ⟨tasks, -, hnew, hrun⟩ := run_serve ns frame s h.stays.1 h.free h.clean
  have hfinished : ∀ task ∈ s.tasks ++ tasks, task.Finished :=
    List.forall_mem_append.mpr ⟨h.finished, hnew⟩
  have hsettled : (s.served ns frame tasks).Settled := ⟨settled_feed s.inbox frame, hfinished⟩
  exact ⟨tasks, ⟨hrun, rfl, ⟨rfl, rfl⟩, rfl, .inr hsettled⟩, h.stays, h.free, h.clean, hfinished⟩

open Classical in
/-- A server on which each task runs as soon as it is started. -/
noncomputable def sequential (ns : Namesystem σ) (name : String) :
    Client.Peer (Connection σ Request) where
  name := name
  react frame s :=
    if h : s.Quiet then
      (⟨((serve ns s.inbox frame).run s.store).1.1.flatten, false⟩,
        s.served ns frame (choose (h.served ns frame)))
    else (⟨[], false⟩, s)

theorem run_react_sequential (h : s.Quiet) (ns : Namesystem σ) (name : String)
    (frame : List UInt8) : ((sequential ns name).react frame).run s =
      (⟨((serve ns s.inbox frame).run s.store).1.1.flatten, false⟩,
        s.served ns frame (Classical.choose (h.served ns frame))) :=
  dif_pos h

/-- One after the other is an order in which the tasks can run. -/
theorem serves_sequential (ns : Namesystem σ) (name : String) (store : σ) :
    (sequential ns name).Serves ns store := by
  intro s frame hvisited
  -- Every frame before this one was served to its end.
  have hquiet : s.Quiet := by
    induction hvisited with
    | start => exact ⟨⟨rfl, rfl⟩, rfl, rfl, by simp⟩
    | react _ frame ih =>
      rw [run_react_sequential ih]
      exact (Classical.choose_spec (ih.served ns frame)).2
  rw [run_react_sequential hquiet]
  exact (Classical.choose_spec (hquiet.served ns frame)).1

end Server

end MetaFs
