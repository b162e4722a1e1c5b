import Mathlib
import MetaFs.Proofs.Remote
import MetaFs.Proofs.Sending
/-! The numbers of calls as mere names. A peer for which they are that answers calls alike whatever
number they begin with, so that a call which used one up is of no effect on those after it. -/

namespace MetaFs

/-- The message under a number that is further by `k`. -/
def Message.shift (k : UInt32) (m : Message) : Message := { m with callId := m.callId + k }

/-- Whether a message has a frame does not depend on its number. -/
theorem Message.exists_framedAs_iff {m : Message} :
    (∃ frame, m.FramedAs frame) ↔
      (Client.ShortPaths m.body ∧ ShortLabels m.body) ∧ m.body.size ≤ Frame.limit := by
  constructor
  · intro h
    obtain ⟨frame, bytes, hframe, hbytes, -⟩ := h
    obtain ⟨hw, rfl⟩ := Wire.encoded_eq_ok.mp hbytes
    refine ⟨Message.writable_pieces_iff.mp hw, ?_⟩
    rw [← m.length_bytesOf_pieces]
    exact (Frame.encode?_eq_some.mp hframe).1
  · intro h
    exact ⟨_, Message.framedAs (Message.encoded_of_short h.1.1 h.1.2)
      (Message.encode?_of_size_le h.2)⟩

theorem Message.exists_framedAs_shift {m : Message} (k : UInt32) :
    (∃ frame, (m.shift k).FramedAs frame) ↔ ∃ frame, m.FramedAs frame :=
  (exists_framedAs_iff (m := m.shift k)).trans (exists_framedAs_iff (m := m)).symm

theorem Message.FramedAs.eq_framed {m : Message} {frame : List UInt8} (h : m.FramedAs frame) :
    ∃ bytes, frame = Frame.framed bytes ∧ Frame.encode? bytes = some frame ∧
      bytes.length = m.body.size ∧ Wire.decode bytes = .ok (m, []) := by
  obtain ⟨bytes, hframe, hbytes, hdecode⟩ := h
  obtain ⟨-, rfl⟩ := Wire.encoded_eq_ok.mp hbytes
  exact ⟨_, (Frame.encode?_eq_some.mp hframe).2, hframe, m.length_bytesOf_pieces, hdecode⟩

namespace Client

variable {σ : Type} {c c' : Connection} {s s' : σ}

/-- Both bodies are read alike, but for a number that is further by `k` in the second. -/
def ReadAlike (k : UInt32) (reply reply' : List UInt8) : Prop :=
  (Wire.decode (α := Message) reply').map Prod.fst =
    (Wire.decode (α := Message) reply).map fun found => found.1.shift k

/-- A relation between what is unread and the states of the peer, in a run and in the same run with
numbers that are further by `k`. -/
structure Renumbering (peer : Peer σ) (k : UInt32)
    (Rel : List UInt8 × σ → List UInt8 × σ → Prop) : Prop where
  react : ∀ {unread unread' : List UInt8} {s s' : σ} {m : Message} {frame frame' : List UInt8},
    Rel (unread, s) (unread', s') → m.FramedAs frame → (m.shift k).FramedAs frame' →
      Rel (unread ++ ((peer.react frame).run s).1.bytes, ((peer.react frame).run s).2)
        (unread' ++ ((peer.react frame').run s').1.bytes, ((peer.react frame').run s').2)
  frame : ∀ {unread unread' : List UInt8} {s s' : σ} {reply rest : List UInt8},
    Rel (unread, s) (unread', s') → Frame.receive unread = .frame reply rest →
      ∃ reply' rest', Frame.receive unread' = .frame reply' rest' ∧ ReadAlike k reply reply' ∧
        Rel (rest, s) (rest', s')
  incomplete : ∀ {unread unread' : List UInt8} {s s' : σ},
    Rel (unread, s) (unread', s') → Frame.receive unread = .incomplete →
      Frame.receive unread' = .incomplete ∧ Frame.ending unread' = Frame.ending unread
  bad : ∀ {unread unread' : List UInt8} {s s' : σ} {e : Frame.FrameError},
    Rel (unread, s) (unread', s') → Frame.receive unread = .bad e → Frame.receive unread' = .bad e

/-- A result but for the text of an error, which may tell numbers. -/
def silent : Except Error Body → Except (Errno × Option String) Body :=
  Except.mapError fun e => (e.errno, e.cause)

theorem silent_accept {k : UInt32} {reply reply' : List UInt8} (h : ReadAlike k reply reply')
    (kind : Kind) (callId : UInt32) :
    silent (accept kind (callId + k) reply') = silent (accept kind callId reply) := by
  rw [accept, accept]
  cases hd : Wire.decode (α := Message) reply with
  | error e =>
    cases hd' : Wire.decode (α := Message) reply' with
    | error e' =>
      rw [ReadAlike, hd, hd'] at h
      obtain rfl : e' = e := Except.error.inj h
      rfl
    | ok found =>
      rw [ReadAlike, hd, hd'] at h
      cases h
  | ok found =>
    cases hd' : Wire.decode (α := Message) reply' with
    | error e' =>
      rw [ReadAlike, hd, hd'] at h
      cases h
    | ok found' =>
      rw [ReadAlike, hd, hd'] at h
      obtain ⟨m, extra⟩ := found
      obtain ⟨m', extra'⟩ := found'
      obtain rfl : m' = m.shift k := Except.ok.inj h
      dsimp only [Message.shift]
      by_cases hid : m.callId = callId
      · rw [if_neg (not_not.mpr hid), if_neg (not_not.mpr (by rw [hid]))]
      · have hid' : m.callId + k ≠ callId + k := fun heq => hid (add_right_cancel heq)
        rw [if_pos hid, if_pos hid']
        rfl

section Renumbered

variable {peer : Peer σ} {k : UInt32} {Rel : List UInt8 × σ → List UInt8 × σ → Prop}

/-- The two runs before and after a call. -/
structure Abreast (k : UInt32) (Rel : List UInt8 × σ → List UInt8 × σ → Prop)
    (state state' : Connection × σ) : Prop where
  nextId : state'.1.nextId = state.1.nextId + k
  related : Rel (state.1.unread, state.2) (state'.1.unread, state'.2)

/-- A call goes alike under either numbering. -/
theorem Renumbering.step (h : Renumbering peer k Rel) (abreast : Abreast k Rel (c, s) (c', s'))
    (body : Body) :
    silent (step peer body (c', s')).1 = silent (step peer body (c, s)).1 ∧
      Abreast k Rel (step peer body (c, s)).2 (step peer body (c', s')).2 := by
  have hnext : c'.nextId = c.nextId + k := abreast.nextId
  have hskip : Abreast k Rel (c.skip, s) (c'.skip, s') := by
    refine ⟨?_, abreast.related⟩
    show c'.nextId + 1 = c.nextId + 1 + k
    rw [hnext, add_right_comm]
  by_cases short : ShortPaths body
  case neg =>
    obtain ⟨e, -, hstep⟩ := step_of_long_path short
    rw [hstep, hstep]
    exact ⟨rfl, abreast⟩
  by_cases labels : ShortLabels body
  case neg =>
    have hencoded (callId : UInt32) : Wire.encoded (⟨callId, body⟩ : Message) =
      .error .overlongText := Message.encoded_of_long fun hs => labels hs.2
    rw [step_of_unwritable peer s short (hencoded _), step_of_unwritable peer s' short (hencoded _)]
    exact ⟨rfl, hskip⟩
  have hencoded (callId : UInt32) := Message.encoded_of_short (m := ⟨callId, body⟩) short labels
  by_cases hsize : body.size ≤ Frame.limit
  case neg =>
    have hframe (callId : UInt32) :=
      Message.encode?_of_lt_size (m := ⟨callId, body⟩) (Nat.not_le.mp hsize)
    rw [step_of_oversize peer s short (hencoded _) (hframe _),
      step_of_oversize peer s' short (hencoded _) (hframe _)]
    exact ⟨rfl, hskip⟩
  have hframe (callId : UInt32) := Message.encode?_of_size_le (m := ⟨callId, body⟩) hsize
  -- Both frames reach the peer, and what it makes of them goes on in step.
  have hcarries (callId : UInt32) := Message.framedAs (hencoded callId) (hframe callId)
  have hreact := h.react abreast.related (hcarries c.nextId) (hcarries (c.nextId + k))
  rw [step_of_sent peer s short (hencoded _) (hframe _),
    step_of_sent peer s' short (hencoded _) (hframe _), hnext]
  dsimp only [Connection.advance]
  cases hreceive : Frame.receive (c.unread ++
      ((peer.react (Frame.framed (Wire.bytesOf (Wire.pieces
        (⟨c.nextId, body⟩ : Message))))).run s).1.bytes) with
  | frame reply rest =>
    obtain ⟨reply', rest', hreceive', halike, hrel⟩ := h.frame hreact hreceive
    rw [hreceive']
    exact ⟨silent_accept halike body.kind c.nextId, hskip.nextId, hrel⟩
  | incomplete =>
    obtain ⟨hreceive', hending⟩ := h.incomplete hreact hreceive
    rw [hreceive', hending]
    exact ⟨rfl, hskip.nextId, hreact⟩
  | bad e =>
    rw [h.bad hreact hreceive]
    exact ⟨rfl, hskip.nextId, hreact⟩

/-- Calls go alike under either numbering. -/
theorem Renumbering.callAll (h : Renumbering peer k Rel) (bodies : List Body)
    {state state' : Connection × σ} (abreast : Abreast k Rel state state') :
    ((callAll peer bodies).run state').1.map silent =
      ((callAll peer bodies).run state).1.map silent := by
  induction bodies generalizing state state' with
  | nil => rfl
  | cons body rest ih =>
    obtain ⟨hresult, hnext⟩ := h.step abreast body
    rw [run_callAll_cons, run_callAll_cons, List.map_cons, List.map_cons, hresult, ih hnext]

end Renumbered

end Client

namespace Server

open Client

variable {σ : Type} {ns : Namesystem σ} {k : UInt32} {m : Message}

theorem frame?_eq_some_iff {frame : List UInt8} : frame? m = some frame ↔ m.FramedAs frame := by
  rw [frame?_eq_some_iff_encoded]
  constructor
  · intro h
    obtain ⟨bytes, hbytes, hframe⟩ := h
    exact Message.framedAs hbytes hframe
  · intro h
    obtain ⟨bytes, hframe, hbytes, -⟩ := h
    exact ⟨bytes, hbytes, hframe⟩

/-- The bytes of replies, without those that cannot be sent. -/
def written (replies : List Message) : List UInt8 :=
  (replies.filterMap frame?).flatten

theorem written_append (before after : List Message) :
    written (before ++ after) = written before ++ written after := by
  rw [written, List.filterMap_append, List.flatten_append, written, written]

theorem toList_frame? (m : Message) : (frame? m).toList = [m].filterMap frame? := by
  cases h : frame? m with
  | none => rw [List.filterMap_cons_none h, List.filterMap_nil, Option.toList_none]
  | some frame => rw [List.filterMap_cons_some h, List.filterMap_nil, Option.toList_some]

theorem frame?_shift_eq_none (k : UInt32) (h : frame? m = none) : frame? (m.shift k) = none := by
  by_contra hne
  obtain ⟨frame', hframe'⟩ := Option.ne_none_iff_exists'.mp hne
  obtain ⟨frame, hframe⟩ :=
    (Message.exists_framedAs_shift k).mp ⟨frame', frame?_eq_some_iff.mp hframe'⟩
  cases h.symm.trans (frame?_eq_some_iff.mpr hframe)

/-- What is at the front of replies under either numbering. -/
inductive Fronts (k : UInt32) (replies : List Message) : Prop where
  | none (here : written replies = []) (there : written (replies.map (·.shift k)) = [])
  | bad (here : Frame.receive (written replies) = .bad .tooBig)
      (there : Frame.receive (written (replies.map (·.shift k))) = .bad .tooBig)
  | frame {m : Message} {reply reply' : List UInt8} {rest : List Message}
      (here : Frame.receive (written replies) = .frame reply (written rest))
      (there : Frame.receive (written (replies.map (·.shift k))) =
        .frame reply' (written (rest.map (·.shift k))))
      (reads : Wire.decode reply = .ok (m, []))
      (reads' : Wire.decode reply' = .ok (m.shift k, []))

theorem fronts (k : UInt32) (replies : List Message) : Fronts k replies := by
  induction replies with
  | nil => exact .none rfl rfl
  | cons m rest ih =>
    cases hframe : frame? m with
    | none =>
      have hhere : written (m :: rest) = written rest := by
        rw [written, List.filterMap_cons_none hframe, written]
      have hthere : written ((m :: rest).map (·.shift k)) = written (rest.map (·.shift k)) := by
        rw [List.map_cons, written, List.filterMap_cons_none (frame?_shift_eq_none k hframe),
          written]
      cases ih with
      | none here there => exact .none (hhere.trans here) (hthere.trans there)
      | bad here there => exact .bad (hhere ▸ here) (hthere ▸ there)
      | frame here there reads reads' => exact .frame (hhere ▸ here) (hthere ▸ there) reads reads'
    | some frame =>
      have hcarries := frame?_eq_some_iff.mp hframe
      obtain ⟨frame', hcarries'⟩ := (Message.exists_framedAs_shift k).mpr ⟨frame, hcarries⟩
      have hhere : written (m :: rest) = frame ++ written rest := by
        rw [written, List.filterMap_cons_some hframe, List.flatten_cons, written]
      have hthere : written ((m :: rest).map (·.shift k)) =
          frame' ++ written (rest.map (·.shift k)) := by
        rw [List.map_cons, written,
          List.filterMap_cons_some (frame?_eq_some_iff.mpr hcarries'), List.flatten_cons, written]
      obtain ⟨bytes, rfl, hencode, hlength, hreads⟩ := hcarries.eq_framed
      obtain ⟨bytes', rfl, hencode', hlength', hreads'⟩ := hcarries'.eq_framed
      have hsame : bytes'.length = bytes.length := hlength'.trans hlength.symm
      -- Both are as long, so that the client takes both or refuses both.
      by_cases hfits : Frame.Receivable bytes
      · have hfits' : Frame.Receivable bytes' := by
          rw [Frame.Receivable, hsame]
          exact hfits
        have hreceive : Frame.receive (written (m :: rest)) = .frame bytes (written rest) := by
          rw [hhere]
          exact Frame.receive_framed hfits _
        have hreceive' : Frame.receive (written ((m :: rest).map (·.shift k))) =
            .frame bytes' (written (rest.map (·.shift k))) := by
          rw [hthere]
          exact Frame.receive_framed hfits' _
        exact .frame hreceive hreceive' hreads hreads'
      · have hfits' : ¬Frame.Receivable bytes' := by
          rw [Frame.Receivable, hsame]
          exact hfits
        refine .bad ?_ ?_
        · rw [hhere]
          exact Frame.receive_eq_bad_of_not_receivable _ hencode hfits
        · rw [hthere]
          exact Frame.receive_eq_bad_of_not_receivable _ hencode' hfits'

/-- The reply to a message, and the state after it. -/
def responded (ns : Namesystem σ) (m : Message) (store : σ) : Message × σ :=
  let (result, next) := (dispatch ns m.body).run store
  (⟨m.callId, replyBody result⟩, next)

theorem responded_shift (ns : Namesystem σ) (m : Message) (store : σ) :
    responded ns (m.shift k) store =
      ((responded ns m store).1.shift k, (responded ns m store).2) := rfl

theorem run_serve_of_closed {inbox : Inbox} (h : inbox.closed = true) (bytes : List UInt8)
    (store : σ) : (serve ns inbox bytes).run store = (([], inbox), store) := by
  have hfeed : inbox.feed bytes = ([], inbox) := if_pos h
  rw [serve, hfeed]
  rfl

/-- A frame that a client sends is answered, or it ends the reading when it is too long to be
taken. -/
theorem run_serve_of_framedAs {frame : List UInt8} (h : m.FramedAs frame) (store : σ) :
    (serve ns {} frame).run store =
      if m.body.size + 4 ≤ Frame.limit then
        (((frame? (responded ns m store).1).toList, {}), (responded ns m store).2)
      else (([], ⟨frame, true⟩), store) := by
  obtain ⟨bytes, rfl, hencode, hlength, hreads⟩ := h.eq_framed
  have hfeed : ({} : Inbox).feed (Frame.framed bytes) = readAll (Frame.framed bytes) := rfl
  have hnil : readAll [] = ([], {}) := readAll_of_incomplete rfl
  rw [← hlength]
  split_ifs with hfits
  · have hreceive : Frame.receive (Frame.framed bytes) = .frame bytes [] := by
      rw [← List.append_nil (Frame.framed bytes)]
      exact Frame.receive_framed hfits []
    have hnext : next (Frame.framed bytes) = .message m [] :=
      next_eq_message.mpr ⟨bytes, [], hreceive, hreads⟩
    rw [serve, hfeed, readAll_of_message hnext, hnil]
    exact congrArg (fun frames => ((frames, ({} : Inbox)), (responded ns m store).2))
      (List.append_nil _)
  · have hreceive : Frame.receive (Frame.framed bytes) = .bad .tooBig := by
      rw [← List.append_nil (Frame.framed bytes)]
      exact Frame.receive_eq_bad_of_not_receivable [] hencode hfits
    have hnext : next (Frame.framed bytes) = .refused := by
      rw [next, hreceive]
    rw [serve, hfeed, readAll_of_refused hnext]
    rfl

/-- Whether the two readers are between frames, or have both ended. -/
def Inbox.Even (inbox inbox' : Inbox) : Prop :=
  inbox = {} ∧ inbox' = {} ∨ inbox.closed = true ∧ inbox'.closed = true

theorem exists_served (ns : Namesystem σ) {inbox inbox' : Inbox} (even : inbox.Even inbox')
    {frame frame' : List UInt8} (h : m.FramedAs frame) (h' : (m.shift k).FramedAs frame')
    (store : σ) :
    ∃ (replies : List Message) (left left' : Inbox) (store' : σ),
      (serve ns inbox frame).run store = ((replies.filterMap frame?, left), store') ∧
      (serve ns inbox' frame').run store =
        (((replies.map (·.shift k)).filterMap frame?, left'), store') ∧
      left.Even left' := by
  obtain ⟨rfl, rfl⟩ | ⟨hclosed, hclosed'⟩ := even
  · rw [run_serve_of_framedAs h, run_serve_of_framedAs h']
    by_cases hfits : m.body.size + 4 ≤ Frame.limit
    · have hfits' : (m.shift k).body.size + 4 ≤ Frame.limit := hfits
      rw [if_pos hfits, if_pos hfits', responded_shift]
      refine ⟨[(responded ns m store).1], {}, {}, (responded ns m store).2, ?_, ?_,
        .inl ⟨rfl, rfl⟩⟩
      · rw [toList_frame?]
      · rw [toList_frame?]
        rfl
    · have hfits' : ¬(m.shift k).body.size + 4 ≤ Frame.limit := hfits
      rw [if_neg hfits, if_neg hfits']
      exact ⟨[], _, _, store, rfl, rfl, .inr ⟨rfl, rfl⟩⟩
  · rw [run_serve_of_closed hclosed, run_serve_of_closed hclosed']
    exact ⟨[], inbox, inbox', store, rfl, rfl, .inr ⟨hclosed, hclosed'⟩⟩

/-- What the reaction of the server leaves of its state. -/
theorem exists_react_sequential {s : Connection σ Request} (quiet : s.Quiet) (name : String)
    {frame : List UInt8} {sent : List (List UInt8)} {left : Inbox} {store' : σ}
    (h : (serve ns s.inbox frame).run s.store = ((sent, left), store')) :
    ∃ next : Connection σ Request, ((sequential ns name).react frame).run s =
      (⟨sent.flatten, false⟩, next) ∧ next.Quiet ∧ next.store = store' ∧ next.inbox = left := by
  refine ⟨_, (run_react_sequential quiet ns name frame).trans (Prod.ext ?_ rfl),
    (Classical.choose_spec (quiet.served ns frame)).2, ?_, ?_⟩
  · show (⟨((serve ns s.inbox frame).run s.store).1.1.flatten, false⟩ : Arrival) =
      ⟨sent.flatten, false⟩
    rw [h]
  · show ((serve ns s.inbox frame).run s.store).2 = _
    rw [h]
  · show ((serve ns s.inbox frame).run s.store).1.2 = _
    rw [h]

/-- The states of the server under either numbering: the replies that are on their way are the same
but for their numbers, and no frame is left in part. -/
structure Alike (k : UInt32) (state state' : List UInt8 × Connection σ Request) : Prop where
  replies : ∃ replies, state.1 = written replies ∧ state'.1 = written (replies.map (·.shift k))
  quiet : state.2.Quiet ∧ state'.2.Quiet
  store : state'.2.store = state.2.store
  even : state.2.inbox.Even state'.2.inbox

/-- For the server numbers are mere names. -/
theorem renumbering_sequential (ns : Namesystem σ) (name : String) (k : UInt32) :
    Renumbering (sequential ns name) k (Alike k) where
  react := by
    intro unread unread' s s' m frame frame' halike hcarries hcarries'
    obtain ⟨⟨replies, hunread, hunread'⟩, ⟨hquiet, hquiet'⟩, hstore, heven⟩ := halike
    obtain ⟨more, left, left', store', hserve, hserve', heven'⟩ :=
      exists_served ns heven hcarries hcarries' s.store
    dsimp only at hunread hunread' hquiet hquiet' hstore hserve hserve'
    rw [← hstore] at hserve'
    obtain ⟨next, hreact, hnext, rfl, rfl⟩ := exists_react_sequential hquiet name hserve
    obtain ⟨next', hreact', hnext', hstore', rfl⟩ := exists_react_sequential hquiet' name hserve'
    rw [hreact, hreact']
    refine ⟨⟨replies ++ more, ?_, ?_⟩, ⟨hnext, hnext'⟩, hstore', heven'⟩
    · rw [written_append, hunread]
      rfl
    · rw [List.map_append, written_append, hunread']
      rfl
  frame := by
    intro unread unread' s s' reply rest halike hreceive
    obtain ⟨⟨replies, rfl, rfl⟩, hquiet, hstore, heven⟩ := halike
    cases fronts k replies with
    | none here _ =>
      rw [here] at hreceive
      cases hreceive
    | bad here _ => cases here.symm.trans hreceive
    | frame here there reads reads' =>
      obtain ⟨rfl, rfl⟩ := Frame.Received.frame.inj (here.symm.trans hreceive)
      refine ⟨_, _, there, ?_, ⟨⟨_, rfl, rfl⟩, hquiet, hstore, heven⟩⟩
      rw [ReadAlike, reads, reads']
      rfl
  incomplete := by
    intro unread unread' s s' halike hreceive
    obtain ⟨⟨replies, rfl, rfl⟩, -⟩ := halike
    cases fronts k replies with
    | none here there =>
      rw [here, there]
      exact ⟨rfl, rfl⟩
    | bad here _ => cases here.symm.trans hreceive
    | frame here _ _ _ => cases here.symm.trans hreceive
  bad := by
    intro unread unread' s s' e halike hreceive
    obtain ⟨⟨replies, rfl, rfl⟩, -⟩ := halike
    cases fronts k replies with
    | none here _ =>
      rw [here] at hreceive
      cases hreceive
    | bad here there => exact there.trans (here.symm.trans hreceive)
    | frame here _ _ _ => cases here.symm.trans hreceive

/-- Before anything was said one numbering is as good as another. -/
theorem alike_start (k : UInt32) (store : σ) : Alike k ([], { store }) ([], { store }) where
  replies := ⟨[], rfl, rfl⟩
  quiet := by
    have hquiet : ({ store } : Connection σ Request).Quiet := ⟨⟨rfl, rfl⟩, rfl, rfl, by simp⟩
    exact ⟨hquiet, hquiet⟩
  store := rfl
  even := .inl ⟨rfl, rfl⟩

end Server

namespace Client

/-- What a call sends goes by the texts of its body and by the size of its message. Where it sends
nothing, a number is used up at the most, and the calls after it go as they would have gone if
numbers are mere names to the peer. -/
theorem spared_or_sent {σ : Type} (peer : Peer σ) (body : Body) (c : Connection) :
    Wire.texts body.fields = body.paths ++ body.labels ∧
    (¬ShortPaths body → ∃ e : Error, e.errno = .nametoolong ∧ peer.Spared body e c c) ∧
    (ShortPaths body → ¬ShortLabels body →
      ∃ e : Error, e.errno = .inval ∧ peer.Spared body e c c.skip) ∧
    (ShortPaths body → ShortLabels body → ∃ bytes : List UInt8,
      Wire.encoded (⟨c.nextId, body⟩ : Message) = .ok bytes ∧
      (Frame.limit < bytes.length → ∃ e : Error, e.errno = .io ∧
        e.cause = some "frame size too big" ∧ peer.Spared body e c c.skip) ∧
      (bytes.length ≤ Frame.limit → Wire.decode bytes = .ok ((⟨c.nextId, body⟩ : Message), []) ∧
        ∀ (s : σ) (t : Transcript), ∃ (arrived : List UInt8) (result : Except Error Body)
          (c' : Connection) (s' : σ), c'.nextId = c.nextId + 1 ∧
          step peer body (c, s) = (result, c', s') ∧
          step peer.noting body (c, s, t) =
            (result, c', s', ⟨t.frames ++ [Frame.framed bytes], t.stream ++ arrived⟩))) ∧
    ∀ (Rel : List UInt8 × σ → List UInt8 × σ → Prop) (s : σ), Renumbering peer 1 Rel →
      Rel (c.unread, s) (c.unread, s) → ∀ bodies : List Body,
        ((callAll peer bodies).run (c.skip, s)).1.map silent =
          ((callAll peer bodies).run (c, s)).1.map silent := by
  refine ⟨body.texts_fields, spared_of_long_path c peer, spared_of_long_label c peer,
    fun short labels => ?_, fun Rel s h related bodies => h.callAll bodies ⟨rfl, related⟩⟩
  have hencoded := Message.encoded_of_short (m := ⟨c.nextId, body⟩) short labels
  refine ⟨_, hencoded, fun hbig => ?_, fun hfits => ⟨?_, exists_sent peer short hencoded hfits⟩⟩
  · rw [Message.length_bytesOf_pieces] at hbig
    exact spared_of_oversize c peer short labels hbig
  · have hlimit : Frame.limit < UInt32.size := by decide
    exact Wire.decode_of_encoded hencoded (Nat.lt_of_le_of_lt hfits hlimit)

/-- A request whose new owner has a name that no message can carry. -/
def unsendable : Body :=
  .request (.setOwner "/f" (some (String.ofList (List.replicate 65536 'a'))) none)

/-- To a server numbers are mere names, so that a request which was not sent does not show in what
comes back for those after it. -/
theorem spared_or_sent_unsendable :
    let peer := Server.sequential counting "server"
    ∃ e : Error, e.errno = .inval ∧ ∀ bodies : List Body,
      ((callAll peer (unsendable :: bodies)).run ({}, { store := 0 })).1.map silent =
        silent (.error e) :: ((callAll peer bodies).run ({}, { store := 0 })).1.map silent := by
  intro peer
  have hpaths : ShortPaths unsendable := by
    intro path hpath
    rw [List.mem_singleton.mp hpath]
    decide
  have hlabels : ¬ShortLabels unsendable := by
    intro labels
    have hshort := labels _ (List.mem_singleton.mpr rfl)
    rw [Utf8.utf8ByteSize_replicate 65536 (by decide)] at hshort
    exact absurd hshort (by decide)
  obtain ⟨-, -, hunsent, -, hlater⟩ := spared_or_sent peer unsendable {}
  obtain ⟨e, herrno, hspared⟩ := hunsent hpaths hlabels
  refine ⟨e, herrno, fun bodies => ?_⟩
  have hrenumbering := Server.renumbering_sequential counting "server" 1
  rw [hspared.later, List.map_cons,
    hlater _ _ hrenumbering (Server.alike_start 1 0) bodies]

end Client

end MetaFs
