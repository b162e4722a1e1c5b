import Mathlib
import MetaFs.Proofs.Calls
import MetaFs.Proofs.Transit
/-! Calls on one connection, whatever the peer sends. The frames of the peer's stream are taken in
their order, each by one call at the most, and a call returns a reply only if the frame that it took
carries its own number. -/

namespace MetaFs

namespace Client

variable {σ : Type} {c : Connection} {s : σ}

/-- What passed between the two ends, as the peer sees it. -/
structure Transcript where
  frames : List (List UInt8) := []
  stream : List UInt8 := []

/-- The same peer, which keeps a transcript beside its state. -/
def Peer.noting (peer : Peer σ) : Peer (σ × Transcript) where
  name := peer.name
  react frame := do
    let (s, t) ← get
    let (arrival, next) := (peer.react frame).run s
    set (next, (⟨t.frames ++ [frame], t.stream ++ arrival.bytes⟩ : Transcript))
    return arrival

/-- What became of a call: the number that it drew, the frame that reached the peer, the frame that
it took from the peer's stream, what it left unread of that stream, and what it returned. -/
structure Exchange where
  body : Body
  callId? : Option UInt32 := none
  sent? : Option (List UInt8) := none
  taken? : Option (List UInt8) := none
  left : List UInt8
  result : Except Error Body

/-- What can become of a call. -/
inductive Exchange.Sound : Exchange → Prop where
  /-- A path is too long, and nothing is done. -/
  | refused {body : Body} {left : List UInt8} {e : Error} (long : ¬ShortPaths body)
      (errno : e.errno = .nametoolong) : Sound { body, left, result := .error e }
  /-- There is no frame for the request. -/
  | unsent {body : Body} {callId : UInt32} {left : List UInt8} {e : Error} (short : ShortPaths body)
      (unfit : ∀ frame, ¬(⟨callId, body⟩ : Message).FramedAs frame)
      (errno : e.errno = .inval ∨ e.errno = .io) :
      Sound { body, callId? := some callId, left, result := .error e }
  /-- There is no frame for the call in what is unread of the peer's stream. -/
  | unanswered {body : Body} {callId : UInt32} {frame left : List UInt8} {e : Error}
      (short : ShortPaths body) (carries : (⟨callId, body⟩ : Message).FramedAs frame)
      (barren : ∀ reply rest, Frame.receive left ≠ .frame reply rest) (errno : e.errno = .io) :
      Sound { body, callId? := some callId, sent? := some frame, left, result := .error e }
  /-- The frame that the call took decides. -/
  | answered {body : Body} {callId : UInt32} {frame reply left : List UInt8}
      {result : Except Error Body} (short : ShortPaths body)
      (carries : (⟨callId, body⟩ : Message).FramedAs frame)
      (verdict : Verdict body.kind callId reply result) :
      Sound
        { body, callId? := some callId, sent? := some frame, taken? := some reply, left, result }

/-- What an exchange does to the connection and to the transcript. -/
structure Exchange.Leads (e : Exchange) (c : Connection) (t : Transcript) (c' : Connection)
    (t' : Transcript) : Prop where
  drawn : e.callId? = none ∧ c'.nextId = c.nextId ∨
    e.callId? = some c.nextId ∧ c'.nextId = c.nextId + 1
  frames : t'.frames = t.frames ++ e.sent?.toList
  stream : ∃ arrived, t'.stream = t.stream ++ arrived ∧
    c.unread ++ arrived = e.taken?.toList.flatMap Frame.framed ++ c'.unread
  receivable : ∀ taken ∈ e.taken?, Frame.Receivable taken
  unread : c'.unread = e.left

/-- Nothing leaves and nothing is taken. -/
theorem Exchange.Leads.of_unsent {e : Exchange} {t : Transcript} {c' : Connection}
    (sent : e.sent? = none) (taken : e.taken? = none) (left : e.left = c.unread)
    (unread : c'.unread = c.unread) (drawn : e.callId? = none ∧ c'.nextId = c.nextId ∨
      e.callId? = some c.nextId ∧ c'.nextId = c.nextId + 1) : e.Leads c t c' t where
  drawn := drawn
  frames := by rw [sent, Option.toList_none, List.append_nil]
  stream := by
    refine ⟨[], (List.append_nil _).symm, ?_⟩
    rw [taken, unread, List.append_nil]
    rfl
  receivable := by simp [taken]
  unread := unread.trans left.symm

theorem not_framedAs_of_unwritable {m : Message} {e : Wire.WriteError}
    (h : Wire.encoded m = .error e) (frame : List UInt8) : ¬m.FramedAs frame := by
  rintro ⟨bytes, -, hbytes, -⟩
  cases h.symm.trans hbytes

theorem not_framedAs_of_oversize {m : Message} {bytes : List UInt8}
    (h : Wire.encoded m = .ok bytes) (big : Frame.encode? bytes = none) (frame : List UInt8) :
    ¬m.FramedAs frame := by
  rintro ⟨bytes', hframe, hbytes, -⟩
  obtain rfl : bytes = bytes' := Except.ok.inj (h.symm.trans hbytes)
  cases big.symm.trans hframe

/-- The call of the exchange takes one state to the other, and the transcript is of no effect on
it. -/
structure Exchange.Happens (e : Exchange) (peer : Peer σ) (c : Connection) (s : σ) (t : Transcript)
    (c' : Connection) (s' : σ) (t' : Transcript) : Prop where
  sound : e.Sound
  leads : e.Leads c t c' t'
  called : step peer e.body (c, s) = (e.result, c', s')
  noted : step peer.noting e.body (c, s, t) = (e.result, c', s', t')

section Happens

variable {body : Body} (peer : Peer σ) (s : σ) (t : Transcript)

theorem happens_refused (c : Connection) (h : ¬ShortPaths body) :
    ∃ e : Error,
      ({ body, left := c.unread, result := .error e } : Exchange).Happens peer c s t c s t := by
  obtain ⟨e, herrno, hstep⟩ := step_of_long_path h
  exact ⟨e, .refused h herrno, .of_unsent rfl rfl rfl rfl (.inl ⟨rfl, rfl⟩), hstep peer c s,
    hstep peer.noting c (s, t)⟩

theorem happens_unsent {e : Error} (short : ShortPaths body)
    (unfit : ∀ frame, ¬(⟨c.nextId, body⟩ : Message).FramedAs frame)
    (errno : e.errno = .inval ∨ e.errno = .io)
    (called : step peer body (c, s) = (.error e, { c with nextId := c.nextId + 1 }, s))
    (noted : step peer.noting body (c, s, t) =
      (.error e, { c with nextId := c.nextId + 1 }, s, t)) :
    ({ body, callId? := some c.nextId, left := c.unread, result := .error e } : Exchange).Happens
      peer c s t { c with nextId := c.nextId + 1 } s t :=
  ⟨.unsent short unfit errno, .of_unsent rfl rfl rfl rfl (.inr ⟨rfl, rfl⟩), called, noted⟩

/-- Behind a frame that reached the peer, the front of the unread stream decides. -/
theorem happens_sent {bytes frame : List UInt8} (short : ShortPaths body)
    (hbytes : Wire.encoded (⟨c.nextId, body⟩ : Message) = .ok bytes)
    (hframe : Frame.encode? bytes = some frame) :
    ∃ (taken? : Option (List UInt8)) (result : Except Error Body) (c' : Connection) (s' : σ)
      (t' : Transcript),
      ({ body, callId? := some c.nextId, sent? := some frame, taken?, left := c'.unread,
          result } : Exchange).Happens peer c s t c' s' t' := by
  have hcarries := Message.framedAs hbytes hframe
  have hcalled := step_of_sent peer s short hbytes hframe
  have hnoted := step_of_sent peer.noting (s, t) short hbytes hframe
  let arrival := ((peer.react frame).run s).1
  let t' : Transcript := ⟨t.frames ++ [frame], t.stream ++ arrival.bytes⟩
  -- The transcript is only added to, so that both runs see the same bytes arrive.
  have hreact : (peer.noting.react frame).run (s, t) =
    (arrival, ((peer.react frame).run s).2, t') := rfl
  rw [hreact] at hnoted
  dsimp only at hcalled hnoted
  cases hr : Frame.receive (c.advance arrival).unread with
  | frame reply rest =>
    rw [hr] at hcalled hnoted
    obtain ⟨hfits, hunread⟩ := Frame.receive_eq_frame.mp hr
    refine ⟨some reply, _, _, _, t', .answered short hcarries (verdict_accept _ _ _),
      ⟨.inr ⟨rfl, rfl⟩, rfl, ⟨arrival.bytes, rfl, ?_⟩, ?_, rfl⟩, hcalled, hnoted⟩
    · have hall : c.unread ++ arrival.bytes = Frame.framed reply ++ rest := hunread
      simpa using hall
    · rintro taken ⟨rfl⟩
      exact hfits
  | incomplete | bad =>
    have hbarren : ∀ reply rest, Frame.receive (c.advance arrival).unread ≠ .frame reply rest := by
      intro reply rest
      rw [hr]
      exact nofun
    rw [hr] at hcalled hnoted
    exact ⟨none, _, _, _, t', .unanswered short hcarries hbarren rfl,
      ⟨.inr ⟨rfl, rfl⟩, rfl, ⟨arrival.bytes, rfl, rfl⟩, by simp, rfl⟩, hcalled, hnoted⟩

theorem exists_happens (body : Body) (c : Connection) :
    ∃ (e : Exchange) (c' : Connection) (s' : σ) (t' : Transcript),
      e.body = body ∧ e.Happens peer c s t c' s' t' := by
  -- The cases are the places where a call can stop, in the order of its checks.
  by_cases short : ShortPaths body
  case neg =>
    obtain ⟨e, h⟩ := happens_refused peer s t c short
    exact ⟨_, c, s, t, rfl, h⟩
  case pos =>
    cases hbytes : Wire.encoded (⟨c.nextId, body⟩ : Message) with
    | error fault =>
      exact ⟨_, _, _, _, rfl, happens_unsent peer s t short (not_framedAs_of_unwritable hbytes)
        (.inl rfl) (step_of_unwritable peer s short hbytes)
        (step_of_unwritable peer.noting (s, t) short hbytes)⟩
    | ok bytes =>
      cases hframe : Frame.encode? bytes with
      | none =>
        exact ⟨_, _, _, _, rfl, happens_unsent peer s t short
          (not_framedAs_of_oversize hbytes hframe) (.inr rfl)
          (step_of_oversize peer s short hbytes hframe)
          (step_of_oversize peer.noting (s, t) short hbytes hframe)⟩
      | some frame =>
        obtain ⟨taken?, result, c', s', t', h⟩ := happens_sent peer s t short hbytes hframe
        exact ⟨_, c', s', t', rfl, h⟩

end Happens

/-- What a log of exchanges tells about the connection and the transcript. -/
structure Told (log : List Exchange) (c : Connection) (t : Transcript) : Prop where
  sound : ∀ e ∈ log, e.Sound
  /-- Numbers are drawn from zero on in the order of the calls. -/
  drawn : log.filterMap Exchange.callId? =
    (List.range (log.filterMap Exchange.callId?).length).map UInt32.ofNat
  next : c.nextId = UInt32.ofNat (log.filterMap Exchange.callId?).length
  frames : t.frames = log.filterMap Exchange.sent?
  /-- What was taken is the front of the peer's stream, and what follows is unread. -/
  stream : t.stream = (log.filterMap Exchange.taken?).flatMap Frame.framed ++ c.unread
  receivable : ∀ taken ∈ log.filterMap Exchange.taken?, Frame.Receivable taken
  /-- What a call left unread is what followed in the stream then. -/
  left : ∀ before e, before ++ [e] <+: log →
    ((before ++ [e]).filterMap Exchange.taken?).flatMap Frame.framed ++ e.left <+: t.stream

namespace Told

variable {log : List Exchange} {t : Transcript}

theorem nil : Told [] {} {} where
  sound := by simp
  drawn := rfl
  next := rfl
  frames := rfl
  stream := rfl
  receivable := by simp
  left _ _ hlog := by simp at hlog

theorem append (h : Told log c t) {e : Exchange} {c' : Connection} {t' : Transcript}
    (sound : e.Sound) (leads : e.Leads c t c' t') : Told (log ++ [e]) c' t' where
  sound := List.forall_mem_append.mpr ⟨h.sound, List.forall_mem_singleton.mpr sound⟩
  drawn := by
    rcases leads.drawn with ⟨hid, -⟩ | ⟨hid, -⟩
    · simpa [List.filterMap_append, hid] using h.drawn
    -- The new number is the count of those that were drawn before.
    · have hnext := h.next
      simp only [List.filterMap_append, List.filterMap_cons, hid, List.filterMap_nil,
        List.length_append, List.length_singleton, List.range_succ, List.map_append,
        List.map_singleton]
      rw [← h.drawn, hnext]
  next := by
    rcases leads.drawn with ⟨hid, hnext⟩ | ⟨hid, hnext⟩
    · simpa [List.filterMap_append, hid, hnext] using h.next
    · simp [List.filterMap_append, hid, hnext, h.next]
  frames := by
    rw [leads.frames, h.frames, List.filterMap_append]
    cases hs : e.sent? <;> simp [hs]
  stream := by
    obtain ⟨arrived, hstream, hunread⟩ := leads.stream
    rw [hstream, h.stream, List.append_assoc, hunread, List.filterMap_append, List.flatMap_append,
      List.append_assoc]
    cases ht : e.taken? <;> simp [ht]
  receivable := by
    intro taken htaken
    rw [List.filterMap_append, List.mem_append] at htaken
    rcases htaken with htaken | htaken
    · exact h.receivable taken htaken
    · obtain ⟨e', he, htaken'⟩ := List.mem_filterMap.mp htaken
      obtain rfl : e' = e := List.mem_singleton.mp he
      exact leads.receivable taken htaken'
  left := by
    obtain ⟨arrived, hstream, hunread⟩ := leads.stream
    intro before e' hlog
    rcases List.prefix_concat_iff.mp hlog with heq | hlog
    -- The stream behind the last call is what was taken and what it left.
    · obtain ⟨rfl, hlast⟩ := List.append_inj' heq rfl
      obtain rfl := List.singleton_inj.mp hlast
      rw [hstream, h.stream, List.append_assoc, hunread, leads.unread, List.filterMap_append,
        List.flatMap_append, List.append_assoc]
      cases htaken : e'.taken? <;> simp [htaken]
    · rw [hstream]
      exact (h.left before e' hlog).trans (List.prefix_append t.stream arrived)

/-- The frames that were taken are the first ones of the peer's stream. -/
theorem receiveAll_stream (h : Told log c t) : Frame.receiveAll t.stream =
    (log.filterMap Exchange.taken? ++ (Frame.receiveAll c.unread).1,
      (Frame.receiveAll c.unread).2) := by
  rw [h.stream]
  exact Frame.receiveAll_flatMap_framed h.receivable c.unread

/-- No number is drawn twice as long as there are so many. -/
theorem nodup_callId (h : Told log c t)
    (few : (log.filterMap Exchange.callId?).length ≤ UInt32.size) :
    (log.filterMap Exchange.callId?).Nodup := by
  rw [h.drawn]
  apply List.Nodup.map_on _ List.nodup_range
  intro i hi j hj hij
  have hi' : i < UInt32.size := Nat.lt_of_lt_of_le (List.mem_range.mp hi) few
  have hj' : j < UInt32.size := Nat.lt_of_lt_of_le (List.mem_range.mp hj) few
  have hval : (UInt32.ofNat i).toNat = (UInt32.ofNat j).toNat := congrArg UInt32.toNat hij
  rwa [UInt32.toNat_ofNat_of_lt' hi', UInt32.toNat_ofNat_of_lt' hj'] at hval

end Told

/-- Calls one after the other, each whatever became of those before, and their results. -/
def callAll (peer : Peer σ) : List Body → StateM (Connection × σ) (List (Except Error Body))
  | [] => return []
  | body :: rest => do
    let result ← (call peer body).run
    let results ← callAll peer rest
    return result :: results

theorem run_callAll_cons (peer : Peer σ) (body : Body) (rest : List Body)
    (state : Connection × σ) :
    (callAll peer (body :: rest)).run state =
      ((step peer body state).1 :: ((callAll peer rest).run (step peer body state).2).1,
        ((callAll peer rest).run (step peer body state).2).2) := rfl

/-- Any calls continue a log, with one exchange for each of them. -/
theorem Told.callAll {log : List Exchange} {t : Transcript} (h : Told log c t) (peer : Peer σ)
    (bodies : List Body) (s : σ) :
    ∃ (more : List Exchange) (c' : Connection) (s' : σ) (t' : Transcript),
      Told (log ++ more) c' t' ∧ more.map Exchange.body = bodies ∧
      (callAll peer bodies).run (c, s) = (more.map Exchange.result, c', s') ∧
      (callAll peer.noting bodies).run (c, s, t) = (more.map Exchange.result, c', s', t') := by
  induction bodies generalizing log c s t with
  | nil => exact ⟨[], c, s, t, by rwa [List.append_nil], rfl, rfl, rfl⟩
  | cons body rest ih =>
    obtain ⟨e, c₁, s₁, t₁, rfl, he⟩ := exists_happens peer s t body c
    obtain ⟨more, c', s', t', htold, hbodies, hrun, hnoted⟩ := ih (h.append he.sound he.leads) s₁
    refine ⟨e :: more, c', s', t', ?_, ?_, ?_, ?_⟩
    · rwa [List.append_assoc, List.singleton_append] at htold
    · rw [List.map_cons, hbodies]
    · rw [run_callAll_cons, he.called]
      exact congrArg (fun r => (e.result :: r.1, r.2)) hrun
    · rw [run_callAll_cons, he.noted]
      exact congrArg (fun r => (e.result :: r.1, r.2)) hnoted

/-- A new connection, on which calls follow the handshake if that succeeds. -/
def converse (peer : Peer σ) (address : Address) (user : String) (bodies : List Body) :
    Connected σ (List (Except Error Body)) := do
  handshake peer address user
  (callAll peer bodies : StateM (Connection × σ) (List (Except Error Body)))

/-- How a conversation ends: with the result of each call, or with the error of the handshake. -/
inductive Ends (hello : Exchange) (log : List Exchange) (bodies : List Body) :
    Except Error (List (Except Error Body)) → Prop where
  | connected (accepted : hello.result = .ok (.reply .connect))
      (calls : log.map Exchange.body = bodies) :
      Ends hello log bodies (.ok (log.map Exchange.result))
  | refused {e : Error} (error : hello.result = .error e) (none : log = []) :
      Ends hello log bodies (.error e)

/-- The only reply that pairs with the handshake is its own. -/
theorem result_eq_connect {e : Exchange} {protocol user : String} {reply : Body} (h : e.Sound)
    (hbody : e.body = .request (.connect protocol user)) (hresult : e.result = .ok reply) :
    reply = .reply .connect := by
  cases h with
  | refused | unsent | unanswered => cases hresult
  | answered short carries verdict =>
    obtain rfl : _ = Body.request (.connect protocol user) := hbody
    obtain rfl : _ = Except.ok reply := hresult
    cases verdict with
    | answered reads pairs =>
      have hkind : reply.kind = ⟨.connect, .reply⟩ := (Option.some.inj pairs).symm
      cases reply with
      | request r => cases r <;> cases hkind
      | reply r => cases r <;> first | rfl | cases hkind

theorem run_handshake_of_ok {peer : Peer σ} (address : Address) {user : String}
    {state state' : Connection × σ}
    (h : step peer (.request (.connect protocolName user)) state =
      (.ok (.reply .connect), state')) :
    (handshake peer address user).run.run state = (.ok (), state') :=
  Over.run_bind_of_ok h

theorem run_handshake_of_error {peer : Peer σ} (address : Address) {user : String} {e : Error}
    {state state' : Connection × σ}
    (h : step peer (.request (.connect protocolName user)) state = (.error e, state')) :
    (handshake peer address user).run.run state = (.error e, state') :=
  Over.run_bind_of_error h

/-- Behind a handshake that succeeds the calls are made, whatever becomes of each. -/
theorem run_converse_of_ok {peer : Peer σ} (address : Address) {user : String}
    {state state' : Connection × σ} (bodies : List Body)
    (h : step peer (.request (.connect protocolName user)) state =
      (.ok (.reply .connect), state')) :
    (converse peer address user bodies).run.run state =
      (.ok ((callAll peer bodies).run state').1, ((callAll peer bodies).run state').2) :=
  (Over.run_bind_of_ok (run_handshake_of_ok address h)).trans rfl

theorem run_converse_of_error {peer : Peer σ} (address : Address) {user : String} {e : Error}
    {state state' : Connection × σ} (bodies : List Body)
    (h : step peer (.request (.connect protocolName user)) state = (.error e, state')) :
    (converse peer address user bodies).run.run state = (.error e, state') :=
  Over.run_bind_of_error (run_handshake_of_error address h)

/-- A conversation with any peer is told by a log of exchanges that begins with the handshake. The
numbers are drawn in order, the frames that were taken are the first ones of the peer's stream, and
each exchange is sound, so that a reply is returned only to the call whose number it carries. -/
theorem exists_told_of_converse (peer : Peer σ) (s : σ) (address : Address) (user : String)
    (bodies : List Body) :
    ∃ (hello : Exchange) (log : List Exchange) (c : Connection) (s' : σ) (t : Transcript)
      (outcome : Except Error (List (Except Error Body))),
      (converse peer address user bodies).run.run ({}, s) = (outcome, c, s') ∧
      (converse peer.noting address user bodies).run.run ({}, s, {}) = (outcome, c, s', t) ∧
      hello.body = .request (.connect protocolName user) ∧ Ends hello log bodies outcome ∧
      Told (hello :: log) c t ∧
      Frame.receiveAll t.stream = ((hello :: log).filterMap Exchange.taken? ++
        (Frame.receiveAll c.unread).1, (Frame.receiveAll c.unread).2) ∧
      (((hello :: log).filterMap Exchange.callId?).length ≤ UInt32.size →
        ((hello :: log).filterMap Exchange.callId?).Nodup) := by
  obtain ⟨hello, c₁, s₁, t₁, hbody, hhappens⟩ :=
    exists_happens peer s {} (.request (.connect protocolName user)) {}
  have htold : Told [hello] c₁ t₁ := Told.nil.append hhappens.sound hhappens.leads
  have hcalled := hhappens.called
  have hnoted := hhappens.noted
  rw [hbody] at hcalled hnoted
  cases hresult : hello.result with
  | error e =>
    rw [hresult] at hcalled hnoted
    exact ⟨hello, [], c₁, s₁, t₁, .error e, run_converse_of_error address bodies hcalled,
      run_converse_of_error address bodies hnoted, hbody, .refused hresult rfl, htold,
      htold.receiveAll_stream, htold.nodup_callId⟩
  | ok reply =>
    obtain rfl := result_eq_connect hhappens.sound hbody hresult
    rw [hresult] at hcalled hnoted
    obtain ⟨log, c', s', t', htold', hbodies, hall, hall'⟩ := htold.callAll peer bodies s₁
    refine ⟨hello, log, c', s', t', .ok (log.map Exchange.result), ?_, ?_, hbody,
      .connected hresult hbodies, htold', htold'.receiveAll_stream, htold'.nodup_callId⟩
    · rw [run_converse_of_ok address bodies hcalled, hall]
    · rw [run_converse_of_ok address bodies hnoted, hall']

/-- The body of a frame with a reply. -/
def replyBytes (callId : UInt32) (r : Reply) : List UInt8 :=
  Wire.bytesOf (Wire.pieces (⟨callId, .reply r⟩ : Message))

/-- A peer that answers the first request behind the handshake only when the next one has come. -/
def belated : Peer ℕ where
  name := "server"
  react _ := do
    let n ← get
    set (n + 1)
    return match n with
      | 0 => ⟨Frame.framed (replyBytes 0 .connect), false⟩
      | 1 => ⟨[], false⟩
      | _ => ⟨Frame.framed (replyBytes 1 (.delete true)), false⟩

def deletions : List Body :=
  [.request (.delete "/a" true), .request (.delete "/b" true)]

/-- The reply that comes too late is taken by the next call, which does not return it. -/
theorem exists_told_of_converse_belated :
    ∃ (hello : Exchange) (log : List Exchange) (c : Connection) (t : Transcript),
      Told (hello :: log) c t ∧ log.map Exchange.body = deletions ∧
      (hello :: log).filterMap Exchange.taken? =
        [replyBytes 0 .connect, replyBytes 1 (.delete true)] ∧
      log.map (fun e => e.result.mapError Error.errno) = [.error .io, .error .io] := by
  obtain ⟨hello, log, c, s', t, outcome, -, hnoted, -, hends, htold, hstream, -⟩ :=
    exists_told_of_converse belated 0 ⟨"server", 8020⟩ "user" deletions
  have hresults : outcome.map (List.map (Except.mapError Error.errno)) =
      .ok [.error .io, .error .io] :=
    (congrArg (fun run => run.1.map (List.map (Except.mapError Error.errno))) hnoted).symm
  have hleft : c.unread = [] := (congrArg (fun run => run.2.1.unread) hnoted).symm
  have harrived : t.stream =
      [replyBytes 0 .connect, replyBytes 1 (.delete true)].flatMap Frame.framed :=
    (congrArg (fun run => run.2.2.2.stream) hnoted).symm
  have hreceivable : ∀ body ∈ [replyBytes 0 .connect, replyBytes 1 (.delete true)],
      Frame.Receivable body := by
    decide
  have hframes := Frame.receiveAll_flatMap_framed hreceivable []
  rw [List.append_nil, Frame.receiveAll_nil, List.append_nil] at hframes
  rw [harrived, hleft, hframes, Frame.receiveAll_nil, List.append_nil] at hstream
  have htaken := congrArg Prod.fst hstream
  cases hends with
  | connected accepted calls =>
    refine ⟨hello, log, c, t, htold, calls, htaken.symm, ?_⟩
    rw [← Except.ok.inj hresults, List.map_map]
    rfl
  | refused => cases hresults

end Client

end MetaFs
