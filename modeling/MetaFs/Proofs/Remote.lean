import Mathlib
import MetaFs.Proofs.Conversations
import MetaFs.Proofs.Serving
/-! A name system at the other end of a connection. Requests that are made one after the other get
the results, and leave the state behind, that they would have at the name system itself. -/

namespace MetaFs

namespace Errno

theorem number_lt (e : Errno) : e.number < UInt32.size := by
  have hall : ∀ row ∈ ErrnoRow.table, row.number < UInt32.size := by decide +kernel
  obtain ⟨row, hrow, hnumber⟩ := List.any_eq_true.mp e.listed
  rw [beq_iff_eq] at hnumber
  exact hnumber ▸ hall row hrow

/-- The number of an error is that of the same error at the other end. -/
theorem ofNumber_toNat_ofNat (e : Errno) : ofNumber (UInt32.ofNat e.number).toNat = e := by
  rw [UInt32.toNat_ofNat_of_lt' e.number_lt]
  exact dif_pos e.listed

end Errno

/-- What gets to the other end of an error: its number and its message. -/
def Error.carried (e : Error) : Error := { e with cause := none }

namespace Namesystem

variable {σ : Type}

/-- The same name system, which keeps the requests that it is asked beside its state. -/
def recording (ns : Namesystem σ) : Namesystem (σ × List Request) := fun r => do
  let (store, seen) ← get
  let (answer, next) := (ns r).run store
  set (next, seen ++ [r])
  return answer

theorem run_recording (ns : Namesystem σ) (r : Request) (store : σ) (seen : List Request) :
    (ns.recording r).run (store, seen) =
      (((ns r).run store).1, ((ns r).run store).2, seen ++ [r]) := rfl

theorem after_recording (ns : Namesystem σ) (store : σ) (seen requests : List Request) :
    ns.recording.after (store, seen) requests = (ns.after store requests, seen ++ requests) := by
  induction requests generalizing store seen with
  | nil => exact Prod.ext rfl (List.append_nil _).symm
  | cons r rest ih =>
    refine (ih ((ns r).run store).2 (seen ++ [r])).trans ?_
    rw [List.append_assoc]
    rfl

end Namesystem

namespace Server

variable {σ : Type} {ns : Namesystem σ} {store : σ} {r : Request}

/-- Requests dispatched one after the other, and their results. -/
def dispatchAll (ns : Namesystem σ) : List Request → StateM σ (List (Except Error Body))
  | [] => return []
  | r :: rest => do
    let result ← dispatch ns (.request r)
    let results ← dispatchAll ns rest
    return result :: results

theorem run_dispatchAll_cons (ns : Namesystem σ) (r : Request) (rest : List Request) (store : σ) :
    (dispatchAll ns (r :: rest)).run store =
      (settle r ((ns r).run store).1 :: ((dispatchAll ns rest).run ((ns r).run store).2).1,
        ((dispatchAll ns rest).run ((ns r).run store).2).2) := rfl

theorem run_dispatchAll_recording (ns : Namesystem σ) (requests : List Request) (store : σ)
    (seen : List Request) :
    ((dispatchAll ns.recording requests).run (store, seen)).1 =
      ((dispatchAll ns requests).run store).1 := by
  induction requests generalizing store seen with
  | nil => rfl
  | cons r rest ih =>
    rw [run_dispatchAll_cons, run_dispatchAll_cons, Namesystem.run_recording]
    exact congrArg _ (ih _ _)

theorem store_dispatchAll (ns : Namesystem σ) (requests : List Request) (store : σ) :
    ((dispatchAll ns requests).run store).2 = ns.after store requests := by
  induction requests generalizing store with
  | nil => rfl
  | cons r rest ih => exact ih _

/-- A result that is no error is of the type that the request asks for. -/
theorem response_of_settle {answer : Except Error Body} {body : Body}
    (h : settle r answer = .ok body) : (Body.request r).kind.response? = some body.kind := by
  cases answer with
  | error e => cases h
  | ok answer =>
    rw [settle, checked] at h
    split_ifs at h with hkind
    cases h
    exact hkind

end Server

/-- A message that can be written has no path that is too long for it. -/
theorem Request.text_mem_fields {r : Request} {path : String} (h : path ∈ r.paths) :
    Wire.Piece.text path ∈ r.fields := by
  cases r with
  | connect | getServerDefaults | getFsStats => simp [paths] at h
  | rename src dst overwrite =>
    rcases List.mem_pair.mp h with rfl | rfl <;> simp [fields, Wire.pieces]
  | _ =>
    cases List.mem_singleton.mp h
    simp [fields, Wire.pieces]

theorem Client.shortPaths_of_travels {callId : UInt32} {r : Request}
    (h : (⟨callId, .request r⟩ : Message).Travels) : ShortPaths (.request r) := by
  obtain ⟨bytes, hbytes, -⟩ := h
  intro path hpath
  have hpiece : Wire.Piece.text path ∈ Wire.pieces (⟨callId, .request r⟩ : Message) :=
    List.mem_append_right _ (Request.text_mem_fields hpath)
  exact (Wire.encoded_eq_ok.mp hbytes).1 _ hpiece

theorem Request.operation_ne_error (r : Request) : r.operation ≠ .error := by
  cases r <;> exact Operation.noConfusion

/-- What the client makes of the reply is the result at the name system. -/
theorem Client.accept_reply {σ : Type} {ns : Namesystem σ} {store : σ} {callId : UInt32}
    {r : Request} {frame extra : List UInt8}
    (h : Wire.decode frame = .ok (Server.reply ns store callId r, extra)) :
    accept (Body.request r).kind callId frame =
      (Server.settle r ((ns r).run store).1).mapError Error.carried := by
  rw [accept, h]
  dsimp only [Server.reply]
  rw [if_neg (not_not.mpr rfl)]
  cases hresult : Server.settle r ((ns r).run store).1 with
  | error e =>
    have hcode := Errno.ofNumber_toNat_ofNat e.errno
    simp only [Server.replyBody, hcode]
    rfl
  | ok body =>
    have hkind := Server.response_of_settle hresult
    simp only [Server.replyBody]
    split
    -- No request asks for an error.
    · have herror : r.operation = .error := congrArg Kind.operation (Option.some.inj hkind)
      exact absurd herror r.operation_ne_error
    · rw [if_pos hkind.symm]
      rfl

namespace Client

variable {σ : Type} {ns : Namesystem σ} {peer : Peer (Server.Connection σ Request)} {store : σ}
  {c : Connection} {s : Server.Connection σ Request} {rs : List Request} {r : Request}

/-- Both ends between two calls, after these requests. -/
structure Joined (peer : Peer (Server.Connection σ Request)) (ns : Namesystem σ) (store : σ)
    (rs : List Request) (c : Connection) (s : Server.Connection σ Request) : Prop where
  empty : c.unread = []
  visited : Visited peer { store } s
  inStep : s.InStep ns store rs

/-- A call has the result that the request has at the name system, unless the reply does not get
through. -/
theorem Joined.step (h : Joined peer ns store rs c s) (serves : peer.Serves ns store)
    (travels : (Body.request r).Travels) :
    (∃ c' s', step peer (.request r) (c, s) =
        ((Server.settle r ((ns r).run s.store).1).mapError Error.carried, c', s') ∧
      Joined peer ns store (rs ++ [r]) c' s') ∨
    ((∃ e state, step peer (.request r) (c, s) = (.error e, state)) ∧
      ¬(Server.reply ns s.store c.nextId r).Travels) := by
  obtain ⟨bytes, frame, hbytes, hframe, hnext⟩ := (travels c.nextId).next
  have short := shortPaths_of_travels (travels c.nextId)
  have hstep := step_of_sent peer s short hbytes hframe
  have reacts := serves s frame h.visited
  have hunread : (c.advance ((peer.react frame).run s).1).unread =
      ((peer.react frame).run s).1.bytes := by
    show c.unread ++ _ = _
    rw [h.empty, List.nil_append]
  dsimp only at hstep
  rw [hunread] at hstep
  cases hreceive : Frame.receive ((peer.react frame).run s).1.bytes with
  | frame body rest =>
    obtain ⟨rfl, hbody, hfits, hinStep⟩ := reacts.of_frame h.inStep hnext hreceive
    rw [hreceive] at hstep
    dsimp only at hstep
    rw [accept_reply (Wire.decode_of_receivable hbody hfits)] at hstep
    exact .inl ⟨_, _, hstep, rfl, h.visited.react frame, hinStep⟩
  | incomplete | bad =>
    refine .inr ⟨?_, fun ht => ?_⟩
    · rw [hreceive] at hstep
      exact ⟨_, _, hstep⟩
    · obtain ⟨body, rest, hfound⟩ := reacts.frame_of_travels h.inStep hnext ht
      cases hreceive.symm.trans hfound

/-- Calls have the results that the requests have at the name system. -/
theorem Joined.callAll (h : Joined peer ns store rs c s) (serves : peer.Serves ns store)
    (requests : List Request) (travel : ∀ r ∈ requests, (Body.request r).Travels)
    (replies : ∀ result ∈ ((Server.dispatchAll ns requests).run s.store).1,
      (Server.replyBody result).Travels) :
    ∃ c' s', (callAll peer (requests.map .request)).run (c, s) =
        (((Server.dispatchAll ns requests).run s.store).1.map (Except.mapError Error.carried),
          c', s') ∧
      Joined peer ns store (rs ++ requests) c' s' := by
  induction requests generalizing rs c s with
  | nil => exact ⟨c, s, rfl, by rwa [List.append_nil]⟩
  | cons r rest ih =>
    rw [List.forall_mem_cons] at travel
    rw [Server.run_dispatchAll_cons, List.forall_mem_cons] at replies
    rcases h.step serves travel.1 with ⟨c₁, s₁, hstep, hjoined⟩ | ⟨-, hlost⟩
    -- The other calls start from the store that the first one leaves behind.
    · have hstore : s₁.store = ((ns r).run s.store).2 := by
        rw [hjoined.inStep.store_eq, Namesystem.after_append, ← h.inStep.store_eq]
        rfl
      obtain ⟨c', s', hrest, hjoined'⟩ := ih hjoined travel.2 (by rw [hstore]; exact replies.2)
      refine ⟨c', s', ?_, by simpa using hjoined'⟩
      rw [List.map_cons, run_callAll_cons, hstep, hrest, hstore, Server.run_dispatchAll_cons]
      rfl
    · exact absurd (replies.1 c.nextId) hlost

/-- A handshake does no more than its call. -/
theorem state_handshake (peer : Peer σ) (address : Address) (user : String)
    (state : Connection × σ) :
    ((handshake peer address user).run.run state).2 =
      (step peer (.request (.connect protocolName user)) state).2 := by
  cases hstep : step peer (.request (.connect protocolName user)) state with
  | mk result state' =>
    cases result with
    | error e => rw [run_handshake_of_error address hstep]
    | ok body =>
      refine (congrArg Prod.snd (Over.run_bind_of_ok hstep)).trans ?_
      dsimp only
      split <;> rfl

theorem travels_connect_iff {user : String} :
    (Body.request (.connect protocolName user)).Travels ↔ user.utf8ByteSize ≤ Wire.textLimit := by
  have hname : protocolName.utf8ByteSize = 46 := by decide +kernel
  have hfields : (Body.request (.connect protocolName user)).fields =
    [.text protocolName, .text user] := rfl
  rw [Body.travels_iff, hfields]
  simp only [List.forall_mem_cons, List.map_cons, List.map_nil, List.sum_cons, List.sum_nil,
    Wire.Piece.Writable, Wire.Piece.size, hname, Wire.textLimit, Frame.limit]
  constructor
  · rintro ⟨⟨-, h, -⟩, -⟩
    exact h
  · intro h
    exact ⟨⟨by omega, h, by simp⟩, by omega⟩

/-- A handshake that does not travel fails at this end. -/
theorem step_of_not_travels_connect {user : String}
    (h : ¬(Body.request (.connect protocolName user)).Travels) (state : Connection × σ)
    (peer : Peer σ) :
    ∃ e state', step peer (.request (.connect protocolName user)) state = (.error e, state') := by
  rw [travels_connect_iff] at h
  obtain ⟨c, s⟩ := state
  have short : ShortPaths (.request (.connect protocolName user)) := by
    intro path hpath
    cases hpath
  cases hbytes : Wire.encoded (⟨c.nextId, .request (.connect protocolName user)⟩ : Message) with
  | error e => exact ⟨_, _, step_of_unwritable peer s short hbytes⟩
  | ok bytes =>
    have hpiece : Wire.Piece.text user ∈
        Wire.pieces (⟨c.nextId, .request (.connect protocolName user)⟩ : Message) :=
      List.mem_append_right _ (by simp [Body.fields, Request.fields, Wire.pieces])
    exact absurd ((Wire.encoded_eq_ok.mp hbytes).1 _ hpiece) h

/-- The handshake is the first of the requests. -/
theorem joined_of_handshake (serves : peer.Serves ns store) {address : Address} {user : String}
    (connected : (handshake peer address user).run.run ({}, { store }) = (.ok (), c, s)) :
    Joined peer ns store [.connect protocolName user] c s := by
  have idle : Joined peer ns store [] {} { store } := ⟨rfl, .start, .idle ns store⟩
  have failed {e : Error} {state : Connection × Server.Connection σ Request}
      (hstep : step peer (.request (.connect protocolName user)) ({}, { store }) =
        (.error e, state)) : False := by
    cases (run_handshake_of_error address hstep).symm.trans connected
  by_cases travels : (Body.request (.connect protocolName user)).Travels
  · rcases idle.step serves travels with ⟨c', s', hstep, hjoined⟩ | ⟨⟨e, state, hstep⟩, -⟩
    · have hstate := state_handshake peer address user ({}, { store })
      rw [connected, hstep] at hstate
      obtain ⟨rfl, rfl⟩ := Prod.mk.inj hstate
      exact hjoined
    · exact (failed hstep).elim
  -- A name that is too long is refused at this end, against `connected`.
  · obtain ⟨e, state, hstep⟩ := step_of_not_travels_connect travels ({}, { store }) peer
    exact (failed hstep).elim

/-- The handshake succeeds when the user's name fits and the name system takes the connection. -/
theorem run_handshake_of_serves (address : Address) (user : String)
    (serves : peer.Serves ns store) (fits : user.utf8ByteSize ≤ Wire.textLimit)
    (accepted : Server.settle (.connect protocolName user)
      ((ns (.connect protocolName user)).run store).1 = .ok (.reply .connect)) :
    ∃ c s, (handshake peer address user).run.run ({}, { store }) = (.ok (), c, s) := by
  have idle : Joined peer ns store [] {} { store } := ⟨rfl, .start, .idle ns store⟩
  have replyTravels : (Body.reply .connect).Travels := by decide
  rcases idle.step serves (travels_connect_iff.mpr fits) with ⟨c, s, hstep, -⟩ | ⟨-, hlost⟩
  · rw [accepted] at hstep
    exact ⟨c, s, run_handshake_of_ok address hstep⟩
  · rw [Server.reply, accepted] at hlost
    exact absurd (replyTravels _) hlost

/-- On a connection whose handshake succeeded, calls return what the requests return at the name
system, but for the causes of errors. The name system is asked the requests of the calls in their
order behind that of the handshake, and nothing else. -/
theorem callAll_eq_dispatchAll {store : σ}
    {peer : Peer (Server.Connection (σ × List Request) Request)} {c : Connection}
    {s : Server.Connection (σ × List Request) Request} {address : Address} {user : String}
    {requests : List Request} (serves : peer.Serves ns.recording (store, []))
    (connected : (handshake peer address user).run.run ({}, { store := (store, []) }) =
      (.ok (), c, s))
    (travel : ∀ r ∈ requests, (Body.request r).Travels)
    (replies : ∀ result ∈ ((Server.dispatchAll ns requests).run
      ((ns (.connect protocolName user)).run store).2).1, (Server.replyBody result).Travels) :
    let direct := (Server.dispatchAll ns requests).run
      ((ns (.connect protocolName user)).run store).2
    ((callAll peer (requests.map .request)).run (c, s)).1 =
        direct.1.map (Except.mapError Error.carried) ∧
      ((callAll peer (requests.map .request)).run (c, s)).2.2.store =
        (direct.2, .connect protocolName user :: requests) := by
  intro direct
  have hjoined := joined_of_handshake serves connected
  have hstore : s.store = (((ns (.connect protocolName user)).run store).2,
      [.connect protocolName user]) := by
    rw [hjoined.inStep.store_eq, Namesystem.after_recording]
    rfl
  have hresults : ((Server.dispatchAll ns.recording requests).run s.store).1 = direct.1 := by
    rw [hstore, Server.run_dispatchAll_recording]
  obtain ⟨c', s', hall, hjoined'⟩ := hjoined.callAll serves requests travel
    (by rw [hresults]; exact replies)
  rw [hall, hresults]
  refine ⟨rfl, ?_⟩
  show s'.store = _
  rw [hjoined'.inStep.store_eq, Namesystem.after_recording, List.nil_append,
    Server.store_dispatchAll]
  rfl

/-- A name system that counts its requests. -/
def counting : Namesystem ℕ := fun r => do
  let n ← get
  set (n + 1)
  return match r with
    | .connect .. => .ok (.reply .connect)
    | .getPreferredBlockSize _ => .ok (.reply (.getPreferredBlockSize (UInt64.ofNat n)))
    | _ => .error ⟨.noent, "no such file or directory", some "lookup failed"⟩

theorem callAll_eq_dispatchAll_counting :
    let peer := Server.sequential counting.recording "server"
    let requests := [.getPreferredBlockSize "/a", .delete "/b" true, .getPreferredBlockSize "/a"]
    ∃ (c : Connection) (s : Server.Connection (ℕ × List Request) Request),
      (handshake peer ⟨"server", 8020⟩ "user").run.run ({}, { store := (0, []) }) =
        (.ok (), c, s) ∧
      ((callAll peer (requests.map .request)).run (c, s)).1 = [
        .ok (.reply (.getPreferredBlockSize 1)),
        .error ⟨.noent, "no such file or directory", none⟩,
        .ok (.reply (.getPreferredBlockSize 3))] ∧
      ((callAll peer (requests.map .request)).run (c, s)).2.2.store =
        (4, .connect protocolName "user" :: requests) := by
  intro peer requests
  have serves : peer.Serves counting.recording (0, []) :=
    Server.serves_sequential counting.recording "server" (0, [])
  obtain ⟨c, s, connected⟩ := run_handshake_of_serves ⟨"server", 8020⟩ "user" serves (by decide)
    (by rfl)
  have hdirect : (Server.dispatchAll counting requests).run 1 = ([
      .ok (.reply (.getPreferredBlockSize 1)),
      .error ⟨.noent, "no such file or directory", some "lookup failed"⟩,
      .ok (.reply (.getPreferredBlockSize 3))], 4) := by
    rfl
  have travel : ∀ r ∈ requests, (Body.request r).Travels := by decide
  obtain ⟨hresults, hstore⟩ := callAll_eq_dispatchAll serves connected travel (by
    show ∀ result ∈ ((Server.dispatchAll counting requests).run 1).1,
      (Server.replyBody result).Travels
    rw [hdirect]
    decide)
  refine ⟨c, s, connected, hresults.trans ?_, hstore.trans ?_⟩
  · show ((Server.dispatchAll counting requests).run 1).1.map _ = _
    rw [hdirect]
    rfl
  · show (((Server.dispatchAll counting requests).run 1).2, _) = _
    rw [hdirect]

end Client

end MetaFs
