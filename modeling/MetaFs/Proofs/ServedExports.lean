import Mathlib
import MetaFs.Proofs.Commands
import MetaFs.Proofs.Opening
import MetaFs.Proofs.Remote
import MetaFs.Proofs.StraightPaths
import MetaFs.Proofs.Texts
/-! A session with a served export. What its commands get over the connection are the answers of
the export itself, for as long as those can be sent. -/

namespace MetaFs

/-- Pieces of which none is longer than the longest text, and not many of them. -/
theorem Body.travels_of_pieces {b : Body}
    (pieces : ∀ p ∈ b.fields, p.Writable ∧ p.size ≤ 2 + Wire.textLimit)
    (few : b.fields.length ≤ 100) : b.Travels := by
  rw [Body.travels_iff]
  refine ⟨fun p hp => (pieces p hp).1, ?_⟩
  have hsum : (b.fields.map Wire.Piece.size).sum ≤
      (b.fields.map Wire.Piece.size).length * (2 + Wire.textLimit) := by
    apply List.sum_le_card_nsmul
    intro size hsize
    obtain ⟨p, hp, rfl⟩ := List.mem_map.mp hsize
    exact (pieces p hp).2
  rw [List.length_map] at hsum
  have hmul := Nat.mul_le_mul_right (2 + Wire.textLimit) few
  have hlimit : 100 * (2 + Wire.textLimit) + 9 ≤ Frame.limit := by decide
  omega

/-- A request without raw bytes travels if its texts can be written. -/
theorem Request.travels_of_short {r : Request} (paths : Client.ShortPaths (.request r))
    (labels : ShortLabels (.request r)) (raw : r.operation ≠ .getListing) :
    (Body.request r).Travels := by
  have hwritable : ∀ p ∈ r.fields, p.Writable := Body.writable_fields_iff.mpr ⟨paths, labels⟩
  have hlimit : 8 ≤ 2 + Wire.textLimit := by decide
  have hshape : r.fields.length ≤ 100 ∧
      ∀ p ∈ r.fields, p.size ≤ 8 ∨ ∃ text, p = Wire.Piece.text text := by
    cases r with
    | getListing => exact absurd rfl raw
    | setTimes _ mtime atime =>
      cases mtime <;> cases atime <;> simp [fields, Wire.pieces, Wire.Piece.size]
    | setOwner _ user group =>
      cases user <;> cases group <;> simp [fields, Wire.pieces, Wire.Piece.size]
    | _ => simp [fields, Wire.pieces, Wire.Piece.size]
  refine Body.travels_of_pieces (b := .request r) (fun p hp => ⟨hwritable p hp, ?_⟩) hshape.1
  rcases hshape.2 p hp with hsmall | ⟨text, rfl⟩
  · omega
  · exact Nat.add_le_add_left (hwritable _ hp) 2

/-- Such a request with one path. -/
theorem Request.travels_of_path {r : Request} {src : String} (paths : r.paths = [src])
    (labels : r.labels = []) (raw : r.operation ≠ .getListing)
    (short : src.utf8ByteSize ≤ Wire.textLimit) : (Body.request r).Travels := by
  apply Request.travels_of_short _ _ raw
  · intro path hpath
    rw [Body.paths, paths, List.mem_singleton] at hpath
    rwa [hpath]
  · intro label hlabel
    rw [Body.labels, labels] at hlabel
    cases hlabel

/-- What the system says of a failed call can be sent. -/
theorem Fault.travels_systemError (fault : Fault) :
    (Server.replyBody (.error fault.systemError)).Travels := by
  have hall : ∀ row ∈ ErrnoRow.table,
      (Server.replyBody (.error (Error.ofSystem row.number))).Travels := by decide +kernel
  cases fault with
  | zeroByte => decide
  | errno e =>
    obtain ⟨row, hrow, hnumber⟩ := List.any_eq_true.mp e.listed
    rw [beq_iff_eq] at hnumber
    rw [Fault.systemError, ← hnumber]
    exact hall row hrow

theorem Fault.errno_systemError (e : Errno) : (Fault.errno e).systemError.errno = e :=
  dif_pos e.listed

theorem utf8ByteSize_le (text : String) : text.utf8ByteSize ≤ 4 * text.length := by
  have hchars (chars : List Char) : String.utf8Len chars ≤ 4 * chars.length := by
    induction chars with
    | nil => exact Nat.zero_le _
    | cons c chars ih =>
      have hc := c.utf8Size_le_four
      rw [String.utf8Len_cons, List.length_cons]
      omega
  have htext := hchars text.toList
  rwa [← String.utf8ByteSize_ofList, String.ofList_toList] at htext

namespace Export

open MetaFs.Tree

variable {e : Export} {t : Tree} {place : TreePath} {src : String} {below : List Name} {node : Node}

/-- The exported directory is in a file tree, and its accounts are such as a system has: their names
are not longer than a text can be, and the numbers of owners and groups have four bytes. -/
structure Hosts (e : Export) (t : Tree) : Prop where
  wellFormed : t.WellFormed
  root : t.IsDirectory e.root
  accounts : ∀ account ∈ e.users ++ e.groups, account.name.utf8ByteSize ≤ Wire.textLimit
  numbers : ∀ place node, t.get? place = some node →
    node.uid < UInt32.size ∧ node.gid < UInt32.size

/-- The place of the file tree that a path text stands for. -/
def Places (e : Export) (src : String) (place : TreePath) : Prop :=
  ∃ below, Spells src below ∧ place = e.root ++ below

theorem Places.unique {place' : TreePath} (h : e.Places src place) (h' : e.Places src place') :
    place = place' := by
  obtain ⟨below, hbelow, rfl⟩ := h
  obtain ⟨below', hbelow', rfl⟩ := h'
  rw [hbelow.unique hbelow']

theorem short_accountName {accounts : List Account} {id : ℕ} (hid : id < UInt32.size)
    (short : ∀ account ∈ accounts, account.name.utf8ByteSize ≤ Wire.textLimit) :
    (accountName accounts id).utf8ByteSize ≤ Wire.textLimit := by
  rw [accountName]
  cases hfind : accounts.find? (·.id == id) with
  | some account => exact short account (List.mem_of_find?_eq_some hfind)
  | none =>
    have hdigits : (Nat.repr id).length ≤ 10 :=
      Nat.repr_length id 10 (by decide) (hid.trans (by decide))
    have hbytes := utf8ByteSize_le (Nat.repr id)
    have hlimit : 40 ≤ Wire.textLimit := by decide
    show (Nat.repr id).utf8ByteSize ≤ _
    omega

/-- The status of every node can be sent. -/
theorem Hosts.travels (h : e.Hosts t) (hnode : t.get? place = some node) :
    (Body.reply (.getFileInfo (some (e.statusOf [] node)))).Travels := by
  obtain ⟨huid, hgid⟩ := h.numbers place node hnode
  have howner : (e.statusOf [] node).owner.utf8ByteSize ≤ Wire.textLimit :=
    short_accountName huid fun account haccount =>
      h.accounts account (List.mem_append_left _ haccount)
  have hgroup : (e.statusOf [] node).group.utf8ByteSize ≤ Wire.textLimit :=
    short_accountName hgid fun account haccount =>
      h.accounts account (List.mem_append_right _ haccount)
  have hpath : (e.statusOf [] node).path.bytes = [] := rfl
  generalize e.statusOf [] node = status at howner hgroup hpath
  obtain ⟨fileType, ⟨path⟩, length, permission, owner, group, modified, accessed, replication,
    blockSize⟩ := status
  obtain rfl : path = [] := hpath
  dsimp only at howner hgroup
  have hlimit : 8 ≤ 2 + Wire.textLimit := by decide
  apply Body.travels_of_pieces
  · cases replication <;> cases blockSize <;>
      simp [Body.fields, Reply.fields, Wire.pieces, Wire.Piece.Writable, Wire.Piece.size] <;> omega
  · cases replication <;> cases blockSize <;> simp [Body.fields, Reply.fields, Wire.pieces]

end Export

theorem Server.eq_ok_of_settle {r : Request} {answer : Except Error Body} {body : Body}
    (h : settle r answer = .ok body) : answer = .ok body := by
  cases answer with
  | error error => cases h
  | ok found =>
    rw [settle, checked] at h
    split_ifs at h
    exact h

open Client in
/-- A connection to a server of the export, between two calls. -/
def Export.Served (e : Export) (peer : Peer (Server.Connection Tree Request))
    (state : Connection × Server.Connection Tree Request) : Prop :=
  ∃ start before, peer.Serves e.namesystem start ∧
    Joined peer e.namesystem start before state.1 state.2

section Calls

open Client

variable {e : Export} {peer : Peer (Server.Connection Tree Request)} {reaches : Address → Bool}
  {state next : Connection × Server.Connection Tree Request} {r : Request} {body : Body}
  {address : Address} {user : String} {start : Tree} {c : Connection}

namespace Export.Served

/-- A call gets what the export answers, unless the reply cannot be sent. -/
theorem cases_call (reaches : Address → Bool) (h : e.Served peer state)
    (travels : (Body.request r).Travels) :
    (∃ next, ((link peer reaches).call r).run.run state =
        ((Server.settle r ((e.namesystem r).run state.2.store).1).mapError Error.carried, next) ∧
      e.Served peer next ∧ next.2.store = ((e.namesystem r).run state.2.store).2) ∨
    ((∃ error next, ((link peer reaches).call r).run.run state = (.error error, next)) ∧
      ¬(Server.replyBody (Server.settle r ((e.namesystem r).run state.2.store).1)).Travels) := by
  obtain ⟨start, before, serves, joined⟩ := h
  rcases joined.step serves travels with ⟨c, srv, hstep, hjoined⟩ | ⟨⟨error, next, hstep⟩, hlost⟩
  · refine .inl ⟨(c, srv), hstep, ⟨start, _, serves, hjoined⟩, ?_⟩
    calc srv.store
      _ = e.namesystem.after start (before ++ [r]) := hjoined.inStep.store_eq
      _ = e.namesystem.after (e.namesystem.after start before) [r] :=
        Namesystem.after_append e.namesystem start before [r]
      _ = ((e.namesystem r).run state.2.store).2 := by rw [← joined.inStep.store_eq]; rfl
  · exact .inr ⟨⟨error, next, hstep⟩, fun travels' => hlost (travels' _)⟩

theorem call (reaches : Address → Bool) (h : e.Served peer state)
    (travels : (Body.request r).Travels)
    (reply : (Server.replyBody (Server.settle r ((e.namesystem r).run state.2.store).1)).Travels) :
    ∃ next, ((link peer reaches).call r).run.run state =
        ((Server.settle r ((e.namesystem r).run state.2.store).1).mapError Error.carried, next) ∧
      e.Served peer next ∧ next.2.store = ((e.namesystem r).run state.2.store).2 := by
  rcases h.cases_call reaches travels with hcall | ⟨-, hlost⟩
  · exact hcall
  · exact absurd reply hlost

theorem exists_call_of_answer {t : Tree} (reaches : Address → Bool) (h : e.Served peer state)
    (travels : (Body.request r).Travels)
    (answer : (e.namesystem r).run state.2.store = (.ok body, t))
    (settled : Server.settle r (.ok body) = .ok body) (reply : body.Travels) :
    ∃ next, ((link peer reaches).call r).run.run state = (.ok body, next) := by
  obtain ⟨next, hcall, -⟩ := h.call reaches travels (by rw [answer, settled]; exact reply)
  rw [answer, settled] at hcall
  exact ⟨next, hcall⟩

/-- What a call that succeeds returns is what the export has answered. -/
theorem of_call_ok (h : e.Served peer state) (travels : (Body.request r).Travels)
    (hcall : ((link peer reaches).call r).run.run state = (.ok body, next)) :
    ((e.namesystem r).run state.2.store).1 = .ok body ∧ e.Served peer next ∧
      next.2.store = ((e.namesystem r).run state.2.store).2 := by
  rcases h.cases_call reaches travels with
    ⟨next', hrun, hserved, hstore⟩ | ⟨⟨error, next', hrun⟩, -⟩
  · rw [hcall] at hrun
    obtain ⟨hbody, rfl⟩ := Prod.mk.inj hrun
    refine ⟨?_, hserved, hstore⟩
    apply Server.eq_ok_of_settle (r := r)
    generalize Server.settle r _ = result at hbody ⊢
    cases result with
    | error error => cases hbody
    | ok found => exact hbody.symm
  · rw [hcall] at hrun
    cases hrun

end Export.Served

theorem Client.run_start {σ : Type} (peer : Peer σ) (hreaches : reaches address = true)
    (state : Connection × σ) : ((link peer reaches).start address user).run.run state =
      (handshake peer address user).run.run ({}, state.2) := by
  show StateT.run (ExceptT.run (if !reaches address then _ else _)) state = _
  rw [hreaches]
  rfl

theorem Client.run_start_of_unreached {σ : Type} (peer : Peer σ) (h : reaches address = false)
    (state : Connection × σ) : ((link peer reaches).start address user).run.run state =
      (.error (refused address.display), state) := by
  show StateT.run (ExceptT.run (if !reaches address then _ else _)) state = _
  rw [h]
  rfl

/-- Taking a connection changes nothing in the tree. -/
theorem served_of_start (serves : peer.Serves e.namesystem start)
    (h : ((link peer reaches).start address user).run.run (c, { store := start }) =
      (.ok (), state)) : e.Served peer state ∧ state.2.store = start := by
  cases hreaches : reaches address with
  | false =>
    rw [run_start_of_unreached peer hreaches] at h
    cases h
  | true =>
    rw [run_start peer hreaches] at h
    have hjoined := joined_of_handshake serves h
    refine ⟨⟨start, _, serves, hjoined⟩, hjoined.inStep.store_eq.trans ?_⟩
    show ((Export.connect protocolName).run.run start).2 = start
    rfl

theorem run_getServerDefaults (e : Export) (t : Tree) :
    (e.namesystem .getServerDefaults).run t = (.ok (.reply (.getServerDefaults
      ⟨e.blockSize, 512, 65536, 1, 4096⟩)), t) :=
  rfl

theorem travels_serverDefaults (defaults : ServerDefaults) :
    (Body.reply (.getServerDefaults defaults)).Travels := by
  apply Body.travels_of_pieces <;>
    simp [Body.fields, Reply.fields, Wire.pieces, Wire.Piece.Writable, Wire.Piece.size,
      Wire.textLimit]

/-- A session whose link is such a connection. -/
structure Session.Attached (s : Session) (e : Export)
    (peer : Peer (Server.Connection Tree Request))
    (state : Connection × Server.Connection Tree Request) : Prop where
  kept : s.workingDirectory.Kept
  served : e.Served peer state

theorem Session.Attached.move {s : Session} (h : s.Attached e peer state) (text : String) :
    (s.move text).Attached e peer state :=
  ⟨kept_move h.kept text, h.served⟩

/-- A session that is opened on a served export is attached to it, and the tree is as it was. -/
theorem attached_of_connect {settings : Settings} {s : Session}
    (serves : peer.Serves e.namesystem start)
    (h : (settings.connect user (link peer reaches)).run.run (c, { store := start }) =
      (.ok s, state)) : s.Attached e peer state ∧ state.2.store = start := by
  have hkept := (Settings.kept_of_connect (congrArg Prod.fst h)).1
  suffices hserved : e.Served peer state ∧ state.2.store = start from
    ⟨⟨hkept, hserved.1⟩, hserved.2⟩
  cases hprofile : settings.profile user with
  | error error =>
    rw [Settings.run_connect_of_no_profile hprofile] at h
    cases h
  | ok profile =>
    obtain ⟨result, middle, hstart⟩ : ∃ result middle, ((link peer reaches).start profile.address
        profile.user).run.run (c, { store := start }) = (result, middle) := ⟨_, _, rfl⟩
    cases result with
    | error error =>
      rw [Settings.run_connect_of_unreached hprofile hstart] at h
      cases h
    | ok _ =>
      obtain ⟨hmiddle, hstore⟩ := served_of_start serves hstart
      have hanswer := run_getServerDefaults e middle.2.store
      obtain ⟨last, hcall, hserved, hstore'⟩ := hmiddle.call reaches
        (r := .getServerDefaults) (by decide) (by rw [hanswer]; exact travels_serverDefaults _)
      rw [hanswer] at hcall hstore'
      rw [Settings.run_connect_of_reached hprofile hstart hcall] at h
      obtain ⟨-, rfl⟩ := Prod.mk.inj h
      exact ⟨hserved, hstore'.trans hstore⟩

/-- Settings that are complete open a session on a served export. -/
theorem exists_attached (reaches : Address → Bool) {settings : Settings} {profile : Profile}
    (serves : peer.Serves e.namesystem start) (hprofile : settings.profile user = .ok profile)
    (hreaches : reaches profile.address = true)
    (fits : profile.user.utf8ByteSize ≤ Wire.textLimit) :
    ∃ s state, (settings.connect user (link peer reaches)).run.run ({}, { store := start }) =
        (.ok s, state) ∧ s.workingDirectory = profile.home ∧ s.Attached e peer state ∧
      state.2.store = start := by
  obtain ⟨c, srv, hhandshake⟩ := run_handshake_of_serves profile.address profile.user serves fits
    (by rfl)
  have hstart : ((link peer reaches).start profile.address profile.user).run.run
      ({}, { store := start }) = (.ok (), c, srv) :=
    (run_start peer hreaches _).trans hhandshake
  obtain ⟨hserved, hstore⟩ := served_of_start serves hstart
  obtain ⟨last, hcall⟩ := hserved.exists_call_of_answer reaches (by decide)
    (run_getServerDefaults e srv.store) rfl (travels_serverDefaults _)
  have hconnect := Settings.run_connect_of_reached hprofile hstart hcall
  exact ⟨_, _, hconnect, rfl, attached_of_connect serves hconnect⟩

end Calls

/-! The status of an object. -/

namespace Session

section Stat

variable {σ : Type} {s : Session} {link : Link σ} {given src : String} {state next : σ}

theorem run_stat_of_error {error : Error} (resolves : s.workingDirectory.resolve given = .ok src)
    (h : (link.call (.getFileInfo src)).run.run state = (.error error, next)) :
    (s.stat link given).run.run state = (.error (error.prepend s!"stat({src})"), next) := by
  rw [stat, path_of_resolves resolves, pure_bind]
  exact Over.run_bind_of_error (run_call h)

theorem run_stat_of_some {status : FileStatus}
    (resolves : s.workingDirectory.resolve given = .ok src)
    (h : (link.call (.getFileInfo src)).run.run state =
      (.ok (.reply (.getFileInfo (some status))), next)) :
    (s.stat link given).run.run state =
      (.ok (.ofStatus status (s.profile.urlPrefix ++ src)), next) := by
  rw [stat, path_of_resolves resolves, pure_bind]
  exact Over.run_bind_of_ok (run_call h)

theorem run_stat_of_none (resolves : s.workingDirectory.resolve given = .ok src)
    (h : (link.call (.getFileInfo src)).run.run state = (.ok (.reply (.getFileInfo none)), next)) :
    (s.stat link given).run.run state =
      (.error ⟨.noent, s!"stat({src})" ++ ": no such file or directory", none⟩, next) := by
  rw [stat, path_of_resolves resolves, pure_bind]
  exact Over.run_bind_of_ok (run_call h)

end Stat

/-- What a session makes of the status that the file system gives the export. -/
def told (s : Session) (e : Export) (src : String) (status : Except Fault Node) :
    Except Error FileInfo :=
  match Export.found status with
  | .ok (some node) => .ok (.ofStatus (e.statusOf [] node) (s.profile.urlPrefix ++ src))
  | .ok none => .error ⟨.noent, s!"stat({src})" ++ ": no such file or directory", none⟩
  | .error error => .error (error.carried.prepend s!"stat({src})")

variable {s : Session} {e : Export} {peer : Client.Peer (Server.Connection Tree Request)}
  {reaches : Address → Bool} {state : Client.Connection × Server.Connection Tree Request}
  {given src : String} {place : TreePath}

/-- Every answer about a status can be sent. -/
theorem travels_status {below : List Name} {t : Tree} (hosts : e.Hosts t)
    (hbelow : Export.Spells src below) : (Server.replyBody (Server.settle (.getFileInfo src)
      ((e.namesystem (.getFileInfo src)).run t).1)).Travels := by
  rw [Export.run_getFileInfo hbelow]
  cases hstatus : FileSystem.status t e.caller (e.root ++ below) with
  | ok node =>
    obtain ⟨place, -, hnode⟩ := Export.status_eq_ok hstatus
    exact hosts.travels hnode
  | error fault =>
    rw [Export.found]
    split_ifs
    · have hnone : (Body.reply (.getFileInfo none)).Travels := by decide
      exact hnone
    · exact fault.travels_systemError

/-- Over the connection the status of an object is what the file system says of its place. -/
theorem Attached.stat (reaches : Address → Bool) (h : s.Attached e peer state)
    (hosts : e.Hosts state.2.store) (resolves : s.workingDirectory.resolve given = .ok src)
    (hplace : e.Places src place) (short : src.utf8ByteSize ≤ Wire.textLimit) :
    ∃ next, (s.stat (Client.link peer reaches) given).run.run state =
        (s.told e src (FileSystem.status state.2.store e.caller place), next) ∧
      s.Attached e peer next ∧ next.2.store = state.2.store := by
  obtain ⟨below, hbelow, rfl⟩ := hplace
  obtain ⟨next, hcall, hserved, hstore⟩ := h.served.call reaches
    (Request.travels_of_path rfl rfl Operation.noConfusion short) (travels_status hosts hbelow)
  rw [Export.run_getFileInfo hbelow] at hcall hstore
  refine ⟨next, ?_, ⟨h.kept, hserved⟩, hstore⟩
  rw [told]
  generalize Export.found _ = found at hcall ⊢
  cases found with
  | error error => exact run_stat_of_error resolves hcall
  | ok node? =>
    cases node? with
    | none => exact run_stat_of_none resolves hcall
    | some node => exact run_stat_of_some resolves hcall

end Session

end MetaFs
