import Mathlib
import MetaFs.Proofs.DirectoryPages
import MetaFs.Proofs.Existence
import MetaFs.Proofs.Pages
/-! A session lists a directory of a served export that does not change: there is one request for
each page, and each entry comes out once. -/

namespace MetaFs

namespace Session

section Turns

variable {σ : Type} {link : Link σ} {path : String} {Good : σ → Prop} {cursor : ℕ → Data}
  {page : ℕ → Page} {count : ℕ} {state : σ}

/-- As long as the state is good, so many requests get these pages, and each page leads on to the
next one. -/
structure Turns (link : Link σ) (path : String) (Good : σ → Prop) (cursor : ℕ → Data)
    (page : ℕ → Page) (count : ℕ) : Prop where
  call : ∀ k < count, ∀ state, Good state → ∃ next,
    (link.call (.getListing path (cursor k) false)).run.run state = ((page k).reply, next) ∧
      Good next
  continues : ∀ k < count, (page k).Continues ∧ (page k).cursor = cursor (k + 1)

/-- A request for a page and the page. -/
def turn (path : String) (cursor : ℕ → Data) (page : ℕ → Page) (k : ℕ) : Trip :=
  ⟨.getListing path (cursor k) false, (page k).reply⟩

theorem Turns.zero : Turns link path Good cursor page 0 where
  call _ hk := absurd hk (Nat.not_lt_zero _)
  continues _ hk := absurd hk (Nat.not_lt_zero _)

/-- Behind so many turns a listing goes on from the cursor of the next one. -/
theorem Turns.run_listFrom (h : Turns link path Good cursor page count) (front : String)
    (bound : ℕ) (good : Good state) : ∃ next, Good next ∧
      (listFrom link path front (bound + count) (cursor 0) []).run.run state =
        (listFrom link path front bound (cursor count)
          ((List.range count).flatMap fun k => (page k).infos front)).run.run next ∧
      (listFrom link.noting path front (bound + count) (cursor 0) []).run.run (state, []) =
        (listFrom link.noting path front bound (cursor count)
          ((List.range count).flatMap fun k => (page k).infos front)).run.run
            (next, (List.range count).map (turn path cursor page)) := by
  induction count generalizing bound with
  | zero => exact ⟨state, good, rfl, rfl⟩
  | succ count ih =>
    have hbefore : Turns link path Good cursor page count :=
      ⟨fun k hk => h.call k (Nat.lt_succ_of_lt hk),
        fun k hk => h.continues k (Nat.lt_succ_of_lt hk)⟩
    obtain ⟨middle, hmiddle, hrun, hnoted⟩ := ih hbefore (bound + 1)
    obtain ⟨next, hcall, hnext⟩ := h.call count (Nat.lt_succ_self count) middle hmiddle
    obtain ⟨hcontinues, hcursor⟩ := h.continues count (Nat.lt_succ_self count)
    have hbound : bound + (count + 1) = bound + 1 + count := by omega
    refine ⟨next, hnext, ?_, ?_⟩
    · rw [hbound, hrun, run_listFrom_of_continues bound hcontinues hcall, hcursor,
        List.range_succ, List.flatMap_append, List.flatMap_singleton]
    · rw [hbound, hnoted, run_listFrom_of_continues bound hcontinues
        (Link.run_call_noting hcall _), hcursor, List.range_succ, List.flatMap_append,
        List.flatMap_singleton, List.map_append]
      rfl

section Ends

variable {s : Session} {given : String} (resolves : s.workingDirectory.resolve given = .ok path)
  (h : Turns link path Good cursor page count) (first : cursor 0 = {}) (good : Good state)
include resolves h first good

theorem Turns.run_listDirectory_of_breaks {error : Error} (breaks : ∀ u, Good u → ∃ reply next,
      (link.call (.getListing path (cursor count) false)).run.run u = (reply, next) ∧
        Good next ∧ Breaks path (cursor count) reply error) {bound : ℕ} (room : count < bound) :
    ∃ next, Good next ∧
      (s.listDirectory link bound given).run.run state = (.error error, next) := by
  obtain ⟨more, rfl⟩ : ∃ more, bound = more + 1 + count := ⟨bound - (1 + count), by omega⟩
  obtain ⟨last, hlast, hrun, -⟩ := h.run_listFrom (s.entryFront path) (more + 1) good
  obtain ⟨reply, next, hcall, hnext, hbreaks⟩ := breaks last hlast
  refine ⟨next, hnext, ?_⟩
  rw [Session.run_listDirectory s link _ resolves, ← first, hrun,
    run_listFrom_of_breaks more hbreaks hcall]

theorem Turns.run_listDirectory (last : ∀ u, Good u → ∃ next,
      (link.call (.getListing path (cursor count) false)).run.run u =
        ((page count).reply, next) ∧ Good next)
    (ends : (page count).remaining = 0) {bound : ℕ} (room : count < bound) :
    ∃ next, Good next ∧
      (s.listDirectory link bound given).run.run state = (.ok (some
        ((List.range (count + 1)).flatMap fun k => (page k).infos (s.entryFront path))), next) ∧
      (s.listDirectory link.noting bound given).run.run (state, []) = (.ok (some
        ((List.range (count + 1)).flatMap fun k => (page k).infos (s.entryFront path))), next,
          (List.range (count + 1)).map (turn path cursor page)) := by
  obtain ⟨more, rfl⟩ : ∃ more, bound = more + 1 + count := ⟨bound - (1 + count), by omega⟩
  obtain ⟨middle, hmiddle, hrun, hnoted⟩ := h.run_listFrom (s.entryFront path) (more + 1) good
  obtain ⟨next, hcall, hnext⟩ := last middle hmiddle
  rw [List.range_succ, List.flatMap_append, List.flatMap_singleton, List.map_append]
  refine ⟨next, hnext, ?_, ?_⟩
  · rw [Session.run_listDirectory s link _ resolves, ← first, hrun,
      run_listFrom_of_ends more ends hcall]
  · rw [Session.run_listDirectory s link.noting _ resolves, ← first, hnoted,
      run_listFrom_of_ends more ends (Link.run_call_noting hcall _)]
    rfl

end Ends

end Turns

end Session

theorem Request.travels_getListing {src : String} {after : Data}
    (short : src.utf8ByteSize ≤ Wire.textLimit)
    (small : after.bytes.length ≤ FileSystem.nameLimit) :
    (Body.request (.getListing src after false)).Travels := by
  have hlimit : 4 + FileSystem.nameLimit ≤ 2 + Wire.textLimit := by decide
  apply Body.travels_of_pieces <;>
    simp [Body.fields, Request.fields, Wire.pieces, Wire.Piece.Writable, Wire.Piece.size, short]
  omega

namespace Session

open FileSystem

section Served

variable {s : Session} {e : Export} {peer : Client.Peer (Server.Connection Tree Request)}
  {state : Client.Connection × Server.Connection Tree Request} {given src : String}
  {below : List Name} {t : Tree} {place : TreePath} {node : Node}

/-- The tree that is served stays this one. -/
def Serves (e : Export) (peer : Client.Peer (Server.Connection Tree Request)) (t : Tree)
    (state : Client.Connection × Server.Connection Tree Request) : Prop :=
  e.Served peer state ∧ state.2.store = t

/-- A request for a page that leaves the tree as it is. -/
theorem Serves.call (reaches : Address → Bool) (h : Serves e peer t state) {after : Data}
    {answer : Except Error Body} (short : src.utf8ByteSize ≤ Wire.textLimit)
    (small : after.bytes.length ≤ nameLimit)
    (hrun : (e.namesystem (.getListing src after false)).run t = (answer, t))
    (settled : Server.settle (.getListing src after false) answer = answer)
    (travels : (Server.replyBody answer).Travels) : ∃ next,
      ((Client.link peer reaches).call (.getListing src after false)).run.run state =
        (answer.mapError Error.carried, next) ∧ Serves e peer t next := by
  obtain ⟨hserved, rfl⟩ := h
  obtain ⟨next, hcall, hnext, hstore⟩ := hserved.call reaches
    (Request.travels_getListing short small) (by rwa [hrun, settled])
  rw [hrun] at hcall hstore
  rw [settled] at hcall
  exact ⟨next, hcall, hnext, hstore⟩

theorem Serves.call_fault (reaches : Address → Bool) (h : Serves e peer t state) {after : Data}
    {fault : Fault} (short : src.utf8ByteSize ≤ Wire.textLimit)
    (small : after.bytes.length ≤ nameLimit)
    (hrun : (e.namesystem (.getListing src after false)).run t = (.error fault.systemError, t)) :
    ∃ next, ((Client.link peer reaches).call (.getListing src after false)).run.run state =
      (.error fault.systemError.carried, next) ∧ Serves e peer t next :=
  h.call reaches short small hrun rfl fault.travels_systemError

section Pages

variable (wellFormed : t.WellFormed) (short : src.utf8ByteSize ≤ Wire.textLimit)
  (hbelow : Export.Spells src below) (leads : LeadsInto t e.caller (e.root ++ below) place node)
  (readable : e.caller.allows node Caller.mayRead = true)
include wellFormed short hbelow leads readable

theorem Serves.call_page (reaches : Address → Bool) (h : Serves e peer t state) {k : ℕ}
    (clear : (e.namesAt t place k).findSome? (barrier? e.caller (e.root ++ below) node) = none)
    (sendable : (Body.reply (.getListing (some (e.pageAt t place k)))).Travels) : ∃ next,
      ((Client.link peer reaches).call (.getListing src (e.cursorAt t place k) false)).run.run
        state = ((e.pageAt t place k).reply, next) ∧ Serves e peer t next := by
  have hrun := Export.run_getListing_of_readable hbelow leads wellFormed readable k
  rw [clear] at hrun
  exact h.call reaches short (Export.length_cursorAt_le wellFormed k) hrun rfl sendable

/-- The pages of a directory are asked for in turn, as far as their entries can be looked at. -/
theorem turns_pageAt (peer : Client.Peer (Server.Connection Tree Request))
    (reaches : Address → Bool) (limited : 0 < e.listingLimit) {count : ℕ}
    (hcount : count < e.pageCount (t.names place).length)
    (clear : ∀ k < count,
      (e.namesAt t place k).findSome? (barrier? e.caller (e.root ++ below) node) = none)
    (sendable : ∀ k < count, (Body.reply (.getListing (some (e.pageAt t place k)))).Travels) :
    Turns (Client.link peer reaches) src (Serves e peer t) (e.cursorAt t place)
      (e.pageAt t place) count where
  call k hk _ hu := hu.call_page wellFormed short hbelow leads readable reaches (clear k hk)
    (sendable k hk)
  continues _ hk := Export.continues_pageAt limited (lt_of_le_of_lt hk hcount)

end Pages

/-- The listing ends in an error with this number, the same for every bound that is large enough,
and the tree is as it was. -/
def FailsToList (s : Session)
    (link : Link (Client.Connection × Server.Connection Tree Request)) (given : String)
    (state : Client.Connection × Server.Connection Tree Request) (errno : Errno) : Prop :=
  ∃ error, error.errno = errno ∧ ∃ enough, ∀ bound ≥ enough, ∃ next,
    (s.listDirectory link bound given).run.run state = (.error error, next) ∧
    next.2.store = state.2.store

/-- The listing ends in an error with this number before anything is sent. The connection and the
peer are as they were, and nothing has passed between them. -/
def RefusesToList {σ : Type} (s : Session) (peer : Client.Peer σ) (reaches : Address → Bool)
    (given : String) (errno : Errno) : Prop :=
  ∃ error, error.errno = errno ∧
    ∀ bound > 0, ∀ (c : Client.Connection) (state : σ) (t : Client.Transcript),
      (s.listDirectory (Client.link peer reaches) bound given).run.run (c, state) =
        (.error error, c, state) ∧
      (s.listDirectory (Client.link peer.noting reaches) bound given).run.run (c, state, t) =
        (.error error, c, state, t)

/-- The entries of a directory in the order of their names, each with its own status. -/
def Enumerates (s : Session) (e : Export) (t : Tree) (src : String) (place : TreePath)
    (infos : List FileInfo) : Prop :=
  ∃ names : List Name, names.Pairwise (· < ·) ∧
    (∀ name, name ∈ names ↔ (t.get? (place ++ [name])).isSome) ∧
    List.Forall₂ (fun name info => ∃ found, t.get? (place ++ [name]) = some found ∧
      info = .ofStatus (e.statusOf name found) (s.entryFront src)) names infos

/-- The listing comes to its end with all entries, one request for each page and the tree as it
was. -/
def ListsWhole (s : Session)
    (link : Link (Client.Connection × Server.Connection Tree Request)) (e : Export)
    (given src : String) (place : TreePath)
    (state : Client.Connection × Server.Connection Tree Request) : Prop :=
  ∃ (infos : List FileInfo) (trips : List Trip),
    s.Enumerates e state.2.store src place infos ∧
    trips.map Trip.request = (List.range (max 1 (infos.length ⌈/⌉ e.listingLimit))).map
      (fun k => .getListing src (e.cursorAt state.2.store place k) false) ∧
    ∀ bound ≥ trips.length, ∃ next,
      (s.listDirectory link bound given).run.run state = (.ok (some infos), next) ∧
      (s.listDirectory link.noting bound given).run.run (state, []) =
        (.ok (some infos), next, trips) ∧
      next.2.store = state.2.store

theorem enumerates_statuses (s : Session) (e : Export) (wellFormed : t.WellFormed)
    (src : String) (place : TreePath) : s.Enumerates e t src place
      ((e.statuses t place (t.names place)).map (FileInfo.ofStatus · (s.entryFront src))) := by
  refine ⟨t.names place, Tree.pairwise_names wellFormed.proper place, fun _ => Tree.mem_names, ?_⟩
  have hall : ∀ name ∈ t.names place, (t.get? (place ++ [name])).isSome :=
    fun name hname => Tree.mem_names.mp hname
  generalize t.names place = names at hall
  induction names with
  | nil => exact .nil
  | cons name names ih =>
    obtain ⟨hname, hnames⟩ := List.forall_mem_cons.mp hall
    obtain ⟨found, hfound⟩ := Option.isSome_iff_exists.mp hname
    rw [Export.statuses, List.filterMap_cons, hfound]
    exact .cons ⟨found, hfound, rfl⟩ (ih hnames)

/-- Every page that the server can make of a directory can be sent. -/
def Sendable (e : Export) (t : Tree) (path place : TreePath) (node : Node) : Prop :=
  ∀ k < e.pageCount (t.names place).length,
    (e.namesAt t place k).findSome? (barrier? e.caller path node) = none →
      (Body.reply (.getListing (some (e.pageAt t place k)))).Travels

section Told

variable (reaches : Address → Bool) (resolves : s.workingDirectory.resolve given = .ok src)
include resolves

theorem refusesToList_of_long {σ : Type} (peer : Client.Peer σ)
    (long : Wire.textLimit < src.utf8ByteSize) :
    s.RefusesToList peer reaches given .nametoolong := by
  have hlong : ¬Client.ShortPaths (.request (.getListing src {} false)) :=
    fun short => absurd (short src (List.mem_singleton.mpr rfl)) (Nat.not_le.mpr long)
  obtain ⟨error, herrno, hstep⟩ := Client.step_of_long_path hlong
  refine ⟨error.prepend (pageContext src {}), (error.errno_prepend _).trans herrno,
    fun bound hbound c state t => ?_⟩
  obtain ⟨bound, rfl⟩ := Nat.exists_eq_succ_of_ne_zero (Nat.pos_iff_ne_zero.mp hbound)
  -- The first request breaks the listing, and neither link has sent it.
  constructor
  · rw [run_listDirectory s _ _ resolves]
    exact run_listFrom_of_breaks bound .failed (hstep peer c state)
  · rw [run_listDirectory s _ _ resolves]
    exact run_listFrom_of_breaks bound .failed (hstep peer.noting c (state, t))

/-- What breaks the listing behind so many pages leaves the tree. -/
theorem failsToList_of_breaks {cursor : ℕ → Data} {page : ℕ → Page} {count : ℕ}
    (turns : Turns (Client.link peer reaches) src (Serves e peer state.2.store) cursor page count)
    (first : cursor 0 = {}) (serves : Serves e peer state.2.store state) (error : Error)
    (breaks : ∀ u, Serves e peer state.2.store u → ∃ reply next,
      ((Client.link peer reaches).call (.getListing src (cursor count) false)).run.run u =
        (reply, next) ∧ Serves e peer state.2.store next ∧
        Breaks src (cursor count) reply error) :
    s.FailsToList (Client.link peer reaches) given state error.errno := by
  refine ⟨error, rfl, count + 1, fun bound hbound => ?_⟩
  obtain ⟨next, ⟨-, hstore⟩, hrun⟩ :=
    turns.run_listDirectory_of_breaks resolves first serves breaks hbound
  exact ⟨next, hrun, hstore⟩

variable (h : s.Attached e peer state) (wellFormed : state.2.store.WellFormed)
  (short : src.utf8ByteSize ≤ Wire.textLimit)
include h wellFormed short

/-- A failure to make the next page is one of the listing. -/
theorem failsToList_of_fault (place : TreePath) {fault : Fault} {count : ℕ}
    (turns : Turns (Client.link peer reaches) src (Serves e peer state.2.store)
      (e.cursorAt state.2.store place) (e.pageAt state.2.store place) count)
    (hrun : (e.namesystem (.getListing src (e.cursorAt state.2.store place count) false)).run
      state.2.store = (.error fault.systemError, state.2.store)) :
    s.FailsToList (Client.link peer reaches) given state fault.systemError.errno := by
  refine failsToList_of_breaks reaches resolves turns (Export.cursorAt_zero e _ place)
    ⟨h.served, rfl⟩ (fault.systemError.carried.prepend
      (pageContext src (e.cursorAt state.2.store place count))) fun u hu => ?_
  obtain ⟨next, hcall, hnext⟩ :=
    hu.call_fault reaches short (Export.length_cursorAt_le wellFormed count) hrun
  exact ⟨_, next, hcall, hnext, .failed⟩

variable (hbelow : Export.Spells src below)
include hbelow

theorem failsToList_of_status {fault : Fault}
    (hstatus : status state.2.store e.caller (e.root ++ below) = .error fault) :
    s.FailsToList (Client.link peer reaches) given state fault.systemError.errno := by
  have hrun := Export.run_getListing_of_status hbelow hstatus
  split_ifs at hrun with hnoent
  · rw [hnoent]
    have hturns : Turns (Client.link peer reaches) src (Serves e peer state.2.store) (fun _ => {})
        (fun _ => ⟨[], 0⟩) 0 := .zero
    refine failsToList_of_breaks reaches resolves hturns rfl ⟨h.served, rfl⟩
      ⟨.noent, s!"{pageContext src {}}: no such directory", none⟩ fun u hu => ?_
    obtain ⟨next, hcall, hnext⟩ := hu.call reaches short (Nat.zero_le _) (hrun {}) rfl (by decide)
    exact ⟨_, next, hcall, hnext, .absent⟩
  · exact failsToList_of_fault reaches resolves h wellFormed short [] .zero (hrun _)

variable (leads : LeadsInto state.2.store e.caller (e.root ++ below) place node)
include leads

theorem failsToList_of_unreadable (unreadable : e.caller.allows node Caller.mayRead = false) :
    s.FailsToList (Client.link peer reaches) given state .acces := by
  have hrun := Export.run_getListing_of_unreadable hbelow leads unreadable
  rw [← Fault.errno_systemError .acces]
  exact failsToList_of_fault reaches resolves h wellFormed short place .zero (hrun _)

variable (limited : 0 < e.listingLimit) (readable : e.caller.allows node Caller.mayRead = true)
  (sendable : Sendable e state.2.store (e.root ++ below) place node)
include limited readable sendable

theorem failsToList_of_barrier {fault : Fault}
    (barred : (state.2.store.names place).findSome? (barrier? e.caller (e.root ++ below) node) =
      some fault) :
    s.FailsToList (Client.link peer reaches) given state fault.systemError.errno := by
  -- The pages before the one with the first barred entry are served, and that one is not.
  obtain ⟨k, hk, hclear, hbarred⟩ := Export.exists_page_of_findSome? limited barred
  have hturns := turns_pageAt wellFormed short hbelow leads readable peer reaches limited
    hk hclear fun i hi => sendable i (hi.trans hk) (hclear i hi)
  have hrun := Export.run_getListing_of_readable hbelow leads wellFormed readable k
  rw [hbarred] at hrun
  exact failsToList_of_fault reaches resolves h wellFormed short place hturns hrun

theorem listsWhole_of_clear (clear : ∀ name ∈ state.2.store.names place,
      barrier? e.caller (e.root ++ below) node name = none) :
    s.ListsWhole (Client.link peer reaches) e given src place state := by
  have hclear (k : ℕ) : (e.namesAt state.2.store place k).findSome?
      (barrier? e.caller (e.root ++ below) node) = none :=
    List.findSome?_eq_none_iff.mpr fun name hname =>
      clear name (Export.mem_names_of_mem_namesAt hname)
  obtain ⟨count, hcount⟩ : ∃ count, count + 1 = e.pageCount (state.2.store.names place).length :=
    ⟨_, Nat.succ_pred_eq_of_pos (e.pageCount_pos _)⟩
  have hlt : count < e.pageCount (state.2.store.names place).length :=
    hcount ▸ Nat.lt_succ_self count
  have hturns := turns_pageAt wellFormed short hbelow leads readable peer reaches limited
    hlt (fun k _ => hclear k) fun k hk => sendable k (hk.trans hlt) (hclear k)
  have hinfos : ((List.range (count + 1)).flatMap fun k =>
        (e.pageAt state.2.store place k).infos (s.entryFront src)) =
      (e.statuses state.2.store place (state.2.store.names place)).map
        (FileInfo.ofStatus · (s.entryFront src)) := by
    rw [hcount, ← Export.flatMap_pageAt limited, List.map_flatMap]
    rfl
  refine ⟨_, (List.range (count + 1)).map
    (turn src (e.cursorAt state.2.store place) (e.pageAt state.2.store place)),
    s.enumerates_statuses e wellFormed src place, ?_, fun bound hbound => ?_⟩
  · rw [List.map_map, List.length_map, Export.length_statuses, hcount]
    rfl
  · rw [List.length_map, List.length_range] at hbound
    obtain ⟨next, ⟨-, hstore⟩, hrun, hnoted⟩ := hturns.run_listDirectory resolves
      (Export.cursorAt_zero e _ place) ⟨h.served, rfl⟩ (fun u hu => hu.call_page wellFormed short
        hbelow leads readable reaches (hclear count) (sendable count hlt (hclear count)))
      (Export.remaining_pageAt limited hcount) hbound
    rw [hinfos] at hrun hnoted
    exact ⟨next, hrun, hnoted, hstore⟩

end Told

/-- A directory that does not change: as long as the server may read it and look at its entries, it
is listed whole. Otherwise the listing fails as the path does, the reading, or the first entry that
cannot be looked at, and under a path that does not fit in a message nothing is asked for. -/
theorem listing_told (reaches : Address → Bool) (h : s.Attached e peer state)
    (wellFormed : state.2.store.WellFormed) (limited : 0 < e.listingLimit)
    (resolves : s.workingDirectory.resolve given = .ok src) {path : TreePath}
    (hpath : e.Places src path) :
    let link := Client.link peer reaches
    (Wire.textLimit < src.utf8ByteSize → s.RefusesToList peer reaches given .nametoolong) ∧
    (src.utf8ByteSize ≤ Wire.textLimit →
      (∀ fault, status state.2.store e.caller path = .error fault →
        s.FailsToList link given state fault.systemError.errno) ∧
      ∀ place node, LeadsInto state.2.store e.caller path place node →
        (e.caller.allows node Caller.mayRead = false → s.FailsToList link given state .acces) ∧
        (e.caller.allows node Caller.mayRead = true →
          Sendable e state.2.store path place node →
          (∀ fault, (state.2.store.names place).findSome? (barrier? e.caller path node) =
              some fault → s.FailsToList link given state fault.systemError.errno) ∧
          ((∀ name, (state.2.store.get? (place ++ [name])).isSome →
              barrier? e.caller path node name = none) →
            s.ListsWhole link e given src place state))) := by
  obtain ⟨below, hbelow, rfl⟩ := hpath
  refine ⟨refusesToList_of_long reaches resolves peer, fun short => ⟨fun fault hstatus => ?_, ?_⟩⟩
  · exact failsToList_of_status reaches resolves h wellFormed short hbelow hstatus
  intro place node leads
  refine ⟨fun unreadable => ?_, fun readable sendable => ⟨fun fault barred => ?_, fun clear => ?_⟩⟩
  · exact failsToList_of_unreadable reaches resolves h wellFormed short hbelow leads unreadable
  · exact failsToList_of_barrier reaches resolves h wellFormed short hbelow leads limited readable
      sendable barred
  · exact listsWhole_of_clear reaches resolves h wellFormed short hbelow leads limited readable
      sendable fun name hname => clear name (Tree.mem_names.mp hname)

/-- Pages of one entry. -/
def paged : Export :=
  { Export.exported with listingLimit := 1 }

theorem listing_told_sealed :
    ∃ (s : Session) (state : Client.Connection × Server.Connection Tree Request),
      let link := Client.link (Server.sequential paged.namesystem "nn") fun _ => true
      state.2.store = sealed ∧ s.ListsWhole link paged "/" "/" [[101]] state := by
  obtain ⟨s, state, hhome, hattached, hstore⟩ := exists_attached_home paged sealed
  have hosts : paged.Hosts sealed := hosts_sealed rfl rfl
  have hresolve : s.workingDirectory.resolve "/" = .ok "/" := by
    rw [hhome]
    cbv
  have hplace : paged.Places "/" [[101]] := ⟨[], ⟨[], by cbv, by cbv⟩, rfl⟩
  have hleads : LeadsInto sealed paged.caller [[101]] [[101]]
      { kind := .directory, mode := 0o755 } := ⟨by cbv, by decide, rfl⟩
  have hnames : sealed.names [[101]] = [[97], [100]] := by cbv
  obtain ⟨-, hshort⟩ := listing_told (fun _ => true) hattached
    (by rw [hstore]; exact hosts.wellFormed) (by decide) hresolve hplace
  obtain ⟨-, htold⟩ := hshort (by decide)
  rw [hstore] at htold
  obtain ⟨-, hreadable⟩ := htold _ _ hleads
  refine ⟨s, state, hstore, (hreadable (by decide) ?_).2 ?_⟩
  · simp only [Sendable, Export.pageAt, Export.namesAt, hnames]
    decide +kernel
  · intro name hname
    have hmem : name ∈ sealed.names [[101]] := Tree.mem_names.mpr hname
    rw [hnames, List.mem_pair] at hmem
    rcases hmem with rfl | rfl <;> rfl

theorem FailsToList.not_listsWhole {reaches : Address → Bool} {errno : Errno}
    (h : s.FailsToList (Client.link peer reaches) given state errno) :
    ¬s.ListsWhole (Client.link peer reaches) e given src place state := by
  obtain ⟨error, -, enough, hfails⟩ := h
  rintro ⟨infos, trips, -, -, hlists⟩
  obtain ⟨next, hrun, -⟩ := hlists (max enough trips.length) (le_max_right _ _)
  obtain ⟨next', hfailed, -⟩ := hfails (max enough trips.length) (le_max_left _ _)
  rw [hrun] at hfailed
  cases hfailed

/-- There are directories that a session cannot list, though nothing changes and all replies could
be sent: one with a file in it that the server may not read. -/
theorem listing_withheld :
    sealed.Linkless ∧ guarded.Hosts sealed ∧ 0 < guarded.listingLimit ∧
    (∃ node, LeadsInto sealed guarded.caller [[101], [100]] [[101], [100]] node ∧
      Sendable guarded sealed [[101], [100]] [[101], [100]] node) ∧
    sealed.names [[101], [100]] = [[102]] ∧
    ∃ (s : Session) (state : Client.Connection × Server.Connection Tree Request),
      let link := Client.link (Server.sequential guarded.namesystem "nn") fun _ => true
      s.Attached guarded (Server.sequential guarded.namesystem "nn") state ∧
      state.2.store = sealed ∧ s.workingDirectory.resolve "/d" = .ok "/d" ∧
      guarded.Places "/d" [[101], [100]] ∧ s.FailsToList link "/d" state .acces ∧
      ¬s.ListsWhole link guarded "/d" "/d" [[101], [100]] state := by
  obtain ⟨s, state, hhome, hattached, hstore⟩ := exists_attached_home guarded sealed
  have hosts : guarded.Hosts sealed := hosts_sealed rfl rfl
  have hresolve : s.workingDirectory.resolve "/d" = .ok "/d" := by
    rw [hhome]
    cbv
  have hbelow : Export.Spells "/d" [[100]] := ⟨["d"], by cbv, by cbv⟩
  have hleads : LeadsInto sealed guarded.caller [[101], [100]] [[101], [100]]
      { kind := .directory, mode := 0 } := ⟨by cbv, by decide, rfl⟩
  have hnames : sealed.names [[101], [100]] = [[102]] := by cbv
  have hfails : s.FailsToList (Client.link (Server.sequential guarded.namesystem "nn")
      fun _ => true) "/d" state .acces :=
    failsToList_of_unreadable (fun _ => true) hresolve hattached
      (by rw [hstore]; exact hosts.wellFormed) (by decide) hbelow (by rw [hstore]; exact hleads)
      (by decide)
  refine ⟨linkless_sealed, hosts, by decide, ⟨_, hleads, ?_⟩, hnames, s, state, hattached, hstore,
    hresolve, ⟨_, hbelow, rfl⟩, hfails, hfails.not_listsWhole⟩
  simp only [Sendable, Export.pageAt, Export.namesAt, hnames]
  decide +kernel

end Served

end Session

end MetaFs
