import Mathlib
import MetaFs.Listing
/-! A directory is listed page by page, whatever the authority answers. The pages decide what comes
out and which requests are made, up to the first reply that is no page to go on from. -/

namespace MetaFs

variable {σ : Type}

/-- A request and what came back for it. -/
structure Trip where
  request : Request
  reply : Except Error Body

/-- The same link, which keeps the trips beside the state of the authority. -/
def Link.noting (link : Link σ) : Link (σ × List Trip) where
  start address user := ExceptT.mk do
    let (state, trips) ← get
    let (outcome, next) := (link.start address user).run.run state
    set (next, trips)
    return outcome
  call request := ExceptT.mk do
    let (state, trips) ← get
    let (reply, next) := (link.call request).run.run state
    set (next, trips ++ [⟨request, reply⟩])
    return reply
  finish := do
    let (state, trips) ← get
    set ((link.finish.run state).2, trips)

theorem Link.run_call_noting {link : Link σ} {request : Request} {reply : Except Error Body}
    {state next : σ} (h : (link.call request).run.run state = (reply, next)) (trips : List Trip) :
    (link.noting.call request).run.run (state, trips) =
      (reply, next, trips ++ [⟨request, reply⟩]) := by
  show (((link.call request).run.run state).1, ((link.call request).run.run state).2,
    trips ++ [⟨request, ((link.call request).run.run state).1⟩]) = _
  rw [h]

namespace Page

def reply (page : Page) : Except Error Body := .ok (.reply (.getListing (some page)))

/-- There is more to ask for, and a name to go on from. -/
def Continues (page : Page) : Prop := page.entries ≠ [] ∧ page.remaining ≠ 0

instance : DecidablePred Continues := fun page =>
  inferInstanceAs (Decidable (page.entries ≠ [] ∧ page.remaining ≠ 0))

/-- The raw name of the last entry. -/
def cursor (page : Page) : Data :=
  (page.entries.getLast?.map FileStatus.path).getD {}

def infos (front : String) (page : Page) : List FileInfo :=
  page.entries.map (FileInfo.ofStatus · front)

end Page

namespace Session

/-- What errors say of the page that was asked for. -/
def pageContext (path : String) (cursor : Data) : String :=
  s!"list_directory(path={path}, prev={cursor.lossyText})"

/-- A reply from which the listing cannot go on, and the error that it leads to. That of a failed
request keeps its number and its cause (`Error.errno_prepend`, `Error.cause_prepend`). -/
inductive Breaks (path : String) (cursor : Data) : Except Error Body → Error → Prop where
  | failed {e : Error} : Breaks path cursor (.error e) (e.prepend (pageContext path cursor))
  | absent : Breaks path cursor (.ok (.reply (.getListing none)))
      ⟨.noent, s!"{pageContext path cursor}: no such directory", none⟩
  | stuck {page : Page} (empty : page.entries = []) (more : page.remaining ≠ 0) :
      Breaks path cursor page.reply
        ⟨.io, s!"list_directory({path}): empty page with {page.remaining} entries remaining", none⟩
  | unexpected {body : Body} (other : ∀ page, body ≠ .reply (.getListing page)) :
      Breaks path cursor (.ok body)
        ⟨.io, s!"{pageContext path cursor}: unexpected response {body.kind.name}", none⟩

theorem reply_cases (path : String) (cursor : Data) (reply : Except Error Body) :
    (∃ page : Page, reply = page.reply ∧ page.Continues) ∨
    (∃ page : Page, reply = page.reply ∧ page.remaining = 0) ∨
    ∃ e, Breaks path cursor reply e := by
  by_cases hpage : ∃ page : Page, reply = page.reply
  · obtain ⟨page, rfl⟩ := hpage
    by_cases hmore : page.remaining = 0
    · exact .inr (.inl ⟨page, rfl, hmore⟩)
    · by_cases hempty : page.entries = []
      · exact .inr (.inr ⟨_, .stuck hempty hmore⟩)
      · exact .inl ⟨page, rfl, hempty, hmore⟩
  · refine .inr (.inr ?_)
    cases reply with
    | error e => exact ⟨_, .failed⟩
    | ok body =>
      by_cases hlisting : ∃ listing, body = .reply (.getListing listing)
      · obtain ⟨listing, rfl⟩ := hlisting
        cases listing with
        | none => exact ⟨_, .absent⟩
        | some page => exact absurd ⟨page, rfl⟩ hpage
      · exact ⟨_, .unexpected fun page h => hlisting ⟨page, h⟩⟩

section Steps

variable {link : Link σ} {path front : String} {cursor : Data} {before : List FileInfo}
  {state next : σ} (bound : ℕ)

theorem run_call {context : String} {request : Request} {reply : Except Error Body}
    (h : (link.call request).run.run state = (reply, next)) :
    (call link context request).run.run state =
      (reply.mapError (Error.prepend context), next) := by
  rw [call, Over.run_within, h]

theorem run_listPage {page : Page}
    (h : (link.call (.getListing path cursor false)).run.run state = (page.reply, next)) :
    (listPage link path cursor).run.run state = (.ok page, next) :=
  Over.run_bind_of_ok (run_call h)

/-- A page with a name to go on from is put behind what was collected before. -/
theorem run_listFrom_of_continues {page : Page} (continues : page.Continues)
    (h : (link.call (.getListing path cursor false)).run.run state = (page.reply, next)) :
    (listFrom link path front (bound + 1) cursor before).run.run state =
      (listFrom link path front bound page.cursor (before ++ page.infos front)).run.run next := by
  obtain ⟨hentries, hmore⟩ := continues
  have hlast := List.getLast?_eq_some_getLast hentries
  refine (Over.run_bind_of_ok (run_listPage h)).trans ?_
  rw [hlast]
  dsimp only
  rw [if_neg hmore, Page.cursor, hlast]
  rfl

/-- Nothing is asked for behind the last page. -/
theorem run_listFrom_of_ends {page : Page} (ends : page.remaining = 0)
    (h : (link.call (.getListing path cursor false)).run.run state = (page.reply, next)) :
    (listFrom link path front (bound + 1) cursor before).run.run state =
      (.ok (some (before ++ page.infos front)), next) := by
  refine (Over.run_bind_of_ok (run_listPage h)).trans ?_
  cases hlast : page.entries.getLast? with
  | none =>
    have hnil : page.entries = [] := List.getLast?_eq_none_iff.mp hlast
    dsimp only
    rw [if_pos ends, Page.infos, hnil, List.map_nil, List.append_nil]
    rfl
  | some last =>
    dsimp only
    rw [if_pos ends]
    rfl

theorem run_listFrom_of_breaks {reply : Except Error Body} {e : Error}
    (breaks : Breaks path cursor reply e)
    (h : (link.call (.getListing path cursor false)).run.run state = (reply, next)) :
    (listFrom link path front (bound + 1) cursor before).run.run state = (.error e, next) := by
  cases breaks with
  | failed => exact Over.run_bind_of_error (Over.run_bind_of_error (run_call h))
  | absent => exact Over.run_bind_of_error ((Over.run_bind_of_ok (run_call h)).trans rfl)
  | @stuck page empty more =>
    refine (Over.run_bind_of_ok (run_listPage h)).trans ?_
    rw [empty]
    dsimp only [List.getLast?_nil]
    rw [if_neg more]
    rfl
  | @unexpected body other =>
    refine Over.run_bind_of_error ((Over.run_bind_of_ok (run_call h)).trans ?_)
    split
    · rename_i page
      exact absurd rfl (other (some page))
    · exact absurd rfl (other none)
    · rfl

end Steps

/-- The cursors of the requests that get these replies, from the given one on. -/
def cursors : Data → List (Except Error Body) → List Data
  | _, [] => []
  | cursor, reply :: rest =>
    let next := match reply with
      | .ok (.reply (.getListing (some page))) => page.cursor
      | _ => {}
    cursor :: cursors next rest

/-- The requests that get these replies. -/
def pageRequests (path : String) (cursor : Data) (replies : List (Except Error Body)) :
    List Request :=
  (cursors cursor replies).map fun cursor => .getListing path cursor false

/-- The cursor behind some pages. -/
def cursorAfter (cursor : Data) (pages : List Page) : Data :=
  (pages.getLast?.map Page.cursor).getD cursor

/-- How a listing from a cursor on can go: the replies in turn, and what comes out. -/
inductive Lists (path front : String) (bound : ℕ) (cursor : Data) (before : List FileInfo) :
    List (Except Error Body) → Except Error (Option (List FileInfo)) → Prop where
  | complete {pages : List Page} {last : Page} (continue_ : ∀ page ∈ pages, page.Continues)
      (ends : last.remaining = 0) (room : pages.length < bound) :
      Lists path front bound cursor before ((pages ++ [last]).map Page.reply)
        (.ok (some (before ++ (pages ++ [last]).flatMap (Page.infos front))))
  | broken {pages : List Page} {reply : Except Error Body} {e : Error}
      (continue_ : ∀ page ∈ pages, page.Continues)
      (breaks : Breaks path (cursorAfter cursor pages) reply e) (room : pages.length < bound) :
      Lists path front bound cursor before (pages.map Page.reply ++ [reply]) (.error e)
  | unfinished {pages : List Page} (continue_ : ∀ page ∈ pages, page.Continues)
      (all : pages.length = bound) :
      Lists path front bound cursor before (pages.map Page.reply) (.ok none)

theorem cursorAfter_cons (cursor : Data) (page : Page) (pages : List Page) :
    cursorAfter cursor (page :: pages) = cursorAfter page.cursor pages := by
  cases h : pages.getLast? with
  | none =>
    rw [List.getLast?_eq_none_iff.mp h]
    rfl
  | some last =>
    rw [cursorAfter, List.getLast?_cons, h, cursorAfter, h]
    rfl

/-- A page in front of what follows it. -/
theorem Lists.cons {path front : String} {bound : ℕ} {cursor : Data} {before : List FileInfo}
    {page : Page} {replies : List (Except Error Body)}
    {outcome : Except Error (Option (List FileInfo))} (continues : page.Continues)
    (h : Lists path front bound page.cursor (before ++ page.infos front) replies outcome) :
    Lists path front (bound + 1) cursor before (page.reply :: replies) outcome := by
  cases h with
  | @complete pages last continue_ ends room =>
    have hout : before ++ page.infos front ++ (pages ++ [last]).flatMap (Page.infos front) =
        before ++ (page :: pages ++ [last]).flatMap (Page.infos front) := by
      rw [List.append_assoc, List.cons_append, List.flatMap_cons]
    rw [hout]
    exact .complete (List.forall_mem_cons.mpr ⟨continues, continue_⟩) ends (Nat.succ_lt_succ room)
  | @broken pages reply e continue_ breaks room =>
    rw [← cursorAfter_cons cursor] at breaks
    exact .broken (List.forall_mem_cons.mpr ⟨continues, continue_⟩) breaks (Nat.succ_lt_succ room)
  | unfinished continue_ all =>
    exact .unfinished (List.forall_mem_cons.mpr ⟨continues, continue_⟩) (congrArg (· + 1) all)

/-- Listing from a cursor on, with the trips that it makes. -/
theorem lists_listFrom (link : Link σ) (path front : String) (bound : ℕ) (cursor : Data)
    (before : List FileInfo) (state : σ) (earlier : List Trip) :
    ∃ (outcome : Except Error (Option (List FileInfo))) (next : σ) (trips : List Trip),
      (listFrom link path front bound cursor before).run.run state = (outcome, next) ∧
      (listFrom link.noting path front bound cursor before).run.run (state, earlier) =
        (outcome, next, earlier ++ trips) ∧
      trips.map Trip.request = pageRequests path cursor (trips.map Trip.reply) ∧
      Lists path front bound cursor before (trips.map Trip.reply) outcome := by
  have hnone : ∀ page ∈ ([] : List Page), page.Continues := by simp
  -- Each page that continues uses up one of the bound; what has been collected stays general.
  induction bound generalizing cursor before state earlier with
  | zero =>
    refine ⟨.ok none, state, [], rfl, ?_, rfl, .unfinished hnone rfl⟩
    rw [List.append_nil]
    rfl
  | succ bound ih =>
    let request := Request.getListing path cursor false
    obtain ⟨reply, next, hcall⟩ : ∃ reply next,
        (link.call request).run.run state = (reply, next) := ⟨_, _, rfl⟩
    have hnoted := Link.run_call_noting hcall earlier
    rcases reply_cases path cursor reply with ⟨page, rfl, hcont⟩ | ⟨page, rfl, hends⟩ | ⟨e, hbreaks⟩
    · obtain ⟨outcome, last, trips, hrun, hrun', hrequests, hlists⟩ :=
        ih page.cursor (before ++ page.infos front) next (earlier ++ [⟨request, page.reply⟩])
      refine ⟨outcome, last, ⟨request, page.reply⟩ :: trips, ?_, ?_, ?_, hlists.cons hcont⟩
      · rw [run_listFrom_of_continues bound hcont hcall, hrun]
      · rw [run_listFrom_of_continues bound hcont hnoted, hrun', List.append_assoc]
        rfl
      · rw [List.map_cons, hrequests]
        rfl
    · refine ⟨_, next, [⟨request, page.reply⟩], run_listFrom_of_ends bound hends hcall,
        run_listFrom_of_ends bound hends hnoted, rfl, ?_⟩
      have hlast : Lists path front (bound + 1) cursor before (([] ++ [page]).map Page.reply)
          (.ok (some (before ++ ([] ++ [page]).flatMap (Page.infos front)))) :=
        .complete hnone hends (Nat.succ_pos bound)
      simpa using hlast
    · exact ⟨.error e, next, [⟨request, reply⟩], run_listFrom_of_breaks bound hbreaks hcall,
        run_listFrom_of_breaks bound hbreaks hnoted, rfl,
        .broken hnone hbreaks (Nat.succ_pos bound)⟩

/-- A larger bound makes no difference to a listing that comes to its end. -/
theorem run_listFrom_of_le (link : Link σ) (path front : String) {bound more : ℕ} (cursor : Data)
    (before : List FileInfo) (state : σ) (hle : bound ≤ more)
    (h : ((listFrom link path front bound cursor before).run.run state).1 ≠ .ok none) :
    (listFrom link path front more cursor before).run.run state =
      (listFrom link path front bound cursor before).run.run state := by
  -- Both runs get the same replies, and differ only where the smaller bound is used up.
  induction bound generalizing more cursor before state with
  | zero => exact absurd rfl h
  | succ bound ih =>
    obtain ⟨more, rfl⟩ : ∃ more', more = more' + 1 := ⟨more - 1, by omega⟩
    obtain ⟨reply, next, hcall⟩ : ∃ reply next,
        (link.call (.getListing path cursor false)).run.run state = (reply, next) := ⟨_, _, rfl⟩
    rcases reply_cases path cursor reply with ⟨page, rfl, hcont⟩ | ⟨page, rfl, hends⟩ | ⟨e, hbreaks⟩
    · rw [run_listFrom_of_continues bound hcont hcall] at h ⊢
      rw [run_listFrom_of_continues more hcont hcall]
      exact ih page.cursor (before ++ page.infos front) next (Nat.le_of_succ_le_succ hle) h
    · rw [run_listFrom_of_ends bound hends hcall, run_listFrom_of_ends more hends hcall]
    · rw [run_listFrom_of_breaks bound hbreaks hcall, run_listFrom_of_breaks more hbreaks hcall]

theorem reply_injective {page page' : Page} (h : page.reply = page'.reply) : page = page' := by
  have hbody : Body.reply (.getListing (some page)) = .reply (.getListing (some page')) :=
    Except.ok.inj h
  injection hbody with hreply
  injection hreply with hpage
  exact Option.some.inj hpage

/-- A page is broken only by being empty with more to come. -/
theorem Breaks.of_page {path : String} {cursor : Data} {page : Page} {e : Error}
    (h : Breaks path cursor page.reply e) :
    page.entries = [] ∧ page.remaining ≠ 0 ∧
      e = ⟨.io, s!"list_directory({path}): empty page with {page.remaining} entries remaining",
        none⟩ := by
  -- The index of `Breaks` has to be a variable before the cases can be told apart.
  generalize hreply : page.reply = reply at h
  cases h with
  | failed => cases hreply
  | absent => cases hreply
  | stuck empty more =>
    obtain rfl := reply_injective hreply
    exact ⟨empty, more, rfl⟩
  | unexpected other =>
    cases hreply
    exact absurd rfl (other (some page))

theorem Breaks.unique {path : String} {cursor : Data} {reply : Except Error Body} {e e' : Error}
    (h : Breaks path cursor reply e) (h' : Breaks path cursor reply e') : e = e' := by
  cases h with
  | failed =>
    cases h'
    rfl
  | absent =>
    cases h' with
    | absent => rfl
    | unexpected other => exact absurd rfl (other none)
  | stuck => exact h'.of_page.2.2.symm
  | unexpected other =>
    cases h' with
    | absent => exact absurd rfl (other none)
    | stuck => exact absurd rfl (other _)
    | unexpected => rfl

/-- What a listing comes to, given the replies to its requests. -/
structure Listed (path front : String) (bound : ℕ) (replies : List (Except Error Body))
    (outcome : Except Error (Option (List FileInfo))) : Prop where
  complete : ∀ infos, outcome = .ok (some infos) ↔ ∃ (pages : List Page) (last : Page),
    (∀ page ∈ pages, page.Continues) ∧ last.remaining = 0 ∧
      replies = (pages ++ [last]).map Page.reply ∧
      infos = (pages ++ [last]).flatMap (Page.infos front)
  broken : ∀ e, outcome = .error e ↔ ∃ (pages : List Page) (reply : Except Error Body),
    (∀ page ∈ pages, page.Continues) ∧ replies = pages.map Page.reply ++ [reply] ∧
      Breaks path (cursorAfter {} pages) reply e
  /-- Only a bound that is too small leaves a listing without an outcome. -/
  unfinished : outcome = .ok none ↔ ∃ pages : List Page,
    (∀ page ∈ pages, page.Continues) ∧ pages.length = bound ∧ replies = pages.map Page.reply

section Shapes

/-! The three shapes that the replies can have exclude each other. -/

variable {path : String} {cursor : Data} {pages pages' : List Page} {last : Page}
  {reply : Except Error Body} {e : Error}

theorem map_reply_injective : Function.Injective (List.map Page.reply) :=
  List.map_injective_iff.mpr fun _ _ => reply_injective

theorem not_continues_of_breaks (h : Breaks path cursor last.reply e) : ¬last.Continues :=
  fun hcont => hcont.1 h.of_page.1

theorem map_reply_ne_of_ends (continue_ : ∀ page ∈ pages', page.Continues)
    (ends : last.remaining = 0) :
    pages'.map Page.reply ≠ (pages ++ [last]).map Page.reply := by
  intro h
  obtain rfl := map_reply_injective h
  exact (continue_ last (by simp)).2 ends

theorem map_reply_ne_of_breaks (continue_ : ∀ page ∈ pages', page.Continues)
    (breaks : Breaks path cursor reply e) :
    pages'.map Page.reply ≠ pages.map Page.reply ++ [reply] := by
  intro h
  have hmem : reply ∈ pages'.map Page.reply := by simp [h]
  obtain ⟨page, hpage, rfl⟩ := List.mem_map.mp hmem
  exact not_continues_of_breaks breaks (continue_ page hpage)

theorem map_reply_ends_ne_breaks (ends : last.remaining = 0)
    (breaks : Breaks path cursor reply e) :
    (pages ++ [last]).map Page.reply ≠ pages'.map Page.reply ++ [reply] := by
  intro h
  rw [List.map_append, List.map_singleton] at h
  obtain ⟨-, hlast⟩ := List.append_inj' h rfl
  obtain rfl := (List.cons.inj hlast).1
  exact breaks.of_page.2.1 ends

end Shapes

theorem Lists.listed {path front : String} {bound : ℕ} {replies : List (Except Error Body)}
    {outcome : Except Error (Option (List FileInfo))}
    (h : Lists path front bound {} [] replies outcome) :
    Listed path front bound replies outcome := by
  -- The shape at hand gives one equivalence; the others hold as the shapes exclude each other.
  cases h with
  | @complete pages last continue_ ends room =>
    rw [List.nil_append]
    refine ⟨fun infos => ⟨?_, ?_⟩, fun e => ⟨(fun h => nomatch h), ?_⟩, (fun h => nomatch h), ?_⟩
    · rintro ⟨⟩
      exact ⟨pages, last, continue_, ends, rfl, rfl⟩
    · rintro ⟨pages', last', -, -, hreplies, rfl⟩
      rw [map_reply_injective hreplies]
    · rintro ⟨pages', reply, -, hreplies, breaks⟩
      exact absurd hreplies (map_reply_ends_ne_breaks ends breaks)
    · rintro ⟨pages', continue', -, hreplies⟩
      exact absurd hreplies.symm (map_reply_ne_of_ends continue' ends)
  | @broken pages reply e continue_ breaks room =>
    refine ⟨fun infos => ⟨(fun h => nomatch h), ?_⟩, fun e' => ⟨?_, ?_⟩, (fun h => nomatch h), ?_⟩
    · rintro ⟨pages', last, -, ends, hreplies, -⟩
      exact absurd hreplies.symm (map_reply_ends_ne_breaks ends breaks)
    · rintro ⟨⟩
      exact ⟨pages, reply, continue_, rfl, breaks⟩
    · rintro ⟨pages', reply', -, hreplies, breaks'⟩
      obtain ⟨hpages, hreply⟩ := List.append_inj' hreplies rfl
      obtain rfl := map_reply_injective hpages
      obtain rfl := (List.cons.inj hreply).1
      rw [breaks.unique breaks']
    · rintro ⟨pages', continue', -, hreplies⟩
      exact absurd hreplies.symm (map_reply_ne_of_breaks continue' breaks)
  | @unfinished pages continue_ all =>
    refine ⟨fun infos => ⟨(fun h => nomatch h), ?_⟩, fun e => ⟨(fun h => nomatch h), ?_⟩,
      fun _ => ⟨pages, continue_, all, rfl⟩, fun _ => rfl⟩
    · rintro ⟨pages', last, -, ends, hreplies, -⟩
      exact absurd hreplies (map_reply_ne_of_ends continue_ ends)
    · rintro ⟨pages', reply, -, hreplies, breaks⟩
      exact absurd hreplies (map_reply_ne_of_breaks continue_ breaks)

/-- The text in front of the names of a directory's entries, which ends in one slash. -/
def entryFront (s : Session) (path : String) : String :=
  s.profile.urlPrefix ++ path ++ if path.toList.getLast? = some '/' then "" else "/"

theorem run_listDirectory (s : Session) (link : Link σ) (bound : ℕ) {given path : String}
    (resolves : s.workingDirectory.resolve given = .ok path) (state : σ) :
    (s.listDirectory link bound given).run.run state =
      (listFrom link path (s.entryFront path) bound {} []).run.run state := by
  have hpath : (s.path "list_directory" given : Over σ String).run.run state =
      (.ok path, state) := by
    rw [Session.path, resolves]
    rfl
  have hfront : (if path.toList.getLast? = some '/' then s.profile.urlPrefix ++ path
      else s.profile.urlPrefix ++ path ++ "/") = s.entryFront path := by
    rw [entryFront]
    split_ifs
    · exact String.append_empty.symm
    · rfl
  refine (Over.run_bind_of_ok hpath).trans ?_
  dsimp only
  rw [hfront]

/-- A directory is listed whole if its pages come to their end, and not at all if a reply breaks
them. Each page is asked for behind the last name of the page before it, and nothing is asked for
behind the last page or a reply that breaks them. -/
theorem listDirectory_listed (s : Session) (link : Link σ) (bound : ℕ) {given path : String}
    (resolves : s.workingDirectory.resolve given = .ok path) (state : σ) :
    ∃ (outcome : Except Error (Option (List FileInfo))) (next : σ) (trips : List Trip),
      (s.listDirectory link bound given).run.run state = (outcome, next) ∧
      (s.listDirectory link.noting bound given).run.run (state, []) = (outcome, next, trips) ∧
      trips.map Trip.request = pageRequests path {} (trips.map Trip.reply) ∧
      Listed path (s.entryFront path) bound (trips.map Trip.reply) outcome ∧
      (outcome ≠ .ok none → ∀ more ≥ bound,
        (s.listDirectory link more given).run.run state = (outcome, next)) := by
  obtain ⟨outcome, next, trips, hrun, hnoted, hrequests, hlists⟩ :=
    lists_listFrom link path (s.entryFront path) bound {} [] state []
  have hlisted := run_listDirectory s link bound resolves state
  have hlisted' := run_listDirectory s link.noting bound resolves (state, [])
  refine ⟨outcome, next, trips, hlisted.trans hrun, hlisted'.trans hnoted, hrequests,
    hlists.listed, fun hend more hle => ?_⟩
  rw [run_listDirectory s link more resolves state,
    run_listFrom_of_le link path (s.entryFront path) {} [] state hle (by rwa [hrun]), hrun]

/-- An authority that gives these replies in turn. -/
def scripted : Link (List (Except Error Body)) where
  start _ _ := return
  call _ := ExceptT.mk do
    match ← get with
    | [] => return .error ⟨.io, "connection reset", none⟩
    | reply :: rest =>
      set rest
      return reply
  finish := return

def sampleHome : WorkingDirectory := ⟨⟨⟨['h', 'd', 'f', 's'],
  some { host := ['n', 'n'] }, .rooted [[]], none, none⟩, "/"⟩⟩

def sampleSession : Session where
  profile := {
    address := ⟨"nn", 8020⟩
    scheme := "hdfs"
    authority := "nn"
    user := "user"
    urlPrefix := "hdfs://nn"
    home := sampleHome
    umask := 18
    deadNodeMillis := 10000 }
  workingDirectory := sampleHome
  blockSize := 134217728

def sampleStatus (name : List UInt8) : FileStatus where
  fileType := .file
  path := ⟨name⟩
  length := 1
  permission := 420
  owner := "user"
  group := "group"
  modificationTime := 1999
  accessTime := 0
  blockReplication := none
  blockSize := none

/-- The first page ends in a name that is no text. -/
def samplePages : List Page :=
  [⟨[sampleStatus [97], sampleStatus [98, 255]], 1⟩, ⟨[sampleStatus [99]], 0⟩]

theorem listDirectory_listed_sample :
    sampleSession.workingDirectory.resolve "data" = .ok "/data" ∧
    ∃ (next : List (Except Error Body)) (trips : List Trip),
      (sampleSession.listDirectory scripted 5 "data").run.run (samplePages.map Page.reply) =
        (.ok (some (samplePages.flatMap (Page.infos "hdfs://nn/data/"))), next) ∧
      trips.map Trip.reply = samplePages.map Page.reply ∧
      trips.map Trip.request =
        [.getListing "/data" {} false, .getListing "/data" ⟨[98, 255]⟩ false] := by
  have resolves : sampleSession.workingDirectory.resolve "data" = .ok "/data" := by
    decide +kernel
  have hfront : sampleSession.entryFront "/data" = "hdfs://nn/data/" := by
    decide +kernel
  obtain ⟨outcome, next, trips, hrun, hnoted, hrequests, hlisted, -⟩ :=
    listDirectory_listed sampleSession scripted 5 resolves (samplePages.map Page.reply)
  have hreplies : trips.map Trip.reply = samplePages.map Page.reply := by
    rw [run_listDirectory sampleSession scripted.noting 5 resolves] at hnoted
    obtain ⟨-, hrest⟩ := Prod.mk.inj hnoted
    obtain ⟨-, rfl⟩ := Prod.mk.inj hrest
    rfl
  have houtcome : outcome = .ok (some (samplePages.flatMap (Page.infos "hdfs://nn/data/"))) := by
    rw [hfront] at hlisted
    apply (hlisted.complete _).mpr
    exact ⟨samplePages.dropLast, samplePages.getLast (by decide), by decide, rfl, hreplies, rfl⟩
  rw [houtcome] at hrun
  rw [hreplies] at hrequests
  exact ⟨resolves, next, trips, hrun, hreplies, hrequests⟩

end Session

end MetaFs
