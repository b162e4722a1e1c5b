import Mathlib
import MetaFs.Proofs.Resolving
/-! Which paths leave a session. Every operation resolves its texts before it sends anything, and
what it sends names the resolved paths and no others. -/

namespace MetaFs

namespace Over

variable {σ α β : Type} {paths : List String} {x : Over σ α} {y : Over (σ × List Trip) α}
  {f : α → Over σ β} {g : α → Over (σ × List Trip) β}

/-- Both fail with the same invalid argument before anything happens. -/
def Refused (x : Over σ α) (y : Over (σ × List Trip) α) : Prop :=
  ∀ state trips, ∃ e : Error, e.errno = .inval ∧ x.run.run state = (.error e, state) ∧
    y.run.run (state, trips) = (.error e, state, trips)

/-- Both go alike, and nothing is sent. -/
def Quiet (x : Over σ α) (y : Over (σ × List Trip) α) : Prop :=
  ∀ state trips, y.run.run (state, trips) =
    ((x.run.run state).1, (x.run.run state).2, trips)

/-- Both go alike, and something is sent, but nothing that names other paths than these. -/
def Sends (paths : List String) (x : Over σ α) (y : Over (σ × List Trip) α) : Prop :=
  ∀ state trips, ∃ more : List Trip,
    more ≠ [] ∧ (∀ trip ∈ more, trip.request.paths = paths) ∧
      y.run.run (state, trips) = ((x.run.run state).1, (x.run.run state).2, trips ++ more)

theorem quiet_pure (a : α) : Quiet (pure a : Over σ α) (pure a) :=
  fun _ _ => rfl

theorem quiet_throw (e : Error) : Quiet (throw e : Over σ α) (throw e) :=
  fun _ _ => rfl

theorem refused_throw {e : Error} (h : e.errno = .inval) : Refused (throw e : Over σ α) (throw e) :=
  fun _ _ => ⟨e, h, rfl, rfl⟩

theorem Refused.bind (h : Refused x y) : Refused (x >>= f) (y >>= g) := by
  intro state trips
  obtain ⟨e, he, hx, hy⟩ := h state trips
  exact ⟨e, he, run_bind_of_error hx, run_bind_of_error hy⟩

/-- What goes on after something was sent may send more of the same. -/
theorem Sends.bind (h : Sends paths x y)
    (hf : ∀ a, Quiet (f a) (g a) ∨ Sends paths (f a) (g a)) :
    Sends paths (x >>= f) (y >>= g) := by
  intro state trips
  obtain ⟨sent, hne, hpaths, hy⟩ := h state trips
  obtain ⟨outcome, next, hx⟩ : ∃ outcome next, x.run.run state = (outcome, next) := ⟨_, _, rfl⟩
  rw [hx] at hy
  cases outcome with
  | error e =>
    rw [run_bind_of_error hx]
    exact ⟨sent, hne, hpaths, run_bind_of_error hy⟩
  | ok a =>
    rw [run_bind_of_ok hx]
    rcases hf a with hquiet | hmore
    · exact ⟨sent, hne, hpaths, (run_bind_of_ok hy).trans (hquiet next (trips ++ sent))⟩
    · obtain ⟨more, -, hmorePaths, hmore⟩ := hmore next (trips ++ sent)
      refine ⟨sent ++ more, fun h => hne (List.append_eq_nil_iff.mp h).1,
        List.forall_mem_append.mpr ⟨hpaths, hmorePaths⟩, ?_⟩
      rw [run_bind_of_ok hy, hmore, List.append_assoc]

theorem Sends.tryCatch {handle : Error → Over σ α} {handle' : Error → Over (σ × List Trip) α}
    (h : Sends paths x y) (hhandle : ∀ e, Quiet (handle e) (handle' e)) :
    Sends paths (MonadExcept.tryCatch x handle) (MonadExcept.tryCatch y handle') := by
  intro state trips
  obtain ⟨sent, hne, hpaths, hy⟩ := h state trips
  refine ⟨sent, hne, hpaths, ?_⟩
  obtain ⟨outcome, next, hx⟩ : ∃ outcome next, x.run.run state = (outcome, next) := ⟨_, _, rfl⟩
  rw [hx] at hy
  rw [run_tryCatch, run_tryCatch, hx, hy]
  cases outcome with
  | ok a => rfl
  | error e => exact hhandle e next (trips ++ sent)

end Over

namespace Session

open Over

variable {σ α : Type} {s : Session} {link : Link σ}

theorem sends_call (link : Link σ) (context : String) (request : Request) :
    Sends request.paths (call link context request) (call link.noting context request) := by
  intro state trips
  obtain ⟨reply, next, hreply⟩ :
      ∃ reply next, (link.call request).run.run state = (reply, next) := ⟨_, _, rfl⟩
  refine ⟨[⟨request, reply⟩], List.cons_ne_nil _ _, List.forall_mem_singleton.mpr rfl, ?_⟩
  rw [call, call, run_within, run_within, Link.run_call_noting hreply, hreply]

/-- One request, and what is made of its reply. -/
theorem sends_of_call {context : String} {request : Request} {paths : List String}
    {f : Body → Over σ α} {g : Body → Over (σ × List Trip) α} (hpaths : request.paths = paths)
    (hf : ∀ body, Quiet (f body) (g body)) :
    Sends paths (call link context request >>= f) (call link.noting context request >>= g) := by
  subst hpaths
  exact (sends_call link context request).bind fun body => .inl (hf body)

/-- A text that stands for no path is refused, and any other one for the path that it stands for. -/
theorem path_cases (s : Session) (operation given : String) :
    (∃ path, s.workingDirectory.resolve given = .ok path ∧
      ∀ τ, (s.path operation given : Over τ String) = pure path) ∨
    Refused (s.path operation given : Over σ String) (s.path operation given) := by
  cases hresolve : s.workingDirectory.resolve given with
  | ok path =>
    refine .inl ⟨path, rfl, fun τ => ?_⟩
    rw [Session.path, hresolve]
  | error e =>
    have herrno : e.errno = .inval := WorkingDirectory.errno_of_resolve hresolve
    rw [Session.path, Session.path, hresolve]
    exact .inr (refused_throw herrno)

/-- Either the operation is refused, or what it sends names what its texts stand for. -/
def Resolves (s : Session) (texts : List String) (x : Over σ α) (y : Over (σ × List Trip) α) :
    Prop :=
  Refused x y ∨ ∃ paths,
    List.Forall₂ (fun given path => s.workingDirectory.resolve given = .ok path) texts paths ∧
      Sends paths x y

theorem resolves_path {operation given : String} {f : String → Over σ α}
    {g : String → Over (σ × List Trip) α}
    (hf : ∀ path, Refused (f path) (g path) ∨ Sends [path] (f path) (g path)) :
    s.Resolves [given] (s.path operation given >>= f) (s.path operation given >>= g) := by
  rcases path_cases s operation given with ⟨path, hresolve, hpath⟩ | hrefused
  · rw [hpath, hpath, pure_bind, pure_bind]
    rcases hf path with hrefused | hsends
    · exact .inl hrefused
    · exact .inr ⟨[path], .cons hresolve .nil, hsends⟩
  · exact .inl hrefused.bind

theorem Resolves.bind {texts : List String} {β : Type} {x : Over σ α}
    {y : Over (σ × List Trip) α} {f : α → Over σ β} {g : α → Over (σ × List Trip) β}
    (h : s.Resolves texts x y) (hf : ∀ a, Quiet (f a) (g a)) :
    s.Resolves texts (x >>= f) (y >>= g) := by
  rcases h with hrefused | ⟨paths, hpaths, hsends⟩
  · exact .inl hrefused.bind
  · exact .inr ⟨paths, hpaths, hsends.bind fun a => .inl (hf a)⟩

/-! The operations. -/

theorem quiet_unexpected (context : String) (reply : Body) :
    Quiet (unexpected context reply : Over σ α) (unexpected context reply) :=
  quiet_throw _

theorem quiet_fail (errno : Errno) (message : String) :
    Quiet (fail errno message : Over σ α) (fail errno message) :=
  quiet_throw _

section Operations

variable (s : Session) (link : Link σ) (given : String)

theorem resolves_stat : s.Resolves [given] (s.stat link given) (s.stat link.noting given) := by
  refine resolves_path fun path => .inr (sends_of_call rfl fun body => ?_)
  split
  · exact quiet_pure _
  · exact quiet_fail _ _
  · exact quiet_unexpected _ _

/-- The error of a text that stands for no path does not say that there is nothing. -/
theorem resolves_exists :
    s.Resolves [given] (s.exists? link given) (s.exists? link.noting given) := by
  have hstat := (resolves_stat s link given).bind
    (f := fun _ => pure true) (g := fun _ => pure true) fun _ => quiet_pure _
  rcases hstat with hrefused | ⟨paths, hpaths, hsends⟩
  -- An invalid argument is of another kind than what is caught.
  · refine .inl fun state trips => ?_
    obtain ⟨e, he, hx, hy⟩ := hrefused state trips
    have hkind : e.kind ≠ .notFound := by
      rw [Error.kind, he]
      decide
    refine ⟨e, he, ?_, ?_⟩
    · rw [exists?, run_tryCatch, hx]
      dsimp only
      rw [if_neg hkind]
      rfl
    · rw [exists?, run_tryCatch, hy]
      dsimp only
      rw [if_neg hkind]
      rfl
  · refine .inr ⟨paths, hpaths, hsends.tryCatch fun e => ?_⟩
    split_ifs
    · exact quiet_pure _
    · exact quiet_throw _

theorem resolves_delete (recursive : Bool) :
    s.Resolves [given] (s.delete link given recursive) (s.delete link.noting given recursive) := by
  refine resolves_path fun path => .inr (sends_of_call rfl fun body => ?_)
  split
  · exact quiet_pure _
  · exact quiet_fail _ _
  · exact quiet_unexpected _ _

theorem resolves_rename (source destination : String) :
    s.Resolves [source, destination] (s.rename link source destination)
      (s.rename link.noting source destination) := by
  rw [rename, rename]
  rcases path_cases s "rename" source with ⟨src, hsrc, hpath⟩ | hrefused
  · rw [hpath, hpath, pure_bind, pure_bind]
    rcases path_cases s "rename" destination with ⟨dst, hdst, hpath⟩ | hrefused
    · rw [hpath, hpath, pure_bind, pure_bind]
      refine .inr ⟨[src, dst], .cons hsrc (.cons hdst .nil), sends_of_call rfl fun body => ?_⟩
      split
      · exact quiet_pure _
      · exact quiet_unexpected _ _
    · exact .inl hrefused.bind
  · exact .inl hrefused.bind

theorem resolves_mkdir : s.Resolves [given] (s.mkdir link given) (s.mkdir link.noting given) := by
  refine resolves_path fun path => .inr (sends_of_call rfl fun body => ?_)
  split
  · exact quiet_pure _
  · exact quiet_fail _ _
  · exact quiet_unexpected _ _

theorem resolves_setReplication (replication : UInt16) :
    s.Resolves [given] (s.setReplication link given replication)
      (s.setReplication link.noting given replication) := by
  refine resolves_path fun path => .inr (sends_of_call rfl fun body => ?_)
  split
  · exact quiet_pure _
  · exact quiet_fail _ _
  · exact quiet_unexpected _ _

theorem resolves_blockSizeAt :
    s.Resolves [given] (s.blockSizeAt link given) (s.blockSizeAt link.noting given) := by
  refine resolves_path fun path => .inr (sends_of_call rfl fun body => ?_)
  split
  · exact quiet_pure _
  · exact quiet_unexpected _ _

theorem resolves_chown (user group : Option String) :
    s.Resolves [given] (s.chown link given user group) (s.chown link.noting given user group) := by
  refine resolves_path fun path => .inr (sends_of_call rfl fun body => ?_)
  split
  · exact quiet_pure _
  · exact quiet_unexpected _ _

theorem resolves_chmod (mode : UInt32) :
    s.Resolves [given] (s.chmod link given mode) (s.chmod link.noting given mode) := by
  refine resolves_path fun path => .inr (sends_of_call rfl fun body => ?_)
  split
  · exact quiet_pure _
  · exact quiet_unexpected _ _

/-- A time that is out of range is an invalid argument too. -/
theorem requestTime_cases (context : String) (time : Option Int) :
    (∃ millis, ∀ τ, (requestTime context time : Over τ (Option UInt64)) = pure millis) ∨
      Refused (requestTime context time : Over σ (Option UInt64)) (requestTime context time) := by
  cases time with
  | none => exact .inl ⟨none, fun _ => rfl⟩
  | some seconds =>
    rw [requestTime, requestTime]
    cases hmillis : millis? seconds with
    | some millis =>
      refine .inl ⟨some millis, fun _ => ?_⟩
      rw [requestTime, hmillis]
    | none => exact .inr (refused_throw (e := ⟨.inval, _, none⟩) rfl)

theorem resolves_setTimes (mtime atime : Option Int) :
    s.Resolves [given] (s.setTimes link given mtime atime)
      (s.setTimes link.noting given mtime atime) := by
  refine resolves_path fun path => ?_
  dsimp only
  rcases requestTime_cases (σ := σ) _ mtime with ⟨modified, htime⟩ | hrefused
  · rw [htime, htime, pure_bind, pure_bind]
    rcases requestTime_cases (σ := σ) _ atime with ⟨accessed, htime⟩ | hrefused
    · rw [htime, htime, pure_bind, pure_bind]
      refine .inr (sends_of_call rfl fun body => ?_)
      split
      · exact quiet_pure _
      · exact quiet_unexpected _ _
    · exact .inl hrefused.bind
  · exact .inl hrefused.bind

/-- Every page is asked for by the path of the directory. -/
theorem sends_listFrom (path front : String) (pages : ℕ) (cursor : Data)
    (before : List FileInfo) :
    Sends [path] (listFrom link path front (pages + 1) cursor before)
      (listFrom link.noting path front (pages + 1) cursor before) := by
  have hpage (cursor : Data) :
      Sends [path] (listPage link path cursor) (listPage link.noting path cursor) := by
    refine sends_of_call rfl fun body => ?_
    split
    · exact quiet_pure _
    · exact quiet_fail _ _
    · exact quiet_unexpected _ _
  -- The first page is asked for in any case, and the pages behind it are a listing of their own.
  induction pages generalizing cursor before with
  | zero =>
    refine (hpage cursor).bind fun page => .inl ?_
    split
    · split_ifs
      · exact quiet_pure _
      · exact quiet_fail _ _
    · dsimp only
      split_ifs
      · exact quiet_pure _
      · exact quiet_pure _
  | succ pages ih =>
    refine (hpage cursor).bind fun page => ?_
    split
    · split_ifs
      · exact .inl (quiet_pure _)
      · exact .inl (quiet_fail _ _)
    · dsimp only
      split_ifs
      · exact .inl (quiet_pure _)
      · exact .inr (ih _ _)

theorem resolves_listDirectory (pages : ℕ) :
    s.Resolves [given] (s.listDirectory link (pages + 1) given)
      (s.listDirectory link.noting (pages + 1) given) :=
  resolves_path fun path => .inr (sends_listFrom link path _ pages {} [])

end Operations

/-- A call of a session that is about paths. A listing is read in a number of pages at most. -/
inductive Act where
  | stat (given : String)
  | exists? (given : String)
  | delete (given : String) (recursive : Bool)
  | rename (source destination : String)
  | mkdir (given : String)
  | setReplication (given : String) (replication : UInt16)
  | chown (given : String) (user group : Option String)
  | chmod (given : String) (mode : UInt32)
  | setTimes (given : String) (mtime atime : Option Int)
  | blockSizeAt (given : String)
  | listDirectory (given : String) (more : ℕ)

namespace Act

/-- The path texts of the call. -/
def texts : Act → List String
  | stat given | exists? given | delete given _ | mkdir given | setReplication given _
  | chown given _ _ | chmod given _ | setTimes given _ _ | blockSizeAt given
  | listDirectory given _ => [given]
  | rename source destination => [source, destination]

def run (s : Session) (link : Link σ) : Act → Over σ Unit
  | stat given => do let _ ← s.stat link given
  | exists? given => do let _ ← s.exists? link given
  | delete given recursive => s.delete link given recursive
  | rename source destination => s.rename link source destination
  | mkdir given => s.mkdir link given
  | setReplication given replication => s.setReplication link given replication
  | chown given user group => s.chown link given user group
  | chmod given mode => s.chmod link given mode
  | setTimes given mtime atime => s.setTimes link given mtime atime
  | blockSizeAt given => do let _ ← s.blockSizeAt link given
  | listDirectory given more => do let _ ← s.listDirectory link (more + 1) given

theorem resolves_run (s : Session) (link : Link σ) (act : Act) :
    s.Resolves act.texts (act.run s link) (act.run s link.noting) := by
  cases act with
  | stat given => exact (resolves_stat s link given).bind fun _ => quiet_pure _
  | exists? given => exact (resolves_exists s link given).bind fun _ => quiet_pure _
  | delete given recursive => exact resolves_delete s link given recursive
  | rename source destination => exact resolves_rename s link source destination
  | mkdir given => exact resolves_mkdir s link given
  | setReplication given replication => exact resolves_setReplication s link given replication
  | chown given user group => exact resolves_chown s link given user group
  | chmod given mode => exact resolves_chmod s link given mode
  | setTimes given mtime atime => exact resolves_setTimes s link given mtime atime
  | blockSizeAt given => exact (resolves_blockSizeAt s link given).bind fun _ => quiet_pure _
  | listDirectory given more =>
    exact (resolves_listDirectory s link given more).bind fun _ => quiet_pure _

end Act

theorem forall_normalized_iff {texts paths : List String} (h : s.workingDirectory.Kept)
    (hpaths : List.Forall₂ (fun given path => s.workingDirectory.resolve given = .ok path)
      texts paths) :
    (∀ path ∈ paths, Normalized path) ↔ ∀ given ∈ texts, s.workingDirectory.Leads given := by
  induction hpaths with
  | nil => exact iff_of_true (by rintro path ⟨⟩) (by rintro given ⟨⟩)
  | cons hpath hpaths ih =>
    rw [List.forall_mem_cons, List.forall_mem_cons, ih, h.normalized_resolve_iff hpath]

/-- Whatever directory a session has come to, an operation on paths is refused before anything is
sent, or else it sends something. The paths that it sends are normalized exactly if each of its
texts leads to such a path: the directory is absolute and the text names no plain path, or the text
names a rooted path by itself. -/
theorem normalized_iff_leads {settings : Settings} {user : String} {opening : Link σ} {state : σ}
    (h : ((settings.connect user opening).run.run state).1 = .ok s) (moved : List String)
    (act : Act) (link : Link σ) (start : σ) :
    ∃ (outcome : Except Error Unit) (next : σ) (trips : List Trip),
      (act.run (s.moves moved) link).run.run start = (outcome, next) ∧
      (act.run (s.moves moved) link.noting).run.run (start, []) = (outcome, next, trips) ∧
      ((∃ e : Error, outcome = .error e ∧ e.errno = .inval ∧ next = start ∧ trips = []) ∨
        trips ≠ [] ∧ ((∀ trip ∈ trips, ∀ path ∈ trip.request.paths, Normalized path) ↔
          ∀ given ∈ act.texts, (s.moves moved).workingDirectory.Leads given)) := by
  have hkept := kept_moves (Settings.kept_of_connect h).1 moved
  rcases act.resolves_run (s.moves moved) link with hrefused | ⟨paths, hpaths, hsends⟩
  · obtain ⟨e, he, hrun, hnoted⟩ := hrefused start []
    exact ⟨.error e, start, [], hrun, hnoted, .inl ⟨e, rfl, he, rfl, rfl⟩⟩
  · obtain ⟨trips, hne, hsent, hnoted⟩ := hsends start []
    refine ⟨_, _, trips, rfl, hnoted, .inr ⟨hne, ?_⟩⟩
    rw [← forall_normalized_iff hkept hpaths]
    -- Every trip names the paths of all the texts, so that the first one tells them all.
    constructor
    · obtain ⟨trip, rest, rfl⟩ := List.exists_cons_of_ne_nil hne
      intro hall path hpath
      have htrip := List.mem_cons_self (a := trip) (l := rest)
      exact hall trip htrip path (by rwa [hsent trip htrip])
    · intro hall trip htrip path hpath
      rw [hsent trip htrip] at hpath
      exact hall path hpath

/-- One path is relative to a directory below the home, and the other one is a whole URI. -/
theorem normalized_iff_leads_rename :
    ((Settings.connect { nameNode := some "nn" } "alice" scripted).run.run openingReplies).1 =
      .ok openedSession ∧
    ∃ trips : List Trip, ((Act.rename "x/../y" "hdfs://nn/%7e").run (openedSession.moves ["logs"])
        scripted.noting).run.run ([.ok (.reply .rename)], []) = (.ok (), [], trips) ∧
      trips.map Trip.request = [.rename "/user/alice/logs/y" "/~" false] ∧
      ∀ trip ∈ trips, ∀ path ∈ trip.request.paths, Normalized path := by
  have hrun : ((Act.rename "x/../y" "hdfs://nn/%7e").run (openedSession.moves ["logs"])
      scripted.noting).run.run ([.ok (.reply .rename)], []) =
        (.ok (), [], [⟨.rename "/user/alice/logs/y" "/~" false, .ok (.reply .rename)⟩]) := by cbv
  have habsolute : (openedSession.moves ["logs"]).workingDirectory.Absolute := by
    rw [(kept_moves (Settings.kept_of_connect connect_opening).1 ["logs"]).absolute_iff]
    cbv
  have hrelative : ¬Url.NamesPlainPath "x/../y" := by
    rintro ⟨scheme, rest, hstarts, -⟩
    have hnone : Url.splitScheme (Url.tidy "x/../y".toList) = none := by decide +kernel
    exact Url.HasPlainPath.hasScheme ⟨scheme, rest, hstarts⟩ hnone
  have hwhole : Url.NamesRootedPath "hdfs://nn/%7e" :=
    ⟨⟨"hdfs".toList, some { host := "nn".toList }, .rooted ["%7e".toList], none, none⟩,
      ["%7e".toList], by decide +kernel, rfl, List.cons_ne_nil _ _⟩
  obtain ⟨outcome, next, trips, -, hnoted, hcases⟩ :=
    normalized_iff_leads connect_opening ["logs"] (.rename "x/../y" "hdfs://nn/%7e") scripted
      [.ok (.reply .rename)]
  rw [hrun] at hnoted
  cases hnoted
  refine ⟨connect_opening, _, hrun, rfl, ?_⟩
  rcases hcases with ⟨e, hfailed, -⟩ | ⟨-, hnormalized⟩
  · cases hfailed
  · refine hnormalized.mpr fun given hgiven => ?_
    simp only [Act.texts, List.mem_cons, List.not_mem_nil, or_false] at hgiven
    rcases hgiven with rfl | rfl
    · exact .inl ⟨habsolute, hrelative⟩
    · exact .inr hwhole

/-- A name with a colon in it is sent without what stands before the colon. -/
theorem sends_colon :
    ((Settings.connect { nameNode := some "nn" } "alice" scripted).run.run openingReplies).1 =
      .ok openedSession ∧
    ((Act.stat "a:b").run openedSession scripted.noting).run.run ([], []) =
      (.error ⟨.io, "stat(b): connection reset", none⟩, [],
        [⟨.getFileInfo "b", .error ⟨.io, "connection reset", none⟩⟩]) ∧
    ¬Normalized "b" := by
  refine ⟨connect_opening, by cbv, fun hnormalized => ?_⟩
  cases hnormalized.begins

end Session

end MetaFs
