import Mathlib
import MetaFs.Proofs.SentPaths
/-! One request for each command, and one outcome for each reply. What cannot be asked is refused
before anything is sent. -/

namespace MetaFs

namespace Session

open Over

/-- A command on metadata, which takes one request. Times are in seconds. -/
inductive Command where
  | stat (given : String)
  | delete (given : String) (recursive : Bool)
  | rename (source destination : String)
  | mkdir (given : String)
  | setReplication (given : String) (replication : UInt16)
  | chown (given : String) (user group : Option String)
  | chmod (given : String) (mode : UInt32)
  | setTimes (given : String) (mtime atime : Option Int)
  | blockSizeAt (given : String)
  | fsStats

namespace Command

variable {σ : Type}

/-- What the command answers when it succeeds. -/
abbrev Answer : Command → Type
  | stat _ => FileInfo
  | blockSizeAt _ => UInt64
  | fsStats => FsStats
  | _ => Unit

def run (s : Session) (link : Link σ) : (c : Command) → Over σ c.Answer
  | stat given => s.stat link given
  | delete given recursive => s.delete link given recursive
  | rename source destination => s.rename link source destination
  | mkdir given => s.mkdir link given
  | setReplication given replication => s.setReplication link given replication
  | chown given user group => s.chown link given user group
  | chmod given mode => s.chmod link given mode
  | setTimes given mtime atime => s.setTimes link given mtime atime
  | blockSizeAt given => s.blockSizeAt link given
  | fsStats => Session.fsStats link

/-- The path texts of the command. -/
def texts : Command → List String
  | stat given | delete given _ | mkdir given | setReplication given _ | chown given _ _
  | chmod given _ | setTimes given _ _ | blockSizeAt given => [given]
  | rename source destination => [source, destination]
  | fsStats => []

/-- The times that the command gives. -/
def times : Command → List Int
  | setTimes _ mtime atime => mtime.toList ++ atime.toList
  | _ => []

end Command

/-- The time is some number of milliseconds that a request can carry. -/
def InRange (seconds : Int) : Prop :=
  0 ≤ seconds ∧ seconds * 1000 < UInt64.size

/-- The texts of the command stand for paths, and its times can be sent. -/
def Sound (s : Session) (c : Command) : Prop :=
  (∀ given ∈ c.texts, ∃ path, s.workingDirectory.resolve given = .ok path) ∧
    ∀ seconds ∈ c.times, InRange seconds

/-- The same time in milliseconds. -/
def InMillis (seconds : Int) (millis : UInt64) : Prop :=
  (millis.toNat : Int) = seconds * 1000

/-- The request of a command for the paths that its texts stand for, and the words with which its
errors begin. -/
inductive Asks (s : Session) : Command → List String → Request → String → Prop where
  | stat {given src : String} : Asks s (.stat given) [src] (.getFileInfo src) s!"stat({src})"
  | delete {given src : String} {recursive : Bool} :
      Asks s (.delete given recursive) [src] (.delete src recursive)
        s!"delete({src}, recursive={recursive})"
  | rename {source destination src dst : String} :
      Asks s (.rename source destination) [src, dst] (.rename src dst false)
        s!"rename({src}, {dst})"
  | mkdir {given src : String} :
      Asks s (.mkdir given) [src] (.mkdirs src (0o777 &&& ~~~s.profile.umask) true)
        s!"mkdir({src})"
  | setReplication {given src : String} {replication : UInt16} :
      Asks s (.setReplication given replication) [src] (.setReplication src replication)
        s!"set_replication({src}, {replication})"
  | chown {given src : String} {user group : Option String} :
      Asks s (.chown given user group) [src] (.setOwner src user group)
        s!"chown({src}, {Shown.option Quoted.quote user}, {Shown.option Quoted.quote group})"
  | chmod {given src : String} {mode : UInt32} :
      Asks s (.chmod given mode) [src] (.setPermission src mode)
        s!"chmod({src}, {Numeral.octal mode.toNat})"
  | setTimes {given src : String} {mtime atime : Option Int} {modified accessed : Option UInt64}
      (hmtime : Option.Rel InMillis mtime modified)
      (hatime : Option.Rel InMillis atime accessed) :
      Asks s (.setTimes given mtime atime) [src] (.setTimes src modified accessed)
        s!"set_times({src}, {Shown.option Shown.number mtime}, {Shown.option Shown.number atime})"
  | blockSizeAt {given src : String} :
      Asks s (.blockSizeAt given) [src] (.getPreferredBlockSize src)
        s!"default_block_size_at({src})"
  | fsStats : Asks s .fsStats [] .getFsStats "fs_stats"

/-- A reply that grants the command, and what the command answers then. -/
inductive Grants (s : Session) : (c : Command) → List String → Reply → c.Answer → Prop where
  | stat {given src : String} {status : FileStatus} :
      Grants s (.stat given) [src] (.getFileInfo (some status))
        (.ofStatus status (s.profile.urlPrefix ++ src))
  | delete {given : String} {recursive : Bool} {paths : List String} :
      Grants s (.delete given recursive) paths (.delete true) ()
  | rename {source destination : String} {paths : List String} :
      Grants s (.rename source destination) paths .rename ()
  | mkdir {given : String} {paths : List String} :
      Grants s (.mkdir given) paths (.mkdirs true) ()
  | setReplication {given : String} {replication : UInt16} {paths : List String} :
      Grants s (.setReplication given replication) paths (.setReplication true) ()
  | chown {given : String} {user group : Option String} {paths : List String} :
      Grants s (.chown given user group) paths .setOwner ()
  | chmod {given : String} {mode : UInt32} {paths : List String} :
      Grants s (.chmod given mode) paths .setPermission ()
  | setTimes {given : String} {mtime atime : Option Int} {paths : List String} :
      Grants s (.setTimes given mtime atime) paths .setTimes ()
  | blockSizeAt {given : String} {size : UInt64} {paths : List String} :
      Grants s (.blockSizeAt given) paths (.getPreferredBlockSize size) size
  | fsStats {stats : FsStats} {paths : List String} :
      Grants s .fsStats paths (.getFsStats stats) stats

/-- A reply of the right type that denies the command, and with which error. -/
inductive Denies : Command → Reply → Errno → String → Prop where
  | stat {given : String} :
      Denies (.stat given) (.getFileInfo none) .noent "no such file or directory"
  | delete {given : String} {recursive : Bool} :
      Denies (.delete given recursive) (.delete false) .noent "deletion failed on the server"
  | mkdir {given : String} :
      Denies (.mkdir given) (.mkdirs false) .exist
        "a path component already exists as a non-directory"
  | setReplication {given : String} {replication : UInt16} :
      Denies (.setReplication given replication) (.setReplication false) .inval
        "path does not exist or is not a regular file"

/-- What becomes of a command by what comes back for its request. A failed request fails the command
with the same number and cause (`Error.errno_prepend`, `Error.cause_prepend`), and the context is
told in front of the message (`Error.message_prepend`). -/
inductive Outcome (s : Session) (c : Command) (paths : List String) (request : Request)
    (context : String) : Except Error Body → Except Error c.Answer → Prop where
  | failed {e : Error} :
      Outcome s c paths request context (.error e) (.error (e.prepend context))
  | granted {reply : Reply} {answer : c.Answer} (grants : Grants s c paths reply answer) :
      Outcome s c paths request context (.ok (.reply reply)) (.ok answer)
  | denied {reply : Reply} {errno : Errno} {reason : String}
      (denies : Denies c reply errno reason) :
      Outcome s c paths request context (.ok (.reply reply))
        (.error ⟨errno, s!"{context}: {reason}", none⟩)
  | unpaired {body : Body} (unpaired : some body.kind ≠ (Body.request request).kind.response?) :
      Outcome s c paths request context (.ok body)
        (.error ⟨.io, s!"{context}: unexpected response {body.kind.name}", none⟩)

section Runs

variable {σ α : Type} {s : Session} {link : Link σ} {c : Command} {paths : List String}
  {request : Request} {context : String}

/-- Both end at once with this outcome. -/
def Ends {τ : Type} (outcome : Except Error α) (x : Over σ α) (y : Over τ α) : Prop :=
  (∀ state, x.run.run state = (outcome, state)) ∧ ∀ state, y.run.run state = (outcome, state)

theorem ends_pure {τ : Type} (a : α) : Ends (.ok a) (pure a : Over σ α) (pure a : Over τ α) :=
  ⟨fun _ => rfl, fun _ => rfl⟩

theorem ends_throw {τ : Type} (e : Error) :
    Ends (.error e) (throw e : Over σ α) (throw e : Over τ α) :=
  ⟨fun _ => rfl, fun _ => rfl⟩

/-- One request is sent for these paths, and its reply decides. -/
def SendsOnce (s : Session) (link : Link σ) (c : Command) (paths : List String)
    (x : Over σ c.Answer) (y : Over (σ × List Trip) c.Answer) : Prop :=
  ∃ request context, Asks s c paths request context ∧ ∀ state trips, ∃ reply outcome next,
    (link.call request).run.run state = (reply, next) ∧
    x.run.run state = (outcome, next) ∧
    y.run.run (state, trips) = (outcome, next, trips ++ [⟨request, reply⟩]) ∧
    Outcome s c paths request context reply outcome

/-- The command is refused, or one request is sent for the paths that its texts stand for. -/
def Handles (s : Session) (link : Link σ) (c : Command) (x : Over σ c.Answer)
    (y : Over (σ × List Trip) c.Answer) : Prop :=
  ¬s.Sound c ∧ Refused x y ∨ s.Sound c ∧ ∃ paths,
    List.Forall₂ (fun given path => s.workingDirectory.resolve given = .ok path) c.texts paths ∧
      s.SendsOnce link c paths x y

/-- A command with one path text is not refused when the text stands for a path and all of its
times can be sent. -/
theorem Handles.sendsOnce {given path : String} {x : Over σ c.Answer}
    {y : Over (σ × List Trip) c.Answer} (h : s.Handles link c x y) (htexts : c.texts = [given])
    (resolves : s.workingDirectory.resolve given = .ok path)
    (inRange : ∀ seconds ∈ c.times, InRange seconds) : s.SendsOnce link c [path] x y := by
  rcases h with ⟨hunsound, -⟩ | ⟨-, paths, hpaths, hsends⟩
  · apply absurd _ hunsound
    refine ⟨?_, inRange⟩
    rw [htexts]
    exact List.forall_mem_singleton.mpr ⟨path, resolves⟩
  · rw [htexts] at hpaths
    cases hpaths with
    | cons hpath hnone =>
      cases hnone
      obtain rfl := Except.ok.inj (resolves.symm.trans hpath)
      exact hsends

theorem sendsOnce_of_call {f : Body → Over σ c.Answer} {g : Body → Over (σ × List Trip) c.Answer}
    (hasks : Asks s c paths request context)
    (hf : ∀ body, ∃ outcome, Ends outcome (f body) (g body) ∧
      Outcome s c paths request context (.ok body) outcome) :
    s.SendsOnce link c paths (call link context request >>= f)
      (call link.noting context request >>= g) := by
  refine ⟨request, context, hasks, fun state trips => ?_⟩
  obtain ⟨reply, next, hreply⟩ :
      ∃ reply next, (link.call request).run.run state = (reply, next) := ⟨_, _, rfl⟩
  have hcall : (call link context request).run.run state = _ := run_call hreply
  have hnoted : (call link.noting context request).run.run (state, trips) = _ :=
    run_call (Link.run_call_noting hreply trips)
  cases reply with
  -- Without a reply what follows the call is not run at all.
  | error e =>
    exact ⟨_, _, next, hreply, run_bind_of_error hcall, run_bind_of_error hnoted, .failed⟩
  | ok body =>
    obtain ⟨outcome, ⟨hends, hends'⟩, houtcome⟩ := hf body
    exact ⟨_, outcome, next, hreply, (run_bind_of_ok hcall).trans (hends next),
      (run_bind_of_ok hnoted).trans (hends' _), houtcome⟩

theorem ends_denied {τ : Type} {reply : Reply} {errno : Errno} {reason rest : String}
    (denies : Denies c reply errno reason) (hrest : rest = ": " ++ reason) :
    ∃ outcome, Ends outcome (fail errno (context ++ rest) : Over σ c.Answer)
      (fail errno (context ++ rest) : Over τ _) ∧
      Outcome s c paths request context (.ok (.reply reply)) outcome := by
  have hmessage : context ++ rest = s!"{context}: {reason}" := by
    rw [hrest, ← String.append_assoc]
    rfl
  rw [hmessage]
  exact ⟨_, ends_throw _, .denied denies⟩

/-- A body that is no reply of the operation is of another type than the paired one. -/
theorem ends_unpaired {τ : Type} {body : Body}
    (h : ∀ reply : Reply, reply.operation = request.operation → body ≠ .reply reply) :
    ∃ outcome, Ends outcome (unexpected context body : Over σ c.Answer)
      (unexpected context body : Over τ _) ∧
      Outcome s c paths request context (.ok body) outcome := by
  refine ⟨_, ends_throw _, .unpaired fun hpaired => ?_⟩
  have hkind : body.kind = ⟨request.operation, .reply⟩ := Option.some.inj hpaired
  cases body with
  | request r => exact absurd (congrArg Kind.direction hkind) Direction.noConfusion
  | reply reply => exact h reply (congrArg Kind.operation hkind) rfl

/-- A flag is one or the other. -/
theorem ne_of_flags {flag : Bool → Reply} {body : Body} (htrue : body ≠ .reply (flag true))
    (hfalse : body ≠ .reply (flag false)) : ∀ result, body ≠ .reply (flag result)
  | true => htrue
  | false => hfalse

theorem path_of_resolves {given path : String} (h : s.workingDirectory.resolve given = .ok path)
    (operation : String) : (s.path operation given : Over σ String) = pure path := by
  rw [Session.path, h]

theorem refused_path {given : String}
    (h : ¬∃ path, s.workingDirectory.resolve given = .ok path) (operation : String) :
    Refused (s.path operation given : Over σ String) (s.path operation given) := by
  rcases path_cases s operation given with ⟨path, hpath, -⟩ | hrefused
  · exact absurd ⟨path, hpath⟩ h
  · exact hrefused

theorem inMillis_of_millis? {seconds : Int} {millis : UInt64} (h : millis? seconds = some millis) :
    InMillis seconds millis := by
  rw [millis?] at h
  split_ifs at h with hrange
  cases h
  simp only [Bool.and_eq_true, decide_eq_true_eq] at hrange
  rw [InMillis, UInt64.toNat_ofNat_of_lt' (by omega)]
  omega

theorem millis?_eq_none_iff {seconds : Int} : millis? seconds = none ↔ ¬InRange seconds := by
  simp [millis?, InRange]

/-- A time that can be sent is sent in milliseconds. -/
theorem requestTime_of_inRange {time : Option Int} (h : ∀ seconds ∈ time, InRange seconds)
    (context : String) : ∃ millis, Option.Rel InMillis time millis ∧
      ∀ τ, (requestTime context time : Over τ (Option UInt64)) = pure millis := by
  cases time with
  | none => exact ⟨none, .none, fun _ => rfl⟩
  | some seconds =>
    cases hmillis : millis? seconds with
    | none => exact absurd (h seconds rfl) (millis?_eq_none_iff.mp hmillis)
    | some millis =>
      refine ⟨some millis, .some (inMillis_of_millis? hmillis), fun τ => ?_⟩
      rw [requestTime, hmillis]

theorem refused_requestTime {time : Option Int} (h : ¬∀ seconds ∈ time, InRange seconds)
    (context : String) :
    Refused (requestTime context time : Over σ (Option UInt64)) (requestTime context time) := by
  cases time with
  | none => exact absurd (by rintro seconds ⟨⟩) h
  | some seconds =>
    have hmillis : millis? seconds = none := by
      rw [millis?_eq_none_iff]
      intro hrange
      refine h fun seconds' heq => ?_
      cases heq
      exact hrange
    rw [requestTime, requestTime, hmillis]
    exact refused_throw (e := ⟨.inval, _, none⟩) rfl

/-- A command with one path text. -/
theorem handles_path {operation given : String} {f : String → Over σ c.Answer}
    {g : String → Over (σ × List Trip) c.Answer} (htexts : c.texts = [given])
    (hf : ∀ path, (¬∀ seconds ∈ c.times, InRange seconds) ∧ Refused (f path) (g path) ∨
      (∀ seconds ∈ c.times, InRange seconds) ∧ s.SendsOnce link c [path] (f path) (g path)) :
    s.Handles link c (s.path operation given >>= f) (s.path operation given >>= g) := by
  by_cases hresolves : ∃ path, s.workingDirectory.resolve given = .ok path
  · obtain ⟨path, hpath⟩ := hresolves
    rw [path_of_resolves hpath, path_of_resolves hpath, pure_bind, pure_bind]
    rcases hf path with ⟨htimes, hrefused⟩ | ⟨htimes, hsends⟩
    · exact .inl ⟨fun hsound => htimes hsound.2, hrefused⟩
    · refine .inr ⟨⟨?_, htimes⟩, [path], ?_, hsends⟩
      · rw [htexts]
        exact List.forall_mem_singleton.mpr ⟨path, hpath⟩
      · rw [htexts]
        exact .cons hpath .nil
  · refine .inl ⟨fun hsound => hresolves (hsound.1 given ?_),
      (refused_path hresolves operation).bind⟩
    rw [htexts]
    exact List.mem_singleton_self given

/-- A command with one path text and no time. -/
theorem handles_call {operation given : String} {context : String → String}
    {request : String → Request} {f : String → Body → Over σ c.Answer}
    {g : String → Body → Over (σ × List Trip) c.Answer} (htexts : c.texts = [given])
    (htimes : c.times = []) (hasks : ∀ path, Asks s c [path] (request path) (context path))
    (hf : ∀ path body, ∃ outcome, Ends outcome (f path body) (g path body) ∧
      Outcome s c [path] (request path) (context path) (.ok body) outcome) :
    s.Handles link c
      (s.path operation given >>= fun path =>
        call link (context path) (request path) >>= f path)
      (s.path operation given >>= fun path =>
        call link.noting (context path) (request path) >>= g path) := by
  refine handles_path htexts fun path => .inr ⟨?_, sendsOnce_of_call (hasks path) (hf path)⟩
  rw [htimes]
  rintro seconds ⟨⟩

end Runs

section Commands

variable {σ : Type} (s : Session) (link : Link σ)

theorem handles_stat (given : String) :
    s.Handles link (.stat given) (s.stat link given) (s.stat link.noting given) := by
  refine handles_call rfl rfl (fun path => .stat) fun path body => ?_
  split
  · exact ⟨_, ends_pure _, .granted .stat⟩
  · exact ends_denied .stat rfl
  · rename_i hsome hnone
    refine ends_unpaired fun reply hreply hbody => ?_
    cases reply <;> cases hreply
    rename_i status
    cases status with
    | none => exact hnone hbody
    | some status => exact hsome status hbody

theorem handles_delete (given : String) (recursive : Bool) :
    s.Handles link (.delete given recursive) (s.delete link given recursive)
      (s.delete link.noting given recursive) := by
  refine handles_call rfl rfl (fun path => .delete) fun path body => ?_
  split
  · exact ⟨_, ends_pure _, .granted .delete⟩
  · exact ends_denied .delete rfl
  · rename_i htrue hfalse
    refine ends_unpaired fun reply hreply => ?_
    cases reply <;> cases hreply
    exact ne_of_flags htrue hfalse _

/-- Both texts have to stand for paths, and the first one is looked at first. -/
theorem handles_rename (source destination : String) :
    s.Handles link (.rename source destination) (s.rename link source destination)
      (s.rename link.noting source destination) := by
  have hunsound {given : String} (hmem : given ∈ [source, destination])
      (h : ¬∃ path, s.workingDirectory.resolve given = .ok path) :
      ¬s.Sound (.rename source destination) := fun hsound => h (hsound.1 given hmem)
  rw [rename, rename]
  by_cases hsrc : ∃ src, s.workingDirectory.resolve source = .ok src
  · obtain ⟨src, hsrc⟩ := hsrc
    rw [path_of_resolves hsrc, path_of_resolves hsrc, pure_bind, pure_bind]
    by_cases hdst : ∃ dst, s.workingDirectory.resolve destination = .ok dst
    · obtain ⟨dst, hdst⟩ := hdst
      rw [path_of_resolves hdst, path_of_resolves hdst, pure_bind, pure_bind]
      refine .inr ⟨⟨?_, by rintro seconds ⟨⟩⟩, [src, dst], .cons hsrc (.cons hdst .nil),
        sendsOnce_of_call .rename fun body => ?_⟩
      · exact List.forall_mem_cons.mpr
          ⟨⟨src, hsrc⟩, List.forall_mem_singleton.mpr ⟨dst, hdst⟩⟩
      · split
        · exact ⟨_, ends_pure _, .granted .rename⟩
        · rename_i hother
          refine ends_unpaired fun reply hreply hbody => ?_
          cases reply <;> cases hreply
          exact hother hbody
    · exact .inl ⟨hunsound (by simp) hdst, (refused_path hdst _).bind⟩
  · exact .inl ⟨hunsound (by simp) hsrc, (refused_path hsrc _).bind⟩

theorem handles_mkdir (given : String) :
    s.Handles link (.mkdir given) (s.mkdir link given) (s.mkdir link.noting given) := by
  refine handles_call rfl rfl (fun path => .mkdir) fun path body => ?_
  split
  · exact ⟨_, ends_pure _, .granted .mkdir⟩
  · exact ends_denied .mkdir rfl
  · rename_i htrue hfalse
    refine ends_unpaired fun reply hreply => ?_
    cases reply <;> cases hreply
    exact ne_of_flags htrue hfalse _

theorem handles_setReplication (given : String) (replication : UInt16) :
    s.Handles link (.setReplication given replication)
      (s.setReplication link given replication)
      (s.setReplication link.noting given replication) := by
  refine handles_call rfl rfl (fun path => .setReplication) fun path body => ?_
  split
  · exact ⟨_, ends_pure _, .granted .setReplication⟩
  · exact ends_denied .setReplication rfl
  · rename_i htrue hfalse
    refine ends_unpaired fun reply hreply => ?_
    cases reply <;> cases hreply
    exact ne_of_flags htrue hfalse _

theorem handles_chown (given : String) (user group : Option String) :
    s.Handles link (.chown given user group) (s.chown link given user group)
      (s.chown link.noting given user group) := by
  refine handles_call rfl rfl (fun path => .chown) fun path body => ?_
  split
  · exact ⟨_, ends_pure _, .granted .chown⟩
  · rename_i hother
    refine ends_unpaired fun reply hreply hbody => ?_
    cases reply <;> cases hreply
    exact hother hbody

theorem handles_chmod (given : String) (mode : UInt32) :
    s.Handles link (.chmod given mode) (s.chmod link given mode)
      (s.chmod link.noting given mode) := by
  refine handles_call rfl rfl (fun path => .chmod) fun path body => ?_
  split
  · exact ⟨_, ends_pure _, .granted .chmod⟩
  · rename_i hother
    refine ends_unpaired fun reply hreply hbody => ?_
    cases reply <;> cases hreply
    exact hother hbody

/-- The times are looked at behind the path, and before anything is sent. -/
theorem handles_setTimes (given : String) (mtime atime : Option Int) :
    s.Handles link (.setTimes given mtime atime) (s.setTimes link given mtime atime)
      (s.setTimes link.noting given mtime atime) := by
  refine handles_path rfl fun path => ?_
  have htimes : (∀ seconds ∈ (Command.setTimes given mtime atime).times, InRange seconds) ↔
      (∀ seconds ∈ mtime, InRange seconds) ∧ ∀ seconds ∈ atime, InRange seconds := by
    simp only [Command.times, List.forall_mem_append, Option.mem_toList, Option.mem_def]
  rw [htimes]
  dsimp only
  -- One time is looked at behind the other, and the first one that is out of range is refused.
  by_cases hmtime : ∀ seconds ∈ mtime, InRange seconds
  · obtain ⟨modified, hmodified, htime⟩ := requestTime_of_inRange hmtime
      s!"set_times({path}, {Shown.option Shown.number mtime}, {Shown.option Shown.number atime})"
    rw [htime, htime, pure_bind, pure_bind]
    by_cases hatime : ∀ seconds ∈ atime, InRange seconds
    · obtain ⟨accessed, haccessed, htime⟩ := requestTime_of_inRange hatime
        s!"set_times({path}, {Shown.option Shown.number mtime}, {Shown.option Shown.number atime})"
      rw [htime, htime, pure_bind, pure_bind]
      refine .inr ⟨⟨hmtime, hatime⟩,
        sendsOnce_of_call (.setTimes hmodified haccessed) fun body => ?_⟩
      split
      · exact ⟨_, ends_pure _, .granted .setTimes⟩
      · rename_i hother
        refine ends_unpaired fun reply hreply hbody => ?_
        cases reply <;> cases hreply
        exact hother hbody
    · exact .inl ⟨fun h => hatime h.2, (refused_requestTime hatime _).bind⟩
  · exact .inl ⟨fun h => hmtime h.1, (refused_requestTime hmtime _).bind⟩

theorem handles_blockSizeAt (given : String) :
    s.Handles link (.blockSizeAt given) (s.blockSizeAt link given)
      (s.blockSizeAt link.noting given) := by
  refine handles_call rfl rfl (fun path => .blockSizeAt) fun path body => ?_
  split
  · exact ⟨_, ends_pure _, .granted .blockSizeAt⟩
  · rename_i hother
    refine ends_unpaired fun reply hreply hbody => ?_
    cases reply <;> cases hreply
    exact hother _ hbody

theorem handles_fsStats :
    s.Handles link .fsStats (Session.fsStats link) (Session.fsStats link.noting) := by
  refine .inr ⟨⟨by rintro given ⟨⟩, by rintro seconds ⟨⟩⟩, [], .nil,
    sendsOnce_of_call .fsStats fun body => ?_⟩
  split
  · exact ⟨_, ends_pure _, .granted .fsStats⟩
  · rename_i hother
    refine ends_unpaired fun reply hreply hbody => ?_
    cases reply <;> cases hreply
    exact hother _ hbody

theorem handles_run (c : Command) : s.Handles link c (c.run s link) (c.run s link.noting) := by
  cases c with
  | stat given => exact handles_stat s link given
  | delete given recursive => exact handles_delete s link given recursive
  | rename source destination => exact handles_rename s link source destination
  | mkdir given => exact handles_mkdir s link given
  | setReplication given replication => exact handles_setReplication s link given replication
  | chown given user group => exact handles_chown s link given user group
  | chmod given mode => exact handles_chmod s link given mode
  | setTimes given mtime atime => exact handles_setTimes s link given mtime atime
  | blockSizeAt given => exact handles_blockSizeAt s link given
  | fsStats => exact handles_fsStats s link

end Commands

/-- A command with a text that stands for no path, or with a time out of range, is refused, and
nothing is sent. For any other one exactly one request is sent, with its paths and arguments, and
the reply alone decides what becomes of it. -/
theorem exists_outcome_of_command {σ : Type} (s : Session) (link : Link σ) (c : Command)
    (state : σ) :
    ∃ (outcome : Except Error c.Answer) (next : σ) (trips : List Trip),
      (c.run s link).run.run state = (outcome, next) ∧
      (c.run s link.noting).run.run (state, []) = (outcome, next, trips) ∧
      ((¬s.Sound c ∧ (∃ e : Error, outcome = .error e ∧ e.errno = .inval) ∧ next = state ∧
          trips = []) ∨
        s.Sound c ∧ ∃ paths request context reply,
          List.Forall₂ (fun given path => s.workingDirectory.resolve given = .ok path)
            c.texts paths ∧
          Asks s c paths request context ∧
          (link.call request).run.run state = (reply, next) ∧
          trips = [⟨request, reply⟩] ∧
          Outcome s c paths request context reply outcome) := by
  rcases handles_run s link c with ⟨hunsound, hrefused⟩ | ⟨hsound, paths, hpaths, hsends⟩
  · obtain ⟨e, he, hrun, hnoted⟩ := hrefused state []
    exact ⟨.error e, state, [], hrun, hnoted, .inl ⟨hunsound, ⟨e, rfl, he⟩, rfl, rfl⟩⟩
  · obtain ⟨request, context, hasks, hrun⟩ := hsends
    obtain ⟨reply, outcome, next, hreply, hrun, hnoted, houtcome⟩ := hrun state []
    exact ⟨outcome, next, [⟨request, reply⟩], hrun, hnoted,
      .inr ⟨hsound, paths, request, context, reply, hpaths, hasks, hreply, rfl, houtcome⟩⟩

end Session

end MetaFs
