import Mathlib
import MetaFs.Proofs.Commands
import MetaFs.Proofs.Reporting
/-! Setting times. Both times of a request are exact, or there is no request at all; and a C program
leaves a time as it is by a negative number. -/

namespace MetaFs

namespace Session

open Over

variable {σ : Type} {s : Session} {link : Link σ} {given path context : String}
  {mtime atime : Option Int} {state : σ}

/-- What errors say of two times for a path. -/
def timesContext (path : String) (mtime atime : Option Int) : String :=
  s!"set_times({path}, {Shown.option Shown.number mtime}, {Shown.option Shown.number atime})"

/-- The error of a time that no request can carry. -/
def beyondRange (context : String) (seconds : Int) : Error :=
  ⟨.inval, s!"{context}: time {seconds} out of range", none⟩

/-- No two numbers of milliseconds are the same time. -/
theorem InMillis.unique {seconds : Int} {millis millis' : UInt64} (h : InMillis seconds millis)
    (h' : InMillis seconds millis') : millis = millis' := by
  unfold InMillis at h h'
  apply UInt64.toNat_inj.mp
  omega

/-- A time that cannot be sent ends the operation. -/
theorem run_requestTime_of_beyond {seconds : Int} (h : ¬InRange seconds) (context : String) :
    (requestTime context (some seconds)).run.run state =
      (.error (beyondRange context seconds), state) := by
  have hmillis : millis? seconds = none := millis?_eq_none_iff.mpr h
  unfold requestTime
  dsimp only
  rw [hmillis]
  rfl

/-- Both times are looked at before anything is sent. -/
theorem setTimes_eq (resolves : s.workingDirectory.resolve given = .ok path) (link : Link σ) :
    s.setTimes link given mtime atime = (do
      let modified ← requestTime (timesContext path mtime atime) mtime
      let accessed ← requestTime (timesContext path mtime atime) atime
      match ← call link (timesContext path mtime atime) (.setTimes path modified accessed) with
      | .reply .setTimes => return
      | other => unexpected (timesContext path mtime atime) other) := by
  rw [setTimes, path_of_resolves resolves, pure_bind]
  rfl

/-- One time that cannot be sent is enough: the other one is not sent without it. -/
theorem exists_beyond_of_not_inRange (resolves : s.workingDirectory.resolve given = .ok path)
    (h : ¬∀ seconds ∈ mtime.toList ++ atime.toList, InRange seconds) :
    ∃ seconds ∈ mtime.toList ++ atime.toList, ¬InRange seconds ∧
      ∀ {τ : Type} (link : Link τ) (start : τ),
        (s.setTimes link given mtime atime).run.run start =
          (.error (beyondRange (timesContext path mtime atime) seconds), start) := by
  -- The second time is only looked at behind a first one that can be sent, and each is an error
  -- before there is a request.
  by_cases hmtime : ∀ seconds ∈ mtime, InRange seconds
  · obtain ⟨modified, -, hmodified⟩ := requestTime_of_inRange hmtime (timesContext path mtime atime)
    have hatime : ∃ seconds ∈ atime, ¬InRange seconds := by
      by_contra hall
      push Not at hall
      apply h
      simp only [List.forall_mem_append, Option.mem_toList]
      exact ⟨hmtime, hall⟩
    obtain ⟨seconds, hmem, hbeyond⟩ := hatime
    refine ⟨seconds, List.mem_append_right _ (Option.mem_toList.mpr hmem), hbeyond, ?_⟩
    intro τ link start
    obtain rfl := Option.mem_def.mp hmem
    rw [setTimes_eq resolves, hmodified, pure_bind]
    exact run_bind_of_error (run_requestTime_of_beyond hbeyond _)
  · push Not at hmtime
    obtain ⟨seconds, hmem, hbeyond⟩ := hmtime
    refine ⟨seconds, List.mem_append_left _ (Option.mem_toList.mpr hmem), hbeyond, ?_⟩
    intro τ link start
    obtain rfl := Option.mem_def.mp hmem
    rw [setTimes_eq resolves]
    exact run_bind_of_error (run_requestTime_of_beyond hbeyond _)

/-- The one request for two times that can be sent. -/
theorem exists_trip_of_inRange (resolves : s.workingDirectory.resolve given = .ok path)
    (h : ∀ seconds ∈ mtime.toList ++ atime.toList, InRange seconds) (link : Link σ) (state : σ) :
    ∃ modified accessed reply outcome next,
      Option.Rel InMillis mtime modified ∧ Option.Rel InMillis atime accessed ∧
      (link.call (.setTimes path modified accessed)).run.run state = (reply, next) ∧
      (s.setTimes link given mtime atime).run.run state = (outcome, next) ∧
      (s.setTimes link.noting given mtime atime).run.run (state, []) =
        (outcome, next, [⟨.setTimes path modified accessed, reply⟩]) ∧
      Outcome s (.setTimes given mtime atime) [path] (.setTimes path modified accessed)
        (timesContext path mtime atime) reply outcome := by
  obtain ⟨request, context, hasks, hrun⟩ :=
    (handles_setTimes s link given mtime atime).sendsOnce rfl resolves h
  obtain ⟨reply, outcome, next, hreply, hplain, hnoted, houtcome⟩ := hrun state []
  cases hasks with
  | @setTimes _ _ _ _ modified accessed hmtime hatime =>
    exact ⟨modified, accessed, reply, outcome, next, hmtime, hatime, hreply, hplain, hnoted,
      houtcome⟩

/-- A reply of the right type grants a command that it does not deny. -/
theorem Outcome.exists_ok {c : Command} {paths : List String} {request : Request} {reply : Reply}
    {outcome : Except Error c.Answer}
    (h : Outcome s c paths request context (.ok (.reply reply)) outcome)
    (paired : some (Body.reply reply).kind = (Body.request request).kind.response?)
    (undenied : ∀ errno reason, ¬Denies c reply errno reason) : ∃ answer, outcome = .ok answer := by
  cases h with
  | granted => exact ⟨_, rfl⟩
  | denied denies => exact absurd denies (undenied _ _)
  | unpaired unpaired => exact absurd paired unpaired

/-- What setting two times comes to: one request carries both of them, or there is no request. -/
inductive SetsTimes (s : Session) (link : Link σ) (given path : String)
    (mtime atime : Option Int) (state : σ) : Except Error Unit → σ → List Trip → Prop where
  | sent {modified accessed : Option UInt64} {reply : Except Error Body}
      {outcome : Except Error Unit} {next : σ}
      (inRange : ∀ seconds ∈ mtime.toList ++ atime.toList, InRange seconds)
      (modifies : Option.Rel InMillis mtime modified)
      (accesses : Option.Rel InMillis atime accessed)
      (replies : (link.call (.setTimes path modified accessed)).run.run state = (reply, next))
      (decides : Outcome s (.setTimes given mtime atime) [path] (.setTimes path modified accessed)
        (timesContext path mtime atime) reply outcome) :
      SetsTimes s link given path mtime atime state outcome next
        [⟨.setTimes path modified accessed, reply⟩]
  | refused {seconds : Int} (asked : seconds ∈ mtime.toList ++ atime.toList)
      (beyond : ¬InRange seconds) :
      SetsTimes s link given path mtime atime state
        (.error (beyondRange (timesContext path mtime atime) seconds)) state []

theorem exists_setsTimes (resolves : s.workingDirectory.resolve given = .ok path) (link : Link σ)
    (mtime atime : Option Int) (state : σ) : ∃ outcome next trips,
      (s.setTimes link given mtime atime).run.run state = (outcome, next) ∧
      (s.setTimes link.noting given mtime atime).run.run (state, []) = (outcome, next, trips) ∧
      s.SetsTimes link given path mtime atime state outcome next trips := by
  by_cases hrange : ∀ seconds ∈ mtime.toList ++ atime.toList, InRange seconds
  · obtain ⟨modified, accessed, reply, outcome, next, hmodifies, haccesses, hreply, hrun, hnoted,
      houtcome⟩ := exists_trip_of_inRange resolves hrange link state
    exact ⟨outcome, next, _, hrun, hnoted,
      .sent hrange hmodifies haccesses hreply houtcome⟩
  · obtain ⟨seconds, hmem, hbeyond, hrun⟩ := exists_beyond_of_not_inRange resolves hrange
    exact ⟨_, state, [], hrun link state, hrun link.noting (state, []), .refused hmem hbeyond⟩

end Session

namespace Posix

variable {σ : Type}

theorem given_eq_filter (t : Int64) : utime.given t = (some t.toInt).filter (0 ≤ ·) := by
  unfold utime.given
  by_cases h : t.toInt < 0
  · rw [if_pos h, Option.filter_some_neg]
    simpa using h
  · rw [if_neg h, Option.filter_some_pos]
    simpa using h

/-- A C program gets the return code of the same operation. -/
theorem run_utime (s : Session) (link : Link σ) (path : String) (mtime atime : Int64)
    (last : Option LastError) (state : σ) : ∃ outcome next,
      (s.setTimes link path ((some mtime.toInt).filter (0 ≤ ·))
        ((some atime.toInt).filter (0 ≤ ·))).run.run state = (outcome, next) ∧
      ((utime s link path mtime atime).run last).run state =
        match outcome with
        | .ok () => ((0, last), next)
        | .error e => ((-1, some (kept e)), next) := by
  rw [← given_eq_filter, ← given_eq_filter]
  obtain ⟨outcome, next, hrun⟩ : ∃ outcome next,
      (s.setTimes link path (utime.given mtime) (utime.given atime)).run.run state =
        (outcome, next) := ⟨_, _, rfl⟩
  have hcode : utime s link path mtime atime =
      Shape.code.call (s.setTimes link path (utime.given mtime) (utime.given atime)) := rfl
  refine ⟨outcome, next, hrun, ?_⟩
  rw [hcode]
  cases outcome with
  | error e => exact Shape.run_call_of_error hrun
  | ok a =>
    apply Shape.run_call_of_fits hrun
    intro e hexceeds
    cases hexceeds

/-- Setting times for a path sends one request, in which each time that is given is a thousand times
as many milliseconds and each other one is absent; or it is refused for a time that no request can
carry, and then nothing is sent. The call of a C program sends the same request as the operation
with the negative times left out. -/
theorem sets_both_times_or_none (s : Session) (link : Link σ) (given : String) :
    (∀ path mtime atime (state : σ), s.workingDirectory.resolve given = .ok path →
      ∃ outcome next trips,
        (s.setTimes link given mtime atime).run.run state = (outcome, next) ∧
        (s.setTimes link.noting given mtime atime).run.run (state, []) = (outcome, next, trips) ∧
        s.SetsTimes link given path mtime atime state outcome next trips) ∧
    ∀ (mtime atime : Int64) (last : Option LastError) (state : σ), ∃ outcome next trips,
      (s.setTimes link.noting given ((some mtime.toInt).filter (0 ≤ ·))
        ((some atime.toInt).filter (0 ≤ ·))).run.run (state, []) = (outcome, next, trips) ∧
      ((utime s link.noting given mtime atime).run last).run (state, []) =
        match outcome with
        | .ok () => ((0, last), next, trips)
        | .error e => ((-1, some (kept e)), next, trips) := by
  constructor
  · intro path mtime atime state resolves
    exact Session.exists_setsTimes resolves link mtime atime state
  · intro mtime atime last state
    obtain ⟨outcome, next, hrun, hcall⟩ :=
      run_utime s link.noting given mtime atime last (state, [])
    exact ⟨outcome, next.1, next.2, hrun, hcall⟩

/-- The last second that can be sent, and the first one that cannot. -/
theorem sets_both_times_or_none_last :
    (∃ next, (Session.openedSession.setTimes Session.scripted.noting "f" (some 18446744073709551)
        none).run.run ([.ok (.reply .setTimes)], []) = (.ok (), next,
      [⟨.setTimes "/user/alice/f" (some 18446744073709551000) none, .ok (.reply .setTimes)⟩])) ∧
    ∃ e : Error, e.errno = .inval ∧
      (Session.openedSession.setTimes Session.scripted.noting "f" (some 5)
        (some 18446744073709552)).run.run ([.ok (.reply .setTimes)], []) =
      (.error e, [.ok (.reply .setTimes)], []) := by
  have resolves : Session.openedSession.workingDirectory.resolve "f" = .ok "/user/alice/f" := by cbv
  obtain ⟨hsets, -⟩ := sets_both_times_or_none Session.openedSession Session.scripted "f"
  constructor
  · obtain ⟨outcome, next, trips, -, hnoted, hsets⟩ :=
      hsets _ (some 18446744073709551) none [.ok (.reply .setTimes)] resolves
    cases hsets with
    | sent inRange modifies accesses replies decides =>
      have hmillis : Session.InMillis 18446744073709551 18446744073709551000 := by
        unfold Session.InMillis
        decide
      obtain ⟨hmodified⟩ := modifies
      obtain rfl := hmodified.unique hmillis
      cases accesses
      cases replies
      obtain ⟨⟨⟩, rfl⟩ := decides.exists_ok rfl (by rintro errno reason ⟨⟩)
      exact ⟨_, hnoted⟩
    | refused asked beyond =>
      obtain rfl := List.mem_singleton.mp asked
      exact absurd ⟨by decide, by decide⟩ beyond
  · obtain ⟨outcome, next, trips, -, hnoted, hsets⟩ :=
      hsets _ (some 5) (some 18446744073709552) [.ok (.reply .setTimes)] resolves
    cases hsets with
    | sent inRange =>
      have hbeyond := inRange 18446744073709552 (by decide)
      exact absurd hbeyond.2 (by decide)
    | refused => exact ⟨_, rfl, hnoted⟩

end Posix

end MetaFs
