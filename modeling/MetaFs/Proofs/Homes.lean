import Mathlib
import MetaFs.Proofs.HomeUrls
import MetaFs.Proofs.Ports
/-! Where a session starts: in the home of its user, if the user's name is one that a URI holds as
it is, and else in some other directory. -/

namespace MetaFs

namespace Settings

variable {text user : String} {uri : Uri} {wd : WorkingDirectory}

theorem readScheme_of_parse {directory : Bool} (h : Uri.parse text none directory = .ok uri) :
    Url.ReadScheme uri.url.scheme := by
  obtain ⟨url, hurl, huri, -⟩ := Uri.parse_eq_ok h
  obtain ⟨⟨rest, hsplit⟩, -⟩ := Url.takesPort_parse hurl
  have hscheme : uri.url.scheme = url.scheme := by
    rw [huri]
    split_ifs <;> rfl
  rw [hscheme]
  exact Url.readScheme_of_splitScheme hsplit

theorem toList_home (user : String) : s!"/user/{user}/".toList = Url.homePath user.toList := by
  simp [toString, Url.homePath, Url.userHost]

theorem path_home_iff (hscheme : Url.ReadScheme uri.url.scheme)
    (h : home uri.scheme user = .ok wd) :
    wd.uri.path = s!"/user/{user}/" ↔ Url.Unchanged uri.scheme.toList user.toList := by
  have htext : s!"{uri.scheme}:///user/{user}/".toList = uri.url.scheme ++ ':' :: '/' :: '/' ::
      '/' :: (Url.userHost ++ '/' :: (user.toList ++ ['/'])) := by
    simp [toString, Uri.scheme, Url.userHost]
  rw [home] at h
  split at h
  · rename_i homeUri hhome
    cases h
    obtain ⟨url, hurl, huri, hdecode⟩ := Uri.parse_eq_ok hhome
    obtain ⟨base, hbase, hread⟩ := Url.parse_home hscheme htext
    obtain rfl := Except.ok.inj (hurl.symm.trans hread)
    rw [huri, if_pos rfl, ← hbase] at hdecode
    rw [← String.toList_inj, toList_home, Url.decodePath_home_iff hdecode, hbase, Uri.scheme,
      String.toList_ofList]
  · cases h

end Settings

namespace Session

/-- The session was opened for this user, whom the authority was told of. -/
def OpenedFor (s : Session) (user : String) : Prop :=
  ∃ (σ : Type) (settings : Settings) (processUser : String) (link : Link σ) (state next : σ)
    (address : Address) (trip : Trip),
    (settings.connect processUser link.watched).run.run (state, []) =
      (.ok s, next, [.opened address user (.ok ()), .asked trip])

variable {σ : Type} {settings : Settings} {processUser user : String} {link : Link σ} {state : σ}
  {s : Session}

/-- Every session that is opened is opened for somebody. -/
theorem openedFor_of_connect (h : ((settings.connect processUser link).run.run state).1 = .ok s) :
    s.OpenedFor s.profile.user := by
  obtain ⟨outcome, next, contacts, hrun, hwatched, hopens, -⟩ :=
    Settings.exists_run_opens settings processUser link state
  rw [hrun] at h
  cases h
  cases hopens with
  | answered => exact ⟨σ, settings, processUser, link, state, next, _, _, hwatched⟩

/-- Where the session starts, by the name of its user. -/
theorem exists_start (h : s.OpenedFor user) : ∃ path,
    s.workingDirectory.resolve "" = .ok path ∧
      (path = s!"/user/{user}/" ↔ Url.Unchanged s.profile.scheme.toList user.toList) := by
  obtain ⟨σ, settings, processUser, link, state, next, address, trip, hrun⟩ := h
  obtain ⟨outcome, next', contacts, hconnect, hwatched, hopens, -⟩ :=
    Settings.exists_run_opens settings processUser link state
  obtain ⟨rfl, -, rfl⟩ : outcome = .ok s ∧ next' = next ∧
      contacts = [.opened address user (.ok ()), .asked trip] := by
    rw [hrun] at hwatched
    cases hwatched
    exact ⟨rfl, rfl, rfl⟩
  obtain ⟨uri, profile, ready, profiles, -, rfl, hsession⟩ := hopens.of_opened List.mem_cons_self
  obtain ⟨hprofile, hstart⟩ := hsession s rfl
  obtain ⟨text, -, huri⟩ := ready.named
  have habsolute := (Settings.kept_of_connect (congrArg Prod.fst hconnect)).2
  refine ⟨_, habsolute.resolves, ?_⟩
  rw [hstart, hprofile, profiles.scheme]
  exact Settings.path_home_iff (Settings.readScheme_of_parse huri) profiles.home

/-- A session starts in the home of its user exactly if the user's name is one that a URI holds as
it is, and such users never start in the same directory. -/
theorem starts_home_iff (h : s.OpenedFor user) : ∃ path,
    s.workingDirectory.resolve "" = .ok path ∧
      (path = s!"/user/{user}/" ↔ Url.Unchanged s.profile.scheme.toList user.toList) ∧
      ∀ other name, OpenedFor other name → other.workingDirectory.resolve "" = .ok path →
        Url.Unchanged s.profile.scheme.toList user.toList →
        Url.Unchanged other.profile.scheme.toList name.toList → name = user := by
  obtain ⟨path, hpath, hstart⟩ := exists_start h
  refine ⟨path, hpath, hstart, ?_⟩
  intro other name hother hsame hunchanged hotherUnchanged
  obtain ⟨path', hpath', hstart'⟩ := exists_start hother
  obtain rfl := Except.ok.inj (hsame.symm.trans hpath')
  have hhomes : Url.homePath name.toList = Url.homePath user.toList := by
    rw [← Settings.toList_home, ← Settings.toList_home, ← hstart'.mpr hotherUnchanged,
      hstart.mpr hunchanged]
  rw [Url.homePath, Url.homePath] at hhomes
  exact String.toList_inj.mp (List.append_cancel_right
    (List.cons.inj (List.append_cancel_left (List.cons.inj hhomes).2)).2)

theorem starts_home_iff_alice : openedSession.OpenedFor "alice" ∧
    openedSession.workingDirectory.resolve "" = .ok "/user/alice/" := by
  have hopened : openedSession.OpenedFor "alice" := openedFor_of_connect connect_opening
  obtain ⟨path, hpath, hstart, -⟩ := starts_home_iff hopened
  have hunchanged : Url.Unchanged openedSession.profile.scheme.toList "alice".toList := by
    refine ⟨?_, ?_, ?_, ?_, ?_, ?_⟩ <;> decide +kernel
  rw [hpath, hstart.mpr hunchanged]
  exact ⟨hopened, rfl⟩

def strangerSession : Session :=
  { openedSession with profile := { openedSession.profile with user := "alice#1" } }

/-- What follows a number sign is dropped, so that its bearer starts in the home of somebody else.
-/
theorem starts_in_home_of_other : openedSession.OpenedFor "alice" ∧
    strangerSession.OpenedFor "alice#1" ∧
    openedSession.workingDirectory.resolve "" = .ok "/user/alice/" ∧
    strangerSession.workingDirectory.resolve "" = .ok "/user/alice/" := by
  have hconnect : ((Settings.connect { nameNode := some "nn" } "alice#1" scripted).run.run
      openingReplies).1 = .ok strangerSession := by
    cbv
  refine ⟨openedFor_of_connect connect_opening, openedFor_of_connect hconnect, ?_, ?_⟩
  · decide +kernel
  · decide +kernel

end Session

end MetaFs
