import Mathlib
import MetaFs.Proofs.DisplayNames
import MetaFs.Proofs.Reporting
import MetaFs.Proofs.ServedExports
/-! Whether there is an object. The session asks for its status; that there is none is told in two
ways, by an empty answer or by an error of the file system, and both have to come out as the same.
-/

namespace MetaFs

namespace ExportPath

/-- The names of a path without dot segments. -/
theorem exists_names_of_normalized {src : String} (h : Normalized src) :
    ∃ names, ExportPath.names src = .ok names := by
  have hslash : (fun c : Char => decide (c = '/')) = Url.divides false :=
    (funext Url.divides_false).symm
  rw [ExportPath.names, if_neg (not_not_intro h.begins)]
  dsimp only
  rw [if_neg]
  · exact ⟨_, rfl⟩
  · intro hdots
    have hpart := (List.mem_filter.mp (List.contains_iff_mem.mp hdots)).1
    rw [hslash, Url.parts_eq_splitOn] at hpart
    exact h.noDoubleDot hpart

end ExportPath

namespace Session

section Asking

variable {σ : Type} {s : Session} {link : Link σ} {given : String} {state next : σ} {error : Error}

/-- All three ways to ask for an object say that it is there. -/
structure SaysThere (s : Session) (link : Link σ) (given : String) (state : σ) : Prop where
  stat : ∃ info, ((s.stat link given).run.run state).1 = .ok info
  exists_ : ((s.exists? link given).run.run state).1 = .ok true
  code : ∀ last, (((Posix.exists? s link given).run last).run state).1 = (0, last)

/-- All three ways say that it is not there: for the status this is an error. -/
structure SaysAbsent (s : Session) (link : Link σ) (given : String) (state : σ) (error : Error) :
    Prop where
  errno : error.errno = .noent ∨ error.errno = .notdir
  stat : ((s.stat link given).run.run state).1 = .error error
  exists_ : ((s.exists? link given).run.run state).1 = .ok false
  code : ∀ last, (((Posix.exists? s link given).run last).run state).1 =
    (-1, some (Posix.kept error))

/-- All three ways fail with one error. -/
structure SaysFailed (s : Session) (link : Link σ) (given : String) (state : σ) (error : Error) :
    Prop where
  stat : ((s.stat link given).run.run state).1 = .error error
  exists_ : ((s.exists? link given).run.run state).1 = .error error
  code : ∀ last, (((Posix.exists? s link given).run last).run state).1 =
    (-1, some (Posix.kept error))

theorem code_of_stat_ok {info : FileInfo}
    (h : (s.stat link given).run.run state = (.ok info, next)) (last : Option LastError) :
    (((Posix.exists? s link given).run last).run state).1 = (0, last) := by
  have hplain : (Posix.Operation.plain s link (.exists? given)).run.run state = (.ok (), next) :=
    Over.run_bind_of_ok h
  have hfits : ∀ e, ¬Posix.Shape.code.Exceeds () e := by
    intro e he
    cases he
  exact congrArg Prod.fst (Posix.Shape.run_call_of_fits hplain hfits)

theorem code_of_stat_error (h : (s.stat link given).run.run state = (.error error, next))
    (last : Option LastError) :
    (((Posix.exists? s link given).run last).run state).1 = (-1, some (Posix.kept error)) := by
  have hplain : (Posix.Operation.plain s link (.exists? given)).run.run state =
      (.error error, next) := Over.run_bind_of_error h
  have hcall : ((Posix.Shape.code.call
      (Posix.Operation.plain s link (.exists? given))).run last).run state =
        ((-1, some (Posix.kept error)), next) := Posix.Shape.run_call_of_error hplain
  exact congrArg Prod.fst hcall

theorem saysThere_of_stat {info : FileInfo}
    (h : (s.stat link given).run.run state = (.ok info, next)) : s.SaysThere link given state where
  stat := ⟨info, congrArg Prod.fst h⟩
  exists_ := by rw [Posix.run_exists, h]
  code := code_of_stat_ok h

theorem saysAbsent_of_stat (h : (s.stat link given).run.run state = (.error error, next))
    (errno : error.errno = .noent ∨ error.errno = .notdir) :
    s.SaysAbsent link given state error where
  errno := errno
  stat := congrArg Prod.fst h
  exists_ := by
    rw [Posix.run_exists, h]
    exact if_pos (Posix.kind_eq_notFound_iff.mpr errno)
  code := code_of_stat_error h

theorem saysFailed_of_stat (h : (s.stat link given).run.run state = (.error error, next))
    (errno : ¬(error.errno = .noent ∨ error.errno = .notdir)) :
    s.SaysFailed link given state error where
  stat := congrArg Prod.fst h
  exists_ := by
    rw [Posix.run_exists, h]
    exact if_neg (mt Posix.kind_eq_notFound_iff.mp errno)
  code := code_of_stat_error h

end Asking

section Served

variable {s : Session} {e : Export} {peer : Client.Peer (Server.Connection Tree Request)}
  {state : Client.Connection × Server.Connection Tree Request} {given src : String}
  {place : TreePath}

/-- What stands for a path that starts at the root stands for a place of the file tree. -/
theorem exists_places (kept : s.workingDirectory.Kept)
    (resolves : s.workingDirectory.resolve given = .ok src)
    (rooted : src.toList.head? = some '/') : ∃ place, e.Places src place := by
  obtain ⟨names, hnames⟩ :=
    ExportPath.exists_names_of_normalized (kept.normalized_of_rooted resolves rooted)
  exact ⟨_, _, ⟨names, hnames, rfl⟩, rfl⟩

/-- The error of a status is that of the file system. -/
theorem exists_told_of_fail (s : Session) (e : Export) (src : String) (fault : Errno) :
    ∃ error, s.told e src (FileSystem.fail fault) = .error error ∧ error.errno = fault := by
  rw [told, FileSystem.fail, Export.found]
  split_ifs with hnoent
  · cases hnoent
    exact ⟨_, rfl, rfl⟩
  · exact ⟨_, rfl, Fault.errno_systemError fault⟩

/-- A path that no message can carry is not asked for at all. -/
theorem exists_run_stat_of_long (peer : Client.Peer (Server.Connection Tree Request))
    (reaches : Address → Bool) (resolves : s.workingDirectory.resolve given = .ok src)
    (long : Wire.textLimit < src.utf8ByteSize) :
    ∃ error, error.errno = .nametoolong ∧ ∀ state,
      (s.stat (Client.link peer reaches) given).run.run state = (.error error, state) := by
  have hlong : ¬Client.ShortPaths (.request (.getFileInfo src)) :=
    fun short => absurd (short src (List.mem_singleton.mpr rfl)) (Nat.not_le.mpr long)
  obtain ⟨error, herrno, hstep⟩ := Client.step_of_long_path hlong
  refine ⟨error.prepend s!"stat({src})", (error.errno_prepend _).trans herrno, fun state => ?_⟩
  have hcall : ((Client.link peer reaches).call (.getFileInfo src)).run.run state =
      (.error error, state) := hstep peer state.1 state.2
  exact run_stat_of_error resolves hcall

theorem saysFailed_of_long (peer : Client.Peer (Server.Connection Tree Request))
    (reaches : Address → Bool) (state : Client.Connection × Server.Connection Tree Request)
    (resolves : s.workingDirectory.resolve given = .ok src)
    (long : Wire.textLimit < src.utf8ByteSize) :
    ∃ error, error.errno = .nametoolong ∧
      s.SaysFailed (Client.link peer reaches) given state error := by
  obtain ⟨error, herrno, hstat⟩ := exists_run_stat_of_long peer reaches resolves long
  refine ⟨error, herrno, saysFailed_of_stat (hstat state) ?_⟩
  rw [herrno]
  decide

section Asked

variable (h : s.Attached e peer state) (hosts : e.Hosts state.2.store)
  (resolves : s.workingDirectory.resolve given = .ok src) (hplace : e.Places src place)
  (short : src.utf8ByteSize ≤ Wire.textLimit) (accepts : FileSystem.Accepts place)
include h hosts resolves hplace short accepts

theorem says_of_clear (reaches : Address → Bool)
    (straight : FileSystem.Straight state.2.store place)
    (clear : FileSystem.Clear state.2.store e.caller place) :
    ((state.2.store.get? place).isSome → s.SaysThere (Client.link peer reaches) given state) ∧
      (state.2.store.get? place = none →
        ∃ error, s.SaysAbsent (Client.link peer reaches) given state error) := by
  have hroot := Export.isDirectory_of_above hosts.wellFormed hosts.root List.nil_prefix
  obtain ⟨hthere, habsent⟩ :=
    FileSystem.status_of_clear hosts.wellFormed hroot accepts straight clear
  obtain ⟨next, hstat, -⟩ := h.stat reaches hosts resolves hplace short
  constructor
  · intro hsome
    obtain ⟨node, hnode⟩ := Option.isSome_iff_exists.mp hsome
    rw [hthere node hnode] at hstat
    exact saysThere_of_stat hstat
  -- Of the two failures the first comes back as an empty answer, and the other one as an error.
  · intro hnone
    rcases habsent hnone with hstatus | hstatus
    · obtain ⟨error, htold, herrno⟩ := exists_told_of_fail s e src .noent
      rw [hstatus, htold] at hstat
      exact ⟨error, saysAbsent_of_stat hstat (.inl herrno)⟩
    · obtain ⟨error, htold, herrno⟩ := exists_told_of_fail s e src .notdir
      rw [hstatus, htold] at hstat
      exact ⟨error, saysAbsent_of_stat hstat (.inr herrno)⟩

theorem saysFailed_of_not_clear (reaches : Address → Bool)
    (barred : ¬FileSystem.Clear state.2.store e.caller place) :
    ∃ error, error.errno = .acces ∧
      s.SaysFailed (Client.link peer reaches) given state error := by
  have hstatus := FileSystem.status_of_not_clear hosts.wellFormed accepts barred
  obtain ⟨next, hstat, -⟩ := h.stat reaches hosts resolves hplace short
  obtain ⟨error, htold, herrno⟩ := exists_told_of_fail s e src .acces
  rw [hstatus, htold] at hstat
  refine ⟨error, herrno, saysFailed_of_stat hstat ?_⟩
  rw [herrno]
  decide

end Asked

/-- Whether there is an object at a path without links on it: as long as the server may search the
directories on the way, its existence is told as it is, also where a name on the way is missing or
a file, and never as a failure. Where the server may not search one of them, or the path does not
fit in a message, that is the error. The status and the return code agree in all cases. -/
theorem existence_told (reaches : Address → Bool) (h : s.Attached e peer state)
    (hosts : e.Hosts state.2.store)
    (resolves : s.workingDirectory.resolve given = .ok src)
    (rooted : src.toList.head? = some '/') :
    ∃ place, e.Places src place ∧
      (FileSystem.Accepts place → FileSystem.Straight state.2.store place →
        (src.utf8ByteSize ≤ Wire.textLimit →
          FileSystem.Clear state.2.store e.caller place →
          ((state.2.store.get? place).isSome →
            s.SaysThere (Client.link peer reaches) given state) ∧
          (state.2.store.get? place = none →
            ∃ error, s.SaysAbsent (Client.link peer reaches) given state error)) ∧
        (src.utf8ByteSize ≤ Wire.textLimit →
          ¬FileSystem.Clear state.2.store e.caller place →
          ∃ error, error.errno = .acces ∧
            s.SaysFailed (Client.link peer reaches) given state error) ∧
        (Wire.textLimit < src.utf8ByteSize →
          ∃ error, error.errno = .nametoolong ∧
            s.SaysFailed (Client.link peer reaches) given state error)) := by
  obtain ⟨place, hplace⟩ := exists_places (e := e) h.kept resolves rooted
  refine ⟨place, hplace, fun accepts straight => ⟨?_, ?_, ?_⟩⟩
  · intro short clear
    exact says_of_clear h hosts resolves hplace short accepts reaches straight clear
  · intro short barred
    exact saysFailed_of_not_clear h hosts resolves hplace short accepts reaches barred
  · intro long
    exact saysFailed_of_long peer reaches state resolves long

/-- A session at home on an export of a tree, over a server that answers one call after the other.
-/
theorem exists_attached_home (e : Export) (t : Tree) :
    ∃ (s : Session) (state : Client.Connection × Server.Connection Tree Request),
      s.workingDirectory = openedHome ∧
      s.Attached e (Server.sequential e.namesystem "nn") state ∧ state.2.store = t := by
  have hprofile : Settings.profile { nameNode := some "nn" } "alice" =
      .ok openedSession.profile := by
    cbv
  obtain ⟨s, state, -, hhome, hattached, hstore⟩ := exists_attached (fun _ => true)
    (Server.serves_sequential e.namesystem "nn" t) hprofile rfl (by decide)
  exact ⟨s, state, hhome, hattached, hstore⟩

/-- An exported directory `e` with a file `a` and a directory `d` in it. There is a file `f` in
`d`, which only a privileged caller may search. -/
def sealed : Tree where
  entries :=
    [([], { kind := .directory, mode := 0o755 }),
      ([[101]], { kind := .directory, mode := 0o755 }),
      ([[101], [97]], { kind := .file 5, mode := 0o644 }),
      ([[101], [100]], { kind := .directory, mode := 0 }),
      ([[101], [100], [102]], { kind := .file 7, mode := 0o644 })]

theorem linkless_sealed : sealed.Linkless := by
  apply Tree.linkless_of_entries
  simp [sealed]

theorem hosts_sealed {e : Export} (hroot : e.root = [[101]])
    (haccounts : e.users ++ e.groups = []) : e.Hosts sealed where
  wellFormed := by decide
  root := by
    rw [hroot]
    decide
  accounts := by simp [haccounts]
  numbers := by
    intro place node hnode
    have hmem := Tree.mem_of_get? hnode
    simp only [sealed, List.mem_cons, Prod.mk.injEq, List.not_mem_nil, or_false] at hmem
    rcases hmem with ⟨-, rfl⟩ | ⟨-, rfl⟩ | ⟨-, rfl⟩ | ⟨-, rfl⟩ | ⟨-, rfl⟩ <;> decide

theorem existence_told_sealed :
    ∃ (s : Session) (state : Client.Connection × Server.Connection Tree Request),
      let link := Client.link (Server.sequential Export.exported.namesystem "nn") fun _ => true
      state.2.store = sealed ∧ s.SaysThere link "/d//f" state ∧
        ∃ error, s.SaysAbsent link "/a/f" state error := by
  obtain ⟨s, state, hhome, hattached, hstore⟩ := exists_attached_home Export.exported sealed
  have hosts : Export.exported.Hosts state.2.store := by
    rw [hstore]
    exact hosts_sealed rfl rfl
  have hthere : s.workingDirectory.resolve "/d//f" = .ok "/d//f" := by
    rw [hhome]
    cbv
  have habsent : s.workingDirectory.resolve "/a/f" = .ok "/a/f" := by
    rw [hhome]
    cbv
  obtain ⟨place, hplace, htold⟩ :=
    existence_told (fun _ => true) hattached hosts hthere (by decide)
  obtain ⟨place', hplace', htold'⟩ :=
    existence_told (fun _ => true) hattached hosts habsent (by decide)
  obtain rfl := hplace.unique ⟨[[100], [102]], ⟨["d", "f"], by cbv, by cbv⟩, rfl⟩
  obtain rfl := hplace'.unique ⟨[[97], [102]], ⟨["a", "f"], by cbv, by cbv⟩, rfl⟩
  rw [hstore] at htold htold'
  have hstraight := FileSystem.straight_of_linkless linkless_sealed
  have hclear (place : TreePath) : FileSystem.Clear sealed Export.exported.caller place :=
    FileSystem.clear_of_privileged rfl place
  refine ⟨s, state, hstore, ?_, ?_⟩
  · obtain ⟨hfits, -⟩ := htold ⟨by decide, by decide⟩ (hstraight _)
    exact (hfits (by decide) (hclear _)).1 (by decide)
  · obtain ⟨hfits, -⟩ := htold' ⟨by decide, by decide⟩ (hstraight _)
    exact (hfits (by decide) (hclear _)).2 (by decide)

/-- A path to `a` with so many slashes behind it. -/
def slashed (n : ℕ) : String :=
  String.ofList ('/' :: 'a' :: '/' :: List.replicate n '/')

theorem lt_utf8ByteSize_slashed (n : ℕ) : n < (slashed n).utf8ByteSize := by
  have hslashes : String.utf8Len (List.replicate n '/') = n := by
    induction n with
    | zero => rfl
    | succ n ih =>
      rw [List.replicate_succ, String.utf8Len_cons, ih]
      rfl
  rw [slashed, String.utf8ByteSize_ofList, String.utf8Len_cons, String.utf8Len_cons,
    String.utf8Len_cons, hslashes]
  have hslash : '/'.utf8Size = 1 := by rfl
  have ha : 'a'.utf8Size = 1 := by rfl
  omega

theorem places_slashed (e : Export) (n : ℕ) : e.Places (slashed n) (e.root ++ [[97]]) := by
  have hslashes : Url.parts (· = '/') (List.replicate n '/') = List.replicate (n + 1) [] := by
    induction n with
    | zero => rfl
    | succ n ih =>
      rw [List.replicate_succ, Url.parts_cons_of_separates (by decide), ih]
      rfl
  have hname : Url.parts (· = '/') (['a'] ++ '/' :: List.replicate n '/') =
      ['a'] :: Url.parts (· = '/') (List.replicate n '/') :=
    Url.parts_append_parts (by decide) ['a'] (List.replicate n '/')
  have hparts : Url.parts (· = '/') (slashed n).toList =
      [] :: ['a'] :: List.replicate (n + 1) [] := by
    rw [slashed, String.toList_ofList, Url.parts_cons_of_separates (by decide), ← hslashes, ← hname]
    rfl
  refine ⟨[[97]], ⟨["a"], ?_, by decide⟩, rfl⟩
  have hhead : (slashed n).toList.head? = some '/' := by
    rw [slashed, String.toList_ofList]
    rfl
  rw [ExportPath.names, if_neg (not_not_intro hhead)]
  dsimp only
  rw [hparts]
  simp

theorem resolve_slashed (wd : WorkingDirectory) (n : ℕ) :
    wd.resolve (openedSession.profile.urlPrefix ++ slashed n) = .ok (slashed n) := by
  obtain ⟨scheme, auth, hfront, hprefix⟩ := exists_front connect_opening
  have hpasted (tail : String) : (openedSession.profile.urlPrefix ++ tail).toList =
      Url.pasted scheme auth tail.toList := by
    rw [String.toList_append, hprefix, Url.pasted, Url.pasted]
    simp
  have hpath : (slashed n).toList = '/' :: 'a' :: '/' :: List.replicate n '/' := by
    rw [slashed, String.toList_ofList]
  rw [WorkingDirectory.resolve_pasted_iff hfront hpath (hpasted _) (hpasted "/")]
  have hchars : ∀ c ∈ 'a' :: '/' :: List.replicate n '/', c = 'a' ∨ c = '/' := by
    simp
  have hnone {c : Char} (ha : c ≠ 'a') (hslash : c ≠ '/') :
      c ∉ 'a' :: '/' :: List.replicate n '/' := by
    intro hmem
    rcases hchars c hmem with hc | hc
    · exact ha hc
    · exact hslash hc
  have hnodot {part : List Char} (hpart : part ∈ ('a' :: '/' :: List.replicate n '/').splitOn '/') :
      '.' ∉ part := by
    rw [← Url.parts_eq_splitOn] at hpart
    exact fun hdot => hnone (by decide) (by decide) (Url.mem_of_mem_parts hpart hdot).2
  have hscheme : Url.isSpecial "hdfs".toList = false ∧ Url.isFile "hdfs".toList = false := by
    decide +kernel
  refine ⟨⟨"hdfs".toList, some { host := "nn".toList }, .rooted [[]], none, none⟩,
    by decide +kernel, ⟨?_, ?_, ?_⟩⟩
  · rw [hscheme.1, hscheme.2]
    refine ⟨⟨hnone (by decide) (by decide), hnone (by decide) (by decide)⟩, ?_, ?_,
      Percent.decodePath_of_no_percent (hnone (by decide) (by decide)), ?_, ?_⟩
    · rintro ⟨⟩
    · exact ⟨fun hdot => hnodot hdot (by decide), fun hdots => hnodot hdots (by decide)⟩
    · rintro ⟨⟩
    · rintro ⟨⟩
  · exact ⟨hnone (by decide) (by decide), hnone (by decide) (by decide),
      hnone (by decide) (by decide)⟩
  · intro c hc
    rcases hchars c (List.mem_of_getLast? hc) with rfl | rfl <;> decide

/-- The same export with a server that is not privileged. -/
def guarded : Export :=
  { Export.exported with caller := { privileged := false } }

/-- There are objects in trees without links that a session cannot tell of: one in a directory that
the server may not search, and one under a path that is too long for a message. -/
theorem existence_withheld :
    sealed.Linkless ∧ guarded.Hosts sealed ∧
    ∃ (s : Session) (state : Client.Connection × Server.Connection Tree Request) (long : String),
      let link := Client.link (Server.sequential guarded.namesystem "nn") fun _ => true
      s.Attached guarded (Server.sequential guarded.namesystem "nn") state ∧
      state.2.store = sealed ∧
      (s.workingDirectory.resolve "/d/f" = .ok "/d/f" ∧
        guarded.Places "/d/f" [[101], [100], [102]] ∧
        FileSystem.Accepts [[101], [100], [102]] ∧ (sealed.get? [[101], [100], [102]]).isSome ∧
        ∃ error, error.errno = .acces ∧
          ((s.exists? link "/d/f").run.run state).1 = .error error) ∧
      s.workingDirectory.resolve long = .ok (slashed 65536) ∧
        guarded.Places (slashed 65536) [[101], [97]] ∧
        FileSystem.Accepts [[101], [97]] ∧ (sealed.get? [[101], [97]]).isSome ∧
        ∃ error, error.errno = .nametoolong ∧
          ((s.exists? link long).run.run state).1 = .error error := by
  obtain ⟨s, state, hhome, hattached, hstore⟩ := exists_attached_home guarded sealed
  have hosts : guarded.Hosts sealed := hosts_sealed rfl rfl
  refine ⟨linkless_sealed, hosts, s, state, openedSession.profile.urlPrefix ++ slashed 65536,
    hattached, hstore, ?_, ?_⟩
  · have hresolve : s.workingDirectory.resolve "/d/f" = .ok "/d/f" := by
      rw [hhome]
      cbv
    have hplace : guarded.Places "/d/f" [[101], [100], [102]] :=
      ⟨[[100], [102]], ⟨["d", "f"], by cbv, by cbv⟩, rfl⟩
    have haccepts : FileSystem.Accepts [[101], [100], [102]] := ⟨by decide, by decide⟩
    have hbarred : ¬FileSystem.Clear state.2.store guarded.caller [[101], [100], [102]] := by
      rw [hstore]
      intro clear
      have hsearch := clear [[101], [100]] (by decide) (by decide) (by decide)
      have hacces : FileSystem.search sealed guarded.caller [[101], [100]] =
          FileSystem.fail .acces := by rfl
      rw [hacces] at hsearch
      cases hsearch
    obtain ⟨error, herrno, hfails⟩ := saysFailed_of_not_clear hattached
      (by rwa [hstore]) hresolve hplace (by decide) haccepts (fun _ => true) hbarred
    exact ⟨hresolve, hplace, haccepts, by decide, error, herrno, hfails.exists_⟩
  · have hresolve := resolve_slashed s.workingDirectory 65536
    obtain ⟨error, herrno, hfails⟩ := saysFailed_of_long
      (Server.sequential guarded.namesystem "nn") (fun _ => true) state hresolve
      ((Nat.le_of_lt (by decide)).trans_lt (lt_utf8ByteSize_slashed 65536))
    exact ⟨hresolve, places_slashed guarded 65536, ⟨by decide, by decide⟩, by decide, error, herrno,
      hfails.exists_⟩

end Served

end Session

end MetaFs
