import Mathlib
import MetaFs.Proofs.Attributes
import MetaFs.Proofs.Existence
/-! Attributes that are set through a session are reported as they were set, and nothing else of the
tree is changed by them. -/

namespace MetaFs

namespace Session

section Granted

variable {σ : Type} {s : Session} {link : Link σ} {given : String} {state next : σ}

/-- A command that succeeds has got a reply that grants it. -/
theorem Command.exists_of_run_ok {c : Command} {answer : c.Answer}
    (h : (c.run s link).run.run state = (.ok answer, next)) :
    ∃ paths request context reply,
      List.Forall₂ (fun given path => s.workingDirectory.resolve given = .ok path) c.texts paths ∧
      Asks s c paths request context ∧
      (link.call request).run.run state = (.ok (.reply reply), next) ∧
      Grants s c paths reply answer := by
  rcases handles_run s link c with
    ⟨-, hrefused⟩ | ⟨-, paths, hpaths, request, context, hasks, hsends⟩
  · obtain ⟨error, -, hrun, -⟩ := hrefused state []
    rw [h] at hrun
    cases hrun
  · obtain ⟨result, outcome, last, hresult, hrun, -, houtcome⟩ := hsends state []
    rw [h] at hrun
    cases hrun
    cases houtcome with
    | granted grants => exact ⟨paths, request, context, _, hpaths, hasks, hresult, grants⟩

theorem of_chmod_ok {mode : UInt32}
    (h : (s.chmod link given mode).run.run state = (.ok (), next)) :
    ∃ src, s.workingDirectory.resolve given = .ok src ∧
      (link.call (.setPermission src mode)).run.run state =
        (.ok (.reply .setPermission), next) := by
  obtain ⟨paths, request, context, reply, hpaths, hasks, hcall, hgrants⟩ :=
    Command.exists_of_run_ok (c := .chmod given mode) h
  cases hasks with
  | @chmod _ src =>
    cases hgrants
    exact ⟨src, (List.forall₂_cons.mp hpaths).1, hcall⟩

theorem of_setTimes_ok {mtime atime : Option Int}
    (h : (s.setTimes link given mtime atime).run.run state = (.ok (), next)) :
    ∃ src modified accessed, s.workingDirectory.resolve given = .ok src ∧
      Option.Rel InMillis mtime modified ∧ Option.Rel InMillis atime accessed ∧
      (link.call (.setTimes src modified accessed)).run.run state =
        (.ok (.reply .setTimes), next) := by
  obtain ⟨paths, request, context, reply, hpaths, hasks, hcall, hgrants⟩ :=
    Command.exists_of_run_ok (c := .setTimes given mtime atime) h
  cases hasks with
  | @setTimes _ src _ _ modified accessed hmtime hatime =>
    cases hgrants
    exact ⟨src, modified, accessed, (List.forall₂_cons.mp hpaths).1, hmtime, hatime, hcall⟩

theorem run_chmod_of_granted {src : String} {mode : UInt32}
    (resolves : s.workingDirectory.resolve given = .ok src)
    (h : (link.call (.setPermission src mode)).run.run state =
      (.ok (.reply .setPermission), next)) :
    (s.chmod link given mode).run.run state = (.ok (), next) := by
  rw [chmod, path_of_resolves resolves, pure_bind]
  exact Over.run_bind_of_ok (run_call h)

/-- Times that can be sent are sent, and the reply decides. -/
theorem run_setTimes_of_granted {src : String} {mtime atime : Option Int}
    (resolves : s.workingDirectory.resolve given = .ok src)
    (times : ∀ seconds ∈ mtime.toList ++ atime.toList, InRange seconds)
    (h : ∀ modified accessed, Option.Rel InMillis mtime modified →
      Option.Rel InMillis atime accessed → ∃ next,
        (link.call (.setTimes src modified accessed)).run.run state =
          (.ok (.reply .setTimes), next)) :
    ∃ next, (s.setTimes link given mtime atime).run.run state = (.ok (), next) := by
  simp only [List.forall_mem_append, Option.mem_toList] at times
  obtain ⟨modified, hmodified, hmtime⟩ := requestTime_of_inRange times.1
    s!"set_times({src}, {Shown.option Shown.number mtime}, {Shown.option Shown.number atime})"
  obtain ⟨accessed, haccessed, hatime⟩ := requestTime_of_inRange times.2
    s!"set_times({src}, {Shown.option Shown.number mtime}, {Shown.option Shown.number atime})"
  obtain ⟨next, hcall⟩ := h modified accessed hmodified haccessed
  rw [setTimes, path_of_resolves resolves, pure_bind]
  dsimp only
  rw [hmtime, pure_bind, hatime, pure_bind]
  exact ⟨next, Over.run_bind_of_ok (run_call hcall)⟩

end Granted

section Served

variable {s : Session} {e : Export} {peer : Client.Peer (Server.Connection Tree Request)}
  {reaches : Address → Bool}
  {state middle next : Client.Connection × Server.Connection Tree Request}
  {given src : String} {place : TreePath} {node : Node} {request : Request} {body : Body}

/-- The paths of a request that gets a reply fit in a message. -/
theorem shortPaths_of_call_ok
    (h : ((Client.link peer reaches).call request).run.run state = (.ok body, next)) :
    Client.ShortPaths (.request request) := by
  by_contra long
  obtain ⟨error, -, hstep⟩ := Client.step_of_long_path long
  have hcall : ((Client.link peer reaches).call request).run.run state = (.error error, state) :=
    hstep peer state.1 state.2
  rw [h] at hcall
  cases hcall

/-- A request with one path that gets a reply has got the answer of the export. -/
theorem answer_of_call_ok (h : e.Served peer state) (paths : request.paths = [src])
    (labels : request.labels = []) (raw : request.operation ≠ .getListing)
    (hcall : ((Client.link peer reaches).call request).run.run state = (.ok body, next)) :
    src.utf8ByteSize ≤ Wire.textLimit ∧
      (e.namesystem request).run state.2.store = (.ok body, next.2.store) ∧
      e.Served peer next := by
  have short : src.utf8ByteSize ≤ Wire.textLimit := by
    apply shortPaths_of_call_ok hcall
    rw [Body.paths, paths]
    exact List.mem_singleton_self src
  obtain ⟨hanswer, hserved, hstore⟩ :=
    h.of_call_ok (Request.travels_of_path paths labels raw short) hcall
  exact ⟨short, Prod.ext hanswer hstore.symm, hserved⟩

section Object

variable (h : s.Attached e peer state) (hosts : e.Hosts state.2.store)
  (resolves : s.workingDirectory.resolve given = .ok src) (hplace : e.Places src place)
  (there : state.2.store.get? place = some node)
  (straight : FileSystem.Straight state.2.store place)
include h hosts resolves hplace there straight

/-- A mode that is set is set at the place of the path and nowhere else. -/
theorem touches_of_chmod_ok {mode : UInt32}
    (hrun : (s.chmod (Client.link peer reaches) given mode).run.run state = (.ok (), next)) :
    s.Attached e peer next ∧ src.utf8ByteSize ≤ Wire.textLimit ∧
      FileSystem.MayTouch state.2.store e.caller place node ∧
      Tree.Touches place node { node with mode := mode.toNat % 0o10000 } state.2.store
        next.2.store := by
  obtain ⟨src', resolves', hcall⟩ := of_chmod_ok hrun
  obtain rfl : src = src' := Except.ok.inj (resolves.symm.trans resolves')
  obtain ⟨below, hbelow, rfl⟩ := hplace
  obtain ⟨short, hanswer, hserved⟩ :=
    answer_of_call_ok h.served rfl rfl Operation.noConfusion hcall
  obtain ⟨-, hmay, hput⟩ :=
    (Export.run_setPermission_eq_ok_iff hosts hbelow there straight).mp hanswer
  refine ⟨⟨h.kept, hserved⟩, short, hmay, ?_⟩
  rw [hput]
  exact Tree.touches_put hosts.wellFormed there rfl rfl rfl

/-- So are times. -/
theorem touches_of_setTimes_ok {mtime atime : Option Int}
    (hrun : (s.setTimes (Client.link peer reaches) given mtime atime).run.run state =
      (.ok (), next)) :
    s.Attached e peer next ∧ FileSystem.MayTouch state.2.store e.caller place node ∧
      ∃ modified accessed, Option.Rel InMillis mtime modified ∧
        Option.Rel InMillis atime accessed ∧
        Tree.Touches place node
          { node with
            modified := Moment.renewed modified node.modified
            accessed := Moment.renewed accessed node.accessed } state.2.store next.2.store := by
  obtain ⟨src', modified, accessed, resolves', hmtime, hatime, hcall⟩ := of_setTimes_ok hrun
  obtain rfl : src = src' := Except.ok.inj (resolves.symm.trans resolves')
  obtain ⟨below, hbelow, rfl⟩ := hplace
  obtain ⟨-, hanswer, hserved⟩ :=
    answer_of_call_ok h.served rfl rfl Operation.noConfusion hcall
  obtain ⟨-, hmay, hput⟩ :=
    (Export.run_setTimes_eq_ok_iff hosts hbelow there straight).mp hanswer
  refine ⟨⟨h.kept, hserved⟩, hmay, modified, accessed, hmtime, hatime, ?_⟩
  rw [hput]
  exact Tree.touches_put hosts.wellFormed there rfl rfl rfl

/-! Whoever may do so gets to set both. -/

theorem exists_run_chmod (reaches : Address → Bool) (short : src.utf8ByteSize ≤ Wire.textLimit)
    (may : FileSystem.MayTouch state.2.store e.caller place node) (mode : UInt32) :
    ∃ next, (s.chmod (Client.link peer reaches) given mode).run.run state = (.ok (), next) := by
  obtain ⟨below, hbelow, rfl⟩ := hplace
  have hanswer : (e.namesystem (.setPermission src mode)).run state.2.store =
      (.ok (.reply .setPermission), _) :=
    (Export.run_setPermission_eq_ok_iff hosts hbelow there straight).mpr ⟨rfl, may, rfl⟩
  obtain ⟨next, hcall⟩ := h.served.exists_call_of_answer reaches
    (Request.travels_of_path rfl rfl Operation.noConfusion short) hanswer rfl (by decide)
  exact ⟨next, run_chmod_of_granted resolves hcall⟩

theorem exists_run_setTimes (reaches : Address → Bool)
    (short : src.utf8ByteSize ≤ Wire.textLimit)
    (may : FileSystem.MayTouch state.2.store e.caller place node) {mtime atime : Option Int}
    (times : ∀ seconds ∈ mtime.toList ++ atime.toList, InRange seconds) :
    ∃ next, (s.setTimes (Client.link peer reaches) given mtime atime).run.run state =
      (.ok (), next) := by
  obtain ⟨below, hbelow, rfl⟩ := hplace
  apply run_setTimes_of_granted resolves times
  intro modified accessed _ _
  have hanswer : (e.namesystem (.setTimes src modified accessed)).run state.2.store =
      (.ok (.reply .setTimes), _) :=
    (Export.run_setTimes_eq_ok_iff hosts hbelow there straight).mpr ⟨rfl, may, rfl⟩
  exact h.served.exists_call_of_answer reaches
    (Request.travels_of_path rfl rfl Operation.noConfusion short) hanswer rfl (by decide)

end Object

section Frame

variable {last : Client.Connection × Server.Connection Tree Request}

/-- What is told of a path depends on nothing but the status of its place. -/
theorem Attached.stat_congr (h : s.Attached e peer state) (h' : s.Attached e peer last)
    (hosts : e.Hosts state.2.store) (hosts' : e.Hosts last.2.store)
    (resolves : s.workingDirectory.resolve given = .ok src) (hplace : e.Places src place)
    (same : FileSystem.status last.2.store e.caller place =
      FileSystem.status state.2.store e.caller place) :
    ((s.stat (Client.link peer reaches) given).run.run last).1 =
      ((s.stat (Client.link peer reaches) given).run.run state).1 := by
  by_cases short : src.utf8ByteSize ≤ Wire.textLimit
  · obtain ⟨next, hstat, -⟩ := h.stat reaches hosts resolves hplace short
    obtain ⟨next', hstat', -⟩ := h'.stat reaches hosts' resolves hplace short
    rw [hstat, hstat', same]
  · obtain ⟨error, -, hstat⟩ :=
      exists_run_stat_of_long peer reaches resolves (Nat.lt_of_not_le short)
    rw [hstat, hstat]

end Frame

/-- The mode and the times that are set on a file or a directory are reported as they were set, a
time that is not given is reported as before, and so is all else about the object. No other object
is changed; what a session is told of it is the same as before, unless the server gets to it through
the directory whose mode was set and that mode says otherwise. -/
theorem attributes_reported {last : Client.Connection × Server.Connection Tree Request}
    {mode : UInt32} {mtime atime : Option Int} (h : s.Attached e peer state)
    (hosts : e.Hosts state.2.store) (resolves : s.workingDirectory.resolve given = .ok src)
    (hplace : e.Places src place) (there : state.2.store.get? place = some node)
    (straight : FileSystem.Straight state.2.store place)
    (times : ∀ seconds ∈ mtime.toList ++ atime.toList, Recordable seconds)
    (hchmod : (s.chmod (Client.link peer reaches) given mode).run.run state = (.ok (), middle))
    (hset : (s.setTimes (Client.link peer reaches) given mtime atime).run.run middle =
      (.ok (), last)) :
    s.Attached e peer last ∧
      (∃ info, ((s.stat (Client.link peer reaches) given).run.run state).1 = .ok info ∧
        ((s.stat (Client.link peer reaches) given).run.run last).1 =
          .ok (info.withAttributes mode mtime atime)) ∧
      (∀ other, other ≠ place → last.2.store.get? other = state.2.store.get? other) ∧
      ∀ given' src' other, s.workingDirectory.resolve given' = .ok src' → e.Places src' other →
        FileSystem.locate state.2.store e.caller false other ≠ .ok place →
        (FileSystem.Sees state.2.store e.caller false other place →
          FileSystem.search last.2.store e.caller place =
            FileSystem.search state.2.store e.caller place) →
        ((s.stat (Client.link peer reaches) given').run.run last).1 =
          ((s.stat (Client.link peer reaches) given').run.run state).1 := by
  obtain ⟨attached, short, may, htouches⟩ :=
    touches_of_chmod_ok h hosts resolves hplace there straight hchmod
  obtain ⟨attached', may', modified, accessed, hmtime, hatime, htouches'⟩ :=
    touches_of_setTimes_ok attached (htouches.hosts hosts) resolves hplace htouches.changed
      (htouches.straight straight) hset
  -- The second request finds what the first one left, so that both are one change of the node.
  have hall := htouches.trans htouches'
  have hosts' := hall.hosts hosts
  refine ⟨attached', ?_, fun other => hall.unchanged, ?_⟩
  · have hroot := Export.isDirectory_of_above hosts.wellFormed hosts.root List.nil_prefix
    have hroot' := Export.isDirectory_of_above hosts'.wellFormed hosts'.root List.nil_prefix
    obtain ⟨next, hstat, -⟩ := h.stat reaches hosts resolves hplace short
    obtain ⟨next', hstat', -⟩ := attached'.stat reaches hosts' resolves hplace short
    -- Who may set the attributes of the node may look at it, before and after.
    rw [may.status_eq hosts.wellFormed hroot there straight] at hstat
    rw [(may'.touched htouches').status_eq hosts'.wellFormed hroot' hall.changed
      (hall.straight straight)] at hstat'
    refine ⟨_, congrArg Prod.fst hstat, ?_⟩
    rw [hstat', ← Export.ofStatus_touched e node _ times hmtime hatime]
    rfl
  · intro given' src' other resolves' hother elsewhere searches
    exact h.stat_congr attached' hosts hosts' resolves' hother (hall.status_eq elsewhere searches)

theorem attributes_reported_sealed :
    ∃ (s : Session) (state middle last : Client.Connection × Server.Connection Tree Request)
      (info : FileInfo),
      let link := Client.link (Server.sequential Export.exported.namesystem "nn") fun _ => true
      state.2.store = sealed ∧
      (s.chmod link "/a" 0o100640).run.run state = (.ok (), middle) ∧
      (s.setTimes link "/a" (some 1234567890) none).run.run middle = (.ok (), last) ∧
      ((s.stat link "/a").run.run state).1 = .ok info ∧
      ((s.stat link "/a").run.run last).1 =
        .ok { info with permissions := 0o640, lastModified := 1234567890 } ∧
      ((s.stat link "/d/f").run.run last).1 = ((s.stat link "/d/f").run.run state).1 := by
  obtain ⟨s, state, hhome, hattached, hstore⟩ := exists_attached_home Export.exported sealed
  have hosts : Export.exported.Hosts state.2.store := by
    rw [hstore]
    exact hosts_sealed rfl rfl
  have resolves : s.workingDirectory.resolve "/a" = .ok "/a" := by
    rw [hhome]
    cbv
  have hplace : Export.exported.Places "/a" [[101], [97]] :=
    ⟨[[97]], ⟨["a"], by cbv, by cbv⟩, rfl⟩
  have there : state.2.store.get? [[101], [97]] = some { kind := .file 5, mode := 0o644 } := by
    rw [hstore]
    rfl
  have straight : FileSystem.Straight state.2.store [[101], [97]] := by
    rw [hstore]
    exact FileSystem.straight_of_linkless linkless_sealed _
  have may : FileSystem.MayTouch state.2.store Export.exported.caller [[101], [97]]
      { kind := .file 5, mode := 0o644 } :=
    ⟨by decide, FileSystem.clear_of_privileged rfl _, rfl⟩
  have times : ∀ seconds ∈ (some 1234567890 : Option Int).toList ++ (none : Option Int).toList,
      Recordable seconds := by
    intro seconds hseconds
    obtain rfl : seconds = 1234567890 := List.mem_singleton.mp hseconds
    exact ⟨by decide, by decide⟩
  obtain ⟨middle, hchmod⟩ := exists_run_chmod hattached hosts resolves hplace there straight
    (fun _ => true) (by decide) may 0o100640
  obtain ⟨attached, -, -, htouches⟩ :=
    touches_of_chmod_ok hattached hosts resolves hplace there straight hchmod
  obtain ⟨last, hset⟩ := exists_run_setTimes attached (htouches.hosts hosts) resolves hplace
    htouches.changed (htouches.straight straight) (fun _ => true) (by decide)
    (may.touched htouches) fun seconds hseconds => (times seconds hseconds).inRange
  obtain ⟨-, -, _, _, -, -, htouches'⟩ := touches_of_setTimes_ok attached (htouches.hosts hosts)
    resolves hplace htouches.changed (htouches.straight straight) hset
  obtain ⟨-, ⟨info, hbefore, hafter⟩, -, hothers⟩ :=
    attributes_reported hattached hosts resolves hplace there straight times hchmod hset
  refine ⟨s, state, middle, last, info, hstore, hchmod, hset, hbefore, hafter, ?_⟩
  apply hothers "/d/f" "/d/f" [[101], [100], [102]]
  · rw [hhome]
    cbv
  · exact ⟨[[100], [102]], ⟨["d", "f"], by cbv, by cbv⟩, rfl⟩
  · intro hlocate
    have hroot := Export.isDirectory_of_above hosts.wellFormed hosts.root List.nil_prefix
    have hstraight : FileSystem.Straight state.2.store [[101], [100], [102]] := by
      rw [hstore]
      exact FileSystem.straight_of_linkless linkless_sealed _
    have hplace' := (FileSystem.of_locate_straight hosts.wellFormed hroot ⟨by decide, by decide⟩
      hstraight hlocate).1
    exact absurd hplace' (by decide)
  · intro _
    exact (htouches.trans htouches').search_of_privileged Export.exported.caller rfl

end Served

end Session

end MetaFs
