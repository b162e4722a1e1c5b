import Mathlib
import MetaFs.Proofs.ServedExports
/-! Setting the attributes of a node. The call finds the node, asks whether the caller owns it and
puts it back with other attributes; its kind and its owner stay, and so does every other node. -/

namespace MetaFs

namespace Tree

open FileSystem

variable {t u v : Tree} {who : Caller} {place other path : TreePath} {before after last : Node}

/-- Two trees that differ in the attributes of one node: its mode and its times. -/
structure Touches (place : TreePath) (before after : Node) (t u : Tree) : Prop where
  left : t.WellFormed
  right : u.WellFormed
  there : t.get? place = some before
  kind : after.kind = before.kind
  uid : after.uid = before.uid
  gid : after.gid = before.gid
  get?_eq : ∀ other, u.get? other = if other = place then some after else t.get? other

theorem touches_put (h : t.WellFormed) (there : t.get? place = some before)
    (kind : after.kind = before.kind) (uid : after.uid = before.uid)
    (gid : after.gid = before.gid) : Touches place before after t (t.put place after) where
  left := h
  right := (Edit.Fits.set there kind).wellFormed h
  there := there
  kind := kind
  uid := uid
  gid := gid
  get?_eq := fun _ => get?_put

namespace Touches

theorem changed (h : Touches place before after t u) : u.get? place = some after :=
  (h.get?_eq place).trans (if_pos rfl)

theorem unchanged (h : Touches place before after t u) (hne : other ≠ place) :
    u.get? other = t.get? other :=
  (h.get?_eq other).trans (if_neg hne)

theorem trans (h : Touches place before after t u) (h' : Touches place after last u v) :
    Touches place before last t v where
  left := h.left
  right := h'.right
  there := h.there
  kind := h'.kind.trans h.kind
  uid := h'.uid.trans h.uid
  gid := h'.gid.trans h.gid
  get?_eq := by
    intro other
    rw [h'.get?_eq, h.get?_eq]
    split_ifs <;> rfl

/-- What holds of the node that is touched and of all others holds of the nodes of a tree. -/
theorem exists_of_get? (h : Touches place before after t u) {node : Node}
    (hnode : u.get? other = some node) : ∃ former, t.get? other = some former ∧
      node.kind = former.kind ∧ node.uid = former.uid ∧ node.gid = former.gid := by
  by_cases hother : other = place
  · rw [hother, h.changed] at hnode
    cases hnode
    rw [hother]
    exact ⟨before, h.there, h.kind, h.uid, h.gid⟩
  · rw [h.unchanged hother] at hnode
    exact ⟨node, hnode, rfl, rfl, rfl⟩

theorem map_kind (h : Touches place before after t u) (other : TreePath) :
    (u.get? other).map Node.kind = (t.get? other).map Node.kind := by
  by_cases hother : other = place
  · rw [hother, h.changed, h.there, Option.map_some, Option.map_some, h.kind]
  · rw [h.unchanged hother]

theorem isDirectory (h : Touches place before after t u) (directory : t.IsDirectory other) :
    u.IsDirectory other := by
  obtain ⟨node, hnode, hkind⟩ := directory
  have hmap := h.map_kind other
  rw [hnode, Option.map_some, hkind, Option.map_eq_some_iff] at hmap
  exact hmap

theorem straight (h : Touches place before after t u) (straight : Straight t path) :
    Straight u path := by
  intro front node target hbegins hnode hkind
  obtain ⟨former, hformer, hsame, -⟩ := h.exists_of_get? hnode
  exact straight front former target hbegins hformer (hsame.symm.trans hkind)

theorem hosts {e : Export} (h : Touches place before after t u) (hosts : e.Hosts t) :
    e.Hosts u where
  wellFormed := h.right
  root := h.isDirectory hosts.root
  accounts := hosts.accounts
  numbers := by
    intro other node hnode
    obtain ⟨former, hformer, -, huid, hgid⟩ := h.exists_of_get? hnode
    rw [huid, hgid]
    exact hosts.numbers other former hformer

/-- The status of another object stays, unless the touched directory is on its way and may be
searched no more, or only now. -/
theorem status_eq (h : Touches place before after t u)
    (elsewhere : locate t who false path ≠ .ok place)
    (searches : Sees t who false path place → search u who place = search t who place) :
    status u who path = status t who path := by
  -- Kinds stay, so that a walk can only go another way where a directory opens or closes.
  have hsame (other : TreePath) (hsees : Sees t who false path other) : SameAt t u who other := by
    refine ⟨?_, h.map_kind other⟩
    by_cases hother : other = place
    · rw [hother]
      exact searches (hother ▸ hsees)
    · exact search_congr (h.unchanged hother)
  have hlocate : locate u who false path = locate t who false path := by
    rw [locate, locate]
    cases hcheck : check path with
    | error fault => rfl
    | ok _ => exact (walk_congr h.left h.right fun other hvisits => hsame other ⟨hcheck, hvisits⟩).1
  rw [status, status, hlocate]
  cases hplace : locate t who false path with
  | error fault => rfl
  | ok found =>
    have hfound : found ≠ place := by
      rintro rfl
      exact elsewhere hplace
    simp only [bind, Except.bind]
    rw [h.unchanged hfound]

/-- The way to the place itself stays as it is. -/
theorem clear (h : Touches place before after t u) (clear : Clear t who place) :
    Clear u who place := by
  intro front hbegins hne directory
  have hfront := h.unchanged hne
  rw [search_congr hfront]
  exact clear front hbegins hne (directory.congr hfront.symm)

/-- A privileged caller may search what it could search. -/
theorem search_of_privileged (h : Touches place before after t u) (who : Caller)
    (privileged : who.privileged = true) : search u who place = search t who place := by
  have hallows (node : Node) : who.allows node Caller.maySearch = true := by
    rw [Caller.allows, privileged]
    rfl
  have hdirectory : after.isDirectory = before.isDirectory := by
    rw [Node.isDirectory, Node.isDirectory, h.kind]
  rw [search, search, h.changed, h.there]
  dsimp only
  rw [hdirectory, hallows after, hallows before]

end Touches

end Tree

namespace FileSystem

open MetaFs.Tree

variable {t u : Tree} {who : Caller} {path : TreePath} {node : Node}

theorem Accepts.of_get? (h : t.WellFormed) (there : t.get? path = some node)
    (fits : check path = .ok ()) : Accepts path := by
  refine ⟨fits, h.plain path ?_⟩
  rw [there]
  rfl

/-- The call that both settings of attributes are. -/
def touch (t : Tree) (who : Caller) (followLast : Bool) (path : TreePath) (f : Node → Node) :
    Except Fault Tree := do
  update t (← locate t who followLast path) fun node =>
    if who.owns node then .ok (f node) else fail .perm

theorem setMode_eq_touch (t : Tree) (who : Caller) (path : TreePath) (mode : ℕ) :
    setMode t who path mode =
      touch t who true path fun node => { node with mode := mode % 0o10000 } :=
  rfl

theorem setTimes_eq_touch (t : Tree) (who : Caller) (path : TreePath) (modified accessed : Moment) :
    setTimes t who path modified accessed =
      touch t who false path fun node => { node with modified, accessed } :=
  rfl

/-- The caller gets to the node at a place and may set its attributes. -/
structure MayTouch (t : Tree) (who : Caller) (path : TreePath) (node : Node) : Prop where
  fits : check path = .ok ()
  clear : Clear t who path
  owns : who.owns node = true

theorem MayTouch.touched {before after : Node} (h : MayTouch t who path before)
    (touches : Touches path before after t u) : MayTouch u who path after where
  fits := h.fits
  clear := touches.clear h.clear
  owns := by
    rw [Caller.owns, touches.uid]
    exact h.owns

theorem MayTouch.status_eq (h : MayTouch t who path node) (wellFormed : t.WellFormed)
    (root : t.IsDirectory []) (there : t.get? path = some node) (straight : Straight t path) :
    status t who path = .ok node :=
  (status_of_clear wellFormed root (.of_get? wellFormed there h.fits) straight h.clear).1 node there

/-- On a straight path the attributes are those of the place itself, whether a link at the end would
be followed or not. -/
theorem touch_eq_ok_iff (h : t.WellFormed) (root : t.IsDirectory [])
    (there : t.get? path = some node) (straight : Straight t path) (who : Caller)
    (followLast : Bool) (f : Node → Node) :
    touch t who followLast path f = .ok u ↔ MayTouch t who path node ∧ u = t.put path (f node) := by
  have hupdate : update t path (fun node => if who.owns node then .ok (f node) else fail .perm) =
      if who.owns node then .ok (t.put path (f node)) else fail .perm := by
    rw [update, there]
    dsimp only
    split_ifs <;> rfl
  rw [touch]
  constructor
  -- What a straight path leads to is its own place, and nothing was in the way.
  · intro htouch
    cases hlocate : locate t who followLast path with
    | error fault =>
      rw [hlocate] at htouch
      cases htouch
    | ok place =>
      have fits := (locate_eq_ok hlocate).1
      obtain ⟨rfl, clear, -⟩ :=
        of_locate_straight h root (.of_get? h there fits) straight hlocate
      rw [hlocate] at htouch
      simp only [bind, Except.bind] at htouch
      rw [hupdate] at htouch
      split_ifs at htouch with howns
      · cases htouch
        exact ⟨⟨fits, clear, howns⟩, rfl⟩
      · cases htouch
  · intro htouch
    obtain ⟨⟨fits, clear, howns⟩, rfl⟩ := htouch
    have hleads := leadsTo_locate h root (.of_get? h there fits) followLast straight clear
    generalize locate t who followLast path = result at hleads
    cases hleads with
    | there =>
      simp only [bind, Except.bind]
      rw [hupdate, if_pos howns]
    | missing absent | blocked absent =>
      rw [absent] at there
      cases there

end FileSystem

/-! The attributes as they are sent and as they are reported. -/

namespace Moment

/-- A time that is given in milliseconds, and the former one otherwise. -/
def renewed (given : Option UInt64) (former : Moment) : Moment :=
  match given with
  | some millis => .ofMillis millis.toNat
  | none => former

theorem millis_ofMillis {n : ℕ} (h : n < Numeral.signedBound) :
    (ofMillis n).millis = UInt64.ofNat n := by
  have hbound : (n : Int) < 0x8000000000000000 := by
    exact_mod_cast h
  rw [ofMillis, millis, Numeral.signedBound]
  congr 1
  push_cast
  omega

end Moment

namespace Session

/-- The time is some number of milliseconds that 63 bits hold. -/
def Recordable (seconds : Int) : Prop :=
  0 ≤ seconds ∧ 1000 * seconds < Numeral.signedBound

theorem Recordable.inRange {seconds : Int} (h : Recordable seconds) : InRange seconds := by
  obtain ⟨hnonneg, hbound⟩ := h
  have hsigned : (Numeral.signedBound : Int) < UInt64.size := by decide
  exact ⟨hnonneg, by omega⟩

end Session

namespace FileInfo

/-- The same object after its mode and some of its times are set. -/
def withAttributes (info : FileInfo) (mode : UInt32) (mtime atime : Option Int) : FileInfo :=
  { info with
    permissions := mode &&& 0o7777
    lastModified := (mtime.map fun seconds => UInt64.ofNat seconds.toNat).getD info.lastModified
    lastAccess := (atime.map fun seconds => UInt64.ofNat seconds.toNat).getD info.lastAccess }

end FileInfo

namespace Export

open MetaFs.Tree

variable {e : Export} {t u : Tree} {src : String} {below : List Name} {node : Node} {body : Body}

/-- A time that is set comes back as it was given, and the other ones as they were. -/
theorem millis_renewed {time : Option Int} {given : Option UInt64} (former : Moment)
    (recordable : ∀ seconds ∈ time, Session.Recordable seconds)
    (sent : Option.Rel Session.InMillis time given) :
    (Moment.renewed given former).millis / 1000 =
      (time.map fun seconds => UInt64.ofNat seconds.toNat).getD (former.millis / 1000) := by
  cases sent with
  | none => rfl
  | @some seconds millis hmillis =>
    obtain ⟨hnonneg, hbound⟩ := recordable seconds rfl
    rw [Session.InMillis] at hmillis
    -- Below the bound nothing is cut off, and whole seconds lose nothing by the division.
    have hlt : millis.toNat < Numeral.signedBound := by omega
    rw [Moment.renewed, Moment.millis_ofMillis hlt, UInt64.ofNat_toNat, Option.map_some,
      Option.getD_some]
    apply UInt64.toNat_inj.mp
    have hsize : Numeral.signedBound < UInt64.size := by decide
    rw [UInt64.toNat_div, UInt64.toNat_ofNat_of_lt' (by omega)]
    show millis.toNat / 1000 = seconds.toNat
    omega

theorem permission_of_mode (mode : UInt32) :
    UInt32.ofNat (mode.toNat % 0o10000 % 0o10000) = mode &&& 0o7777 := by
  have hlt : mode.toNat % 0o10000 < UInt32.size :=
    (Nat.mod_lt mode.toNat (by decide)).trans (by decide)
  apply UInt32.toNat_inj.mp
  calc (UInt32.ofNat (mode.toNat % 0o10000 % 0o10000)).toNat
    _ = mode.toNat % 0o10000 := by rw [Nat.mod_mod, UInt32.toNat_ofNat_of_lt' hlt]
    _ = mode.toNat &&& 0o7777 := (Nat.and_two_pow_sub_one_eq_mod mode.toNat 12).symm
    _ = (mode &&& 0o7777).toNat := (UInt32.toNat_and mode 0o7777).symm

theorem ofStatus_touched {mode : UInt32} {mtime atime : Option Int}
    {modified accessed : Option UInt64} (e : Export) (node : Node) (front : String)
    (times : ∀ seconds ∈ mtime.toList ++ atime.toList, Session.Recordable seconds)
    (hmtime : Option.Rel Session.InMillis mtime modified)
    (hatime : Option.Rel Session.InMillis atime accessed) :
    FileInfo.ofStatus (e.statusOf []
      { node with
        mode := mode.toNat % 0o10000
        modified := Moment.renewed modified node.modified
        accessed := Moment.renewed accessed node.accessed }) front =
      (FileInfo.ofStatus (e.statusOf [] node) front).withAttributes mode mtime atime := by
  have hmodified := millis_renewed node.modified
    (fun seconds h => times seconds (List.mem_append_left _ (Option.mem_toList.mpr h))) hmtime
  have haccessed := millis_renewed node.accessed
    (fun seconds h => times seconds (List.mem_append_right _ (Option.mem_toList.mpr h))) hatime
  rw [FileInfo.withAttributes, ← permission_of_mode mode]
  dsimp only [FileInfo.ofStatus, statusOf]
  rw [hmodified, haccessed]
  rfl

/-! The two requests. -/

/-- A request that changes the tree succeeds if the change does. -/
theorem answered_eq_ok_iff {result : Except Fault Tree} {reply : Reply} :
    (match result with
      | .ok t' => (.ok (.reply reply), t')
      | .error fault => (.error fault.systemError, t) : Except Error Body × Tree) = (.ok body, u) ↔
      body = .reply reply ∧ result = .ok u := by
  cases result with
  | error fault => simp
  | ok t' => simp [eq_comm]

theorem run_setTimes {mtime atime : Option UInt64} (hbelow : Spells src below) (t : Tree) :
    (e.namesystem (.setTimes src mtime atime)).run t =
      match FileSystem.status t e.caller (e.root ++ below) with
      | .error fault => (.error fault.systemError, t)
      | .ok node =>
        match FileSystem.setTimes t e.caller (e.root ++ below)
          (Moment.renewed mtime node.modified) (Moment.renewed atime node.accessed) with
        | .ok t' => (.ok (.reply .setTimes), t')
        | .error fault => (.error fault.systemError, t) := by
  have hlook := run_look (f := (FileSystem.status · e.caller (e.root ++ below))) t
  refine (Over.run_bind_of_ok (run_path hbelow t)).trans ?_
  cases hstatus : FileSystem.status t e.caller (e.root ++ below) with
  | error fault =>
    rw [hstatus] at hlook
    exact Over.run_bind_of_error hlook
  | ok node =>
    rw [hstatus] at hlook
    refine (Over.run_bind_of_ok hlook).trans ?_
    have hchange := run_change Fault.systemError (FileSystem.setTimes · e.caller (e.root ++ below)
      (Moment.renewed mtime node.modified) (Moment.renewed atime node.accessed)) t
    dsimp only
    generalize FileSystem.setTimes t e.caller (e.root ++ below) _ _ = result at hchange ⊢
    cases result with
    | error fault => exact Over.run_bind_of_error hchange
    | ok t' => exact (Over.run_bind_of_ok hchange).trans rfl

section Straight

variable (hosts : e.Hosts t) (hbelow : Spells src below)
  (there : t.get? (e.root ++ below) = some node)
  (straight : FileSystem.Straight t (e.root ++ below))
include hosts hbelow there straight

theorem run_setPermission_eq_ok_iff {permission : UInt32} :
    (e.namesystem (.setPermission src permission)).run t = (.ok body, u) ↔
      body = .reply .setPermission ∧ FileSystem.MayTouch t e.caller (e.root ++ below) node ∧
        u = t.put (e.root ++ below) { node with mode := permission.toNat % 0o10000 } := by
  have root := isDirectory_of_above hosts.wellFormed hosts.root List.nil_prefix
  have htouch := FileSystem.touch_eq_ok_iff (u := u) hosts.wellFormed root there straight e.caller
    true fun found => { found with mode := permission.toNat % 0o10000 }
  rw [run_setPermission hbelow, ← htouch, ← FileSystem.setMode_eq_touch]
  exact answered_eq_ok_iff

theorem run_setTimes_eq_ok_iff {mtime atime : Option UInt64} :
    (e.namesystem (.setTimes src mtime atime)).run t = (.ok body, u) ↔
      body = .reply .setTimes ∧ FileSystem.MayTouch t e.caller (e.root ++ below) node ∧
        u = t.put (e.root ++ below)
          { node with
            modified := Moment.renewed mtime node.modified
            accessed := Moment.renewed atime node.accessed } := by
  have root := isDirectory_of_above hosts.wellFormed hosts.root List.nil_prefix
  have htouch := FileSystem.touch_eq_ok_iff (u := u) hosts.wellFormed root there straight e.caller
    false fun found =>
      { found with
        modified := Moment.renewed mtime node.modified
        accessed := Moment.renewed atime node.accessed }
  rw [run_setTimes hbelow]
  cases hstatus : FileSystem.status t e.caller (e.root ++ below) with
  | ok found =>
    obtain ⟨place, hplace, hfound⟩ := status_eq_ok hstatus
    have accepts : FileSystem.Accepts (e.root ++ below) :=
      .of_get? hosts.wellFormed there (FileSystem.locate_eq_ok hplace).1
    obtain ⟨rfl, -⟩ :=
      FileSystem.of_locate_straight hosts.wellFormed root accepts straight hplace
    obtain rfl : node = found := Option.some.inj (there.symm.trans hfound)
    rw [← htouch, ← FileSystem.setTimes_eq_touch]
    exact answered_eq_ok_iff
  -- Who may touch the node gets its status, too.
  | error fault =>
    constructor
    · intro hrun
      cases hrun
    · intro hmay
      have hnode := hmay.2.1.status_eq hosts.wellFormed root there straight
      rw [hstatus] at hnode
      cases hnode

end Straight

end Export

end MetaFs
