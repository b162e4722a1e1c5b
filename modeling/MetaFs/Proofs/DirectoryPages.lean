import Mathlib
import MetaFs.Proofs.ChangingDirectories
import MetaFs.Proofs.StraightPaths
/-! The pages that an export makes of a directory, one behind the other. The cursor of each is the
last name of the page before it, so that together they have each entry once. -/

namespace MetaFs

namespace FileSystem

open MetaFs.Tree

variable {t : Tree} {who : Caller} {path place : TreePath} {node found : Node} {name : Name}

/-- A path leads to a directory, and not over a link at its end. -/
structure LeadsInto (t : Tree) (who : Caller) (path place : TreePath) (node : Node) : Prop where
  located : locate t who false path = .ok place
  there : t.get? place = some node
  directory : node.kind = .directory

/-- Why the entry of a name cannot be looked at in a directory at the end of a path: what is too
long is refused before the directory is searched. -/
def barrier? (who : Caller) (path : TreePath) (node : Node) (name : Name) : Option Fault :=
  match check (path ++ [name]) with
  | .error fault => some fault
  | .ok () => if who.allows node Caller.maySearch then none else some (.errno .acces)

namespace LeadsInto

theorem status_eq (h : LeadsInto t who path place node) : status t who path = .ok node := by
  rw [status, h.located]
  simp only [bind, Except.bind]
  rw [h.there]
  rfl

theorem followed (h : LeadsInto t who path place node) : locate t who true path = .ok place := by
  obtain ⟨hcheck, hwalk⟩ := locate_eq_ok h.located
  have hlink : ∀ target, (t.get? place).map Node.kind ≠ some (.symlink target) := by
    intro target
    rw [h.there, Option.map_some, h.directory]
    exact Option.some_injective _ |>.ne (by rintro ⟨⟩)
  rw [locate_of_check hcheck]
  exact (walk_follow hwalk hlink).1

theorem isDirectory (h : LeadsInto t who path place node) : node.isDirectory = true :=
  decide_eq_true h.directory

theorem list_eq (h : LeadsInto t who path place node) : list t who path =
    if who.allows node Caller.mayRead then .ok (t.names place) else fail .acces := by
  rw [list, h.followed]
  simp only [bind, Except.bind]
  rw [h.there]
  dsimp only
  rw [h.isDirectory]
  rfl

theorem search_eq (h : LeadsInto t who path place node) : search t who place =
    if who.allows node Caller.maySearch then .ok () else fail .acces := by
  rw [search, h.there]
  dsimp only
  rw [h.isDirectory]
  rfl

/-- An entry is found by its name behind the path of the directory. -/
theorem status_entry (h : LeadsInto t who path place node) (wellFormed : t.WellFormed)
    (entry : t.get? (place ++ [name]) = some found) : status t who (path ++ [name]) =
      match barrier? who path node name with
      | some fault => .error fault
      | none => .ok found := by
  have hplain : name.Plain := wellFormed.plain (place ++ [name]) (by rw [entry]; rfl) name
    (List.mem_append_right place List.mem_cons_self)
  have hname : checkName name = .ok () := if_neg (Nat.not_lt.mpr hplain.length_le)
  rw [status, barrier?]
  cases hcheck : check (path ++ [name]) with
  | error fault =>
    rw [locate, hcheck]
    rfl
  | ok _ =>
    have hlocate : locate t who false (path ++ [name]) = enter t who place name := by
      rw [locate_of_check hcheck, walk_concat hplain.ne_dot hplain.ne_dots,
        (locate_eq_ok h.followed).2]
      rfl
    rw [hlocate, enter, h.search_eq, hname]
    dsimp only
    split_ifs
    · simp only [bind, Except.bind, pure, Except.pure, entry]
    · rfl

end LeadsInto

end FileSystem

namespace Export

open MetaFs.Tree FileSystem

variable {e : Export} {t : Tree} {src : String} {below : List Name} {place : TreePath}
  {node : Node} {names : List Name}

/-- The statuses of the entries of a directory with these names. -/
def statuses (e : Export) (t : Tree) (place : TreePath) (names : List Name) : List FileStatus :=
  names.filterMap fun name => (t.get? (place ++ [name])).map (e.statusOf name)

/-- The names on the page number `k` of a directory. -/
def namesAt (e : Export) (t : Tree) (place : TreePath) (k : ℕ) : List Name :=
  ((t.names place).drop (k * e.listingLimit)).take e.listingLimit

def pageAt (e : Export) (t : Tree) (place : TreePath) (k : ℕ) : Page where
  entries := e.statuses t place (e.namesAt t place k)
  remaining := UInt32.ofNat
    (min ((t.names place).length - (k + 1) * e.listingLimit) (UInt32.size - 1))

/-- The last name before the page number `k`. -/
def cursorAt (e : Export) (t : Tree) (place : TreePath) (k : ℕ) : Data :=
  ⟨((t.names place).take (k * e.listingLimit)).getLast?.getD []⟩

theorem cursorAt_zero (e : Export) (t : Tree) (place : TreePath) : e.cursorAt t place 0 = {} := by
  rw [cursorAt, Nat.zero_mul]
  rfl

/-- The number of pages that a directory with so many entries has. -/
def pageCount (e : Export) (n : ℕ) : ℕ := max 1 (n ⌈/⌉ e.listingLimit)

theorem succ_lt_pageCount_iff (limited : 0 < e.listingLimit) {k n : ℕ} :
    k + 1 < e.pageCount n ↔ (k + 1) * e.listingLimit < n := by
  have hceil : n ⌈/⌉ e.listingLimit ≤ k + 1 ↔ n ≤ e.listingLimit * (k + 1) :=
    ceilDiv_le_iff_le_mul limited
  rw [pageCount, lt_max_iff, ← not_le (a := n ⌈/⌉ e.listingLimit), hceil, mul_comm]
  omega

theorem pageCount_pos (e : Export) (n : ℕ) : 0 < e.pageCount n := lt_max_of_lt_left Nat.one_pos

theorem le_pageCount_mul (limited : 0 < e.listingLimit) (n : ℕ) :
    n ≤ e.pageCount n * e.listingLimit := by
  obtain ⟨k, hk⟩ := Nat.exists_eq_succ_of_ne_zero (e.pageCount_pos n).ne'
  rw [hk, ← not_lt, ← succ_lt_pageCount_iff limited]
  exact hk.not_gt

section Statuses

theorem names_statuses (h : ∀ name ∈ names, (t.get? (place ++ [name])).isSome) :
    (e.statuses t place names).map (fun status => status.path.bytes) = names := by
  induction names with
  | nil => rfl
  | cons name names ih =>
    obtain ⟨hname, hnames⟩ := List.forall_mem_cons.mp h
    obtain ⟨node, hnode⟩ := Option.isSome_iff_exists.mp hname
    rw [statuses, List.filterMap_cons, hnode]
    exact congrArg (name :: ·) (ih hnames)

theorem length_statuses (e : Export) (t : Tree) (place : TreePath) :
    (e.statuses t place (t.names place)).length = (t.names place).length := by
  have hall : ∀ name ∈ t.names place, (t.get? (place ++ [name])).isSome :=
    fun _ hname => mem_names.mp hname
  simpa using congrArg List.length (names_statuses (e := e) hall)

theorem mem_names_of_mem_namesAt {k : ℕ} {name : Name} (h : name ∈ e.namesAt t place k) :
    name ∈ t.names place :=
  List.mem_of_mem_drop (List.mem_of_mem_take h)

theorem names_pageAt (k : ℕ) : (e.pageAt t place k).names = e.namesAt t place k :=
  names_statuses fun _ hname => mem_names.mp (mem_names_of_mem_namesAt hname)

end Statuses

/-- The names behind the last of the first so many are the others. -/
theorem filter_lt_eq_drop {all : List Name} (sorted : all.Pairwise (· < ·)) (named : [] ∉ all)
    (m : ℕ) : all.filter ((all.take m).getLast?.getD [] < ·) = all.drop m := by
  cases hlast : (all.take m).getLast? with
  | none =>
    have hnil : all.take m = [] := List.getLast?_eq_none_iff.mp hlast
    have hdrop : all.drop m = all := by
      have hall := List.take_append_drop m all
      rwa [hnil, List.nil_append] at hall
    rw [hdrop, Option.getD_none, List.filter_eq_self]
    intro name hname
    obtain ⟨b, rest, rfl⟩ := List.exists_cons_of_ne_nil fun hnil => named (hnil ▸ hname)
    exact decide_eq_true (List.nil_lt_cons b rest)
  | some last =>
    obtain ⟨front, hfront⟩ := List.getLast?_eq_some_iff.mp hlast
    have hall := List.take_append_drop m all
    rw [hfront] at hall
    rw [← hall, List.pairwise_append, List.pairwise_append] at sorted
    obtain ⟨⟨-, -, hbefore⟩, -, hbehind⟩ := sorted
    nth_rewrite 1 [← hall]
    rw [Option.getD_some, List.filter_append, List.filter_eq_nil_iff.mpr, List.nil_append,
      List.filter_eq_self]
    · intro name hname
      exact decide_eq_true (hbehind last (by simp) name hname)
    · intro name hname hlt
      have hlt := of_decide_eq_true hlt
      rcases List.mem_append.mp hname with hmem | hmem
      · exact Std.lt_irrefl (Std.lt_trans hlt (hbefore name hmem last List.mem_cons_self))
      · rw [List.mem_singleton.mp hmem] at hlt
        exact Std.lt_irrefl hlt

theorem length_cursorAt_le (wellFormed : t.WellFormed) (k : ℕ) :
    (e.cursorAt t place k).bytes.length ≤ nameLimit := by
  rw [cursorAt]
  cases hlast : ((t.names place).take (k * e.listingLimit)).getLast? with
  | none => exact Nat.zero_le _
  | some name =>
    have hname : name ∈ t.names place := List.mem_of_mem_take (List.mem_of_getLast? hlast)
    exact (wellFormed.plain (place ++ [name]) (mem_names.mp hname) name
      (List.mem_append_right place List.mem_cons_self)).length_le

theorem pageNames_cursorAt (proper : t.Proper) (k : ℕ) :
    pageNames e.listingLimit (e.cursorAt t place k).bytes (t.names place) =
      (e.namesAt t place k, (t.names place).length - (k + 1) * e.listingLimit) := by
  have hlater := filter_lt_eq_drop (pairwise_names proper place) (nil_notMem_names proper place)
    (k * e.listingLimit)
  rw [pageNames, cursorAt, hlater, List.length_drop, Nat.sub_sub, Nat.succ_mul]
  rfl

/-- As long as there are pages to come, a page has names, and the next one starts behind them. -/
theorem continues_pageAt (limited : 0 < e.listingLimit) {k : ℕ}
    (h : k + 1 < e.pageCount (t.names place).length) :
    (e.pageAt t place k).Continues ∧
      (e.pageAt t place k).cursor = e.cursorAt t place (k + 1) := by
  rw [succ_lt_pageCount_iff limited] at h
  have hsplit : (k + 1) * e.listingLimit = k * e.listingLimit + e.listingLimit :=
    Nat.succ_mul k e.listingLimit
  have hslice : (e.pageAt t place k).names ≠ [] := by
    rw [names_pageAt, namesAt, ← List.length_pos_iff, List.length_take, List.length_drop]
    omega
  have hcontinues : (e.pageAt t place k).Continues := by
    refine ⟨fun hnil => hslice (List.map_eq_nil_iff.mpr hnil), ?_⟩
    have hlt : min ((t.names place).length - (k + 1) * e.listingLimit) (UInt32.size - 1) <
        UInt32.size := lt_of_le_of_lt (min_le_right _ _) (by decide)
    rw [pageAt, ne_eq, ← UInt32.toNat_inj, UInt32.toNat_ofNat_of_lt' hlt]
    simp only [UInt32.toNat_zero, UInt32.size]
    omega
  refine ⟨hcontinues, ?_⟩
  have hlast : ((t.names place).take ((k + 1) * e.listingLimit)).getLast? =
      (e.pageAt t place k).names.getLast? := by
    rw [hsplit, List.take_add]
    rw [names_pageAt] at hslice ⊢
    exact List.getLast?_append_of_ne_nil _ hslice
  have hbytes := Page.cursor_bytes hcontinues []
  rw [Page.reach, ← hlast] at hbytes
  exact congrArg Data.mk hbytes

theorem remaining_pageAt (limited : 0 < e.listingLimit) {k : ℕ}
    (h : k + 1 = e.pageCount (t.names place).length) : (e.pageAt t place k).remaining = 0 := by
  have hle : (t.names place).length ≤ (k + 1) * e.listingLimit := by
    rw [h]
    exact le_pageCount_mul limited _
  rw [pageAt, Nat.sub_eq_zero_of_le hle]
  rfl

/-- All pages together have all entries. -/
theorem flatMap_pageAt (limited : 0 < e.listingLimit) (t : Tree) (place : TreePath) :
    (List.range (e.pageCount (t.names place).length)).flatMap
        (fun k => (e.pageAt t place k).entries) = e.statuses t place (t.names place) := by
  have hslices (count : ℕ) : (List.range count).flatMap (fun k => (e.pageAt t place k).entries) =
      e.statuses t place ((t.names place).take (count * e.listingLimit)) := by
    induction count with
    | zero => simp [statuses]
    | succ count ih =>
      let before := (t.names place).take (count * e.listingLimit)
      calc (List.range (count + 1)).flatMap (fun k => (e.pageAt t place k).entries)
        _ = e.statuses t place before ++ e.statuses t place (e.namesAt t place count) := by
          rw [List.range_succ, List.flatMap_append, ih, List.flatMap_singleton]
          rfl
        _ = e.statuses t place (before ++ e.namesAt t place count) :=
          List.filterMap_append.symm
        _ = e.statuses t place ((t.names place).take ((count + 1) * e.listingLimit)) := by
          rw [Nat.succ_mul, List.take_add]
          rfl
  rw [hslices, List.take_of_length_le (le_pageCount_mul limited _)]

/-- What is found first among the names of a directory is found first on one of its pages. -/
theorem exists_page_of_findSome? {f : Name → Option Fault} {fault : Fault}
    (limited : 0 < e.listingLimit) (h : (t.names place).findSome? f = some fault) :
    ∃ k < e.pageCount (t.names place).length,
      (∀ i < k, (e.namesAt t place i).findSome? f = none) ∧
      (e.namesAt t place k).findSome? f = some fault := by
  obtain ⟨front, name, back, hnames, hname, hfront⟩ := List.findSome?_eq_some_iff.mp h
  let k := front.length / e.listingLimit
  have hle : k * e.listingLimit ≤ front.length := Nat.div_mul_le_self _ _
  have hlt : front.length < (k + 1) * e.listingLimit :=
    (Nat.div_lt_iff_lt_mul limited).mp (Nat.lt_succ_self k)
  have hcount : k < e.pageCount (t.names place).length := by
    rcases hk : k with _ | j
    · exact e.pageCount_pos _
    · rw [succ_lt_pageCount_iff limited, ← hk, hnames, List.length_append]
      exact lt_of_le_of_lt hle (Nat.lt_add_of_pos_right Nat.succ_pos')
  refine ⟨k, hcount, fun i hi => ?_, ?_⟩
  -- The pages before have names of the front only.
  · rw [List.findSome?_eq_none_iff]
    intro other hother
    apply hfront
    have hend : i * e.listingLimit + e.listingLimit ≤ front.length := by
      rw [← Nat.succ_mul]
      exact (Nat.mul_le_mul_right _ hi).trans hle
    rw [namesAt, List.take_drop, hnames, List.take_append_of_le_length hend] at hother
    exact List.mem_of_mem_take (List.mem_of_mem_drop hother)
  · have hroom : (front.drop (k * e.listingLimit)).length < e.listingLimit := by
      rw [Nat.succ_mul] at hlt
      rw [List.length_drop]
      omega
    have hpage : e.namesAt t place k = front.drop (k * e.listingLimit) ++
        name :: back.take (e.listingLimit - (front.drop (k * e.listingLimit)).length - 1) := by
      rw [namesAt, hnames, List.drop_append_of_le_length hle, List.take_append,
        List.take_of_length_le hroom.le, List.take_cons (Nat.sub_pos_of_lt hroom)]
    rw [hpage]
    exact List.findSome?_eq_some_iff.mpr
      ⟨_, _, _, rfl, hname, fun other hother => hfront other (List.mem_of_mem_drop hother)⟩

section Requests

variable {path : TreePath}

/-- The entries of a directory are looked at in turn, up to the first one that cannot be. -/
theorem run_statuses (leads : LeadsInto t e.caller path place node) (wellFormed : t.WellFormed)
    (hnames : ∀ name ∈ names, name ∈ t.names place) :
    (names.mapM fun name => do
      let node ← look (FileSystem.status · e.caller (path ++ [name]))
      return e.statusOf name node : Over Tree (List FileStatus)).run.run t =
        (match names.findSome? (barrier? e.caller path node) with
          | some fault => .error fault.systemError
          | none => .ok (e.statuses t place names), t) := by
  induction names with
  | nil => rfl
  | cons name names ih =>
    obtain ⟨hname, hnames⟩ := List.forall_mem_cons.mp hnames
    obtain ⟨found, hfound⟩ := Option.isSome_iff_exists.mp (mem_names.mp hname)
    have hlook := run_look (f := (FileSystem.status · e.caller (path ++ [name]))) t
    rw [leads.status_entry wellFormed hfound] at hlook
    rw [List.mapM_cons, statuses, List.filterMap_cons, hfound, List.findSome?_cons]
    cases hbarrier : barrier? e.caller path node name with
    | some fault =>
      rw [hbarrier] at hlook
      exact Over.run_bind_of_error (Over.run_bind_of_error hlook)
    | none =>
      rw [hbarrier] at hlook
      refine (Over.run_bind_of_ok ((Over.run_bind_of_ok hlook).trans rfl)).trans ?_
      replace ih := ih hnames
      cases hrest : names.findSome? (barrier? e.caller path node) with
      | some fault =>
        rw [hrest] at ih
        exact Over.run_bind_of_error ih
      | none =>
        rw [hrest] at ih
        exact (Over.run_bind_of_ok ih).trans rfl

/-- Where the path of the request leads nowhere, that is the answer. -/
theorem run_getListing_of_status {fault : Fault} (hbelow : Spells src below)
    (h : status t e.caller (e.root ++ below) = .error fault) (after : Data) :
    (e.namesystem (.getListing src after false)).run t =
      (if fault = .errno .noent then .ok (.reply (.getListing none))
        else .error fault.systemError, t) := by
  have hlookup := run_lookup (e := e) hbelow t
  rw [h, found] at hlookup
  show (e.getListing src after).run.run t = _
  refine (Over.run_bind_of_ok (run_path hbelow t)).trans ?_
  split_ifs at hlookup ⊢
  · exact (Over.run_bind_of_ok hlookup).trans rfl
  · exact Over.run_bind_of_error hlookup

/-- Where a path leads to a directory, its names are read and then its entries. -/
theorem run_getListing (hbelow : Spells src below)
    (leads : LeadsInto t e.caller (e.root ++ below) place node) (after : Data) :
    (e.namesystem (.getListing src after false)).run t = (do
      let all ← look (FileSystem.list · e.caller (e.root ++ below))
      let entries ← (pageNames e.listingLimit after.bytes all).1.mapM fun name => do
        let node ← look (FileSystem.status · e.caller (e.root ++ below ++ [name]))
        return e.statusOf name node
      return .reply (.getListing (some ⟨entries, UInt32.ofNat
        (min (pageNames e.listingLimit after.bytes all).2 (UInt32.size - 1))⟩)) :
        Answer).run.run t := by
  have hlookup : (e.lookup src).run.run t = (.ok (some node), t) := by
    rw [run_lookup hbelow, leads.status_eq]
    rfl
  show (e.getListing src after).run.run t = _
  refine (Over.run_bind_of_ok (run_path hbelow t)).trans ?_
  refine (Over.run_bind_of_ok hlookup).trans ?_
  dsimp only
  rw [leads.isDirectory]
  rfl

section Names

variable (hbelow : Spells src below)
  (leads : LeadsInto t e.caller (e.root ++ below) place node)
include hbelow leads

theorem run_getListing_of_unreadable (unreadable : e.caller.allows node Caller.mayRead = false)
    (after : Data) : (e.namesystem (.getListing src after false)).run t =
      (.error (Fault.errno .acces).systemError, t) := by
  rw [run_getListing hbelow leads]
  have hlist : (look (FileSystem.list · e.caller (e.root ++ below))).run.run t =
      (.error (Fault.errno .acces).systemError, t) := by
    rw [run_look, leads.list_eq, unreadable]
    rfl
  exact Over.run_bind_of_error hlist

/-- Behind the last name of a page comes the next page, if all its entries can be looked at. -/
theorem run_getListing_of_readable (wellFormed : t.WellFormed)
    (readable : e.caller.allows node Caller.mayRead = true) (k : ℕ) :
    (e.namesystem (.getListing src (e.cursorAt t place k) false)).run t =
      (match (e.namesAt t place k).findSome? (barrier? e.caller (e.root ++ below) node) with
        | some fault => .error fault.systemError
        | none => (e.pageAt t place k).reply, t) := by
  have hlist : (look (FileSystem.list · e.caller (e.root ++ below))).run.run t =
      (.ok (t.names place), t) := by
    rw [run_look, leads.list_eq, readable]
    rfl
  have hall : ∀ name ∈ e.namesAt t place k, name ∈ t.names place :=
    fun _ hname => mem_names_of_mem_namesAt hname
  have hentries := run_statuses leads wellFormed hall
  rw [run_getListing hbelow leads]
  refine (Over.run_bind_of_ok hlist).trans ?_
  rw [pageNames_cursorAt wellFormed.proper k]
  cases hbarrier : (e.namesAt t place k).findSome? (barrier? e.caller (e.root ++ below) node) with
  | some fault =>
    rw [hbarrier] at hentries
    exact Over.run_bind_of_error hentries
  | none =>
    rw [hbarrier] at hentries
    exact (Over.run_bind_of_ok hentries).trans rfl

end Names

end Requests

end Export

end MetaFs
