import Mathlib
import MetaFs.Proofs.Trees
/-! What a walk through a tree looks at, and that its end depends on nothing else. -/

namespace MetaFs

namespace FileSystem

/-- What comes of one name of a walk: it ends, or it goes on with so many links left, from a place
with the names that remain. -/
inductive Turn where
  | done (result : Except Fault TreePath)
  | on (links : ℕ) (here : TreePath) (names : List Name)

/-- Where the target of a link is read from. -/
def origin (here : TreePath) (target : Name) : TreePath :=
  if target.head? = some 47 then [] else here

/-- What comes of the kind of node that a name leads to, if it leads to one. -/
def meet (followLast : Bool) (links : ℕ) (here there : TreePath) (rest : List Name) :
    Option NodeKind → Turn
  | none => .done (fail .noent)
  | some .directory => .on links there rest
  | some (.file _) | some (.special _) => .done (if rest.isEmpty then .ok there else fail .notdir)
  | some (.symlink target) =>
    if rest.isEmpty && !followLast then .done (.ok there)
    else
      match links with
      | 0 => .done (fail .loop)
      | links + 1 => .on links (origin here target) (namesOf target ++ rest)

def turn (t : Tree) (who : Caller) (followLast : Bool) (links : ℕ) (here : TreePath) (name : Name)
    (rest : List Name) : Turn :=
  match search t who here with
  | .error fault => .done (.error fault)
  | .ok () =>
    if name = [46] then .on links here rest
    else if name = [46, 46] then .on links here.dropLast rest
    else if nameLimit < name.length then .done (fail .nametoolong)
    else meet followLast links here (here ++ [name]) rest ((t.get? (here ++ [name])).map Node.kind)

variable {t u : Tree} {who : Caller} {followLast : Bool} {links : ℕ} {here place path : TreePath}
  {name : Name} {rest names more : List Name}

theorem walk_nil : walk t who followLast links here [] = .ok here := by
  rw [walk]

theorem walk_cons : walk t who followLast links here (name :: rest) =
    match turn t who followLast links here name rest with
    | .done result => result
    | .on links here names => walk t who followLast links here names := by
  rw [walk, turn]
  cases search t who here with
  | error fault => rfl
  | ok found =>
    simp only [bind, Except.bind]
    cases hget : t.get? (here ++ [name]) with
    | none => split_ifs <;> rfl
    | some node =>
      rw [Option.map_some]
      dsimp only
      cases node.kind with
      | file size | special size =>
        rw [meet]
        split_ifs <;> rfl
      | directory => split_ifs <;> rfl
      | symlink target =>
        cases links with
        | zero =>
          rw [meet]
          split_ifs <;> rfl
        | succ left =>
          rw [meet, origin]
          dsimp only
          split_ifs <;> rfl

/-- How a walk goes on after one name. -/
inductive Goes (t : Tree) (links : ℕ) (here : TreePath) (name : Name) (rest : List Name) :
    ℕ → TreePath → List Name → Prop where
  | stay (dot : name = [46]) : Goes t links here name rest links here rest
  | up (dots : name = [46, 46]) : Goes t links here name rest links here.dropLast rest
  | down (directory : t.IsDirectory (here ++ [name])) :
      Goes t links here name rest links (here ++ [name]) rest
  | follow {left : ℕ} {node : Node} {target : Name} (there : t.get? (here ++ [name]) = some node)
      (kind : node.kind = .symlink target) (counted : links = left + 1) :
      Goes t links here name rest left (origin here target) (namesOf target ++ rest)

theorem goes_of_turn {links' : ℕ} {here' : TreePath} {names' : List Name}
    (h : turn t who followLast links here name rest = .on links' here' names') :
    search t who here = .ok () ∧ Goes t links here name rest links' here' names' := by
  rw [turn] at h
  cases hsearch : search t who here with
  | error fault =>
    rw [hsearch] at h
    cases h
  | ok found =>
    refine ⟨rfl, ?_⟩
    rw [hsearch] at h
    dsimp only at h
    split_ifs at h with hdot hdots hlong
    · cases h
      exact .stay hdot
    · cases h
      exact .up hdots
    · cases hget : t.get? (here ++ [name]) with
      | none =>
        rw [hget] at h
        cases h
      | some node =>
        rw [hget, Option.map_some] at h
        cases hkind : node.kind with
        | directory =>
          rw [hkind] at h
          cases h
          exact .down ⟨node, hget, hkind⟩
        | file size | special size =>
          rw [hkind] at h
          cases h
        | symlink target =>
          rw [hkind] at h
          cases links with
          | zero =>
            rw [meet] at h
            split_ifs at h
          | succ left =>
            rw [meet] at h
            split_ifs at h
            cases h
            exact .follow hget hkind rfl

/-- A walk is over when it has come to the end of its names or met what ends it. -/
theorem walk_induction (t : Tree) (who : Caller) (followLast : Bool)
    {motive : ℕ → TreePath → List Name → Prop} (nil : ∀ links here, motive links here [])
    (cons : ∀ links here name rest, (∀ links' here' names',
      turn t who followLast links here name rest = .on links' here' names' →
        motive links' here' names') → motive links here (name :: rest))
    (links : ℕ) (here : TreePath) (names : List Name) : motive links here names := by
  match names with
  | [] => exact nil links here
  | name :: rest =>
    apply cons
    intro links' here' names' hturn
    have hgoes := (goes_of_turn hturn).2
    exact walk_induction t who followLast nil cons links' here' names'
termination_by (links, names.length)
decreasing_by
  cases hgoes with
  | stay => exact Prod.Lex.right _ (Nat.lt_succ_self _)
  | up => exact Prod.Lex.right _ (Nat.lt_succ_self _)
  | down => exact Prod.Lex.right _ (Nat.lt_succ_self _)
  | follow there kind counted =>
    rw [counted]
    exact Prod.Lex.left _ _ (Nat.lt_succ_self _)

/-- The places that a walk looks at. -/
inductive Visits (t : Tree) (who : Caller) (followLast : Bool) :
    ℕ → TreePath → List Name → TreePath → Prop where
  | here {links : ℕ} {here : TreePath} {names : List Name} :
      Visits t who followLast links here names here
  | there {links : ℕ} {here : TreePath} {name : Name} {rest : List Name}
      (searched : search t who here = .ok ()) (plain : name.Plain) :
      Visits t who followLast links here (name :: rest) (here ++ [name])
  | later {links links' : ℕ} {here here' place : TreePath} {name : Name} {rest names' : List Name}
      (turned : turn t who followLast links here name rest = .on links' here' names')
      (more : Visits t who followLast links' here' names' place) :
      Visits t who followLast links here (name :: rest) place

theorem eq_of_meet_eq_done_ok {there : TreePath} {kind? : Option NodeKind}
    (h : meet followLast links here there rest kind? = .done (.ok place)) :
    place = there ∧ kind?.isSome := by
  cases kind? with
  | none => cases h
  | some kind =>
    refine ⟨?_, rfl⟩
    cases kind with
    | directory => cases h
    | file size | special size =>
      rw [meet] at h
      split_ifs at h
      · cases h
        rfl
      · cases h
    | symlink target =>
      cases links with
      | zero =>
        rw [meet] at h
        split_ifs at h
        · cases h
          rfl
        · cases h
      | succ left =>
        rw [meet] at h
        split_ifs at h
        cases h
        rfl

theorem turn_eq_done_ok (h : turn t who followLast links here name rest = .done (.ok place)) :
    place = here ++ [name] ∧ search t who here = .ok () ∧ (t.get? (here ++ [name])).isSome := by
  rw [turn] at h
  cases hsearch : search t who here with
  | error fault =>
    rw [hsearch] at h
    cases h
  | ok found =>
    rw [hsearch] at h
    dsimp only at h
    split_ifs at h
    · cases h
    · obtain ⟨hplace, hsome⟩ := eq_of_meet_eq_done_ok h
      rw [Option.isSome_map] at hsome
      exact ⟨hplace, rfl, hsome⟩

theorem visits_end (h : t.WellFormed) :
    walk t who followLast links here names = .ok place →
      Visits t who followLast links here names place := by
  induction links, here, names using walk_induction t who followLast with
  | nil links here =>
    intro hwalk
    rw [walk_nil] at hwalk
    cases hwalk
    exact .here
  | cons links here name rest ih =>
    intro hwalk
    rw [walk_cons] at hwalk
    cases hturn : turn t who followLast links here name rest with
    | done result =>
      rw [hturn] at hwalk
      dsimp only at hwalk
      rw [hwalk] at hturn
      obtain ⟨rfl, hsearch, hsome⟩ := turn_eq_done_ok hturn
      have hplain := h.plain _ hsome name (List.mem_append_right here (List.mem_singleton.mpr rfl))
      exact .there hsearch hplain
    | on links' here' names' =>
      rw [hturn] at hwalk
      exact .later hturn (ih _ _ _ hturn hwalk)

/-! Two trees that are the same wherever a walk through one of them looks. -/

structure SameAt (t u : Tree) (who : Caller) (place : TreePath) : Prop where
  search_eq : search u who place = search t who place
  kind_eq : (u.get? place).map Node.kind = (t.get? place).map Node.kind

theorem turn_congr (ht : t.WellFormed) (hu : u.WellFormed) (sameHere : SameAt t u who here)
    (sameThere : search t who here = .ok () → name.Plain → SameAt t u who (here ++ [name])) :
    turn u who followLast links here name rest = turn t who followLast links here name rest := by
  rw [turn, turn, sameHere.search_eq]
  cases hsearch : search t who here with
  | error fault => rfl
  | ok found =>
    dsimp only
    split_ifs with hdot hdots hlong
    · rfl
    · rfl
    · rfl
    · by_cases hplain : name.Plain
      · rw [(sameThere hsearch hplain).kind_eq]
      -- No tree has an entry of another name.
      · have hnone {tree : Tree} (h : tree.WellFormed) : tree.get? (here ++ [name]) = none := by
          by_contra hsome
          exact hplain (h.plain _ (Option.isSome_iff_ne_none.mpr hsome) name
            (List.mem_append_right here (List.mem_singleton.mpr rfl)))
        rw [hnone ht, hnone hu]

theorem walk_congr (ht : t.WellFormed) (hu : u.WellFormed) :
    (∀ place, Visits t who followLast links here names place → SameAt t u who place) →
      walk u who followLast links here names = walk t who followLast links here names ∧
      ∀ place, Visits u who followLast links here names place →
        Visits t who followLast links here names place := by
  induction links, here, names using walk_induction t who followLast with
  | nil links here =>
    intro _
    refine ⟨by rw [walk_nil, walk_nil], ?_⟩
    intro place hvisits
    cases hvisits with
    | here => exact .here
  | cons links here name rest ih =>
    intro same
    have hsame := same here .here
    have hturn : turn u who followLast links here name rest =
        turn t who followLast links here name rest :=
      turn_congr ht hu hsame fun hsearch hplain => same _ (.there hsearch hplain)
    -- Both walks take the same turn, so that the rest of them looks at the same places.
    rw [walk_cons, walk_cons, hturn]
    constructor
    · cases hnext : turn t who followLast links here name rest with
      | done result => rfl
      | on links' here' names' =>
        exact (ih _ _ _ hnext fun place h => same place (.later hnext h)).1
    · intro place hvisits
      cases hvisits with
      | here => exact .here
      | there hsearch hplain => exact .there (hsame.search_eq ▸ hsearch) hplain
      | later hnext more =>
        rw [hturn] at hnext
        have hrest := (ih _ _ _ hnext fun place h => same place (.later hnext h)).2
        exact .later hnext (hrest place more)

/-! The last name of a path. -/

theorem search_eq_error_of_ne_directory {node : Node} (h : t.get? place = some node)
    (kind : node.kind ≠ .directory) : search t who place = fail .notdir := by
  have hdirectory : node.isDirectory = false := decide_eq_false kind
  rw [search, h]
  dsimp only
  rw [hdirectory]
  rfl

/-- The same turn with one more name behind. -/
def Turn.extend (last : Name) : Turn → Turn
  | done (.ok _) => done (fail .notdir)
  | done (.error fault) => done (.error fault)
  | on links here names => on links here (names ++ [last])

theorem meet_concat {there : TreePath} {last : Name} (kind? : Option NodeKind) :
    meet false links here there (rest ++ [last]) kind? =
      (meet true links here there rest kind?).extend last := by
  have hmore : (rest ++ [last]).isEmpty = false := by simp
  cases kind? with
  | none => rfl
  | some kind =>
    cases kind with
    | directory => rfl
    | file size | special size =>
      rw [meet, meet, hmore, if_neg Bool.false_ne_true]
      split_ifs <;> rfl
    | symlink target =>
      have hfollowed : (rest.isEmpty && !true) = false := Bool.and_false _
      cases links with
      | zero =>
        rw [meet, meet, hmore, hfollowed]
        rfl
      | succ left =>
        rw [meet, meet, hmore, hfollowed]
        exact congrArg (Turn.on left _) (List.append_assoc _ _ _).symm

/-- A link in the middle of a path is followed in any case. -/
theorem turn_concat {last : Name} : turn t who false links here name (rest ++ [last]) =
    (turn t who true links here name rest).extend last := by
  rw [turn, turn]
  cases search t who here with
  | error fault => rfl
  | ok found =>
    dsimp only
    split_ifs
    · rfl
    · rfl
    · rfl
    · exact meet_concat _

theorem kind_of_meet_eq_done_ok {there : TreePath} {kind? : Option NodeKind}
    (h : meet true links here there rest kind? = .done (.ok place)) :
    ∃ kind, kind? = some kind ∧ kind ≠ .directory := by
  cases kind? with
  | none => cases h
  | some kind =>
    refine ⟨kind, rfl, ?_⟩
    rintro rfl
    cases h

/-- Where links are followed, no directory ends a walk before its names do. -/
theorem search_of_turn_eq_done_ok
    (h : turn t who true links here name rest = .done (.ok place)) :
    search t who place = fail .notdir := by
  obtain ⟨rfl, hsearch, -⟩ := turn_eq_done_ok h
  rw [turn, hsearch] at h
  dsimp only at h
  split_ifs at h
  · cases h
  · obtain ⟨kind, hkind, hne⟩ := kind_of_meet_eq_done_ok h
    obtain ⟨node, hnode, rfl⟩ := Option.map_eq_some_iff.mp hkind
    exact search_eq_error_of_ne_directory hnode hne

/-- The entry of a directory by its name. -/
def enter (t : Tree) (who : Caller) (parent : TreePath) (name : Name) : Except Fault TreePath := do
  search t who parent
  checkName name
  match t.get? (parent ++ [name]) with
  | none => fail .noent
  | some _ => return parent ++ [name]

theorem eq_of_enter {parent : TreePath} (h : enter t who parent name = .ok place) :
    place = parent ++ [name] := by
  rw [enter] at h
  cases hsearch : search t who parent with
  | error fault =>
    rw [hsearch] at h
    cases h
  | ok _ =>
    rw [hsearch] at h
    cases hname : checkName name with
    | error fault =>
      rw [hname] at h
      cases h
    | ok _ =>
      rw [hname] at h
      simp only [bind, Except.bind] at h
      cases hnode : t.get? (parent ++ [name]) with
      | none =>
        rw [hnode] at h
        cases h
      | some node =>
        rw [hnode] at h
        cases h
        rfl

theorem walk_singleton {last : Name} (ne_dot : last ≠ [46])
    (ne_dots : last ≠ [46, 46]) :
    walk t who false links here [last] = enter t who here last := by
  rw [walk_cons, turn, enter, checkName]
  cases search t who here with
  | error fault => rfl
  | ok found =>
    simp only [bind, Except.bind]
    rw [if_neg ne_dot, if_neg ne_dots]
    split_ifs with hlong
    · rfl
    · cases t.get? (here ++ [last]) with
      | none => rfl
      | some node =>
        rw [Option.map_some]
        cases node.kind with
        | directory => exact walk_nil
        | file size | special size => rfl
        | symlink target => cases links <;> rfl

theorem walk_concat {last : Name} (ne_dot : last ≠ [46])
    (ne_dots : last ≠ [46, 46]) :
    walk t who false links here (names ++ [last]) =
      walk t who true links here names >>= fun parent => enter t who parent last := by
  induction links, here, names using walk_induction t who true with
  | nil links here =>
    rw [walk_nil]
    exact walk_singleton ne_dot ne_dots
  | cons links here name rest ih =>
    rw [List.cons_append, walk_cons, walk_cons, turn_concat]
    cases hturn : turn t who true links here name rest with
    | done result =>
      cases result with
      | error fault => rfl
      | ok place =>
        have hsearch := search_of_turn_eq_done_ok hturn
        simp only [Turn.extend, bind, Except.bind, enter, hsearch, fail]
    | on links' here' names' => exact ih _ _ _ hturn

theorem meet_follow {there : TreePath} (kind? : Option NodeKind) :
    meet true links here there rest kind? = meet false links here there rest kind? ∨
      ∃ target, kind? = some (.symlink target) ∧
        meet false links here there rest kind? = .done (.ok there) := by
  cases kind? with
  | none => exact .inl rfl
  | some kind =>
    cases kind with
    | directory | file size | special size => exact .inl rfl
    | symlink target =>
      cases rest with
      | nil => exact .inr ⟨target, rfl, by cases links <;> rfl⟩
      | cons name rest => exact .inl (by cases links <;> rfl)

theorem turn_follow (t : Tree) (who : Caller) (links : ℕ) (here : TreePath) (name : Name)
    (rest : List Name) :
    turn t who true links here name rest = turn t who false links here name rest ∨
      ∃ target, (t.get? (here ++ [name])).map Node.kind = some (.symlink target) ∧
        turn t who false links here name rest = .done (.ok (here ++ [name])) := by
  rw [turn, turn]
  cases search t who here with
  | error fault => exact .inl rfl
  | ok found =>
    dsimp only
    split_ifs
    · exact .inl rfl
    · exact .inl rfl
    · exact .inl rfl
    · exact meet_follow _

/-- Where a walk does not end at a link, it makes no difference whether such a link is followed. -/
theorem walk_follow :
    walk t who false links here names = .ok place →
    (∀ target, (t.get? place).map Node.kind ≠ some (.symlink target)) →
      walk t who true links here names = .ok place ∧
      ∀ seen, Visits t who true links here names seen →
        Visits t who false links here names seen := by
  induction links, here, names using walk_induction t who false with
  | nil links here =>
    intro hwalk _
    rw [walk_nil] at hwalk ⊢
    refine ⟨hwalk, ?_⟩
    intro seen hvisits
    cases hvisits
    exact .here
  | cons links here name rest ih =>
    intro hwalk hkind
    rw [walk_cons] at hwalk ⊢
    rcases turn_follow t who links here name rest with hturn | ⟨target, htarget, hturn⟩
    · rw [hturn]
      have hlater : ∀ links' here' names',
          turn t who false links here name rest = .on links' here' names' →
          walk t who true links' here' names' = .ok place ∧
          ∀ seen, Visits t who true links' here' names' seen →
            Visits t who false links' here' names' seen := by
        intro links' here' names' hnext
        rw [hnext] at hwalk
        exact ih _ _ _ hnext hwalk hkind
      constructor
      · cases hnext : turn t who false links here name rest with
        | done result =>
          rw [hnext] at hwalk
          exact hwalk
        | on links' here' names' => exact (hlater _ _ _ hnext).1
      · intro seen hvisits
        cases hvisits with
        | here => exact .here
        | there hsearch plain => exact .there hsearch plain
        | later hnext more =>
          rw [hturn] at hnext
          exact .later hnext ((hlater _ _ _ hnext).2 seen more)
    · rw [hturn] at hwalk
      cases hwalk
      exact absurd htarget (hkind target)

/-! Walking down directories. -/

theorem turn_of_isDirectory (h : t.WellFormed) (directory : t.IsDirectory (here ++ [name])) :
    turn t who followLast links here name rest =
      match search t who here with
      | .error fault => .done (.error fault)
      | .ok () => .on links (here ++ [name]) rest := by
  have hplain := h.plain _ directory.isSome name
    (List.mem_append_right here (List.mem_singleton.mpr rfl))
  obtain ⟨node, hnode, hkind⟩ := directory
  rw [turn, if_neg hplain.ne_dot, if_neg hplain.ne_dots, if_neg (Nat.not_lt.mpr hplain.length_le),
    hnode, Option.map_some, hkind]
  rfl

theorem isDirectory_of_append (h : t.WellFormed)
    (directory : t.IsDirectory (here ++ name :: names)) :
    t.IsDirectory (here ++ [name]) := by
  by_cases hnil : names = []
  · rwa [hnil] at directory
  · apply h.isDirectory_of_isPrefix directory.isSome
    · exact ⟨names, List.append_assoc here [name] names⟩
    · intro heq
      rw [List.append_cancel_left_eq] at heq
      exact hnil (List.cons.inj heq).2.symm

theorem visits_append_of_isDirectory (h : t.WellFormed) (directory : t.IsDirectory (here ++ names))
    (hvisits : Visits t who followLast links here (names ++ more) place) :
    place <+: here ++ names ∨ Visits t who followLast links (here ++ names) more place := by
  induction names generalizing here with
  | nil =>
    rw [List.append_nil]
    exact .inr hvisits
  | cons name names ih =>
    have hassoc : here ++ name :: names = here ++ [name] ++ names :=
      (List.append_assoc here [name] names).symm
    have hturn : turn t who followLast links here name (names ++ more) = _ :=
      turn_of_isDirectory h (isDirectory_of_append h directory)
    rw [hassoc] at directory ⊢
    rw [List.cons_append] at hvisits
    cases hvisits with
    | here => exact .inl ((List.prefix_append _ [name]).trans (List.prefix_append _ names))
    | there => exact .inl (List.prefix_append _ names)
    | later hnext more =>
      rw [hnext, (goes_of_turn hnext).1] at hturn
      cases hturn
      exact ih directory more

theorem visits_of_isDirectory (h : t.WellFormed) (directory : t.IsDirectory names)
    (hvisits : Visits t who followLast links [] (names ++ more) place) :
    place <+: names ∨ Visits t who followLast links names more place := by
  rw [← List.nil_append names]
  exact visits_append_of_isDirectory h directory hvisits

/-! Links that lead down only. -/

/-- No link inside of a directory has a target that starts at the root or goes up. -/
def Inward (t : Tree) (base : TreePath) : Prop :=
  ∀ place node target, base <+: place → t.get? place = some node → node.kind = .symlink target →
    target.head? ≠ some 47 ∧ [46, 46] ∉ namesOf target

end FileSystem

end MetaFs
