import Mathlib
import MetaFs.Proofs.EscapedPaths
import MetaFs.Proofs.ExportRequests
/-! Which path texts lead below the exported directory, and where each one leads: the text that a
root is extended to, and the place in the file tree. -/

namespace MetaFs

namespace ExportPath

/-- What is between the slashes of a path text. -/
def components (text : String) : List String :=
  (text.toList.splitOn '/').map String.ofList

/-- The components that lead on. An empty one or a single dot does not. -/
def steps (text : String) : List String :=
  (components text).filter fun name => name ≠ "" && name ≠ "."

/-- What two path texts have in common if they are the same path: whether it starts at the top, or
with a single dot, and where it leads on. -/
structure Route where
  absolute : Bool
  dotted : Bool
  steps : List String

def route (path : String) : Route where
  absolute := path.toList.head? == some '/'
  dotted := (components path).head? == some "."
  steps := steps path

def Route.extend (r : Route) (names : List String) : Route :=
  { r with steps := r.steps ++ names }

variable {path root src : String} {name : String} {names : List String}

theorem components_eq (text : String) :
    components text = (Url.parts (· = '/') text.toList).map String.ofList := by
  have hslash : (fun c : Char => decide (c = '/')) = Url.divides false :=
    (funext Url.divides_false).symm
  rw [components, ← Url.parts_eq_splitOn, hslash]

theorem components_append (path name : String) :
    components (path ++ "/" ++ name) = components path ++ components name := by
  have hslash : (path ++ "/" ++ name).toList = path.toList ++ '/' :: name.toList := by
    simp [String.toList_append]
  rw [components_eq, components_eq, components_eq, hslash,
    Url.parts_append_parts (by decide), List.map_append]

theorem components_of_isName (h : IsName name) : components name = [name] := by
  rw [components_eq, Url.parts_of_no_separator, List.map_singleton, String.ofList_toList]
  intro c hc
  apply decide_eq_false
  rintro rfl
  exact h.no_slash hc

theorem components_ne_nil (text : String) : components text ≠ [] := by
  rw [components, ne_eq, List.map_eq_nil_iff]
  exact List.splitOn_ne_nil '/' text.toList

/-- The names that a request is about are the steps of its path text. -/
theorem names_eq (src : String) : ExportPath.names src =
    if src.toList.head? ≠ some '/' then .error ⟨.inval, s!"{src}: path is not absolute", none⟩
    else if ".." ∈ components src then .error ⟨.acces, s!"{src}: path escapes the export", none⟩
    else .ok (steps src) := by
  have hdots : ((Url.parts (· = '/') src.toList).filter
      fun c => c ≠ [] && c ≠ ['.']).contains ['.', '.'] = true ↔ ".." ∈ components src := by
    rw [components_eq, List.contains_iff_mem, List.mem_filter, List.mem_map]
    constructor
    · intro h
      exact ⟨['.', '.'], h.1, rfl⟩
    · intro h
      obtain ⟨part, hpart, heq⟩ := h
      have hpart' : part = ['.', '.'] := by
        rw [← String.toList_ofList (l := part), heq]
        rfl
      exact ⟨hpart' ▸ hpart, by decide⟩
  have hsteps : ((Url.parts (· = '/') src.toList).filter fun c => c ≠ [] && c ≠ ['.']).map
      String.ofList = steps src := by
    rw [steps, components_eq, List.filter_map]
    congr 2
    funext c
    rw [Function.comp_apply]
    have hname (chars : List Char) : c ≠ chars ↔ String.ofList c ≠ String.ofList chars :=
      not_congr String.ofList_inj.symm
    rw [decide_eq_decide.mpr (hname []), decide_eq_decide.mpr (hname ['.'])]
  rw [ExportPath.names]
  dsimp only
  rw [hsteps]
  by_cases hup : ".." ∈ components src
  · rw [if_pos (hdots.mpr hup), if_pos hup]
  · rw [if_neg (mt hdots.mp hup), if_neg hup]

theorem isStep_of_isName (h : IsName name) : (name ≠ "" && name ≠ ".") = true := by
  rw [Bool.and_eq_true, decide_eq_true_eq, decide_eq_true_eq]
  refine ⟨fun hname => h.ne_nil ?_, fun hname => h.ne_dot ?_⟩
  · rw [hname]
    rfl
  · rw [hname]
    rfl

theorem steps_of_isName (h : IsName name) : steps name = [name] := by
  rw [steps, components_of_isName h, List.filter_singleton, isStep_of_isName h]
  rfl

/-- What is written behind a path cannot change how the path begins. -/
theorem route_append {rest : String} (hpath : path ≠ "")
    (hhead : (components (path ++ rest)).head? = (components path).head?)
    (hsteps : steps (path ++ rest) = steps path ++ names) :
    route (path ++ rest) = (route path).extend names := by
  obtain ⟨c, chars, hchars⟩ :=
    List.exists_cons_of_ne_nil (String.toList_eq_nil_iff.not.mpr hpath)
  rw [route, route, Route.extend, hhead, hsteps, String.toList_append, hchars, List.cons_append,
    List.head?_cons, List.head?_cons]

theorem head?_components_append (path rest : String) :
    (components (path ++ "/" ++ rest)).head? = (components path).head? := by
  rw [components_append, List.head?_append_of_ne_nil _ (components_ne_nil path)]

theorem steps_append (path rest : String) :
    steps (path ++ "/" ++ rest) = steps path ++ steps rest := by
  rw [steps, components_append, List.filter_append]
  rfl

theorem route_join (hpath : path ≠ "") (hname : IsName name) :
    route (path ++ "/" ++ name) = (route path).extend [name] := by
  rw [String.append_assoc]
  apply route_append hpath
  · rw [← String.append_assoc, head?_components_append]
  · rw [← String.append_assoc, steps_append, steps_of_isName hname]

theorem route_push (hname : IsName name) :
    route (push path name) = (route path).extend [name] := by
  rw [push]
  split
  -- Nothing is before the name, so that it begins the path.
  · rename_i hlast
    have hempty : path = "" := by simpa using hlast
    have habsolute : (name.toList.head? == some '/') = false := by
      rw [beq_eq_false_iff_ne]
      intro hhead
      exact hname.no_slash (List.mem_of_mem_head? hhead)
    have hdotted : (some name == some ".") = false := by
      rw [beq_eq_false_iff_ne]
      rintro ⟨rfl⟩
      exact hname.ne_dot rfl
    rw [route, components_of_isName hname, List.head?_singleton, habsolute, hdotted,
      steps_of_isName hname, hempty]
    rfl
  -- The slash is there already.
  · rename_i hlast
    obtain ⟨front, hfront⟩ := List.getLast?_eq_some_iff.mp hlast
    have hpath : path = String.ofList front ++ "/" := by
      rw [← String.toList_inj, hfront]
      simp
    apply route_append
    · rintro rfl
      cases hlast
    · rw [hpath, head?_components_append, ← String.append_empty (s := String.ofList front ++ "/"),
        head?_components_append]
    · have hslash : steps path = steps (String.ofList front) := by
        rw [hpath, ← String.append_empty (s := String.ofList front ++ "/"), steps_append]
        exact List.append_nil _
      rw [hslash, hpath, steps_append, steps_of_isName hname]
  · rename_i hlast
    apply route_join _ hname
    rintro rfl
    cases hlast

theorem push_ne_empty (hname : IsName name) (path : String) : push path name ≠ "" := by
  intro hempty
  have hroute : route (push path name) = _ := route_push hname
  rw [hempty] at hroute
  exact List.append_ne_nil_of_right_ne_nil _ (List.cons_ne_nil name [])
    (congrArg Route.steps hroute).symm

/-- Each name is put behind the path that the names before it have made. -/
theorem route_foldl (hpath : path ≠ "") (hnames : ∀ name ∈ names, IsName name) :
    route (names.foldl (fun path name => path ++ "/" ++ name) path) =
      (route path).extend names := by
  induction names generalizing path with
  | nil =>
    rw [List.foldl_nil, Route.extend, List.append_nil]
  | cons name names ih =>
    obtain ⟨hname, hnames⟩ := List.forall_mem_cons.mp hnames
    have hlonger : path ++ "/" ++ name ≠ "" := by
      simp
    rw [List.foldl_cons, ih hlonger hnames, route_join hpath hname, Route.extend, Route.extend,
      Route.extend, List.append_assoc]
    rfl

/-- The result of a path text that is accepted. -/
theorem real_of_names (hsrc : ExportPath.names src = .ok names) (root : String) :
    ∃ path, real root src = .ok path ∧ route path = (route root).extend names ∧
      (names = [] → path = root) := by
  have hnames := names_eq_ok hsrc
  rw [real, hsrc]
  cases names with
  | nil =>
    refine ⟨root, rfl, ?_, fun _ => rfl⟩
    rw [Route.extend, List.append_nil]
  | cons first rest =>
    obtain ⟨hfirst, hrest⟩ := List.forall_mem_cons.mp hnames
    refine ⟨_, rfl, ?_, fun hnil => absurd hnil (List.cons_ne_nil first rest)⟩
    rw [route_foldl (push_ne_empty hfirst root) hrest, route_push hfirst, Route.extend,
      Route.extend, Route.extend, List.append_assoc]
    rfl

theorem Route.extend_nil (r : Route) : r.extend [] = r := by
  rw [extend, List.append_nil]

theorem Route.extend_inj {r : Route} {names names' : List String} :
    r.extend names = r.extend names' ↔ names = names' := by
  rw [extend, extend, Route.mk.injEq, List.append_right_inj]
  exact ⟨fun h => h.2.2, fun h => ⟨rfl, rfl, h⟩⟩

end ExportPath

namespace Export

/-- The place in the file tree that the steps of a path text lead to. -/
def placeAt (e : Export) (names : List String) : TreePath :=
  e.root ++ names.map fun name => Utf8.encode name.toList

variable {e : Export} {names names' : List String}

theorem placeAt_inj : e.placeAt names = e.placeAt names' ↔ names = names' := by
  have hinjective : Function.Injective fun name : String => Utf8.encode name.toList := by
    intro name name' heq
    have hdecode := Utf8.decode_encode name.toList
    dsimp only at heq
    rw [heq, Utf8.decode_encode] at hdecode
    exact String.toList_inj.mp (Except.ok.inj hdecode).symm
  rw [placeAt, placeAt, List.append_right_inj, hinjective.list_map.eq_iff]

theorem placeAt_nil (e : Export) : e.placeAt [] = e.root :=
  List.append_nil e.root

theorem run_path_eq (e : Export) (src : String) (t : Tree) :
    (e.path src).run.run t = ((ExportPath.names src).map e.placeAt, t) := by
  have hnames := run_names src t
  rw [path]
  cases hsrc : ExportPath.names src with
  | error error =>
    rw [hsrc] at hnames
    exact Over.run_bind_of_error hnames
  | ok names =>
    rw [hsrc] at hnames
    exact (Over.run_bind_of_ok hnames).trans rfl

end Export

namespace ExportPath

open Export

/-- The path text is refused, whatever the root is and whatever is in the file tree. -/
def Refused (src : String) (error : Error) : Prop :=
  (∀ root, real root src = .error error) ∧
    ∀ (e : Export) t, (e.path src).run.run t = (.error error, t)

theorem refused_of_names {src : String} {error : Error} (h : ExportPath.names src = .error error) :
    Refused src error := by
  constructor
  · intro root
    rw [real, h]
    rfl
  · intro e t
    rw [run_path_eq, h]
    rfl

theorem names_of_real {root src path : String} (h : real root src = .ok path) :
    ExportPath.names src = .ok (steps src) := by
  have hnames := names_eq src
  split_ifs at hnames
  · rw [(refused_of_names hnames).1 root] at h
    cases h
  · rw [(refused_of_names hnames).1 root] at h
    cases h
  · exact hnames

theorem route_of_real {root src path : String} (h : real root src = .ok path) :
    route path = (route root).extend (steps src) := by
  obtain ⟨found, hfound, hroute, -⟩ := real_of_names (names_of_real h) root
  rw [h] at hfound
  cases hfound
  exact hroute

/-- Two results are the same text only if they are the same path. -/
theorem real_eq_iff {root src src' path path' : String} (h : real root src = .ok path)
    (h' : real root src' = .ok path') : path = path' ↔ steps src = steps src' := by
  constructor
  · intro heq
    have hroute := congrArg route heq
    rw [route_of_real h, route_of_real h'] at hroute
    exact Route.extend_inj.mp hroute
  · intro heq
    have hsame : real root src = real root src' := by
      rw [real, real, names_of_real h, names_of_real h', heq]
    rw [h, h'] at hsame
    exact Except.ok.inj hsame

/-- A path text is accepted if it is absolute and has no step upwards. The root is then extended by
its steps, as a text and as a place in the file tree, so that the result tells the steps. -/
theorem extends_root (root src : String) (e : Export) (t : Tree) :
    (src.toList.head? ≠ some '/' →
      Refused src ⟨.inval, s!"{src}: path is not absolute", none⟩) ∧
    (src.toList.head? = some '/' → ".." ∈ components src →
      Refused src ⟨.acces, s!"{src}: path escapes the export", none⟩) ∧
    (src.toList.head? = some '/' → ".." ∉ components src →
      ∃ path, real root src = .ok path ∧
        (e.path src).run.run t = (.ok (e.placeAt (steps src)), t) ∧
        route path = (route root).extend (steps src) ∧
        (path = root ↔ steps src = []) ∧
        (route path = route root ↔ steps src = []) ∧
        (e.placeAt (steps src) = e.root ↔ steps src = []) ∧
        ∀ src' path', real root src' = .ok path' →
          (path = path' ↔ steps src = steps src') ∧
          (route path = route path' ↔ steps src = steps src') ∧
          (e.placeAt (steps src) = e.placeAt (steps src') ↔ steps src = steps src')) := by
  have hnames := names_eq src
  refine ⟨fun hrelative => ?_, fun habsolute hup => ?_, fun habsolute hup => ?_⟩
  · rw [if_pos hrelative] at hnames
    exact refused_of_names hnames
  · rw [if_neg (not_not_intro habsolute), if_pos hup] at hnames
    exact refused_of_names hnames
  · rw [if_neg (not_not_intro habsolute), if_neg hup] at hnames
    obtain ⟨path, hreal, hroute, hroot⟩ := real_of_names hnames root
    have hrun := run_path_eq e src t
    rw [hnames] at hrun
    have hsame : route path = route root ↔ steps src = [] := by
      rw [hroute, ← Route.extend_inj (r := route root), (route root).extend_nil]
    have hplace : e.placeAt (steps src) = e.root ↔ steps src = [] := by
      rw [← placeAt_inj (e := e), e.placeAt_nil]
    refine ⟨path, hreal, hrun, hroute, ?_, hsame, hplace, ?_⟩
    · exact ⟨fun heq => hsame.mp (congrArg route heq), hroot⟩
    · intro src' path' hreal'
      refine ⟨real_eq_iff hreal hreal', ?_, placeAt_inj⟩
      rw [hroute, route_of_real hreal', Route.extend_inj]

end ExportPath

end MetaFs
