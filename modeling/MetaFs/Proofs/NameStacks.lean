import Mathlib
import MetaFs.Proofs.Resolving
/-! Plain texts move a session through a stack of names: a dot stays, two dots take the last name
away, and any other component is a name to go on to. -/

namespace MetaFs

/-! Plain components. -/

def isPlainChar (c : Char) : Bool :=
  c.isAlphanum || ['-', '_', '.', '~'].contains c

def IsComponent (component : List Char) : Prop :=
  component ≠ [] ∧ ∀ c ∈ component, isPlainChar c = true

section Characters

variable {c : Char} {component : List Char}

theorem range_of_isPlainChar (h : isPlainChar c = true) : 45 ≤ c.toNat ∧ c.toNat ≤ 126 := by
  simp only [isPlainChar, Char.isAlphanum, Char.isAlpha, Char.isUpper, Char.isLower, Char.isDigit,
    Bool.or_eq_true, Bool.and_eq_true, decide_eq_true_eq, UInt32.le_iff_toNat_le, ge_iff_le] at h
  replace h : ((65 ≤ c.toNat ∧ c.toNat ≤ 90 ∨ 97 ≤ c.toNat ∧ c.toNat ≤ 122) ∨
    48 ≤ c.toNat ∧ c.toNat ≤ 57) ∨ ['-', '_', '.', '~'].contains c = true := h
  rcases h with hrange | hmem
  · omega
  · simp only [List.contains_cons, List.contains_nil, Bool.or_false, Bool.or_eq_true,
      beq_iff_eq] at hmem
    rcases hmem with rfl | rfl | rfl | rfl <;> decide

theorem escapedInPath_of_isPlainChar (h : isPlainChar c = true) :
    Url.escapedInPath c = false := by
  have hrange := range_of_isPlainChar h
  by_contra hescaped
  simp only [Url.escapedInPath, Url.escapedInQuery, Url.isControl, List.contains_cons,
    List.contains_nil, Bool.or_false, Bool.not_eq_false, Bool.or_eq_true, decide_eq_true_eq,
    beq_iff_eq] at hescaped
  rcases hescaped with ((hcontrol | hdelete) | rfl | rfl | rfl | rfl | rfl) |
    rfl | rfl | rfl | rfl
  · omega
  · omega
  all_goals cases h

theorem ne_of_isPlainChar {d : Char} (h : isPlainChar c = true) (hd : isPlainChar d = false) :
    c ≠ d := by
  rintro rfl
  rw [h] at hd
  cases hd

theorem isSlash_of_isPlainChar (h : isPlainChar c = true) : Url.isSlash c = false := by
  have hslash : c ≠ '/' := ne_of_isPlainChar h rfl
  have hback : c ≠ '\\' := ne_of_isPlainChar h rfl
  rw [Url.isSlash, decide_eq_false hslash, decide_eq_false hback]
  rfl

theorem notMem_of_isPlainChar {d : Char} {text : List Char} (h : ∀ c ∈ text, isPlainChar c = true)
    (hd : isPlainChar d = false) : d ∉ text :=
  fun hmem => ne_of_isPlainChar (h d hmem) hd rfl

theorem IsComponent.decodePath (h : IsComponent component) :
    Percent.decodePath component = .ok component :=
  Percent.decodePath_of_no_percent (notMem_of_isPlainChar h.2 rfl)

theorem IsComponent.slash_notMem (h : IsComponent component) : '/' ∉ component :=
  notMem_of_isPlainChar h.2 rfl

theorem IsComponent.isDot_iff (h : IsComponent component) :
    Url.Path.isDot component = true ↔ component = ['.'] := by
  rw [Url.Path.isDot, Bool.or_eq_true, decide_eq_true_eq, decide_eq_true_eq, or_iff_left]
  intro hescape
  obtain ⟨c, rest, rfl⟩ := List.exists_cons_of_ne_nil h.1
  have hc := h.2 c List.mem_cons_self
  have hlower : Url.lower c = '%' := (List.cons.inj hescape).1
  obtain rfl : '%' = c := by rw [← hlower, Url.lower_eq (by rw [hlower]; decide)]
  cases hc

theorem IsComponent.isDoubleDot_iff (h : IsComponent component) :
    Url.Path.isDoubleDot component = true ↔ component = ['.', '.'] := by
  rw [Url.Path.isDoubleDot.eq_def]
  split
  · rename_i rest
    constructor
    · intro hdot
      have hrest : IsComponent rest := by
        refine ⟨?_, fun c hc => h.2 c (List.mem_cons_of_mem '.' hc)⟩
        rintro rfl
        cases hdot
      rw [hrest.isDot_iff.mp hdot]
    · intro heq
      cases heq
      rfl
  · rename_i rest
    cases h.2 '%' List.mem_cons_self
  · rename_i hnot _
    refine iff_of_false Bool.false_ne_true ?_
    rintro rfl
    exact hnot ['.'] rfl

end Characters

/-! Drive letters. -/

namespace Url.Path

variable {isFile : Bool} {above : List Segment} {segment : Segment}

theorem startsWithDrive_eq_true {text : List Char} (h : startsWithDrive text = true) :
    ∃ c d rest, text = c :: d :: rest ∧ isAlpha c = true ∧ (d = ':' ∨ d = '|') := by
  rw [startsWithDrive.eq_def] at h
  split at h
  · simp only [isDriveLetter, Bool.and_eq_true, Bool.or_eq_true, decide_eq_true_eq] at h
    exact ⟨_, _, [], rfl, h⟩
  · simp only [isDriveLetter, Bool.and_eq_true, Bool.or_eq_true, decide_eq_true_eq] at h
    exact ⟨_, _, _, rfl, h.1⟩
  · cases h

/-- A segment that stands for a plain component is no drive letter. -/
theorem not_startsWithDrive {name : List Char} (hdecode : Percent.decodePath segment = .ok name)
    (hname : IsComponent name) : startsWithDrive segment = false := by
  by_contra hdrive
  obtain ⟨c, d, rest, rfl, hc, hd⟩ :=
    startsWithDrive_eq_true (Bool.eq_true_of_not_eq_false hdrive)
  have hpercent : c ≠ '%' := by
    rintro rfl
    cases hc
  -- The sign of the drive begins no escape, and would be in the name.
  obtain ⟨tail, rfl, htail⟩ := (Percent.decodePath_cons hpercent).mp hdecode
  have hpercent' : d ≠ '%' := by
    rcases hd with rfl | rfl <;> decide
  obtain ⟨tail, rfl, -⟩ := (Percent.decodePath_cons hpercent').mp htail
  have hplain := hname.2 d (List.mem_cons_of_mem c List.mem_cons_self)
  rcases hd with rfl | rfl <;> cases hplain

theorem settle_eq_self (h : startsWithDrive segment = false) :
    settle isFile above segment = segment := by
  rw [settle.eq_def]
  split
  · rename_i c
    rw [if_neg]
    intro hc
    rw [startsWithDrive, isDriveLetter, hc] at h
    cases h
  · rfl

theorem isNormalDrive_eq_false (h : startsWithDrive segment = false) :
    isNormalDrive segment = false := by
  rw [isNormalDrive.eq_def]
  split
  · rename_i c
    rw [startsWithDrive, isDriveLetter] at h
    cases hc : isAlpha c with
    | false => rfl
    | true =>
      rw [hc] at h
      cases h
  · rfl

end Url.Path

/-! Routes. -/

/-- A text made of plain components, which starts at the root or where one is. -/
structure Route where
  rooted : Bool
  components : List (List Char)
  nonempty : components ≠ []
  plain : ∀ component ∈ components, IsComponent component

/-- Goes on from the place that a stack of names describes, the root's name first. -/
def step (stack : List (List Char)) (component : List Char) : List (List Char) :=
  if component = ['.'] then stack
  else if component = ['.', '.'] then stack.dropLast
  else stack ++ [component]

/-- The path with these names in it. -/
def joinedPath (stack : List (List Char)) : List Char :=
  '/' :: ['/'].intercalate stack

/-- The path of the directory with these names in it, which ends in a slash. -/
def directoryPath (stack : List (List Char)) : String :=
  String.ofList (if stack = [] then ['/'] else joinedPath stack ++ ['/'])

namespace Route

def text (r : Route) : String :=
  String.ofList ((if r.rooted then ['/'] else []) ++ ['/'].intercalate r.components)

def follow (r : Route) (stack : List (List Char)) : List (List Char) :=
  r.components.foldl step (if r.rooted then [] else stack)

def EndsInDots (r : Route) : Prop :=
  r.components.getLast r.nonempty = ['.'] ∨ r.components.getLast r.nonempty = ['.', '.']

instance (r : Route) : Decidable r.EndsInDots :=
  inferInstanceAs (Decidable (_ ∨ _))

/-- The path at the end of the route. After dots comes a slash, as behind a directory. -/
def path (r : Route) (stack : List (List Char)) : String :=
  String.ofList (joinedPath (r.follow stack) ++
    if r.follow stack ≠ [] ∧ r.EndsInDots then ['/'] else [])

/-- One route after the other, which does not start at the root. -/
def andThen (a b : Route) : Route where
  rooted := a.rooted
  components := a.components ++ b.components
  nonempty := by simp [a.nonempty]
  plain := List.forall_mem_append.mpr ⟨a.plain, b.plain⟩

end Route

/-! A route is read as it is written. -/

theorem joinedPath_eq_flatMap {stack : List (List Char)} (h : stack ≠ []) :
    joinedPath stack = stack.flatMap ('/' :: ·) := by
  obtain ⟨name, stack, rfl⟩ := List.exists_cons_of_ne_nil h
  rw [flatMap_eq_intercalate, List.intercalate_cons_cons]
  rfl

theorem toList_directoryPath (stack : List (List Char)) :
    (directoryPath stack).toList = (stack ++ [[]]).flatMap ('/' :: ·) := by
  rw [directoryPath, String.toList_ofList, List.flatMap_append]
  split_ifs with hnil
  · rw [hnil]
    rfl
  · rw [joinedPath_eq_flatMap hnil]
    rfl

namespace Route

theorem plain_joined (r : Route) :
    ∀ c ∈ ['/'].intercalate r.components, isPlainChar c = true ∨ c = '/' :=
  Url.forall_mem_intercalate (List.forall_mem_singleton.mpr (.inr rfl))
    fun component hcomponent c hc => .inl ((r.plain component hcomponent).2 c hc)

/-- The components of a route with slashes between them. -/
theorem exists_joined (r : Route) : ∃ d rest,
    ['/'].intercalate r.components = d :: rest ∧ isPlainChar d = true := by
  obtain ⟨component, components, hcomponents⟩ := List.exists_cons_of_ne_nil r.nonempty
  have hcomponent := r.plain component (by rw [hcomponents]; exact List.mem_cons_self)
  obtain ⟨d, rest, rfl⟩ := List.exists_cons_of_ne_nil hcomponent.1
  have hd := hcomponent.2 d List.mem_cons_self
  rw [hcomponents]
  cases components with
  | nil => exact ⟨d, rest, List.intercalate_singleton, hd⟩
  | cons next components =>
    exact ⟨d, _, List.intercalate_cons_cons, hd⟩

theorem segmentsOf_joined (r : Route) (special : Bool) :
    Url.Path.segmentsOf special (['/'].intercalate r.components) = r.components := by
  rw [Url.Path.segmentsOf, Url.encode_eq_self]
  · refine Url.parts_intercalate rfl r.nonempty fun component hcomponent c hc => ?_
    have hplain := (r.plain component hcomponent).2 c hc
    have hslash : c ≠ '/' := ne_of_isPlainChar hplain rfl
    have hback : c ≠ '\\' := ne_of_isPlainChar hplain rfl
    simp only [hslash, hback, decide_false, Bool.and_false, Bool.or_false]
  · intro c hc
    rcases r.plain_joined c hc with hplain | rfl
    · have hrange := range_of_isPlainChar hplain
      exact ⟨by omega, escapedInPath_of_isPlainChar hplain⟩
    · decide

theorem unmarked_joined (r : Route) : Url.Unmarked (['/'].intercalate r.components) := by
  intro c hc
  rcases r.plain_joined c hc with hplain | rfl
  · by_contra hends
    simp only [Url.endsPath, Bool.not_eq_false, Bool.or_eq_true, decide_eq_true_eq] at hends
    rcases hends with rfl | rfl <;> cases hplain
  · rfl

theorem follow_joined (r : Route) (url : Url) (above : List Url.Segment) :
    (Url.follow url above (['/'].intercalate r.components)).path =
      .rooted (if Url.isFile url.scheme
        then Url.Path.trimFront (Url.Path.follow (Url.isFile url.scheme) above r.components)
        else Url.Path.follow (Url.isFile url.scheme) above r.components) := by
  rw [Url.follow, Url.cut_of_unmarked r.unmarked_joined]
  dsimp only
  rw [Url.path_withTail, r.segmentsOf_joined]

theorem toList_text (r : Route) :
    r.text.toList = (if r.rooted then ['/'] else []) ++ ['/'].intercalate r.components :=
  String.toList_ofList

theorem plain_text (r : Route) : ∀ c ∈ r.text.toList, isPlainChar c = true ∨ c = '/' := by
  rw [toList_text]
  refine List.forall_mem_append.mpr ⟨?_, r.plain_joined⟩
  split_ifs
  · exact List.forall_mem_singleton.mpr (.inr rfl)
  · rintro c ⟨⟩

theorem notMem_text (r : Route) {c : Char} (hplain : isPlainChar c = false) (hslash : c ≠ '/') :
    c ∉ r.text.toList := by
  intro hmem
  rcases r.plain_text c hmem with h | h
  · exact ne_of_isPlainChar h hplain rfl
  · exact hslash h

/-- A route has no scheme, and nothing in it is a blank. -/
theorem parse_text_eq (r : Route) {base : Url} (hplain : base.path.isPlain = false) :
    Url.parse (some base) r.text =
      if Url.isFile base.scheme then Url.readFile (some base) r.text.toList
      else Url.readRelative base r.text.toList := by
  have htidy : Url.tidy r.text.toList = r.text.toList := by
    refine Url.tidy_of_visible fun c hc => ?_
    rcases r.plain_text c hc with h | rfl
    · have := range_of_isPlainChar h
      omega
    · decide
  have hscheme : Url.splitScheme r.text.toList = none :=
    Url.splitScheme_of_no_colon (r.notMem_text rfl (by decide))
  have hhash : '#' ∉ r.text.toList := r.notMem_text rfl (by decide)
  rw [Url.parse.eq_def]
  dsimp only
  rw [htidy, hscheme]
  dsimp only
  split
  · rename_i htext
    rw [htext] at hhash
    exact absurd List.mem_cons_self hhash
  · rw [hplain]
    rfl

theorem not_startsWithDrive_joined (r : Route) :
    Url.Path.startsWithDrive (['/'].intercalate r.components) = false := by
  by_contra hdrive
  obtain ⟨c, d, rest, htext, -, hd⟩ :=
    Url.Path.startsWithDrive_eq_true (Bool.eq_true_of_not_eq_false hdrive)
  have hmem : d ∈ ['/'].intercalate r.components := by
    rw [htext]
    exact List.mem_cons_of_mem c List.mem_cons_self
  rcases r.plain_joined d hmem with hplain | hslash
  · rcases hd with rfl | rfl <;> cases hplain
  · rcases hd with rfl | rfl <;> cases hslash

section Bases

variable {base : Url} {raw : List Url.Segment}

theorem above_of_directory (hbase : base.path = .rooted (raw ++ [[]])) (isFile : Bool) :
    Url.above isFile base.path = raw.reverse := by
  have hlast : Url.Path.isNormalDrive [] = false := rfl
  rw [hbase, Url.above.eq_def]
  dsimp only
  rw [List.reverse_concat]
  dsimp only
  rw [hlast, Bool.and_false, if_neg Bool.false_ne_true]

theorem isNormalDrive_firstSegment (hbase : base.path = .rooted (raw ++ [[]]))
    (hdrive : ∀ segment ∈ raw, Url.Path.startsWithDrive segment = false) :
    Url.Path.isNormalDrive (Url.firstSegment base.path) = false := by
  rw [hbase]
  cases raw with
  | nil => rfl
  | cons segment raw =>
    exact Url.Path.isNormalDrive_eq_false (hdrive segment List.mem_cons_self)

theorem readRelative_text (r : Route) (hbase : base.path = .rooted (raw ++ [[]])) :
    Url.readRelative base r.text.toList = .ok (Url.follow base
      (if r.rooted then [] else raw.reverse) (['/'].intercalate r.components)) := by
  obtain ⟨d, rest, hjoined, hd⟩ := r.exists_joined
  have hroot : Url.isSlash '/' = true := rfl
  have hslash := isSlash_of_isPlainChar hd
  have hquery : d ≠ '?' := ne_of_isPlainChar hd rfl
  have hhash : d ≠ '#' := ne_of_isPlainChar hd rfl
  have habove := above_of_directory hbase
  rw [toList_text, hjoined, Url.readRelative.eq_def]
  cases r.rooted with
  | true =>
    simp only [if_true, List.singleton_append, hroot, hslash, Bool.false_eq_true, if_false,
      Char.reduceEq]
  | false =>
    simp only [Bool.false_eq_true, if_false, List.nil_append, hslash, hquery, hhash, habove]

/-- File URLs have rules of their own for drives, but there is no drive in either text. -/
theorem readFile_text (r : Route) (hbase : base.path = .rooted (raw ++ [[]]))
    (hdrive : ∀ segment ∈ raw, Url.Path.startsWithDrive segment = false)
    (hfile : Url.isFile base.scheme = true) : ∃ start : Url, Url.isFile start.scheme = true ∧
      Url.readFile (some base) r.text.toList = .ok (Url.follow start
        (if r.rooted then [] else raw.reverse) (['/'].intercalate r.components)) := by
  obtain ⟨d, rest, hjoined, hd⟩ := r.exists_joined
  have hroot : Url.isSlash '/' = true := rfl
  have hslash := isSlash_of_isPlainChar hd
  have hquery : d ≠ '?' := ne_of_isPlainChar hd rfl
  have hhash : d ≠ '#' := ne_of_isPlainChar hd rfl
  have habove := above_of_directory hbase
  have hfirst := isNormalDrive_firstSegment hbase hdrive
  have hstart := r.not_startsWithDrive_joined
  rw [hjoined] at hstart
  rw [toList_text, hjoined, Url.readFile.eq_def]
  cases r.rooted with
  | true =>
    refine ⟨Url.fileUrl base.host, rfl, ?_⟩
    simp only [if_true, List.singleton_append, hroot, hslash, Bool.false_eq_true, if_false,
      Url.readFile.fromRoot, hstart, hfirst]
  | false =>
    refine ⟨base, hfile, ?_⟩
    simp only [Bool.false_eq_true, if_false, List.nil_append, hslash, hquery, hhash, hstart,
      habove]

/-- A route is read relative to a URL by following it from the segments above, or from the root. -/
theorem parse_text (r : Route) (hbase : base.path = .rooted (raw ++ [[]]))
    (hdrive : ∀ segment ∈ raw, Url.Path.startsWithDrive segment = false) :
    ∃ url, Url.parse (some base) r.text = .ok url ∧
      url.path = .rooted (if Url.isFile base.scheme
        then Url.Path.trimFront (Url.Path.follow (Url.isFile base.scheme)
          (if r.rooted then [] else raw.reverse) r.components)
        else Url.Path.follow (Url.isFile base.scheme)
          (if r.rooted then [] else raw.reverse) r.components) := by
  have hplain : base.path.isPlain = false := by
    rw [hbase]
    rfl
  rw [r.parse_text_eq hplain]
  by_cases hfile : Url.isFile base.scheme = true
  · obtain ⟨start, hstart, hread⟩ := r.readFile_text hbase hdrive hfile
    rw [if_pos hfile, hread]
    refine ⟨_, rfl, ?_⟩
    rw [r.follow_joined, hstart, hfile]
  · rw [if_neg hfile, r.readRelative_text hbase]
    exact ⟨_, rfl, r.follow_joined base _⟩

end Bases

end Route

/-! Segments and the stack of names that they stand for. -/

/-- The segments stand for these names, all of which are plain. -/
structure Spells (raw : List Url.Segment) (stack : List (List Char)) : Prop where
  decodes : List.Forall₂ (fun raw name => Percent.decodePath raw = .ok name) raw stack
  plain : ∀ name ∈ stack, IsComponent name

namespace Spells

variable {raw above : List Url.Segment} {stack : List (List Char)}

theorem nil : Spells [] [] :=
  ⟨.nil, by rintro name ⟨⟩⟩

theorem exists_name (h : Spells raw stack) : ∀ segment ∈ raw,
    ∃ name, Percent.decodePath segment = .ok name ∧ IsComponent name := by
  obtain ⟨hdecodes, hplain⟩ := h
  induction hdecodes with
  | nil => rintro segment ⟨⟩
  | cons hname hdecodes ih =>
    obtain ⟨hfirst, hplain⟩ := List.forall_mem_cons.mp hplain
    exact List.forall_mem_cons.mpr ⟨⟨_, hname, hfirst⟩, ih hplain⟩

theorem notDrive (h : Spells raw stack) :
    ∀ segment ∈ raw, Url.Path.startsWithDrive segment = false := by
  intro segment hsegment
  obtain ⟨name, hdecode, hname⟩ := h.exists_name segment hsegment
  exact Url.Path.not_startsWithDrive hdecode hname

theorem ne_nil (h : Spells raw stack) : ∀ segment ∈ raw, segment ≠ [] := by
  rintro segment hsegment rfl
  obtain ⟨name, hdecode, hname⟩ := h.exists_name [] hsegment
  rw [Percent.decodePath_nil] at hdecode
  cases hdecode
  exact hname.1 rfl

/-- One step takes the stack along with the segments. -/
theorem enter (h : Spells above.reverse stack) {component : List Char}
    (hcomponent : IsComponent component) (isFile : Bool) :
    Spells (Url.Path.enter isFile above component).reverse (step stack component) := by
  rw [Url.Path.enter, step]
  by_cases hdouble : component = ['.', '.']
  · subst hdouble
    have hsegment : Url.Path.isDoubleDot ['.', '.'] = true := rfl
    have hdot : ['.', '.'] ≠ ['.'] := by decide
    rw [if_pos hsegment, if_neg hdot, if_pos rfl]
    -- Above the root there is nothing to take away, neither a segment nor a name.
    cases above with
    | nil =>
      cases h.decodes
      exact nil
    | cons segment above =>
      have hdrive := h.notDrive segment (List.mem_reverse.mpr List.mem_cons_self)
      obtain ⟨top, rfl⟩ : ∃ reversed, stack = reversed.reverse :=
        ⟨stack.reverse, (List.reverse_reverse stack).symm⟩
      cases List.forall₂_reverse_iff.mp h.decodes with
      | @cons _ name _ names hname hnames =>
        rw [Url.Path.parent, hdrive, if_neg Bool.false_ne_true, List.reverse_cons,
          List.dropLast_concat]
        refine ⟨List.forall₂_reverse_iff.mpr hnames, fun name hname => h.plain name ?_⟩
        rw [List.reverse_cons]
        exact List.mem_append_left _ hname
  · rw [if_neg (mt hcomponent.isDoubleDot_iff.mp hdouble), if_neg hdouble]
    by_cases hdot : component = ['.']
    · rw [if_pos (hcomponent.isDot_iff.mpr hdot), if_pos hdot]
      exact h
    · have hdrive := Url.Path.not_startsWithDrive hcomponent.decodePath hcomponent
      rw [if_neg (mt hcomponent.isDot_iff.mp hdot), if_neg hdot, Url.Path.settle_eq_self hdrive,
        List.reverse_cons]
      exact ⟨List.rel_append h.decodes (.cons hcomponent.decodePath .nil),
        List.forall_mem_append.mpr ⟨h.plain, List.forall_mem_singleton.mpr hcomponent⟩⟩

/-- A run of steps does so, too. -/
theorem foldl_enter {components : List (List Char)} (h : Spells above.reverse stack)
    (hcomponents : ∀ component ∈ components, IsComponent component) (isFile : Bool) :
    Spells (components.foldl (Url.Path.enter isFile) above).reverse
      (components.foldl step stack) := by
  induction components generalizing above stack with
  | nil => exact h
  | cons component components ih =>
    obtain ⟨hcomponent, hcomponents⟩ := List.forall_mem_cons.mp hcomponents
    exact ih (h.enter hcomponent isFile) hcomponents

/-- What a route ends in is empty exactly behind dots. -/
def ending (r : Route) : List (List Char) :=
  if r.EndsInDots then [[]] else []

theorem follow_ne_nil {r : Route} (h : ¬r.EndsInDots) : r.follow stack ≠ [] := by
  rw [Route.EndsInDots, not_or] at h
  rw [Route.follow, ← List.dropLast_concat_getLast r.nonempty, List.foldl_append, List.foldl_cons,
    List.foldl_nil, step, if_neg h.1, if_neg h.2]
  exact List.append_ne_nil_of_right_ne_nil _ (List.cons_ne_nil _ _)

/-- A route is followed in the segments as it is in the names. -/
theorem follow (h : Spells raw stack) (r : Route) (isFile : Bool) : ∃ reached,
    Url.Path.follow isFile (if r.rooted then [] else raw.reverse) r.components =
      reached ++ ending r ∧ Spells reached (r.follow stack) := by
  have hlast := r.plain _ (List.getLast_mem r.nonempty)
  refine ⟨(r.components.foldl (Url.Path.enter isFile)
    (if r.rooted then [] else raw.reverse)).reverse, ?_, ?_⟩
  · rw [Url.Path.follow_eq_foldl _ _ r.nonempty, ending]
    refine congrArg (_ ++ ·) (if_congr ?_ rfl rfl)
    rw [hlast.isDoubleDot_iff, hlast.isDot_iff]
    exact or_comm
  · rw [Route.follow]
    refine foldl_enter ?_ r.plain isFile
    split_ifs
    · exact nil
    · rw [List.reverse_reverse]
      exact h

theorem decodePath_append (h : Spells raw stack) {tail : List (List Char)}
    (htail : ∀ segment ∈ tail, segment = []) :
    Percent.decodePath (Url.Path.rooted (raw ++ tail)).text =
      .ok ((stack ++ tail).flatMap ('/' :: ·)) := by
  refine Percent.decodePath_flatMap.mpr ⟨_, List.rel_append h.decodes ?_, rfl⟩
  refine List.forall₂_same.mpr fun segment hsegment => ?_
  rw [htail segment hsegment]
  exact Percent.decodePath_nil

theorem eq_nil_of_mem_ending {r : Route} : ∀ segment ∈ ending r, segment = [] := by
  intro segment hsegment
  rw [ending] at hsegment
  split_ifs at hsegment
  · exact List.mem_singleton.mp hsegment
  · cases hsegment

/-- There is nothing to trim in front of segments that stand for names. -/
theorem trimFront_append (h : Spells raw stack) {tail : List Url.Segment}
    (htail : raw = [] → tail = [[]]) : Url.Path.trimFront (raw ++ tail) = raw ++ tail := by
  cases raw with
  | nil =>
    rw [htail rfl]
    rfl
  | cons segment raw =>
    have hne : segment.isEmpty = false := by
      rw [List.isEmpty_eq_false_iff]
      exact h.ne_nil segment List.mem_cons_self
    rw [Url.Path.trimFront, List.cons_append, List.dropWhile_cons, hne]
    rfl

theorem eq_nil_iff (h : Spells raw stack) : raw = [] ↔ stack = [] := by
  rw [← List.length_eq_zero_iff, ← List.length_eq_zero_iff, h.decodes.length_eq]

/-- Segments that stand for names are followed to where they are. -/
theorem follow_directory (h : Spells raw stack)
    (hsettled : ∀ segment ∈ raw, Url.Path.Settled segment) (isFile : Bool) :
    Url.Path.follow isFile [] (raw ++ [[]]) = raw ++ [[]] := by
  have henter (above : List Url.Segment) :
      raw.foldl (Url.Path.enter isFile) above = raw.reverse ++ above := by
    have hdrive := h.notDrive
    clear h
    induction raw generalizing above with
    | nil => rfl
    | cons segment raw ih =>
      obtain ⟨hsegment, hsettled⟩ := List.forall_mem_cons.mp hsettled
      obtain ⟨hfirst, hdrive⟩ := List.forall_mem_cons.mp hdrive
      have hpush : Url.Path.enter isFile above segment = segment :: above := by
        rw [Url.Path.enter, hsegment.notDoubleDot, hsegment.notDot,
          Url.Path.settle_eq_self hfirst]
        rfl
      rw [List.foldl_cons, hpush, ih hsettled _ hdrive, List.reverse_cons, List.append_assoc,
        List.singleton_append]
  rw [Url.Path.follow_concat_nil, henter, List.append_nil, List.reverse_reverse]

/-- Both kinds of endings are made that of a directory. -/
theorem slashed (h : Spells raw stack) {r : Route}
    (hsettled : ∀ segment ∈ raw ++ ending r, Url.Path.Settled segment) (isFile : Bool) :
    Url.slashed isFile (.rooted (raw ++ ending r)) = .rooted (raw ++ [[]]) := by
  rw [Url.slashed]
  by_cases hends : r.EndsInDots
  · rw [ending, if_pos hends, List.getLast?_concat, if_pos rfl]
  · have hraw := (List.forall_mem_append.mp hsettled).1
    have hlast : (raw ++ ending r).getLast? ≠ some [] := by
      rw [ending, if_neg hends, List.append_nil]
      intro hnil
      exact h.ne_nil [] (List.mem_of_getLast? hnil) rfl
    rw [if_neg hlast, ending, if_neg hends, List.append_nil]
    dsimp only
    rw [h.follow_directory hraw, h.trimFront_append fun _ => rfl, ite_self]

end Spells

/-- The path of a route has its names in it, and an empty one behind dots. -/
theorem Route.toList_path (r : Route) (stack : List (List Char)) :
    (r.path stack).toList = (r.follow stack ++ Spells.ending r).flatMap ('/' :: ·) := by
  rw [Route.path, String.toList_ofList, List.flatMap_append, Spells.ending]
  by_cases hnil : r.follow stack = []
  · have hdots : r.EndsInDots := by
      by_contra hdots
      exact Spells.follow_ne_nil hdots hnil
    rw [hnil, if_pos hdots, if_neg (fun h => h.1 rfl)]
    rfl
  · rw [joinedPath_eq_flatMap hnil]
    by_cases hdots : r.EndsInDots
    · rw [if_pos ⟨hnil, hdots⟩, if_pos hdots]
      rfl
    · rw [if_neg (fun h => hdots h.2), if_neg hdots]
      rfl

namespace Route

theorem text_andThen (a : Route) {b : Route} (hb : b.rooted = false) :
    (a.andThen b).text = a.text ++ "/" ++ b.text := by
  have hjoin : joinedPath (a.components ++ b.components) =
      joinedPath a.components ++ joinedPath b.components := by
    have hne : a.components ++ b.components ≠ [] := (a.andThen b).nonempty
    rw [joinedPath_eq_flatMap hne, joinedPath_eq_flatMap a.nonempty,
      joinedPath_eq_flatMap b.nonempty, List.flatMap_append]
  have htail : ['/'].intercalate (a.components ++ b.components) =
      ['/'].intercalate a.components ++ '/' :: ['/'].intercalate b.components :=
    (List.cons.inj hjoin).2
  rw [← String.toList_inj, String.toList_append, String.toList_append, toList_text, toList_text,
    toList_text, hb]
  simp only [andThen, htail, Bool.false_eq_true, if_false, List.nil_append, List.append_assoc]
  rfl

theorem follow_andThen (a b : Route) (hb : b.rooted = false) (stack : List (List Char)) :
    (a.andThen b).follow stack = b.follow (a.follow stack) := by
  rw [follow, follow, follow, hb, if_neg Bool.false_ne_true, ← List.foldl_append]
  rfl

theorem path_andThen (a : Route) {b : Route} (hb : b.rooted = false) (stack : List (List Char)) :
    (a.andThen b).path stack = b.path (a.follow stack) := by
  have hlast : (a.andThen b).components.getLast (a.andThen b).nonempty =
      b.components.getLast b.nonempty := List.getLast_append_of_ne_nil _ b.nonempty
  have hends : (a.andThen b).EndsInDots ↔ b.EndsInDots := by
    rw [EndsInDots, EndsInDots, hlast]
  rw [path, path, follow_andThen a b hb]
  simp only [hends]

end Route

namespace WorkingDirectory

variable {wd : WorkingDirectory} {stack : List (List Char)}

/-- The directory is where the stack of names leads from the root. -/
structure At (wd : WorkingDirectory) (stack : List (List Char)) : Prop where
  kept : wd.Kept
  spells : ∃ raw, wd.uri.url.path = .rooted (raw ++ [[]]) ∧ Spells raw stack

/-- The path tells the stack, in whatever way the names may be escaped in the URL. -/
theorem Kept.at (h : wd.Kept) (hpath : wd.uri.path = directoryPath stack)
    (hplain : ∀ name ∈ stack, IsComponent name) : wd.At stack := by
  have htext := congrArg String.toList hpath
  rw [toList_directoryPath] at htext
  have hrooted : wd.uri.url.path.isPlain = false := by
    by_contra hnot
    refine h.head?_ne (Bool.eq_true_of_not_eq_false hnot) ?_
    rw [htext]
    cases stack <;> rfl
  obtain ⟨segments, hsegments, hsettled⟩ := (h.url.rooted hrooted).settled
  obtain ⟨raw, rfl⟩ := h.directory.slash segments hsegments
  obtain ⟨names, hnames, htext'⟩ := h.names hsegments
  -- No name has a slash in it, so that the text of the path tells the names.
  have hsame : names = stack ++ [[]] := by
    have hsplit := congrArg (List.splitOn '/') (htext'.symm.trans htext)
    rw [splitOn_flatMap fun name hname => ?_, splitOn_flatMap fun name hname => ?_] at hsplit
    · exact (List.cons.inj hsplit).2
    · rcases List.mem_append.mp hname with hmem | hmem
      · exact (hplain name hmem).slash_notMem
      · rw [List.mem_singleton.mp hmem]
        exact List.not_mem_nil
    · exact (Url.Path.isName_of_settled hnames hsettled name hname).undivided
  rw [hsame, ← List.forall₂_reverse_iff, List.reverse_concat, List.reverse_concat] at hnames
  cases hnames with
  | cons _ hnames => exact ⟨h, raw, hsegments, List.forall₂_reverse_iff.mp hnames, hplain⟩

theorem At.path_eq (h : wd.At stack) : wd.uri.path = directoryPath stack := by
  obtain ⟨raw, hpath, hspells⟩ := h.spells
  have hdecode := h.kept.path
  rw [hpath, hspells.decodePath_append (List.forall_mem_singleton.mpr rfl)] at hdecode
  rw [← String.toList_inj, toList_directoryPath]
  exact (Except.ok.inj hdecode).symm

/-- How a route is read from the directory. -/
theorem At.read (h : wd.At stack) (r : Route) : ∃ url raw,
    Url.parse ((some wd.uri).map Uri.url) r.text = .ok url ∧ url.Rooted ∧
      url.path = .rooted (raw ++ Spells.ending r) ∧ Spells raw (r.follow stack) := by
  obtain ⟨raw, hpath, hspells⟩ := h.spells
  obtain ⟨url, hurl, hfollowed⟩ := r.parse_text hpath hspells.notDrive
  obtain ⟨reached, hfollow, hreached⟩ := hspells.follow r (Url.isFile wd.uri.url.scheme)
  have hdots : reached = [] → r.EndsInDots := by
    intro hnil
    by_contra hdots
    exact Spells.follow_ne_nil hdots (hreached.eq_nil_iff.mp hnil)
  have htrim : Url.Path.trimFront (reached ++ Spells.ending r) = reached ++ Spells.ending r :=
    hreached.trimFront_append fun hnil => if_pos (hdots hnil)
  rw [hfollow, htrim, ite_self] at hfollowed
  have hbase : ∀ b ∈ some wd.uri.url, b.Proper := by
    rintro b ⟨⟩
    exact h.kept.url
  have hproper := Url.proper_of_parse hbase hurl
  exact ⟨url, reached, hurl, hproper.1.rooted (by rw [hfollowed]; rfl), hfollowed, hreached⟩

theorem At.resolve (h : wd.At stack) (r : Route) : wd.resolve r.text = .ok (r.path stack) := by
  obtain ⟨url, raw, hurl, -, hpath, hspells⟩ := h.read r
  have huri : Uri.parse r.text (some wd.uri) false = .ok ⟨url, r.path stack⟩ := by
    rw [Uri.parse_of_ok hurl]
    simp only [Bool.false_eq_true, if_false]
    rw [hpath, hspells.decodePath_append Spells.eq_nil_of_mem_ending, ← r.toList_path]
    dsimp only
    rw [String.ofList_toList]
  have hne : ¬(r.path stack).isEmpty = true := by
    rw [String.isEmpty_iff, ← String.toList_inj, Route.path, String.toList_ofList]
    exact List.cons_ne_nil _ _
  rw [WorkingDirectory.resolve, huri]
  show Except.ok (if (r.path stack).isEmpty = true then wd.uri.path else r.path stack) = _
  rw [if_neg hne]

theorem At.set (h : wd.At stack) (r : Route) :
    ∃ wd', wd.set r.text = .ok wd' ∧ wd'.At (r.follow stack) := by
  obtain ⟨url, raw, hurl, hrooted, hpath, hspells⟩ := h.read r
  obtain ⟨segments, hsegments, hsettled⟩ := hrooted.settled
  rw [hpath] at hsegments
  cases hsegments
  have hdirectory : url.asDirectory.path = .rooted (raw ++ [[]]) := by
    rw [Url.asDirectory, hpath]
    exact hspells.slashed hsettled (Url.isFile url.scheme)
  have huri : Uri.parse r.text (some wd.uri) true =
      .ok ⟨url.asDirectory, directoryPath (r.follow stack)⟩ := by
    rw [Uri.parse_of_ok hurl]
    simp only [if_true]
    rw [hdirectory, hspells.decodePath_append (List.forall_mem_singleton.mpr rfl),
      ← toList_directoryPath]
    dsimp only
    rw [String.ofList_toList]
  have hset : wd.set r.text = .ok ⟨⟨url.asDirectory, directoryPath (r.follow stack)⟩⟩ := by
    rw [WorkingDirectory.set, huri]
  exact ⟨_, hset, (h.kept.set hset).1, raw, hdirectory, hspells⟩

end WorkingDirectory

namespace Session

variable {σ : Type} {settings : Settings} {user : String} {link : Link σ} {state : σ}
  {s : Session} {stack : List (List Char)}

theorem at_move (h : s.workingDirectory.At stack) (r : Route) :
    s.Takes r.text ∧ (s.move r.text).workingDirectory.At (r.follow stack) := by
  obtain ⟨wd, hset, hat⟩ := h.set r
  have htakes : s.Takes r.text := by
    refine ⟨{ s with workingDirectory := wd }, ?_⟩
    rw [setWorkingDirectory, hset]
    rfl
  have hsame := set_of_takes htakes
  rw [hset] at hsame
  refine ⟨htakes, ?_⟩
  rw [← Except.ok.inj hsame]
  exact hat

theorem at_moves (h : s.workingDirectory.At stack) (routes : List Route) :
    (s.moves (routes.map Route.text)).workingDirectory.At
      (routes.foldl (fun stack r => r.follow stack) stack) := by
  induction routes generalizing s stack with
  | nil => exact h
  | cons r routes ih => exact ih (at_move h r).2

/-- Plain texts move a session and are resolved as routes through the stack of names that its
directory shows. Each of them is taken, and going along one route and resolving another one is
resolving the first one with the second one behind it. -/
theorem resolve_follow (h : ((settings.connect user link).run.run state).1 = .ok s)
    (moved : List String) (hplain : ∀ name ∈ stack, IsComponent name)
    (hpath : (s.moves moved).workingDirectory.uri.path = directoryPath stack)
    (routes : List Route) :
    ∃ (here : Session) (reached : List (List Char)),
      here = (s.moves moved).moves (routes.map Route.text) ∧
      reached = routes.foldl (fun stack r => r.follow stack) stack ∧
      here.workingDirectory.uri.path = directoryPath reached ∧
      (∀ r : Route, here.Takes r.text ∧
        here.workingDirectory.resolve r.text = .ok (r.path reached)) ∧
      ∀ a b : Route, b.rooted = false →
        (here.move a.text).workingDirectory.resolve b.text =
          here.workingDirectory.resolve (a.text ++ "/" ++ b.text) := by
  have hkept := kept_moves (Settings.kept_of_connect h).1 moved
  have hat := at_moves (hkept.at hpath hplain) routes
  refine ⟨_, _, rfl, rfl, hat.path_eq, fun r => ⟨(at_move hat r).1, hat.resolve r⟩, ?_⟩
  intro a b hb
  rw [(at_move hat a).2.resolve b, ← Route.text_andThen a hb, hat.resolve, Route.path_andThen a hb]

def sampleRoute : Route where
  rooted := false
  components := [['.', '.'], ['b', 'o', 'b'], ['.']]
  nonempty := by decide
  plain := by simp [IsComponent, isPlainChar]

/-- The directory is reached by an escape in the name. -/
theorem resolve_follow_bob :
    ((Settings.connect { nameNode := some "nn" } "alice" scripted).run.run openingReplies).1 =
      .ok openedSession ∧
    (openedSession.moves ["/user/%61lice"]).workingDirectory.text = "hdfs:///user/%61lice/" ∧
    ((openedSession.moves ["/user/%61lice"]).move "../bob/.").workingDirectory.uri.path =
      "/user/bob/" ∧
    ((openedSession.moves ["/user/%61lice"]).move "../bob/.").workingDirectory.resolve "../bob/." =
      (openedSession.moves ["/user/%61lice"]).workingDirectory.resolve "../bob/./../bob/." := by
  have hplain : ∀ name ∈ [['u', 's', 'e', 'r'], ['a', 'l', 'i', 'c', 'e']], IsComponent name := by
    simp [IsComponent, isPlainChar]
  have hpath : (openedSession.moves ["/user/%61lice"]).workingDirectory.uri.path =
      directoryPath [['u', 's', 'e', 'r'], ['a', 'l', 'i', 'c', 'e']] := by cbv
  have htext : sampleRoute.text = "../bob/." := by decide +kernel
  obtain ⟨here, reached, rfl, rfl, -, -, hroutes⟩ :=
    resolve_follow connect_opening ["/user/%61lice"] hplain hpath []
  obtain ⟨there, reached, rfl, rfl, hreached, -⟩ :=
    resolve_follow connect_opening ["/user/%61lice"] hplain hpath [sampleRoute]
  rw [List.map_singleton, htext] at hreached
  refine ⟨connect_opening, by cbv, hreached.trans (by decide +kernel), ?_⟩
  have hsame := hroutes sampleRoute sampleRoute rfl
  rw [htext] at hsame
  exact hsame

end Session

end MetaFs
