import Mathlib.Tactic

/-!
# Path names

Path names as `std::filesystem::path` of C++17 has them on POSIX, without a root: filenames with runs of
slashes between them and possibly behind the last. `components` is what iteration over a path visits and
`lexicallyNormal` takes the steps the standard gives for the normal form.

A path is also a `walk` through directories, kept as a stack. The normal form walks as the path does, and
where the walk does not leave the directory it starts in, the normal form spells out where it ends.
-/

namespace PosixPath

def dot : List UInt8 := [46]

def dotDot : List UInt8 := [46, 46]

structure Element where
  filename : List UInt8
  /-- A directory separator follows. -/
  separator : Bool
deriving DecidableEq, Repr

def ofPieces : List (List UInt8) → List Element
  | [] => []
  | [piece] => [⟨piece, false⟩]
  | piece :: next :: pieces => ⟨piece, true⟩ :: ofPieces (next :: pieces)

/-- The filenames of a path; a run of slashes is one separator. -/
def elements (path : List UInt8) : List Element :=
  (ofPieces (path.splitOn 47)).filter (·.filename ≠ [])

def pathname (elements : List Element) : List UInt8 :=
  elements.flatMap fun element => element.filename ++ if element.separator then [47] else []

/-- The filenames, and an empty one for a separator behind the last. -/
def components (path : List UInt8) : List (List UInt8) :=
  (elements path).map (·.filename) ++ if (elements path).getLast?.any (·.separator) then [[]] else []

/-- The first filename that is followed by a dot-dot, removed with it. -/
def cancel : List Element → Option (List Element)
  | element :: next :: rest =>
    if element.filename ≠ dotDot ∧ next.filename = dotDot then some rest
    else (cancel (next :: rest)).map (element :: ·)
  | _ => none

/-- `cancel` as long as it finds one, at most `fuel` times. -/
def cancelAll : Nat → List Element → List Element
  | 0, elements => elements
  | fuel + 1, elements =>
    match cancel elements with
    | none => elements
    | some rest => cancelAll fuel rest

/-- A separator behind a dot-dot that stands last is removed. -/
def trimLast : List Element → List Element
  | [] => []
  | [element] => if element.filename = dotDot then [{ element with separator := false }] else [element]
  | element :: next :: rest => element :: trimLast (next :: rest)

def normalElements (elements : List Element) : List Element :=
  let kept := elements.filter (·.filename ≠ dot)
  trimLast (cancelAll kept.length kept)

def lexicallyNormal (path : List UInt8) : List UInt8 :=
  if path = [] then []
  else if normalElements (elements path) = [] then dot
  else pathname (normalElements (elements path))

/-- One name of a walk; `none` if it leaves the directory the walk starts in. -/
def visit (stack : List (List UInt8)) (name : List UInt8) : Option (List (List UInt8)) :=
  if name = [] ∨ name = dot then some stack
  else if name = dotDot then (if stack = [] then none else some stack.tail)
  else some (name :: stack)

/-- The directories a walk ends in, the innermost first. -/
def walk (stack names : List (List UInt8)) : Option (List (List UInt8)) := names.foldlM visit stack

/-- A filename that stands for itself. -/
def Plain (name : List UInt8) : Prop := name ≠ [] ∧ name ≠ dot ∧ name ≠ dotDot ∧ 47 ∉ name

/-- Elements that can be read back: only the last may lack its separator. -/
structure WellFormed (elements : List Element) : Prop where
  filename : ∀ element ∈ elements, element.filename ≠ [] ∧ 47 ∉ element.filename
  separator : elements.Pairwise fun element _ => element.separator = true

/-! ## Reading and writing -/

theorem WellFormed.sublist {es fs : List Element} (h : WellFormed es) (hsub : fs.Sublist es) : WellFormed fs :=
  ⟨fun element helement => h.filename element (hsub.subset helement), h.separator.sublist hsub⟩

theorem not_mem_splitOn (path : List UInt8) : ∀ piece ∈ path.splitOn 47, 47 ∉ piece := by
  induction path with
  | nil => simp
  | cons c path ih =>
    rw [List.splitOn_cons_eq_if_modifyHead]
    by_cases hc : c = 47
    · simpa [hc] using ih
    · obtain ⟨piece, pieces, hpieces⟩ := List.exists_cons_of_ne_nil (List.splitOn_ne_nil 47 path)
      rw [hpieces] at ih
      simp only [hpieces, beq_iff_eq, hc, if_false, List.modifyHead_cons, List.mem_cons,
        forall_eq_or_imp] at ih ⊢
      exact ⟨fun hmem => hmem.elim (fun heq => hc heq.symm) ih.1, ih.2⟩

theorem mem_ofPieces {pieces : List (List UInt8)} {element : Element} (h : element ∈ ofPieces pieces) :
    element.filename ∈ pieces := by
  induction pieces using ofPieces.induct with
  | case1 => cases h
  | case2 piece =>
    obtain rfl := List.mem_singleton.mp h
    exact List.mem_singleton_self piece
  | case3 piece next pieces ih =>
    rcases List.mem_cons.mp h with rfl | h
    · exact List.mem_cons_self
    · exact List.mem_cons_of_mem piece (ih h)

theorem pairwise_ofPieces (pieces : List (List UInt8)) :
    (ofPieces pieces).Pairwise fun element _ => element.separator = true := by
  induction pieces using ofPieces.induct with
  | case1 => exact List.Pairwise.nil
  | case2 piece => exact List.pairwise_singleton _ _
  | case3 piece next pieces ih => exact List.Pairwise.cons (fun _ _ => rfl) ih

theorem wellFormed_elements (path : List UInt8) : WellFormed (elements path) := by
  refine ⟨fun element helement => ?_, (pairwise_ofPieces _).filter _⟩
  obtain ⟨hmem, hne⟩ := List.mem_filter.mp helement
  exact ⟨by simpa using hne, not_mem_splitOn path _ (mem_ofPieces hmem)⟩

theorem not_mem_components (path : List UInt8) : ∀ name ∈ components path, 47 ∉ name := by
  intro name hname
  rcases List.mem_append.mp hname with hname | hname
  · obtain ⟨element, helement, rfl⟩ := List.mem_map.mp hname
    exact ((wellFormed_elements path).filename element helement).2
  · split at hname
    · rw [List.mem_singleton.mp hname]
      exact List.not_mem_nil
    · cases hname

theorem ofPieces_cons {pieces : List (List UInt8)} (h : pieces ≠ []) (piece : List UInt8) :
    ofPieces (piece :: pieces) = ⟨piece, true⟩ :: ofPieces pieces := by
  obtain ⟨next, rest, rfl⟩ := List.exists_cons_of_ne_nil h
  rfl

theorem elements_cons {name : List UInt8} (hne : name ≠ []) (hname : 47 ∉ name) (path : List UInt8) :
    elements (name ++ 47 :: path) = ⟨name, true⟩ :: elements path := by
  rw [elements, List.splitOn_append_cons_self_of_not_mem hname, ofPieces_cons (by simp),
    List.filter_cons_of_pos (by simpa using hne), ← elements]

theorem elements_name {name : List UInt8} (hne : name ≠ []) (hname : 47 ∉ name) :
    elements name = [⟨name, false⟩] := by
  rw [elements, List.splitOn_eq_singleton hname, ofPieces, List.filter_cons_of_pos (by simpa using hne)]
  rfl

theorem elements_pathname {es : List Element} (h : WellFormed es) : elements (pathname es) = es := by
  induction es with
  | nil => rfl
  | cons element es ih =>
    obtain ⟨hne, hname⟩ := h.filename element List.mem_cons_self
    have htail := ih (h.sublist (List.sublist_cons_self element es))
    obtain ⟨name, separator⟩ := element
    rw [pathname, List.flatMap_cons, ← pathname]
    cases separator with
    | true =>
      rw [if_pos rfl, List.append_assoc, List.singleton_append, elements_cons hne hname, htail]
    | false =>
      -- nothing stands behind a filename without a separator
      cases es with
      | nil => simpa [pathname] using elements_name hne hname
      | cons next es => cases (List.pairwise_cons.mp h.separator).1 next List.mem_cons_self

/-! ## Walks -/

variable {stack stack' names : List (List UInt8)}

theorem walk_append (stack names more : List (List UInt8)) :
    walk stack (names ++ more) = (walk stack names).bind fun reached => walk reached more :=
  List.foldlM_append

theorem walk_cons (stack names : List (List UInt8)) (name : List UInt8) :
    walk stack (name :: names) = (visit stack name).bind fun reached => walk reached names :=
  List.foldlM_cons

theorem visit_plain {name : List UInt8} (hne : name ≠ []) (hdot : name ≠ dot) (hup : name ≠ dotDot) :
    visit stack name = some (name :: stack) := by
  rw [visit, if_neg (by simp [hne, hdot]), if_neg hup]

theorem visit_dotDot (stack : List (List UInt8)) :
    visit stack dotDot = if stack = [] then none else some stack.tail := by
  rw [visit, if_neg (by decide), if_pos rfl]

theorem visit_skips {name : List UInt8} (h : name = [] ∨ name = dot) : visit stack name = some stack := by
  rw [visit, if_pos h]

theorem walk_of_plain (h : ∀ name ∈ names, Plain name) :
    walk stack names = some (names.reverse ++ stack) := by
  induction names generalizing stack with
  | nil => rfl
  | cons name names ih =>
    obtain ⟨hne, hdot, hup, -⟩ := h name List.mem_cons_self
    rw [walk_cons, visit_plain hne hdot hup, Option.bind_some,
      ih fun other hother => h other (List.mem_cons_of_mem name hother)]
    simp

theorem mem_of_walk (h : walk stack names = some stack') {dir : List UInt8} (hdir : dir ∈ stack') :
    dir ∈ stack ∨ dir ∈ names ∧ dir ≠ [] ∧ dir ≠ dot ∧ dir ≠ dotDot := by
  induction names generalizing stack with
  | nil => exact .inl (Option.some.inj h ▸ hdir)
  | cons name names ih =>
    rw [walk_cons] at h
    obtain ⟨reached, hvisit, h⟩ := Option.bind_eq_some_iff.mp h
    rcases ih h with hmem | hmem
    · rw [visit] at hvisit
      split_ifs at hvisit with hskip hup
      · exact .inl (Option.some.inj hvisit ▸ hmem)
      · exact .inl (List.mem_of_mem_tail (Option.some.inj hvisit ▸ hmem))
      · rw [← Option.some.inj hvisit] at hmem
        rcases List.mem_cons.mp hmem with rfl | hmem
        · exact .inr ⟨List.mem_cons_self, fun h => hskip (.inl h), fun h => hskip (.inr h), hup⟩
        · exact .inl hmem
    · exact .inr ⟨List.mem_cons_of_mem name hmem.1, hmem.2⟩

theorem walk_filter_dot (es : List Element) (stack : List (List UInt8)) :
    walk stack ((es.filter (·.filename ≠ dot)).map (·.filename)) = walk stack (es.map (·.filename)) := by
  induction es generalizing stack with
  | nil => rfl
  | cons element es ih =>
    rw [List.map_cons, walk_cons]
    by_cases hdot : element.filename = dot
    · rw [List.filter_cons_of_neg (by simpa using hdot), visit_skips (.inr hdot), Option.bind_some, ih]
    · rw [List.filter_cons_of_pos (by simpa using hdot), List.map_cons, walk_cons]
      cases visit stack element.filename with
      | none => rfl
      | some reached => exact ih reached

/-! ## The normal form -/

theorem cancel_sublist {es fs : List Element} (h : cancel es = some fs) : fs.Sublist es := by
  induction es using cancel.induct generalizing fs with
  | case1 element next rest hpair =>
    rw [cancel, if_pos hpair] at h
    obtain rfl := Option.some.inj h
    exact (List.sublist_cons_self next rest).cons element
  | case2 element next rest hpair ih =>
    rw [cancel, if_neg hpair] at h
    obtain ⟨tail, htail, rfl⟩ := Option.map_eq_some_iff.mp h
    exact (ih htail).cons_cons element
  | case3 es hshort => rw [cancel.eq_def] at h; split at h <;> simp_all

theorem walk_cancel {es fs : List Element} (h : cancel es = some fs)
    (hnames : ∀ element ∈ es, element.filename ≠ [] ∧ element.filename ≠ dot)
    (stack : List (List UInt8)) :
    walk stack (fs.map (·.filename)) = walk stack (es.map (·.filename)) := by
  induction es using cancel.induct generalizing fs stack with
  | case1 element next rest hpair =>
    rw [cancel, if_pos hpair] at h
    obtain rfl := Option.some.inj h
    obtain ⟨hne, hdot⟩ := hnames element List.mem_cons_self
    rw [List.map_cons, List.map_cons, walk_cons, visit_plain hne hdot hpair.1, Option.bind_some, walk_cons,
      hpair.2, visit_dotDot, if_neg (List.cons_ne_nil _ _), Option.bind_some, List.tail_cons]
  | case2 element next rest hpair ih =>
    rw [cancel, if_neg hpair] at h
    obtain ⟨tail, htail, rfl⟩ := Option.map_eq_some_iff.mp h
    rw [List.map_cons, walk_cons, List.map_cons, walk_cons]
    cases visit stack element.filename with
    | none => rfl
    | some reached =>
      exact ih htail (fun other hother => hnames other (List.mem_cons_of_mem element hother)) reached
  | case3 es hshort => rw [cancel.eq_def] at h; split at h <;> simp_all

theorem cancelAll_sublist (fuel : Nat) (es : List Element) : (cancelAll fuel es).Sublist es := by
  induction fuel generalizing es with
  | zero => exact List.Sublist.refl es
  | succ fuel ih =>
    rw [cancelAll]
    split
    · exact List.Sublist.refl es
    · next rest hcancel => exact (ih rest).trans (cancel_sublist hcancel)

theorem walk_cancelAll (fuel : Nat) {es : List Element}
    (hnames : ∀ element ∈ es, element.filename ≠ [] ∧ element.filename ≠ dot) :
    walk [] ((cancelAll fuel es).map (·.filename)) = walk [] (es.map (·.filename)) := by
  induction fuel generalizing es with
  | zero => rfl
  | succ fuel ih =>
    rw [cancelAll]
    split
    · rfl
    · next rest hcancel =>
      rw [ih fun element helement => hnames element ((cancel_sublist hcancel).subset helement)]
      exact walk_cancel hcancel hnames []

theorem cancel_length {es fs : List Element} (h : cancel es = some fs) : fs.length < es.length := by
  induction es using cancel.induct generalizing fs with
  | case1 element next rest hpair =>
    rw [cancel, if_pos hpair] at h
    obtain rfl := Option.some.inj h
    simp only [List.length_cons]
    omega
  | case2 element next rest hpair ih =>
    rw [cancel, if_neg hpair] at h
    obtain ⟨tail, htail, rfl⟩ := Option.map_eq_some_iff.mp h
    have hless := ih htail
    simp only [List.length_cons] at hless ⊢
    omega
  | case3 es hshort => rw [cancel.eq_def] at h; split at h <;> simp_all

theorem cancel_cancelAll {fuel : Nat} {es : List Element} (hfuel : es.length ≤ fuel) :
    cancel (cancelAll fuel es) = none := by
  -- the fuel is never used up
  induction fuel generalizing es with
  | zero =>
    rw [List.eq_nil_of_length_eq_zero (Nat.le_zero.mp hfuel)]
    rfl
  | succ fuel ih =>
    rw [cancelAll]
    split
    · assumption
    · next rest hcancel =>
      have hless := cancel_length hcancel
      exact ih (by omega)

theorem head_of_cancel_none {es : List Element} (h : cancel es = none)
    (hup : dotDot ∈ es.map (·.filename)) : (es.map (·.filename)).head? = some dotDot := by
  induction es using cancel.induct with
  | case1 element next rest hpair =>
    rw [cancel, if_pos hpair] at h
    cases h
  | case2 element next rest hpair ih =>
    rw [cancel, if_neg hpair, Option.map_eq_none_iff] at h
    by_contra hhead
    have hfirst : element.filename ≠ dotDot := by simpa using hhead
    have hrest := ih h ((List.mem_cons.mp hup).resolve_left (Ne.symm hfirst))
    exact hpair ⟨hfirst, by simpa using hrest⟩
  | case3 es hshort =>
    cases es with
    | nil => cases hup
    | cons element es =>
      cases es with
      | nil => simpa [eq_comm] using hup
      | cons next rest => exact absurd rfl (hshort element next rest)

@[simp] theorem map_filename_trimLast (es : List Element) :
    (trimLast es).map (·.filename) = es.map (·.filename) := by
  induction es using trimLast.induct with
  | case1 => rfl
  | case2 element hup => rw [trimLast, if_pos hup]; rfl
  | case3 element hup => rw [trimLast, if_neg hup]
  | case4 element next rest ih =>
    rw [trimLast, List.map_cons, ih]
    rfl

theorem wellFormed_trimLast {es : List Element} (h : WellFormed es) : WellFormed (trimLast es) := by
  induction es using trimLast.induct with
  | case1 => exact h
  | case2 element hup =>
    rw [trimLast, if_pos hup]
    exact ⟨by simpa using h.filename, List.pairwise_singleton _ _⟩
  | case3 element hup =>
    rw [trimLast, if_neg hup]
    exact h
  | case4 element next rest ih =>
    have htail := ih (h.sublist (List.sublist_cons_self element _))
    rw [trimLast]
    refine ⟨fun other hother => ?_, List.Pairwise.cons (fun other _ => ?_) htail.separator⟩
    · rcases List.mem_cons.mp hother with rfl | hother
      · exact h.filename _ List.mem_cons_self
      · exact htail.filename other hother
    · exact (List.pairwise_cons.mp h.separator).1 next List.mem_cons_self

theorem wellFormed_normalElements (path : List UInt8) : WellFormed (normalElements (elements path)) :=
  wellFormed_trimLast ((wellFormed_elements path).sublist
    ((cancelAll_sublist _ _).trans List.filter_sublist))

theorem walk_normalElements (path : List UInt8) :
    walk [] ((normalElements (elements path)).map (·.filename)) =
      walk [] ((elements path).map (·.filename)) := by
  rw [normalElements, map_filename_trimLast, walk_cancelAll, walk_filter_dot]
  intro element helement
  obtain ⟨hmem, hdot⟩ := List.mem_filter.mp helement
  exact ⟨((wellFormed_elements path).filename element hmem).1, by simpa using hdot⟩

/-- The walk along a path ends where the one along its filenames does. -/
theorem walk_components (path : List UInt8) :
    walk [] (components path) = walk [] ((elements path).map (·.filename)) := by
  rw [components, walk_append]
  cases walk [] ((elements path).map (·.filename)) with
  | none => rfl
  | some reached =>
    rw [Option.bind_some]
    split
    · rw [walk_cons, visit_skips (.inl rfl)]
      rfl
    · rfl

/-- The filenames of the normal form; the dot of an empty one is not among them. -/
def normalNames (path : List UInt8) : List (List UInt8) := (normalElements (elements path)).map (·.filename)

theorem mem_normalNames {path name : List UInt8} (h : name ∈ normalNames path) :
    name ≠ [] ∧ name ≠ dot ∧ 47 ∉ name := by
  rw [normalNames, normalElements, map_filename_trimLast] at h
  obtain ⟨element, helement, rfl⟩ := List.mem_map.mp h
  obtain ⟨hmem, hdot⟩ := List.mem_filter.mp ((cancelAll_sublist _ _).subset helement)
  obtain ⟨hne, hslash⟩ := (wellFormed_elements path).filename element hmem
  exact ⟨hne, by simpa using hdot, hslash⟩

/-- **Where a path leads.** Either its normal form begins with a dot-dot and the walk leaves the directory
it starts in, or the normal form has none and spells out the directories the walk ends in. -/
theorem walk_eq (path : List UInt8) [Decidable (dotDot ∈ normalNames path)] :
    walk [] (components path) =
      if dotDot ∈ normalNames path then none else some (normalNames path).reverse := by
  rw [walk_components, ← walk_normalElements, ← normalNames]
  split
  · next hup =>
    have hhead : (normalNames path).head? = some dotDot := by
      rw [normalNames, normalElements, map_filename_trimLast] at hup ⊢
      exact head_of_cancel_none (cancel_cancelAll le_rfl) hup
    obtain ⟨names, hnames⟩ := List.head?_eq_some_iff.mp hhead
    rw [hnames, walk_cons, visit_dotDot, if_pos rfl]
    rfl
  · next hup =>
    rw [walk_of_plain, List.append_nil]
    intro name hname
    obtain ⟨hne, hdot, hslash⟩ := mem_normalNames hname
    exact ⟨hne, hdot, fun heq => hup (heq ▸ hname), hslash⟩

/-- Iteration over the normal form visits its filenames, and besides only empty ones and dots. -/
theorem components_lexicallyNormal (path : List UInt8) :
    (components (lexicallyNormal path)).filter (fun name => name ≠ [] ∧ name ≠ dot) =
      normalNames path := by
  by_cases hpath : path = []
  · rw [hpath]
    decide +kernel
  by_cases hnil : normalElements (elements path) = []
  · rw [lexicallyNormal, if_neg hpath, if_pos hnil, normalNames, hnil]
    decide +kernel
  · rw [lexicallyNormal, if_neg hpath, if_neg hnil, components,
      elements_pathname (wellFormed_normalElements path), ← normalNames, List.filter_append]
    have hall : (normalNames path).filter (fun name => name ≠ [] ∧ name ≠ dot) = normalNames path :=
      List.filter_eq_self.mpr fun name hname => by
        obtain ⟨hne, hdot, -⟩ := mem_normalNames hname
        simp [hne, hdot]
    rw [hall, List.append_right_eq_self]
    split <;> simp

/-! ## Joined names -/

theorem map_filename_ofPieces (pieces : List (List UInt8)) :
    (ofPieces pieces).map (·.filename) = pieces := by
  induction pieces using ofPieces.induct with
  | case1 => rfl
  | case2 piece => rfl
  | case3 piece next pieces ih =>
    rw [ofPieces, List.map_cons, ih]

theorem ofPieces_concat (pieces : List (List UInt8)) (last : List UInt8) :
    ofPieces (pieces ++ [last]) = pieces.map (⟨·, true⟩) ++ [⟨last, false⟩] := by
  induction pieces with
  | nil => rfl
  | cons piece pieces ih =>
    rw [List.cons_append, ofPieces_cons (by simp), ih]
    rfl

theorem getLast?_ofPieces (pieces : List (List UInt8)) :
    (ofPieces pieces).getLast?.any (·.separator) = false := by
  rcases List.eq_nil_or_concat pieces with rfl | ⟨front, last, rfl⟩
  · rfl
  · rw [List.concat_eq_append, ofPieces_concat, List.getLast?_concat]
    rfl

theorem components_intercalate (hne : names ≠ []) (hplain : ∀ name ∈ names, Plain name) :
    components ([47].intercalate names) = names := by
  have helements : elements ([47].intercalate names) = ofPieces names := by
    rw [elements, List.splitOn_intercalate 47 (fun name hname => (hplain name hname).2.2.2) hne]
    refine List.filter_eq_self.mpr fun element helement => ?_
    simpa using (hplain _ (mem_ofPieces helement)).1
  rw [components, helements, map_filename_ofPieces, getLast?_ofPieces]
  exact List.append_nil names

theorem getLast?_components (path : List UInt8) {name : List UInt8} (hne : name ≠ []) (hname : 47 ∉ name) :
    (components (path ++ 47 :: name)).getLast? = some name := by
  have helements : elements (path ++ 47 :: name) =
      ((path.splitOn 47).map (⟨·, true⟩)).filter (·.filename ≠ []) ++ [⟨name, false⟩] := by
    rw [elements, List.splitOn_append_cons_self, List.splitOn_eq_singleton hname, ofPieces_concat,
      List.filter_append, List.filter_cons_of_pos (by simpa using hne), List.filter_nil]
  simp [components, helements]

end PosixPath
