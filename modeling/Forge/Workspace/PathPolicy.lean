import Forge.Lib.PosixPath
import Forge.Workspace.FileCoalescer

/-!
# Paths of the workspace

`PathPolicy` of `path_policy.cpp` over the path names of `PosixPath`. A relative path is accepted if the
walk along it stays below the root and ends in a proper path below it, and its normal form is that walk's
stack (`normalize_confines`).
-/

namespace Forge

open PosixPath (components lexicallyNormal normalNames walk dot dotDot Plain)

/-- `root` is the canonical form that the constructor stores. -/
structure PathPolicy where
  root : Str
deriving DecidableEq, Repr

namespace PathPolicy

def escapes : Status := Status.error .path "path-policy" "path escapes workspace"

/-- `operator/=` of two path names. -/
def append (path part : Str) : Str :=
  if part.head? = some 47 then part
  -- the path has a filename
  else if path ≠ [] ∧ path.getLast? ≠ some 47 then path ++ 47 :: part
  else path ++ part

/-- The loop over the parts of the normal form. -/
def appendParts : Str → List Str → Result Str
  | normalized, [] => .ok normalized
  | normalized, text :: parts =>
    if text = dot ∨ text = [] then appendParts normalized parts
    else if text = dotDot then .error escapes
    else appendParts (append normalized text) parts

/-- `normalize`, given what `std::filesystem::relative` returns for a path and a base, `none` where it
throws. -/
def normalize (policy : PathPolicy) (relative : Str → Str → Option Str) (path : Str) :
    Return NormalizedPath :=
  if path = [] then .value (.error (Status.error .path "path-policy" "empty path"))
  else
    match if path.head? = some 47 then relative path policy.root else some path with
    | none => .threw
    | some input => .value do
      let out ← appendParts [] (components (lexicallyNormal input))
      if out = [] ∨ ("../" : Str).isPrefixOf out then .error escapes
      else .ok ⟨out⟩

/-! ## Joined directories -/

theorem getLast?_intercalate {dirs : List Str} (hne : dirs ≠ []) (hdirs : ∀ dir ∈ dirs, Plain dir) :
    ∃ c, (List.intercalate [47] dirs).getLast? = some c ∧ c ≠ 47 := by
  induction dirs with
  | nil => exact absurd rfl hne
  | cons dir dirs ih =>
    obtain ⟨hdir, _, _, hslash⟩ := hdirs dir List.mem_cons_self
    cases dirs with
    | nil =>
      refine ⟨dir.getLast hdir, ?_, fun heq => hslash (heq ▸ List.getLast_mem hdir)⟩
      rw [List.intercalate_singleton, List.getLast?_eq_some_getLast hdir]
    | cons next dirs =>
      obtain ⟨c, hc, hne⟩ := ih (by simp) fun other hother => hdirs other (List.mem_cons_of_mem dir hother)
      refine ⟨c, ?_, hne⟩
      rw [List.intercalate_cons_cons, List.getLast?_append, hc]
      rfl

theorem head?_intercalate {dirs : List Str} (hne : dirs ≠ []) (hdirs : ∀ dir ∈ dirs, Plain dir) :
    ∃ c, (List.intercalate [47] dirs).head? = some c ∧ c ≠ 47 := by
  obtain ⟨dir, dirs, rfl⟩ := List.exists_cons_of_ne_nil hne
  obtain ⟨hdir, _, _, hslash⟩ := hdirs dir List.mem_cons_self
  refine ⟨dir.head hdir, ?_, fun heq => hslash (heq ▸ List.head_mem hdir)⟩
  cases dirs with
  | nil => rw [List.intercalate_singleton, List.head?_eq_some_head hdir]
  | cons next dirs =>
    rw [List.intercalate_cons_cons, List.append_assoc, List.head?_append, List.head?_eq_some_head hdir]
    rfl

theorem intercalate_concat {dirs : List Str} (hne : dirs ≠ []) (dir : Str) :
    List.intercalate [47] (dirs ++ [dir]) = List.intercalate [47] dirs ++ 47 :: dir := by
  induction dirs with
  | nil => exact absurd rfl hne
  | cons first dirs ih =>
    cases dirs with
    | nil => simp
    | cons next dirs =>
      have htail := ih (by simp)
      rw [List.cons_append] at htail
      rw [List.cons_append, List.cons_append, List.intercalate_cons_cons, htail, List.intercalate_cons_cons]
      simp

theorem append_intercalate {dirs : List Str} (hdirs : ∀ dir ∈ dirs, Plain dir) {dir : Str}
    (hdir : Plain dir) :
    append (List.intercalate [47] dirs) dir = List.intercalate [47] (dirs ++ [dir]) := by
  have hrelative : dir.head? ≠ some 47 := fun heq => hdir.2.2.2 (List.mem_of_mem_head? heq)
  rw [append, if_neg hrelative]
  by_cases hne : dirs = []
  · simp [hne]
  · obtain ⟨c, hc, hslash⟩ := getLast?_intercalate hne hdirs
    have hfile : List.intercalate [47] dirs ≠ [] := fun hnil => by rw [hnil] at hc; cases hc
    rw [if_pos ⟨hfile, fun heq => hslash (Option.some.inj (hc.symm.trans heq))⟩, intercalate_concat hne]

theorem getLast?_components_append (path : Str) {name : Str} (hne : name ≠ []) (hname : 47 ∉ name) :
    (components (append path name)).getLast? = some name := by
  have hhead : name.head? ≠ some 47 := fun heq => hname (List.mem_of_mem_head? heq)
  rw [append, if_neg hhead]
  split_ifs with hpath
  · exact PosixPath.getLast?_components path hne hname
  · rcases List.eq_nil_or_concat path with rfl | ⟨front, last, rfl⟩
    · rw [List.nil_append, components, PosixPath.elements_name hne hname]
      rfl
    · have hlast : last = 47 := by simpa using hpath
      rw [List.concat_eq_append, hlast, List.append_assoc, List.singleton_append]
      exact PosixPath.getLast?_components front hne hname

theorem appendParts_eq {dirs parts : List Str} (hdirs : ∀ dir ∈ dirs, Plain dir)
    (hparts : ∀ part ∈ parts, 47 ∉ part) :
    appendParts (List.intercalate [47] dirs) parts =
      if dotDot ∈ parts then .error escapes
      else .ok (List.intercalate [47] (dirs ++ parts.filter fun part => part ≠ [] ∧ part ≠ dot)) := by
  induction parts generalizing dirs with
  | nil => simp [appendParts]
  | cons text parts ih =>
    have htail : ∀ part ∈ parts, 47 ∉ part := fun part hpart => hparts part (List.mem_cons_of_mem text hpart)
    rw [appendParts]
    by_cases hskip : text = dot ∨ text = []
    · have hnot : dotDot ≠ text := by rintro rfl; revert hskip; decide
      rw [if_pos hskip, ih hdirs htail, List.filter_cons_of_neg (by simpa using fun h => hskip.resolve_right h)]
      simp [hnot]
    · obtain ⟨hdot, hne⟩ := not_or.mp hskip
      rw [if_neg hskip]
      by_cases hup : text = dotDot
      · rw [if_pos hup, if_pos (hup ▸ List.mem_cons_self)]
      · have hplain : Plain text := ⟨hne, hdot, hup, hparts text List.mem_cons_self⟩
        have hmore : ∀ dir ∈ dirs ++ [text], Plain dir := by
          intro dir hdir
          rcases List.mem_append.mp hdir with hdir | hdir
          · exact hdirs dir hdir
          · exact List.mem_singleton.mp hdir ▸ hplain
        rw [if_neg hup, append_intercalate hdirs hplain, ih hmore htail,
          List.filter_cons_of_pos (by simp [hne, hdot]), List.append_assoc, List.singleton_append]
        simp [Ne.symm hup]

/-! ## Relative paths -/

theorem normalize_relative (policy : PathPolicy) (relative : Str → Str → Option Str) {path : Str}
    (hne : path ≠ []) (hrelative : path.head? ≠ some 47) :
    policy.normalize relative path = .value (match walk [] (components path) with
      | none => .error escapes
      | some stack =>
        if stack = [] then .error escapes else .ok ⟨List.intercalate [47] stack.reverse⟩) := by
  have hup : dotDot ∈ components (lexicallyNormal path) ↔ dotDot ∈ normalNames path := by
    rw [← PosixPath.components_lexicallyNormal, List.mem_filter]
    exact (and_iff_left (by decide)).symm
  have hparts := @appendParts_eq [] _ (by simp) (PosixPath.not_mem_components (lexicallyNormal path))
  rw [PosixPath.components_lexicallyNormal, List.nil_append, List.intercalate_nil] at hparts
  rw [normalize, if_neg hne, if_neg hrelative]
  simp only [hparts, hup, PosixPath.walk_eq]
  by_cases hmem : dotDot ∈ normalNames path
  · rw [if_pos hmem, if_pos hmem]
    rfl
  · rw [if_neg hmem, if_neg hmem]
    simp only [List.reverse_reverse, List.reverse_eq_nil_iff]
    by_cases hnil : normalNames path = []
    · rw [if_pos hnil, hnil]
      rfl
    · have hplain : ∀ name ∈ normalNames path, Plain name := by
        intro name hname
        obtain ⟨hname', hdot, hslash⟩ := PosixPath.mem_normalNames hname
        exact ⟨hname', hdot, fun heq => hmem (heq ▸ hname), hslash⟩
      obtain ⟨c, hc, -⟩ := getLast?_intercalate hnil hplain
      have hout : List.intercalate [47] (normalNames path) ≠ [] := fun h => by rw [h] at hc; cases hc
      -- the first name is not a dot-dot, so the path does not begin with one
      have hprefix : ¬ (("../" : Str).isPrefixOf (List.intercalate [47] (normalNames path))) := by
        intro hprefix
        obtain ⟨rest, hrest⟩ := List.isPrefixOf_iff_prefix.mp hprefix
        have hsplit := congrArg (List.splitOn 47) hrest
        rw [List.splitOn_intercalate 47 (fun name hname => (hplain name hname).2.2.2) hnil] at hsplit
        rw [show ("../" : Str) ++ rest = dotDot ++ 47 :: rest from rfl,
          List.splitOn_append_cons_self_of_not_mem (by decide)] at hsplit
        exact hmem (hsplit ▸ List.mem_cons_self)
      rw [if_neg hnil]
      show Return.value (if _ then _ else _) = _
      rw [if_neg (by simp [hout, hprefix])]

/-- **Confinement.** A relative path is accepted exactly when the walk along it never leaves the root and
does not end in it. What is returned joins the directories the walk ends in: a relative path without
empty names, dots or dot-dots, and normalised again it stays as it is. -/
theorem normalize_confines (policy : PathPolicy) (relative : Str → Str → Option Str) {path : Str}
    (hne : path ≠ []) (hrelative : path.head? ≠ some 47) (out : NormalizedPath) :
    (policy.normalize relative path = .value (.ok out) ↔
      ∃ stack, walk [] (components path) = some stack ∧ stack ≠ [] ∧
        out.relative = List.intercalate [47] stack.reverse) ∧
    (policy.normalize relative path = .value (.ok out) →
      (∀ name ∈ out.relative.splitOn 47, name ≠ [] ∧ name ≠ dot ∧ name ≠ dotDot) ∧
      out.relative.head? ≠ some 47 ∧
      policy.normalize relative out.relative = .value (.ok out)) := by
  have hiff : policy.normalize relative path = .value (.ok out) ↔
      ∃ stack, walk [] (components path) = some stack ∧ stack ≠ [] ∧
        out.relative = List.intercalate [47] stack.reverse := by
    obtain ⟨out⟩ := out
    rw [normalize_relative policy relative hne hrelative]
    cases walk [] (components path) with
    | none => simp
    | some stack =>
      by_cases hnil : stack = []
      · simp [hnil]
      · simp [hnil, eq_comm]
  refine ⟨hiff, fun hok => ?_⟩
  obtain ⟨stack, hwalk, hnil, hout⟩ := hiff.mp hok
  have hplain : ∀ name ∈ stack.reverse, Plain name := by
    intro name hname
    rcases PosixPath.mem_of_walk hwalk (List.mem_reverse.mp hname) with hmem | ⟨hmem, hname', hdot, hup⟩
    · cases hmem
    · exact ⟨hname', hdot, hup, PosixPath.not_mem_components path name hmem⟩
  have hnames : stack.reverse ≠ [] := by simpa using hnil
  have hsplit : out.relative.splitOn 47 = stack.reverse := by
    rw [hout]
    exact List.splitOn_intercalate 47 (fun name hname => (hplain name hname).2.2.2) hnames
  obtain ⟨c, hc, hslash⟩ := head?_intercalate hnames hplain
  rw [← hout] at hc
  have hhead : out.relative.head? ≠ some 47 := fun heq => hslash (Option.some.inj (hc.symm.trans heq))
  have hempty : out.relative ≠ [] := fun hnil => by rw [hnil] at hc; cases hc
  refine ⟨fun name hname => ?_, hhead, ?_⟩
  · obtain ⟨hname', hdot, hup, -⟩ := hplain name (hsplit ▸ hname)
    exact ⟨hname', hdot, hup⟩
  · have hagain : walk [] (components out.relative) = some stack := by
      rw [hout, PosixPath.components_intercalate hnames hplain, PosixPath.walk_of_plain hplain]
      simp
    rw [normalize_relative policy relative hempty hhead, hagain]
    simp only [hnil, if_false, ← hout]

/-- `./a//b/../c/` leads to `a/c`. -/
theorem normalize_confines_up :
    let out : NormalizedPath := ⟨"a/c"⟩
    PathPolicy.normalize ⟨"/root"⟩ (fun _ _ => none) "./a//b/../c/" = .value (.ok out) ∧
      PathPolicy.normalize ⟨"/root"⟩ (fun _ _ => none) out.relative = .value (.ok out) := by
  intro out
  have hne : ("./a//b/../c/" : Str) ≠ [] := by decide +kernel
  have hspec := normalize_confines ⟨"/root"⟩ (fun _ _ => none) hne (by decide +kernel) out
  have hok := hspec.1.mpr ⟨[[99], [97]], by decide +kernel, by decide, by decide +kernel⟩
  exact ⟨hok, (hspec.2 hok).2.2⟩

end PathPolicy

end Forge
