import Mathlib.Data.List.DropRight
import Mathlib.Tactic

/-!
# Words and lines

A text is cut into `lines`, each of which may lack its end only if it is the last, and a line into the
`words` between separating letters. `Spaced` is what lies on the page for a list of words: the words with
gaps between them. Reading it gives the words back.
-/

namespace Words

variable {α : Type}

/-- The longest pieces without a letter that separates. -/
def words (separates : α → Bool) (line : List α) : List (List α) :=
  (line.splitOnP separates).filter fun word => !word.isEmpty

/-- The lines of a text; there is none behind the last line end. -/
def lines [DecidableEq α] (lineEnd : α) (text : List α) : List (List α) :=
  let pieces := text.splitOn lineEnd
  if pieces.getLast? = some [] then pieces.dropLast else pieces

structure IsWord (separates : α → Bool) (word : List α) : Prop where
  ne_nil : word ≠ []
  letters : ∀ c ∈ word, separates c = false

instance [DecidableEq α] (separates : α → Bool) (word : List α) : Decidable (IsWord separates word) :=
  decidable_of_iff (word ≠ [] ∧ ∀ c ∈ word, separates c = false)
    ⟨fun h => ⟨h.1, h.2⟩, fun h => ⟨h.ne_nil, h.letters⟩⟩

/-- Words with gaps between them. -/
inductive Spaced (separates : α → Bool) : List (List α) → List α → Prop
  | last (word : List α) : Spaced separates [word] word
  | cons (word : List α) {gap line : List α} {rest : List (List α)} (hne : gap ≠ [])
      (hgap : ∀ c ∈ gap, separates c = true) (hrest : Spaced separates rest line) :
      Spaced separates (word :: rest) (word ++ (gap ++ line))

variable {separates : α → Bool}

/-! ## Words -/

theorem words_cut {c : α} (hc : separates c = true) (before behind : List α) :
    words separates (before ++ c :: behind) = words separates before ++ words separates behind := by
  rw [words, List.splitOnP_append_cons before behind hc, List.filter_append]
  rfl

theorem words_word {word : List α} (h : IsWord separates word) : words separates word = [word] := by
  rw [words, List.splitOnP_eq_singleton h.letters]
  simp [h.ne_nil]

theorem words_gap_append {gap : List α} (hgap : ∀ c ∈ gap, separates c = true) (line : List α) :
    words separates (gap ++ line) = words separates line := by
  induction gap with
  | nil => rfl
  | cons c gap ih =>
    have htail := ih fun d hd => hgap d (List.mem_cons_of_mem c hd)
    rw [List.cons_append, ← List.nil_append (c :: (gap ++ line)), words_cut (hgap c List.mem_cons_self), htail]
    rfl

theorem words_append_gap {gap : List α} (hgap : ∀ c ∈ gap, separates c = true) (line : List α) :
    words separates (line ++ gap) = words separates line := by
  cases gap with
  | nil => rw [List.append_nil]
  | cons c gap =>
    have hnone : words separates gap = [] := by
      have hall := words_gap_append (fun d hd => hgap d (List.mem_cons_of_mem c hd)) []
      rwa [List.append_nil] at hall
    rw [words_cut (hgap c List.mem_cons_self), hnone, List.append_nil]

theorem isWord_of_mem {line word : List α} (h : word ∈ words separates line) : IsWord separates word := by
  obtain ⟨hmem, hne⟩ := List.mem_filter.mp h
  refine ⟨by simpa using hne, ?_⟩
  clear h hne
  induction line generalizing word with
  | nil =>
    obtain rfl : word = [] := by simpa using hmem
    simp
  | cons c line ih =>
    rw [List.splitOnP_cons_eq_if_modifyHead] at hmem
    by_cases hc : separates c = true
    · rw [if_pos hc] at hmem
      rcases List.mem_cons.mp hmem with rfl | hmem
      · simp
      · exact ih hmem
    · obtain ⟨first, rest, hpieces⟩ := List.exists_cons_of_ne_nil (List.splitOnP_ne_nil separates line)
      rw [if_neg hc, hpieces, List.modifyHead_cons] at hmem
      rw [hpieces] at ih
      rcases List.mem_cons.mp hmem with rfl | hmem
      · intro d hd
        rcases List.mem_cons.mp hd with rfl | hd
        · simpa using hc
        · exact ih List.mem_cons_self d hd
      · exact ih (List.mem_cons_of_mem first hmem)

/-- **Reading what was written.** -/
theorem Spaced.words_eq {written : List (List α)} {line : List α} (h : Spaced separates written line)
    (hwords : ∀ word ∈ written, IsWord separates word) : words separates line = written := by
  induction h with
  | last word => exact words_word (hwords word List.mem_cons_self)
  | @cons word gap line rest hne hgap hrest ih =>
    obtain ⟨c, gap, rfl⟩ := List.exists_cons_of_ne_nil hne
    rw [List.cons_append, words_cut (hgap c List.mem_cons_self),
      words_gap_append (fun d hd => hgap d (List.mem_cons_of_mem c hd)),
      words_word (hwords word List.mem_cons_self), ih fun w hw => hwords w (List.mem_cons_of_mem word hw)]
    rfl

theorem Spaced.forall_mem {written : List (List α)} {line : List α} {p : α → Prop}
    (h : Spaced separates written line) (hwords : ∀ word ∈ written, ∀ c ∈ word, p c)
    (hgaps : ∀ c, separates c = true → p c) : ∀ c ∈ line, p c := by
  induction h with
  | last word => exact hwords word List.mem_cons_self
  | @cons word gap line rest _ hgap _ ih =>
    intro c hc
    rcases List.mem_append.mp hc with hc | hc
    · exact hwords word List.mem_cons_self c hc
    · rcases List.mem_append.mp hc with hc | hc
      · exact hgaps c (hgap c hc)
      · exact ih (fun w hw => hwords w (List.mem_cons_of_mem word hw)) c hc

theorem words_dropWhile {drops : α → Bool} (hdrops : ∀ c, drops c = true → separates c = true)
    (line : List α) : words separates (line.dropWhile drops) = words separates line := by
  have hgap : ∀ c ∈ line.takeWhile drops, separates c = true := fun c hc =>
    hdrops c (List.mem_takeWhile_imp hc)
  rw [← words_gap_append hgap, List.takeWhile_append_dropWhile]

theorem words_rdropWhile {drops : α → Bool} (hdrops : ∀ c, drops c = true → separates c = true)
    (line : List α) : words separates (line.rdropWhile drops) = words separates line := by
  have hgap : ∀ c ∈ line.rtakeWhile drops, separates c = true := fun c hc =>
    hdrops c (List.mem_rtakeWhile_imp hc)
  rw [← words_append_gap hgap, List.rdropWhile_append_rtakeWhile]

/-! ## Lines -/

variable [DecidableEq α] {lineEnd : α}

theorem lines_intercalate {ls : List (List α)} (hne : ls ≠ []) (hls : ∀ line ∈ ls, lineEnd ∉ line) :
    lines lineEnd (List.intercalate [lineEnd] ls) = if ls.getLast? = some [] then ls.dropLast else ls := by
  rw [lines, List.splitOn_intercalate lineEnd hls hne]

theorem lines_intercalate_append {ls : List (List α)} (hne : ls ≠ []) (hls : ∀ line ∈ ls, lineEnd ∉ line) :
    lines lineEnd (List.intercalate [lineEnd] ls ++ [lineEnd]) = ls := by
  rw [lines, List.splitOn_append_cons_self, List.splitOn_intercalate lineEnd hls hne]
  simp

theorem length_splitOn_le (lineEnd : α) (text : List α) : (text.splitOn lineEnd).length ≤ text.length + 1 := by
  induction text with
  | nil => simp
  | cons c text ih =>
    rw [List.splitOn_cons_eq_if_modifyHead, List.length_cons]
    split_ifs
    · rw [List.length_cons]
      omega
    · rw [List.length_modifyHead]
      omega

theorem length_lines_le (lineEnd : α) (text : List α) : (lines lineEnd text).length ≤ text.length + 1 := by
  have hpieces := length_splitOn_le lineEnd text
  rw [lines]
  split_ifs
  · rw [List.length_dropLast]
    omega
  · exact hpieces

end Words
