import Mathlib.Tactic

/-!
# Incremental decoding

A decoder looks at the front of a buffer and finds a frame, an error, or that it needs more bytes; a
consumer applies the frames to a state and may refuse one. `drain` runs the two until they need more
bytes or fail, and `feedChunks` does so chunk by chunk, keeping what is left in between and returning
the outputs of a chunk only if the whole chunk went well.

The cut into chunks changes neither the error nor the state. The outputs differ only by those in the
chunk that fails: two cuts agree exactly when no frame ends between the starts of the chunks in which
they fail (`feedChunks_eq_iff`).
-/

namespace Incremental

/-! ## Decoders -/

inductive Front (α F E : Type)
  | more
  | frame (f : F) (rest : List α)
  | bad (e : E)

/-- A decoder whose verdicts do not depend on the bytes behind those it needs. -/
structure Decoder (α F E : Type) where
  front : List α → Front α F E
  frame_split : ∀ {b : List α} {f : F} {rest : List α}, front b = .frame f rest →
    ∃ seen, b = seen ++ rest ∧ seen ≠ [] ∧ ∀ c, front (seen ++ c) = .frame f c
  bad_append : ∀ {b : List α} {e : E}, front b = .bad e → ∀ c, front (b ++ c) = .bad e

variable {α F E S V : Type}

namespace Decoder

variable {d : Decoder α F E}

theorem length_rest_lt {b rest : List α} {f : F} (h : d.front b = .frame f rest) :
    rest.length < b.length := by
  obtain ⟨seen, rfl, hne, _⟩ := d.frame_split h
  have := List.length_pos_of_ne_nil hne
  rw [List.length_append]
  omega

theorem frame_append {b rest : List α} {f : F} (h : d.front b = .frame f rest) (c : List α) :
    d.front (b ++ c) = .frame f (rest ++ c) := by
  obtain ⟨seen, rfl, _, hfront⟩ := d.frame_split h
  rw [List.append_assoc, hfront]

end Decoder

/-! ## Draining a buffer -/

/-- What draining a buffer comes to: `ends` are the numbers of bytes consumed after each output. -/
structure Outcome (α E S V : Type) where
  state : S
  outputs : List V
  ends : List Nat
  error : Option E
  left : List α

/-- The outcome behind one more output, which took `n` bytes. -/
def Outcome.after (o : Outcome α E S V) (v : V) (n : Nat) : Outcome α E S V :=
  { o with outputs := v :: o.outputs, ends := n :: o.ends.map (n + ·) }

variable (d : Decoder α F E) (apply : S → F → Except E V × S)

def drain (s : S) (b : List α) : Outcome α E S V :=
  match _h : d.front b with
  | .more => ⟨s, [], [], none, b⟩
  | .bad e => ⟨s, [], [], some e, b⟩
  | .frame f rest =>
    match apply s f with
    | (.error e, t) => ⟨t, [], [], some e, rest⟩
    | (.ok v, t) => (drain t rest).after v (b.length - rest.length)
termination_by b.length
decreasing_by exact Decoder.length_rest_lt _h

variable {d apply}

theorem drain_more {s : S} {b : List α} (h : d.front b = .more) :
    drain d apply s b = ⟨s, [], [], none, b⟩ := by
  rw [drain]
  split <;> simp_all

theorem drain_bad {s : S} {b : List α} {e : E} (h : d.front b = .bad e) :
    drain d apply s b = ⟨s, [], [], some e, b⟩ := by
  rw [drain]
  split <;> simp_all

theorem drain_refused {s t : S} {b rest : List α} {f : F} {e : E} (h : d.front b = .frame f rest)
    (happly : apply s f = (.error e, t)) : drain d apply s b = ⟨t, [], [], some e, rest⟩ := by
  rw [drain]
  split <;> simp_all

theorem drain_frame {s t : S} {b rest : List α} {f : F} {v : V} (h : d.front b = .frame f rest)
    (happly : apply s f = (.ok v, t)) :
    drain d apply s b = (drain d apply t rest).after v (b.length - rest.length) := by
  rw [drain]
  split <;> simp_all

theorem drain_outputs_of_ne_frame {s : S} {b : List α} (h : ∀ f rest, d.front b ≠ .frame f rest) :
    (drain d apply s b).outputs = [] := by
  cases hfront : d.front b with
  | more => rw [drain_more hfront]
  | bad e => rw [drain_bad hfront]
  | frame f rest => exact absurd hfront (h f rest)

variable (d apply) in
/-- The cases of a drain, with the drain of the rest where there is one. -/
theorem drain_induction {P : S → List α → Prop}
    (more : ∀ s b, d.front b = .more → P s b)
    (bad : ∀ s b e, d.front b = .bad e → P s b)
    (refused : ∀ s b f rest e t, d.front b = .frame f rest → apply s f = (.error e, t) → P s b)
    (frame : ∀ s b f rest v t, d.front b = .frame f rest → apply s f = (.ok v, t) → P t rest → P s b)
    (s : S) (b : List α) : P s b := by
  induction hn : b.length using Nat.strong_induction_on generalizing s b with
  | _ n ih =>
    cases hfront : d.front b with
    | more => exact more s b hfront
    | bad e => exact bad s b e hfront
    | frame f rest =>
      rcases happly : apply s f with ⟨e | v, t⟩
      · exact refused s b f rest e t hfront happly
      · exact frame s b f rest v t hfront happly
          (ih rest.length (hn ▸ d.length_rest_lt hfront) t rest rfl)

theorem drain_append_of_error {s : S} {b : List α} {e : E} (h : (drain d apply s b).error = some e)
    (c : List α) :
    (drain d apply s (b ++ c)).state = (drain d apply s b).state ∧
      (drain d apply s (b ++ c)).outputs = (drain d apply s b).outputs ∧
      (drain d apply s (b ++ c)).error = some e := by
  induction s, b using drain_induction d apply with
  | more s b hfront => simp [drain_more hfront] at h
  | bad s b e' hfront =>
    rw [drain_bad hfront] at h ⊢
    rw [drain_bad (d.bad_append hfront c)]
    exact ⟨rfl, rfl, h⟩
  | refused s b f rest e' t hfront happly =>
    rw [drain_refused hfront happly] at h ⊢
    rw [drain_refused (d.frame_append hfront c) happly]
    exact ⟨rfl, rfl, h⟩
  | frame s b f rest v t hfront happly ih =>
    rw [drain_frame hfront happly] at h ⊢
    rw [drain_frame (d.frame_append hfront c) happly]
    obtain ⟨hstate, houtputs, herror⟩ := ih h
    exact ⟨hstate, congrArg (v :: ·) houtputs, herror⟩

theorem drain_append_of_none {s : S} {b : List α} (h : (drain d apply s b).error = none) (c : List α) :
    let o := drain d apply s b
    let o' := drain d apply o.state (o.left ++ c)
    (drain d apply s (b ++ c)).state = o'.state ∧
      (drain d apply s (b ++ c)).outputs = o.outputs ++ o'.outputs ∧
      (drain d apply s (b ++ c)).error = o'.error ∧
      (drain d apply s (b ++ c)).left = o'.left := by
  induction s, b using drain_induction d apply with
  | more s b hfront => simp [drain_more hfront]
  | bad s b e hfront => simp [drain_bad hfront] at h
  | refused s b f rest e t hfront happly => simp [drain_refused hfront happly] at h
  | frame s b f rest v t hfront happly ih =>
    rw [drain_frame hfront happly] at h ⊢
    rw [drain_frame (d.frame_append hfront c) happly]
    obtain ⟨hstate, houtputs, herror, hleft⟩ := ih h
    exact ⟨hstate, congrArg (v :: ·) houtputs, herror, hleft⟩

theorem drain_error_of_append {s : S} {b c : List α} (h : (drain d apply s (b ++ c)).error = none) :
    (drain d apply s b).error = none := by
  cases herror : (drain d apply s b).error with
  | none => rfl
  | some e =>
    rw [(drain_append_of_error herror c).2.2] at h
    cases h

theorem drain_left_of_outputs_nil {s : S} {b : List α} (herror : (drain d apply s b).error = none)
    (houtputs : (drain d apply s b).outputs = []) : (drain d apply s b).left = b := by
  cases hfront : d.front b with
  | more => rw [drain_more hfront]
  | bad e => simp [drain_bad hfront] at herror
  | frame f rest =>
    rcases happly : apply s f with ⟨e | v, t⟩
    · simp [drain_refused hfront happly] at herror
    · simp [drain_frame hfront happly, Outcome.after] at houtputs

/-- Where a whole buffer drains and only its last output meets `P`, the front of the buffer that yields an
output with `P` is all of it. -/
theorem rest_eq_nil {s : S} {b rest : List α} {P : V → Prop} {init : List V} {last : V}
    (herror : (drain d apply s (b ++ rest)).error = none)
    (hleft : (drain d apply s (b ++ rest)).left = [])
    (houtputs : (drain d apply s (b ++ rest)).outputs = init ++ [last]) (hinit : ∀ v ∈ init, ¬ P v)
    (hfound : ∃ v ∈ (drain d apply s b).outputs, P v) : rest = [] := by
  obtain ⟨v, hv, hP⟩ := hfound
  have hfirst := drain_error_of_append herror
  obtain ⟨_, hsplit, herror', hleft'⟩ := drain_append_of_none hfirst rest
  rw [herror'] at herror
  rw [houtputs] at hsplit
  rw [hleft'] at hleft
  have hnone : (drain d apply (drain d apply s b).state ((drain d apply s b).left ++ rest)).outputs = [] := by
    rcases List.eq_nil_or_concat
      (drain d apply (drain d apply s b).state ((drain d apply s b).left ++ rest)).outputs with
      hnil | ⟨later, z, hlater⟩
    · exact hnil
    · rw [hlater, List.concat_eq_append, ← List.append_assoc] at hsplit
      have hsame : init = (drain d apply s b).outputs ++ later := List.append_inj_left' hsplit rfl
      exact absurd hP (hinit v (hsame ▸ List.mem_append_left later hv))
  rw [drain_left_of_outputs_nil herror hnone] at hleft
  exact (List.append_eq_nil_iff.mp hleft).2

theorem front_left {s : S} {b : List α} (h : (drain d apply s b).error = none) :
    d.front (drain d apply s b).left = .more := by
  induction s, b using drain_induction d apply with
  | more s b hfront => rw [drain_more hfront, hfront]
  | bad s b e hfront => simp [drain_bad hfront] at h
  | refused s b f rest e t hfront happly => simp [drain_refused hfront happly] at h
  | frame s b f rest v t hfront happly ih =>
    rw [drain_frame hfront happly] at h ⊢
    exact ih h

theorem drain_error_cases {s : S} {b : List α} {e : E} (h : (drain d apply s b).error = some e) :
    d.front (drain d apply s b).left = .bad e ∨ ∃ t f u, apply t f = (.error e, u) := by
  induction s, b using drain_induction d apply with
  | more s b hfront => simp [drain_more hfront] at h
  | bad s b e' hfront =>
    rw [drain_bad hfront] at h ⊢
    obtain rfl := Option.some.inj h
    exact .inl hfront
  | refused s b f rest e' t hfront happly =>
    rw [drain_refused hfront happly] at h
    obtain rfl := Option.some.inj h
    exact .inr ⟨s, f, t, happly⟩
  | frame s b f rest v t hfront happly ih =>
    rw [drain_frame hfront happly] at h ⊢
    exact ih h

theorem length_ends (s : S) (b : List α) :
    (drain d apply s b).ends.length = (drain d apply s b).outputs.length := by
  induction s, b using drain_induction d apply with
  | more s b hfront => rw [drain_more hfront]; rfl
  | bad s b e hfront => rw [drain_bad hfront]; rfl
  | refused s b f rest e t hfront happly => rw [drain_refused hfront happly]; rfl
  | frame s b f rest v t hfront happly ih =>
    rw [drain_frame hfront happly]
    simp [Outcome.after, ih]

/-! ## Prefixes of a buffer -/

theorem front_take_of_more {b : List α} (h : d.front b = .more) (n : Nat) :
    d.front (b.take n) = .more := by
  cases hfront : d.front (b.take n) with
  | more => rfl
  | bad e =>
    have hall := d.bad_append hfront (b.drop n)
    rw [List.take_append_drop, h] at hall
    cases hall
  | frame f rest =>
    have hall := d.frame_append hfront (b.drop n)
    rw [List.take_append_drop, h] at hall
    cases hall

theorem front_take_of_bad {b : List α} {e : E} (h : d.front b = .bad e) (n : Nat) :
    d.front (b.take n) = .more ∨ d.front (b.take n) = .bad e := by
  cases hfront : d.front (b.take n) with
  | more => exact .inl rfl
  | bad e' =>
    have hall := d.bad_append hfront (b.drop n)
    rw [List.take_append_drop, h] at hall
    exact .inr hall.symm
  | frame f rest =>
    have hall := d.frame_append hfront (b.drop n)
    rw [List.take_append_drop, h] at hall
    cases hall

theorem front_take_of_frame {b rest : List α} {f : F} (h : d.front b = .frame f rest) (n : Nat) :
    d.front (b.take n) =
      if n < b.length - rest.length then .more
      else .frame f (rest.take (n - (b.length - rest.length))) := by
  obtain ⟨seen, rfl, hne, hfront⟩ := d.frame_split h
  have hseen : (seen ++ rest).length - rest.length = seen.length := by simp
  rw [hseen]
  split_ifs with hn
  · rw [List.take_append_of_le_length hn.le]
    cases hshort : d.front (seen.take n) with
    | more => rfl
    | bad e =>
      have hall := d.bad_append hshort (seen.drop n ++ rest)
      rw [← List.append_assoc, List.take_append_drop, h] at hall
      cases hall
    | frame f' rest' =>
      have hall := d.frame_append hshort (seen.drop n ++ rest)
      rw [← List.append_assoc, List.take_append_drop, h] at hall
      have hlen := congrArg List.length (Front.frame.inj hall).2
      simp only [List.length_append, List.length_drop] at hlen
      omega
  · rw [List.take_append, List.take_of_length_le (by omega), hfront]

theorem outputs_take {s : S} {b : List α} {n : Nat} (hn : n ≤ b.length)
    (h : (drain d apply s (b.take n)).error = none) :
    (drain d apply s (b.take n)).outputs =
      (drain d apply s b).outputs.take ((drain d apply s b).ends.countP (· ≤ n)) := by
  induction s, b using drain_induction d apply generalizing n with
  | more s b hfront =>
    rw [drain_more hfront, drain_more (front_take_of_more hfront n)]
    rfl
  | bad s b e hfront =>
    rw [drain_bad hfront]
    rcases front_take_of_bad hfront n with htake | htake
    · rw [drain_more htake]
      rfl
    · rw [drain_bad htake]
      rfl
  | refused s b f rest e t hfront happly =>
    have htake := front_take_of_frame hfront n
    rw [drain_refused hfront happly]
    split_ifs at htake
    · rw [drain_more htake]
      rfl
    · rw [drain_refused htake happly]
      rfl
  | frame s b f rest v t hfront happly ih =>
    have hlt := d.length_rest_lt hfront
    have htake := front_take_of_frame hfront n
    rw [drain_frame hfront happly]
    split_ifs at htake with hshort
    · rw [drain_more htake]
      have hnone : ((drain d apply t rest).after v (b.length - rest.length)).ends.countP (· ≤ n) = 0 := by
        rw [List.countP_eq_zero]
        intro i hi
        simp only [Outcome.after, List.mem_cons, List.mem_map] at hi
        rcases hi with rfl | ⟨j, _, rfl⟩
        · simp only [decide_eq_true_eq]
          omega
        · simp only [decide_eq_true_eq]
          omega
      rw [hnone]
      rfl
    · rw [drain_frame htake happly] at h ⊢
      have hcount : ((drain d apply t rest).after v (b.length - rest.length)).ends.countP (· ≤ n) =
          (drain d apply t rest).ends.countP (· ≤ n - (b.length - rest.length)) + 1 := by
        simp only [Outcome.after, List.countP_cons, List.countP_map]
        rw [if_pos (by simpa using hshort)]
        congr 2
        funext i
        simp only [Function.comp_apply, decide_eq_decide]
        omega
      rw [hcount]
      exact congrArg (v :: ·) (ih (by omega) h)

/-! ## Chunks -/

/-- What the chunks of a stream deliver until the first error. -/
structure Delivery (E S V : Type) where
  outputs : List V
  error : Option E
  state : S
deriving DecidableEq

variable (d apply) in
/-- Feed chunks behind the bytes `b` left so far. -/
def feedChunks (s : S) (b : List α) : List (List α) → Delivery E S V
  | [] => ⟨[], none, s⟩
  | c :: cs =>
    let o := drain d apply s (b ++ c)
    match o.error with
    | some e => ⟨[], some e, o.state⟩
    | none =>
      let rest := feedChunks o.state o.left cs
      { rest with outputs := o.outputs ++ rest.outputs }

variable (d apply) in
/-- Either no chunk fails and everything is delivered, or one does and the outputs are those of the
bytes before it. -/
theorem feedChunks_cases (cs : List (List α)) :
    ∀ (s : S) (b : List α), d.front b = .more →
      ((drain d apply s (b ++ cs.flatten)).error = none ∧
        feedChunks d apply s b cs = ⟨(drain d apply s (b ++ cs.flatten)).outputs, none,
          (drain d apply s (b ++ cs.flatten)).state⟩) ∨
      ∃ before c after e, cs = before ++ c :: after ∧
        (drain d apply s (b ++ before.flatten)).error = none ∧
        (drain d apply s (b ++ (before.flatten ++ c))).error = some e ∧
        feedChunks d apply s b cs = ⟨(drain d apply s (b ++ before.flatten)).outputs, some e,
          (drain d apply s (b ++ (before.flatten ++ c))).state⟩ := by
  induction cs with
  | nil =>
    intro s b hb
    left
    rw [List.flatten_nil, List.append_nil, drain_more hb]
    exact ⟨rfl, rfl⟩
  | cons c cs ih =>
    intro s b hb
    rw [feedChunks]
    cases herror : (drain d apply s (b ++ c)).error with
    | some e =>
      right
      refine ⟨[], c, cs, e, rfl, ?_, ?_, ?_⟩
      · rw [List.flatten_nil, List.append_nil, drain_more hb]
      · simpa using herror
      · simp [drain_more hb]
    | none =>
      simp only
      -- bytes that follow this chunk are drained behind what it leaves
      have hnext (more : List α) := drain_append_of_none herror more
      simp only [List.append_assoc] at hnext
      rcases ih _ _ (front_left herror) with
        ⟨hnone, hfeed⟩ | ⟨before, c', after, e, hsplit, hbefore, hfails, hfeed⟩
      · left
        obtain ⟨hstate, houtputs, herror', _⟩ := hnext cs.flatten
        rw [List.flatten_cons]
        refine ⟨herror'.trans hnone, ?_⟩
        rw [hfeed, hstate, houtputs]
      · right
        refine ⟨c :: before, c', after, e, by rw [hsplit]; rfl, ?_, ?_, ?_⟩
        · rw [List.flatten_cons, (hnext _).2.2.1]
          exact hbefore
        · rw [List.flatten_cons, List.append_assoc, (hnext _).2.2.1]
          exact hfails
        · obtain ⟨_, houtputs, _⟩ := hnext before.flatten
          obtain ⟨hstate, _, _⟩ := hnext (before.flatten ++ c')
          rw [List.flatten_cons, List.append_assoc, hfeed, houtputs, hstate]

/-! ## Two cuts of one stream -/

section

variable (d apply)

/-- The buffer starts with frames of `n` bytes in all that the consumer takes, ending in the given
state. -/
inductive Takes : S → List α → Nat → S → Prop
  | nil (s : S) (b : List α) : Takes s b 0 s
  | frame {s t u : S} {b rest : List α} {f : F} {v : V} {n : Nat} (hfront : d.front b = .frame f rest)
      (happly : apply s f = (.ok v, t)) (htail : Takes t rest n u) :
      Takes s b (b.length - rest.length + n) u

/-- The buffer starts with an error or with a frame the consumer refuses. -/
def Rejects (s : S) (b : List α) : Prop :=
  (∃ e, d.front b = .bad e) ∨ ∃ f rest e t, d.front b = .frame f rest ∧ apply s f = (.error e, t)

/-- Behind frames that are taken comes something rejected. -/
def Fails (s : S) (b : List α) : Prop :=
  ∃ n t, Takes d apply s b n t ∧ Rejects d apply t (b.drop n)

/-- The first `p` bytes of the stream fail and fewer do not. -/
def FailsAt (s : S) (b : List α) (p : Nat) : Prop :=
  Fails d apply s (b.take p) ∧ ∀ n < p, ¬ Fails d apply s (b.take n)

end

theorem not_fails_of_more {s : S} {b : List α} (h : d.front b = .more) : ¬ Fails d apply s b := by
  rintro ⟨n, t, htakes, hrejects⟩
  cases htakes with
  | nil =>
    rcases hrejects with ⟨e, hfront⟩ | ⟨f, rest, e, t, hfront, _⟩ <;>
      · rw [List.drop_zero, h] at hfront
        cases hfront
  | frame hfront _ _ =>
    rw [h] at hfront
    cases hfront

theorem drop_frame {b rest : List α} {f : F} (h : d.front b = .frame f rest) (n : Nat) :
    b.drop (b.length - rest.length + n) = rest.drop n := by
  obtain ⟨seen, rfl, _, _⟩ := d.frame_split h
  rw [List.length_append, Nat.add_sub_cancel_right, List.drop_length_add_append]

theorem fails_frame_iff {s t : S} {b rest : List α} {f : F} {v : V} (h : d.front b = .frame f rest)
    (happly : apply s f = (.ok v, t)) : Fails d apply s b ↔ Fails d apply t rest := by
  constructor
  · rintro ⟨n, u, htakes, hrejects⟩
    cases htakes with
    | nil =>
      rcases hrejects with ⟨e, hfront⟩ | ⟨f', rest', e, t', hfront, happly'⟩
      · rw [List.drop_zero, h] at hfront
        cases hfront
      · rw [List.drop_zero, h] at hfront
        cases hfront
        rw [happly] at happly'
        cases happly'
    | frame hfront happly' htail =>
      rw [h] at hfront
      cases hfront
      rw [happly] at happly'
      cases happly'
      rw [drop_frame h] at hrejects
      exact ⟨_, _, htail, hrejects⟩
  · rintro ⟨n, u, htail, hrejects⟩
    exact ⟨_, u, .frame h happly htail, by rwa [drop_frame h]⟩

theorem drain_error_ne_none_iff {s : S} {b : List α} :
    (drain d apply s b).error ≠ none ↔ Fails d apply s b := by
  induction s, b using drain_induction d apply with
  | more s b hfront =>
    rw [drain_more hfront]
    exact iff_of_false (· rfl) (not_fails_of_more hfront)
  | bad s b e hfront =>
    rw [drain_bad hfront]
    exact iff_of_true (Option.some_ne_none e) ⟨0, s, .nil s b, .inl ⟨e, hfront⟩⟩
  | refused s b f rest e t hfront happly =>
    rw [drain_refused hfront happly]
    exact iff_of_true (Option.some_ne_none e)
      ⟨0, s, .nil s b, .inr ⟨f, rest, e, t, hfront, happly⟩⟩
  | frame s b f rest v t hfront happly ih =>
    rw [drain_frame hfront happly, fails_frame_iff hfront happly]
    exact ih

theorem drain_error_eq_none_iff {s : S} {b : List α} :
    (drain d apply s b).error = none ↔ ¬ Fails d apply s b := by
  rw [← drain_error_ne_none_iff, not_not]

theorem Fails.mono {s : S} {b : List α} {m n : Nat} (hmn : m ≤ n) (h : Fails d apply s (b.take m)) :
    Fails d apply s (b.take n) := by
  rw [← drain_error_ne_none_iff] at h ⊢
  obtain ⟨e, he⟩ := Option.ne_none_iff_exists'.mp h
  have hsplit : b.take n = b.take m ++ (b.take n).drop m := by
    conv_lhs => rw [← List.take_append_drop m (b.take n), List.take_take, Nat.min_eq_left hmn]
  rw [hsplit, (drain_append_of_error he _).2.2]
  exact Option.some_ne_none e

theorem FailsAt.unique {s : S} {b : List α} {p q : Nat} (hp : FailsAt d apply s b p)
    (hq : FailsAt d apply s b q) : p = q := by
  rcases Nat.lt_trichotomy p q with h | h | h
  · exact absurd hp.1 (hq.2 p h)
  · exact h
  · exact absurd hq.1 (hp.2 q h)

/-- The ends of a drain are the lengths of the frames the buffer starts with. -/
theorem takes_iff_mem_ends (s : S) (b : List α) (n : Nat) :
    (∃ t, Takes d apply s b n t) ↔ n = 0 ∨ n ∈ (drain d apply s b).ends := by
  induction s, b using drain_induction d apply generalizing n with
  | more s b hfront =>
    rw [drain_more hfront]
    constructor
    · rintro ⟨t, htakes⟩
      cases htakes with
      | nil => exact .inl rfl
      | frame hfront' _ _ => simp [hfront] at hfront'
    · rintro (rfl | hmem)
      · exact ⟨s, .nil s b⟩
      · cases hmem
  | bad s b e hfront =>
    rw [drain_bad hfront]
    constructor
    · rintro ⟨t, htakes⟩
      cases htakes with
      | nil => exact .inl rfl
      | frame hfront' _ _ => simp [hfront] at hfront'
    · rintro (rfl | hmem)
      · exact ⟨s, .nil s b⟩
      · cases hmem
  | refused s b f rest e t hfront happly =>
    rw [drain_refused hfront happly]
    constructor
    · rintro ⟨t, htakes⟩
      cases htakes with
      | nil => exact .inl rfl
      | frame hfront' happly' _ =>
        rw [hfront] at hfront'
        cases hfront'
        simp [happly] at happly'
    · rintro (rfl | hmem)
      · exact ⟨s, .nil s b⟩
      · cases hmem
  | frame s b f rest v t hfront happly ih =>
    rw [drain_frame hfront happly]
    simp only [Outcome.after, List.mem_cons, List.mem_map]
    constructor
    · rintro ⟨u, htakes⟩
      cases htakes with
      | nil => exact .inl rfl
      | @frame _ t' _ _ _ _ _ m hfront' happly' htail =>
        rw [hfront] at hfront'
        cases hfront'
        rw [happly] at happly'
        cases happly'
        rcases (ih m).mp ⟨u, htail⟩ with rfl | hmem
        · exact .inr (.inl (Nat.add_zero _))
        · exact .inr (.inr ⟨m, hmem, rfl⟩)
    · rintro (rfl | rfl | ⟨m, hmem, rfl⟩)
      · exact ⟨s, .nil s b⟩
      · exact ⟨t, .frame hfront happly (.nil t rest)⟩
      · obtain ⟨u, htail⟩ := (ih m).mpr (.inr hmem)
        exact ⟨u, .frame hfront happly htail⟩

/-- Where the chunk starts that brings the byte before position `p`. -/
def chunkStart (p : Nat) : List (List α) → Nat
  | [] => 0
  | c :: cs => if p ≤ c.length then 0 else c.length + chunkStart (p - c.length) cs

theorem chunkStart_eq {before after : List (List α)} {c : List α} {p : Nat}
    (hlow : before.flatten.length < p) (hhigh : p ≤ before.flatten.length + c.length) :
    chunkStart p (before ++ c :: after) = before.flatten.length := by
  induction before generalizing p with
  | nil =>
    simp only [List.flatten_nil, List.length_nil, Nat.zero_add] at hhigh
    rw [List.nil_append, chunkStart, if_pos hhigh]
    rfl
  | cons c' before ih =>
    rw [List.flatten_cons, List.length_append] at hlow hhigh ⊢
    rw [List.cons_append, chunkStart, if_neg (by omega), ih (by omega) (by omega)]

/-- Where that chunk ends. -/
def chunkEnd (p : Nat) : List (List α) → Nat
  | [] => 0
  | c :: cs => c.length + if p ≤ c.length then 0 else chunkEnd (p - c.length) cs

theorem le_chunkEnd {p : Nat} {cs : List (List α)} (h : p ≤ cs.flatten.length) : p ≤ chunkEnd p cs := by
  induction cs generalizing p with
  | nil => exact h
  | cons c cs ih =>
    rw [List.flatten_cons, List.length_append] at h
    rw [chunkEnd]
    split_ifs
    · omega
    · have := @ih (p - c.length) (by omega)
      omega

theorem chunkEnd_of_length_lt {p : Nat} {cs : List (List α)} (h : cs.flatten.length < p) :
    chunkEnd p cs = cs.flatten.length := by
  induction cs generalizing p with
  | nil => rfl
  | cons c cs ih =>
    rw [List.flatten_cons, List.length_append] at h ⊢
    rw [chunkEnd, if_neg (by omega), ih (by omega)]

theorem countP_le_eq_iff (l : List Nat) (m n : Nat) :
    l.countP (· ≤ m) = l.countP (· ≤ n) ↔ ∀ i ∈ l, (i ≤ m ↔ i ≤ n) := by
  constructor
  · intro h
    wlog hmn : m ≤ n generalizing m n
    · exact fun i hi => (this n m h.symm (by omega) i hi).symm
    induction l with
    | nil => simp
    | cons i l ih =>
      have hmono : l.countP (· ≤ m) ≤ l.countP (· ≤ n) :=
        List.countP_mono_left fun j _ hj => by
          simp only [decide_eq_true_eq] at hj ⊢
          omega
      rw [List.countP_cons, List.countP_cons] at h
      simp only [decide_eq_true_eq] at h
      have himp : i ≤ m → i ≤ n := fun hi => hi.trans hmn
      have htail : l.countP (· ≤ m) = l.countP (· ≤ n) := by split_ifs at h <;> omega
      intro j hj
      rcases List.mem_cons.mp hj with rfl | hj
      · split_ifs at h <;> omega
      · exact ih htail j hj
  · intro h
    exact List.countP_congr fun i hi => by simpa using h i hi

theorem outputs_take_eq_iff (s : S) (b : List α) (m n : Nat) :
    (drain d apply s b).outputs.take ((drain d apply s b).ends.countP (· ≤ m)) =
        (drain d apply s b).outputs.take ((drain d apply s b).ends.countP (· ≤ n)) ↔
      ∀ i ∈ (drain d apply s b).ends, (i ≤ m ↔ i ≤ n) := by
  have hcount (bound : Nat) : (drain d apply s b).ends.countP (· ≤ bound) ≤
      (drain d apply s b).outputs.length := by
    rw [← length_ends]
    exact List.countP_le_length
  rw [← countP_le_eq_iff]
  refine ⟨fun h => ?_, fun h => by rw [h]⟩
  have hlen := congrArg List.length h
  rwa [List.length_take_of_le (hcount m), List.length_take_of_le (hcount n)] at hlen

variable (d apply) in
/-- The delivery of a cut, in terms of the whole stream. -/
theorem feedChunks_eq {s : S} (hempty : d.front [] = .more) (cs : List (List α)) :
    let o := drain d apply s cs.flatten
    (o.error = none ∧ feedChunks d apply s [] cs = ⟨o.outputs, none, o.state⟩) ∨
      ∃ p e, FailsAt d apply s cs.flatten p ∧ o.error = some e ∧
        feedChunks d apply s [] cs =
          ⟨o.outputs.take (o.ends.countP (· ≤ chunkStart p cs)), some e, o.state⟩ := by
  rcases feedChunks_cases d apply cs s [] hempty with
    hnone | ⟨before, c, after, e, hsplit, hbefore, hfails, hfeed⟩
  · exact .inl (by simpa using hnone)
  · right
    simp only [List.nil_append] at hbefore hfails hfeed
    have hflat : cs.flatten = (before.flatten ++ c) ++ after.flatten := by simp [hsplit]
    have htakeBefore : cs.flatten.take before.flatten.length = before.flatten := by
      rw [hflat, List.append_assoc, List.take_left]
    have htakeAll : cs.flatten.take (before.flatten ++ c).length = before.flatten ++ c := by
      rw [hflat, List.take_left]
    have hclean : ¬ Fails d apply s (cs.flatten.take before.flatten.length) := by
      rw [htakeBefore, ← drain_error_eq_none_iff, hbefore]
    have hall : Fails d apply s (cs.flatten.take (before.flatten ++ c).length) := by
      rw [htakeAll, ← drain_error_ne_none_iff, hfails]
      exact Option.some_ne_none e
    classical
    have hexists : ∃ p, Fails d apply s (cs.flatten.take p) := ⟨_, hall⟩
    have hp : FailsAt d apply s cs.flatten (Nat.find hexists) :=
      ⟨Nat.find_spec hexists, fun n hn => Nat.find_min hexists hn⟩
    generalize Nat.find hexists = p at hp
    have hlow : before.flatten.length < p := by
      by_contra hle
      exact hclean (hp.1.mono (Nat.le_of_not_lt hle))
    have hhigh : p ≤ before.flatten.length + c.length := by
      by_contra hgt
      exact hp.2 (before.flatten ++ c).length (by rw [List.length_append]; omega) hall
    obtain ⟨hstate, houtputs, herror⟩ := drain_append_of_error hfails after.flatten
    rw [← hflat] at hstate houtputs herror
    refine ⟨p, e, hp, herror, ?_⟩
    have hshorter : before.flatten.length ≤ cs.flatten.length := by
      rw [hflat, List.length_append, List.length_append]
      omega
    have hbeforeOutputs := @outputs_take _ _ _ _ _ d apply s cs.flatten before.flatten.length
      hshorter (by rw [htakeBefore, hbefore])
    have hstart : chunkStart p cs = before.flatten.length := by
      rw [hsplit, chunkStart_eq hlow hhigh]
    rw [htakeBefore] at hbeforeOutputs
    rw [hfeed, hbeforeOutputs, hstate, hstart]

variable (d apply) in
/-- **Two cuts of a stream** deliver the same error and state; and they deliver the same outputs exactly
when the frames taken from the front of the stream that end by the start of the chunk in which it fails
are the same in both. -/
theorem feedChunks_eq_iff {s : S} (hempty : d.front [] = .more) {cs ds : List (List α)}
    (hsame : cs.flatten = ds.flatten) :
    (feedChunks d apply s [] cs).error = (feedChunks d apply s [] ds).error ∧
      (feedChunks d apply s [] cs).state = (feedChunks d apply s [] ds).state ∧
      ((feedChunks d apply s [] cs).outputs = (feedChunks d apply s [] ds).outputs ↔
        ∀ p, FailsAt d apply s cs.flatten p → ∀ n t, Takes d apply s cs.flatten n t →
          (n ≤ chunkStart p cs ↔ n ≤ chunkStart p ds)) := by
  have hcs := feedChunks_eq d apply (s := s) hempty cs
  have hds := feedChunks_eq d apply (s := s) hempty ds
  rw [← hsame] at hds
  rcases hcs with ⟨hnone, hcs⟩ | ⟨p, e, hp, herror, hcs⟩
  · rcases hds with ⟨_, hds⟩ | ⟨q, e', _, herror', _⟩
    · have hclean : ¬ Fails d apply s cs.flatten := drain_error_eq_none_iff.mp hnone
      rw [hcs, hds]
      refine ⟨rfl, rfl, iff_of_true rfl fun p hp => absurd ?_ hclean⟩
      have hall := hp.1.mono (Nat.le_max_left p cs.flatten.length)
      rwa [List.take_of_length_le (Nat.le_max_right p _)] at hall
    · rw [hnone] at herror'
      cases herror'
  · rcases hds with ⟨hnone, _⟩ | ⟨q, e', hq, herror', hds⟩
    · rw [hnone] at herror
      cases herror
    · obtain rfl := hp.unique hq
      obtain rfl : e = e' := by simpa [herror] using herror'
      rw [hcs, hds]
      refine ⟨rfl, rfl, ?_⟩
      rw [outputs_take_eq_iff]
      constructor
      · intro h q hq n t htakes
        obtain rfl := hp.unique hq
        rcases (takes_iff_mem_ends s _ n).mp ⟨t, htakes⟩ with rfl | hn
        · exact iff_of_true (Nat.zero_le _) (Nat.zero_le _)
        · exact h n hn
      · intro h n hn
        obtain ⟨t, htakes⟩ := (takes_iff_mem_ends s _ n).mpr (.inr hn)
        exact h p hp n t htakes

end Incremental
