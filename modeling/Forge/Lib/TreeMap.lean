import Std.Data.ExtTreeMap
import Std.Data.ExtTreeMap.Lemmas

/-!
# Lookups in a map

What is found under the keys of a map, and behind an insertion or a removal where keys that compare as equal
are equal; and the entries of a map with a new key.
-/

namespace Std.ExtTreeMap

variable {α β : Type} {cmp : α → α → Ordering} [TransCmp cmp] {m : ExtTreeMap α β cmp} {k k' : α} {v w : β}

theorem exists_of_mem (h : k ∈ m) : ∃ v, m[k]? = some v :=
  Option.isSome_iff_exists.mp (mem_iff_isSome_getElem?.mp h)

theorem mem_of_getElem?_eq_some (h : m[k]? = some v) : k ∈ m := by
  rw [mem_iff_isSome_getElem?, h]
  rfl

theorem not_mem_iff : k ∉ m ↔ m[k]? = none := by
  rw [mem_iff_isSome_getElem?, Option.not_isSome_iff_eq_none]

theorem getElem?_of_filter {keep : α → β → Bool} (h : (m.filter keep)[k]? = some v) : m[k]? = some v := by
  rw [getElem?_filter] at h
  exact Option.eq_some_of_pfilter_eq_some h

variable [LawfulEqCmp cmp]

theorem getElem?_insert_of_ne (hne : k ≠ k') : (m.insert k v)[k']? = m[k']? := by
  rw [getElem?_insert, if_neg]
  exact fun hsame => hne (LawfulEqCmp.eq_of_compare hsame)

theorem getElem?_erase_of_ne (hne : k ≠ k') : (m.erase k)[k']? = m[k']? := by
  rw [getElem?_erase, if_neg]
  exact fun hsame => hne (LawfulEqCmp.eq_of_compare hsame)

theorem getElem?_erase_cases (h : (m.erase k)[k']? = some v) : k ≠ k' ∧ m[k']? = some v := by
  by_cases hsame : k = k'
  · rw [hsame, getElem?_erase_self] at h
    cases h
  · rw [getElem?_erase_of_ne hsame] at h
    exact ⟨hsame, h⟩

theorem getElem?_insert_cases (h : (m.insert k v)[k']? = some w) :
    k = k' ∧ v = w ∨ k ≠ k' ∧ m[k']? = some w := by
  by_cases hsame : k = k'
  · subst hsame
    rw [getElem?_insert_self] at h
    exact .inl ⟨rfl, Option.some.inj h⟩
  · rw [getElem?_insert_of_ne hsame] at h
    exact .inr ⟨hsame, h⟩

theorem insert_insert_empty :
    ((∅ : ExtTreeMap α β cmp).insert k v).insert k w = (∅ : ExtTreeMap α β cmp).insert k w := by
  apply ext_getElem?
  intro k'
  simp only [getElem?_insert]
  split <;> rfl

theorem erase_insert_empty : ((∅ : ExtTreeMap α β cmp).insert k v).erase k = ∅ := by
  apply ext_getElem?
  intro k'
  rw [getElem?_erase, getElem?_insert, getElem?_empty]
  split <;> rfl

theorem getElem?_foldl_insert [DecidableEq α] {γ : Type} (key : γ → α) (value : γ → β) (l : List γ) :
    (l.foldl (fun m x => m.insert (key x) (value x)) m)[k]? =
      ((l.filter (key · = k)).getLast?.map value).or m[k]? := by
  induction l generalizing m with
  | nil => rfl
  | cons x l ih =>
    rw [List.foldl_cons, ih]
    by_cases hsame : key x = k
    · rw [List.filter_cons_of_pos (by simpa using hsame), List.getLast?_cons, ← hsame, getElem?_insert_self]
      cases (l.filter (key · = key x)).getLast? with
      | none => rfl
      | some y => rfl
    · rw [List.filter_cons_of_neg (by simpa using hsame), getElem?_insert_of_ne hsame]

theorem getElem?_insertIfNew_of_not_mem [DecidableEq α] (h : k ∉ m) :
    (m.insertIfNew k v)[k']? = if k = k' then some v else m[k']? := by
  rw [getElem?_insertIfNew]
  by_cases hsame : k = k'
  · subst hsame
    rw [if_pos ⟨ReflCmp.compare_self, h⟩, if_pos rfl]
  · rw [if_neg fun hand => hsame (LawfulEqCmp.eq_of_compare hand.1), if_neg hsame]

theorem nodup_toList : m.toList.Nodup :=
  (@distinct_keys_toList _ _ _ m _).imp fun {a b} hne heq => hne (by rw [heq]; exact ReflCmp.compare_self)

theorem size_eq_length {l : List α} (hnodup : l.Nodup) (h : ∀ k, k ∈ m ↔ k ∈ l) : m.size = l.length := by
  have hkeys : m.keys.Nodup :=
    (@distinct_keys _ _ _ m _).imp fun {a b} hne heq => hne (by rw [heq]; exact ReflCmp.compare_self)
  rw [← length_keys]
  exact ((List.perm_ext_iff_of_nodup hkeys hnodup).mpr fun k => by rw [mem_keys, h]).length_eq

theorem toList_insert_perm (h : k ∉ m) : (m.insert k v).toList.Perm ((k, v) :: m.toList) := by
  have hnew : (k, v) ∉ m.toList := fun hmem =>
    h (mem_of_getElem?_eq_some (mem_toList_iff_getElem?_eq_some.mp hmem))
  rw [List.perm_ext_iff_of_nodup nodup_toList (List.nodup_cons.mpr ⟨hnew, nodup_toList⟩)]
  rintro ⟨k', w⟩
  rw [mem_toList_iff_getElem?_eq_some, List.mem_cons, mem_toList_iff_getElem?_eq_some, Prod.mk.injEq]
  by_cases hsame : k = k'
  · subst hsame
    rw [getElem?_insert_self, not_mem_iff.mp h]
    simp [eq_comm]
  · rw [getElem?_insert_of_ne hsame]
    simp [Ne.symm hsame]

end Std.ExtTreeMap
