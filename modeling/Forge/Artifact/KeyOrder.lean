import Forge.Artifact.ArtifactStore
import Forge.Workspace.PathPolicy

/-!
# Artifact keys as names

The map of artifacts is ordered by the keys' hexadecimal digests and their files are named after them. The
digests are ordered as their words are and the names are never shared, neither by two keys nor by an
artifact and a temporary file, so map and directory hold one entry for each key.
-/

namespace Forge

open PosixPath (components)
open Std (TransCmp OrientedCmp ReflCmp LawfulEqCmp)

/-! ## The order -/

namespace ArtifactKey

theorem strictTotalOrder : IsStrictTotalOrder ArtifactKey fun key key' => compare key key' = .lt where
  irrefl key hlt := by
    have heq : compare key key = .eq := ReflCmp.compare_self
    rw [heq] at hlt
    cases hlt
  trans _ _ _ hlt hlt' := TransCmp.lt_trans hlt hlt'
  trichotomous key key' hlt hgt := by
    have heq : compare key key' = .eq := by
      cases hcompare : compare key key' with
      | lt => exact absurd hcompare hlt
      | eq => rfl
      | gt => exact absurd (OrientedCmp.lt_of_gt hcompare) hgt
    exact LawfulEqCmp.eq_of_compare heq

/-! ## The file names -/

theorem decimal_injective : Function.Injective decimal := by
  intro m n h
  have hbytes : (toString m.toNat).toByteArray = (toString n.toNat).toByteArray :=
    ByteArray.ext (Array.toList_inj.mp h)
  have hdigits : Nat.toDigits 10 m.toNat = Nat.toDigits 10 n.toNat :=
    String.ofList_inj.mp (String.toByteArray_inj.mp hbytes)
  have hback : ∀ k : Nat, Nat.ofDigitChars 10 (Nat.toDigits 10 k) 0 = k := fun k =>
    Nat.ofDigitChars_toDigits (by decide) (le_refl 10)
  apply UInt64.toNat_inj.mp
  rw [← hback m.toNat, hdigits, hback]

theorem decimal_eq (n : UInt64) : decimal n = (Nat.toDigits 10 n.toNat).flatMap String.utf8EncodeChar := by
  rw [decimal, Str.ofLiteral, Nat.toString_eq_ofList_toDigits, String.toUTF8_eq_toByteArray,
    String.toByteArray_ofList, List.utf8Encode, List.toList_data_toByteArray]

theorem not_mem_decimal (n : UInt64) : 47 ∉ decimal n := by
  intro hslash
  rw [decimal_eq] at hslash
  obtain ⟨c, hc, hbyte⟩ := List.mem_flatMap.mp hslash
  have hdigit := Nat.isDigit_of_mem_toDigits (by decide) (le_refl 10) hc
  have hrange : 48 ≤ c.val.toNat ∧ c.val.toNat ≤ 57 := by
    simpa [Char.isDigit, UInt32.le_iff_toNat_le] using hdigit
  have hone : c.utf8Size = 1 :=
    Char.utf8Size_eq_one_iff.mpr (UInt32.le_iff_toNat_le.mpr (hrange.2.trans (by decide)))
  rw [String.utf8EncodeChar_eq_singleton hone, List.mem_singleton] at hbyte
  have hcode : 47 = c.val.toNat % 256 := congrArg UInt8.toNat hbyte
  omega

theorem not_mem_hex (digest : Digest256) : 47 ∉ digest.hex := by
  have hdigit : ∀ digit < 16, hexDigit digit ≠ 47 := by decide +kernel
  intro hslash
  rw [hex_eq] at hslash
  obtain ⟨word, -, hslash⟩ := List.mem_flatMap.mp hslash
  rw [hexWord_eq] at hslash
  obtain ⟨digit, hmem, heq⟩ := List.mem_map.mp hslash
  exact hdigit digit (Lexicographic.lt_of_mem_digits (by omega) hmem) heq

/-- The files of a key differ in their extensions only. -/
def fileName (extension : Str) (key : ArtifactKey) : Str :=
  key.digest.hex ++ "." ++ decimal key.size ++ extension

theorem objectPath_eq (key : ArtifactKey) : key.objectPath = fileName ".cas" key := rfl

theorem tempPath_eq (key : ArtifactKey) : key.tempPath = fileName ".tmp" key := rfl

theorem fileName_inj {extension extension' : Str} (hlen : extension.length = extension'.length)
    {key key' : ArtifactKey} :
    fileName extension key = fileName extension' key' ↔ key = key' ∧ extension = extension' := by
  -- digest and extension have fixed widths, so the name is taken apart from both ends
  constructor
  · intro h
    obtain ⟨hfront, hextension⟩ := List.append_inj' h hlen
    obtain ⟨hhex, hsize⟩ := List.append_inj hfront (by simp)
    have hdigest := hex_injective (List.append_cancel_right hhex)
    have hsize := decimal_injective hsize
    cases key
    cases key'
    rw [ArtifactKey.mk.injEq]
    exact ⟨⟨hdigest, hsize⟩, hextension⟩
  · rintro ⟨rfl, rfl⟩
    rfl

theorem not_mem_fileName {extension : Str} (h : 47 ∉ extension) (key : ArtifactKey) :
    47 ∉ fileName extension key := by
  have hdot : (47 : Byte) ∉ Str.ofLiteral "." := by decide +kernel
  simp only [fileName, List.mem_append, not_or]
  exact ⟨⟨⟨not_mem_hex key.digest, hdot⟩, not_mem_decimal key.size⟩, h⟩

theorem objectPath_injective : Function.Injective objectPath := fun key key' h => by
  rw [objectPath_eq, objectPath_eq] at h
  exact ((fileName_inj rfl).mp h).1

theorem objectPath_ne_tempPath (key key' : ArtifactKey) : key.objectPath ≠ key'.tempPath := by
  intro h
  rw [objectPath_eq, tempPath_eq] at h
  exact absurd ((fileName_inj (by decide +kernel)).mp h).2 (by decide +kernel)

theorem objectPath_ne_nil (key : ArtifactKey) : key.objectPath ≠ [] := by
  intro h
  have hlen := congrArg List.length h
  simp [objectPath] at hlen

end ArtifactKey

/-! ## The files -/

namespace ArtifactStore

/-- `object_path` in the directory `root`. -/
def objectPath (root : Str) (key : ArtifactKey) : Str := PathPolicy.append root key.objectPath

theorem getLast?_components_objectPath (root : Str) (key : ArtifactKey) :
    (components (objectPath root key)).getLast? = some key.objectPath :=
  PathPolicy.getLast?_components_append root key.objectPath_ne_nil
    (ArtifactKey.not_mem_fileName (by decide +kernel) key)

theorem publish_files (store : ArtifactStore) (io : PublishIo) (writer : ArtifactWriter) {name : Str}
    (hobject : writer.key.objectPath ≠ name) (htemp : writer.key.tempPath ≠ name) :
    (store.publish io writer).2.root.bind (·[name]?) = store.root.bind (·[name]?) := by
  by_cases hstores : store.Stores io
  · rw [publish_of_stores hstores]
    cases store.root with
    | none => rfl
    | some files =>
      exact (Std.ExtTreeMap.getElem?_insert_of_ne hobject).trans
        (Std.ExtTreeMap.getElem?_erase_of_ne htemp)
  · exact (publish_of_not_stores hstores writer).2.2 name htemp

theorem publish_file_of_ne (store : ArtifactStore) (io : PublishIo) (writer : ArtifactWriter)
    {key : ArtifactKey} (hne : key ≠ writer.key) :
    (store.publish io writer).2.root.bind (·[key.objectPath]?) =
      store.root.bind (·[key.objectPath]?) :=
  store.publish_files io writer (fun heq => hne (ArtifactKey.objectPath_injective heq).symm)
    (key.objectPath_ne_tempPath writer.key).symm

/-- **Keys are faithful names**: the hexadecimal forms have one length, identify the digests and are ordered
as the words are, the keys are totally ordered, and no two of them share a path, not even where paths are
compared by their components. -/
theorem keys_faithful :
    (∀ a : Digest256, a.hex.length = 64) ∧
    (∀ a b : Digest256, a.hex = b.hex ↔ a = b) ∧
    (∀ a b : Digest256, compare a.hex b.hex = compare a.words.toList b.words.toList) ∧
    IsStrictTotalOrder ArtifactKey (fun key key' => compare key key' = .lt) ∧
    (∀ key key' : ArtifactKey, compare key key' = .eq ↔ key = key') ∧
    ∀ root key key', components (objectPath root key) = components (objectPath root key') ↔ key = key' := by
  refine ⟨length_hex, fun a b => hex_injective.eq_iff, compare_hex, ArtifactKey.strictTotalOrder,
    fun key key' => LawfulEqCmp.compare_eq_iff_eq, fun root key key' => ⟨fun h => ?_, fun h => by rw [h]⟩⟩
  have hlast := congrArg List.getLast? h
  rw [getLast?_components_objectPath, getLast?_components_objectPath] at hlast
  exact ArtifactKey.objectPath_injective (Option.some.inj hlast)

end ArtifactStore

end Forge
