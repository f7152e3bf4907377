import Forge.Base.Header
import Forge.Graph.Invalidation
import Forge.Lib.PrefixCode
import Std.Data.ExtTreeMap
import Std.Data.ExtTreeMap.Lemmas

/-!
# What an action key stands for

The material of an action key is the command, the options and the digests one behind the other. Each
string comes with its length and each digest has 32 bytes, but nothing says where the options end and
where the input digests do. `separates_iff` says which different tuples get one material: digests may
move between the two lists, and digests whose bytes spell options may stand for these.
-/

namespace Forge

open Std (ExtTreeMap)

/-! ## The codes in the material -/

def lengthHeader (n : Nat) : Bytes := LittleEndian.bytes 4 (UInt32.ofNat n).toNat

theorem lengthHeader_injective : ∀ m < 2 ^ 32, ∀ n < 2 ^ 32, lengthHeader m = lengthHeader n → m = n := by
  intro m hm n hn h
  have hvalue : UInt32.ofNat m = UInt32.ofNat n := by
    rw [← value_u32_bytes (UInt32.ofNat m), ← value_u32_bytes (UInt32.ofNat n)]
    exact congrArg (fun bytes => UInt32.ofNat (LittleEndian.value bytes)) h
  have hnat := congrArg UInt32.toNat hvalue
  rwa [UInt32.toNat_ofNat', UInt32.toNat_ofNat', Nat.mod_eq_of_lt hm, Nat.mod_eq_of_lt hn] at hnat

/-- What `append_string` writes. -/
def stringCode : PrefixCode Str Byte :=
  .lengthPrefixed lengthHeader 4 (2 ^ 32) (fun _ => LittleEndian.length_bytes 4 _) lengthHeader_injective

/-- An option: the key and the value. -/
def optionCode : PrefixCode (Str × Str) Byte := stringCode.pair stringCode

def wordBytes (word : UInt64) : Bytes := LittleEndian.bytes 8 word.toNat

theorem length_wordBytes (word : UInt64) : (wordBytes word).length = 8 := LittleEndian.length_bytes 8 _

theorem wordBytes_injective : Function.Injective wordBytes := by
  intro v w h
  rw [← value_u64_bytes v, ← value_u64_bytes w]
  exact congrArg (fun bytes => UInt64.ofNat (LittleEndian.value bytes)) h

/-- The 32 bytes of a digest. -/
def Digest256.bytes (digest : Digest256) : Bytes := digest.words.toList.flatMap wordBytes

theorem Digest256.length_bytes (digest : Digest256) : digest.bytes.length = 32 := by
  unfold bytes
  rw [PrefixCode.length_flatMap length_wordBytes, Vector.length_toList]

theorem Digest256.bytes_injective : Function.Injective Digest256.bytes := by
  rintro ⟨v⟩ ⟨w⟩ h
  have hwords := PrefixCode.flatMap_injective (by norm_num) length_wordBytes wordBytes_injective h
  exact congrArg Digest256.mk (Vector.toList_inj.mp hwords)

/-! ## The material -/

theorem appendString_eq (material : Bytes) (value : Str) :
    appendString material value = material ++ stringCode.encode value := by
  unfold appendString
  rw [appendU32Le_eq, List.append_assoc]
  rfl

theorem appendDigest_eq (material : Bytes) (digest : Digest256) :
    appendDigest material digest = material ++ digest.bytes := by
  have hwords (words : List UInt64) (out : Bytes) :
      words.foldl appendU64Le out = out ++ words.flatMap wordBytes := by
    induction words generalizing out with
    | nil => simp
    | cons word words ih =>
      rw [List.foldl_cons, ih, appendU64Le_eq, List.flatMap_cons, List.append_assoc]
      rfl
  exact hwords _ _

theorem foldl_append_eq_flatMap {α : Type} {step : Bytes → α → Bytes} {encode : α → Bytes}
    (hstep : ∀ out a, step out a = out ++ encode a) (l : List α) (out : Bytes) :
    l.foldl step out = out ++ l.flatMap encode := by
  induction l generalizing out with
  | nil => simp
  | cons a l ih => rw [List.foldl_cons, ih, hstep, List.flatMap_cons, List.append_assoc]

theorem actionKeyMaterial_eq (action : ActionSpec) (inputKeys dependencyArtifacts : List Digest256) :
    actionKeyMaterial action inputKeys dependencyArtifacts =
      stringCode.encode "forge-action-key-v1" ++ (stringCode.encode action.command ++
        (action.options.toList.flatMap optionCode.encode ++
          (inputKeys ++ dependencyArtifacts).flatMap Digest256.bytes)) := by
  have hoption (out : Bytes) (entry : Str × Str) :
      appendString (appendString out entry.1) entry.2 = out ++ optionCode.encode entry := by
    rw [appendString_eq, appendString_eq, List.append_assoc]
    rfl
  unfold actionKeyMaterial
  simp only
  rw [ExtTreeMap.foldl_eq_foldl_toList, foldl_append_eq_flatMap hoption,
    foldl_append_eq_flatMap appendDigest_eq, foldl_append_eq_flatMap appendDigest_eq,
    appendString_eq, appendString_eq, List.flatMap_append]
  simp only [List.nil_append, List.append_assoc]

/-! ## Tuples with one material -/

/-- The arguments of `action_key_for`, of the node those it reads. -/
structure ActionTuple where
  action : ActionSpec
  inputKeys : List Digest256 := []
  dependencyArtifacts : List Digest256 := []

namespace ActionTuple

def material (t : ActionTuple) : Bytes := actionKeyMaterial t.action t.inputKeys t.dependencyArtifacts

def key (t : ActionTuple) : Digest256 := digestBytes "action" t.material

/-- The digests in the order in which they are hashed. -/
def digests (t : ActionTuple) : List Digest256 := t.inputKeys ++ t.dependencyArtifacts

/-- All strings are shorter than 2^32 bytes. -/
def Short (t : ActionTuple) : Prop :=
  t.action.command.length < 2 ^ 32 ∧
    ∀ option ∈ t.action.options.toList, option.1.length < 2 ^ 32 ∧ option.2.length < 2 ^ 32

instance (t : ActionTuple) : Decidable t.Short :=
  inferInstanceAs (Decidable (_ ∧ ∀ option ∈ t.action.options.toList, _))

/-- Different tuples have different materials, and the same key only if these collide. -/
def Separates (t u : ActionTuple) : Prop :=
  (t ≠ u → t.material ≠ u.material) ∧
    (t.key = u.key → t = u ∨
      (t.material ≠ u.material ∧ digestBytes "action" t.material = digestBytes "action" u.material))

/-- The commands are the same, the options of `u` are those of `t` and `extra` behind them, and in place
of these the digests of `t` start with some whose bytes spell `extra`. Without `extra` the digests are
the same. -/
def Spells (t u : ActionTuple) : Prop :=
  t.action.command = u.action.command ∧ ∃ extra spelled,
    u.action.options.toList = t.action.options.toList ++ extra ∧ t.digests = spelled ++ u.digests ∧
      spelled.flatMap Digest256.bytes = extra.flatMap optionCode.encode

theorem Short.command_ok {t : ActionTuple} (h : t.Short) : stringCode.ok t.action.command := h.1

theorem Short.options_ok {t : ActionTuple} (h : t.Short) :
    ∀ option ∈ t.action.options.toList, optionCode.ok option := h.2

theorem Spells.action_eq {t u : ActionTuple} (h : t.Spells u) (hnone : t.digests = []) :
    t.action = u.action := by
  obtain ⟨hcommand, extra, spelled, hoptions, hdigests, hbytes⟩ := h
  rw [hnone, List.nil_eq, List.append_eq_nil_iff] at hdigests
  rw [hdigests.1, List.flatMap_nil] at hbytes
  have hextra : extra = [] := by
    cases extra with
    | nil => rfl
    | cons entry extra =>
      have hlength := congrArg List.length hbytes
      simp only [optionCode, stringCode, PrefixCode.pair, PrefixCode.lengthPrefixed, lengthHeader,
        List.flatMap_cons, List.length_nil, List.length_append, LittleEndian.length_bytes] at hlength
      omega
  rw [hextra, List.append_nil] at hoptions
  obtain ⟨⟨command, options⟩, _, _⟩ := t
  obtain ⟨⟨command', options'⟩, _, _⟩ := u
  dsimp only at hcommand hoptions
  rw [hcommand, ExtTreeMap.toList_inj.mp hoptions]

/-- **Tuples with one material.** -/
theorem material_eq_iff {t u : ActionTuple} (ht : t.Short) (hu : u.Short) :
    t.material = u.material ↔ t.Spells u ∨ u.Spells t := by
  have hspells (t u : ActionTuple) (extra : List (Str × Str)) :
      t.digests.flatMap Digest256.bytes =
          extra.flatMap optionCode.encode ++ u.digests.flatMap Digest256.bytes ↔
        ∃ spelled, t.digests = spelled ++ u.digests ∧
          spelled.flatMap Digest256.bytes = extra.flatMap optionCode.encode :=
    PrefixCode.flatMap_eq_append_iff (by norm_num) Digest256.length_bytes Digest256.bytes_injective
  have hsame : t.material = u.material ↔ t.action.command = u.action.command ∧
      t.action.options.toList.flatMap optionCode.encode ++ t.digests.flatMap Digest256.bytes =
        u.action.options.toList.flatMap optionCode.encode ++ u.digests.flatMap Digest256.bytes := by
    unfold material
    rw [actionKeyMaterial_eq, actionKeyMaterial_eq, List.append_cancel_left_eq]
    exact ⟨fun h => stringCode.separates ht.command_ok hu.command_ok h,
      fun h => congrArg₂ (stringCode.encode · ++ ·) h.1 h.2⟩
  rw [hsame, optionCode.flatMap_append_eq_iff ht.options_ok hu.options_ok]
  simp only [hspells]
  constructor
  · rintro ⟨hcommand, ⟨extra, hoptions, spelled, hdigests, hbytes⟩ |
      ⟨extra, hoptions, spelled, hdigests, hbytes⟩⟩
    · exact .inl ⟨hcommand, extra, spelled, hoptions, hdigests, hbytes⟩
    · exact .inr ⟨hcommand.symm, extra, spelled, hoptions, hdigests, hbytes⟩
  · rintro (⟨hcommand, extra, spelled, hoptions, hdigests, hbytes⟩ |
      ⟨hcommand, extra, spelled, hoptions, hdigests, hbytes⟩)
    · exact ⟨hcommand, .inl ⟨extra, hoptions, spelled, hdigests, hbytes⟩⟩
    · exact ⟨hcommand.symm, .inr ⟨extra, hoptions, spelled, hdigests, hbytes⟩⟩

/-- **When action keys separate different work**: two tuples are kept apart exactly when they are the
same or neither spells the other. -/
theorem separates_iff (t u : ActionTuple) (ht : t.Short) (hu : u.Short) :
    t.Separates u ↔ t = u ∨ ¬ (t.Spells u ∨ u.Spells t) := by
  rw [← material_eq_iff ht hu]
  unfold Separates
  constructor
  · rintro ⟨hmaterial, _⟩
    by_cases hsame : t = u
    · exact .inl hsame
    · exact .inr (hmaterial hsame)
  · rintro (rfl | hne)
    · exact ⟨fun h => absurd rfl h, fun _ => .inl rfl⟩
    · exact ⟨fun _ => hne, fun hkey => .inr ⟨hne, hkey⟩⟩

/-- Actions with different commands have different materials. -/
theorem separates_iff_commands :
    ActionTuple.material ⟨{ command := "cc" }, [], []⟩ ≠ ActionTuple.material ⟨{ command := "ld" }, [], []⟩ := by
  have hcommands : ¬ (("cc" : Str) = "ld") := by decide
  have hseparates : ActionTuple.Separates ⟨{ command := "cc" }, [], []⟩ ⟨{ command := "ld" }, [], []⟩ := by
    refine (separates_iff _ _ ⟨by decide, by simp⟩ ⟨by decide, by simp⟩).mpr (.inr ?_)
    rintro (⟨hcommand, _⟩ | ⟨hcommand, _⟩)
    · exact hcommands hcommand
    · exact hcommands hcommand.symm
  refine hseparates.1 fun hsame => hcommands ?_
  exact congrArg (fun t => t.action.command) hsame

/-- A digest has the same effect as an input and as an artifact of a dependency. -/
theorem input_as_dependency :
    let input : ActionTuple := ⟨{ command := "cc" }, [{}], []⟩
    let dependency : ActionTuple := ⟨{ command := "cc" }, [], [{}]⟩
    input ≠ dependency ∧ input.material = dependency.material ∧ input.key = dependency.key ∧
      ¬ input.Separates dependency := by
  intro input dependency
  have hne : input ≠ dependency := fun h => by
    have hinputs := congrArg ActionTuple.inputKeys h
    cases hinputs
  have hmaterial : input.material = dependency.material := by decide +kernel
  exact ⟨hne, hmaterial, congrArg (digestBytes "action") hmaterial, fun h => h.1 hne hmaterial⟩

end ActionTuple

end Forge
