import Forge.Artifact.Authenticity
import Forge.Artifact.KeyOrder

/-!
# A store on disk

What a store with a root is for: a map from keys to the bytes that were published last (`latest`). Its objects
in memory are lost with a collection or when a new store is opened on the directory, be it behind a `publish`
that was cut short; the files stay. `disk_refines` says that neither makes a difference for what is found
and read.
-/

namespace Forge

open Std (ExtTreeMap)

/-- A call on the store, or a new store on the same directory. -/
inductive DiskEvent
  | call (call : ArtifactCall)
  | reopen
deriving DecidableEq

/-- The store and the writers that were published, the last one first. -/
structure DiskHistory where
  store : ArtifactStore
  published : List ArtifactWriter := []

namespace DiskHistory

def start (files : Files) : DiskHistory := { store := { root := some files } }

def step (h : DiskHistory) : DiskEvent → DiskHistory
  | .call (.publish io writer) =>
    let (result, store) := h.store.publish io writer
    { store, published := if result = .value (.ok writer.key) then writer :: h.published else h.published }
  | .call call => { h with store := h.store.exec (.call call) }
  | .reopen => { h with store := { root := h.store.root } }

/-- The bytes published last under a key. -/
def latest (h : DiskHistory) (key : ArtifactKey) : Option Bytes :=
  (h.published.find? fun writer => writer.key = key).map ArtifactWriter.bytes

/-- The files hold what was published last, or what they held before; the objects in memory do not differ. -/
structure Inv (files : Files) (h : DiskHistory) : Prop where
  root : h.store.root ≠ none
  files : ∀ key : ArtifactKey,
    h.store.root.bind (·[key.objectPath]?) = (h.latest key).or files[key.objectPath]?
  objects : ∀ key object, h.store.objects[key]? = some object →
    object.durable = true ∧ h.latest key = some object.bytes
  authentic : ∀ key bytes, h.latest key = some bytes → ArtifactStore.Authentic key bytes

/-! ## One event -/

variable {files : Files} {h : DiskHistory}

theorem inv_start (files : Files) : Inv files (start files) := by
  refine ⟨Option.some_ne_none files, fun key => rfl, fun key object hobject => ?_,
    fun key bytes hlatest => by cases hlatest⟩
  simp [start] at hobject

theorem latest_cons (h : DiskHistory) (store : ArtifactStore) (writer : ArtifactWriter) (key : ArtifactKey) :
    latest ⟨store, writer :: h.published⟩ key =
      if writer.key = key then some writer.bytes else h.latest key := by
  rw [latest, List.find?_cons]
  by_cases hkey : writer.key = key
  · simp [hkey]
  · simp [hkey, latest]

theorem publish_root_eq_none_iff (store : ArtifactStore) (io : PublishIo) (writer : ArtifactWriter) :
    (store.publish io writer).2.root = none ↔ store.root = none := by
  have hkey : writer.finish.key = writer.key := rfl
  simp only [ArtifactStore.publish, hkey, if_neg (ArtifactStore.finish_digest writer)]
  rcases store with ⟨_ | files, objects⟩
  · rfl
  · cases io.writeTemp
    all_goals
      simp only
      split_ifs
      all_goals simp

theorem inv_publish (hinv : Inv files h) (io : PublishIo) (writer : ArtifactWriter) :
    Inv files (h.step (.call (.publish io writer))) := by
  by_cases hstores : h.store.Stores io
  · have hstep : h.step (.call (.publish io writer)) =
        ⟨(h.store.publish io writer).2, writer :: h.published⟩ := by
      simp [step, ArtifactStore.publish_of_stores hstores]
    rw [hstep]
    refine ⟨(publish_root_eq_none_iff _ io writer).not.mpr hinv.root, fun key => ?_,
      fun key object hobject => ?_, fun key bytes hlatest => ?_⟩
    · rw [latest_cons]
      split_ifs with hkey
      · subst hkey
        obtain ⟨held, hroot⟩ := Option.ne_none_iff_exists'.mp hinv.root
        rw [ArtifactStore.publish_of_stores hstores, hroot]
        exact ExtTreeMap.getElem?_insert_self
      · exact (h.store.publish_file_of_ne io writer (Ne.symm hkey)).trans (hinv.files key)
    · rw [latest_cons]
      rw [ArtifactStore.publish_objects, if_pos hstores] at hobject
      obtain ⟨rfl, rfl⟩ | ⟨hne, hkept⟩ := ExtTreeMap.getElem?_insert_cases hobject
      · exact ⟨rfl, if_pos rfl⟩
      · rw [if_neg hne]
        exact hinv.objects key object hkept
    · rw [latest_cons] at hlatest
      split_ifs at hlatest with hkey
      · obtain rfl := Option.some.inj hlatest
        exact hkey ▸ ArtifactStore.authentic_finish writer
      · exact hinv.authentic key bytes hlatest
  · obtain ⟨hobjects, hfails, hfiles⟩ := ArtifactStore.publish_of_not_stores hstores writer
    have hstep : h.step (.call (.publish io writer)) = { h with store := (h.store.publish io writer).2 } := by
      simp [step, hfails writer.key]
    rw [hstep]
    refine ⟨(publish_root_eq_none_iff _ io writer).not.mpr hinv.root, fun key => ?_,
      fun key object hobject => ?_, hinv.authentic⟩
    · rw [hfiles _ (key.objectPath_ne_tempPath writer.key).symm]
      exact hinv.files key
    · exact hinv.objects key object (hobjects ▸ hobject)

theorem inv_of_same_files (hinv : Inv files h) {store : ArtifactStore} (hroot : store.root = h.store.root)
    (hobjects : ∀ (key : ArtifactKey) (object : ArtifactObject), store.objects[key]? = some object →
      ∃ before : ArtifactObject, h.store.objects[key]? = some before ∧ object.durable = before.durable ∧
        object.bytes = before.bytes) : Inv files { h with store } := by
  refine ⟨hroot ▸ hinv.root, fun key => hroot ▸ hinv.files key, fun key object hobject => ?_, hinv.authentic⟩
  obtain ⟨before, hbefore, hdurable, hbytes⟩ := hobjects key object hobject
  rw [hdurable, hbytes]
  exact hinv.objects key before hbefore

theorem inv_of_leases (hinv : Inv files h) {key : ArtifactKey} {object : ArtifactObject}
    (hobject : h.store.objects[key]? = some object) (leases : UInt64) :
    Inv files { h with
      store := { h.store with objects := h.store.objects.insert key { object with leases } } } := by
  refine inv_of_same_files hinv rfl fun other found hfound => ?_
  obtain ⟨rfl, rfl⟩ | ⟨_, hkept⟩ := ExtTreeMap.getElem?_insert_cases hfound
  · exact ⟨object, hobject, rfl, rfl⟩
  · exact ⟨found, hkept, rfl, rfl⟩

theorem inv_step (hinv : Inv files h) (event : DiskEvent) : Inv files (h.step event) := by
  cases event with
  | reopen => exact inv_of_same_files hinv rfl fun key object hobject => by simp at hobject
  | call call =>
    cases call with
    | publish io writer => exact inv_publish hinv io writer
    | acquire key =>
      show Inv files { h with store := (h.store.acquire key).2 }
      rw [ArtifactStore.acquire]
      cases hobject : h.store.objects[key]? with
      | none => exact hinv
      | some object => exact inv_of_leases hinv hobject _
    | release key =>
      show Inv files { h with store := (h.store.release key).2 }
      rw [ArtifactStore.release]
      cases hobject : h.store.objects[key]?.filter (·.leases ≠ 0) with
      | none => exact hinv
      | some object => exact inv_of_leases hinv (Option.filter_eq_some_iff.mp hobject).1 _
    | gc =>
      refine inv_of_same_files hinv rfl fun key object hobject => ?_
      rw [ArtifactStore.exec, ArtifactStore.gc_objects] at hobject
      exact ⟨object, (Option.filter_eq_some_iff.mp hobject).1, rfl, rfl⟩

/-! ## What is found and read -/

theorem contains_eq (hinv : Inv files h) (key : ArtifactKey) :
    h.store.contains key = ((h.latest key).isSome || (start files).store.contains key) := by
  rw [Bool.eq_iff_iff, ArtifactStore.contains, hinv.files key, Option.isSome_or]
  by_cases hmem : key ∈ h.store.objects
  · obtain ⟨object, hobject⟩ := ExtTreeMap.exists_of_mem hmem
    simp [hmem, (hinv.objects key object hobject).2]
  · simp [hmem, start, ArtifactStore.contains]

theorem read_eq (hinv : Inv files h) (key : ArtifactKey) :
    h.store.read true key = ((h.latest key).map Except.ok).getD ((start files).store.read true key) := by
  cases hlatest : h.latest key with
  | some bytes =>
    rw [ArtifactStore.read, Option.map_some, Option.getD_some]
    cases hobject : h.store.objects[key]? with
    | some object =>
      obtain ⟨hdurable, hbytes⟩ := hinv.objects key object hobject
      rw [Option.filter_some, if_pos hdurable, Option.some.inj (hlatest.symm.trans hbytes)]
    | none =>
      obtain ⟨hdigest, hsize⟩ := hinv.authentic key bytes hlatest
      rw [Option.filter_none, hinv.files key, hlatest, Option.some_or]
      simp [hdigest, hsize]
  | none =>
    have hobject : h.store.objects[key]? = none := by
      cases hobject : h.store.objects[key]? with
      | none => rfl
      | some object => rw [(hinv.objects key object hobject).2] at hlatest; cases hlatest
    rw [ArtifactStore.read, ArtifactStore.read, hobject, hinv.files key, hlatest]
    simp [start]

/-- **A store on disk keeps what was published last** under each key, and for other keys what its directory
held before, over every run of calls with any answers of the operating system and any number of stores opened
on the directory one after the other. -/
theorem disk_refines (files : Files) (events : List DiskEvent) (key : ArtifactKey) :
    let h := events.foldl step (start files)
    h.store.contains key = ((h.latest key).isSome || (start files).store.contains key) ∧
      h.store.read true key = ((h.latest key).map Except.ok).getD ((start files).store.read true key) := by
  intro h
  have hinv : Inv files h :=
    List.foldlRecOn events step (inv_start files) fun _ hinv event _ => inv_step hinv event
  exact ⟨contains_eq hinv key, read_eq hinv key⟩

/-- Published, collected, overwritten up to a broken disk, and opened again. -/
example :
    let io : PublishIo := { writeTemp := some 0 }
    let events : List DiskEvent :=
      [.call (.publish {} ⟨[120]⟩), .call .gc, .call (.publish io ⟨[120]⟩), .reopen]
    (events.foldl step (start ∅)).store.read true (ArtifactWriter.mk [120]).key = .ok [120] := by
  decide +kernel

end DiskHistory

end Forge
