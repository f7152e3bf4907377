import Forge.Artifact.ArtifactStore

/-!
# Authentic reads

What `read` returns has the digest and the size of its key. A file is checked when it is read, whoever
has written it; an object in memory is not, so there it is an invariant of the map: `publish` derives the
key from the bytes it stores, the comparison of keys tells different digests apart, and nothing changes
the bytes of an object later. Runs are calls with arbitrary changes of the files in between.
-/

namespace Forge

open Std (ExtTreeMap)

/-- A call on the store, or a change of the files under its root by others. -/
inductive ArtifactEvent
  | call (call : ArtifactCall)
  | others (files : Files)

namespace ArtifactStore

def exec (store : ArtifactStore) : ArtifactEvent → ArtifactStore
  | .call (.publish io writer) => (store.publish io writer).2
  | .call (.acquire key) => (store.acquire key).2
  | .call (.release key) => (store.release key).2
  | .call .gc => store.gc.2
  | .others files => { store with root := store.root.map fun _ => files }

/-- The bytes have the digest and the size that the key says. -/
def Authentic (key : ArtifactKey) (bytes : Bytes) : Prop :=
  digestBytes "artifact" bytes = key.digest ∧ UInt64.ofNat bytes.length = key.size

/-- All objects in memory are durable and authentic. -/
def ObjectsAuthentic (store : ArtifactStore) : Prop :=
  ∀ key object, store.objects[key]? = some object → object.durable = true ∧ Authentic key object.bytes

theorem authentic_finish (writer : ArtifactWriter) : Authentic writer.key writer.finish.bytes := ⟨rfl, rfl⟩

/-! ## One event -/

theorem ObjectsAuthentic.insert_leases {store : ArtifactStore} (h : store.ObjectsAuthentic)
    {key : ArtifactKey} {object : ArtifactObject} (hobject : store.objects[key]? = some object)
    (leases : UInt64) :
    ObjectsAuthentic { store with objects := store.objects.insert key { object with leases } } := by
  intro other found hfound
  obtain ⟨rfl, rfl⟩ | ⟨_, hkept⟩ := ExtTreeMap.getElem?_insert_cases hfound
  · exact h key object hobject
  · exact h other found hkept

theorem objectsAuthentic_exec {store : ArtifactStore} (h : store.ObjectsAuthentic) (event : ArtifactEvent) :
    (store.exec event).ObjectsAuthentic := by
  match event with
  | .others files => exact h
  | .call (.publish io writer) =>
    intro key object hobject
    rw [exec, publish_objects] at hobject
    split_ifs at hobject
    · obtain ⟨rfl, rfl⟩ | ⟨_, hkept⟩ := ExtTreeMap.getElem?_insert_cases hobject
      · exact ⟨rfl, authentic_finish writer⟩
      · exact h key object hkept
    · exact h key object hobject
  | .call (.acquire key) =>
    rw [exec, acquire]
    cases hobject : store.objects[key]? with
    | none => exact h
    | some object => exact h.insert_leases hobject _
  | .call (.release key) =>
    rw [exec, release]
    cases hobject : store.objects[key]?.filter (·.leases ≠ 0) with
    | none => exact h
    | some object => exact h.insert_leases (Option.filter_eq_some_iff.mp hobject).1 _
  | .call .gc =>
    intro key object hobject
    rw [exec, gc_objects] at hobject
    exact h key object (Option.filter_eq_some_iff.mp hobject).1

/-- The event is no collection that removes the object of the key. -/
def Retains (key : ArtifactKey) (store : ArtifactStore) : ArtifactEvent → Prop
  | .call .gc => key ∈ store.objects → key ∈ store.gc.2.objects
  | _ => True

theorem mem_exec {store : ArtifactStore} {key : ArtifactKey} (h : key ∈ store.objects)
    {event : ArtifactEvent} (hretains : Retains key store event) : key ∈ (store.exec event).objects := by
  match event with
  | .others files => exact h
  | .call (.publish io writer) =>
    rw [exec, publish_objects]
    split_ifs
    · exact ExtTreeMap.mem_insert.mpr (.inr h)
    · exact h
  | .call (.acquire other) =>
    rw [exec, acquire]
    cases store.objects[other]? with
    | none => exact h
    | some object => exact ExtTreeMap.mem_insert.mpr (.inr h)
  | .call (.release other) =>
    rw [exec, release]
    cases store.objects[other]?.filter (·.leases ≠ 0) with
    | none => exact h
    | some object => exact ExtTreeMap.mem_insert.mpr (.inr h)
  | .call .gc => exact hretains h

/-! ## Reads -/

theorem read_authentic {store : ArtifactStore} (h : store.ObjectsAuthentic) {openFile : Bool}
    {key : ArtifactKey} {bytes : Bytes} (hread : store.read openFile key = .ok bytes) :
    Authentic key bytes := by
  unfold read at hread
  cases hobject : store.objects[key]?.filter (·.durable) with
  | some object =>
    rw [hobject] at hread
    obtain rfl := Except.ok.inj hread
    exact (h key object (Option.filter_eq_some_iff.mp hobject).1).2
  | none =>
    rw [hobject] at hread
    cases hfile : store.root.bind (·[key.objectPath]?) with
    | none =>
      rw [hfile] at hread
      cases hread
    | some held =>
      rw [hfile] at hread
      simp only at hread
      split_ifs at hread with hopen hcheck
      obtain rfl := Except.ok.inj hread
      push Not at hcheck
      exact ⟨hcheck.2, hcheck.1⟩

theorem read_of_mem {store : ArtifactStore} (h : store.ObjectsAuthentic) {key : ArtifactKey}
    (hmem : key ∈ store.objects) (openFile : Bool) : ∃ bytes, store.read openFile key = .ok bytes := by
  obtain ⟨object, hobject⟩ := ExtTreeMap.exists_of_mem hmem
  refine ⟨object.bytes, ?_⟩
  rw [read, hobject, Option.filter_some, if_pos (h key object hobject).1]

theorem publish_ok {store : ArtifactStore} {io : PublishIo} {writer : ArtifactWriter} {key : ArtifactKey}
    (h : (store.publish io writer).1 = .value (.ok key)) : store.Stores io ∧ key = writer.key := by
  have hstores : store.Stores io :=
    Decidable.byContradiction fun hnot => (publish_of_not_stores hnot writer).2.1 key h
  rw [publish_of_stores hstores, Return.value.injEq, Except.ok.injEq] at h
  exact ⟨hstores, h.symm⟩

theorem mem_of_publish_ok {store : ArtifactStore} {io : PublishIo} {writer : ArtifactWriter}
    {key : ArtifactKey} (h : (store.publish io writer).1 = .value (.ok key)) :
    key ∈ (store.publish io writer).2.objects := by
  obtain ⟨hstores, rfl⟩ := publish_ok h
  rw [publish_objects, if_pos hstores]
  exact ExtTreeMap.mem_insert.mpr (.inl Std.compare_self)

/-! ## Runs -/

theorem objectsAuthentic_run (root : Option Files) (events : List ArtifactEvent) :
    (events.foldl exec { root }).ObjectsAuthentic := by
  have hinit : ObjectsAuthentic { root } := by
    intro key object hobject
    simp at hobject
  exact List.foldlRecOn events exec hinit fun store hstore event _ => objectsAuthentic_exec hstore event

/-- **Reads are authentic** in every state of every run, with or without a root, whatever others do to the
files; and what was published can be read until a collection removes it. -/
theorem reads_authentic (root : Option Files) (events : List ArtifactEvent) :
    (∀ openFile key bytes, (events.foldl exec { root }).read openFile key = .ok bytes →
      Authentic key bytes) ∧
    ∀ before io writer key later, events = before ++ .call (.publish io writer) :: later →
      ((before.foldl exec { root }).publish io writer).1 = .value (.ok key) →
      Runs.Admissible exec (Retains key) ((before.foldl exec { root }).publish io writer).2 later →
      ∀ openFile, ∃ bytes, (events.foldl exec { root }).read openFile key = .ok bytes := by
  refine ⟨fun openFile key bytes => read_authentic (objectsAuthentic_run root events), ?_⟩
  intro before io writer key later hevents hpublished hretains openFile
  refine read_of_mem (objectsAuthentic_run root events) ?_ openFile
  rw [hevents, List.foldl_append, List.foldl_cons]
  have hkept (store : ArtifactStore) (event : ArtifactEvent) (hmem : key ∈ store.objects)
      (hevent : Retains key store event) : key ∈ (store.exec event).objects := mem_exec hmem hevent
  exact Runs.invariant_of_admissible hkept (mem_of_publish_ok hpublished) hretains

/-- A leased artifact under a root whose files are all removed by others, and a collection. -/
theorem reads_authentic_removed :
    let key := (ArtifactWriter.mk [120]).key
    let later : List ArtifactEvent := [.others ∅, .call (.acquire key), .call .gc]
    let store := later.foldl exec (publish { root := some ∅ } {} ⟨[120]⟩).2
    ∃ bytes, store.read true key = .ok bytes ∧ Authentic key bytes := by
  intro key later store
  have hpublished : (publish { root := some ∅ } {} ⟨[120]⟩).1 = .value (.ok key) := by decide +kernel
  have hretains : Runs.Admissible exec (Retains key) (publish { root := some ∅ } {} ⟨[120]⟩).2 later :=
    ⟨trivial, trivial, fun _ => by decide +kernel, trivial⟩
  obtain ⟨hauthentic, hreads⟩ :=
    reads_authentic (some ∅) (.call (.publish {} ⟨[120]⟩) :: later)
  obtain ⟨bytes, hread⟩ := hreads [] {} ⟨[120]⟩ key later rfl hpublished hretains true
  exact ⟨bytes, hread, hauthentic true key bytes hread⟩

end ArtifactStore

end Forge
