import Forge.Base.Checked
import Forge.Lib.Runs
import Forge.Lib.TreeMap

/-!
# The artifact store

`ArtifactWriter` and `ArtifactStore` of `artifact_writer.cpp`, `cas.cpp` and `gc.cpp`: artifacts keyed by
their content, each with a count of leases that keeps it from being collected. A store with a root also
writes every artifact to a file there. As in the state store, the answers of the operating system are
arguments.

The count of leases lives in the entry that `publish` writes, so publishing leased content again sets
it back to zero. `leases_protected` is about runs without such a step.
-/

namespace Forge

open Std (ExtTreeMap TransCmp TransOrd LawfulEqCmp LawfulEqOrd)

/-! ## Keys -/

structure ArtifactKey where
  digest : Digest256
  size : UInt64 := 0
deriving DecidableEq, Repr

namespace ArtifactKey

/-- `operator<=>`: by hexadecimal digest, then by size. -/
instance : Ord ArtifactKey :=
  ⟨compareLex (compareOn fun key => key.digest.hex) (compareOn ArtifactKey.size)⟩

instance : TransOrd ArtifactKey :=
  inferInstanceAs (TransCmp
    (compareLex (compareOn fun key : ArtifactKey => key.digest.hex) (compareOn ArtifactKey.size)))

instance : LawfulEqOrd ArtifactKey where
  eq_of_compare {a b} h := by
    have hboth : compare a.digest.hex b.digest.hex = .eq ∧ compare a.size b.size = .eq := by
      simpa [compare, compareLex_eq_eq, compareOn] using h
    have hdigest := hex_injective (LawfulEqCmp.eq_of_compare hboth.1)
    have hsize := LawfulEqCmp.eq_of_compare hboth.2
    cases a
    cases b
    simp_all

/-- `std::to_string`. -/
def decimal (n : UInt64) : Str := Str.ofLiteral (toString n.toNat)

/-- The file name of `object_path`. -/
def objectPath (key : ArtifactKey) : Str := key.digest.hex ++ "." ++ decimal key.size ++ ".cas"

/-- The file name of `temp_path`. -/
def tempPath (key : ArtifactKey) : Str := key.digest.hex ++ "." ++ decimal key.size ++ ".tmp"

end ArtifactKey

structure ArtifactObject where
  key : ArtifactKey
  bytes : Bytes := []
  leases : UInt64 := 0
  durable : Bool := false
deriving DecidableEq, Repr

structure ArtifactWriter where
  bytes : Bytes := []
deriving DecidableEq, Repr

namespace ArtifactWriter

def append (writer : ArtifactWriter) (data : Bytes) : ArtifactWriter := ⟨writer.bytes ++ data⟩

def key (writer : ArtifactWriter) : ArtifactKey :=
  ⟨digestBytes "artifact" writer.bytes, UInt64.ofNat writer.bytes.length⟩

/-- `finish`; it cannot fail. -/
def finish (writer : ArtifactWriter) : ArtifactObject :=
  { key := writer.key, bytes := writer.bytes, durable := true }

end ArtifactWriter

/-! ## The store -/

/-- The files under the root, by name. -/
abbrev Files := ExtTreeMap Str Bytes

structure ArtifactStore where
  root : Option Files := none
  objects : ExtTreeMap ArtifactKey ArtifactObject := ∅
deriving DecidableEq

/-- Answers to the calls inside `publish`; `writeTemp` is the number of bytes that reached the temporary
file when writing or flushing fails. -/
structure PublishIo where
  createDirectories : Bool := true
  openTemp : Bool := true
  writeTemp : Option Nat := none
  rename : Bool := true
  removeTemp : Bool := true
deriving DecidableEq, Repr

namespace ArtifactStore

def artifactError (message : Str) : Status := Status.error .artifact "cas" message
def ioError (message : Str) : Status := Status.error .io "cas" message

def publish (store : ArtifactStore) (io : PublishIo) (writer : ArtifactWriter) :
    Return ArtifactKey × ArtifactStore :=
  let object := writer.finish
  let key := object.key
  let objects := store.objects.insert key object
  if digestBytes "artifact" object.bytes ≠ key.digest then
    (.value (.error (artifactError "artifact digest mismatch")), store)
  else
    match store.root with
    | none => (.value (.ok key), { store with objects })
    | some files =>
      if !io.createDirectories then
        (.value (.error (ioError "unable to create artifact store")), store)
      else if !io.openTemp then
        (.value (.error (ioError "unable to open artifact temp file")), store)
      else
        match io.writeTemp with
        | some n =>
          (.value (.error (ioError "unable to write artifact temp file")),
            { store with root := some (files.insert key.tempPath (object.bytes.take n)) })
        | none =>
          if io.rename then
            (.value (.ok key),
              ⟨some ((files.erase key.tempPath).insert key.objectPath object.bytes), objects⟩)
          else if io.removeTemp then
            (.value (.error (ioError "unable to publish artifact file")),
              { store with root := some (files.erase key.tempPath) })
          else (.threw, { store with root := some (files.insert key.tempPath object.bytes) })

/-- `read`; `openFile` is whether an existing file can be opened. -/
def read (store : ArtifactStore) (openFile : Bool) (key : ArtifactKey) : Result Bytes :=
  match store.objects[key]?.filter (·.durable) with
  | some object => .ok object.bytes
  | none =>
    match store.root.bind (·[key.objectPath]?) with
    | none => .error (artifactError "artifact not found")
    | some bytes =>
      if !openFile then .error (artifactError "artifact not found")
      else if UInt64.ofNat bytes.length ≠ key.size ∨ digestBytes "artifact" bytes ≠ key.digest then
        .error (artifactError "artifact digest mismatch")
      else .ok bytes

def acquire (store : ArtifactStore) (key : ArtifactKey) : Result Unit × ArtifactStore :=
  match store.objects[key]? with
  | none => (.error (artifactError "lease unknown artifact"), store)
  | some object =>
    (.ok (), { store with objects := store.objects.insert key { object with leases := object.leases + 1 } })

def release (store : ArtifactStore) (key : ArtifactKey) : Result Unit × ArtifactStore :=
  match store.objects[key]?.filter (·.leases ≠ 0) with
  | none => (.error (artifactError "release invalid artifact lease"), store)
  | some object =>
    (.ok (), { store with objects := store.objects.insert key { object with leases := object.leases - 1 } })

def contains (store : ArtifactStore) (key : ArtifactKey) : Bool :=
  key ∈ store.objects ∨ (store.root.bind (·[key.objectPath]?)).isSome

/-- `gc`; the number of objects removed and the store without them. -/
def gc (store : ArtifactStore) : Nat × ArtifactStore :=
  ((store.objects.filter fun _ object => object.leases = 0).size,
    { store with objects := store.objects.filter fun _ object => object.leases ≠ 0 })

/-! ## What the operations do to the objects -/

/-- The answers with which `publish` stores the artifact. -/
def Stores (store : ArtifactStore) (io : PublishIo) : Prop :=
  store.root = none ∨ (io.createDirectories ∧ io.openTemp ∧ io.writeTemp = none ∧ io.rename)

instance (store : ArtifactStore) (io : PublishIo) : Decidable (store.Stores io) :=
  inferInstanceAs (Decidable (_ ∨ _))

theorem finish_digest (writer : ArtifactWriter) :
    ¬ digestBytes "artifact" writer.finish.bytes ≠ writer.key.digest := not_not.mpr rfl

theorem publish_of_stores {store : ArtifactStore} {io : PublishIo} (h : store.Stores io)
    (writer : ArtifactWriter) :
    store.publish io writer =
      (.value (.ok writer.key),
        ⟨store.root.map fun files =>
          (files.erase writer.key.tempPath).insert writer.key.objectPath writer.bytes,
          store.objects.insert writer.key writer.finish⟩) := by
  obtain ⟨root, objects⟩ := store
  have hkey : writer.finish.key = writer.key := rfl
  simp only [publish, hkey, if_neg (finish_digest writer)]
  cases root with
  | none => rfl
  | some files =>
    rcases h with hroot | ⟨hdirs, hopen, hwrite, hrename⟩
    · cases hroot
    · simp only [hdirs, hopen, hwrite, hrename]
      rfl

theorem publish_of_not_stores {store : ArtifactStore} {io : PublishIo} (h : ¬ store.Stores io)
    (writer : ArtifactWriter) :
    (store.publish io writer).2.objects = store.objects ∧
      (∀ key, (store.publish io writer).1 ≠ .value (.ok key)) ∧
      ∀ name, writer.key.tempPath ≠ name →
        (store.publish io writer).2.root.bind (·[name]?) = store.root.bind (·[name]?) := by
  obtain ⟨root, objects⟩ := store
  obtain ⟨hroot, hfails⟩ := not_or.mp h
  obtain ⟨files, rfl⟩ := Option.ne_none_iff_exists'.mp hroot
  have hkey : writer.finish.key = writer.key := rfl
  simp only [publish, hkey, if_neg (finish_digest writer)]
  cases hwrite : io.writeTemp with
  | some n =>
    simp only
    split_ifs
    · exact ⟨rfl, nofun, fun _ _ => rfl⟩
    · exact ⟨rfl, nofun, fun _ _ => rfl⟩
    · exact ⟨rfl, nofun, fun _ htemp => Std.ExtTreeMap.getElem?_insert_of_ne htemp⟩
  | none =>
    simp only
    split_ifs with hdirs hopen hrename
    · exact ⟨rfl, nofun, fun _ _ => rfl⟩
    · exact ⟨rfl, nofun, fun _ _ => rfl⟩
    · exact absurd ⟨by simpa using hdirs, by simpa using hopen, hwrite, hrename⟩ hfails
    · exact ⟨rfl, nofun, fun _ htemp => Std.ExtTreeMap.getElem?_erase_of_ne htemp⟩
    · exact ⟨rfl, nofun, fun _ htemp => Std.ExtTreeMap.getElem?_insert_of_ne htemp⟩

theorem publish_objects (store : ArtifactStore) (io : PublishIo) (writer : ArtifactWriter) :
    (store.publish io writer).2.objects =
      if store.Stores io then store.objects.insert writer.key writer.finish else store.objects := by
  split_ifs with hstores
  · rw [publish_of_stores hstores]
  · exact (publish_of_not_stores hstores writer).1

theorem publish_of_root_none {store : ArtifactStore} (hroot : store.root = none) (io : PublishIo)
    (writer : ArtifactWriter) :
    store.publish io writer =
      (.value (.ok writer.key), { store with objects := store.objects.insert writer.key writer.finish }) := by
  rw [publish_of_stores (.inl hroot), hroot]
  rfl

theorem gc_objects (store : ArtifactStore) (key : ArtifactKey) :
    store.gc.2.objects[key]? = store.objects[key]?.filter (·.leases ≠ 0) := by
  simp [gc]

end ArtifactStore

/-! ## Histories of leases -/

/-- The store together with the keys of the successful `acquire` and `release` calls. -/
structure ArtifactHistory where
  store : ArtifactStore := {}
  acquired : List ArtifactKey := []
  released : List ArtifactKey := []
deriving DecidableEq

inductive ArtifactCall
  | publish (io : PublishIo) (writer : ArtifactWriter)
  | acquire (key : ArtifactKey)
  | release (key : ArtifactKey)
  | gc
deriving DecidableEq

namespace ArtifactHistory

def step (h : ArtifactHistory) : ArtifactCall → ArtifactHistory
  | .publish io writer => { h with store := (h.store.publish io writer).2 }
  | .acquire key =>
    match h.store.acquire key with
    | (.ok (), store) => { h with store, acquired := h.acquired ++ [key] }
    | (.error _, store) => { h with store }
  | .release key =>
    match h.store.release key with
    | (.ok (), store) => { h with store, released := h.released ++ [key] }
    | (.error _, store) => { h with store }
  | .gc => { h with store := h.store.gc.2 }

/-- Leases of a key acquired and not yet released. -/
def outstanding (h : ArtifactHistory) (key : ArtifactKey) : Nat :=
  h.acquired.count key - h.released.count key

/-- The store after `n` calls of `release`. -/
def afterReleases (store : ArtifactStore) (key : ArtifactKey) (n : Nat) : ArtifactStore :=
  (fun store => (store.release key).2)^[n] store

/-- What holding `n` leases of a key means: it survives `gc`, it can be read, and it can be released
`n` times and not more. -/
structure Protects (store : ArtifactStore) (key : ArtifactKey) (n : Nat) : Prop where
  survives_gc : key ∈ store.gc.2.objects
  contains : store.contains key = true
  read : ∀ openFile, ∃ bytes, store.read openFile key = .ok bytes
  releases : ∀ m < n, ((afterReleases store key m).release key).1 = .ok ()
  no_more : ∃ status, ((afterReleases store key n).release key).1 = .error status

def LeasesProtected (h : ArtifactHistory) : Prop :=
  ∀ key, 0 < h.outstanding key → Protects h.store key (h.outstanding key)

/-- The calls after which the counts in the store are still those of the callers: content that is
leased is not published again, and the 64-bit count has room for a new lease. -/
def Keeps (h : ArtifactHistory) : ArtifactCall → Prop
  | .publish io writer => h.outstanding writer.key = 0 ∨ ¬ h.store.Stores io
  | .acquire key => h.outstanding key < 2 ^ 64 - 1
  | _ => True

instance (h : ArtifactHistory) : DecidablePred h.Keeps
  | .publish _ _ => inferInstanceAs (Decidable (_ ∨ _))
  | .acquire _ => inferInstanceAs (Decidable (_ < _))
  | .release _ => inferInstanceAs (Decidable True)
  | .gc => inferInstanceAs (Decidable True)

/-- What the entry of a key says when `n` leases of it are outstanding. -/
def EntryOk (n : Nat) : Option ArtifactObject → Prop
  | none => n = 0
  | some object => object.leases.toNat = n ∧ object.durable = true

structure KeyInv (h : ArtifactHistory) (key : ArtifactKey) : Prop where
  released_le : h.released.count key ≤ h.acquired.count key
  entry : EntryOk (h.outstanding key) h.store.objects[key]?

def Inv (h : ArtifactHistory) : Prop := ∀ key, KeyInv h key

/-! ## One step -/

theorem inv_publish {h : ArtifactHistory} (hinv : h.Inv) {io : PublishIo} {writer : ArtifactWriter}
    (hkeeps : h.Keeps (.publish io writer)) : (h.step (.publish io writer)).Inv := by
  intro key
  obtain ⟨hle, hentry⟩ := hinv key
  refine ⟨hle, ?_⟩
  show EntryOk (h.outstanding key) (h.store.publish io writer).2.objects[key]?
  rw [ArtifactStore.publish_objects]
  split_ifs with hstores
  · rw [ExtTreeMap.getElem?_insert]
    split_ifs with hkey
    · obtain rfl := Std.compare_eq_iff_eq.mp hkey
      rw [hkeeps.resolve_right (not_not.mpr hstores)]
      exact ⟨rfl, rfl⟩
    · exact hentry
  · exact hentry

theorem inv_acquire {h : ArtifactHistory} (hinv : h.Inv) {key : ArtifactKey}
    (hkeeps : h.Keeps (.acquire key)) : (h.step (.acquire key)).Inv := by
  obtain ⟨hle, hentry⟩ := hinv key
  simp only [step, ArtifactStore.acquire]
  cases hobject : h.store.objects[key]? with
  | none => exact hinv
  | some object =>
    rw [hobject] at hentry
    intro other
    obtain ⟨hotherLe, hotherEntry⟩ := hinv other
    by_cases hkey : key = other
    · subst hkey
      have hout : ({ h with acquired := h.acquired ++ [key] } : ArtifactHistory).outstanding key =
          h.outstanding key + 1 := by
        simp only [outstanding, List.count_append, List.count_singleton_self]
        omega
      refine ⟨by simp only [List.count_append]; omega, ?_⟩
      rw [ExtTreeMap.getElem?_insert_self]
      refine ⟨?_, hentry.2⟩
      have hroom : h.outstanding key < 2 ^ 64 - 1 := hkeeps
      have hleases := hentry.1
      show (object.leases + 1).toNat = ({ h with acquired := h.acquired ++ [key] } : ArtifactHistory).outstanding key
      rw [hout, UInt64.toNat_add, hleases, UInt64.toNat_one, Nat.mod_eq_of_lt (by omega)]
    · refine ⟨by simpa [List.count_append, hkey] using hotherLe, ?_⟩
      rw [ExtTreeMap.getElem?_insert_of_ne hkey]
      simpa [outstanding, List.count_append, hkey] using hotherEntry

theorem inv_release {h : ArtifactHistory} (hinv : h.Inv) (key : ArtifactKey) :
    (h.step (.release key)).Inv := by
  obtain ⟨hle, hentry⟩ := hinv key
  simp only [step, ArtifactStore.release]
  cases hobject : h.store.objects[key]?.filter (·.leases ≠ 0) with
  | none => exact hinv
  | some object =>
    obtain ⟨hget, hleases⟩ := Option.filter_eq_some_iff.mp hobject
    rw [hget] at hentry
    have hpos : object.leases.toNat ≠ 0 := by
      intro hzero
      exact (of_decide_eq_true hleases) (UInt64.toNat_inj.mp hzero)
    intro other
    obtain ⟨hotherLe, hotherEntry⟩ := hinv other
    by_cases hkey : key = other
    · subst hkey
      have hcount := hentry.1
      simp only [outstanding] at hcount
      refine ⟨by simp only [List.count_append, List.count_singleton_self]; omega, ?_⟩
      rw [ExtTreeMap.getElem?_insert_self]
      refine ⟨?_, hentry.2⟩
      have hone : (1 : UInt64) ≤ object.leases := by
        rw [UInt64.le_iff_toNat_le, UInt64.toNat_one]
        omega
      simp only [outstanding, List.count_append, List.count_singleton_self]
      rw [UInt64.toNat_sub_of_le _ _ hone, UInt64.toNat_one]
      omega
    · refine ⟨?_, ?_⟩
      · simpa [List.count_append, hkey] using hotherLe
      · rw [ExtTreeMap.getElem?_insert_of_ne hkey]
        simpa [outstanding, List.count_append, hkey] using hotherEntry

theorem inv_gc {h : ArtifactHistory} (hinv : h.Inv) : (h.step .gc).Inv := by
  intro key
  obtain ⟨hle, hentry⟩ := hinv key
  refine ⟨hle, ?_⟩
  show EntryOk (h.outstanding key) h.store.gc.2.objects[key]?
  rw [ArtifactStore.gc_objects]
  cases hobject : h.store.objects[key]? with
  | none =>
    rw [hobject] at hentry
    exact hentry
  | some object =>
    rw [hobject] at hentry
    by_cases hzero : object.leases = 0
    · have hnone : h.outstanding key = 0 := by
        rw [← hentry.1, hzero]
        rfl
      simpa [EntryOk, Option.filter_some, hzero] using hnone
    · simpa [EntryOk, Option.filter_some, hzero] using hentry

/-! ## What the invariant gives -/

theorem afterReleases_objects {store : ArtifactStore} {key : ArtifactKey} {object : ArtifactObject}
    (hobject : store.objects[key]? = some object) (n : Nat) (hn : n ≤ object.leases.toNat) :
    ∃ left, (afterReleases store key n).objects[key]? = some left ∧
      left.leases.toNat = object.leases.toNat - n := by
  induction n with
  | zero => exact ⟨object, hobject, by omega⟩
  | succ n ih =>
    obtain ⟨left, hleft, hcount⟩ := ih (by omega)
    have hne : left.leases ≠ 0 := by
      intro hzero
      rw [hzero, UInt64.toNat_zero] at hcount
      omega
    have hone : (1 : UInt64) ≤ left.leases := by
      rw [UInt64.le_iff_toNat_le, UInt64.toNat_one]
      omega
    refine ⟨{ left with leases := left.leases - 1 }, ?_, ?_⟩
    · rw [afterReleases, Function.iterate_succ_apply', ← afterReleases, ArtifactStore.release, hleft]
      simp [Option.filter_some, hne]
    · show (left.leases - 1).toNat = _
      rw [UInt64.toNat_sub_of_le _ _ hone, UInt64.toNat_one]
      omega

theorem release_of_pos {store : ArtifactStore} {key : ArtifactKey} {object : ArtifactObject}
    (hobject : store.objects[key]? = some object) :
    (store.release key).1 = if object.leases = 0 then
      .error (ArtifactStore.artifactError "release invalid artifact lease") else .ok () := by
  rw [ArtifactStore.release, hobject]
  by_cases hzero : object.leases = 0
  · simp [Option.filter_some, hzero]
  · simp [Option.filter_some, hzero]

theorem Inv.leasesProtected {h : ArtifactHistory} (hinv : h.Inv) : h.LeasesProtected := by
  intro key hpos
  have hentry := (hinv key).entry
  cases hobject : h.store.objects[key]? with
  | none =>
    rw [hobject] at hentry
    have hzero : h.outstanding key = 0 := hentry
    omega
  | some object =>
    rw [hobject] at hentry
    obtain ⟨hcount, hdurable⟩ := hentry
    have hne : object.leases ≠ 0 := by
      intro hzero
      rw [hzero, UInt64.toNat_zero] at hcount
      omega
    refine ⟨?_, ?_, fun openFile => ⟨object.bytes, ?_⟩, fun m hm => ?_, ?_⟩
    · rw [ExtTreeMap.mem_iff_isSome_getElem?, ArtifactStore.gc_objects, hobject]
      simp [Option.filter_some, hne]
    · simp [ArtifactStore.contains, ExtTreeMap.mem_of_getElem?_eq_some hobject]
    · simp [ArtifactStore.read, Option.filter_some, hobject, hdurable]
    · obtain ⟨left, hleft, hleases⟩ := afterReleases_objects hobject m (by omega)
      rw [release_of_pos hleft, if_neg]
      intro hzero
      rw [hzero, UInt64.toNat_zero] at hleases
      omega
    · obtain ⟨left, hleft, hleases⟩ := afterReleases_objects hobject (h.outstanding key) (by omega)
      rw [release_of_pos hleft, if_pos]
      · exact ⟨_, rfl⟩
      · apply UInt64.toNat_inj.mp
        rw [UInt64.toNat_zero]
        omega

/-- **Leased artifacts survive collection**, in every state of every run, from an empty store with or
without a root, that does not publish leased content again. -/
theorem leases_protected (root : Option Files) (calls : List ArtifactCall)
    (hkeeps : Runs.Admissible step Keeps { store := { root } } calls) {reached : List ArtifactCall}
    (hreached : reached <+: calls) :
    (reached.foldl step { store := { root } }).LeasesProtected := by
  have hinit : Inv { store := { root } } := by
    intro key
    exact ⟨by simp, by simp [EntryOk, outstanding]⟩
  have hinv : (reached.foldl step { store := { root } }).Inv := by
    refine Runs.invariant_of_isPrefix (fun h call hinv hcall => ?_) hinit hkeeps hreached
    cases call with
    | publish io writer => exact inv_publish hinv hcall
    | acquire key => exact inv_acquire hinv hcall
    | release key => exact inv_release hinv key
    | gc => exact inv_gc hinv
  exact hinv.leasesProtected

/-- One artifact leased twice and released once, with a collection and the publication of another
artifact in between. -/
theorem leases_protected_twice :
    let key := (ArtifactWriter.mk [120]).key
    let calls : List ArtifactCall := [.publish {} ⟨[120]⟩, .acquire key, .acquire key, .gc,
      .publish {} ⟨[121]⟩, .release key]
    Runs.Admissible step Keeps {} calls ∧ Protects (calls.foldl step {}).store key 1 := by
  intro key calls
  have hkeeps : Runs.Admissible step Keeps {} calls := by decide +kernel
  have hone : (calls.foldl step {}).outstanding key = 1 := by decide +kernel
  have hprotects := leases_protected none calls hkeeps List.prefix_rfl key
    (by rw [show _ = 1 from hone]; exact Nat.one_pos)
  rw [show _ = 1 from hone] at hprotects
  exact ⟨hkeeps, hprotects⟩

/-- An artifact published again while it is leased is no longer protected. -/
theorem republish_drops_lease :
    ¬ ([.publish {} ⟨[120]⟩, .acquire (ArtifactWriter.mk [120]).key, .publish {} ⟨[120]⟩].foldl step
      {}).LeasesProtected := by
  intro h
  have hgone := (h (ArtifactWriter.mk [120]).key (by decide +kernel)).survives_gc
  exact absurd hgone (by decide +kernel)

end ArtifactHistory

end Forge
