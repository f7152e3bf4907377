import Forge.Base.Checked
import Forge.Base.Ids
import Forge.Lib.Runs
import Forge.Lib.TreeMap

/-!
# Worker leases

`ExecutorManager` of `executor_manager.cpp`. It keeps one attempt generation per job: `lease` advances
it, `validate_current` compares with it, and `revoke` erases it. An executor is a state with the two
virtual functions of the class; the manager holds a reference to one, so its state is part of the
manager's.

After an erase the next lease of the job starts at the first generation again. So a lease revoked
earlier can become current once more, and revoking an old lease revokes the current one.
`validates_iff_current` is about runs without such steps.
-/

namespace Forge

open Std (ExtTreeMap ExtTreeSet)

structure WorkerLease where
  id : LeaseId
  job : JobId
  attempt : Generation
  active : Bool := true
deriving DecidableEq, Repr

structure JobSpec where
  job : JobId
  node : NodeId
  nodeGeneration : Generation
  actionKey : Digest256
  declaredInputs : List Str := []
deriving DecidableEq, Repr

structure WorkerResult where
  lease : LeaseId
  attempt : Generation
  success : Bool := false
  artifacts : List Bytes := []
  discoveredEdges : List (NodeId × NodeId) := []
  diagnostic : Str := []
deriving DecidableEq, Repr

/-- The virtual functions of `Executor`, over the state `σ` of the object. -/
structure Executor (σ : Type) where
  run : σ → WorkerLease → JobSpec → Result WorkerResult × σ
  cancel : σ → WorkerLease → σ

/-! ## The mock executor -/

structure DeterministicMockExecutor where
  failures : ExtTreeMap UInt64 Str := ∅
  cancelled : ExtTreeSet UInt64 := ∅
deriving DecidableEq

namespace DeterministicMockExecutor

def run (mock : DeterministicMockExecutor) (lease : WorkerLease) (spec : JobSpec) : Result WorkerResult :=
  if lease.id.value ∈ mock.cancelled then
    .error (Status.error .cancelled "mock-executor" "lease cancelled")
  else
    match mock.failures[spec.node.value]? with
    | some diagnostic => .ok { lease := lease.id, attempt := lease.attempt, diagnostic }
    | none =>
      let payload := spec.actionKey.hex ++ [0] ++ List.replicate spec.declaredInputs.length 0x42
      .ok { lease := lease.id, attempt := lease.attempt, success := true, artifacts := [payload] }

def setFailure (mock : DeterministicMockExecutor) (node : NodeId) (message : Str) :
    DeterministicMockExecutor :=
  { mock with failures := mock.failures.insert node.value message }

def executor : Executor DeterministicMockExecutor where
  run mock lease spec := (mock.run lease spec, mock)
  cancel mock lease := { mock with cancelled := mock.cancelled.insert lease.id.value }

end DeterministicMockExecutor

/-! ## The manager -/

structure ExecutorManager (σ : Type) where
  executor : σ
  nextLease : UInt64 := 1
  currentAttempts : ExtTreeMap UInt64 Generation := ∅

namespace ExecutorManager

variable {σ : Type}

def lease (manager : ExecutorManager σ) (job : JobId) : WorkerLease × ExecutorManager σ :=
  -- `current_attempts_[job.value]` is a default generation for a new job
  let attempt := (manager.currentAttempts.getD job.value {}).next
  (⟨⟨manager.nextLease⟩, job, attempt, true⟩,
    { manager with
      nextLease := manager.nextLease + 1
      currentAttempts := manager.currentAttempts.insert job.value attempt })

def validateCurrent (manager : ExecutorManager σ) (lease : WorkerLease) (result : WorkerResult) :
    Result Unit :=
  if !lease.active ∨ result.lease ≠ lease.id ∨ result.attempt ≠ lease.attempt then
    .error (Status.error .executor "executor-manager" "stale worker lease")
  else if manager.currentAttempts[lease.job.value]? ≠ some lease.attempt then
    .error (Status.error .executor "executor-manager" "attempt generation is not current")
  else .ok ()

def run (ex : Executor σ) (manager : ExecutorManager σ) (lease : WorkerLease) (spec : JobSpec) :
    Result WorkerResult × ExecutorManager σ :=
  match manager.validateCurrent lease { lease := lease.id, attempt := lease.attempt } with
  | .error status => (.error status, manager)
  | .ok () =>
    let (result, executor) := ex.run manager.executor lease spec
    (result, { manager with executor })

def revoke (ex : Executor σ) (manager : ExecutorManager σ) (lease : WorkerLease) : ExecutorManager σ :=
  { manager with
    executor := ex.cancel manager.executor lease
    currentAttempts := manager.currentAttempts.erase lease.job.value }

theorem validateCurrent_ok_iff (manager : ExecutorManager σ) {lease : WorkerLease} {result : WorkerResult}
    (hlease : result.lease = lease.id) (hattempt : result.attempt = lease.attempt) :
    manager.validateCurrent lease result = .ok () ↔
      lease.active = true ∧ manager.currentAttempts[lease.job.value]? = some lease.attempt := by
  unfold validateCurrent
  by_cases hactive : lease.active
  · by_cases hcurrent : manager.currentAttempts[lease.job.value]? = some lease.attempt
    · simp [hlease, hattempt, hactive, hcurrent]
    · simp [hlease, hattempt, hactive, hcurrent]
  · simp [hactive]

end ExecutorManager

/-! ## Histories of leases -/

/-- The manager together with what its callers did: the leases issued, in order, and those revoked
since they were issued. -/
structure LeaseHistory (σ : Type) where
  manager : ExecutorManager σ
  issued : List WorkerLease := []
  revoked : List WorkerLease := []

inductive LeaseCall
  | lease (job : JobId)
  | revoke (lease : WorkerLease)
deriving DecidableEq, Repr

namespace LeaseHistory

variable {σ : Type}

def step (ex : Executor σ) (h : LeaseHistory σ) : LeaseCall → LeaseHistory σ
  | .lease job =>
    let (lease, manager) := h.manager.lease job
    ⟨manager, h.issued ++ [lease], h.revoked.filter (· ≠ lease)⟩
  | .revoke lease => ⟨h.manager.revoke ex lease, h.issued, h.revoked ++ [lease]⟩

/-- The leases issued for a job, in order. -/
def leasesOf (h : LeaseHistory σ) (job : JobId) : List WorkerLease := h.issued.filter (·.job = job)

/-- The most recently issued lease of its job, and not revoked. -/
def Current (h : LeaseHistory σ) (lease : WorkerLease) : Prop :=
  (h.leasesOf lease.job).getLast? = some lease ∧ lease ∉ h.revoked

instance (h : LeaseHistory σ) (lease : WorkerLease) : Decidable (h.Current lease) :=
  inferInstanceAs (Decidable (_ ∧ _))

/-- Exactly the current leases validate. -/
def ValidatesCurrent (h : LeaseHistory σ) : Prop :=
  ∀ lease ∈ h.issued, ∀ result : WorkerResult, result.lease = lease.id → result.attempt = lease.attempt →
    (h.manager.validateCurrent lease result = .ok () ↔ h.Current lease)

/-- The calls after which the attempt generations still tell the leases apart: a job is not leased
again once its entry was erased, nor `2 ^ 64` times; and only the latest lease of a job is revoked,
unless the entry is gone already. -/
def Keeps (h : LeaseHistory σ) : LeaseCall → Prop
  | .lease job =>
    (h.leasesOf job = [] ∨ job.value ∈ h.manager.currentAttempts) ∧ (h.leasesOf job).length < 2 ^ 64
  | .revoke lease =>
    (h.leasesOf lease.job).getLast? = some lease ∨ lease.job.value ∉ h.manager.currentAttempts

instance (h : LeaseHistory σ) : DecidablePred h.Keeps
  | .lease _ => inferInstanceAs (Decidable ((_ ∨ _) ∧ _))
  | .revoke _ => inferInstanceAs (Decidable (_ ∨ _))

/-! ## The invariant -/

/-- What the entry of a job says about its last lease. -/
def EntryOk (revoked : List WorkerLease) (leases : List WorkerLease) : Option Generation → Prop
  | none => ∀ lease, leases.getLast? = some lease → lease ∈ revoked
  | some attempt => ∃ lease, leases.getLast? = some lease ∧ lease.attempt = attempt ∧ lease ∉ revoked

/-- The leases of a job are numbered from the second generation on, and its entry is that of the last
one unless that was revoked. -/
structure JobInv (h : LeaseHistory σ) (job : JobId) : Prop where
  numbered : ∀ (i : Nat) (lease : WorkerLease), (h.leasesOf job)[i]? = some lease →
    lease.active = true ∧ lease.attempt.value = UInt64.ofNat (i + 2)
  length_le : (h.leasesOf job).length ≤ 2 ^ 64
  entry : EntryOk h.revoked (h.leasesOf job) h.manager.currentAttempts[job.value]?

def Inv (h : LeaseHistory σ) : Prop := ∀ job, JobInv h job

theorem ofNat_add_two_inj {i j : Nat} (hi : i < 2 ^ 64) (hj : j < 2 ^ 64)
    (h : UInt64.ofNat (i + 2) = UInt64.ofNat (j + 2)) : i = j := by
  have hmod := congrArg UInt64.toNat h
  rw [UInt64.toNat_ofNat', UInt64.toNat_ofNat'] at hmod
  omega

theorem Inv.validatesCurrent {h : LeaseHistory σ} (hinv : h.Inv) : h.ValidatesCurrent := by
  intro lease hmem result hlease hattempt
  obtain ⟨hnumbered, hlength, hentry⟩ := hinv lease.job
  have hin : lease ∈ h.leasesOf lease.job := List.mem_filter.mpr ⟨hmem, by simp⟩
  obtain ⟨i, hi, hget⟩ := List.mem_iff_getElem.mp hin
  obtain ⟨hactive, hvalue⟩ := hnumbered i lease (by rw [List.getElem?_eq_getElem hi, hget])
  rw [ExecutorManager.validateCurrent_ok_iff _ hlease hattempt]
  simp only [hactive, true_and, Current]
  cases hcurrent : h.manager.currentAttempts[lease.job.value]? with
  | none =>
    rw [hcurrent] at hentry
    exact ⟨(nomatch ·), fun ⟨hlast, hnot⟩ => absurd (hentry lease hlast) hnot⟩
  | some attempt =>
    rw [hcurrent] at hentry
    obtain ⟨last, hlast, rfl, hnot⟩ := hentry
    rw [Option.some.injEq, hlast, Option.some.injEq]
    constructor
    · -- attempts of different leases of one job differ
      intro hsame
      rw [List.getLast?_eq_getElem?] at hlast
      obtain ⟨_, hlastValue⟩ := hnumbered _ last hlast
      have hlt : (h.leasesOf lease.job).length - 1 < (h.leasesOf lease.job).length := by omega
      have hidx := ofNat_add_two_inj (i := i) (j := (h.leasesOf lease.job).length - 1) (by omega)
        (by omega) (by rw [← hvalue, ← hlastValue, hsame])
      subst hidx
      rw [List.getElem?_eq_getElem hi, hget] at hlast
      cases hlast
      exact ⟨rfl, hnot⟩
    · rintro ⟨rfl, _⟩
      rfl

theorem inv_init (executor : σ) : Inv { manager := { executor } } := by
  intro job
  refine ⟨by simp [leasesOf], by simp [leasesOf], ?_⟩
  simp [EntryOk, leasesOf]

theorem leasesOf_lease (ex : Executor σ) (h : LeaseHistory σ) (job other : JobId) :
    (h.step ex (.lease job)).leasesOf other =
      h.leasesOf other ++ if job = other then [(h.manager.lease job).1] else [] := by
  simp only [step, leasesOf, List.filter_append, List.filter_singleton]
  congr 1
  by_cases hjob : job = other
  · simp [hjob, ExecutorManager.lease]
  · simp [hjob, ExecutorManager.lease]

theorem value_ne_of_ne {job other : JobId} (h : job ≠ other) : job.value ≠ other.value :=
  fun heq => h (by cases job; cases other; simpa using heq)

theorem JobInv.attempt_lease {h : LeaseHistory σ} {job : JobId} (hinv : JobInv h job)
    (hkeeps : h.Keeps (.lease job)) :
    (h.manager.lease job).1.attempt.value = UInt64.ofNat ((h.leasesOf job).length + 2) := by
  obtain ⟨hnumbered, hlength, hentry⟩ := hinv
  show (h.manager.currentAttempts.getD job.value {}).value + 1 = _
  rw [ExtTreeMap.getD_eq_getD_getElem?]
  cases hcurrent : h.manager.currentAttempts[job.value]? with
  | none =>
    have hnil : h.leasesOf job = [] := by
      exact hkeeps.1.resolve_right (ExtTreeMap.not_mem_iff.mpr hcurrent)
    rw [hnil]
    rfl
  | some attempt =>
    rw [hcurrent] at hentry
    obtain ⟨last, hlast, rfl, _⟩ := hentry
    have hpos : 0 < (h.leasesOf job).length := by
      refine List.length_pos_of_ne_nil fun hnil => ?_
      simp [hnil] at hlast
    rw [List.getLast?_eq_getElem?] at hlast
    obtain ⟨_, hvalue⟩ := hnumbered _ last hlast
    rw [Option.getD_some, hvalue, show (1 : UInt64) = UInt64.ofNat 1 from rfl, ← UInt64.ofNat_add]
    congr 1
    omega

theorem JobInv.lease_same (ex : Executor σ) {h : LeaseHistory σ} {job : JobId} (hinv : JobInv h job)
    (hkeeps : h.Keeps (.lease job)) : JobInv (h.step ex (.lease job)) job := by
  have hattempt := hinv.attempt_lease hkeeps
  have hroom := hkeeps.2
  have hleases := leasesOf_lease ex h job job
  rw [if_pos rfl] at hleases
  refine ⟨fun i lease hget => ?_, ?_, ?_⟩
  · rw [hleases] at hget
    rcases Nat.lt_or_ge i (h.leasesOf job).length with hi | hi
    · rw [List.getElem?_append_left hi] at hget
      exact hinv.numbered i lease hget
    · rw [List.getElem?_append_right hi, List.getElem?_singleton] at hget
      split_ifs at hget with hzero
      cases hget
      have hi' : i = (h.leasesOf job).length := by omega
      rw [hi']
      exact ⟨rfl, hattempt⟩
  · rw [hleases, List.length_append, List.length_singleton]
    omega
  · rw [hleases]
    have hget : (h.step ex (.lease job)).manager.currentAttempts[job.value]? =
        some (h.manager.lease job).1.attempt := by
      simp [step, ExecutorManager.lease]
    rw [hget]
    exact ⟨_, by simp, rfl, by simp [step]⟩

theorem JobInv.lease_other (ex : Executor σ) {h : LeaseHistory σ} {job other : JobId}
    (hinv : JobInv h other) (hjob : job ≠ other) : JobInv (h.step ex (.lease job)) other := by
  obtain ⟨hnumbered, hlength, hentry⟩ := hinv
  have hleases := leasesOf_lease ex h job other
  rw [if_neg hjob, List.append_nil] at hleases
  refine ⟨by rwa [hleases], by rwa [hleases], ?_⟩
  have hget : (h.step ex (.lease job)).manager.currentAttempts[other.value]? =
      h.manager.currentAttempts[other.value]? := by
    simp [step, ExecutorManager.lease, ExtTreeMap.getElem?_insert, value_ne_of_ne hjob]
  -- the leases of other jobs are revoked as before
  have hrevoked (lease : WorkerLease) (hlast : (h.leasesOf other).getLast? = some lease) :
      lease ∈ (h.step ex (.lease job)).revoked ↔ lease ∈ h.revoked := by
    have hother : lease.job = other := by
      have hmem := List.mem_of_getLast? hlast
      simpa using (List.mem_filter.mp hmem).2
    have hne : lease ≠ (h.manager.lease job).1 := by
      intro heq
      rw [heq] at hother
      exact hjob hother
    simp [step, List.mem_filter, hne]
  rw [hleases, hget]
  cases hcurrent : h.manager.currentAttempts[other.value]? with
  | none =>
    rw [hcurrent] at hentry
    exact fun lease hlast => (hrevoked lease hlast).mpr (hentry lease hlast)
  | some attempt =>
    rw [hcurrent] at hentry
    obtain ⟨last, hlast, hattempt, hnot⟩ := hentry
    exact ⟨last, hlast, hattempt, fun hmem => hnot ((hrevoked last hlast).mp hmem)⟩

theorem inv_lease (ex : Executor σ) {h : LeaseHistory σ} (hinv : h.Inv) {job : JobId}
    (hkeeps : h.Keeps (.lease job)) : (h.step ex (.lease job)).Inv := by
  intro other
  by_cases hjob : job = other
  · rw [← hjob]
    exact (hinv job).lease_same ex hkeeps
  · exact (hinv other).lease_other ex hjob

theorem inv_revoke (ex : Executor σ) {h : LeaseHistory σ} (hinv : h.Inv) {lease : WorkerLease}
    (hkeeps : h.Keeps (.revoke lease)) : (h.step ex (.revoke lease)).Inv := by
  intro other
  obtain ⟨hnumbered, hlength, hentry⟩ := hinv other
  refine ⟨hnumbered, hlength, ?_⟩
  show EntryOk (h.revoked ++ [lease]) (h.leasesOf other)
    (h.manager.currentAttempts.erase lease.job.value)[other.value]?
  by_cases hjob : lease.job = other
  · subst hjob
    rw [ExtTreeMap.getElem?_erase_self]
    intro last hlast
    rcases hkeeps with hlatest | hgone
    · obtain rfl : lease = last := by simpa [hlatest] using hlast
      simp
    · rw [ExtTreeMap.getElem?_eq_none hgone] at hentry
      exact List.mem_append_left _ (hentry last hlast)
  · rw [ExtTreeMap.getElem?_erase_of_ne (value_ne_of_ne hjob)]
    cases hcurrent : h.manager.currentAttempts[other.value]? with
    | none =>
      rw [hcurrent] at hentry
      exact fun last hlast => List.mem_append_left _ (hentry last hlast)
    | some attempt =>
      rw [hcurrent] at hentry
      obtain ⟨last, hlast, hattempt, hnot⟩ := hentry
      have hother : last.job = other := by
        have hmem := List.mem_of_getLast? hlast
        simpa using (List.mem_filter.mp hmem).2
      refine ⟨last, hlast, hattempt, fun hmem => ?_⟩
      rcases List.mem_append.mp hmem with hmem | hmem
      · exact hnot hmem
      · rw [List.mem_singleton.mp hmem] at hother
        exact hjob hother

/-- **Only the current lease of a job validates**, in every state of every run whose calls keep the
attempt generations apart. -/
theorem validates_iff_current (ex : Executor σ) (executor : σ) (calls : List LeaseCall)
    (hkeeps : Runs.Admissible (step ex) Keeps { manager := { executor } } calls) {reached : List LeaseCall}
    (hreached : reached <+: calls) :
    (reached.foldl (step ex) { manager := { executor } }).ValidatesCurrent := by
  have hinv : (reached.foldl (step ex) { manager := { executor } }).Inv := by
    refine Runs.invariant_of_isPrefix (fun h call hinv hcall => ?_) (inv_init executor) hkeeps hreached
    cases call with
    | lease job => exact inv_lease ex hinv hcall
    | revoke lease => exact inv_revoke ex hinv hcall
  exact hinv.validatesCurrent

/-- Two leases of one job and the second revoked, then a lease of another job. -/
theorem validates_iff_current_revoked :
    let calls : List LeaseCall :=
      [.lease ⟨1⟩, .lease ⟨1⟩, .revoke ⟨⟨2⟩, ⟨1⟩, ⟨3⟩, true⟩, .lease ⟨2⟩]
    let start : LeaseHistory DeterministicMockExecutor := { manager := { executor := {} } }
    Runs.Admissible (step DeterministicMockExecutor.executor) Keeps start calls ∧
      (calls.foldl (step DeterministicMockExecutor.executor) start).ValidatesCurrent := by
  intro calls start
  have hkeeps : Runs.Admissible (step DeterministicMockExecutor.executor) Keeps start calls := by
    decide +kernel
  exact ⟨hkeeps, validates_iff_current _ ({} : DeterministicMockExecutor) calls hkeeps List.prefix_rfl⟩

/-- A revoked lease validates again after the job is leased anew, and revoking an old lease makes the
current one invalid. -/
theorem revoked_lease_validates :
    let start : LeaseHistory DeterministicMockExecutor := { manager := { executor := {} } }
    ¬ ([.lease ⟨1⟩, .revoke ⟨⟨1⟩, ⟨1⟩, ⟨2⟩, true⟩, .lease ⟨1⟩].foldl
        (step DeterministicMockExecutor.executor) start).ValidatesCurrent ∧
      ¬ ([.lease ⟨1⟩, .lease ⟨1⟩, .revoke ⟨⟨1⟩, ⟨1⟩, ⟨2⟩, true⟩].foldl
        (step DeterministicMockExecutor.executor) start).ValidatesCurrent := by
  refine ⟨fun h => ?_, fun h => ?_⟩
  · have hold := h ⟨⟨1⟩, ⟨1⟩, ⟨2⟩, true⟩ (by decide +kernel) { lease := ⟨1⟩, attempt := ⟨2⟩ } rfl rfl
    exact absurd (hold.mp (by decide +kernel)) (by decide +kernel)
  · have hcurrent := h ⟨⟨2⟩, ⟨1⟩, ⟨3⟩, true⟩ (by decide +kernel) { lease := ⟨2⟩, attempt := ⟨3⟩ } rfl rfl
    exact absurd (hcurrent.mpr (by decide +kernel)) (by decide +kernel)

end LeaseHistory

end Forge
