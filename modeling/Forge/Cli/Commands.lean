import Forge.Daemon.Server
import Forge.Workspace.DeclaredBuild

/-!
# The forge command

`main` of `forge_main.cpp` and its commands, from the arguments of the process to what it has written and its
exit code. `forge build FILE` reads the manifest in the file, builds the targets in a new workspace with the
mock executor and prints what the build announces. It ends with 0 exactly if the text is a manifest whose
names are all declared, that declares the targets, and in which no node needs itself (`build_exit`). Then it
has printed a build of what the targets need, in an order of the declared dependencies (`build_prints`).
-/

namespace Forge

namespace Cli

open Std (ExtTreeMap)
open Digraph (Acyclic ClosureOrder)
open WorkspaceCore (newWorkspace)

/-- What a process has written to the standard output and the standard error, and its exit code. -/
structure Exit where
  out : Str := []
  err : Str := []
  code : Nat := 0
deriving DecidableEq, Repr

/-- What the commands find: the bytes of a file, if it can be opened, and what `UnixSocketClient::status`
returns for a path. -/
structure Host where
  file : Str → Option Str
  status : Str → Result Str

/-- The text and a line end. -/
def line (text : Str) : Str := text ++ [10]

def failed (message : Str) (code : Nat := 3) : Exit := { err := line message, code }

/-! ## Commands -/

/-- What `cmd_build` does with the outcome of the build; an exception ends the process otherwise. -/
def report : Return BuildOutcome → Option Exit
  | .threw => none
  | .value (.error status) => some (failed status.message)
  | .value (.ok outcome) => some
    { out := (outcome.events.map BuildEvent.message).flatMap line ++
        line (Str.ofLiteral "artifacts=" ++ decimal outcome.artifacts.length) }

/-- The loop over the targets that are named; an unknown one ends it. -/
def findTargets (applied : AppliedManifest) : List Str → Except Str (List NodeId)
  | [] => .ok []
  | name :: rest =>
    match applied.nodesByName[name]? with
    | none => .error name
    | some id => (findTargets applied rest).map (id :: ·)

/-- Without a manifest, a graph of two nodes. -/
def demo : Option Exit :=
  let debug : ExtTreeMap Str Str := (∅ : ExtTreeMap Str Str).insert "mode" "debug"
  let (lib, workspace) := newWorkspace.putNode "lib" ⟨"mock-lib", debug⟩
  let (app, workspace) := workspace.putNode "app" ⟨"mock-app", debug⟩
  match lib, app with
  | .ok lib, .ok app =>
    match workspace.putEdge app lib .declared with
    | (.error status, _) => some (failed status.message)
    | (.ok _, workspace) => report (workspace.build DeterministicMockExecutor.executor [app] {}).1
  | _, _ => some (failed "failed to create demo graph")

/-- `cmd_build`, for the arguments behind the name of the command. -/
def cmdBuild (host : Host) : List Str → Option Exit
  | [] => demo
  | path :: names =>
    match host.file path with
    | none => some (failed (Str.ofLiteral "unable to open manifest: " ++ path) 2)
    | some text =>
      match parseManifest text with
      | .error status => some (failed status.message)
      | .ok manifest =>
        match newWorkspace.applyManifest manifest with
        | (.threw, _) => none
        | (.value (.error status), _) => some (failed status.message)
        | (.value (.ok applied), workspace) =>
          match if names = [] then .ok applied.targets else findTargets applied names with
          | .error name => some (failed (Str.ofLiteral "unknown target: " ++ name))
          | .ok targets => report (workspace.build DeterministicMockExecutor.executor targets {}).1

/-- `cmd_graph` behind `apply`. -/
def graphApply (host : Host) (path : Str) : Option Exit :=
  match host.file path with
  | none => some (failed (Str.ofLiteral "unable to open manifest: " ++ path) 2)
  | some text =>
    match parseManifest text with
    | .error status => some (failed status.message)
    | .ok manifest =>
      match newWorkspace.applyManifest manifest with
      | (.threw, _) => none
      | (.value (.error status), _) => some (failed status.message)
      | (.value (.ok applied), workspace) => some
        { out := line (Str.ofLiteral "generation=" ++ decimal workspace.graph.generation.value.toNat ++
            Str.ofLiteral " nodes=" ++ decimal applied.nodesByName.size ++
            Str.ofLiteral " edges=" ++ decimal workspace.graph.edges.size ++
            Str.ofLiteral " targets=" ++ decimal applied.targets.length) }

def graphSample : Exit :=
  match newWorkspace.putNode "sample" ⟨"mock", ∅⟩ with
  | (.error status, _) => failed status.message
  | (.ok node, workspace) =>
    { out := line (Str.ofLiteral "generation=" ++ decimal workspace.graph.generation.value.toNat ++
        Str.ofLiteral " node=" ++ decimal node.value.toNat) }

def cmdGraph (host : Host) : List Str → Option Exit
  | command :: path :: _ => if command = "apply" then graphApply host path else some graphSample
  | _ => some graphSample

def cmdStatus (host : Host) : List Str → Exit
  | [option, path] =>
    if option = "--socket" then
      match host.status path with
      | .error status => failed status.message 10
      | .ok text => { out := text }
    else failed "usage: forge status [--socket PATH]" 2
  | [] =>
    { out := line (Str.ofLiteral "state=initialized generation=" ++
        decimal newWorkspace.graph.generation.value.toNat) }
  | _ => failed "usage: forge status [--socket PATH]" 2

/-- `main`; the first argument is the name of the program. -/
def main (host : Host) : List Str → Option Exit
  | _ :: command :: args =>
    if command = "build" ∨ command = "demo" then cmdBuild host args
    else if command = "graph" then cmdGraph host args
    else if command = "status" then some (cmdStatus host args)
    else some (failed (Str.ofLiteral "unknown command: " ++ command) 2)
  | _ => some (failed
    "usage: forge <build [manifest] [targets...]|graph apply <manifest>|status [--socket PATH]|demo>" 2)

/-! ## Building a manifest -/

theorem findTargets_cases {applied : AppliedManifest} (names : List Str) :
    (∃ ids, findTargets applied names = .ok ids ∧
        names.map (applied.nodesByName[·]?) = ids.map some) ∨
      (∃ name ∈ names, name ∉ applied.nodesByName) ∧ ∃ name, findTargets applied names = .error name := by
  induction names with
  | nil => exact .inl ⟨[], rfl, rfl⟩
  | cons name rest ih =>
    cases hfound : applied.nodesByName[name]? with
    | none =>
      refine .inr ⟨⟨name, List.mem_cons_self, ExtTreeMap.not_mem_iff.mpr hfound⟩, name, ?_⟩
      rw [findTargets, hfound]
    | some id =>
      rcases ih with ⟨ids, hids, hlookup⟩ | ⟨⟨other, hother, hunknown⟩, name', herror⟩
      · refine .inl ⟨id :: ids, ?_, by rw [List.map_cons, List.map_cons, hfound, hlookup]⟩
        rw [findTargets, hfound, hids]
        rfl
      · refine .inr ⟨⟨other, List.mem_cons_of_mem _ hother, hunknown⟩, name', ?_⟩
        rw [findTargets, hfound, herror]
        rfl

/-- The lines printed for a build in this order. -/
def buildLines (manifest : GraphManifest) (order : List Str) : Str :=
  (order.flatMap (manifest.announcements order)).flatMap line ++
    line (Str.ofLiteral "artifacts=" ++ decimal (order.filter (IsFirst manifest.keyOf order)).length)

/-- Without names the targets of the manifest are built. -/
def targetsOf (manifest : GraphManifest) (names : List Str) : List Str :=
  if names = [] then WorkspaceCore.targetNames manifest else names

/-- A command that ends with one line on the standard error. -/
def Fails (code : Nat) (exit : Option Exit) : Prop := ∃ message, exit = some (failed message code)

theorem fails_report {result : Return BuildOutcome} {status : Status} (h : result = .value (.error status)) :
    Fails 3 (report result) := ⟨status.message, by rw [h]; rfl⟩

section Build

variable {host : Host} {path text : Str} {manifest : GraphManifest} {names : List Str}

theorem cmdBuild_unread (hfile : host.file path = none) : Fails 2 (cmdBuild host (path :: names)) := by
  refine ⟨Str.ofLiteral "unable to open manifest: " ++ path, ?_⟩
  rw [cmdBuild, hfile]

theorem cmdBuild_unparsed (hfile : host.file path = some text) {status : Status}
    (hparse : parseManifest text = .error status) : Fails 3 (cmdBuild host (path :: names)) := by
  refine ⟨status.message, ?_⟩
  simp only [cmdBuild, hfile, hparse]

theorem cmdBuild_open (hfile : host.file path = some text) (hparse : parseManifest text = .ok manifest)
    (hopen : ¬ manifest.Closed) : Fails 3 (cmdBuild host (path :: names)) := by
  obtain ⟨count, ⟨status, hfail⟩, -⟩ := WorkspaceCore.applyManifest_not_closed newWorkspace hopen
  refine ⟨status.message, ?_⟩
  simp only [cmdBuild, hfile, hparse]
  rcases happly : newWorkspace.applyManifest manifest with ⟨result, workspace⟩
  rw [happly] at hfail
  rw [show result = _ from hfail]

theorem targets_cases {applied : AppliedManifest} {graph : BuildGraph}
    (h : WorkspaceCore.Declares manifest applied graph) (names : List Str) :
    let targets := if names = [] then .ok applied.targets else findTargets applied names
    ((∀ name ∈ names, name ∈ manifest.names) ∧ ∃ ids, targets = .ok ids ∧
        (targetsOf manifest names).map (applied.nodesByName[·]?) = ids.map some) ∨
      (∃ name ∈ names, name ∉ manifest.names) ∧ ∃ name, targets = .error name := by
  intro targets
  by_cases hnone : names = []
  · refine .inl ⟨by simp [hnone], applied.targets, if_pos hnone, ?_⟩
    rw [targetsOf, if_pos hnone]
    exact h.targets
  · simp only [targets, targetsOf, if_neg hnone]
    rcases findTargets_cases names with ⟨ids, hids, hlookup⟩ | ⟨⟨name, hname, hunknown⟩, herror⟩
    · refine .inl ⟨fun name hname => ?_, ids, hids, hlookup⟩
      have hmem : applied.nodesByName[name]? ∈ ids.map some := hlookup ▸ List.mem_map_of_mem hname
      obtain ⟨id, -, hid⟩ := List.mem_map.mp hmem
      exact (h.lookup hid.symm).1
    · exact .inr ⟨⟨name, hname, fun hdeclared => hunknown ((h.names name).mpr hdeclared)⟩, herror⟩

theorem cmdBuild_closed (names : List Str) (hfile : host.file path = some text)
    (hparse : parseManifest text = .ok manifest) (hclosed : manifest.Closed) (hsize : text.length + 1 < 2 ^ 63) :
    (¬ manifest.Buildable names → Fails 3 (cmdBuild host (path :: names))) ∧
      (manifest.Buildable names → ∃ order, ClosureOrder manifest.Needs (targetsOf manifest names) order ∧
        cmdBuild host (path :: names) = some { out := buildLines manifest order }) := by
  obtain ⟨-, -, -, hnodup, hne⟩ := parseManifest_eq_ok_iff.mp hparse
  obtain ⟨hnodes, hedges⟩ := length_records_le hparse
  obtain ⟨applied, workspace, happly, hdeclares⟩ :=
    WorkspaceCore.applyManifest_declares hclosed hnodup hne (by omega) (by omega)
  have hnew := ({} : WorkspaceCore).applyManifest_members manifest
  rw [happly] at hnew
  have hhub : (workspace.eventHub.openStream workspace.nextRequest.toUInt32 (1024 * 1024)).1 = .ok () := by
    rw [show workspace = _ from hnew]
    show (({} : EventHub).openStream (1 : UInt64).toUInt32 (1024 * 1024)).1 = .ok ()
    decide
  simp only [cmdBuild, newWorkspace, hfile, hparse, happly]
  rcases targets_cases hdeclares names with ⟨hknown, ids, htargets, hlookup⟩ | ⟨⟨name, hname, hunknown⟩, herror⟩
  · rw [htargets]
    by_cases hacyclic : Acyclic manifest.Needs
    · obtain ⟨outcome, order, hbuild, horder, hmessages, hartifacts⟩ :=
        hdeclares.build_acyclic hclosed hnodup hacyclic hhub hlookup
      refine ⟨fun hnot => absurd ⟨hclosed, hknown, hacyclic⟩ hnot, fun _ => ⟨order, horder, ?_⟩⟩
      dsimp only
      rw [hbuild, report, buildLines, hmessages, hartifacts]
    · obtain ⟨status, hbuild⟩ := hdeclares.build_cyclic hclosed hacyclic ids
      exact ⟨fun _ => fails_report hbuild, fun hbuildable => absurd hbuildable.acyclic hacyclic⟩
  · obtain ⟨name', herror⟩ := herror
    rw [herror]
    exact ⟨fun _ => ⟨_, rfl⟩, fun hbuildable => absurd (hbuildable.targets name hname) hunknown⟩

/-- The text at the path is a manifest of which the named targets can be built. -/
def CanBuild (host : Host) (path : Str) (names : List Str) : Prop :=
  ∃ text manifest, host.file path = some text ∧ parseManifest text = .ok manifest ∧ manifest.Buildable names

theorem cmdBuild_cases (names : List Str)
    (hsize : ∀ text, host.file path = some text → text.length + 1 < 2 ^ 63) :
    host.file path = none ∧ ¬ CanBuild host path names ∧ Fails 2 (cmdBuild host (path :: names)) ∨
      host.file path ≠ none ∧ ¬ CanBuild host path names ∧ Fails 3 (cmdBuild host (path :: names)) ∨
      host.file path ≠ none ∧ CanBuild host path names ∧
        ∃ lines, cmdBuild host (path :: names) = some { out := lines } := by
  cases hfile : host.file path with
  | none =>
    refine .inl ⟨rfl, ?_, cmdBuild_unread hfile⟩
    rintro ⟨text, manifest, htext, -⟩
    cases hfile.symm.trans htext
  | some text =>
    refine .inr ?_
    cases hparse : parseManifest text with
    | error status =>
      refine .inl ⟨by simp, ?_, cmdBuild_unparsed hfile hparse⟩
      rintro ⟨text', manifest, htext, hmanifest, -⟩
      obtain rfl := Option.some.inj (hfile.symm.trans htext)
      cases hparse.symm.trans hmanifest
    | ok manifest =>
      have hcan : CanBuild host path names ↔ manifest.Buildable names := by
        constructor
        · rintro ⟨text', manifest', htext, hmanifest, hbuildable⟩
          obtain rfl := Option.some.inj (hfile.symm.trans htext)
          rwa [Except.ok.inj (hparse.symm.trans hmanifest)]
        · exact fun hbuildable => ⟨text, manifest, hfile, hparse, hbuildable⟩
      rw [hcan]
      by_cases hclosed : manifest.Closed
      · obtain ⟨hfails, hprints⟩ := cmdBuild_closed names hfile hparse hclosed (hsize text hfile)
        by_cases hbuildable : manifest.Buildable names
        · obtain ⟨order, -, hexit⟩ := hprints hbuildable
          exact .inr ⟨by simp, hbuildable, _, hexit⟩
        · exact .inl ⟨by simp, hbuildable, hfails hbuildable⟩
      · exact .inl ⟨by simp, fun hbuildable => hclosed hbuildable.closed, cmdBuild_open hfile hparse hclosed⟩

end Build

/-- **How `forge build` ends**: with 0 exactly where the named targets can be built, with 2 where the file
cannot be opened, and else with 3; and it writes to the standard output or else to the standard error. -/
theorem build_exit (host : Host) (program path : Str) (names : List Str)
    (hsize : ∀ text, host.file path = some text → text.length + 1 < 2 ^ 63) :
    ∃ exit, main host (program :: "build" :: path :: names) = some exit ∧
      (exit.code = 0 ↔ CanBuild host path names) ∧ (exit.code = 2 ↔ host.file path = none) ∧
      exit.code ∈ [0, 2, 3] ∧ (exit.err = [] ↔ exit.code = 0) ∧ (exit.out ≠ [] → exit.code = 0) := by
  have hfailed (message : Str) (code : Nat) : (failed message code).err ≠ [] := by simp [failed, line]
  rcases cmdBuild_cases names hsize with
    ⟨hfile, hcan, message, hexit⟩ | ⟨hfile, hcan, message, hexit⟩ | ⟨hfile, hcan, lines, hexit⟩
  · exact ⟨_, hexit, by simp [failed, hcan], by simp [failed, hfile], by simp [failed],
      iff_of_false (hfailed message 2) (by simp [failed]), by simp [failed]⟩
  · exact ⟨_, hexit, by simp [failed, hcan], by simp [failed, hfile], by simp [failed],
      iff_of_false (hfailed message 3) (by simp [failed]), by simp [failed]⟩
  · exact ⟨_, hexit, by simp [hcan], by simp [hfile], by simp, by simp, by simp⟩

/-- A library and two programs with one command that need it. -/
def twinsText : Str :=
  "node core c\nnode app a\nnode twin a\nedge app core\nedge twin core\ntarget app\ntarget twin"

def twinsHost : Host where
  file path := if path = "forge.txt" then some twinsText else none
  status _ := .error (Status.error .io "unix-socket-client" "unable to connect")

/-- The two programs can be built, and a node that is not declared cannot. -/
theorem build_exit_twins :
    CanBuild twinsHost "forge.txt" [] ∧ ¬ CanBuild twinsHost "forge.txt" ["core", "lib"] := by
  have hsize : ∀ text, twinsHost.file "forge.txt" = some text → text.length + 1 < 2 ^ 63 := by
    intro text htext
    rw [← Option.some.inj htext]
    decide +kernel
  obtain ⟨exit, hexit, hcode, -⟩ := build_exit twinsHost "forge" "forge.txt" [] hsize
  obtain ⟨exit', hexit', hcode', -⟩ := build_exit twinsHost "forge" "forge.txt" ["core", "lib"] hsize
  have hzero : (main twinsHost ["forge", "build", "forge.txt"]).map Exit.code = some 0 := by decide +kernel
  have hthree : (main twinsHost ["forge", "build", "forge.txt", "core", "lib"]).map Exit.code = some 3 := by
    decide +kernel
  rw [hexit] at hzero
  rw [hexit'] at hthree
  refine ⟨hcode.mp (Option.some.inj hzero), fun hcan => ?_⟩
  have hsame := (hcode'.mpr hcan).symm.trans (Option.some.inj hthree)
  exact absurd hsame (by decide)

/-- **What `forge build` prints** for a manifest of which the named targets can be built: in an order of what
they need, each node behind those that it depends on, its own job for the first node with an action key and
the attachment of any other; and the number of the jobs. -/
theorem build_prints {host : Host} {path text : Str} {manifest : GraphManifest} {names : List Str}
    (hfile : host.file path = some text) (hparse : parseManifest text = .ok manifest)
    (hbuildable : manifest.Buildable names) (hsize : text.length + 1 < 2 ^ 63) (program : Str) :
    ∃ order, ClosureOrder manifest.Needs (targetsOf manifest names) order ∧
      main host (program :: "build" :: path :: names) = some { out := buildLines manifest order } :=
  (cmdBuild_closed names hfile hparse hbuildable.closed hsize).2 hbuildable

def twinsManifest : GraphManifest where
  nodes := [⟨"core", { command := "c" }⟩, ⟨"app", { command := "a" }⟩, ⟨"twin", { command := "a" }⟩]
  edges := [⟨"app", "core", .declared⟩, ⟨"twin", "core", .declared⟩]
  targets := ["app", "twin"]

/-- The second program is attached to the job of the first. -/
theorem build_prints_twins :
    ∃ order, ClosureOrder twinsManifest.Needs ["app", "twin"] order ∧
      buildLines twinsManifest order =
        "running core\nsucceeded core\nrunning app\nsucceeded app\nattached duplicate job\nartifacts=2\n" := by
  have hneeds : ∀ name other, twinsManifest.Needs name other → name ≠ "core" ∧ other = "core" := by
    rintro _ _ ⟨edge, hedge, rfl, rfl⟩
    simp only [twinsManifest, List.mem_cons, List.not_mem_nil, or_false] at hedge
    rcases hedge with rfl | rfl
    · decide
    · decide
  have hacyclic : Acyclic twinsManifest.Needs := fun name hcycle => by
    obtain ⟨other, hfirst, -⟩ := Relation.TransGen.head'_iff.mp hcycle
    obtain ⟨other', -, hlast⟩ := Relation.TransGen.tail'_iff.mp hcycle
    exact (hneeds name other hfirst).1 (hneeds other' name hlast).2
  obtain ⟨order, horder, hexit⟩ := @build_prints twinsHost "forge.txt" twinsText twinsManifest [] rfl
    (by decide +kernel) ⟨⟨by decide +kernel, by decide +kernel, by decide +kernel⟩, by decide, hacyclic⟩
    (by decide +kernel) "forge"
  have hlines : main twinsHost ["forge", "build", "forge.txt"] = some { out :=
      "running core\nsucceeded core\nrunning app\nsucceeded app\nattached duplicate job\nartifacts=2\n" } := by
    decide +kernel
  exact ⟨order, horder, congrArg Exit.out (Option.some.inj (hexit.symm.trans hlines))⟩

end Cli

end Forge
