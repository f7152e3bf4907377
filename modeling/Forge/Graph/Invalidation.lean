import Forge.Graph.BuildGraph

/-!
# Action keys

`action_key_for` of `invalidation.cpp`: the digest of the command and options of a node, the digests of its
inputs and those of the artifacts it depends on.
-/

namespace Forge

open Std (ExtTreeMap)

/-- `append_string`: the length, cut to 32 bits, and the bytes. -/
def appendString (material : Bytes) (value : Str) : Bytes :=
  appendU32Le material (UInt32.ofNat value.length) ++ value

def appendDigest (material : Bytes) (digest : Digest256) : Bytes :=
  digest.words.toList.foldl appendU64Le material

/-- The `material` that is hashed; options come in the order of their keys. -/
def actionKeyMaterial (action : ActionSpec) (inputKeys dependencyArtifacts : List Digest256) : Bytes :=
  let material := appendString [] "forge-action-key-v1"
  let material := appendString material action.command
  let material := action.options.foldl
    (fun material key value => appendString (appendString material key) value) material
  let material := inputKeys.foldl appendDigest material
  dependencyArtifacts.foldl appendDigest material

def actionKeyFor (node : BuildNode) (inputKeys dependencyArtifacts : List Digest256) : Digest256 :=
  digestBytes "action" (actionKeyMaterial node.action inputKeys dependencyArtifacts)

end Forge
