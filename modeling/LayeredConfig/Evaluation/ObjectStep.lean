import LayeredConfig.Json.Printer
import LayeredConfig.Logged
import LayeredConfig.Node.Merge
import LayeredConfig.Position

/-!
# Putting an object together

The members of an object are evaluated first; then the metadata of each tells what becomes of it.
A member that is to merge goes under the kept members, one that is to override goes over them,
one that is to flatten replaces the object, and one may be kept under another key. A request to
merge or override that did not come out as an object counts as one to flatten. Where the key was
written does not matter across these groups; within a group it does.
-/

namespace LayeredConfig

namespace ObjectStep

/-- What becomes of a member. -/
inductive Role where
  /-- Kept under its own key. -/
  | kept
  /-- Kept under another key. -/
  | renamed (key : String)
  /-- Meant to be kept under something that is no key. -/
  | misnamed (key : Json)
  /-- Replaces the object. -/
  | flattened
  /-- Replaces the object because it cannot be merged with it. -/
  | demoted
  /-- Goes under the kept members. -/
  | merged
  /-- Goes over the kept members. -/
  | overriding
  deriving DecidableEq

/-- The role that a member's metadata gives it: the first of the four instructions counts. -/
def roleOf (member : Node) : Role :=
  if member.metadata.flag Metadata.shouldMerge then
    if member.isObject then .merged else .demoted
  else if member.metadata.flag Metadata.shouldOverride then
    if member.isObject then .overriding else .demoted
  else if member.metadata.flag Metadata.shouldFlatten then .flattened
  else
    match member.metadata.get? Metadata.renameKey with
    | none => .kept
    | some (.string key) => .renamed key
    | some key => .misnamed key

/-- Members in their groups. -/
structure Groups where
  kept : Members Node := []
  flattened : List Node := []
  merged : List Node := []
  overriding : List Node := []
  deriving Inhabited

/-- The failure of a member that is to be kept under something that is no key. -/
def misnamedError (path key : String) (found : Json) : ConfigError :=
  .internal ("rewrite key for '" ++ key ++ "' at " ++ path ++ " must be a string, got "
    ++ found.render)

/-- Puts a member into its group, `path` being that of the object. Its instructions are followed
and taken off. -/
def place (path : String) (groups : Groups) (key : String) (member : Node) : Logged Groups :=
  let plain := member.withoutInstructions
  match roleOf member with
  | .kept => .ok { groups with kept := groups.kept.insert key member }
  | .renamed target => do
    Logged.report (.memberRenamed path key target)
    pure { groups with kept := groups.kept.insert target plain }
  | .misnamed found => .fail (misnamedError path key found)
  | .flattened => do
    Logged.report (.memberFlattens path key)
    pure { groups with flattened := groups.flattened ++ [plain] }
  | .demoted => do
    Logged.report (.mergeDemoted path key)
    pure { groups with flattened := groups.flattened ++ [plain] }
  | .merged => .ok { groups with merged := groups.merged ++ [plain] }
  | .overriding => .ok { groups with overriding := groups.overriding ++ [plain] }

/-- Puts members into their groups, one after the other. -/
def placeAll (path : String) (groups : Groups) : List (String × Node) → Logged Groups
  | [] => .ok groups
  | (key, member) :: rest => do
    let groups ← place path groups key member
    placeAll path groups rest

/-- What an object comes to when members replace it: the first of them. Whatever else the object
held is lost, which is reported. -/
def flatten (path : String) (metadata : Metadata) (keyCount : Nat) (first : Node)
    (others : List Node) : Logged Node := do
  if 1 < keyCount then Logged.report (.keysDiscarded path (keyCount - 1))
  if !others.isEmpty then Logged.report (.severalFlattened path (others.length + 1))
  pure (first.addMetadata metadata)

/-- What an object comes to otherwise: merged members go under the kept ones, each under the one
before it, and overriding members over them. -/
def assemble (label : Label) (groups : Groups) : Node :=
  let base := groups.merged.foldl (fun lower item => item.merge lower) (.object label groups.kept)
  groups.overriding.foldl Node.merge base

/-- The node of an object from its evaluated members. The label is that of the object itself:
its source, its raw value and its metadata. -/
def run (path : String) (label : Label) (members : List (String × Node)) : Logged Node := do
  let groups ← placeAll path {} members
  match groups.flattened with
  | first :: others => flatten path label.metadata members.length first others
  | [] => pure (assemble label groups)

theorem roleOf_of_no_metadata {member : Node} (h : member.metadata = .empty) :
    roleOf member = .kept := by
  simp [roleOf, h, Metadata.flag]

end ObjectStep

end LayeredConfig
