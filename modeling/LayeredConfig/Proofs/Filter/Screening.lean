import LayeredConfig.Proofs.Filter.Raw

/-!
# Trees with marked members

Members that come from layers of secrets carry a mark, so that they can be filtered out again.
`Screening secrets` says of a tree that right below its root a member carries the mark exactly
when its key is one of `secrets`, and that otherwise nothing has any metadata. Merging two such
trees adds up their keys (`Screening.merge`), and filtering leaves the members of all other keys
as they are (`Screening.filterWhere`).
-/

namespace LayeredConfig

namespace Json

/-- An object with the members alone whose keys `p` accepts. -/
def restrict (p : String → Bool) : Json → Json
  | .object members => .object (members.filter fun entry => p entry.1)
  | v => v

variable {p : String → Bool}

theorem Distinct.restrict {members : List (String × Json)} (h : (Json.object members).Distinct) :
    ((Json.object members).restrict p).Distinct := by
  refine .object ?_ fun key value hmem => h.member (List.mem_filter.1 hmem).1
  exact List.Nodup.sublist (List.filter_sublist.map Prod.fst) h.members

theorem distinct_object_nil : (object []).Distinct := .object List.nodup_nil (by simp)

/-- Of two objects, the keys may be picked before or after one is laid over the other. -/
theorem restrict_overlay {members upper : List (String × Json)} (hm : (object members).Distinct)
    (hu : (object upper).Distinct) :
    ((object members).overlay (object upper)).restrict p =
      ((object members).restrict p).overlay ((object upper).restrict p) := by
  have hm' : (object (members.filter fun entry => p entry.1)).Distinct := hm.restrict
  have hu' : (object (upper.filter fun entry => p entry.1)).Distinct := hu.restrict
  rw [overlay_eq_unionWith hm hu, restrict, restrict, restrict, overlay_eq_unionWith hm' hu',
    Members.filter_unionWith]

/-- An object of none of the keys that are picked is not seen when it is laid over another. -/
theorem restrict_overlay_of_forall {members upper : List (String × Json)}
    (hm : (object members).Distinct) (hu : (object upper).Distinct)
    (hp : ∀ key ∈ Members.keys upper, p key = false) :
    ((object members).overlay (object upper)).restrict p = (object members).restrict p := by
  have hnone : upper.filter (fun entry => p entry.1) = [] := by
    rw [List.filter_eq_nil_iff]
    intro entry hentry
    simp [hp entry.1 (List.mem_map_of_mem hentry)]
  rw [restrict_overlay hm hu, restrict, restrict, hnone, overlay_object, overlayMembers_nil]

end Json

/-- What a member carries below the root of a layer, of secrets or a plain one. -/
def Metadata.secrecy (secret : Bool) : Metadata :=
  if secret then empty.set fromSecrets (.bool true) else empty

theorem Metadata.merged_secrecy (secret secret' : Bool) :
    (secrecy secret).merged (secrecy secret') = secrecy (secret || secret') := by
  cases secret <;> cases secret' <;> rfl

namespace Node

/-- Whether a node is not marked as coming from a layer of secrets. -/
def notFromSecrets (n : Node) : Bool := !n.metadata.flag Metadata.fromSecrets

theorem notFromSecrets_of_secrecy {secret : Bool} {n : Node} (h : n.metadata = .secrecy secret) :
    n.notFromSecrets = !secret := by
  rw [notFromSecrets, h]
  cases secret <;> rfl

theorem notFromSecrets_of_empty {n : Node} (h : n.metadata = .empty) : n.notFromSecrets = true := by
  rw [notFromSecrets, h]
  rfl

/-- Where nothing is rejected below a member that is kept, the kept members stay as they are. -/
theorem pruned_object_of_forall {keep : Node → Bool} {label : Label}
    {members : List (String × Node)} (h : ∀ entry ∈ members, keep entry.2 = true →
      entry.2.Everywhere fun n => keep n = true) :
    (object label members).pruned keep =
      .object
        { label with
          raw := label.raw.withoutKeys
            ((members.filter fun entry => !keep entry.2).map Prod.fst) }
        (members.filter fun entry => keep entry.2) := by
  have hself : Members.mapValues (pruned keep) (members.filter fun entry => keep entry.2) =
      members.filter fun entry => keep entry.2 := by
    refine (List.map_congr_left fun entry hentry => ?_).trans (List.map_id _)
    obtain ⟨hmem, hkeep⟩ := List.mem_filter.1 hentry
    exact Prod.ext rfl (pruned_eq_self (everywhere_iff.1 (h entry hmem hkeep)).2)
  rw [pruned_object, hself]

end Node

/-! ### Screened members -/

/-- A member as a stack of layers leaves it. Under a key of some layer of secrets it is there, and
marked; under another key it may be there, and then nothing in it has any metadata. -/
def Screened (secret : Bool) : Option Node → Prop
  | none => secret = false
  | some child => child.metadata = .secrecy secret ∧
      (secret = false → child.Everywhere fun n => n.metadata = .empty)

theorem Screened.merge {secret secret' : Bool} {lower upper : Option Node}
    (hl : Screened secret lower) (hu : Screened secret' upper) :
    Screened (secret || secret') (lower.merge Node.merge upper) := by
  cases lower with
  | none =>
      obtain rfl : secret = false := hl
      simpa using hu
  | some child =>
      cases upper with
      | none =>
          obtain rfl : secret' = false := hu
          simpa using hl
      | some other =>
          obtain ⟨hchild, hbelow⟩ := hl
          obtain ⟨hother, hbelow'⟩ := hu
          refine ⟨?_, fun hplain => ?_⟩
          · rw [Node.metadata_merge, hchild, hother, Metadata.merged_secrecy]
          · obtain ⟨rfl, rfl⟩ : secret = false ∧ secret' = false := by simpa using hplain
            refine Node.Everywhere.merge (fun a b ha hb => ?_) (hbelow rfl) (hbelow' rfl)
            rw [Node.metadata_merge, ha, hb, Metadata.merged_empty]

theorem Screened.everywhere {secret : Bool} {child : Node} (h : Screened secret (some child))
    (hkeep : child.notFromSecrets = true) :
    child.Everywhere fun n => n.notFromSecrets = true := by
  obtain ⟨hmetadata, hbelow⟩ := h
  have hplain : secret = false := by simpa [Node.notFromSecrets_of_secrecy hmetadata] using hkeep
  exact (hbelow hplain).mono fun _ => Node.notFromSecrets_of_empty

/-! ### Screened trees -/

/-- A tree of a stack of layers, `secrets` being the keys of its layers of secrets. -/
structure Screening (secrets : List String) (n : Node) : Prop where
  metadata : n.metadata = .empty
  wellFormed : n.WellFormed
  inStep : n.InStep
  members : ∃ members, n.members? = some members ∧
    ∀ key, Screened (decide (key ∈ secrets)) (Members.get? key members)

namespace Screening

variable {secrets secrets' : List String} {lower upper n : Node}

theorem merge (hl : Screening secrets lower) (hu : Screening secrets' upper) :
    Screening (secrets ++ secrets') (Node.merge lower upper) where
  metadata := by rw [Node.metadata_merge, hl.metadata, hu.metadata, Metadata.merged_empty]
  wellFormed := hl.wellFormed.merge hu.wellFormed
  inStep := hl.inStep.merge hl.wellFormed hu.wellFormed hu.inStep
  members := by
    obtain ⟨members, hmembers, hlower⟩ := hl.members
    obtain ⟨others, hothers, hupper⟩ := hu.members
    have hlw := hl.wellFormed
    have huw := hu.wellFormed
    cases lower with
    | object label ms =>
        obtain rfl : ms = members := Option.some.inj hmembers
        cases upper with
        | object label' os =>
            obtain rfl : os = others := Option.some.inj hothers
            rw [Node.merge_object, Node.mergeMembers_eq_unionWith
              (Node.wellFormed_object.1 hlw).1 (Node.wellFormed_object.1 huw).1]
            refine ⟨_, rfl, fun key => ?_⟩
            simp only [Members.get?_unionWith, List.mem_append, Bool.decide_or]
            exact (hlower key).merge (hupper key)
        | _ => cases hothers
    | _ => cases hmembers

/-- Filtering by the mark keeps the members under all keys but those of the layers of secrets. -/
theorem filterWhere (h : Screening secrets n) :
    ∃ filtered, n.filterWhere Node.notFromSecrets = .ok filtered ∧ filtered.WellFormed ∧
      filtered.InStep ∧ filtered.toJson = n.toJson.restrict fun key => key ∉ secrets := by
  have hroot : n.notFromSecrets = true := Node.notFromSecrets_of_empty h.metadata
  obtain ⟨members, hmembers, hscreened⟩ := h.members
  have hwell := h.wellFormed
  have hstep := h.inStep
  refine ⟨n.pruned Node.notFromSecrets, if_pos hroot, ?_⟩
  cases n with
  | object label ms =>
      obtain rfl : ms = members := Option.some.inj hmembers
      obtain ⟨hdistinct, hchildren⟩ := Node.wellFormed_object.1 hwell
      have hmember : ∀ entry ∈ ms, Screened (decide (entry.1 ∈ secrets)) (some entry.2) := by
        intro entry hentry
        have hscreen := hscreened entry.1
        rwa [Members.get?_of_mem hdistinct hentry] at hscreen
      have hclean : ∀ entry ∈ ms, entry.2.notFromSecrets = true →
          entry.2.Everywhere fun m => m.notFromSecrets = true :=
        fun entry hentry => (hmember entry hentry).everywhere
      have hkept : ms.filter (fun entry => entry.2.notFromSecrets) =
          ms.filter fun entry => entry.1 ∉ secrets := by
        refine List.filter_congr fun entry hentry => ?_
        rw [Node.notFromSecrets_of_secrecy (hmember entry hentry).1, decide_not]
      refine ⟨?_, (Node.inStep_pruned_iff hwell.keys hstep).2 ?_, ?_⟩
      · rw [Node.pruned_object_of_forall hclean, Node.wellFormed_object]
        refine ⟨List.Nodup.sublist (List.filter_sublist.map Prod.fst) hdistinct, ?_⟩
        exact fun entry hentry => hchildren entry (List.mem_filter.1 hentry).1
      · rw [Node.children, List.forall_mem_map]
        exact hclean
      · rw [Node.pruned_object_of_forall hclean, hkept, Node.toJson_object, Node.toJson_object,
          Json.restrict, Members.mapValues, Members.mapValues, List.filter_map]
        rfl
  | _ => cases hmembers

end Screening

end LayeredConfig
